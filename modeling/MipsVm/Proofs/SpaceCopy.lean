import MipsVm.Proofs.LoadRecovery
import MipsVm.Proofs.MemoryIsolation
import MipsVm.Proofs.UserAddresses
import MipsVm.Proofs.VmAccounting

/-! A copy of an address space has frames of its own: in them are the bytes of the original, and zeros
where the original has no frames. -/
namespace MipsVm

namespace AddressSpace
variable {p c : AddressSpace} {segment : Segment} {segments rest : List Segment} {r : Region}
  {va : VAddr} {s t : FrameRange}

theorem contains_of_layout (hlayout : c.layout = p.layout) (hr : p.region? segment = some r)
    (hin : r.Contains va) :
    ∃ q, c.region? segment = some q ∧ q.vbase = r.vbase ∧ q.Contains va := by
  obtain ⟨q, hq, hvbase, hnpages⟩ := region?_of_layout hlayout.symm hr
  refine ⟨q, hq, hvbase, ?_⟩
  rw [Region.contains_iff, hvbase, hnpages, ← Region.contains_iff]
  exact hin

theorem frames_of_layout (hlayout : c.layout = p.layout) (hs : p.range? segment = some s)
    (ht : c.range? segment = some t) : t.frames = s.frames := by
  obtain ⟨r, base, hr, -, rfl⟩ := range?_eq_some_iff.mp hs
  obtain ⟨q, dst, hq, -, rfl⟩ := range?_eq_some_iff.mp ht
  obtain ⟨r', hr', -, hnpages⟩ := region?_of_layout hlayout hq
  obtain rfl : r = r' := Option.some.inj (hr.symm.trans hr')
  exact hnpages.symm

theorem span_one {u : Translation} (h : c.translate va = .ok (some u)) :
    c.span va 1 = .ok (.ok u.pa) := by
  have hlast : va.add? (1 - 1) = some va := Address.add?_eq_some_iff.mpr rfl
  simp only [span, h, hlast]
  exact congrArg Except.ok (if_pos rfl)

/-- `c` has the regions of `p` and frames of its own, all of them in RAM. -/
structure Twins (p c : AddressSpace) (ram : Ram) : Prop where
  layout : c.layout = p.layout
  inside : ∀ t ∈ c.ranges, t.stop ≤ ram.size
  apart : c.ranges.Pairwise FrameRange.Apart
  foreign : ∀ s ∈ p.ranges, ∀ t ∈ c.ranges, s.Apart t

/-- The frames that a copy of `segments` writes to: those behind `c` where `p` has frames too. -/
def targets (p c : AddressSpace) (segments : List Segment) : List FrameRange :=
  segments.filterMap fun segment => (p.range? segment).bind fun _ => c.range? segment

theorem mem_targets_iff : t ∈ targets p c segments ↔
    ∃ segment ∈ segments, ∃ s, p.range? segment = some s ∧ c.range? segment = some t := by
  simp only [targets, List.mem_filterMap, Option.bind_eq_some_iff]

theorem targets_subset_ranges : targets p c segments ⊆ c.ranges := by
  intro t ht
  obtain ⟨segment, -, s, -, hc⟩ := mem_targets_iff.mp ht
  exact mem_ranges_iff.mpr ⟨segment, hc⟩

theorem targets_subset_cons : targets p c rest ⊆ targets p c (segment :: rest) := by
  intro t ht
  obtain ⟨other, hother, hboth⟩ := mem_targets_iff.mp ht
  exact mem_targets_iff.mpr ⟨other, List.mem_cons_of_mem _ hother, hboth⟩

/-- The frames of a segment that is not copied, or that was copied before, are not written to. -/
theorem not_covers_targets {i : Nat} (hapart : c.ranges.Pairwise FrameRange.Apart)
    (ht : c.range? segment = some t) (hi : t.Covers i)
    (hnew : ∀ s, p.range? segment = some s → segment ∉ rest) :
    ∀ u ∈ targets p c rest, ¬ u.Covers i := by
  intro u hu
  obtain ⟨other, hother, s, hs, huc⟩ := mem_targets_iff.mp hu
  have hne : segment ≠ other := by
    rintro rfl
    exact hnew s hs hother
  exact (range_apart hapart hne ht huc).not_covers hi

end AddressSpace

/-- From `m` to `m'` the bytes behind `segments` of `p` have gone to those of `c`, where both have
frames, and no other byte has changed. -/
structure Copies (p c : AddressSpace) (segments : List Segment) (m m' : Machine) : Prop where
  writes : m.ram.WritesTo (p.targets c segments) m'.ram
  copied : ∀ segment ∈ segments, ∀ s t, p.range? segment = some s → c.range? segment = some t →
    ∀ i, i < s.frames * pageSize → m'.ram.byte (t.start + i) = m.ram.byte (s.start + i)

namespace Copies
variable {p c : AddressSpace} {segment : Segment} {rest : List Segment} {m m₁ m' : Machine}
  {s t : FrameRange}

/-- A segment that has no frames in one of the two spaces. -/
theorem skip (h : Copies p c rest m m')
    (hneither : ∀ s, p.range? segment = some s → c.range? segment = none) :
    Copies p c (segment :: rest) m m' := by
  refine ⟨h.writes.mono AddressSpace.targets_subset_cons, ?_⟩
  intro other hmem s t hs ht
  rcases List.mem_cons.mp hmem with rfl | hother
  · cases (hneither s hs).symm.trans ht
  · exact h.copied other hother s t hs ht

/-- A segment that was copied before the others. -/
theorem after_segment (h : Copies p c rest m₁ m') (hnew : segment ∉ rest) (htwins : p.Twins c m.ram)
    (hs : p.range? segment = some s) (ht : c.range? segment = some t)
    (hram : m₁.ram =
      m.ram.update t.start (s.frames * pageSize) fun i => m.ram.byte (s.start + i)) :
    Copies p c (segment :: rest) m m' := by
  have hmem : t ∈ c.ranges := AddressSpace.mem_ranges_iff.mpr ⟨segment, ht⟩
  have hframes : t.frames = s.frames := AddressSpace.frames_of_layout htwins.layout hs ht
  have hwrites : m.ram.WritesIn t m₁.ram := by
    rw [hram]
    apply Ram.writesIn_update (Nat.le_refl _)
    rw [FrameRange.stop, hframes]
  constructor
  case writes =>
    have htarget : t ∈ p.targets c (segment :: rest) :=
      AddressSpace.mem_targets_iff.mpr ⟨segment, List.mem_cons_self, s, hs, ht⟩
    exact (hwrites.writesTo htarget).trans (h.writes.mono AddressSpace.targets_subset_cons)
  case copied =>
    intro other hmem' s' t' hs' ht' i hi
    rcases List.mem_cons.mp hmem' with rfl | hother
    · obtain rfl : s = s' := Option.some.inj (hs.symm.trans hs')
      obtain rfl : t = t' := Option.some.inj (ht.symm.trans ht')
      have hcovers : t.Covers (t.start + i) := by
        simp only [FrameRange.Covers, FrameRange.stop, hframes]
        omega
      have hin : t.start + i < m.ram.size := Nat.lt_of_lt_of_le hcovers.2 (htwins.inside t hmem)
      -- later segments have other frames
      have hlater : ∀ u ∈ p.targets c rest, ¬ u.Covers (t.start + i) :=
        AddressSpace.not_covers_targets htwins.apart ht hcovers fun _ _ => hnew
      calc
        m'.ram.byte (t.start + i) = m₁.ram.byte (t.start + i) := h.writes.byte _ hlater
        _ = m.ram.byte (s.start + i) := by
          rw [hram, Ram.byte_update, if_pos ⟨hcovers.1, by omega, hin⟩, Nat.add_sub_cancel_left]
    · -- what a later segment is copied from was not written to
      have hcovers : s'.Covers (s'.start + i) := by
        simp only [FrameRange.Covers, FrameRange.stop]
        omega
      have hforeign := htwins.foreign s' (AddressSpace.mem_ranges_iff.mpr ⟨other, hs'⟩) t hmem
      calc
        m'.ram.byte (t'.start + i) = m₁.ram.byte (s'.start + i) :=
          h.copied other hother s' t' hs' ht' i hi
        _ = m.ram.byte (s'.start + i) := hwrites.byte _ (hforeign.not_covers hcovers)

end Copies

namespace Kernel
variable {m m' : Machine} {p c : AddressSpace} {segment : Segment} {rest : List Segment}

/-- The step of a copy for one segment. -/
theorem copySegments_cons
    (h : (copySegments p c (segment :: rest)).outcome m = (.ok (), m')) :
    ((∀ s, p.range? segment = some s → c.range? segment = none) ∧
      (copySegments p c rest).outcome m = (.ok (), m')) ∨
    ∃ s t m₁, p.range? segment = some s ∧ c.range? segment = some t ∧
      m₁.ram = m.ram.update t.start (s.frames * pageSize) (fun i => m.ram.byte (s.start + i)) ∧
      (copySegments p c rest).outcome m₁ = (.ok (), m') := by
  unfold copySegments at h
  split at h
  next vbase npages src fits dst hr hdst =>
    obtain ⟨q, hq, hpbase⟩ := Option.bind_eq_some_iff.mp hdst
    have hs : p.range? segment = some ⟨src.val, npages⟩ :=
      AddressSpace.range?_eq_some_iff.mpr ⟨_, src, hr, rfl, rfl⟩
    have ht : c.range? segment = some ⟨dst.val, q.npages⟩ :=
      AddressSpace.range?_eq_some_iff.mpr ⟨q, dst, hq, hpbase, rfl⟩
    rw [outcome_bind, copyFrames_outcome] at h
    cases hcopy : m.ram.copy dst src (npages * pageSize) with
    | error halt =>
      rw [hcopy] at h
      cases h
    | ok ram =>
      rw [hcopy] at h
      exact .inr ⟨_, _, m.setRam ram, hs, ht, Ram.copy_eq_ok hcopy, h⟩
  next hneither =>
    refine .inl ⟨?_, h⟩
    intro s hs
    obtain ⟨r, src, hr, hsrc, -⟩ := AddressSpace.range?_eq_some_iff.mp hs
    rw [AddressSpace.range?_eq_none_iff]
    intro q hq
    cases hdst : q.pbase with
    | none => rfl
    | some dst =>
      obtain ⟨vbase, npages, pbase, fits⟩ := r
      obtain rfl : pbase = some src := hsrc
      have hbound : (c.region? segment).bind Region.pbase = some dst := by
        rw [hq]
        exact hdst
      exact (hneither _ _ _ _ _ hr hbound).elim

theorem copies_of_copySegments {segments : List Segment} (hnodup : segments.Nodup)
    (htwins : p.Twins c m.ram) (h : (copySegments p c segments).outcome m = (.ok (), m')) :
    Copies p c segments m m' := by
  induction segments generalizing m with
  | nil =>
    obtain rfl : m = m' := congrArg Prod.snd h
    exact ⟨.refl _ m.ram, nofun⟩
  | cons segment rest ih =>
    -- the rest starts from the RAM that this segment leaves, whose size alone matters to `Twins`
    obtain ⟨hnew, hnodup⟩ := List.nodup_cons.mp hnodup
    rcases copySegments_cons h with ⟨hneither, hrest⟩ | ⟨s, t, m₁, hs, ht, hram, hrest⟩
    · exact (ih hnodup htwins hrest).skip hneither
    · have htwins₁ : p.Twins c m₁.ram := by
        refine { htwins with inside := ?_ }
        rw [hram, Ram.size_update]
        exact htwins.inside
      exact (ih hnodup htwins₁ hrest).after_segment hnew htwins hs ht hram

/-- One byte of user memory. -/
theorem copyIn_one {va : VAddr} {u : Translation} (h : c.translate va = .ok (some u))
    (hin : u.pa.val < m.ram.size) :
    ((copyIn c va 1).outcome m).1 = .ok (.ok #[m.ram.byte u.pa.val]) := by
  rw [copyIn_outcome, if_neg Nat.one_ne_zero, AddressSpace.span_one h]
  simp only [Ram.read_of_lt hin, Except.map]
  rfl

end Kernel

/-- From `m` to `m'` the frames behind `c` have got the bytes behind `p`, and zeros where `p` has no
frames; no other byte has changed but in the entries of these frames. -/
structure Duplicates (p c : AddressSpace) (m m' : Machine) : Prop where
  size : m'.ram.size = m.ram.size
  byte : ∀ i, (∀ t ∈ c.ranges, ¬ t.Covers i) → ¬ m.InEntries c.ranges i →
    m'.ram.byte i = m.ram.byte i
  copied : ∀ segment s t, p.range? segment = some s → c.range? segment = some t →
    ∀ i, i < s.frames * pageSize → m'.ram.byte (t.start + i) = m.ram.byte (s.start + i)
  zero : ∀ segment t, p.range? segment = none → c.range? segment = some t →
    ∀ i, t.Covers i → m'.ram.byte i = 0

/-- The frames were zeroed before bytes were copied to them. -/
theorem Copies.duplicates {p c : AddressSpace} {m loaded m' : Machine} {pool : RunAllocator}
    (h : Copies p c Segment.all loaded m') (hdraws : (⟨loaded, c⟩ : Loading).Draws pool)
    (hclears : (⟨loaded, c⟩ : Loading).Clears m) (hsource : m.frames.value = .pool pool.pool)
    (hstored : m.StoresLedger) (hbeside : ∀ s ∈ p.ranges, ∀ i, s.Covers i → ¬ m.InLedger i)
    (htwins : p.Twins c loaded.ram) : Duplicates p c m m' := by
  have hwrites := h.writes.mono AddressSpace.targets_subset_ranges
  constructor
  case size => exact hwrites.size.trans hclears.size
  case byte =>
    intro i hranges hentries
    exact (hwrites.byte i hranges).trans
      (hdraws.byte_eq hclears hsource hstored hranges hentries)
  case copied =>
    intro segment s t hs ht i hi
    have hcovers : s.Covers (s.start + i) := by
      simp only [FrameRange.Covers, FrameRange.stop]
      omega
    have hheld : s ∈ p.ranges := AddressSpace.mem_ranges_iff.mpr ⟨segment, hs⟩
    calc
      m'.ram.byte (t.start + i) = loaded.ram.byte (s.start + i) :=
        h.copied segment segment.mem_all s t hs ht i hi
      _ = m.ram.byte (s.start + i) :=
        hclears.byte _ (hbeside s hheld _ hcovers) fun u hu =>
          (htwins.foreign s hheld u hu).not_covers hcovers
  case zero =>
    intro segment t hs ht i hi
    have huncopied : ∀ u ∈ p.targets c Segment.all, ¬ u.Covers i := by
      apply AddressSpace.not_covers_targets htwins.apart ht hi
      intro s hbound
      cases hs.symm.trans hbound
    calc
      m'.ram.byte i = loaded.ram.byte i := h.writes.byte i huncopied
      _ = 0 := hclears.zero t (AddressSpace.mem_ranges_iff.mpr ⟨segment, ht⟩) i hi

namespace AddressSpace
variable {p c : AddressSpace} {m m' : Machine} {va : VAddr} {t u : Translation}

/-- Every segment of the space has frames. -/
def FullyBound (a : AddressSpace) : Prop :=
  ∀ segment r, a.region? segment = some r → r.isBound = true

theorem fullyBound_of_drawing {a : RunAllocator} {s : Loading}
    (h : Loading.Drawing a m p Segment.all (.ok (.ok ()), s)) : s.space.FullyBound := by
  intro segment r hr
  obtain ⟨q, hq, -⟩ := region?_of_layout h.layout hr
  obtain ⟨pa, hbound⟩ := h.bound rfl segment segment.mem_all q hq
  have heq : s.space.region? segment = some (q.bind pa) := hbound
  obtain rfl : r = q.bind pa := Option.some.inj (hr.symm.trans heq)
  rfl

/-- Where `p` leads, a space of the same layout leads too if all its segments have frames, and by the
same offset. -/
theorem translate_of_layout (hlayout : c.layout = p.layout) (hbound : c.FullyBound)
    (hplaced : c.Placed) (hframes : c.FramesBelow directMapSize)
    (h : p.translate va = .ok (some t)) :
    ∃ u, c.translate va = .ok (some u) ∧ u.segment = t.segment ∧
      ∃ src dst i, p.range? t.segment = some src ∧ c.range? t.segment = some dst ∧
        i < src.frames * pageSize ∧ t.pa.val = src.start + i ∧ u.pa.val = dst.start + i := by
  obtain ⟨r, hr, src, hsrc, hin, ht⟩ := region_of_translate h
  obtain ⟨q, hq, hvbase, hqin⟩ := contains_of_layout hlayout hr hin
  have hmaps : c.Maps va := ⟨t.segment, q, hq, hbound t.segment q hq, hqin⟩
  obtain ⟨u, hu⟩ := translate_of_maps hmaps hplaced hframes
  obtain ⟨q', hq', dst, hdst, hq'in, hupa⟩ := region_of_translate hu
  -- segments of a placed space do not overlap, so `va` is in the same one
  have hsegment : u.segment = t.segment := hplaced.segment_eq hq' hq hq'in hqin
  rw [hsegment] at hq'
  obtain rfl : q = q' := Option.some.inj (hq.symm.trans hq')
  rw [hvbase] at hupa
  refine ⟨u, hu, hsegment, ⟨src.val, r.npages⟩, ⟨dst.val, q.npages⟩, va.val - r.vbase.val,
    range?_eq_some_iff.mpr ⟨r, src, hr, hsrc, rfl⟩, range?_eq_some_iff.mpr ⟨q, dst, hq, hdst, rfl⟩,
    ?_, ht, hupa⟩
  have hend : va.val < r.vbase.val + r.npages * pageSize := hin.2
  have hbegin : r.vbase.val ≤ va.val := hin.1
  simp only
  omega

/-- An address that a space of the same layout leads from is in no segment of `p` that has frames, or
`p` leads from it too. -/
theorem range?_eq_none_of_layout (hlayout : c.layout = p.layout) (hplaced : p.Placed)
    (hframes : p.FramesBelow directMapSize) (hu : c.translate va = .ok (some u))
    (hunmapped : ∀ t, p.translate va ≠ .ok (some t)) : p.range? u.segment = none := by
  obtain ⟨q, hq, dst, -, hin, -⟩ := region_of_translate hu
  obtain ⟨r, hr, -, hrin⟩ := contains_of_layout hlayout.symm hq hin
  rw [range?_eq_none_iff]
  intro r' hr'
  obtain rfl : r = r' := Option.some.inj (hr.symm.trans hr')
  cases hpbase : r.pbase with
  | none => rfl
  | some src =>
    have hmaps : p.Maps va := ⟨u.segment, r, hr, by rw [Region.isBound, hpbase]; rfl, hrin⟩
    obtain ⟨t, ht⟩ := translate_of_maps hmaps hplaced hframes
    exact absurd ht (hunmapped t)

/-- What `c` is to `p` after the copy that led from `m` to `m'`. -/
structure Forked (p c : AddressSpace) (m m' : Machine) : Prop where
  layout : c.layout = p.layout
  not_loaded : c.loaded = false
  bound : c.FullyBound
  same_bytes : ∀ va t, p.translate va = .ok (some t) → ∃ u, c.translate va = .ok (some u) ∧
    u.segment = t.segment ∧ m'.ram.byte u.pa.val = m.ram.byte t.pa.val
  zero : ∀ va u, c.translate va = .ok (some u) → (∀ t, p.translate va ≠ .ok (some t)) →
    ((Kernel.copyIn c va 1).outcome m').1 = .ok (.ok #[0])
  free : ∀ t ∈ c.ranges, m.HasFree t
  parent : ∀ s ∈ p.ranges, ∀ i, s.Covers i → m'.ram.byte i = m.ram.byte i
  size : m'.ram.size = m.ram.size
  others : ∀ i, (∀ t ∈ c.ranges, ¬ t.Covers i) → ¬ m.InEntries c.ranges i →
    m'.ram.byte i = m.ram.byte i

end AddressSpace

namespace Owned
variable {first last : PAddr} {m : Machine} {hs : List Holding} {l : Option FrameRange}
  {a c : AddressSpace} {pooled : Bool}

theorem framesBelow (h : Owned first last m hs l) (hheld : a.holdings pooled ⊆ hs) :
    a.FramesBelow directMapSize := by
  intro segment r pbase hr hpbase
  have hmem := hheld (AddressSpace.mem_holdings hr hpbase pooled)
  have hstop : pbase.val + r.npages * pageSize ≤ last.val := h.stop_le hmem
  exact Nat.le_trans hstop h.direct_le

/-- A space that was given frames holds them beside one that has its own. -/
theorem twins (h : Owned first last m (c.holdings true ++ hs) l) (hheld : a.holdings pooled ⊆ hs)
    (hlayout : c.layout = a.layout) : a.Twins c m.ram := by
  have hranges := h.apart
  rw [List.map_append, List.pairwise_append, AddressSpace.range_holdings] at hranges
  obtain ⟨hself, -, hothers⟩ := hranges
  constructor
  case layout => exact hlayout
  case inside =>
    intro t ht
    have hmem : (⟨t, true⟩ : Holding) ∈ c.holdings true ++ hs :=
      List.mem_append_left _ (List.mem_map_of_mem ht)
    exact Nat.le_trans (h.stop_le hmem) h.ram_le
  case apart => exact hself
  case foreign =>
    intro s hs t ht
    have hmem : (⟨s, pooled⟩ : Holding) ∈ a.holdings pooled := List.mem_map_of_mem hs
    exact (hothers t ht s (List.mem_map_of_mem (hheld hmem))).symm

end Owned

namespace VmHistory
variable {first last : PAddr} {h : VmHistory} {i : Nat} {s : ProcessSpace} {c : AddressSpace}
  {m' : Machine}

theorem Owned.forked (hown : h.Owned first last) (hsound : h.Sound)
    (hpooling : h.machine.pooling = true) (hs : h.spaces.get? i = some s)
    (hcopy : (Kernel.copySpace s.space).outcome h.machine = (.ok (.ok c), m')) :
    s.space.Forked c h.machine m' := by
  obtain ⟨loaded, hload, hcopied⟩ := Kernel.copySpace_of_ok hcopy
  obtain ⟨pool, hsource, hbelow⟩ :
      ∃ pool : RunAllocator, h.machine.frames.value = .pool pool.pool ∧ h.machine.LedgerBelow := by
    rcases MipsVm.Owned.phase hown with ⟨-, -, hboot, -⟩ | ⟨pool, _, hsource, -, hp⟩
    · cases hboot.symm.trans hpooling
    · exact ⟨pool, hsource, hp.ledgerBelow⟩
  have hacc := hown.accounted
  -- what the load has drawn and cleared, and who holds it
  have hdrawing := Loading.drawing_prepareLoad s.space.hasFrames_layout hsource hbelow
  have hbinding := MipsVm.Owned.prepareLoad_of_unbound s.space.hasFrames_layout hown
  rw [hload] at hdrawing hbinding
  have hlayout : c.layout = s.space.layout := hdrawing.layout.trans s.space.layout_layout
  have hbound : c.FullyBound := AddressSpace.fullyBound_of_drawing hdrawing
  have hheld : s.space.holdings s.pooled ⊆ h.holdings := space_subset_allHoldings hs _
  have howned : MipsVm.Owned first last loaded (c.holdings true ++ h.holdings) h.ledger := by
    rw [← hpooling]
    exact hbinding.owned
  have htwins : s.space.Twins c loaded.ram := howned.twins hheld hlayout
  have hbeside : ∀ src ∈ s.space.ranges, ∀ j, src.Covers j → ¬ h.machine.InLedger j :=
    fun src hsrc j hj => hacc.not_inLedger
      (MipsVm.Owned.mem_outstanding (hheld (List.mem_map_of_mem hsrc))) hj
  have hdup : Duplicates s.space c h.machine m' :=
    (Kernel.copies_of_copySegments (by decide) htwins hcopied).duplicates hdrawing.draws
      hdrawing.clears hsource hacc.storesLedger hbeside htwins
  -- so both translate wherever a segment with frames is
  have hplaced : s.space.Placed := hsound.of_space hs
  have hchild : c.Placed := Kernel.placed_copySpace hsound.source hplaced hcopy
  have hframes : s.space.FramesBelow directMapSize := MipsVm.Owned.framesBelow hown hheld
  have hchildFrames : c.FramesBelow directMapSize :=
    howned.framesBelow (List.subset_append_left _ _)
  constructor
  case layout => exact hlayout
  case not_loaded => exact hdrawing.loaded
  case bound => exact hbound
  case same_bytes =>
    intro va t ht
    obtain ⟨u, hu, hsegment, src, dst, k, hsrc, hdst, hk, htpa, hupa⟩ :=
      AddressSpace.translate_of_layout hlayout hbound hchild hchildFrames ht
    refine ⟨u, hu, hsegment, ?_⟩
    rw [hupa, htpa]
    exact hdup.copied t.segment src dst hsrc hdst k hk
  case zero =>
    intro va u hu hunmapped
    obtain ⟨dst, hdst, hcovers⟩ := AddressSpace.range_of_translate hu
    have hnone := AddressSpace.range?_eq_none_of_layout hlayout hplaced hframes hu hunmapped
    have hin : u.pa.val < m'.ram.size := by
      have hstop := htwins.inside dst (AddressSpace.mem_ranges_iff.mpr ⟨_, hdst⟩)
      have hsize : loaded.ram.size = h.machine.ram.size := hdrawing.clears.size
      rw [hdup.size, ← hsize]
      exact Nat.lt_of_lt_of_le hcovers.2 hstop
    rw [Kernel.copyIn_one hu hin, hdup.zero u.segment dst hnone hdst u.pa.val hcovers]
  case free => exact hdrawing.draws.hasFree hsource
  case parent =>
    intro src hsrc j hj
    exact hdup.byte j (fun t ht => (htwins.foreign src hsrc t ht).not_covers hj)
      fun hentry => hbeside src hsrc j hj hentry.1
  case size => exact hdup.size
  case others => exact hdup.byte

theorem machine_copySpace (hs : h.spaces.get? i = some s) :
    (h.next (.copySpace i)).machine = ((Kernel.copySpace s.space).outcome h.machine).2 := by
  rw [next, onSpace_of_live hs]
  rcases (Kernel.copySpace s.space).outcome h.machine with ⟨_ | _ | c, machine⟩ <;> rfl

/-- The frames lie in RAM and in the direct map, no descriptor of a space is duplicated, and there is a
pool: then a copy of a space leads wherever the space leads, to frames that were free and now hold the
same bytes; where the space has regions without frames it reads as zero; and it changes nothing of the
space, nor any byte outside its own frames and their entries in the ledger. -/
theorem forked_of_calls {ram : Ram} {first last : PAddr} (hram : last.val ≤ ram.size)
    (hlast : last.val ≤ directMapSize) (victim : Nat → Fin tlbSlots) {calls : List VmCall}
    (hcalls : ∀ call ∈ calls, call.Linear)
    (hboot : (start (.new ram first last victim)).Bootstraps calls)
    {i : Nat} {s : ProcessSpace} {c : AddressSpace} {m' : Machine}
    (hs : ((start (.new ram first last victim)).run calls).spaces.get? i = some s)
    (hcopy : (Kernel.copySpace s.space).outcome
      ((start (.new ram first last victim)).run calls).machine = (.ok (.ok c), m')) :
    s.space.Forked c ((start (.new ram first last victim)).run calls).machine m' ∧
      (((start (.new ram first last victim)).run calls).next (.copySpace i)).spaces.get? i =
        some s := by
  have hstart : (start (.new ram first last victim)).Owned first last :=
    owned_start hram hlast victim
  have hsound := (sound_start ram first last victim).run calls
  have hpooling := hstart.pooling_of_bootstraps hcalls hboot
  refine ⟨(hstart.run hcalls).forked hsound hpooling hs hcopy, ?_⟩
  rw [next, onSpace_of_live hs, hcopy]
  exact HandleTable.get?_add hs

/-- The second region was declared after the load, so the space has no frames for it. -/
theorem forked_of_calls_of_late_region :
    ∃ h : VmHistory, ∃ s c, h =
        (start (.new ⟨.replicate 64 .zero⟩ ⟨0x1000, by decide⟩ ⟨0x40000, by decide⟩ fun _ => 0)).run
          [.bootstrap, .createSpace, .defineRegion 0 ⟨0x400000, by decide⟩ 0x1000 ⟨7⟩,
            .prepareLoad 0, .defineRegion 0 ⟨0x800000, by decide⟩ 0x1000 ⟨7⟩,
            .copyOut 0 ⟨0x400010, by decide⟩ #[1, 2]] ∧
      h.spaces.get? 0 = some s ∧
      ((Kernel.copySpace s.space).outcome h.machine).1 = .ok (.ok c) ∧
      s.space.translate ⟨0x800000, by decide⟩ = .ok none ∧
      c.translate ⟨0x800000, by decide⟩ = .ok (some ⟨.data, ⟨0x10000, by decide⟩⟩) ∧
      s.space.Forked c h.machine ((Kernel.copySpace s.space).outcome h.machine).2 ∧
      (h.next (.copySpace 0)).spaces.get? 0 = some s := by
  refine ⟨_, ⟨⟨some ⟨⟨0x400000, by decide⟩, 1, some ⟨0x2000, by decide⟩, by decide⟩,
      some ⟨⟨0x800000, by decide⟩, 1, none, by decide⟩, some ⟨0x3000, by decide⟩, false⟩, true⟩,
    ⟨some ⟨⟨0x400000, by decide⟩, 1, some ⟨0xf000, by decide⟩, by decide⟩,
      some ⟨⟨0x800000, by decide⟩, 1, some ⟨0x10000, by decide⟩, by decide⟩,
      some ⟨0x11000, by decide⟩, false⟩, rfl, ?_, ?_, ?_, ?_,
    forked_of_calls ?_ ?_ _ ?_ ?_ ?_ ?_⟩
  · decide +kernel
  · decide +kernel
  · decide +kernel
  · decide +kernel
  · decide +kernel
  · decide
  · simp [VmCall.Linear]
  · exact ⟨[], _, rfl, rfl⟩
  · decide +kernel
  · refine Prod.ext ?_ rfl
    decide +kernel

/-- The ledger lies in RAM: where a copy gets frames for its stack, their first entry has a byte that
changes, and it is in none of these frames. -/
theorem copy_writes_ledger :
    ∃ h : VmHistory, ∃ s c m', h =
        (start (.new ⟨.replicate 64 .zero⟩ ⟨0x1000, by decide⟩ ⟨0x40000, by decide⟩ fun _ => 0)).run
          [.bootstrap, .createSpace, .prepareLoad 0] ∧
      h.spaces.get? 0 = some s ∧ (Kernel.copySpace s.space).outcome h.machine = (.ok (.ok c), m') ∧
      c.ranges = [⟨0xE000, 12⟩] ∧ 0x1060 < h.machine.ram.size ∧
      h.machine.ram.byte 0x1060 = 0 ∧ m'.ram.byte 0x1060 = 1 := by
  have hstart : (start (.new ⟨.replicate 64 .zero⟩ ⟨0x1000, by decide⟩ ⟨0x40000, by decide⟩
      fun _ => 0)).Owned ⟨0x1000, by decide⟩ ⟨0x40000, by decide⟩ :=
    owned_start (by decide) (by decide) _
  have hs : ((start (.new ⟨.replicate 64 .zero⟩ ⟨0x1000, by decide⟩ ⟨0x40000, by decide⟩
      fun _ => 0)).run [.bootstrap, .createSpace, .prepareLoad 0]).spaces.get? 0 =
        some ⟨⟨none, none, some ⟨0x2000, by decide⟩, false⟩, true⟩ := by decide +kernel
  -- RAM holds the entries before and after, and of these that of frame 12 becomes a run's
  have hcalls : ∀ call ∈ [VmCall.bootstrap, .createSpace, .prepareLoad 0], call.Linear := by
    simp [VmCall.Linear]
  have hlinear : (VmCall.copySpace 0).Linear := trivial
  have hbefore := hstart.run hcalls
  have hafter := (hbefore.next hlinear).owned.storesLedger
  rw [machine_copySpace hs] at hafter
  refine ⟨_, _, ⟨none, none, some ⟨0xE000, by decide⟩, false⟩, _, rfl, hs, Prod.ext ?answer rfl,
    ?ranges, ?inside, ?free, ?taken⟩
  case answer => decide +kernel
  case ranges => decide +kernel
  case inside => decide +kernel
  case free =>
    exact hbefore.storesLedger.byte_start (i := 12) (e := .free) (by decide +kernel)
      (by decide +kernel) (by decide +kernel)
  case taken =>
    exact hafter.byte_start (i := 12) (e := .start 12) (by decide +kernel) (by decide +kernel)
      (by decide +kernel)

end VmHistory
end MipsVm
