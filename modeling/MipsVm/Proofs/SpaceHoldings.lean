import MipsVm.Proofs.HoldingService

/-! The frames that an address space holds. Loading, copying and destroying it move them in and out of
the list of all holdings, whichever step they fail at. -/
namespace MipsVm

/-- One more element of `xs` has an image. -/
theorem filterMap_perm_cons {α β : Type} [DecidableEq α] {f g : α → Option β} {xs : List α} {x : α}
    {y : β} (hnodup : xs.Nodup) (hx : x ∈ xs) (hf : f x = none) (hg : g x = some y)
    (hsame : ∀ z, z ≠ x → g z = f z) : (xs.filterMap g).Perm (y :: xs.filterMap f) := by
  have hperm := List.perm_cons_erase hx
  have hrest : (xs.erase x).filterMap g = (xs.erase x).filterMap f :=
    List.filterMap_congr fun z hz => hsame z (hnodup.mem_erase_iff.mp hz).1
  have hbefore := hperm.filterMap f
  have hafter := hperm.filterMap g
  rw [List.filterMap_cons_none hf] at hbefore
  rw [List.filterMap_cons_some hg, hrest] at hafter
  exact hafter.trans (hbefore.symm.cons y)

namespace AddressSpace
variable {a b : AddressSpace} {r : Region} {segment : Segment} {pa : PAddr} {t : FrameRange}

/-- The frames behind a segment, if it has frames. -/
def range? (a : AddressSpace) (segment : Segment) : Option FrameRange :=
  (a.region? segment).bind fun r => r.pbase.map fun pa => ⟨pa.val, r.npages⟩

def ranges (a : AddressSpace) : List FrameRange := Segment.all.filterMap a.range?

theorem range?_eq_some_iff : a.range? segment = some t ↔
    ∃ r pa, a.region? segment = some r ∧ r.pbase = some pa ∧ t = ⟨pa.val, r.npages⟩ := by
  simp only [range?, Option.bind_eq_some_iff, Option.map_eq_some_iff]
  constructor
  · rintro ⟨r, hr, pa, hpa, rfl⟩
    exact ⟨r, pa, hr, hpa, rfl⟩
  · rintro ⟨r, pa, hr, hpa, rfl⟩
    exact ⟨r, hr, pa, hpa, rfl⟩

theorem range?_eq_none_iff : a.range? segment = none ↔
    ∀ r, a.region? segment = some r → r.pbase = none := by
  simp only [range?, Option.bind_eq_none_iff, Option.map_eq_none_iff]

theorem mem_ranges_iff : t ∈ a.ranges ↔ ∃ segment, a.range? segment = some t := by
  rw [ranges, List.mem_filterMap]
  exact exists_congr fun segment => and_iff_right segment.mem_all

theorem mem_ranges (hr : a.region? segment = some r) (hpa : r.pbase = some pa) :
    ⟨pa.val, r.npages⟩ ∈ a.ranges :=
  mem_ranges_iff.mpr ⟨segment, range?_eq_some_iff.mpr ⟨r, pa, hr, hpa, rfl⟩⟩

theorem range?_of_unbound (h : a.hasFrames = false) (segment : Segment) :
    a.range? segment = none :=
  range?_eq_none_iff.mpr (hasFrames_eq_false_iff.mp h segment)

theorem ranges_of_unbound (h : a.hasFrames = false) : a.ranges = [] := by
  rw [List.eq_nil_iff_forall_not_mem]
  intro t ht
  obtain ⟨segment, hsegment⟩ := mem_ranges_iff.mp ht
  cases (range?_of_unbound h segment).symm.trans hsegment

theorem ranges_congr (h : ∀ segment, b.range? segment = a.range? segment) : b.ranges = a.ranges :=
  List.filterMap_congr fun segment _ => h segment

/-- A region that was just declared has no frames. -/
theorem ranges_define {va : VAddr} {size : Nat} (h : a.define va size = .ok b) :
    b.ranges = a.ranges := by
  obtain ⟨slot, r, hadmits, rfl⟩ := define_eq_ok h
  apply ranges_congr
  intro segment
  rw [range?, region?_setRegion hadmits.slot_ne]
  split_ifs with hslot
  · rw [range?, hslot, hadmits.slot_free, Option.bind_some, hadmits.unbound]
    rfl
  · rfl

theorem range?_bind_ne {slot : Segment} (h : slot ≠ segment) :
    (a.bind segment pa).range? slot = a.range? slot := by
  rw [range?, region?_bind_ne h, range?]

/-- Segments that wait for frames wait on while another one gets some. -/
theorem range?_bind_of_not_mem {rest : List Segment} (hnew : segment ∉ rest)
    (hunbound : ∀ slot ∈ rest, a.range? slot = none) (pa : PAddr) :
    ∀ slot ∈ rest, (a.bind segment pa).range? slot = none := by
  intro slot hslot
  have hne : slot ≠ segment := by
    rintro rfl
    exact hnew hslot
  rw [range?_bind_ne hne]
  exact hunbound slot hslot

theorem ranges_bind (hr : a.region? segment = some r) (hunbound : r.pbase = none) :
    (a.bind segment pa).ranges.Perm (⟨pa.val, r.npages⟩ :: a.ranges) := by
  have hbefore : a.range? segment = none := by
    rw [range?, hr, Option.bind_some, hunbound]
    rfl
  have hafter : (a.bind segment pa).range? segment = some ⟨pa.val, r.npages⟩ := by
    rw [range?, region?_bind_self hr]
    rfl
  exact filterMap_perm_cons (by decide) segment.mem_all hbefore hafter fun _ => range?_bind_ne

theorem starts_boundFrames (a : AddressSpace) :
    a.boundFrames.map Address.val = a.ranges.map FrameRange.start := by
  rw [boundFrames, ranges, List.map_filterMap, List.map_filterMap]
  apply List.filterMap_congr
  intro segment _
  rw [range?]
  cases a.region? segment with
  | none => rfl
  | some r =>
    simp only [Option.bind_some]
    cases r.pbase <;> rfl

/-- What the space holds, all of it handed out in one go. -/
def holdings (a : AddressSpace) (pooled : Bool) : List Holding := a.ranges.map fun t => ⟨t, pooled⟩

theorem mem_holdings (hr : a.region? segment = some r) (hpa : r.pbase = some pa) (pooled : Bool) :
    ⟨⟨pa.val, r.npages⟩, pooled⟩ ∈ a.holdings pooled := List.mem_map_of_mem (mem_ranges hr hpa)

theorem holdings_of_unbound (h : a.hasFrames = false) (pooled : Bool) : a.holdings pooled = [] := by
  rw [holdings, ranges_of_unbound h]
  rfl

theorem holdings_bind (hr : a.region? segment = some r) (hunbound : r.pbase = none)
    (pa : PAddr) (pooled : Bool) : ((a.bind segment pa).holdings pooled).Perm
      (⟨⟨pa.val, r.npages⟩, pooled⟩ :: a.holdings pooled) :=
  (ranges_bind hr hunbound).map fun t => Holding.mk t pooled

theorem range_holdings (a : AddressSpace) (pooled : Bool) :
    (a.holdings pooled).map Holding.range = a.ranges := by
  rw [holdings, List.map_map]
  exact List.map_id a.ranges

end AddressSpace

namespace Owned
variable {first last : PAddr} {m : Machine} {hs : List Holding} {l : Option FrameRange}
  {a b : AddressSpace} {pooled : Bool}

theorem freeAll {pas : List PAddr} {ts : List FrameRange}
    (h : Owned first last m ((ts.map fun t => ⟨t, pooled⟩) ++ hs) l)
    (hstarts : pas.map Address.val = ts.map FrameRange.start) :
    ∃ m', (Kernel.freeAll pas).outcome m = (.ok (), m') ∧ m.WritesLedger m' ∧
      m'.pooling = m.pooling ∧ Owned first last m' hs l := by
  induction ts generalizing pas m with
  | nil =>
    obtain rfl := List.map_eq_nil_iff.mp hstarts
    exact ⟨m, rfl, .refl m, rfl, h⟩
  | cons t ts ih =>
    obtain ⟨pa, rest, rfl, hpa, hrest⟩ := List.map_eq_cons_iff.mp hstarts
    obtain ⟨m₁, hfree, hledger₁, hpooling₁, howned₁⟩ := h.freeFrames hpa
    obtain ⟨m₂, hall, hledger₂, hpooling₂, howned₂⟩ := ih howned₁ hrest
    refine ⟨m₂, ?_, hledger₁.trans hledger₂, hpooling₂.trans hpooling₁, howned₂⟩
    rw [Kernel.freeAll_cons, hfree]
    exact hall

/-- A space can be destroyed whatever became of it, and gives back exactly its own frames. -/
theorem destroySpace (h : Owned first last m (a.holdings pooled ++ hs) l) :
    ∃ m', (Kernel.destroySpace a).outcome m = (.ok (), m') ∧ m.WritesLedger m' ∧
      m'.pooling = m.pooling ∧ Owned first last m' hs l :=
  h.freeAll a.starts_boundFrames

/-- What giving frames to the segments of `a` leaves, when the others hold `hs`. -/
structure Binding (first last : PAddr) (m : Machine) (a : AddressSpace) (hs : List Holding)
    (l : Option FrameRange) (outcome : Except Halt (Except VmError Unit) × Loading) : Prop where
  owned : Owned first last outcome.2.machine (outcome.2.space.holdings m.pooling ++ hs) l
  spares : m.Spares hs outcome.2.machine
  pooling : outcome.2.machine.pooling = m.pooling
  layout : outcome.2.space.layout = a.layout
  /-- Only boot memory halts. -/
  halts : ∀ halt, outcome.1 = .error halt → m.pooling = false

/-- The frames of one segment came before. -/
theorem Binding.after {m' : Machine} {segment : Segment} {pa : PAddr}
    {outcome : Except Halt (Except VmError Unit) × Loading}
    (h : Binding first last m' (a.bind segment pa) hs l outcome) (hspares : m.Spares hs m')
    (hpooling : m'.pooling = m.pooling) : Binding first last m a hs l outcome := by
  constructor
  case owned =>
    rw [← hpooling]
    exact h.owned
  case spares => exact hspares.trans h.spares
  case pooling => exact h.pooling.trans hpooling
  case layout => exact h.layout.trans (a.layout_bind segment pa)
  case halts =>
    rw [← hpooling]
    exact h.halts

/-- Frames that are held can be zeroed. -/
theorem zeroFrames {x : Holding} {pa : PAddr} (h : Owned first last m (x :: hs) l)
    (hpa : pa.val = x.range.start) :
    ∃ m', (Kernel.zeroFrames pa x.range.frames).outcome m = (.ok (), m') ∧
      m'.pooling = m.pooling ∧ Owned first last m' (x :: hs) l ∧ m.Spares hs m' := by
  have hin : pa.val < m.ram.size := by
    rw [hpa]
    exact h.start_lt_size List.mem_cons_self
  have hstop : pa.val + x.range.frames * pageSize ≤ x.range.stop := by
    rw [hpa]
    exact Nat.le_refl _
  have hw : m.ram.WritesIn x.range
      (m.ram.update pa.val (x.range.frames * pageSize) fun _ => 0) :=
    Ram.writesIn_update (Nat.le_of_eq hpa.symm) hstop _
  rw [Kernel.zeroFrames_outcome, Ram.zero_of_lt hin]
  exact ⟨_, rfl, rfl, h.write List.mem_cons_self ⟨rfl, rfl⟩ hw, h.spares_tail id hw⟩

/-- The frames of one segment come and are zeroed before the next one's. -/
theorem bindSegments {segments : List Segment} (hnodup : segments.Nodup)
    (hunbound : ∀ segment ∈ segments, a.range? segment = none)
    (h : Owned first last m (a.holdings m.pooling ++ hs) l) :
    Binding first last m a hs l ((Loader.bindSegments segments).outcome ⟨m, a⟩) := by
  induction segments generalizing m a with
  | nil => exact ⟨h, .of_ram rfl rfl hs, rfl, rfl, nofun⟩
  | cons segment rest ih =>
    obtain ⟨hnew, hnodup⟩ := List.nodup_cons.mp hnodup
    obtain ⟨hself, hunbound⟩ := List.forall_mem_cons.mp hunbound
    cases hr : a.region? segment with
    | none =>
      rw [Loader.bindSegments_absent rest hr]
      exact ih hnodup hunbound h
    | some r =>
      rw [Loader.bindSegments_declared rest hr]
      have halloc := h.allocFrames r.npages
      have hspared {m' : Machine} (hledger : m.WritesLedger m') (hpooling : m'.pooling = m.pooling) :
          m.Spares hs m' := (h.spares_ledger hledger hpooling).mono (List.subset_append_right _ _)
      dsimp only
      rcases hcall : (Kernel.allocFrames r.npages).outcome m with ⟨answer, m₁⟩
      rw [hcall] at halloc
      cases halloc with
      | halted halt _ hledger hboot hpooling howned =>
        exact ⟨howned, hspared hledger hpooling, hpooling, rfl, fun _ _ => hboot⟩
      | refused _ hledger hpooling howned =>
        exact ⟨howned, hspared hledger hpooling, hpooling, rfl, nofun⟩
      | granted pa _ hledger hpooling howned =>
        obtain ⟨m₂, hzero, hzeroed, howned₂, hspares₂⟩ := howned.zeroFrames rfl
        have hpooling₂ : m₂.pooling = m.pooling := hzeroed.trans hpooling
        have hspared₂ : m.Spares hs m₂ := (hspared hledger hpooling).trans
          (hspares₂.mono (List.subset_append_right _ _))
        have hmoved : Owned first last m₂ ((a.bind segment pa).holdings m₂.pooling ++ hs) l := by
          have hunbound : r.pbase = none := AddressSpace.range?_eq_none_iff.mp hself r hr
          have hheld := AddressSpace.holdings_bind hr hunbound pa m.pooling
          rw [hpooling₂]
          exact howned₂.perm (hheld.symm.append_right hs)
        have hothers := AddressSpace.range?_bind_of_not_mem hnew hunbound pa
        dsimp only at hzero ⊢
        rw [hzero]
        exact (ih hnodup hothers hmoved).after hspared₂ hpooling₂

theorem prepareLoad_of_unbound (hunbound : a.hasFrames = false) (h : Owned first last m hs l) :
    Binding first last m a hs l (Loader.prepareLoad.outcome ⟨m, a⟩) := by
  rw [Loader.prepareLoad_of_unbound hunbound]
  apply bindSegments (by decide)
  · exact fun segment _ => AddressSpace.range?_of_unbound hunbound segment
  · rwa [AddressSpace.holdings_of_unbound hunbound]

/-- A space that has frames keeps them, and a load gives frames to any other. -/
theorem prepareLoad (h : Owned first last m (a.holdings pooled ++ hs) l) :
    let loading := (Loader.prepareLoad.outcome ⟨m, a⟩).2
    Owned first last loading.machine
        (loading.space.holdings (if a.hasFrames then pooled else m.pooling) ++ hs) l ∧
      m.Spares (a.holdings pooled ++ hs) loading.machine := by
  intro loading
  cases hframes : a.hasFrames with
  | true =>
    have houtcome := Loader.prepareLoad_of_bound (s := ⟨m, a⟩) hframes
    simp only [loading, houtcome, if_true]
    have hlogged (records : List Record) : m.Spares (a.holdings pooled ++ hs) (m.logged records) :=
      ⟨rfl, fun _ _ _ _ => rfl, id⟩
    exact ⟨h.of_same ⟨rfl, rfl⟩ rfl, hlogged _⟩
  | false =>
    rw [AddressSpace.holdings_of_unbound hframes] at h ⊢
    have hbinding := prepareLoad_of_unbound hframes h
    exact ⟨hbinding.owned, hbinding.spares⟩

/-- One segment is copied to frames of its own length. -/
theorem copySegment {segment : Segment} {r : Region} {src dst : PAddr}
    (h : Owned first last m (b.holdings pooled ++ hs) l) (hlayout : b.layout = a.layout)
    (hheld : ∀ t ∈ a.ranges, t.start < m.ram.size) (hr : a.region? segment = some r)
    (hsrc : r.pbase = some src) (hdst : (b.region? segment).bind Region.pbase = some dst) :
    ∃ m', (Kernel.copyFrames dst src r.npages).outcome m = (.ok (), m') ∧
      m'.pooling = m.pooling ∧ Owned first last m' (b.holdings pooled ++ hs) l ∧ m.Spares hs m' := by
  obtain ⟨t, ht, hdst⟩ := Option.bind_eq_some_iff.mp hdst
  have hmem : (⟨⟨dst.val, r.npages⟩, pooled⟩ : Holding) ∈ b.holdings pooled := by
    obtain ⟨s, hs, -, hnpages⟩ := AddressSpace.region?_of_layout hlayout ht
    obtain rfl : s = r := Option.some.inj (hs.symm.trans hr)
    rw [hnpages]
    exact AddressSpace.mem_holdings ht hdst pooled
  have hin : dst.val < m.ram.size := h.start_lt_size (List.mem_append_left hs hmem)
  have hfrom : src.val < m.ram.size := hheld ⟨src.val, r.npages⟩ (AddressSpace.mem_ranges hr hsrc)
  have hw : m.ram.WritesIn ⟨dst.val, r.npages⟩
      (m.ram.update dst.val (r.npages * pageSize) fun i => m.ram.byte (src.val + i)) :=
    Ram.writesIn_update (Nat.le_refl _) (Nat.le_refl _) _
  rw [Kernel.copyFrames_outcome, Ram.copy_of_lt hfrom hin]
  exact ⟨_, rfl, rfl, h.write (List.mem_append_left hs hmem) ⟨rfl, rfl⟩ hw, h.spares hmem id hw⟩

theorem copySegments (h : Owned first last m (b.holdings pooled ++ hs) l)
    (hlayout : b.layout = a.layout) (hheld : ∀ t ∈ a.ranges, t.start < m.ram.size)
    (segments : List Segment) :
    ∃ m', (Kernel.copySegments a b segments).outcome m = (.ok (), m') ∧
      Owned first last m' (b.holdings pooled ++ hs) l ∧ m.Spares hs m' := by
  induction segments generalizing m with
  | nil => exact ⟨m, rfl, h, .of_ram rfl rfl hs⟩
  | cons segment rest ih =>
    unfold Kernel.copySegments
    split
    next npages srcBase fits dst hr hdst =>
      obtain ⟨m₁, hcopy, hpooling, howned, hspares⟩ := h.copySegment hlayout hheld hr rfl hdst
      have hheld₁ : ∀ t ∈ a.ranges, t.start < m₁.ram.size := by
        rw [hspares.size]
        exact hheld
      obtain ⟨m₂, hrest, howned₂, hspares₂⟩ := ih howned hheld₁
      refine ⟨m₂, ?_, howned₂, hspares.trans hspares₂⟩
      rw [Kernel.outcome_bind, hcopy]
      exact hrest
    next => exact ih h hheld

/-- Whatever a copy answers, all frames that it took are the new space's, or are given back. -/
theorem copySpace (h : Owned first last m hs l) (hheld : ∀ t ∈ a.ranges, t.start < m.ram.size) :
    ∃ answer m', (Kernel.copySpace a).outcome m = (answer, m') ∧ m.Spares hs m' ∧
      Owned first last m'
        (match answer with
          | .ok (.ok space) => space.holdings m.pooling ++ hs
          | _ => hs) l := by
  have hbinding := prepareLoad_of_unbound a.hasFrames_layout h
  rw [Kernel.copySpace_outcome]
  rcases hload : Loader.prepareLoad.outcome ⟨m, a.layout⟩ with ⟨halt | e | _, s⟩ <;>
    rw [hload] at hbinding
  · -- what boot memory handed out before it halted is lost
    have hboot := hbinding.halts halt rfl
    refine ⟨_, _, rfl, hbinding.spares, hbinding.owned.drop_all ?_⟩
    intro x hx
    exact hbinding.owned.pooled_of_mem_boot (hbinding.pooling.trans hboot)
      (List.mem_append_left hs hx)
  · obtain ⟨m', hdestroy, hledger, hpooling, howned⟩ := hbinding.owned.destroySpace
    have hspared := (hbinding.owned.spares_ledger hledger hpooling).mono
      (List.subset_append_right _ hs)
    dsimp only at hdestroy ⊢
    rw [hdestroy]
    exact ⟨_, _, rfl, hbinding.spares.trans hspared, howned⟩
  · have hheld' : ∀ t ∈ a.ranges, t.start < s.machine.ram.size := by
      rw [hbinding.spares.size]
      exact hheld
    obtain ⟨m', hcopy, howned, hspares⟩ := hbinding.owned.copySegments
      (hbinding.layout.trans a.layout_layout) hheld' Segment.all
    dsimp only at hcopy ⊢
    rw [hcopy]
    exact ⟨_, _, rfl, hbinding.spares.trans hspares, howned⟩

/-- Bytes for a user go to frames of that user's space. -/
theorem copyOut (h : Owned first last m (a.holdings pooled ++ hs) l) (dst : VAddr)
    (bytes : Array UInt8) :
    Owned first last ((Kernel.copyOut a dst bytes).outcome m).2 (a.holdings pooled ++ hs) l ∧
      m.Spares hs ((Kernel.copyOut a dst bytes).outcome m).2 := by
  have hsame : Owned first last m (a.holdings pooled ++ hs) l ∧ m.Spares hs m :=
    ⟨h, .of_ram rfl rfl hs⟩
  rw [Kernel.copyOut_outcome]
  split_ifs with hempty
  · exact hsame
  rcases hspan : a.span dst bytes.size with halt | e | pa
  · exact hsame
  · exact hsame
  dsimp only
  rcases hwrite : m.ram.write pa bytes with halt | ram
  · exact hsame
  have hlen : 0 < bytes.size := by
    apply Nat.pos_of_ne_zero
    intro hzero
    exact hempty (by rw [Array.isEmpty, hzero]; rfl)
  obtain ⟨segment, r, pbase, hr, hpbase, hstart, hstop⟩ := AddressSpace.region_of_span hlen hspan
  have hmem : (⟨⟨pbase.val, r.npages⟩, pooled⟩ : Holding) ∈ a.holdings pooled :=
    AddressSpace.mem_holdings hr hpbase pooled
  have hw : m.ram.WritesIn ⟨pbase.val, r.npages⟩ ram :=
    (Ram.changesAt_write hwrite).writesIn hstart hstop
  exact ⟨h.write (List.mem_append_left hs hmem) ⟨rfl, rfl⟩ hw, h.spares hmem id hw⟩

end Owned
end MipsVm
