import MipsVm.Proofs.VmHoldings

/-! No byte of RAM belongs to two owners, so nobody but its owner can change what a user reads. -/
namespace MipsVm

namespace AddressSpace
variable {a b : AddressSpace} {segment other : Segment} {r t : FrameRange} {va : VAddr}
  {x : Translation} {pooled : Bool}

/-- A translation leads into the frames behind its segment. -/
theorem range_of_translate (h : a.translate va = .ok (some x)) :
    ∃ r, a.range? x.segment = some r ∧ r.Covers x.pa.val := by
  obtain ⟨region, hregion, pbase, hpbase, hin, hpa⟩ := region_of_translate h
  refine ⟨_, range?_eq_some_iff.mpr ⟨region, pbase, hregion, hpbase, rfl⟩, ?_⟩
  have hend : va.val < region.vbase.val + region.npages * pageSize := hin.2
  have hbegin : region.vbase.val ≤ va.val := hin.1
  simp only [FrameRange.Covers, FrameRange.stop]
  omega

theorem holding_of_translate (h : a.translate va = .ok (some x)) (pooled : Bool) :
    ∃ y ∈ a.holdings pooled, y.range.Covers x.pa.val := by
  obtain ⟨r, hr, hcovers⟩ := range_of_translate h
  exact ⟨⟨r, pooled⟩, List.mem_map_of_mem (mem_ranges_iff.mpr ⟨_, hr⟩), hcovers⟩

theorem range_apart (h : a.ranges.Pairwise FrameRange.Apart) (hne : segment ≠ other)
    (hr : a.range? segment = some r) (ht : a.range? other = some t) : r.Apart t := by
  rw [ranges, List.pairwise_filterMap] at h
  have hsymm : Std.Symm fun segment other => ∀ r, a.range? segment = some r →
      ∀ t, a.range? other = some t → r.Apart t :=
    ⟨fun _ _ happly r hr t ht => (happly t ht r hr).symm⟩
  exact h.forall segment.mem_all other.mem_all hne r hr t ht

/-- In one space whose segments share no frame, no byte has two addresses. -/
theorem eq_of_translate {vb : VAddr} {y : Translation}
    (hapart : a.ranges.Pairwise FrameRange.Apart) (hx : a.translate va = .ok (some x))
    (hy : a.translate vb = .ok (some y)) (hpa : x.pa = y.pa) : va = vb := by
  by_cases hsegment : x.segment = y.segment
  · obtain ⟨r, hr, pbase, hpbase, hxin, hxpa⟩ := region_of_translate hx
    obtain ⟨s, hs, pbase', hpbase', hyin, hypa⟩ := region_of_translate hy
    rw [← hsegment] at hs
    obtain rfl : r = s := Option.some.inj (hr.symm.trans hs)
    obtain rfl : pbase = pbase' := Option.some.inj (hpbase.symm.trans hpbase')
    have hxbegin : r.vbase.val ≤ va.val := hxin.1
    have hybegin : r.vbase.val ≤ vb.val := hyin.1
    rw [hpa] at hxpa
    apply Address.ext
    omega
  · obtain ⟨r, hr, hxcovers⟩ := range_of_translate hx
    obtain ⟨t, ht, hycovers⟩ := range_of_translate hy
    rw [← hpa] at hycovers
    exact absurd hycovers ((range_apart hapart hsegment hr ht).not_covers hxcovers)

theorem span_congr (h : ∀ va, b.translate va = a.translate va) (va : VAddr) (len : Nat) :
    b.span va len = a.span va len := by
  simp only [span, h]

end AddressSpace

/-- What a user reads depends on nothing but the translations and the bytes behind them. -/
theorem Kernel.copyIn_of_spares {a b : AddressSpace} {m m' : Machine} {pooled : Bool}
    (htranslate : ∀ va, b.translate va = a.translate va)
    (hspares : m.Spares (a.holdings pooled) m') (src : VAddr) (len : Nat) :
    ((copyIn b src len).outcome m').1 = ((copyIn a src len).outcome m).1 := by
  rw [copyIn_outcome, copyIn_outcome, AddressSpace.span_congr htranslate]
  split_ifs with hlen
  · rfl
  rcases hspan : a.span src len with halt | e | pa
  · rfl
  · rfl
  obtain ⟨segment, r, pbase, hr, hpbase, hstart, hstop⟩ :=
    AddressSpace.region_of_span (Nat.pos_of_ne_zero hlen) hspan
  have hbytes : ∀ i : Fin len, m'.ram.byte (pa.val + i) = m.ram.byte (pa.val + i) := by
    intro i
    apply hspares.byte _ (AddressSpace.mem_holdings hr hpbase pooled)
    have hi := i.isLt
    simp only [FrameRange.Covers, FrameRange.stop]
    omega
  simp only [Ram.read, Ram.reach, hspares.size, hbytes]

/-- The call can change what the user of space `i` reads, or ends the space. -/
def VmCall.ChangesSpace (i : Nat) : VmCall → Prop
  | .copyOut j _ _ | .prepareLoad j | .destroySpace j => j = i
  | _ => False

namespace VmHistory
variable {first last : PAddr} {h : VmHistory} {i j : Nat} {s t : ProcessSpace}

/-- Every byte that a user address leads to is that address's own, and stays what it is unless its own
space is written to, loaded or destroyed. -/
structure Isolated (h : VmHistory) : Prop where
  injective : ∀ i j s t, h.spaces.get? i = some s → h.spaces.get? j = some t →
    ∀ va vb x y, s.space.translate va = .ok (some x) → t.space.translate vb = .ok (some y) →
      x.pa = y.pa → i = j ∧ va = vb
  beside_runs : ∀ i s, h.spaces.get? i = some s → ∀ va x, s.space.translate va = .ok (some x) →
    ∀ k run, h.runs.get? k = some run → ¬ run.range.Covers x.pa.val
  beside_ledger : ∀ i s, h.spaces.get? i = some s → ∀ va x, s.space.translate va = .ok (some x) →
    ∀ l, h.ledger = some l → ¬ l.Covers x.pa.val
  undisturbed : ∀ i s, h.spaces.get? i = some s → ∀ call : VmCall, call.Linear →
    ¬ call.ChangesSpace i → ∃ t, (h.next call).spaces.get? i = some t ∧ ∀ src len,
      ((Kernel.copyIn t.space src len).outcome (h.next call).machine).1 =
        ((Kernel.copyIn s.space src len).outcome h.machine).1

theorem mem_holdingsBesideSpace {y : Holding} (hij : i ≠ j) (ht : h.spaces.get? j = some t)
    (hy : y ∈ t.holdings) : y ∈ h.holdingsBesideSpace i := by
  have hlive : t ∈ (h.spaces.remove i).live :=
    HandleTable.mem_live ((HandleTable.get?_remove_ne hij).trans ht)
  exact List.mem_append_left _ (List.mem_flatMap.mpr ⟨t, hlive, hy⟩)

theorem holdings_subset_spared {call : VmCall} (hs : h.spaces.get? i = some s)
    (hcall : ¬ call.ChangesSpace i) : s.holdings ⊆ h.spared call := by
  cases call with
  | copyOut j dst bytes => exact fun y hy => mem_holdingsBesideSpace hcall hs hy
  | markThreadStack k => exact space_subset_allHoldings hs _
  | writeRun k offset bytes => exact space_subset_allHoldings hs _
  | zeroRun k n => exact space_subset_allHoldings hs _
  | copyRun k k' n => exact space_subset_allHoldings hs _
  | _ => exact space_subset_allHoldings hs _

namespace Owned
variable (hown : h.Owned first last)
include hown

/-- The holdings of a space are apart from all others. -/
theorem space_apart (hs : h.spaces.get? i = some s) {x y : Holding} (hx : x ∈ s.holdings)
    (hy : y ∈ h.holdingsBesideSpace i) : x.range.Apart y.range := by
  have hranges := (hown.perm (holdings_space hs)).apart
  rw [List.map_append] at hranges
  exact (List.pairwise_append.mp hranges).2.2 _ (List.mem_map_of_mem hx) _ (List.mem_map_of_mem hy)

theorem ranges_apart (hs : h.spaces.get? i = some s) :
    s.space.ranges.Pairwise FrameRange.Apart := by
  have hranges := (hown.perm (holdings_space hs)).apart
  rw [List.map_append] at hranges
  have hself := (List.pairwise_append.mp hranges).1
  rwa [ProcessSpace.holdings, AddressSpace.range_holdings] at hself

theorem isolated : h.Isolated := by
  constructor
  case injective =>
    intro i j s t hs ht va vb x y hx hy hpa
    by_cases hij : i = j
    · subst hij
      obtain rfl : s = t := Option.some.inj (hs.symm.trans ht)
      exact ⟨rfl, AddressSpace.eq_of_translate (hown.ranges_apart hs) hx hy hpa⟩
    · obtain ⟨u, hu, hucovers⟩ := AddressSpace.holding_of_translate hx s.pooled
      obtain ⟨v, hv, hvcovers⟩ := AddressSpace.holding_of_translate hy t.pooled
      have hapart := hown.space_apart hs hu (mem_holdingsBesideSpace hij ht hv)
      rw [← hpa] at hvcovers
      exact absurd hvcovers (hapart.not_covers hucovers)
  case beside_runs =>
    intro i s hs va x hx k run hrun
    obtain ⟨u, hu, hucovers⟩ := AddressSpace.holding_of_translate hx s.pooled
    have hmem : run.holding ∈ h.holdingsBesideSpace i := run_mem_allHoldings hrun _
    exact (hown.space_apart hs hu hmem).not_covers hucovers
  case beside_ledger =>
    intro i s hs va x hx l hl
    obtain ⟨u, hu, hucovers⟩ := AddressSpace.holding_of_translate hx s.pooled
    have hmem : u ∈ h.holdings := space_subset_allHoldings hs _ hu
    have hapart := (MipsVm.Owned.exclusive hown).ledger_apart l hl u.range
      (MipsVm.Owned.mem_outstanding hmem)
    exact hapart.not_covers hucovers
  case undisturbed =>
    intro i s hs call hlinear hcall
    have hload : call ≠ .prepareLoad i := by
      rintro rfl
      exact hcall rfl
    have hdestroy : call ≠ .destroySpace i := by
      rintro rfl
      exact hcall rfl
    obtain ⟨t, ht, htranslate, -⟩ := retains_next hs hload hdestroy
    have hspares := (hown.next hlinear).spares.mono (holdings_subset_spared hs hcall)
    exact ⟨t, ht, Kernel.copyIn_of_spares htranslate hspares⟩

end Owned

/-- The frames lie in RAM and in the direct map, and no descriptor of a space is duplicated: then every
owner's memory is its own, at any point of any sequence of calls. -/
theorem isolated_of_calls {ram : Ram} {first last : PAddr} (hram : last.val ≤ ram.size)
    (hlast : last.val ≤ directMapSize) (victim : Nat → Fin tlbSlots) {calls : List VmCall}
    (hcalls : ∀ call ∈ calls, call.Linear) :
    ((start (.new ram first last victim)).run calls).Isolated :=
  ((owned_start hram hlast victim).run hcalls).isolated

theorem isolated_of_calls_after_copy :
    ∃ h : VmHistory, h =
        (start (.new ⟨.replicate 64 .zero⟩ ⟨0x1000, by decide⟩ ⟨0x40000, by decide⟩ fun _ => 0)).run
          [.allocFrames 1, .bootstrap, .createSpace,
            .defineRegion 0 ⟨0x400000, by decide⟩ 0x1000 ⟨7⟩, .prepareLoad 0, .allocKernelPages 2,
            .markThreadStack 1, .copySpace 0] ∧
      (∃ s t, h.spaces.get? 0 = some s ∧ h.spaces.get? 1 = some t ∧
        s.space.translate ⟨0x400010, by decide⟩ = .ok (some ⟨.text, ⟨0x3010, by decide⟩⟩) ∧
        t.space.translate ⟨0x400010, by decide⟩ = .ok (some ⟨.text, ⟨0x12010, by decide⟩⟩)) ∧
      h.Isolated := by
  refine ⟨_, rfl, ?_, isolated_of_calls ?_ (by decide) _ ?_⟩
  · refine ⟨⟨⟨some ⟨⟨0x400000, by decide⟩, 1, some ⟨0x3000, by decide⟩, by decide⟩, none,
      some ⟨0x4000, by decide⟩, false⟩, true⟩,
      ⟨⟨some ⟨⟨0x400000, by decide⟩, 1, some ⟨0x12000, by decide⟩, by decide⟩, none,
      some ⟨0x13000, by decide⟩, false⟩, true⟩, ?_, ?_, rfl, rfl⟩
    · decide +kernel
    · decide +kernel
  · decide +kernel
  · simp [VmCall.Linear]

end VmHistory
end MipsVm
