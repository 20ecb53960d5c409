import MipsVm.Proofs.LoadRecovery
import MipsVm.Proofs.UserAddresses

/-! The address spaces that the kernel can come to have. However one was made, no two of its segments
share an address, so a user's address leads to one byte at most, in whichever order the segments are
looked up. -/
namespace MipsVm

/-- The machine has performed some operations, with any arguments, since it was started. -/
def Machine.Reachable (m : Machine) : Prop :=
  ∃ ram first last victim ops, m = (Machine.new ram first last victim).run ops

theorem Machine.Reachable.onPages {m : Machine} (h : m.Reachable) : m.frames.value.OnPages := by
  obtain ⟨ram, first, last, victim, ops, rfl⟩ := h
  exact (laidOut_run ram first last victim ops).onPages

/-- The space was made empty, and since then it was given regions, loaded, marked as loaded or copied,
any number of times and in any order. -/
inductive AddressSpace.Reachable : AddressSpace → Prop where
  | empty : Reachable .empty
  | define {a b : AddressSpace} {m m' : Machine} {va : VAddr} {size : Nat} {perms : Permissions}
    (h : Reachable a)
    (hdefine : (Kernel.defineRegion a va size perms).outcome m = (.ok (.ok b), m')) : Reachable b
  /-- However the load ends, the space keeps the frames that it has got. -/
  | load {a : AddressSpace} {m : Machine} (h : Reachable a) (hm : m.Reachable) :
    Reachable (Loader.prepareLoad.outcome ⟨m, a⟩).2.space
  | complete {a b : AddressSpace} {m m' : Machine} (h : Reachable a)
    (hcomplete : (Kernel.completeLoad a).outcome m = (.ok b, m')) : Reachable b
  | copy {a b : AddressSpace} {m m' : Machine} (h : Reachable a) (hm : m.Reachable)
    (hcopy : (Kernel.copySpace a).outcome m = (.ok (.ok b), m')) : Reachable b

namespace AddressSpace
variable {a : AddressSpace} {va : VAddr} {segment : Segment} {segments : List Segment}
  {t : Translation} {pa : PAddr}

theorem Reachable.placed (h : a.Reachable) : a.Placed := by
  induction h with
  | empty => exact placed_empty
  | define h hdefine ih =>
    rw [Kernel.defineRegion_outcome] at hdefine
    exact ih.define (Except.ok.inj (congrArg Prod.fst hdefine))
  | @load a m h hm ih => exact Loader.placed_prepareLoad (s := ⟨m, a⟩) hm.onPages ih
  | complete h hcomplete ih =>
    rw [Kernel.completeLoad_outcome] at hcomplete
    obtain rfl := Except.ok.inj (congrArg Prod.fst hcomplete)
    exact ih.complete
  | copy h hm hcopy ih => exact Kernel.placed_copySpace hm.onPages ih hcopy

/-- The segments are whole pages of the user's part of the address map, and no two of them overlap. -/
structure Separated (a : AddressSpace) : Prop where
  aligned : ∀ segment r, a.region? segment = some r →
    r.vbase.isPageAligned = true ∧ r.vend.isPageAligned = true
  below_stack : ∀ segment r, segment ≠ .stack → a.region? segment = some r →
    r.vend ≤ userStackBase
  disjoint : ∀ segment other r s, segment ≠ other → a.region? segment = some r →
    a.region? other = some s → r.vend ≤ s.vbase ∨ s.vend ≤ r.vbase

theorem Placed.separated (h : a.Placed) : a.Separated := by
  constructor
  case aligned =>
    intro segment r hr
    have hbase := h.pages segment r hr
    rw [Address.isPageAligned_iff, Address.isPageAligned_iff]
    exact ⟨hbase, Nat.dvd_add hbase (Nat.dvd_mul_left ..)⟩
  case below_stack => exact h.below_stack
  case disjoint =>
    intro segment other r s hne hr hs
    have hapart := h.overlaps_eq_false hne hr hs
    rw [Region.overlaps, Bool.and_eq_false_iff, decide_eq_false_iff_not,
      decide_eq_false_iff_not] at hapart
    rcases hapart with hbefore | hafter
    · exact .inr (Nat.not_lt.mp hbefore)
    · exact .inl (Nat.not_lt.mp hafter)

/-- A lookup that halts does so for a sum that does not fit. -/
theorem overflows_of_lookup {halt : Halt} (h : a.lookup va segment = .error halt) :
    a.Overflows va := by
  obtain ⟨r, hr, htranslate⟩ := lookup_eq_error_iff.mp h
  exact ⟨segment, r, hr, (Region.translate_eq_error_iff.mp htranslate).2⟩

theorem lookup_iff : a.lookup va segment = .ok (some pa) ↔
    ∃ r pbase, a.region? segment = some r ∧ r.pbase = some pbase ∧ r.Contains va ∧
      pa.val = pbase.val + (va.val - r.vbase.val) := by
  rw [lookup_eq_some_iff]
  constructor
  · rintro ⟨r, hr, htranslate⟩
    obtain ⟨pbase, hpbase⟩ := Region.translate_eq_some_iff.mp htranslate
    exact ⟨r, pbase, hr, hpbase⟩
  · rintro ⟨r, pbase, hr, hpbase⟩
    exact ⟨r, hr, Region.translate_eq_some_iff.mpr ⟨pbase, hpbase⟩⟩

/-- Only one segment can answer, so it does not matter which are asked before it. -/
theorem Placed.translateIn_iff (h : a.Placed) (hover : ¬ a.Overflows va) :
    a.translateIn va segments = .ok (some t) ↔
      t.segment ∈ segments ∧ a.lookup va t.segment = .ok (some t.pa) := by
  induction segments with
  | nil => simp [translateIn]
  | cons segment rest ih =>
    rw [translateIn_cons, List.mem_cons]
    rcases hlookup : a.lookup va segment with halt | _ | pa
    · exact absurd (overflows_of_lookup hlookup) hover
    · -- a segment that does not answer is not the one of `t`
      have hne : a.lookup va t.segment = .ok (some t.pa) → t.segment ≠ segment := by
        rintro hfound rfl
        cases hlookup.symm.trans hfound
      rw [ih]
      constructor
      · rintro ⟨hmem, hfound⟩
        exact ⟨.inr hmem, hfound⟩
      · rintro ⟨hmem, hfound⟩
        exact ⟨hmem.resolve_left (hne hfound), hfound⟩
    · constructor
      · intro heq
        obtain rfl := Option.some.inj (Except.ok.inj heq)
        exact ⟨.inl rfl, hlookup⟩
      · rintro ⟨-, hfound⟩
        obtain ⟨r, -, hr, -, hin, -⟩ := lookup_iff.mp hlookup
        obtain ⟨s, -, hs, -, hsin, -⟩ := lookup_iff.mp hfound
        obtain rfl : segment = t.segment := h.segment_eq hr hs hin hsin
        obtain rfl : pa = t.pa := Option.some.inj (Except.ok.inj (hlookup.symm.trans hfound))
        rfl

theorem Placed.translateIn_perm (h : a.Placed) (hover : ¬ a.Overflows va) {others : List Segment}
    (hperm : segments.Perm others) : a.translateIn va segments = a.translateIn va others := by
  rcases hfirst : a.translateIn va segments with halt | _ | t
  · obtain ⟨segment, -, hlookup⟩ := translateIn_error hfirst
    exact absurd (overflows_of_lookup hlookup) hover
  · rw [translateIn_eq_none_iff] at hfirst
    apply Eq.symm
    apply translateIn_eq_none_iff.mpr
    intro segment hsegment
    exact hfirst segment (hperm.mem_iff.mpr hsegment)
  · obtain ⟨hmem, hlookup⟩ := (h.translateIn_iff hover).mp hfirst
    apply Eq.symm
    exact (h.translateIn_iff hover).mpr ⟨hperm.mem_iff.mp hmem, hlookup⟩

/-- What becomes of an address that is looked up. -/
structure Resolves (a : AddressSpace) (va : VAddr) : Prop where
  some_iff : ∀ segment pa, a.translate va = .ok (some ⟨segment, pa⟩) ↔
    ∃ r pbase, a.region? segment = some r ∧ r.pbase = some pbase ∧ r.Contains va ∧
      pa.val = pbase.val + (va.val - r.vbase.val)
  none_iff : a.translate va = .ok none ↔
    ∀ segment r, a.region? segment = some r → r.Contains va → r.pbase = none
  same_offset : ∀ t, a.translate va = .ok (some t) → t.pa.pageOffset = va.pageOffset
  unique : ∀ segment other r s, a.region? segment = some r → a.region? other = some s →
    r.Contains va → s.Contains va → segment = other
  any_order : ∀ segments, segments.Perm Segment.all → a.translateIn va segments = a.translate va

theorem Placed.resolves (h : a.Placed) (hover : ¬ a.Overflows va) : a.Resolves va := by
  constructor
  case some_iff =>
    intro segment pa
    rw [translate, h.translateIn_iff hover, and_iff_right segment.mem_all]
    exact lookup_iff
  case none_iff =>
    rw [translate_eq_none_iff, and_iff_right hover]
    constructor
    · intro hmaps segment r hr hin
      rw [← Option.not_isSome_iff_eq_none]
      exact fun hbound => hmaps ⟨segment, r, hr, hbound, hin⟩
    · rintro hfree ⟨segment, r, hr, hbound, hin⟩
      rw [Region.isBound, hfree segment r hr hin] at hbound
      cases hbound
  case same_offset =>
    intro t ht
    obtain ⟨r, hr, pbase, hpbase, hin, hpa⟩ := region_of_translate ht
    have hframe : pageSize ∣ pbase.val := h.frames t.segment r pbase hr hpbase
    have hpage : pageSize ∣ r.vbase.val := h.pages t.segment r hr
    have hle : r.vbase.val ≤ va.val := hin.1
    simp only [Address.pageOffset, hpa, pageSize] at *
    omega
  case unique =>
    intro segment other r s hr hs hin hsin
    exact h.segment_eq hr hs hin hsin
  case any_order =>
    intro segments hperm
    exact h.translateIn_perm hover hperm

/-- No sum for a user's address can overflow: the frames are too low. -/
theorem not_overflows_of_lt (hframes : a.FramesBelow directMapSize)
    (hva : va.val < 0x100000000 - directMapSize) : ¬ a.Overflows va :=
  fun hover => Nat.not_lt.mpr (hover.le hframes) hva

/-- However a space was made, its segments lie apart from each other, and for the addresses of users it
is the regions alone, not the order of lookup, that decide. -/
theorem segments_separated (ha : a.Reachable) (hframes : a.FramesBelow directMapSize) :
    a.Separated ∧ ∀ va : VAddr, va.val < userTop → a.Resolves va := by
  refine ⟨ha.placed.separated, ?_⟩
  intro va hva
  have hlow : va.val < 0x100000000 - directMapSize := Nat.lt_trans hva (by decide)
  exact ha.placed.resolves (not_overflows_of_lt hframes hlow)

theorem Reachable.of_define {size : Nat} {b : AddressSpace} (h : a.Reachable) (m : Machine)
    (hdefine : a.define va size = .ok b) : b.Reachable := by
  have houtcome := Kernel.defineRegion_outcome (m := m) a va size ⟨0⟩
  rw [hdefine] at houtcome
  exact h.define houtcome

/-- The second region was declared after the load, right behind the first, and has no frames. -/
theorem reachable_of_late_region :
    Reachable ⟨some ⟨⟨0x400000, by decide⟩, 2, some ⟨0x6000, by decide⟩, by decide⟩,
      some ⟨⟨0x402000, by decide⟩, 1, none, by decide⟩, some ⟨0x8000, by decide⟩, true⟩ := by
  obtain ⟨m, hm⟩ : ∃ m : Machine, m = (Machine.new ⟨.replicate 64 .zero⟩ ⟨0x1000, by decide⟩
      ⟨0x40000, by decide⟩ fun _ => 0).run [.allocFrames 3, .bootstrap, .allocFrames 1] := by
    apply exists_eq
  have hlive : m.Reachable := ⟨_, _, _, _, _, hm⟩
  have hdefine : AddressSpace.empty.define ⟨0x400010, by decide⟩ 0x1800 =
      .ok ⟨some ⟨⟨0x400000, by decide⟩, 2, none, by decide⟩, none, none, false⟩ := by
    decide +kernel
  have hload := (Reachable.empty.of_define m hdefine).load hlive
  have hloaded : (Loader.prepareLoad.outcome
      ⟨m, ⟨some ⟨⟨0x400000, by decide⟩, 2, none, by decide⟩, none, none, false⟩⟩).2.space =
      ⟨some ⟨⟨0x400000, by decide⟩, 2, some ⟨0x6000, by decide⟩, by decide⟩, none,
        some ⟨0x8000, by decide⟩, false⟩ := by
    rw [hm]
    decide +kernel
  have hlate : AddressSpace.define ⟨some ⟨⟨0x400000, by decide⟩, 2, some ⟨0x6000, by decide⟩,
        by decide⟩, none, some ⟨0x8000, by decide⟩, false⟩ ⟨0x402000, by decide⟩ 1 =
      .ok ⟨some ⟨⟨0x400000, by decide⟩, 2, some ⟨0x6000, by decide⟩, by decide⟩,
        some ⟨⟨0x402000, by decide⟩, 1, none, by decide⟩, some ⟨0x8000, by decide⟩, false⟩ := by
    decide +kernel
  rw [hloaded] at hload
  exact (hload.of_define m hlate).complete (Kernel.completeLoad_outcome (m := m) _)

theorem segments_separated_of_late_region :
    ∃ a : AddressSpace, a = ⟨some ⟨⟨0x400000, by decide⟩, 2, some ⟨0x6000, by decide⟩, by decide⟩,
        some ⟨⟨0x402000, by decide⟩, 1, none, by decide⟩, some ⟨0x8000, by decide⟩, true⟩ ∧
      a.Reachable ∧ a.FramesBelow directMapSize ∧
      a.Separated ∧ ∀ va : VAddr, va.val < userTop → a.Resolves va :=
  ⟨_, rfl, reachable_of_late_region, by decide,
    segments_separated reachable_of_late_region (by decide)⟩

end AddressSpace
end MipsVm
