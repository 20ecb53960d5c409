import MipsVm.Proofs.VmHistory

/-! Which ranges may be declared as a region. The sums and products that a request is checked by are
formed in 32 bits; the rule is stated in numbers without bound. -/
namespace MipsVm

/-- First address of the pages of a range that begins at `va`. -/
def pageFloor (va : VAddr) : Nat := va.val / pageSize * pageSize

/-- One past the last address of the pages of the `size` bytes from `va` on. -/
def pageCeil (va : VAddr) (size : Nat) : Nat := pagesFor (va.val + size) * pageSize

namespace Region
variable {r : Region} {va : VAddr} {size : Nat}

/-- The pages of the `size` bytes from `va` on, and no others. -/
structure PagesOf (r : Region) (va : VAddr) (size : Nat) : Prop where
  unbound : r.pbase = none
  vbase_val : r.vbase.val = pageFloor va
  vend_val : r.vend.val = pageCeil va size
  vbase_aligned : r.vbase.isPageAligned = true
  vend_aligned : r.vend.isPageAligned = true
  first_page : r.vbase.val ≤ va.val ∧ va.val < r.vbase.val + pageSize
  last_page : va.val + size ≤ r.vend.val ∧ r.vend.val < va.val + size + pageSize

theorem PagesOf.of_val (hunbound : r.pbase = none) (hvbase : r.vbase.val = pageFloor va)
    (hvend : r.vend.val = pageCeil va size) : r.PagesOf va size := by
  have hbelow := le_pagesFor_mul (va.val + size)
  have habove := pagesFor_mul_lt (va.val + size)
  have hva := Nat.div_add_mod' va.val pageSize
  have hoffset : va.val % pageSize < pageSize := Nat.mod_lt _ (by decide)
  constructor
  case unbound => exact hunbound
  case vbase_val => exact hvbase
  case vend_val => exact hvend
  case vbase_aligned =>
    rw [Address.isPageAligned_iff, hvbase]
    exact Nat.dvd_mul_left ..
  case vend_aligned =>
    rw [Address.isPageAligned_iff, hvend]
    exact Nat.dvd_mul_left ..
  case first_page =>
    rw [hvbase, pageFloor]
    omega
  case last_page =>
    rw [hvend, pageCeil]
    exact ⟨hbelow, habove⟩

/-- The checked sums and the product fail together with the exact ones: where they do, the pages end
past the address space. -/
theorem covering?_spec (va : VAddr) (size : Nat) :
    (∃ r, covering? va size = some r ∧ r.PagesOf va size) ∨
      (covering? va size = none ∧ 0x100000000 ≤ pageCeil va size) := by
  have hva := va.isLt
  unfold covering?
  split_ifs with hbytes hend
  · refine .inl ⟨_, rfl, .of_val rfl rfl ?_⟩
    simp only [vend, Address.alignDown, Address.pageOffset, pageCeil, pagesFor, pageSize]
    omega
  · refine .inr ⟨rfl, ?_⟩
    simp only [Address.alignDown, Address.pageOffset, pageCeil, pagesFor, pageSize] at *
    omega
  · refine .inr ⟨rfl, ?_⟩
    simp only [Address.pageOffset, pageCeil, pagesFor, pageSize] at *
    omega

theorem overlaps_iff {s : Region} :
    r.overlaps s = true ↔ r.vbase.val < s.vend.val ∧ s.vbase.val < r.vend.val := by
  rw [Region.overlaps, Bool.and_eq_true, decide_eq_true_eq, decide_eq_true_eq]
  rfl

end Region

namespace AddressSpace
variable {a : AddressSpace} {va : VAddr} {size : Nat} {r : Region} {slot : Segment}

/-- The pages of the range reach past the start of the stack, or into a declared region. -/
def Collides (a : AddressSpace) (va : VAddr) (size : Nat) : Prop :=
  userStackBase.val < pageCeil va size ∨
    ∃ i r, a.programRegion? i = some r ∧ pageFloor va < r.vend.val ∧ r.vbase.val < pageCeil va size

/-- Every slot for a program region holds one. -/
def SlotsTaken (a : AddressSpace) : Prop := ∀ i < maxProgramRegions, a.programRegion? i ≠ none

/-- The lowest slot for a program region that holds none. -/
structure FirstFree (a : AddressSpace) (slot : Segment) : Prop where
  lt : slot.index < maxProgramRegions
  free : a.programRegion? slot.index = none
  below : ∀ i < slot.index, a.programRegion? i ≠ none

theorem overlapsProgram_iff : a.overlapsProgram r = true ↔
    ∃ i s, a.programRegion? i = some s ∧ r.vbase.val < s.vend.val ∧ s.vbase.val < r.vend.val := by
  simp only [overlapsProgram, Bool.or_eq_true, Option.any_eq_true, Region.overlaps_iff]
  constructor
  · rintro (⟨s, hs, hover⟩ | ⟨s, hs, hover⟩)
    · exact ⟨0, s, hs, hover⟩
    · exact ⟨1, s, hs, hover⟩
  · rintro ⟨_ | _ | i, s, hs, hover⟩
    · exact .inl ⟨s, hs, hover⟩
    · exact .inr ⟨s, hs, hover⟩
    · cases hs

theorem firstFree_of_freeSlot? (h : a.freeSlot? = some slot) : a.FirstFree slot := by
  unfold freeSlot? at h
  split_ifs at h with htext hdata
  · obtain rfl := Option.some.inj h
    exact ⟨by decide, Option.isNone_iff_eq_none.mp htext, nofun⟩
  · obtain rfl := Option.some.inj h
    refine ⟨by decide, Option.isNone_iff_eq_none.mp hdata, ?_⟩
    intro i hi
    obtain rfl : i = 0 := Nat.lt_one_iff.mp hi
    exact fun hnone => htext (Option.isNone_iff_eq_none.mpr hnone)

theorem slotsTaken_of_freeSlot? (h : a.freeSlot? = none) : a.SlotsTaken := by
  unfold freeSlot? at h
  split_ifs at h with htext hdata
  rintro (_ | _ | i) hi hnone
  · exact htext (Option.isNone_iff_eq_none.mpr hnone)
  · exact hdata (Option.isNone_iff_eq_none.mpr hnone)
  · exact absurd hi (Nat.not_lt.mpr (Nat.le_add_left 2 i))

theorem FirstFree.not_slotsTaken (h : a.FirstFree slot) : ¬ a.SlotsTaken :=
  fun htaken => htaken slot.index h.lt h.free

theorem collides_iff (h : r.PagesOf va size) :
    a.Collides va size ↔ userStackBase < r.vend ∨ a.overlapsProgram r = true := by
  rw [Collides, overlapsProgram_iff, Address.lt_def, h.vbase_val, h.vend_val]

/-- The answer to a request for a region. -/
inductive Requested (a : AddressSpace) (va : VAddr) (size : Nat) :
    Except VmError AddressSpace → Prop where
  | collides (h : a.Collides va size) : Requested a va size (.error (.invalidRange va))
  | full (h : ¬ a.Collides va size) (htaken : a.SlotsTaken) :
    Requested a va size (.error .tooManyRegions)
  | declared (h : ¬ a.Collides va size) (slot : Segment) (r : Region) (hfree : a.FirstFree slot)
    (hpages : r.PagesOf va size) : Requested a va size (.ok (a.setRegion r slot))

theorem requested_define (a : AddressSpace) (va : VAddr) (size : Nat) :
    a.Requested va size (a.define va size) := by
  rcases Region.covering?_spec va size with ⟨r, hcover, hpages⟩ | ⟨hcover, hpast⟩
  · have hcollides := collides_iff (a := a) hpages
    simp only [define, placement, hcover]
    split_ifs with hstack hover
    · exact .collides (hcollides.mpr (.inl hstack))
    · exact .collides (hcollides.mpr (.inr hover))
    have hlegal : ¬ a.Collides va size := by
      rw [hcollides, not_or]
      exact ⟨hstack, hover⟩
    cases hfree : a.freeSlot? with
    | none => exact .full hlegal (slotsTaken_of_freeSlot? hfree)
    | some slot => exact .declared hlegal slot r (firstFree_of_freeSlot? hfree) hpages
  · -- what ends past the address space ends past the stack too
    have hstack : userStackBase.val < pageCeil va size :=
      Nat.lt_of_lt_of_le userStackBase.isLt hpast
    simp only [define, placement, hcover]
    exact .collides (.inl hstack)

/-- A request is answered by the exact rule: which range may not be declared, when there is no room
for one that may, and what is declared otherwise. -/
structure Decides (a : AddressSpace) (va : VAddr) (size : Nat)
    (answer : Except VmError AddressSpace) : Prop where
  invalid_iff : answer = .error (.invalidRange va) ↔ a.Collides va size
  full_iff : answer = .error .tooManyRegions ↔ ¬ a.Collides va size ∧ a.SlotsTaken
  declared : ¬ a.Collides va size → ¬ a.SlotsTaken →
    ∃ slot r, a.FirstFree slot ∧ r.PagesOf va size ∧ answer = .ok (a.setRegion r slot)

theorem Requested.decides {answer : Except VmError AddressSpace} (h : a.Requested va size answer) :
    a.Decides va size answer := by
  cases h with
  | collides h =>
    refine ⟨⟨fun _ => h, fun _ => rfl⟩, ⟨nofun, ?_⟩, fun hlegal => absurd h hlegal⟩
    rintro ⟨hlegal, -⟩
    exact absurd h hlegal
  | full h htaken =>
    refine ⟨⟨nofun, fun hillegal => absurd hillegal h⟩, ⟨fun _ => ⟨h, htaken⟩, fun _ => rfl⟩, ?_⟩
    exact fun _ hroom => absurd htaken hroom
  | declared h slot r hfree hpages =>
    refine ⟨⟨nofun, fun hillegal => absurd hillegal h⟩, ⟨nofun, ?_⟩, ?_⟩
    · rintro ⟨-, htaken⟩
      exact absurd htaken hfree.not_slotsTaken
    · exact fun _ _ => ⟨slot, r, hfree, hpages, rfl⟩

end AddressSpace

namespace VmHistory
variable {h : VmHistory} {s : ProcessSpace} {i : Nat}

/-- A request for a region never halts, is granted exactly if the range may be declared and there is
a slot for it, and changes no address space when it is refused. -/
theorem defineRegion_decides (hs : h.spaces.get? i = some s) (va : VAddr) (size : Nat)
    (perms : Permissions) :
    ∃ answer machine,
      (Kernel.defineRegion s.space va size perms).outcome h.machine = (.ok answer, machine) ∧
        s.space.Decides va size answer ∧
        (∀ e, answer = .error e → (h.next (.defineRegion i va size perms)).spaces = h.spaces) ∧
        ∀ space, answer = .ok space →
          (h.next (.defineRegion i va size perms)).spaces.get? i = some { s with space } := by
  have houtcome := Kernel.defineRegion_outcome (m := h.machine) s.space va size perms
  refine ⟨_, _, houtcome, (s.space.requested_define va size).decides, ?_, ?_⟩
  · intro e herror
    rw [next, onSpace_of_live hs, houtcome, herror]
  · intro space hok
    rw [next, onSpace_of_live hs, houtcome, hok]
    exact HandleTable.get?_set_self hs

theorem defineRegion_decides_across_region_end :
    ∃ h : VmHistory, h =
        (start (.new ⟨.replicate 4 .zero⟩ ⟨0x1000, by decide⟩ ⟨0x4000, by decide⟩ fun _ => 0)).run
          [.createSpace, .defineRegion 0 ⟨0x400800, by decide⟩ 0x1000 ⟨5⟩] ∧
      ∃ s, h.spaces.get? 0 = some s ∧
        let va : VAddr := ⟨0x401FFF, by decide⟩
        ∃ answer machine,
          (Kernel.defineRegion s.space va 2 ⟨3⟩).outcome h.machine = (.ok answer, machine) ∧
            s.space.Decides va 2 answer ∧
            (∀ e, answer = .error e → (h.next (.defineRegion 0 va 2 ⟨3⟩)).spaces = h.spaces) ∧
            ∀ space, answer = .ok space →
              (h.next (.defineRegion 0 va 2 ⟨3⟩)).spaces.get? 0 = some { s with space } := by
  have hs : ((start (.new ⟨.replicate 4 .zero⟩ ⟨0x1000, by decide⟩ ⟨0x4000, by decide⟩
      fun _ => 0)).run [.createSpace, .defineRegion 0 ⟨0x400800, by decide⟩ 0x1000 ⟨5⟩]).spaces.get?
        0 = some ⟨⟨some ⟨⟨0x400000, by decide⟩, 2, none, by decide⟩, none, none, false⟩, false⟩ := by
    decide +kernel
  exact ⟨_, rfl, _, hs, defineRegion_decides hs _ _ _⟩

end VmHistory
end MipsVm
