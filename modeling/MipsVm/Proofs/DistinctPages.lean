import MipsVm.Proofs.Operations
import MipsVm.Proofs.TlbCoherence

/-! No two slots of the translation buffer match the same page, as long as the processor reports a miss
only for a page that no valid entry matches. -/
namespace MipsVm

namespace Tlb
variable {t : Tlb} {va : VAddr} {pa : PAddr} {dirty : Bool}

/-- No two slots match the same page: a valid entry has a page of the user's part of the address map, and
a slot without one has the page that is kept for it above. -/
structure Distinct (t : Tlb) : Prop where
  pages : ∀ i j : Fin tlbSlots, (t.slots.get i).hi.vpn = (t.slots.get j).hi.vpn → i = j
  invalid : ∀ i : Fin tlbSlots, (t.slots.get i).isValid = false → t.slots.get i = .invalid i
  user : ∀ i : Fin tlbSlots, (t.slots.get i).isValid = true → (t.slots.get i).hi.page.val < userTop

theorem distinct_of_empty (hslots : t.slots = emptySlots) : t.Distinct := by
  have hslot : ∀ i : Fin tlbSlots, t.slots.get i = .invalid i := by
    intro i
    rw [hslots]
    exact Vector.getElem_ofFn ..
  constructor
  case pages =>
    -- the pages that are kept for the slots are numbered like them
    intro i j heq
    have hi : (t.slots.get i).hi.vpn = EntryHi.firstUnmatched + i.val := by
      rw [hslot i]
      exact EntryHi.vpn_unmatched i
    have hj : (t.slots.get j).hi.vpn = EntryHi.firstUnmatched + j.val := by
      rw [hslot j]
      exact EntryHi.vpn_unmatched j
    apply Fin.ext
    omega
  case invalid => exact fun i _ => hslot i
  case user =>
    intro i hvalid
    rw [hslot i, TlbEntry.isValid_invalid] at hvalid
    cases hvalid

theorem ne_of_probe?_eq_none (h : t.probe? va = none) (i : Fin tlbSlots)
    (hvalid : (t.slots.get i).isValid = true) : (t.slots.get i).hi.vpn ≠ va.pageNumber := by
  have hmem : t.slots.get i ∈ t.slots := Vector.getElem_mem i.isLt
  have hnone := Vector.find?_eq_none.mp h (t.slots.get i) hmem
  rw [Bool.and_eq_true, beq_iff_eq] at hnone
  exact fun heq => hnone ⟨hvalid, heq⟩

/-- A user's page that no valid entry matches is the page of no slot at all. -/
theorem Distinct.fresh (h : t.Distinct) (hva : va.val < userTop) (hmiss : t.probe? va = none)
    (i : Fin tlbSlots) : (t.slots.get i).hi.vpn ≠ va.pageNumber := by
  cases hvalid : (t.slots.get i).isValid with
  | true => exact ne_of_probe?_eq_none hmiss i hvalid
  | false =>
    -- `probe?` passes over entries that are not valid, but those have pages above the user's
    have hvpn : (t.slots.get i).hi.vpn = EntryHi.firstUnmatched + i.val := by
      rw [h.invalid i hvalid]
      exact EntryHi.vpn_unmatched i
    have hbelow : va.pageNumber < EntryHi.firstUnmatched := by
      simp only [Address.pageNumber, EntryHi.firstUnmatched, userTop, kseg0, pageSize] at *
      omega
    omega

/-- A miss may be resolved into any slot, empty or not. -/
theorem Distinct.put (h : t.Distinct) (hva : va.val < userTop) (hmiss : t.probe? va = none)
    (pa : PAddr) (dirty : Bool) (placement : Placement) :
    (t.put ⟨.forPage va.alignDown, .mapping pa dirty⟩ placement).Distinct := by
  obtain ⟨replaced, hget⟩ := t.get_put ⟨.forPage va.alignDown, .mapping pa dirty⟩ placement
  generalize t.put ⟨.forPage va.alignDown, .mapping pa dirty⟩ placement = filled at hget
  have hself : filled.slots.get replaced = ⟨.forPage va.alignDown, .mapping pa dirty⟩ :=
    (hget replaced).trans (if_pos rfl)
  have hother : ∀ i : Fin tlbSlots, i ≠ replaced → filled.slots.get i = t.slots.get i :=
    fun i hne => (hget i).trans (if_neg hne)
  have hvpn : (filled.slots.get replaced).hi.vpn = va.pageNumber := by
    rw [hself, EntryHi.vpn_forPage, Address.pageNumber_alignDown]
  have hvalid : (filled.slots.get replaced).isValid = true := by
    rw [hself]
    exact EntryLo.valid_mapping pa dirty
  constructor
  case pages =>
    intro i j heq
    -- the new entry has a page that no other slot has
    by_cases hi : i = replaced
    · by_cases hj : j = replaced
      · exact hi.trans hj.symm
      · rw [hi, hvpn, hother j hj] at heq
        exact absurd heq.symm (h.fresh hva hmiss j)
    · rw [hother i hi] at heq
      by_cases hj : j = replaced
      · rw [hj, hvpn] at heq
        exact absurd heq (h.fresh hva hmiss i)
      · rw [hother j hj] at heq
        exact h.pages i j heq
  case invalid =>
    intro i hinvalid
    have hne : i ≠ replaced := by
      rintro rfl
      cases hvalid.symm.trans hinvalid
    rw [hother i hne] at hinvalid ⊢
    exact h.invalid i hinvalid
  case user =>
    intro i hi
    by_cases hne : i = replaced
    · have hle : va.alignDown.val ≤ va.val := va.alignDown_le
      rw [hne, hself, EntryHi.page_forPage, Address.alignDown_alignDown]
      exact Nat.lt_of_le_of_lt hle hva
    · rw [hother i hne] at hi ⊢
      exact h.user i hi

end Tlb

/-- The processor can ask for the operation as it stands: programs name no address of the kernel, and a
load or a store misses only where no valid entry matches. -/
def Operation.Delivered (m : Machine) : Operation → Prop
  | .fault _ code addr => addr.val < userTop ∧ (code = 0 ∨ code = 1 → m.tlb.probe? addr = none)
  | _ => True

namespace Machine
variable {m : Machine}

/-- Each of the operations can be asked for when its turn comes. -/
def Delivers (m : Machine) : List Operation → Prop
  | [] => True
  | op :: ops => op.Delivered m ∧ (m.next op).Delivers ops

theorem tlb_next_of_not_loads {op : Operation} (hop : ¬ op.LoadsTlb) :
    (m.next op).tlb = m.tlb := by
  have hmemory : MemoryBound SameTlb :=
    Kernel.memoryBound sameTlb_effect.critical (fun _ _ => rfl) (fun _ _ => rfl)
      (fun _ _ => rfl) fun _ _ => rfl
  exact next_bound hmemory (fun hload => absurd hload hop) (fun hload => absurd hload hop) m

theorem distinct_fault (h : m.tlb.Distinct) {space : Option AddressSpace} {code : Nat} {addr : VAddr}
    (hop : (Operation.fault space code addr).Delivered m) :
    (m.next (.fault space code addr)).tlb.Distinct := by
  obtain ⟨haddr, hmiss⟩ := hop
  rw [next]
  by_cases hcode : code = 0 ∨ code = 1
  · cases space with
    | none =>
      rw [Kernel.fault_none_tlb]
      exact h
    | some a =>
      rw [(Kernel.fault_of_miss hcode).2]
      rcases a.translate addr.alignDown with halt | _ | t
      · exact h
      · exact h
      · exact h.put haddr (hmiss hcode) _ _ _
  · rw [(Kernel.fault_of_no_miss hcode space).2]
    exact h

theorem distinct_next (h : m.tlb.Distinct) {op : Operation} (hop : op.Delivered m) :
    (m.next op).tlb.Distinct := by
  have hflushed : (Kernel.flushTlb.outcome m).2.tlb.Distinct := Tlb.distinct_of_empty rfl
  cases op with
  | completeLoad a =>
    rw [next, Kernel.completeLoad_outcome]
    exact hflushed
  | activateSpace space =>
    cases space with
    | none => exact h
    | some a => exact hflushed
  | fault space code addr => exact distinct_fault h hop
  | _ =>
    rw [tlb_next_of_not_loads id]
    exact h

theorem distinct_run (h : m.tlb.Distinct) {ops : List Operation} (hops : m.Delivers ops) :
    (m.run ops).tlb.Distinct := by
  induction ops generalizing m with
  | nil => exact h
  | cons op ops ih =>
    obtain ⟨hop, hrest⟩ := hops
    exact ih (distinct_next h hop) hrest

/-- Whatever address spaces are activated, loaded and faulted on, and whichever slots the hardware chooses
to replace. -/
theorem pages_distinct_of_operations (ram : Ram) (first last : PAddr) (victim : Nat → Fin tlbSlots)
    {ops : List Operation} (hops : (new ram first last victim).Delivers ops) :
    (∀ i j : Fin tlbSlots, i ≠ j →
      (((new ram first last victim).run ops).tlb.slots.get i).hi ≠
        (((new ram first last victim).run ops).tlb.slots.get j).hi) ∧
      ((new ram first last victim).run ops).tlb.Distinct := by
  have hstart : (new ram first last victim).tlb.Distinct := Tlb.distinct_of_empty rfl
  have hdistinct := distinct_run hstart hops
  refine ⟨?_, hdistinct⟩
  intro i j hne heq
  exact hne (hdistinct.pages i j (congrArg EntryHi.vpn heq))

/-- The same page misses again once the end of the load has emptied the buffer. -/
theorem pages_distinct_of_operations_while_loading :
    ∃ a : AddressSpace, a = ⟨some ⟨⟨0x400000, by decide⟩, 2, some ⟨0x1000, by decide⟩, by decide⟩,
        none, some ⟨0x3000, by decide⟩, false⟩ ∧
      ∃ m : Machine, m = (new ⟨.replicate 16 .zero⟩ ⟨0, by decide⟩ ⟨0x10000, by decide⟩
          fun _ => 5).run [.activateSpace (some a), .fault (some a) 1 ⟨0x400010, by decide⟩,
            .fault (some a) 1 ⟨0x401000, by decide⟩, .fault (some a) 2 ⟨0x400020, by decide⟩,
            .completeLoad a, .fault (some a) 0 ⟨0x400010, by decide⟩] ∧
        (∀ i j : Fin tlbSlots, i ≠ j → (m.tlb.slots.get i).hi ≠ (m.tlb.slots.get j).hi) ∧
        m.tlb.Distinct := by
  refine ⟨_, rfl, _, rfl, pages_distinct_of_operations _ _ _ _ ?_⟩
  refine ⟨trivial, ⟨by decide, fun _ => ?_⟩, ⟨by decide, fun _ => ?_⟩, ⟨by decide, nofun⟩, trivial,
    ⟨by decide, fun _ => ?_⟩, trivial⟩
  · decide +kernel
  · decide +kernel
  · decide +kernel

end Machine
end MipsVm
