import MipsVm.Proofs.SpaceHoldings
import MipsVm.Proofs.VmHistory

/-! The holdings of all address spaces and of all runs of the kernel are all the frames that are out, at
any point of a history in which nobody holds a space twice; and no call writes to what others hold. -/
namespace MipsVm

namespace KernelRun

def range (run : KernelRun) : FrameRange := ⟨run.base.val, run.frames⟩

def holding (run : KernelRun) : Holding := ⟨run.range, run.pooled⟩

theorem start_holding (run : KernelRun) : run.base.val = run.holding.range.start := rfl

end KernelRun

def ProcessSpace.holdings (s : ProcessSpace) : List Holding := s.space.holdings s.pooled

/-- All that the spaces and the runs hold. -/
def allHoldings (spaces : List ProcessSpace) (runs : List KernelRun) : List Holding :=
  spaces.flatMap ProcessSpace.holdings ++ runs.map KernelRun.holding

theorem allHoldings_space (s : ProcessSpace) (spaces : List ProcessSpace) (runs : List KernelRun) :
    allHoldings (s :: spaces) runs = s.holdings ++ allHoldings spaces runs := by
  rw [allHoldings, List.flatMap_cons, List.append_assoc, allHoldings]

theorem allHoldings_run (spaces : List ProcessSpace) (run : KernelRun) (runs : List KernelRun) :
    (allHoldings spaces (run :: runs)).Perm (run.holding :: allHoldings spaces runs) :=
  List.perm_middle

theorem allHoldings_perm {spaces spaces' : List ProcessSpace} {runs runs' : List KernelRun}
    (hspaces : spaces.Perm spaces') (hruns : runs.Perm runs') :
    (allHoldings spaces runs).Perm (allHoldings spaces' runs') :=
  (hspaces.flatMap_right _).append (hruns.map _)

namespace Machine

/-- Neither the frame source nor RAM has changed. -/
def SameMemory (m m' : Machine) : Prop := m.SameSource m' ∧ m'.ram = m.ram

theorem sameMemory_effect : Effect SameMemory where
  trans h₁ h₂ := ⟨sameSource_effect.trans h₁.1 h₂.1, h₂.2.trans h₁.2⟩
  trace _ _ := ⟨⟨rfl, rfl⟩, rfl⟩
  interrupts _ _ := ⟨⟨rfl, rfl⟩, rfl⟩
  locked _ _ := ⟨⟨rfl, rfl⟩, rfl⟩

end Machine

/-- Descriptors of address spaces are not duplicated. -/
def VmCall.Linear : VmCall → Prop
  | .cloneSpace _ => False
  | _ => True

namespace VmHistory
variable {first last : PAddr} {h : VmHistory} {i : Nat} {s : ProcessSpace}

def holdings (h : VmHistory) : List Holding := allHoldings h.spaces.live h.runs.live

/-- What all but the space `i` hold. -/
def holdingsBesideSpace (h : VmHistory) (i : Nat) : List Holding :=
  allHoldings (h.spaces.remove i).live h.runs.live

/-- What all but the run `i` hold. -/
def holdingsBesideRun (h : VmHistory) (i : Nat) : List Holding :=
  allHoldings h.spaces.live (h.runs.remove i).live

theorem holdings_space (hs : h.spaces.get? i = some s) :
    h.holdings.Perm (s.holdings ++ h.holdingsBesideSpace i) := by
  have hperm := allHoldings_perm (HandleTable.live_remove hs) (List.Perm.refl h.runs.live)
  rwa [allHoldings_space] at hperm

theorem holdings_run {run : KernelRun} (hrun : h.runs.get? i = some run) :
    h.holdings.Perm (run.holding :: h.holdingsBesideRun i) :=
  (allHoldings_perm (List.Perm.refl h.spaces.live) (HandleTable.live_remove hrun)).trans
    (allHoldings_run ..)

theorem holdings_addSpace (machine : Machine) (s : ProcessSpace) :
    { h with machine, spaces := h.spaces.add s : VmHistory }.holdings.Perm
      (s.holdings ++ h.holdings) := by
  have hlive : (h.spaces.add s).live.Perm (s :: h.spaces.live) := by
    rw [HandleTable.live_add]
    exact List.perm_append_singleton s _
  have hperm := allHoldings_perm hlive (List.Perm.refl h.runs.live)
  rwa [allHoldings_space] at hperm

theorem holdings_addRun (machine : Machine) (run : KernelRun) :
    { h with machine, runs := h.runs.add run : VmHistory }.holdings.Perm
      (run.holding :: h.holdings) := by
  have hlive : (h.runs.add run).live.Perm (run :: h.runs.live) := by
    rw [HandleTable.live_add]
    exact List.perm_append_singleton run _
  exact (allHoldings_perm (List.Perm.refl h.spaces.live) hlive).trans (allHoldings_run ..)

theorem holdings_setSpace (machine : Machine) (hs : h.spaces.get? i = some s) (t : ProcessSpace) :
    { h with machine, spaces := h.spaces.set i t : VmHistory }.holdings.Perm
      (t.holdings ++ h.holdingsBesideSpace i) := by
  have hperm := allHoldings_perm (HandleTable.live_set (y := t) hs) (List.Perm.refl h.runs.live)
  rwa [allHoldings_space] at hperm

theorem space_subset_allHoldings (hs : h.spaces.get? i = some s) (runs : List KernelRun) :
    s.holdings ⊆ allHoldings h.spaces.live runs := by
  intro x hx
  exact List.mem_append_left _ (List.mem_flatMap.mpr ⟨s, HandleTable.mem_live hs, hx⟩)

theorem run_mem_allHoldings {run : KernelRun} (hrun : h.runs.get? i = some run)
    (spaces : List ProcessSpace) : run.holding ∈ allHoldings spaces h.runs.live :=
  List.mem_append_right _ (List.mem_map_of_mem (HandleTable.mem_live hrun))

/-- The frames that are out are those that some space or run holds. -/
def Owned (first last : PAddr) (h : VmHistory) : Prop :=
  MipsVm.Owned first last h.machine h.holdings h.ledger

/-- What the call may not write to. -/
def spared (h : VmHistory) : VmCall → List Holding
  | .copyOut i _ _ => h.holdingsBesideSpace i
  | .markThreadStack i | .writeRun i _ _ | .zeroRun i _ | .copyRun i _ _ => h.holdingsBesideRun i
  | _ => h.holdings

/-- From `h` to `h'` all frames stay with their holders, and the bytes of `hs` as they are. -/
structure Keeps (first last : PAddr) (h : VmHistory) (hs : List Holding) (h' : VmHistory) :
    Prop where
  owned : h'.Owned first last
  spares : h.machine.Spares hs h'.machine

namespace Owned
variable (hown : h.Owned first last)
include hown

theorem keeps_refl (hs : List Holding) : h.Keeps first last hs h := ⟨hown, .of_ram rfl rfl hs⟩

theorem keeps_of_same {machine : Machine} (hsame : h.machine.SameMemory machine)
    (hs : List Holding) : h.Keeps first last hs { h with machine } :=
  ⟨hown.of_same hsame.1 hsame.2, .of_ram hsame.2 (Machine.pooling_of_source hsame.1.source_eq) hs⟩

theorem keeps_perform {α : Type} {k : Kernel α} (hk : k.Obeys Machine.SameMemory)
    (hs : List Holding) : h.Keeps first last hs (h.perform k) := hown.keeps_of_same (hk h.machine) hs

/-- A write to frames of one run. -/
theorem keeps_write {α : Type} {k : Kernel α} {run : KernelRun}
    (hrun : h.runs.get? i = some run) (hsource : k.Obeys Machine.SameSource)
    (hw : h.machine.ram.WritesIn run.range (k.outcome h.machine).2.ram) :
    h.Keeps first last (h.holdingsBesideRun i) (h.perform k) := by
  have hmem : run.holding ∈ h.holdings := run_mem_allHoldings hrun _
  have hmoved := hown.perm (holdings_run hrun)
  have hpooling := Machine.pooling_of_source (hsource h.machine).source_eq
  exact ⟨hown.write hmem (hsource h.machine) hw, hmoved.spares_tail hpooling.trans hw⟩

theorem keeps_allocFrames (n : Nat) :
    h.Keeps first last h.holdings (h.next (.allocFrames n)) := by
  have halloc := MipsVm.Owned.allocFrames hown n
  rw [VmHistory.next]
  rcases hcall : (Kernel.allocFrames n).outcome h.machine with ⟨answer, machine⟩
  rw [hcall] at halloc
  cases halloc with
  | halted halt _ hledger hboot hpooling howned =>
    exact ⟨howned, hown.spares_ledger hledger hpooling⟩
  | refused _ hledger hpooling howned => exact ⟨howned, hown.spares_ledger hledger hpooling⟩
  | granted pa _ hledger hpooling howned =>
    have hadded := holdings_addRun (h := h) machine ⟨pa, n, h.machine.pooling⟩
    exact ⟨howned.perm hadded.symm, hown.spares_ledger hledger hpooling⟩

/-- Whatever frames come have an address in the direct map. -/
theorem next_allocKernelPages (n : Nat) :
    h.next (.allocKernelPages n) = h.next (.allocFrames n) := by
  have halloc := MipsVm.Owned.allocFrames hown n
  rw [VmHistory.next, VmHistory.next, Kernel.allocKernelPages_outcome]
  rcases hcall : (Kernel.allocFrames n).outcome h.machine with ⟨answer, machine⟩
  rw [hcall] at halloc
  cases halloc with
  | halted halt _ hledger hboot hpooling howned => rfl
  | refused _ hledger hpooling howned => rfl
  | granted pa _ hledger hpooling howned =>
    obtain ⟨va, haddr, hmapped⟩ := howned.kernelAddr_of_holding List.mem_cons_self rfl
    simp only [haddr, Except.map, hmapped]

theorem keeps_freeFrames (i : Nat) : h.Keeps first last h.holdings (h.next (.freeFrames i)) := by
  refine onRun_induction (hown.keeps_refl _) fun run hrun => ?_
  have hmoved := hown.perm (holdings_run hrun)
  obtain ⟨machine, hfree, hledger, hpooling, howned⟩ := hmoved.freeFrames run.start_holding
  rw [perform, hfree]
  exact ⟨howned, hown.spares_ledger hledger hpooling⟩

theorem next_freeKernelPages (i : Nat) :
    h.next (.freeKernelPages i) = h.next (.freeFrames i) := by
  rw [VmHistory.next, VmHistory.next]
  unfold onRun
  cases hrun : h.runs.get? i with
  | none => rfl
  | some run =>
    have hmem : run.holding ∈ h.holdings := run_mem_allHoldings hrun _
    obtain ⟨va, haddr, hmapped⟩ := MipsVm.Owned.kernelAddr_of_holding hown hmem run.start_holding
    simp only [haddr, perform, Kernel.freeKernelPages_outcome, hmapped]

theorem keeps_prepareLoad (i : Nat) : h.Keeps first last h.holdings (h.next (.prepareLoad i)) := by
  refine onSpace_induction (hown.keeps_refl _) fun s hs => ?_
  have hmoved := hown.perm (holdings_space hs)
  obtain ⟨howned, hspares⟩ := hmoved.prepareLoad
  have hset := holdings_setSpace (Loader.prepareLoad.outcome ⟨h.machine, s.space⟩).2.machine hs
    ⟨(Loader.prepareLoad.outcome ⟨h.machine, s.space⟩).2.space,
      if s.space.hasFrames then s.pooled else h.machine.pooling⟩
  exact ⟨howned.perm hset.symm, hspares.mono (holdings_space hs).subset⟩

theorem keeps_copySpace (i : Nat) : h.Keeps first last h.holdings (h.next (.copySpace i)) := by
  refine onSpace_induction (hown.keeps_refl _) fun s hs => ?_
  have hheld : ∀ t ∈ s.space.ranges, t.start < h.machine.ram.size := by
    intro t ht
    have hmem : (⟨t, s.pooled⟩ : Holding) ∈ h.holdings :=
      space_subset_allHoldings hs _ (List.mem_map_of_mem ht)
    exact MipsVm.Owned.start_lt_size hown hmem
  obtain ⟨answer, machine, hcopy, hspares, howned⟩ := MipsVm.Owned.copySpace hown hheld
  rw [hcopy]
  rcases answer with halt | e | space
  · exact ⟨howned, hspares⟩
  · exact ⟨howned, hspares⟩
  · have hadded := holdings_addSpace (h := h) machine ⟨space, h.machine.pooling⟩
    exact ⟨howned.perm hadded.symm, hspares⟩

theorem keeps_destroySpace (i : Nat) :
    h.Keeps first last h.holdings (h.next (.destroySpace i)) := by
  refine onSpace_induction (hown.keeps_refl _) fun s hs => ?_
  have hmoved := hown.perm (holdings_space hs)
  obtain ⟨machine, hdestroy, hledger, hpooling, howned⟩ := hmoved.destroySpace
  rw [perform, hdestroy]
  exact ⟨howned, hown.spares_ledger hledger hpooling⟩

/-- A space that is replaced by one with the same frames. -/
theorem keeps_setSpace {machine : Machine} (hsame : h.machine.SameMemory machine)
    (hs : h.spaces.get? i = some s) {t : ProcessSpace} (ht : t.holdings = s.holdings) :
    h.Keeps first last h.holdings { h with machine, spaces := h.spaces.set i t } := by
  have hset := holdings_setSpace machine hs t
  rw [ht] at hset
  have hmoved := hown.perm ((holdings_space hs).trans hset.symm)
  exact ⟨hmoved.of_same hsame.1 hsame.2,
    .of_ram hsame.2 (Machine.pooling_of_source hsame.1.source_eq) _⟩

theorem keeps_defineRegion (i : Nat) (va : VAddr) (size : Nat) (perms : Permissions) :
    h.Keeps first last h.holdings (h.next (.defineRegion i va size perms)) := by
  refine onSpace_induction (hown.keeps_refl _) fun s hs => ?_
  have hsame : h.machine.SameMemory
      (h.machine.logged (s.space.defineRecords va size perms)) := ⟨⟨rfl, rfl⟩, rfl⟩
  rw [Kernel.defineRegion_outcome]
  cases hdefine : s.space.define va size with
  | error e => exact hown.keeps_of_same hsame _
  | ok space =>
    have hranges : space.ranges = s.space.ranges := AddressSpace.ranges_define hdefine
    refine hown.keeps_setSpace hsame hs ?_
    simp only [ProcessSpace.holdings, AddressSpace.holdings, hranges]

theorem keeps_completeLoad (i : Nat) :
    h.Keeps first last h.holdings (h.next (.completeLoad i)) := by
  refine onSpace_induction (hown.keeps_refl _) fun s hs => ?_
  have hsame : h.machine.SameMemory (Kernel.flushTlb.outcome h.machine).2 := ⟨⟨rfl, rfl⟩, rfl⟩
  rw [Kernel.completeLoad_outcome]
  exact hown.keeps_setSpace hsame hs rfl

theorem keeps_copyOut (i : Nat) (dst : VAddr) (bytes : Array UInt8) :
    h.Keeps first last (h.holdingsBesideSpace i) (h.next (.copyOut i dst bytes)) := by
  refine onSpace_induction (hown.keeps_refl _) fun s hs => ?_
  have hmoved := hown.perm (holdings_space hs)
  obtain ⟨howned, hspares⟩ := hmoved.copyOut dst bytes
  exact ⟨howned.perm (holdings_space hs).symm, hspares⟩

theorem keeps_markThreadStack (i : Nat) :
    h.Keeps first last (h.holdingsBesideRun i) (h.next (.markThreadStack i)) := by
  refine onRun_induction (hown.keeps_refl _) fun run hrun => ?_
  have hmoved := hown.perm (holdings_run hrun)
  obtain ⟨howned, hspares⟩ := hmoved.markThreadStack run.start_holding
  exact ⟨howned.perm (holdings_run hrun).symm, hspares⟩

theorem keeps_writeRun (i offset : Nat) (bytes : Array UInt8) :
    h.Keeps first last (h.holdingsBesideRun i) (h.next (.writeRun i offset bytes)) := by
  refine onRun_induction (hown.keeps_refl _) fun run hrun => ?_
  split_ifs with hfits
  · have hR := Machine.sameSource_effect.composes
    have hsource := Kernel.obeys_bind hR (Kernel.obeys_lift hR (run.base.add offset)) fun pa =>
      Kernel.obeys_writeBytes hR Machine.sameSource_setRam pa bytes
    refine hown.keeps_write hrun hsource ?_
    rw [Kernel.outcome_bind, Kernel.outcome_lift]
    cases hadd : run.base.add offset with
    | error halt => exact .refl run.range h.machine.ram
    | ok pa =>
      have hpa : pa.val = run.base.val + offset := Address.add_eq_ok_iff.mp hadd
      refine (Ram.changesAt_writeBytes h.machine pa bytes).writesIn ?_ ?_
      · rw [hpa]
        exact Nat.le_add_right ..
      · rw [hpa, Nat.add_assoc]
        exact Nat.add_le_add_left hfits _
  · exact hown.keeps_refl _

theorem keeps_zeroRun (i n : Nat) :
    h.Keeps first last (h.holdingsBesideRun i) (h.next (.zeroRun i n)) := by
  refine onRun_induction (hown.keeps_refl _) fun run hrun => ?_
  split_ifs with hfits
  · have hsource := Kernel.obeys_zeroFrames Machine.sameSource_effect.composes
      Machine.sameSource_setRam run.base n
    refine hown.keeps_write hrun hsource ?_
    apply (Ram.changesAt_zeroFrames h.machine run.base n).writesIn (Nat.le_refl _)
    exact Nat.add_le_add_left (Nat.mul_le_mul_right _ hfits) _
  · exact hown.keeps_refl _

theorem keeps_copyRun (i j n : Nat) :
    h.Keeps first last (h.holdingsBesideRun i) (h.next (.copyRun i j n)) := by
  refine onRun_induction (hown.keeps_refl _) fun dst hdst => ?_
  refine onRun_induction (hown.keeps_refl _) fun src _ => ?_
  split_ifs with hfits
  · have hsource := Kernel.obeys_copyFrames Machine.sameSource_effect.composes
      Machine.sameSource_setRam dst.base src.base n
    refine hown.keeps_write hdst hsource ?_
    apply (Ram.changesAt_copyFrames h.machine dst.base src.base n).writesIn (Nat.le_refl _)
    exact Nat.add_le_add_left (Nat.mul_le_mul_right _ hfits.2.1) _
  · exact hown.keeps_refl _

/-- One call keeps all frames with their holders, and writes to none that it may not write to. -/
theorem next {call : VmCall} (hcall : call.Linear) :
    h.Keeps first last (h.spared call) (h.next call) := by
  have hR := Machine.sameMemory_effect.composes
  have hcritical := Machine.sameMemory_effect.critical
  have hset (m : Machine) (tlb : Tlb) : m.SameMemory (m.setTlb tlb) := ⟨⟨rfl, rfl⟩, rfl⟩
  have hflush : Kernel.flushTlb.Obeys Machine.SameMemory :=
    Kernel.obeys_flushTlb Machine.sameMemory_effect.masking hset
  have hinstall : ∀ va pa dirty, (Kernel.installMapping va pa dirty).Obeys Machine.SameMemory :=
    Kernel.obeys_installMapping Machine.sameMemory_effect.masking hset
  cases call with
  | bootstrap =>
    obtain ⟨howned, hspares⟩ := MipsVm.Owned.bootstrap hown
    exact ⟨howned, hspares⟩
  | isReady => exact hown.keeps_perform (Kernel.obeys_isReady hcritical) _
  | frameStats => exact hown.keeps_perform (Kernel.obeys_frameStats hcritical) _
  | auditFrames => exact hown.keeps_perform (Kernel.obeys_auditFrames hcritical) _
  | allocFrames n => exact hown.keeps_allocFrames n
  | allocKernelPages n =>
    rw [hown.next_allocKernelPages]
    exact hown.keeps_allocFrames n
  | freeFrames i => exact hown.keeps_freeFrames i
  | freeKernelPages i =>
    rw [hown.next_freeKernelPages]
    exact hown.keeps_freeFrames i
  | markThreadStack i => exact hown.keeps_markThreadStack i
  | writeRun i offset bytes => exact hown.keeps_writeRun i offset bytes
  | zeroRun i n => exact hown.keeps_zeroRun i n
  | copyRun i j n => exact hown.keeps_copyRun i j n
  | createSpace =>
    have hadded := holdings_addSpace (h := h) h.machine ⟨.empty, false⟩
    exact ⟨hown.perm hadded.symm, .of_ram rfl rfl _⟩
  | cloneSpace i => exact absurd hcall id
  | defineRegion i va size perms => exact hown.keeps_defineRegion i va size perms
  | prepareLoad i => exact hown.keeps_prepareLoad i
  | completeLoad i => exact hown.keeps_completeLoad i
  | copySpace i => exact hown.keeps_copySpace i
  | destroySpace i => exact hown.keeps_destroySpace i
  | activateSpace current =>
    rw [VmHistory.next]
    exact onCurrent_induction (hown.keeps_refl _) fun a =>
      hown.keeps_perform (Kernel.obeys_activateSpace hR hflush a) _
  | deactivateSpace i =>
    exact onSpace_induction (hown.keeps_refl _) fun s _ =>
      hown.keeps_perform (Kernel.obeys_pure hR ()) _
  | fault current code addr =>
    rw [VmHistory.next]
    exact onCurrent_induction (hown.keeps_refl _) fun a =>
      hown.keeps_perform (Kernel.obeys_fault hR hinstall a code addr) _
  | copyOut i dst bytes => exact hown.keeps_copyOut i dst bytes
  | copyIn i src len =>
    exact onSpace_induction (hown.keeps_refl _) fun s _ =>
      hown.keeps_perform (Kernel.obeys_copyIn hR s.space src len) _

theorem run {calls : List VmCall} (hcalls : ∀ call ∈ calls, call.Linear) :
    (h.run calls).Owned first last := by
  induction calls generalizing h with
  | nil => exact hown
  | cons call calls ih =>
    obtain ⟨hcall, hcalls⟩ := List.forall_mem_cons.mp hcalls
    exact ih (hown.next hcall).owned hcalls

theorem storesLedger : h.machine.StoresLedger := hown.accounted.storesLedger

end Owned

theorem owned_start {ram : Ram} (hram : last.val ≤ ram.size) (hlast : last.val ≤ directMapSize)
    (victim : Nat → Fin tlbSlots) : (start (.new ram first last victim)).Owned first last :=
  ⟨FrameHistory.accounted_start ram first last victim, nofun, hram, hlast⟩

end VmHistory
end MipsVm
