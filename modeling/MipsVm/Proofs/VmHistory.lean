import MipsVm.Proofs.FrameAlignment
import MipsVm.Proofs.FrameHistory
import MipsVm.Proofs.HandleTable

/-! Address spaces and the kernel's own runs of frames, along any sequence of calls. A call names what
it is about by a number; a call whose number stands for nothing is not made. -/
namespace MipsVm

/-- Frames that the kernel holds for itself. -/
structure KernelRun where
  base : PAddr
  frames : Nat
  /-- Whether the pool handed them out, rather than boot memory. -/
  pooled : Bool
deriving DecidableEq

/-- The address space of a process. Its frames were all handed out in one go. -/
structure ProcessSpace where
  space : AddressSpace
  /-- Whether the pool handed them out, rather than boot memory. -/
  pooled : Bool
deriving DecidableEq

inductive VmCall where
  | bootstrap
  | isReady
  | frameStats
  | auditFrames
  | allocFrames (n : Nat)
  | allocKernelPages (n : Nat)
  | freeFrames (run : Nat)
  | freeKernelPages (run : Nat)
  | markThreadStack (run : Nat)
  | writeRun (run offset : Nat) (bytes : Array UInt8)
  | zeroRun (run n : Nat)
  | copyRun (dst src n : Nat)
  | createSpace
  | cloneSpace (space : Nat)
  | defineRegion (space : Nat) (va : VAddr) (size : Nat) (perms : Permissions)
  | prepareLoad (space : Nat)
  | completeLoad (space : Nat)
  | copySpace (space : Nat)
  | destroySpace (space : Nat)
  | activateSpace (space : Option Nat)
  | deactivateSpace (space : Nat)
  | fault (space : Option Nat) (code : Nat) (addr : VAddr)
  | copyOut (space : Nat) (dst : VAddr) (bytes : Array UInt8)
  | copyIn (space : Nat) (src : VAddr) (len : Nat)

/-- Whether the call changes slots of the translation buffer. -/
def VmCall.LoadsTlb : VmCall → Prop
  | .completeLoad _ | .activateSpace _ | .fault .. => True
  | _ => False

/-- A machine, with the address spaces and the runs of frames that were not given up. -/
structure VmHistory where
  machine : Machine
  spaces : HandleTable ProcessSpace
  runs : HandleTable KernelRun
  /-- The frames that hold the ledger. -/
  ledger : Option FrameRange

namespace VmHistory

def start (machine : Machine) : VmHistory := ⟨machine, .empty, .empty, none⟩

/-- An operation that hands nothing out and takes nothing back. -/
def perform {α : Type} (h : VmHistory) (k : Kernel α) : VmHistory :=
  { h with machine := (k.outcome h.machine).2 }

def onRun (h : VmHistory) (i : Nat) (f : KernelRun → VmHistory) : VmHistory :=
  match h.runs.get? i with
  | some run => f run
  | none => h

def onSpace (h : VmHistory) (i : Nat) (f : ProcessSpace → VmHistory) : VmHistory :=
  match h.spaces.get? i with
  | some s => f s
  | none => h

/-- For a process, or for a kernel thread, which has no space. -/
def onCurrent (h : VmHistory) (current : Option Nat) (f : Option AddressSpace → VmHistory) :
    VmHistory :=
  match current with
  | some i => h.onSpace i fun s => f (some s.space)
  | none => f none

/-- Performs the call. What is freed or destroyed is gone, whatever the answer, and a program does not
write past the end of its run. -/
def next (h : VmHistory) : VmCall → VmHistory
  | .bootstrap =>
    let booted := FrameHistory.next ⟨h.machine, [], [], h.ledger⟩ .bootstrap
    { h with machine := booted.machine, ledger := booted.ledger }
  | .isReady => h.perform Kernel.isReady
  | .frameStats => h.perform Kernel.frameStats
  | .auditFrames => h.perform Kernel.auditFrames
  | .allocFrames n =>
    match (Kernel.allocFrames n).outcome h.machine with
    | (.ok (some base), machine) =>
      { h with machine, runs := h.runs.add ⟨base, n, h.machine.pooling⟩ }
    | (_, machine) => { h with machine }
  | .allocKernelPages n =>
    match (Kernel.allocKernelPages n).outcome h.machine with
    | (.ok (some va), machine) =>
      match directMapped? va with
      | some base => { h with machine, runs := h.runs.add ⟨base, n, h.machine.pooling⟩ }
      | none => { h with machine }
    | (_, machine) => { h with machine }
  | .freeFrames i => h.onRun i fun run =>
    { h.perform (Kernel.freeFrames run.base) with runs := h.runs.remove i }
  | .freeKernelPages i => h.onRun i fun run =>
    match kernelAddr run.base with
    | .ok va => { h.perform (Kernel.freeKernelPages va) with runs := h.runs.remove i }
    | .error _ => h
  | .markThreadStack i => h.onRun i fun run => h.perform (Kernel.markThreadStack run.base)
  | .writeRun i offset bytes => h.onRun i fun run =>
    if offset + bytes.size ≤ run.frames * pageSize then
      h.perform (do Kernel.writeBytes (← run.base.add offset) bytes)
    else h
  | .zeroRun i n => h.onRun i fun run =>
    if n ≤ run.frames then h.perform (Kernel.zeroFrames run.base n) else h
  | .copyRun i j n => h.onRun i fun dst => h.onRun j fun src =>
    if i ≠ j ∧ n ≤ dst.frames ∧ n ≤ src.frames then
      h.perform (Kernel.copyFrames dst.base src.base n)
    else h
  | .createSpace => { h with spaces := h.spaces.add ⟨.empty, false⟩ }
  | .cloneSpace i => h.onSpace i fun s => { h with spaces := h.spaces.add s }
  | .defineRegion i va size perms => h.onSpace i fun s =>
    match (Kernel.defineRegion s.space va size perms).outcome h.machine with
    | (.ok (.ok space), machine) =>
      { h with machine, spaces := h.spaces.set i { s with space } }
    | (_, machine) => { h with machine }
  | .prepareLoad i => h.onSpace i fun s =>
    let loading := (Loader.prepareLoad.outcome ⟨h.machine, s.space⟩).2
    let pooled := if s.space.hasFrames then s.pooled else h.machine.pooling
    { h with
      machine := loading.machine
      spaces := h.spaces.set i ⟨loading.space, pooled⟩ }
  | .completeLoad i => h.onSpace i fun s =>
    match (Kernel.completeLoad s.space).outcome h.machine with
    | (.ok space, machine) => { h with machine, spaces := h.spaces.set i { s with space } }
    | (.error _, machine) => { h with machine }
  | .copySpace i => h.onSpace i fun s =>
    match (Kernel.copySpace s.space).outcome h.machine with
    | (.ok (.ok space), machine) =>
      { h with machine, spaces := h.spaces.add ⟨space, h.machine.pooling⟩ }
    | (_, machine) => { h with machine }
  | .destroySpace i => h.onSpace i fun s =>
    { h.perform (Kernel.destroySpace s.space) with spaces := h.spaces.remove i }
  | .activateSpace current => h.onCurrent current fun a => h.perform (Kernel.activateSpace a)
  | .deactivateSpace i => h.onSpace i fun s => h.perform (Kernel.deactivateSpace s.space)
  | .fault current code addr => h.onCurrent current fun a => h.perform (Kernel.fault a code addr)
  | .copyOut i dst bytes => h.onSpace i fun s => h.perform (Kernel.copyOut s.space dst bytes)
  | .copyIn i src len => h.onSpace i fun s => h.perform (Kernel.copyIn s.space src len)

def run (h : VmHistory) (calls : List VmCall) : VmHistory := calls.foldl next h

variable {h : VmHistory} {machine : Machine} {s : ProcessSpace} {i : Nat}

theorem run_cons (h : VmHistory) (call : VmCall) (calls : List VmCall) :
    h.run (call :: calls) = (h.next call).run calls := rfl

theorem run_append (h : VmHistory) (before after : List VmCall) :
    h.run (before ++ after) = (h.run before).run after := List.foldl_append

theorem onSpace_of_live {f : ProcessSpace → VmHistory} (hs : h.spaces.get? i = some s) :
    h.onSpace i f = f s := by
  rw [onSpace, hs]

/-- A property of histories that a call on each run keeps is kept by a call on any number. -/
theorem onRun_induction {P : VmHistory → Prop} {f : KernelRun → VmHistory} (hkeep : P h)
    (hcall : ∀ run, h.runs.get? i = some run → P (f run)) : P (h.onRun i f) := by
  unfold onRun
  cases hrun : h.runs.get? i with
  | none => exact hkeep
  | some run => exact hcall run hrun

theorem onSpace_induction {P : VmHistory → Prop} {f : ProcessSpace → VmHistory} (hkeep : P h)
    (hcall : ∀ s, h.spaces.get? i = some s → P (f s)) : P (h.onSpace i f) := by
  unfold onSpace
  cases hs : h.spaces.get? i with
  | none => exact hkeep
  | some s => exact hcall s hs

theorem onCurrent_induction {P : VmHistory → Prop} {f : Option AddressSpace → VmHistory}
    {current : Option Nat} (hkeep : P h) (hcall : ∀ a, P (f a)) : P (h.onCurrent current f) := by
  cases current with
  | none => exact hcall none
  | some i => exact onSpace_induction hkeep fun s _ => hcall (some s.space)

/-- Frames come on page boundaries, and every address space keeps to the address map. -/
structure Sound (h : VmHistory) : Prop where
  source : h.machine.frames.value.OnPages
  placed : ∀ s ∈ h.spaces.live, s.space.Placed

theorem sound_start (ram : Ram) (first last : PAddr) (victim : Nat → Fin tlbSlots) :
    (start (.new ram first last victim)).Sound :=
  ⟨Machine.onPages_new ram first last victim, nofun⟩

namespace Sound
variable (hsound : h.Sound)
include hsound

theorem perform {α : Type} {k : Kernel α} (hk : k.Obeys Machine.KeepsPages) :
    (h.perform k).Sound := ⟨hk h.machine hsound.source, hsound.placed⟩

theorem of_machine (hsource : machine.frames.value.OnPages) (runs : HandleTable KernelRun)
    (ledger : Option FrameRange) : (VmHistory.mk machine h.spaces runs ledger).Sound :=
  ⟨hsource, hsound.placed⟩

theorem of_space (hs : h.spaces.get? i = some s) : s.space.Placed :=
  hsound.placed s (HandleTable.mem_live hs)

theorem addSpace (hsource : machine.frames.value.OnPages) (hplaced : s.space.Placed) :
    { h with machine, spaces := h.spaces.add s : VmHistory }.Sound := by
  refine ⟨hsource, ?_⟩
  intro t ht
  rw [HandleTable.live_add, List.mem_append, List.mem_singleton] at ht
  rcases ht with ht | rfl
  · exact hsound.placed t ht
  · exact hplaced

theorem setSpace (hs : h.spaces.get? i = some s) {t : ProcessSpace}
    (hsource : machine.frames.value.OnPages) (hplaced : t.space.Placed) :
    { h with machine, spaces := h.spaces.set i t : VmHistory }.Sound := by
  refine ⟨hsource, ?_⟩
  intro u hu
  rcases List.mem_cons.mp ((HandleTable.live_set hs).mem_iff.mp hu) with rfl | hrest
  · exact hplaced
  · exact hsound.placed u (HandleTable.mem_live_of_remove hs hrest)

theorem next (call : VmCall) : (h.next call).Sound := by
  have hbound := Kernel.keepsPages_bound
  have hR := hbound.toComposes
  have hflush := Kernel.keepsPages_flushTlb
  have hinstall := Kernel.keepsPages_installMapping
  cases call with
  | bootstrap =>
    refine hsound.of_machine ?_ _ _
    rw [FrameHistory.machine_bootstrap]
    exact hbound.bootstrap h.machine hsound.source
  | isReady => exact hsound.perform hbound.isReady
  | frameStats => exact hsound.perform hbound.frameStats
  | auditFrames => exact hsound.perform hbound.auditFrames
  | allocFrames n =>
    have halloc := hbound.allocFrames n h.machine hsound.source
    rw [VmHistory.next]
    rcases houtcome : (Kernel.allocFrames n).outcome h.machine with ⟨halt | _ | pa, machine⟩ <;>
      rw [houtcome] at halloc <;> exact hsound.of_machine halloc _ _
  | allocKernelPages n =>
    have halloc :=
      Kernel.obeys_allocKernelPages hR hbound.allocFrames n h.machine hsound.source
    rw [VmHistory.next]
    rcases houtcome : (Kernel.allocKernelPages n).outcome h.machine with
      ⟨halt | _ | va, machine⟩ <;> rw [houtcome] at halloc
    · exact hsound.of_machine halloc _ _
    · exact hsound.of_machine halloc _ _
    · dsimp only
      cases directMapped? va <;> exact hsound.of_machine halloc _ _
  | freeFrames i =>
    refine onRun_induction hsound fun run _ => ?_
    exact hsound.of_machine (hbound.freeFrames run.base h.machine hsound.source) _ _
  | freeKernelPages i =>
    refine onRun_induction hsound fun run _ => ?_
    cases kernelAddr run.base with
    | error halt => exact hsound
    | ok va =>
      have hfree := Kernel.obeys_freeKernelPages hR hbound.freeFrames va h.machine hsound.source
      exact hsound.of_machine hfree _ _
  | markThreadStack i =>
    refine onRun_induction hsound fun run _ => ?_
    exact hsound.perform (hbound.markThreadStack run.base)
  | writeRun i offset bytes =>
    refine onRun_induction hsound fun run _ => ?_
    split_ifs
    · exact hsound.perform (Kernel.obeys_bind hR (Kernel.obeys_lift hR _) fun pa =>
        hbound.writeBytes pa bytes)
    · exact hsound
  | zeroRun i n =>
    refine onRun_induction hsound fun run _ => ?_
    split_ifs
    · exact hsound.perform (hbound.zeroFrames run.base n)
    · exact hsound
  | copyRun i j n =>
    refine onRun_induction hsound fun dst _ => onRun_induction hsound fun src _ => ?_
    split_ifs
    · exact hsound.perform (hbound.copyFrames dst.base src.base n)
    · exact hsound
  | createSpace => exact hsound.addSpace hsound.source AddressSpace.placed_empty
  | cloneSpace i =>
    refine onSpace_induction hsound fun s hs => ?_
    exact hsound.addSpace hsound.source (hsound.of_space hs)
  | defineRegion i va size perms =>
    refine onSpace_induction hsound fun s hs => ?_
    have hsource : (h.machine.logged (s.space.defineRecords va size perms)).frames.value.OnPages :=
      hsound.source
    rw [Kernel.defineRegion_outcome]
    cases hdefine : s.space.define va size with
    | error e => exact hsound.of_machine hsource _ _
    | ok space => exact hsound.setSpace hs hsource ((hsound.of_space hs).define hdefine)
  | prepareLoad i =>
    refine onSpace_induction hsound fun s hs => ?_
    have hsource := Loader.prepareLoad_bound hbound ⟨h.machine, s.space⟩ hsound.source
    exact hsound.setSpace hs hsource
      (Loader.placed_prepareLoad (s := ⟨h.machine, s.space⟩) hsound.source (hsound.of_space hs))
  | completeLoad i =>
    refine onSpace_induction hsound fun s hs => ?_
    rw [Kernel.completeLoad_outcome]
    exact hsound.setSpace hs (hflush h.machine hsound.source) (hsound.of_space hs).complete
  | copySpace i =>
    refine onSpace_induction hsound fun s hs => ?_
    have hsource := Kernel.obeys_copySpace hbound s.space h.machine hsound.source
    rcases houtcome : (Kernel.copySpace s.space).outcome h.machine with
      ⟨halt | e | space, machine⟩ <;> rw [houtcome] at hsource
    · exact hsound.of_machine hsource _ _
    · exact hsound.of_machine hsource _ _
    · exact hsound.addSpace hsource
        (Kernel.placed_copySpace hsound.source (hsound.of_space hs) houtcome)
  | destroySpace i =>
    refine onSpace_induction hsound fun s hs => ?_
    have hsource :=
      Kernel.obeys_destroySpace hR hbound.freeFrames s.space h.machine hsound.source
    refine ⟨hsource, ?_⟩
    exact fun t ht => hsound.placed t (HandleTable.mem_live_of_remove hs ht)
  | activateSpace current =>
    rw [VmHistory.next]
    refine onCurrent_induction hsound fun a => ?_
    exact hsound.perform (Kernel.obeys_activateSpace hR hflush a)
  | deactivateSpace i =>
    refine onSpace_induction hsound fun s _ => ?_
    exact hsound.perform (Kernel.obeys_pure hR ())
  | fault current code addr =>
    rw [VmHistory.next]
    refine onCurrent_induction hsound fun a => ?_
    exact hsound.perform (Kernel.obeys_fault hR hinstall a code addr)
  | copyOut i dst bytes =>
    refine onSpace_induction hsound fun s _ => ?_
    exact hsound.perform (Kernel.obeys_copyOut hR hbound.writeBytes s.space dst bytes)
  | copyIn i src len =>
    refine onSpace_induction hsound fun s _ => ?_
    exact hsound.perform (Kernel.obeys_copyIn hR s.space src len)

theorem run (calls : List VmCall) : (h.run calls).Sound := by
  induction calls generalizing h with
  | nil => exact hsound
  | cons call calls ih => exact ih (hsound.next call)

end Sound

/-- The space that `i` stands for leads where `s` led, and is marked as loaded as `s` was, unless
`completed`. -/
def Retains (i : Nat) (s : ProcessSpace) (completed : Prop) (h : VmHistory) : Prop :=
  ∃ t, h.spaces.get? i = some t ∧
    (∀ va, t.space.translate va = s.space.translate va) ∧
    (t.space.loaded = s.space.loaded ∨ completed)

theorem Retains.of_get? {completed : Prop} (hs : h.spaces.get? i = some s) :
    h.Retains i s completed := ⟨s, hs, fun _ => rfl, .inl rfl⟩

/-- A call that neither loads nor destroys a space leaves its translations as they are, and one call
alone marks it as loaded. -/
theorem retains_next {call : VmCall} (hs : h.spaces.get? i = some s)
    (hload : call ≠ .prepareLoad i) (hdestroy : call ≠ .destroySpace i) :
    (h.next call).Retains i s (call = .completeLoad i) := by
  have hkeep : h.Retains i s (call = .completeLoad i) := .of_get? hs
  have hadd (machine : Machine) (t : ProcessSpace) :
      { h with machine, spaces := h.spaces.add t : VmHistory }.Retains i s
        (call = .completeLoad i) := .of_get? (HandleTable.get?_add hs)
  have hset (machine : Machine) (t : ProcessSpace) {j : Nat} (hj : j ≠ i) :
      { h with machine, spaces := h.spaces.set j t : VmHistory }.Retains i s
        (call = .completeLoad i) := .of_get? ((HandleTable.get?_set_ne hj).trans hs)
  cases call with
  | bootstrap => exact hkeep
  | isReady => exact hkeep
  | frameStats => exact hkeep
  | auditFrames => exact hkeep
  | allocFrames n =>
    rw [next]
    rcases (Kernel.allocFrames n).outcome h.machine with ⟨halt | _ | pa, machine⟩ <;> exact hkeep
  | allocKernelPages n =>
    rw [next]
    rcases (Kernel.allocKernelPages n).outcome h.machine with ⟨halt | _ | va, machine⟩
    · exact hkeep
    · exact hkeep
    · dsimp only
      cases directMapped? va <;> exact hkeep
  | freeFrames j => exact onRun_induction hkeep fun run _ => hkeep
  | freeKernelPages j =>
    refine onRun_induction hkeep fun run _ => ?_
    cases kernelAddr run.base <;> exact hkeep
  | markThreadStack j => exact onRun_induction hkeep fun run _ => hkeep
  | writeRun j offset bytes =>
    refine onRun_induction hkeep fun run _ => ?_
    split <;> exact hkeep
  | zeroRun j n =>
    refine onRun_induction hkeep fun run _ => ?_
    split <;> exact hkeep
  | copyRun j k n =>
    refine onRun_induction hkeep fun dst _ => onRun_induction hkeep fun src _ => ?_
    split <;> exact hkeep
  | createSpace => exact hadd h.machine _
  | cloneSpace j => exact onSpace_induction hkeep fun t _ => hadd h.machine t
  | defineRegion j va size perms =>
    refine onSpace_induction hkeep fun t ht => ?_
    rw [Kernel.defineRegion_outcome]
    cases hdefine : t.space.define va size with
    | error e => exact hkeep
    | ok space =>
      by_cases hj : j = i
      · subst hj
        obtain rfl : t = s := Option.some.inj (ht.symm.trans hs)
        refine ⟨{ t with space }, HandleTable.get?_set_self hs, ?_, .inl ?_⟩
        · exact AddressSpace.translate_define hdefine
        · obtain ⟨slot, r, -, rfl⟩ := AddressSpace.define_eq_ok hdefine
          exact t.space.loaded_setRegion r slot
      · exact hset _ _ hj
  | prepareLoad j =>
    refine onSpace_induction hkeep fun t _ => ?_
    have hj : j ≠ i := fun heq => hload (congrArg VmCall.prepareLoad heq)
    exact hset _ _ hj
  | completeLoad j =>
    refine onSpace_induction hkeep fun t ht => ?_
    rw [Kernel.completeLoad_outcome]
    by_cases hj : j = i
    · subst hj
      obtain rfl : t = s := Option.some.inj (ht.symm.trans hs)
      refine ⟨_, HandleTable.get?_set_self hs, ?_, .inr rfl⟩
      exact fun va => AddressSpace.translate_congr fun segment => by cases segment <;> rfl
    · exact hset _ _ hj
  | copySpace j =>
    refine onSpace_induction hkeep fun t _ => ?_
    rcases (Kernel.copySpace t.space).outcome h.machine with ⟨halt | e | space, machine⟩
    · exact hkeep
    · exact hkeep
    · exact hadd machine _
  | destroySpace j =>
    refine onSpace_induction hkeep fun t _ => ?_
    have hj : j ≠ i := fun heq => hdestroy (congrArg VmCall.destroySpace heq)
    exact .of_get? ((HandleTable.get?_remove_ne hj).trans hs)
  | activateSpace current =>
    rw [next]
    exact onCurrent_induction hkeep fun a => hkeep
  | deactivateSpace j => exact onSpace_induction hkeep fun t _ => hkeep
  | fault current code addr =>
    rw [next]
    exact onCurrent_induction hkeep fun a => hkeep
  | copyOut j dst bytes => exact onSpace_induction hkeep fun t _ => hkeep
  | copyIn j src len => exact onSpace_induction hkeep fun t _ => hkeep

/-- The machine of `h` stands in the relation to `m`. -/
def Reached (R : Machine → Machine → Prop) (m : Machine) (h : VmHistory) : Prop := R m h.machine

/-- A call that does not load the buffer does what frame sources and RAM allow. -/
theorem reached_next {R : Machine → Machine → Prop} (hR : Machine.Effect R)
    (hram : ∀ m ram, R m (m.setRam ram)) (hsource : ∀ m source, R m (m.setSource source))
    (hledger : ∀ m pa, R m (m.setLedger pa)) {call : VmCall} (hcall : ¬ call.LoadsTlb) :
    (h.next call).Reached R h.machine := by
  have hkeep : h.Reached R h.machine := hR.composes.refl h.machine
  have hbound : Machine.MemoryBound R :=
    Kernel.memoryBound hR.critical hram hsource hledger hram
  have hcomposes := hbound.toComposes
  have hperform {α : Type} {k : Kernel α} (hk : k.Obeys R) :
      (h.perform k).Reached R h.machine := hk h.machine
  cases call with
  | bootstrap =>
    have hboot := hbound.bootstrap h.machine
    rwa [← FrameHistory.machine_bootstrap ⟨h.machine, [], [], h.ledger⟩] at hboot
  | isReady => exact hperform hbound.isReady
  | frameStats => exact hperform hbound.frameStats
  | auditFrames => exact hperform hbound.auditFrames
  | allocFrames n =>
    have halloc := hbound.allocFrames n h.machine
    rw [next]
    rcases houtcome : (Kernel.allocFrames n).outcome h.machine with ⟨halt | _ | pa, machine⟩ <;>
      rw [houtcome] at halloc <;> exact halloc
  | allocKernelPages n =>
    have halloc := Kernel.obeys_allocKernelPages hcomposes hbound.allocFrames n h.machine
    rw [next]
    rcases houtcome : (Kernel.allocKernelPages n).outcome h.machine with
      ⟨halt | _ | va, machine⟩ <;> rw [houtcome] at halloc
    · exact halloc
    · exact halloc
    · dsimp only
      cases directMapped? va <;> exact halloc
  | freeFrames i =>
    exact onRun_induction hkeep fun run _ =>
      hperform (hbound.freeFrames run.base)
  | freeKernelPages i =>
    refine onRun_induction hkeep fun run _ => ?_
    cases kernelAddr run.base with
    | error halt => exact hkeep
    | ok va => exact hperform (Kernel.obeys_freeKernelPages hcomposes hbound.freeFrames va)
  | markThreadStack i =>
    exact onRun_induction hkeep fun run _ =>
      hperform (hbound.markThreadStack run.base)
  | writeRun i offset bytes =>
    refine onRun_induction hkeep fun run _ => ?_
    split
    · exact hperform (Kernel.obeys_bind hcomposes (Kernel.obeys_lift hcomposes _) fun pa =>
        hbound.writeBytes pa bytes)
    · exact hkeep
  | zeroRun i n =>
    refine onRun_induction hkeep fun run _ => ?_
    split
    · exact hperform (hbound.zeroFrames run.base n)
    · exact hkeep
  | copyRun i j n =>
    refine onRun_induction hkeep fun dst _ => onRun_induction hkeep fun src _ => ?_
    split
    · exact hperform (hbound.copyFrames dst.base src.base n)
    · exact hkeep
  | createSpace => exact hkeep
  | cloneSpace i => exact onSpace_induction hkeep fun s _ => hkeep
  | defineRegion i va size perms =>
    refine onSpace_induction hkeep fun s _ => ?_
    have hlogged := hcomposes.logged h.machine (s.space.defineRecords va size perms)
    rw [Kernel.defineRegion_outcome]
    cases s.space.define va size <;> exact hlogged
  | prepareLoad i =>
    exact onSpace_induction hkeep fun s _ =>
      Loader.prepareLoad_bound hbound ⟨h.machine, s.space⟩
  | copySpace i =>
    refine onSpace_induction hkeep fun s _ => ?_
    have hcopy := Kernel.obeys_copySpace hbound s.space h.machine
    rcases houtcome : (Kernel.copySpace s.space).outcome h.machine with
      ⟨halt | e | space, machine⟩ <;> rw [houtcome] at hcopy <;> exact hcopy
  | destroySpace i =>
    exact onSpace_induction hkeep fun s _ =>
      hperform (Kernel.obeys_destroySpace hcomposes hbound.freeFrames s.space)
  | deactivateSpace i => exact onSpace_induction hkeep fun s _ => hkeep
  | copyOut i dst bytes =>
    exact onSpace_induction hkeep fun s _ =>
      hperform (Kernel.obeys_copyOut hcomposes hbound.writeBytes s.space dst bytes)
  | copyIn i src len =>
    exact onSpace_induction hkeep fun s _ => hperform (Kernel.obeys_copyIn hcomposes s.space src len)
  | completeLoad i => exact absurd trivial hcall
  | activateSpace current => exact absurd trivial hcall
  | fault current code addr => exact absurd trivial hcall

end VmHistory
end MipsVm
