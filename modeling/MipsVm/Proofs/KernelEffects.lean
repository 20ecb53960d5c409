import Mathlib.Tactic.SplitIfs
import MipsVm.AddressSpace.Transfer
import MipsVm.AddressSpace.Lifecycle
import MipsVm.PageFault
import MipsVm.Proofs.KernelOutcome

/-! What an operation does to the machine at most. A relation between the machine before and after is
checked on the steps that an operation is made of, and then holds of the operation. -/
namespace MipsVm

/-- A relation of two states of a machine that composes and looks neither at the events nor at the
interrupt flag nor at the lock. -/
structure Machine.Effect (R : Machine → Machine → Prop) : Prop where
  trans : ∀ {a b c : Machine}, R a b → R b c → R a c
  trace : ∀ (m : Machine) (trace : Array Event), R m { m with trace }
  interrupts : ∀ (m : Machine) (interrupts : Interrupts), R m { m with interrupts }
  locked : ∀ (m : Machine) (locked : Bool), R m { m with frames := { m.frames with locked } }

/-- A relation that composes, and that a record in the log does not upset. -/
structure Machine.Composes (R : Machine → Machine → Prop) : Prop where
  refl : ∀ m : Machine, R m m
  trans : ∀ {a b c : Machine}, R a b → R b c → R a c
  log : ∀ (m : Machine) (record : Record), R m (m.note (.log record))

namespace Kernel
variable {α : Type}

/-- However `k` ends, it leaves a machine that stands in the relation to the one it found. -/
def Obeys (k : Kernel α) (R : Machine → Machine → Prop) : Prop := ∀ m, R m (k.outcome m).2

end Kernel

/-- A relation that no operation on physical memory goes beyond. -/
structure Machine.MemoryBound (R : Machine → Machine → Prop) : Prop extends Composes R where
  bootstrap : Kernel.bootstrap.Obeys R
  isReady : Kernel.isReady.Obeys R
  frameStats : Kernel.frameStats.Obeys R
  auditFrames : Kernel.auditFrames.Obeys R
  allocFrames : ∀ n, (Kernel.allocFrames n).Obeys R
  freeFrames : ∀ pa, (Kernel.freeFrames pa).Obeys R
  markThreadStack : ∀ pa, (Kernel.markThreadStack pa).Obeys R
  writeBytes : ∀ pa bytes, (Kernel.writeBytes pa bytes).Obeys R
  zeroFrames : ∀ pa n, (Kernel.zeroFrames pa n).Obeys R
  copyFrames : ∀ dst src n, (Kernel.copyFrames dst src n).Obeys R

/-- What is done with the frame source locked is judged by `R`, and what that comes to by `S`. -/
structure Machine.Critical (R S : Machine → Machine → Prop) : Prop where
  inside : Composes R
  outside : Composes S
  frames : ∀ {α : Type} {k : FrameSource → Kernel α}, (∀ source, (k source).Obeys R) →
    (Kernel.withFrames k).Obeys S

/-- What is done to the translation buffer is judged by `R` while interrupts are masked, and what that
comes to by `S`. -/
structure Machine.Masking (R S : Machine → Machine → Prop) : Prop where
  inside : Composes R
  readSlots : ∀ m : Machine, R m (m.note .readSlots)
  writeSlots : ∀ m : Machine, R m (m.note .writeSlots)
  masked : ∀ {α : Type} {k : Kernel α}, k.Obeys R → (Kernel.masked k).Obeys S

namespace Kernel
variable {α β : Type} {R : Machine → Machine → Prop}

theorem obeys_modify {f : Machine → Machine} (hf : ∀ m, R m (f m)) :
    (modify f : Kernel Unit).Obeys R := hf

section
variable (hR : Machine.Composes R)
include hR

theorem obeys_pure (a : α) : (pure a : Kernel α).Obeys R := hR.refl

theorem obeys_get : (get : Kernel Machine).Obeys R := hR.refl

theorem obeys_lift (x : Except Halt α) : (monadLift x : Kernel α).Obeys R := by
  intro m
  rw [outcome_lift]
  exact hR.refl m

theorem obeys_bind {k : Kernel α} {f : α → Kernel β} (hk : k.Obeys R)
    (hf : ∀ a, (f a).Obeys R) : (k >>= f).Obeys R := by
  intro m
  have hfirst := hk m
  rw [outcome_bind]
  rcases hout : k.outcome m with ⟨halt | a, m'⟩ <;> rw [hout] at hfirst
  · exact hfirst
  · exact hR.trans hfirst (hf a m')

theorem obeys_log (record : Record) : (log record).Obeys R := fun m => hR.log m record

theorem obeys_logAll (records : List Record) : (logAll records).Obeys R := by
  induction records with
  | nil => exact obeys_pure hR ()
  | cons record rest ih => exact obeys_bind hR (obeys_log hR record) fun _ => ih

theorem obeys_stop (halt : Halt) : (stop halt : Kernel α).Obeys R :=
  obeys_bind hR (obeys_log hR _) fun _ => hR.refl

end

end Kernel

namespace Machine
variable {R S : Machine → Machine → Prop}

theorem Composes.logged (hR : Composes R) (m : Machine) (records : List Record) :
    R m (m.logged records) := by
  have hall := Kernel.obeys_logAll hR records m
  rwa [Kernel.outcome_logAll] at hall

theorem Composes.setPool (hR : Composes R) (hsource : ∀ m source, R m (m.setSource source))
    (hram : ∀ m ram, R m (m.setRam ram)) (m : Machine) (old pool : FramePool) :
    R m (m.setPool old pool) := hR.trans (hsource m _) (hram _ _)

namespace Effect

theorem note (hR : Effect R) (m : Machine) (action : Action) : R m (m.note action) :=
  hR.trace m _

theorem composes (hR : Effect R) : Composes R where
  refl m := hR.trace m m.trace
  trans := hR.trans
  log m record := hR.note m (.log record)

theorem mask (hR : Effect R) (m : Machine) : R m m.mask :=
  hR.trans (hR.interrupts m m.interrupts.guard.2) (hR.note _ _)

theorem restore (hR : Effect R) (m : Machine) (g : InterruptGuard) : R m (m.restore g) :=
  hR.trans (hR.interrupts m (m.interrupts.drop g)) (hR.note _ _)

theorem takeLock (hR : Effect R) (m : Machine) : R m m.takeLock := by
  have hlock : m.takeLock =
      ({ m with frames := { m.frames with locked := true } } : Machine).note .takeLock := by
    rw [Machine.takeLock, SpinLock.lock_eq]
  rw [hlock]
  exact hR.trans (hR.locked m true) (hR.note _ _)

theorem freeLock (hR : Effect R) (m : Machine) : R m m.freeLock :=
  hR.trans (hR.locked m false) (hR.note _ _)

/-- Neither masking nor unmasking shows in an effect … -/
theorem masking (hR : Effect R) : Masking R R where
  inside := hR.composes
  readSlots m := hR.note m .readSlots
  writeSlots m := hR.note m .writeSlots
  masked hk m := by
    rw [Kernel.outcome_masked]
    exact hR.trans (hR.mask m) (hR.trans (hk _) (hR.restore _ _))

/-- … nor does the lock. -/
theorem critical (hR : Effect R) : Critical R R where
  inside := hR.composes
  outside := hR.composes
  frames hk := by
    apply hR.masking.masked
    intro m
    have hbody := Kernel.obeys_bind hR.composes (Kernel.obeys_get hR.composes)
      (fun m => hk m.frames.value) m.takeLock
    rw [Kernel.outcome_locked]
    exact hR.trans (hR.takeLock m) (hR.trans hbody (hR.freeLock _))

end Effect
end Machine

namespace Kernel
variable {α β : Type} {R S : Machine → Machine → Prop}

section frames
variable (hR : Machine.Critical R S)
include hR

theorem obeys_isReady : isReady.Obeys S := by
  apply hR.frames
  intro source
  cases source <;> exact obeys_pure hR.inside _

theorem obeys_frameStats : frameStats.Obeys S := by
  apply hR.frames
  intro source
  cases source with
  | boot memory => exact obeys_pure hR.inside _
  | pool pool => exact obeys_lift hR.inside _

theorem obeys_auditFrames : auditFrames.Obeys S := by
  apply hR.frames
  intro source
  cases source <;> exact obeys_pure hR.inside _

end frames

section source
variable (hR : Machine.Critical R S) (hsource : ∀ m source, R m (m.setSource source))
  (hpool : ∀ m old pool, R m (m.setPool old pool))
include hR hpool

include hsource in
theorem obeys_allocFrames (n : Nat) : (allocFrames n).Obeys S := by
  unfold allocFrames
  split_ifs with hn
  · exact obeys_pure hR.outside _
  apply hR.frames
  intro source
  cases source with
  | boot memory =>
    apply obeys_bind hR.inside (obeys_lift hR.inside _)
    intro records
    apply obeys_bind hR.inside (obeys_logAll hR.inside _)
    intro _
    apply obeys_bind hR.inside (obeys_modify fun m => hsource m _)
    intro _
    exact obeys_bind hR.inside (obeys_lift hR.inside _) fun _ => obeys_pure hR.inside _
  | pool pool =>
    apply obeys_bind hR.inside (obeys_modify fun m => hpool m _ _)
    intro _
    exact obeys_lift hR.inside _

theorem obeys_freeFrames (pa : PAddr) : (freeFrames pa).Obeys S := by
  apply hR.frames
  intro source
  cases source with
  | boot memory => exact obeys_pure hR.inside _
  | pool pool =>
    apply obeys_bind hR.inside (obeys_logAll hR.inside _)
    intro _
    apply obeys_bind hR.inside (obeys_modify fun m => hpool m _ _)
    intro _
    exact obeys_bind hR.inside (obeys_lift hR.inside _) fun _ => obeys_pure hR.inside _

end source

section ram
variable (hR : Machine.Composes R) (hram : ∀ m ram, R m (m.setRam ram))
include hR hram

theorem obeys_writeBytes (pa : PAddr) (bytes : Array UInt8) : (writeBytes pa bytes).Obeys R := by
  apply obeys_bind hR (obeys_get hR)
  intro m
  exact obeys_bind hR (obeys_lift hR _) fun ram m => hram m ram

theorem obeys_zeroFrames (pa : PAddr) (n : Nat) : (zeroFrames pa n).Obeys R := by
  apply obeys_bind hR (obeys_get hR)
  intro m
  exact obeys_bind hR (obeys_lift hR _) fun ram m => hram m ram

theorem obeys_copyFrames (dst src : PAddr) (n : Nat) : (copyFrames dst src n).Obeys R := by
  apply obeys_bind hR (obeys_get hR)
  intro m
  exact obeys_bind hR (obeys_lift hR _) fun ram m => hram m ram

end ram

section memory
variable (hR : Machine.Critical R S) (hram : ∀ m ram, R m (m.setRam ram))
include hR hram

theorem obeys_markThreadStack (hpool : ∀ m old pool, R m (m.setPool old pool)) (pa : PAddr) :
    (markThreadStack pa).Obeys S := by
  apply hR.frames
  intro source
  have hwrite := obeys_bind hR.inside (obeys_writeBytes hR.inside hram pa threadStackFooter)
    fun _ => obeys_pure hR.inside (Except.ok () : Except LedgerError Unit)
  cases source with
  | boot memory => exact hwrite
  | pool pool =>
    simp only
    cases pool.markFooter pa with
    | error e => exact obeys_pure hR.inside _
    | ok marked => exact obeys_bind hR.inside (obeys_modify fun m => hpool m _ _) fun _ => hwrite

variable (hsource : ∀ m source, R m (m.setSource source))
  (hledger : ∀ m pa, R m (m.setLedger pa))
include hsource hledger

theorem obeys_bootstrap : bootstrap.Obeys S := by
  apply hR.frames
  intro source
  cases source with
  | pool pool => exact obeys_stop hR.inside _
  | boot memory =>
    apply obeys_bind hR.inside (obeys_lift hR.inside _)
    intro layout
    apply obeys_bind hR.inside (obeys_get hR.inside)
    intro m
    apply obeys_bind hR.inside (obeys_lift hR.inside _)
    intro ram
    apply obeys_bind hR.inside (obeys_modify fun m => hram m ram)
    intro _
    apply obeys_bind hR.inside (obeys_modify fun m => hledger m layout.lo)
    intro _
    apply obeys_bind hR.inside (obeys_log hR.inside _)
    intro _
    exact obeys_bind hR.inside (obeys_lift hR.inside _) fun _ m => hsource m _

/-- Whatever allows for new sources, a new place for the ledger and new RAM with the lock held, and for
new RAM without it. -/
theorem memoryBound (hout : ∀ m ram, S m (m.setRam ram)) : Machine.MemoryBound S where
  toComposes := hR.outside
  bootstrap := obeys_bootstrap hR hram hsource hledger
  isReady := obeys_isReady hR
  frameStats := obeys_frameStats hR
  auditFrames := obeys_auditFrames hR
  allocFrames := obeys_allocFrames hR hsource (hR.inside.setPool hsource hram)
  freeFrames := obeys_freeFrames hR (hR.inside.setPool hsource hram)
  markThreadStack := obeys_markThreadStack hR hram (hR.inside.setPool hsource hram)
  writeBytes := obeys_writeBytes hR.outside hout
  zeroFrames := obeys_zeroFrames hR.outside hout
  copyFrames := obeys_copyFrames hR.outside hout

end memory

theorem obeys_readSlots (hR : Machine.Masking R S) (f : Tlb → α) : (readSlots f).Obeys R :=
  obeys_bind hR.inside hR.readSlots fun _ =>
    obeys_bind hR.inside (obeys_get hR.inside) fun _ => obeys_pure hR.inside _

section tlb
variable (hR : Machine.Masking R S) (htlb : ∀ m tlb, R m (m.setTlb tlb))
include hR htlb

theorem obeys_writeSlots (f : Tlb → Tlb) : (writeSlots f).Obeys R :=
  obeys_bind hR.inside (obeys_modify fun m => htlb m _) fun _ => hR.writeSlots

theorem obeys_flushTlb : flushTlb.Obeys S := hR.masked (obeys_writeSlots hR htlb _)

theorem obeys_installMapping (va : VAddr) (pa : PAddr) (dirty : Bool) :
    (installMapping va pa dirty).Obeys S := by
  apply hR.masked
  apply obeys_bind hR.inside (obeys_readSlots hR _)
  intro placement
  apply obeys_bind hR.inside (obeys_log hR.inside _)
  intro _
  exact obeys_bind hR.inside (obeys_writeSlots hR htlb _) fun _ => obeys_pure hR.inside _

end tlb

/-! What is made of these operations does what they do. -/

section composite
variable (hS : Machine.Composes S)
include hS

theorem obeys_allocKernelPages (halloc : ∀ n, (allocFrames n).Obeys S) (n : Nat) :
    (allocKernelPages n).Obeys S := by
  apply obeys_bind hS (halloc n)
  intro answer
  cases answer with
  | none => exact obeys_pure hS _
  | some pa => exact obeys_bind hS (obeys_lift hS _) fun _ => obeys_pure hS _

theorem obeys_freeKernelPages (hfree : ∀ pa, (freeFrames pa).Obeys S) (va : VAddr) :
    (freeKernelPages va).Obeys S := by
  unfold freeKernelPages
  cases directMapped? va with
  | none => exact obeys_stop hS _
  | some pa => exact hfree pa

theorem obeys_freeAll (hfree : ∀ pa, (freeFrames pa).Obeys S) (pas : List PAddr) :
    (freeAll pas).Obeys S := by
  induction pas with
  | nil => exact obeys_pure hS ()
  | cons pa rest ih => exact obeys_bind hS (hfree pa) fun _ => ih

theorem obeys_destroySpace (hfree : ∀ pa, (freeFrames pa).Obeys S) (a : AddressSpace) :
    (destroySpace a).Obeys S := obeys_freeAll hS hfree a.boundFrames

theorem obeys_copySegments (hcopy : ∀ dst src n, (copyFrames dst src n).Obeys S)
    (src dst : AddressSpace) (segments : List Segment) : (copySegments src dst segments).Obeys S := by
  induction segments with
  | nil => exact obeys_pure hS ()
  | cons segment rest ih =>
    unfold copySegments
    split
    · exact obeys_bind hS (hcopy _ _ _) fun _ => ih
    · exact obeys_bind hS (obeys_pure hS ()) fun _ => ih

theorem obeys_copyOut (hwrite : ∀ pa bytes, (writeBytes pa bytes).Obeys S) (a : AddressSpace)
    (dst : VAddr) (bytes : Array UInt8) : (copyOut a dst bytes).Obeys S := by
  unfold copyOut
  split_ifs with hempty
  · exact obeys_pure hS _
  apply obeys_bind hS (obeys_lift hS _)
  intro span
  cases span with
  | error e => exact obeys_pure hS _
  | ok pa => exact obeys_bind hS (hwrite pa bytes) fun _ => obeys_pure hS _

theorem obeys_copyIn (a : AddressSpace) (src : VAddr) (len : Nat) : (copyIn a src len).Obeys S := by
  unfold copyIn
  split_ifs with hlen
  · exact obeys_pure hS _
  apply obeys_bind hS (obeys_lift hS _)
  intro span
  cases span with
  | error e => exact obeys_pure hS _
  | ok pa =>
    refine obeys_bind hS ?_ fun _ => obeys_pure hS _
    exact obeys_bind hS (obeys_get hS) fun _ => obeys_lift hS _

theorem obeys_resolveMiss (hinstall : ∀ va pa dirty, (installMapping va pa dirty).Obeys S)
    (space : Option AddressSpace) (kind : FaultKind) (addr : VAddr) :
    (resolveMiss space kind addr).Obeys S := by
  apply obeys_bind hS (obeys_log hS _)
  intro _
  split_ifs with hkind
  · exact obeys_pure hS _
  cases space with
  | none => exact obeys_pure hS _
  | some a =>
    apply obeys_bind hS (obeys_lift hS _)
    intro answer
    cases answer with
    | none => exact obeys_pure hS _
    | some t =>
      apply obeys_bind hS (hinstall _ _ _)
      intro placement
      exact obeys_bind hS (obeys_log hS _) fun _ => obeys_pure hS _

theorem obeys_fault (hinstall : ∀ va pa dirty, (installMapping va pa dirty).Obeys S)
    (space : Option AddressSpace) (code : Nat) (addr : VAddr) : (fault space code addr).Obeys S := by
  unfold fault
  cases FaultKind.ofCode code with
  | error e => exact obeys_pure hS _
  | ok kind => exact obeys_resolveMiss hS hinstall space kind addr

theorem obeys_activateSpace (hflush : flushTlb.Obeys S) (space : Option AddressSpace) :
    (activateSpace space).Obeys S := by
  cases space with
  | none => exact obeys_pure hS ()
  | some a => exact hflush

theorem obeys_completeLoad (hflush : flushTlb.Obeys S) (a : AddressSpace) :
    (completeLoad a).Obeys S := obeys_bind hS hflush fun _ => obeys_pure hS _

theorem obeys_defineRegion (a : AddressSpace) (va : VAddr) (size : Nat) (perms : Permissions) :
    (defineRegion a va size perms).Obeys S :=
  obeys_bind hS (obeys_logAll hS _) fun _ => obeys_pure hS _

theorem obeys_shootdown (page : Option VAddr) : (shootdown page).Obeys S :=
  obeys_bind hS (obeys_log hS _) fun _ => hS.refl

end composite

end Kernel
end MipsVm
