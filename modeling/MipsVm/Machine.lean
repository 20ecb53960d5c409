import MipsVm.BootMemory
import MipsVm.FramePool
import MipsVm.Interrupts
import MipsVm.SpinLock
import MipsVm.Tlb.Basic

/-! The machine that the kernel's memory code runs on, and kernel operations as programs over it. An
operation that halts leaves the machine as it stands, except that the guards it held are dropped
on the way out. -/
namespace MipsVm

/-- Where free frames come from. -/
inductive FrameSource where
  | boot (memory : BootMemory)
  | pool (pool : FramePool)

/-- A step that others could observe. -/
inductive Action where
  | maskInterrupts
  | restoreInterrupts
  | takeLock
  | freeLock
  | readSlots
  | writeSlots
  | log (record : Record)
deriving DecidableEq, Repr

/-- A step, with the interrupt flag and the frame lock as it leaves them. -/
structure Event where
  action : Action
  interruptsEnabled : Bool
  lockHeld : Bool
deriving DecidableEq, Repr

structure Machine where
  ram : Ram
  /-- Where the entries of the ledger lie in RAM, once there is one. Their bytes follow the pool, which
  does not read them back: nobody else may write there. -/
  ledgerAt : PAddr
  interrupts : Interrupts
  /-- The source of frames and its lock. -/
  frames : SpinLock FrameSource
  tlb : Tlb
  /-- What was observed so far, the oldest event first. -/
  trace : Array Event

namespace Machine

/-- A machine whose free RAM is `[first, last)`. -/
def new (ram : Ram) (first last : PAddr) (victim : Nat → Fin tlbSlots) : Machine :=
  { ram
    ledgerAt := .null
    interrupts := .initial
    frames := .unlocked (.boot (.new first last))
    tlb := .empty victim
    trace := #[] }

def note (m : Machine) (action : Action) : Machine :=
  { m with trace := m.trace.push ⟨action, m.interrupts.enabled, m.frames.locked⟩ }

/-- The log records among the events. -/
def records (m : Machine) : List Record :=
  m.trace.toList.filterMap fun event =>
    match event.action with
    | .log record => some record
    | _ => none

def forgetTrace (m : Machine) : Machine := { m with trace := #[] }

def setRam (m : Machine) (ram : Ram) : Machine := { m with ram }

def setSource (m : Machine) (source : FrameSource) : Machine :=
  { m with frames := m.frames.set source }

def setLedger (m : Machine) (ledgerAt : PAddr) : Machine := { m with ledgerAt }

/-- The machine whose pool was `old` and is `pool` now: the entries that are new in its ledger go to
RAM. -/
def setPool (m : Machine) (old pool : FramePool) : Machine :=
  (m.setSource (.pool pool)).setRam (pool.ledger.store old.ledger m.ledgerAt m.ram)

def setTlb (m : Machine) (tlb : Tlb) : Machine := { m with tlb }

/-- Takes an interrupt guard, which `restore` drops. -/
def mask (m : Machine) : Machine :=
  { m with interrupts := m.interrupts.guard.2 }.note .maskInterrupts

def restore (m : Machine) (g : InterruptGuard) : Machine :=
  { m with interrupts := m.interrupts.drop g }.note .restoreInterrupts

def takeLock (m : Machine) : Machine := { m with frames := m.frames.lock }.note .takeLock

def freeLock (m : Machine) : Machine := { m with frames := m.frames.release }.note .freeLock

end Machine

/-- An operation of the kernel: it changes the machine, and gives an answer or halts. -/
abbrev Kernel := EStateM Halt Machine

namespace Kernel
variable {α : Type}

/-- A computation that may halt and does not touch the machine. -/
def ofExcept (x : Except Halt α) : Kernel α := fun m =>
  match x with
  | .ok a => .ok a m
  | .error halt => .error halt m

instance : MonadLift (Except Halt) Kernel := ⟨ofExcept⟩

/-- `k`, with `cleanup` done at its end, also when it halts. -/
def ensuring (k : Kernel α) (cleanup : Machine → Machine) : Kernel α := fun m =>
  match k m with
  | .ok a m => .ok a (cleanup m)
  | .error halt m => .error halt (cleanup m)

def note (action : Action) : Kernel Unit := modify (·.note action)

def log (record : Record) : Kernel Unit := note (.log record)

def logAll : List Record → Kernel Unit
  | [] => pure ()
  | record :: rest => do
    log record
    logAll rest

/-- Logs the message of `halt` as an error and halts. -/
def stop (halt : Halt) : Kernel α := do
  log ⟨.error, halt.message⟩
  throw halt

/-- `k` under an interrupt guard. -/
def masked (k : Kernel α) : Kernel α := fun m =>
  (k.ensuring (·.restore m.interrupts.guard.1)) m.mask

/-- `k` with the lock of the frame source held. -/
def locked (k : Kernel α) : Kernel α := fun m => (k.ensuring Machine.freeLock) m.takeLock

/-- `k` with exclusive use of the frame source: the lock is only ever taken with interrupts masked,
so that no interrupt handler can wait for a lock that its own processor holds. -/
def withFrames (k : FrameSource → Kernel α) : Kernel α :=
  masked (locked do k (← get).frames.value)

def setSource (source : FrameSource) : Kernel Unit := modify (·.setSource source)

def setPool (old pool : FramePool) : Kernel Unit := modify (·.setPool old pool)

def setRam (ram : Ram) : Kernel Unit := modify (·.setRam ram)

def setLedger (ledgerAt : PAddr) : Kernel Unit := modify (·.setLedger ledgerAt)

end Kernel
end MipsVm
