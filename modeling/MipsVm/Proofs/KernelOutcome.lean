import MipsVm.Machine

/-! The answer of a kernel operation and the machine that it leaves, from the outcomes of its parts.
Whatever an operation does with the frame source, it leaves a machine of one form. -/
namespace MipsVm

namespace Machine
variable {m : Machine}

/-- The machine with `records` written to the log. -/
def logged (m : Machine) (records : List Record) : Machine :=
  { m with
    trace := m.trace ++
      (records.map fun record => ⟨.log record, m.interrupts.enabled, m.frames.locked⟩).toArray }

@[simp] theorem logged_nil : m.logged [] = m := by
  simp [logged]

/-- What is observed of an operation that writes `records` to the log, holding the lock and with
interrupts masked. -/
def serviceEvents (m : Machine) (records : List Record) : List Event :=
  [⟨.maskInterrupts, false, m.frames.locked⟩, ⟨.takeLock, false, true⟩] ++
    (records.map fun record => ⟨.log record, false, true⟩) ++
    [⟨.freeLock, false, false⟩, ⟨.restoreInterrupts, m.interrupts.enabled, false⟩]

/-- The machine after an operation that wrote `records` to the log and left `source` and `ram`. -/
def served (m : Machine) (records : List Record) (source : FrameSource) (ram : Ram) : Machine where
  ram := ram
  ledgerAt := m.ledgerAt
  interrupts := ⟨m.interrupts.enabled, m.interrupts.disables + 1⟩
  frames := .unlocked source
  tlb := m.tlb
  trace := m.trace ++ (m.serviceEvents records).toArray

/-- The machine after an operation that wrote `records` to the log and made the pool `next` of `old`:
what is new in the ledger has gone to RAM. -/
def servedPool (m : Machine) (records : List Record) (old next : FramePool) : Machine :=
  m.served records (.pool next) (next.ledger.store old.ledger m.ledgerAt m.ram)

theorem served_eq (m : Machine) (records : List Record) (source : FrameSource) (ram : Ram) :
    (((m.mask.takeLock.logged records).setSource source).setRam ram).freeLock.restore
      m.interrupts.guard.1 = m.served records source ram := by
  obtain ⟨before, ledgerAt, ⟨enabled, disables⟩, frames, tlb, trace⟩ := m
  have hlock : frames.lock = { frames with locked := true } := frames.lock_eq
  cases enabled <;>
    simp [mask, takeLock, logged, setSource, setRam, freeLock, restore, note, served, serviceEvents,
      Interrupts.guard, Interrupts.disable, Interrupts.drop, Interrupts.enable, hlock,
      SpinLock.release, SpinLock.set, SpinLock.unlocked]

end Machine

namespace Kernel
variable {α β : Type} {m : Machine}

/-- The answer of `k` on `m`, and the machine that it leaves. -/
def outcome (k : Kernel α) (m : Machine) : Except Halt α × Machine :=
  match k m with
  | .ok a m => (.ok a, m)
  | .error halt m => (.error halt, m)

@[simp] theorem outcome_pure (a : α) : (pure a : Kernel α).outcome m = (.ok a, m) := rfl

@[simp] theorem outcome_throw (halt : Halt) : (throw halt : Kernel α).outcome m = (.error halt, m) :=
  rfl

@[simp] theorem outcome_lift (x : Except Halt α) :
    (monadLift x : Kernel α).outcome m = (x, m) := by
  cases x <;> rfl

@[simp] theorem outcome_get : (get : Kernel Machine).outcome m = (.ok m, m) := rfl

@[simp] theorem outcome_setSource (source : FrameSource) :
    (setSource source).outcome m = (.ok (), m.setSource source) := rfl

@[simp] theorem outcome_setRam (ram : Ram) : (setRam ram).outcome m = (.ok (), m.setRam ram) := rfl

@[simp] theorem outcome_setLedger (ledgerAt : PAddr) :
    (setLedger ledgerAt).outcome m = (.ok (), m.setLedger ledgerAt) := rfl

@[simp] theorem outcome_setPool (old pool : FramePool) :
    (setPool old pool).outcome m = (.ok (), m.setPool old pool) := rfl

@[simp] theorem outcome_log (record : Record) :
    (log record).outcome m = (.ok (), m.logged [record]) := by
  simp only [Machine.logged]
  rfl

theorem outcome_bind (k : Kernel α) (f : α → Kernel β) :
    (k >>= f).outcome m =
      match k.outcome m with
      | (.ok a, m) => (f a).outcome m
      | (.error halt, m) => (.error halt, m) := by
  simp only [outcome, bind, EStateM.bind]
  cases k m <;> rfl

@[simp] theorem outcome_logAll (records : List Record) :
    (logAll records).outcome m = (.ok (), m.logged records) := by
  induction records generalizing m with
  | nil => simp [logAll, Machine.logged]
  | cons record records ih =>
    simp only [logAll, outcome_bind, outcome_log, ih]
    simp [Machine.logged]

@[simp] theorem outcome_stop (halt : Halt) :
    (stop halt : Kernel α).outcome m = (.error halt, m.logged [⟨.error, halt.message⟩]) := by
  simp only [stop, outcome_bind, outcome_log, outcome_throw]

theorem outcome_ensuring (k : Kernel α) (cleanup : Machine → Machine) :
    (k.ensuring cleanup).outcome m = ((k.outcome m).1, cleanup (k.outcome m).2) := by
  simp only [outcome, ensuring]
  cases k m <;> rfl

theorem outcome_masked (k : Kernel α) :
    (masked k).outcome m =
      ((k.outcome m.mask).1, (k.outcome m.mask).2.restore m.interrupts.guard.1) :=
  outcome_ensuring k _

theorem outcome_locked (k : Kernel α) :
    (locked k).outcome m = ((k.outcome m.takeLock).1, (k.outcome m.takeLock).2.freeLock) :=
  outcome_ensuring k _

theorem value_takeLock (m : Machine) : m.mask.takeLock.frames.value = m.frames.value := by
  change m.frames.lock.value = _
  rw [SpinLock.lock_eq]

theorem outcome_withFrames_moved {k : FrameSource → Kernel α} {answer : Except Halt α}
    {records : List Record} {source : FrameSource} {ram : Ram} {ledgerAt : PAddr}
    (h : (k m.frames.value).outcome m.mask.takeLock = (answer,
      (((m.setLedger ledgerAt).mask.takeLock.logged records).setSource source).setRam ram)) :
    (withFrames k).outcome m = (answer, (m.setLedger ledgerAt).served records source ram) := by
  rw [withFrames, outcome_masked, outcome_locked, outcome_bind, outcome_get, ← Machine.served_eq]
  simp only [value_takeLock, h]
  rfl

/-- The ledger stays where it is. -/
theorem outcome_withFrames {k : FrameSource → Kernel α} {answer : Except Halt α}
    {records : List Record} {source : FrameSource} {ram : Ram}
    (h : (k m.frames.value).outcome m.mask.takeLock =
      (answer, ((m.mask.takeLock.logged records).setSource source).setRam ram)) :
    (withFrames k).outcome m = (answer, m.served records source ram) :=
  outcome_withFrames_moved h

theorem outcome_withFrames_logged {k : FrameSource → Kernel α} {answer : Except Halt α}
    {records : List Record}
    (h : (k m.frames.value).outcome m.mask.takeLock = (answer, m.mask.takeLock.logged records)) :
    (withFrames k).outcome m = (answer, m.served records m.frames.value m.ram) := by
  apply outcome_withFrames
  rw [h, ← value_takeLock m]
  rfl

end Kernel
end MipsVm
