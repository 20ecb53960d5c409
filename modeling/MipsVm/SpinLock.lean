/-! A spin lock and the value that it protects, as one processor sees it. Dropping a guard frees
the lock, whoever holds it. -/
namespace MipsVm

structure SpinLock (α : Type) where
  locked : Bool
  value : α
deriving DecidableEq, Repr

namespace SpinLock
variable {α β ε : Type}

def unlocked (value : α) : SpinLock α := ⟨false, value⟩

/-- What the drop of a guard does. -/
def release (l : SpinLock α) : SpinLock α := { l with locked := false }

/-- One attempt to take the lock, and whether it gave a guard. The guard is made before the outcome
is looked at: a failed attempt drops it at once, and that drop frees the lock. -/
def tryLock (l : SpinLock α) : Bool × SpinLock α :=
  if l.locked then (false, l.release) else (true, { l with locked := true })

/-- Attempts until one succeeds: the first does on a free lock, and the second does otherwise,
because the failure of the first frees the lock. -/
def lock (l : SpinLock α) : SpinLock α :=
  match l.tryLock with
  | (true, held) => held
  | (false, freed) => freed.tryLock.2

/-- Runs `f` with the lock held and frees it however `f` ends. -/
def withLock (l : SpinLock α) (f : SpinLock α → Except ε β × SpinLock α) :
    Except ε β × SpinLock α :=
  let (result, l) := f l.lock
  (result, l.release)

def set (l : SpinLock α) (value : α) : SpinLock α := { l with value }

theorem lock_eq (l : SpinLock α) : l.lock = { l with locked := true } := by
  obtain ⟨locked, value⟩ := l
  cases locked <;> rfl

theorem locked_withLock (l : SpinLock α) (f : SpinLock α → Except ε β × SpinLock α) :
    (l.withLock f).2.locked = false := rfl

end SpinLock
end MipsVm
