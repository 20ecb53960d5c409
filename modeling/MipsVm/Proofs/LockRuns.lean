import MipsVm.SpinLock
import Mathlib.Data.List.Infix

/-! Runs of a program over one spin lock and its guards. The lock excludes a second guard in exactly
those runs in which no attempt meets a lock that is held: an attempt that fails frees the lock under
the guard that holds it. -/
namespace MipsVm

/-- A spin lock with the guards of it that are alive, by the numbers they were given. -/
structure GuardedLock (α : Type) where
  lock : SpinLock α
  guards : List Nat
  /-- Number of guards given so far. -/
  issued : Nat

/-- What a program does with the lock. The body of `withLock` leaves a value in the lock and then
returns or halts. -/
inductive LockStep (α β ε : Type) where
  | tryLock
  | lock
  | drop (guard : Nat)
  | withLock (body : α → Except ε β × α)

namespace GuardedLock
variable {α β ε : Type} {g : GuardedLock α} {step : LockStep α β ε} {steps : List (LockStep α β ε)}

def fresh (value : α) : GuardedLock α := ⟨.unlocked value, [], 0⟩

/-- `g` with one more guard. -/
def give (g : GuardedLock α) (lock : SpinLock α) : GuardedLock α :=
  ⟨lock, g.issued :: g.guards, g.issued + 1⟩

/-- An attempt to take the lock, and whether it gave a guard. -/
def tryLock (g : GuardedLock α) : Bool × GuardedLock α :=
  match g.lock.tryLock with
  | (true, lock) => (true, g.give lock)
  | (false, lock) => (false, { g with lock })

def drop (g : GuardedLock α) (guard : Nat) : GuardedLock α :=
  { g with lock := g.lock.release, guards := g.guards.erase guard }

def withLock (g : GuardedLock α) (body : α → Except ε β × α) : Except ε β × GuardedLock α :=
  let done := g.lock.withLock fun l => ((body l.value).1, l.set (body l.value).2)
  (done.1, { g with lock := done.2 })

/-- What the program may do next: wait for the lock only while it is free, and drop only guards that
it has. -/
def Permitted (g : GuardedLock α) : LockStep α β ε → Prop
  | .tryLock => True
  | .lock | .withLock _ => g.lock.locked = false
  | .drop guard => guard ∈ g.guards

def next (g : GuardedLock α) : LockStep α β ε → GuardedLock α
  | .tryLock => g.tryLock.2
  | .lock => g.give g.lock.lock
  | .drop guard => g.drop guard
  | .withLock body => (g.withLock body).2

def run (g : GuardedLock α) (steps : List (LockStep α β ε)) : GuardedLock α := steps.foldl next g

def Valid (g : GuardedLock α) : List (LockStep α β ε) → Prop
  | [] => True
  | step :: steps => g.Permitted step ∧ (g.next step).Valid steps

/-- At most one guard is alive, and the lock is held just when there is one. -/
def Exclusive (g : GuardedLock α) : Prop :=
  g.guards.length ≤ 1 ∧ (g.lock.locked = true ↔ g.guards ≠ [])

/-- No step of the run is an attempt on a lock that is held. -/
def NeverRefused (g : GuardedLock α) : List (LockStep α β ε) → Prop
  | [] => True
  | step :: steps => (step = .tryLock → g.lock.locked = false) ∧ (g.next step).NeverRefused steps

theorem exclusive_fresh (value : α) : (fresh value).Exclusive := by
  simp [Exclusive, fresh, SpinLock.unlocked]

theorem tryLock_of_free (h : g.lock.locked = false) :
    g.tryLock = (true, g.give { g.lock with locked := true }) := by
  simp [tryLock, SpinLock.tryLock, h]

theorem tryLock_of_held (h : g.lock.locked = true) :
    g.tryLock = (false, { g with lock := g.lock.release }) := by
  simp [tryLock, SpinLock.tryLock, h]

theorem tryLock_eq_true_iff : g.tryLock.1 = true ↔ g.lock.locked = false := by
  cases h : g.lock.locked with
  | false => simp [tryLock_of_free h]
  | true => simp [tryLock_of_held h]

theorem Exclusive.guards_eq_nil (hg : g.Exclusive) (h : g.lock.locked = false) : g.guards = [] := by
  by_contra hne
  rw [hg.2.mpr hne] at h
  cases h

theorem exclusive_give (hg : g.Exclusive) (h : g.lock.locked = false) {lock : SpinLock α}
    (hlock : lock.locked = true) : (g.give lock).Exclusive := by
  simp [Exclusive, give, hlock, hg.guards_eq_nil h]

theorem exclusive_next (hg : g.Exclusive) (hstep : g.Permitted step)
    (hrefused : step = .tryLock → g.lock.locked = false) : (g.next step).Exclusive := by
  cases step with
  | tryLock =>
    have hfree := hrefused rfl
    rw [next, tryLock_of_free hfree]
    exact exclusive_give hg hfree rfl
  | lock =>
    -- waiting is permitted on a free lock alone, so the guard is the only one
    rw [next, SpinLock.lock_eq]
    exact exclusive_give hg hstep rfl
  | drop guard =>
    -- the guard that is dropped was the only one
    have hone : g.guards = [guard] := by
      obtain ⟨other, hother⟩ := List.length_eq_one_iff.mp
        (Nat.le_antisymm hg.1 (List.length_pos_of_mem hstep))
      have hmem : guard ∈ g.guards := hstep
      rw [hother, List.mem_singleton] at hmem
      rw [hother, hmem]
    simp [Exclusive, next, drop, SpinLock.release, hone]
  | withLock body =>
    have hfree : (g.next (.withLock body)).lock.locked = false := by
      rw [next, withLock, SpinLock.locked_withLock]
    have hguards : (g.next (.withLock body)).guards = [] := hg.guards_eq_nil hstep
    simp [Exclusive, hfree, hguards]

theorem not_exclusive_of_refused (hg : g.Exclusive) (h : g.lock.locked = true) :
    ¬ (g.next (.tryLock : LockStep α β ε)).Exclusive := by
  -- the guard that made the lock busy is still alive, and the lock is free
  rw [next, tryLock_of_held h]
  rintro ⟨-, hiff⟩
  have hheld : g.lock.release.locked = true := hiff.mpr (hg.2.mp h)
  cases hheld

theorem exclusive_run_iff (hg : g.Exclusive) (hvalid : g.Valid steps) :
    (∀ earlier, earlier <+: steps → (g.run earlier).Exclusive) ↔ g.NeverRefused steps := by
  induction steps generalizing g with
  | nil =>
    simp only [List.prefix_nil, forall_eq, NeverRefused, iff_true]
    exact hg
  | cons step steps ih =>
    constructor
    · -- a refused attempt would be seen in the state right after it
      intro h
      have hfirst : (g.next step).Exclusive := h [step] (by simp)
      refine ⟨?_, (ih hfirst hvalid.2).mp ?_⟩
      · rintro rfl
        by_contra hheld
        exact not_exclusive_of_refused hg (by simpa using hheld) hfirst
      · intro earlier hearlier
        exact h (step :: earlier) (List.cons_prefix_cons.mpr ⟨rfl, hearlier⟩)
    · rintro ⟨hrefused, hrest⟩ earlier hearlier
      have hnext := exclusive_next hg hvalid.1 hrefused
      cases earlier with
      | nil => exact hg
      | cons first earlier =>
        obtain ⟨rfl, htail⟩ := List.cons_prefix_cons.mp hearlier
        exact (ih hnext hvalid.2).mpr hrest earlier htail

theorem guards_ne_nil_of_locked (hg : g.lock.locked = true → g.guards ≠ []) :
    (g.run steps).lock.locked = true → (g.run steps).guards ≠ [] := by
  -- every step that leaves the lock held gives a guard
  induction steps generalizing g with
  | nil => exact hg
  | cons step steps ih =>
    apply ih
    cases step with
    | tryLock =>
      cases h : g.lock.locked with
      | false =>
        rw [next, tryLock_of_free h]
        exact fun _ => List.cons_ne_nil _ _
      | true =>
        rw [next, tryLock_of_held h]
        exact nofun
    | lock => exact fun _ => List.cons_ne_nil _ _
    | drop guard => exact nofun
    | withLock body =>
      intro h
      rw [next, withLock, SpinLock.locked_withLock] at h
      cases h

theorem withLock_eq (g : GuardedLock α) (body : α → Except ε β × α) :
    g.withLock body =
      ((body g.lock.value).1, { g with lock := ⟨false, (body g.lock.value).2⟩ }) := by
  simp [withLock, SpinLock.withLock, SpinLock.lock_eq, SpinLock.set, SpinLock.release]

/-- In a run from a new lock: the guards stay exclusive in all states of the run if and only if no
attempt is refused; an attempt gives a guard just when the lock is free, and a refused one frees the
lock while the guards that were alive stay alive; a lock is free after a body has returned or
halted, with the value that the body left. -/
theorem exclusion_of_lock_runs (value : α) (steps : List (LockStep α β ε))
    (hvalid : (fresh value).Valid steps) :
    ((∀ earlier, earlier <+: steps → ((fresh value).run earlier).Exclusive) ↔
      (fresh value).NeverRefused steps) ∧
    (((fresh value).run steps).tryLock.1 = true ↔
      ((fresh value).run steps).lock.locked = false) ∧
    (((fresh value).run steps).tryLock.1 = false →
      ((fresh value).run steps).guards ≠ [] ∧
      ((fresh value).run steps).tryLock.2 =
        { (fresh value).run steps with lock := ((fresh value).run steps).lock.release }) ∧
    (∀ body : α → Except ε β × α,
      ((fresh value).run steps).withLock body =
        ((body ((fresh value).run steps).lock.value).1,
          { (fresh value).run steps with
            lock := ⟨false, (body ((fresh value).run steps).lock.value).2⟩ })) := by
  refine ⟨exclusive_run_iff (exclusive_fresh value) hvalid, tryLock_eq_true_iff, ?_, withLock_eq _⟩
  intro hrefused
  have hheld : ((fresh value).run steps).lock.locked = true := by
    cases h : ((fresh value).run steps).lock.locked with
    | true => rfl
    | false =>
      rw [tryLock_of_free h] at hrefused
      cases hrefused
  refine ⟨guards_ne_nil_of_locked nofun hheld, ?_⟩
  rw [tryLock_of_held hheld]

/-- A body that runs after a guard was dropped. -/
theorem exclusive_after_drop :
    (fresh 1).Valid
      ([.tryLock, .drop 0, .withLock fun n => (.ok n, n + 1)] : List (LockStep Nat Nat Unit)) ∧
    ∀ earlier : List (LockStep Nat Nat Unit),
      earlier <+: [.tryLock, .drop 0, .withLock fun n => (.ok n, n + 1)] →
        ((fresh 1).run earlier).Exclusive := by
  have hvalid : (fresh 1).Valid
      ([.tryLock, .drop 0, .withLock fun n => (.ok n, n + 1)] : List (LockStep Nat Nat Unit)) :=
    ⟨trivial, List.mem_singleton.mpr rfl, rfl, trivial⟩
  exact ⟨hvalid, (exclusion_of_lock_runs 1 _ hvalid).1.mpr ⟨fun _ => rfl, nofun, nofun, trivial⟩⟩

/-- A second attempt is permitted, gives no guard, and frees the lock under the first guard. -/
theorem refused_attempt_frees_lock :
    (fresh 1).Valid ([.tryLock, .tryLock] : List (LockStep Nat Nat Unit)) ∧
    ((fresh 1).run ([.tryLock] : List (LockStep Nat Nat Unit))).tryLock.1 = false ∧
    ((fresh 1).run ([.tryLock, .tryLock] : List (LockStep Nat Nat Unit))).guards = [0] ∧
    ((fresh 1).run ([.tryLock, .tryLock] : List (LockStep Nat Nat Unit))).lock.locked = false ∧
    ¬ ((fresh 1).run ([.tryLock, .tryLock] : List (LockStep Nat Nat Unit))).Exclusive := by
  refine ⟨⟨trivial, trivial, trivial⟩, rfl, rfl, rfl, ?_⟩
  rintro ⟨-, hiff⟩
  have hheld : false = true := hiff.mpr (List.cons_ne_nil 0 [])
  cases hheld

end GuardedLock
end MipsVm
