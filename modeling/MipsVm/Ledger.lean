import MipsVm.Error

/-! The frame ledger: one entry per frame. A run of `n` frames is its start, which records `n`,
and the continuations `2, …, n`; so the length of a run is written down once and can be counted once
more, and a stray write shows as a difference of the two. -/
namespace MipsVm

inductive Entry where
  | free
  /-- First frame of a run of `len` frames. -/
  | start (len : Nat)
  /-- Frame number `position` of its run, counted from 1. -/
  | continuation (position : Nat)
  /-- First frame of a run whose length was overwritten by the thread-stack footer. -/
  | footer
deriving DecidableEq, Repr

/-- The word at the bottom of a kernel thread's stack. -/
def threadStackMagic : Nat := 0xbaadf00d

/-- The entry of frame `i` of a run of `len` frames, counted from 0. -/
def Entry.ofRun (len i : Nat) : Entry := if i = 0 then .start len else .continuation (i + 1)

/-- What the release of a run gave back. -/
structure Released where
  /-- The recorded length, unless the footer stands in its place. -/
  declared : Option Nat
  /-- Number of frames made free. -/
  cleared : Nat
deriving DecidableEq, Repr

/-- Totals over a whole ledger. -/
structure Census where
  free : Nat
  used : Nat
  runs : Nat
deriving DecidableEq, Repr

/-- The totals with one more run of `len` frames. -/
def Census.addRun (c : Census) (len : Nat) : Census := ⟨c.free, c.used + len, c.runs + 1⟩

/-- A ledger never spans more frames than this, so that lengths, positions and frame numbers fit in a
word. Nothing enforces it. -/
def maxFrames : Nat := 0x100000

structure Ledger where
  entries : Array Entry
deriving DecidableEq, Repr

namespace Ledger

/-- The ledger of `frames` free frames. -/
def new (frames : Nat) : Ledger := ⟨Array.replicate frames .free⟩

abbrev size (l : Ledger) : Nat := l.entries.size

def isEmpty (l : Ledger) : Bool := l.size == 0

def get? (l : Ledger) (frame : Nat) : Option Entry := l.entries[frame]?

def isFree? (l : Ledger) (frame : Nat) : Option Bool := (l.get? frame).map (· == .free)

/-- Frame number `i`, halting when the ledger has none. -/
def frame (l : Ledger) (i : Nat) : Except Halt (Fin l.size) :=
  if h : i < l.size then .ok ⟨i, h⟩ else .error .outOfBounds

def get (l : Ledger) (i : Fin l.size) : Entry :=
  have h : i.val < l.entries.size := i.isLt
  l.entries[i.val]

/-- The ledger with `f i` in the `i`-th of `n` entries from `start` on. -/
def overwrite (l : Ledger) (start n : Nat) (f : Nat → Entry) : Ledger :=
  ⟨n.fold (fun i _ entries => entries.setIfInBounds (start + i) (f i)) l.entries⟩

/-- A write of `e` over entry `i` that goes past the ledger's own operations. -/
def strayWrite? (l : Ledger) (i : Nat) (e : Entry) : Option Ledger :=
  if i < l.size then some (l.overwrite i 1 fun _ => e) else none

@[simp] theorem size_new (frames : Nat) : (new frames).size = frames := by
  simp [new, size]

@[simp] theorem size_overwrite (l : Ledger) (start n : Nat) (f : Nat → Entry) :
    (l.overwrite start n f).size = l.size := by
  induction n with
  | zero => rfl
  | succ n ih => simpa [overwrite, size] using ih

theorem get?_overwrite (l : Ledger) (start n : Nat) (f : Nat → Entry) (j : Nat) :
    (l.overwrite start n f).get? j =
      if start ≤ j ∧ j < start + n ∧ j < l.size then some (f (j - start)) else l.get? j := by
  induction n with
  | zero =>
    rw [if_neg (by omega)]
    rfl
  | succ n ih =>
    have hs : (l.overwrite start (n + 1) f).entries[j]? =
        ((l.overwrite start n f).entries.setIfInBounds (start + n) (f n))[j]? := by
      simp only [overwrite, Nat.fold_succ]
    have hz := size_overwrite l start n f
    simp only [size, get?] at hz ih ⊢
    rw [hs, Array.getElem?_setIfInBounds, hz]
    by_cases hj : start + n = j
    · subst hj
      rw [if_pos rfl]
      by_cases hb : start + n < l.entries.size
      · rw [if_pos hb, if_pos (by omega), Nat.add_sub_cancel_left]
      · rw [if_neg hb, if_neg (by omega), Array.getElem?_eq_none (by omega)]
    · have h : (start ≤ j ∧ j < start + (n + 1) ∧ j < l.entries.size) ↔
          (start ≤ j ∧ j < start + n ∧ j < l.entries.size) := by omega
      simp only [if_neg hj, h, ih]

/-- First fit, from entry `i` on, after `found` free entries. -/
def findGapFrom (l : Ledger) (n i found : Nat) : Option Nat :=
  if h : i < l.entries.size then
    if l.entries[i] = .free then
      if found + 1 = n then some (i + 1 - n) else l.findGapFrom n (i + 1) (found + 1)
    else l.findGapFrom n (i + 1) 0
  else none
termination_by l.entries.size - i

/-- The lowest start of `n` free frames in a row. -/
def findGap (l : Ledger) (n : Nat) : Option Nat := if n = 0 then none else l.findGapFrom n 0 0

/-- Whether the `n` entries from `start` on are all free. -/
def allFree (l : Ledger) (start n : Nat) : Bool := n.all fun i _ => l.get? (start + i) == some .free

/-- Records a run of `n` frames from `start` on, halting where the positions leave their word. -/
def mark (l : Ledger) (start n : Nat) : Except Halt Ledger :=
  if start + n ≥ sizeLimit then .error .overflow
  else if l.size < start + n then .error .outOfBounds
  else if !l.allFree start n then .error .frameInUse
  else if n = 0 then .error .outOfBounds
  else if 0x100000000 ≤ n then .error .overflow
  else .ok (l.overwrite start n (Entry.ofRun n))

/-- What `mark` leaves of a run that has more frames than a word can count: the length is cut to a word,
and the continuations end with the last position. -/
def overrun (l : Ledger) (start n : Nat) : Ledger :=
  l.overwrite start 0xFFFFFFFF (Entry.ofRun (n % 0x100000000))

@[simp] theorem size_overrun (l : Ledger) (start n : Nat) : (l.overrun start n).size = l.size :=
  size_overwrite ..

theorem size_of_mark {l m : Ledger} {start n : Nat} (h : l.mark start n = .ok m) :
    m.size = l.size := by
  simp only [mark] at h
  repeat' split at h
  all_goals simp_all only [reduceCtorEq, Except.ok.injEq]
  rw [← h, size_overwrite]

/-- One past the continuations `position, position + 1, …` that stand from entry `i` on. -/
def chainEnd (l : Ledger) (i position : Nat) : Nat :=
  if h : i < l.entries.size then
    if l.entries[i] = .continuation position then l.chainEnd (i + 1) (position + 1) else i
  else i
termination_by l.entries.size - i

theorem le_chainEnd (l : Ledger) (i position : Nat) : i ≤ l.chainEnd i position := by
  fun_induction l.chainEnd i position <;> omega

/-- Number of frames of the run at `start`, by counting. -/
def runLength (l : Ledger) (start : Nat) : Nat := l.chainEnd (start + 1) 2 - start

theorem runLength_pos (l : Ledger) (start : Nat) : 0 < l.runLength start := by
  have := l.le_chainEnd (start + 1) 2
  simp only [runLength]
  omega

/-- What releasing the run at `start` reports. -/
def released (l : Ledger) (start : Fin l.size) : Except LedgerError Released :=
  match l.get start with
  | .free => .error (.doubleFree start)
  | .continuation _ => .error (.notRunStart start)
  | .start declared =>
    if declared = l.runLength start then .ok ⟨some declared, l.runLength start⟩
    else .error (.lengthMismatch start declared (l.runLength start))
  | .footer => .ok ⟨none, l.runLength start⟩

/-- The ledger after that: the counted frames are free, even if the recorded length differs. -/
def cleared (l : Ledger) (start : Fin l.size) : Ledger :=
  match l.get start with
  | .free | .continuation _ => l
  | .start _ | .footer => l.overwrite start (l.runLength start) fun _ => .free

/-- Frees the run at `start`. -/
def release (l : Ledger) (start : Fin l.size) : Except LedgerError Released × Ledger :=
  (l.released start, l.cleared start)

@[simp] theorem size_cleared (l : Ledger) (start : Fin l.size) :
    (l.cleared start).size = l.size := by
  simp only [cleared]
  split <;> simp

/-- Puts the thread-stack footer over the length of the run at `start`. -/
def stampFooter (l : Ledger) (start : Fin l.size) : Except LedgerError Ledger :=
  match l.get start with
  | .start _ | .footer => .ok (l.overwrite start 1 fun _ => .footer)
  | .free => .error (.doubleFree start)
  | .continuation _ => .error (.notRunStart start)

theorem size_of_stampFooter {l m : Ledger} {start : Fin l.size} (h : l.stampFooter start = .ok m) :
    m.size = l.size := by
  simp only [stampFooter] at h
  split at h <;> simp_all only [reduceCtorEq, Except.ok.injEq] <;> rw [← h, size_overwrite]

/-- The error for a run that declares another length than the `found` frames counted. -/
def lengthError (l : Ledger) (frame declared found : Nat) : LedgerError :=
  if frame + found = l.size ∧ found < declared then .truncatedRun frame declared found
  else .lengthMismatch frame declared found

/-- The walk of `audit` from entry `frame` on, after the totals `c`. -/
def auditFrom (l : Ledger) (frame : Nat) (c : Census) : Except LedgerError Census :=
  if h : frame < l.entries.size then
    match l.entries[frame] with
    | .free => l.auditFrom (frame + 1) { c with free := c.free + 1 }
    | .continuation _ => .error (.strayContinuation frame)
    | .start declared =>
      if declared = l.runLength frame then
        l.auditFrom (frame + l.runLength frame) (c.addRun (l.runLength frame))
      else .error (l.lengthError frame declared (l.runLength frame))
    | .footer => l.auditFrom (frame + l.runLength frame) (c.addRun (l.runLength frame))
  else .ok c
termination_by l.entries.size - frame
decreasing_by all_goals have := l.runLength_pos frame; omega

/-- Checks every entry against the encoding of runs; reports the first that does not fit. -/
def audit (l : Ledger) : Except LedgerError Census := l.auditFrom 0 ⟨0, 0, 0⟩

end Ledger
end MipsVm
