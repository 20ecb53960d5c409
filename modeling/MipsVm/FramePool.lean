import MipsVm.LedgerBytes
import MipsVm.Log

/-! The pool of frames that the ledger accounts for. A run of frames is handed out first fit and
taken back by the address of its first frame; free frames and live runs are counted beside the
ledger. -/
namespace MipsVm

/-- Number of frames at the bottom of `total` frames that hold the ledger of the others. -/
def ledgerFramesFor (total : Nat) : Except Halt Nat :=
  if total * entrySize < sizeLimit then
    .ok ((total * entrySize + (pageSize + entrySize - 1)) / (pageSize + entrySize))
  else .error .overflow

structure FrameStats where
  total : Nat
  free : Nat
  used : Nat
  runs : Nat
deriving DecidableEq, Repr

def FrameStats.zero : FrameStats := ⟨0, 0, 0, 0⟩

structure FramePool where
  /-- First frame of the pool. -/
  base : PAddr
  ledger : Ledger
  /-- Number of free frames. -/
  free : Nat
  /-- Number of live runs. -/
  runs : Nat
  /-- The pool ends at an address, where its number of frames is taken for a word. -/
  fits : base.val + ledger.size % 0x100000000 * pageSize < 0x100000000

namespace FramePool

/-- A pool of `frames` free frames from `base` on. Their number is cut to a word before it is checked. -/
def new (frames : Nat) (base : PAddr) : Except Halt FramePool :=
  if base.isPageAligned then
    if h : base.val + frames % 0x100000000 * pageSize < 0x100000000 then
      .ok { base, ledger := .new frames, free := frames, runs := 0, fits := by simpa using h }
    else .error .overflow
  else .error .misalignedPool

/-- One past the last byte of the pool. -/
def limit (p : FramePool) : PAddr :=
  ⟨p.base.val + p.ledger.size % 0x100000000 * pageSize, p.fits⟩

def contains (p : FramePool) (pa : PAddr) : Bool := p.base ≤ pa && pa < p.limit

/-- The pool with another ledger over the same frames. -/
def withLedger (p : FramePool) (l : Ledger) (h : l.size = p.ledger.size) : FramePool :=
  { p with ledger := l, fits := by rw [h]; exact p.fits }

theorem index_lt (p : FramePool) {pa : PAddr} (h : p.contains pa = true) :
    (pa.val - p.base.val) / pageSize < p.ledger.size := by
  simp only [contains, limit, Address.le_def, Address.lt_def, Bool.and_eq_true, decide_eq_true_eq,
    pageSize] at *
  omega

/-- Index of the frame at `pa`. -/
def frameIndex (p : FramePool) (pa : PAddr) : Except LedgerError (Fin p.ledger.size) :=
  if pa.isPageAligned then
    if h : p.contains pa = true then .ok ⟨(pa.val - p.base.val) / pageSize, p.index_lt h⟩
    else .error (.outsidePool pa)
  else .error (.unaligned pa)

/-- The present counts, halting when more frames are free than there are. -/
def stats (p : FramePool) : Except Halt FrameStats :=
  if p.free ≤ p.ledger.size then
    .ok ⟨p.ledger.size, p.free, p.ledger.size - p.free, p.runs⟩
  else .error .overflow

/-- Counts the ledger afresh and compares the free frames with the count kept. -/
def audit (p : FramePool) : Except LedgerError FrameStats := do
  let census ← p.ledger.audit
  if census.free = p.free then return ⟨p.ledger.size, census.free, census.used, census.runs⟩
  else throw (.freeCountMismatch census.free p.free)

/-- The pool after the run of `n` frames from `start` on is recorded. -/
def claim (p : FramePool) (start n : Nat) : Except Halt FramePool :=
  match h : p.ledger.mark start n with
  | .ok l =>
    .ok { p.withLedger l (Ledger.size_of_mark h) with free := p.free - n, runs := p.runs + 1 }
  | .error e => .error e

/-- The pool with a run left half recorded, because it is too long for its positions. -/
def overrun (p : FramePool) (start n : Nat) : FramePool :=
  p.withLedger (p.ledger.overrun start n) (Ledger.size_overrun ..)

/-- Hands out `n` frames in a row, first fit, if there are as many. The number of the first frame is cut
to a word. -/
def allocate (p : FramePool) (n : Nat) : Except Halt (Option PAddr) × FramePool :=
  if n = 0 ∨ p.free < n then (.ok none, p)
  else
    match p.ledger.findGap n with
    | none => (.ok none, p)
    | some start =>
      match p.claim start n with
      | .error e => (.error e, p.overrun start n)
      | .ok p => (some <$> p.base.add (start % 0x100000000 * pageSize), p)

/-- What the ledger reports when the run at `pa` is released. -/
def reclaimed (p : FramePool) (pa : PAddr) : Except LedgerError Released := do
  p.ledger.released (← p.frameIndex pa)

/-- The pool after the ledger has released the run at `pa`, its counts not yet adjusted. -/
def reclaim (p : FramePool) (pa : PAddr) : FramePool :=
  match p.frameIndex pa with
  | .ok frame => p.withLedger (p.ledger.cleared frame) (p.ledger.size_cleared frame)
  | .error _ => p

/-- Whether a release of `pa` is passed over: the null address, or memory handed out before the pool
existed. -/
def ignores (p : FramePool) (pa : PAddr) : Bool := pa.isNull || pa < p.base

/-- Takes back the run at `pa`; the answer is the number of frames that became free. -/
def deallocate (p : FramePool) (pa : PAddr) : Except Halt Nat × FramePool :=
  if p.ignores pa then (.ok 0, p)
  else
    match p.reclaimed pa with
    | .error e => (.error (.ledgerCorrupt e), p.reclaim pa)
    | .ok released =>
      let p := { p.reclaim pa with free := p.free + released.cleared }
      if p.runs = 0 then (.error .overflow, p)
      else (.ok released.cleared, { p with runs := p.runs - 1 })

/-- What `deallocate` writes to the log. -/
def deallocateRecords (p : FramePool) (pa : PAddr) : List Record :=
  if pa.isNull then []
  else if pa < p.base then
    [⟨.warn, s!"ignoring free of {pa}: stolen during boot, below the frame pool"⟩]
  else
    match p.reclaimed pa with
    | .error e => [⟨.error, (Halt.ledgerCorrupt e).message⟩]
    | .ok ⟨none, cleared⟩ =>
      [⟨.warn, s!"run at {pa} carries the thread-stack footer; " ++
        s!"released {cleared} contiguous frames"⟩]
    | .ok ⟨some _, _⟩ => []

/-- Replaces the recorded length of the run at `pa` by the thread-stack footer. -/
def markFooter (p : FramePool) (pa : PAddr) : Except LedgerError FramePool := do
  let frame ← p.frameIndex pa
  match h : p.ledger.stampFooter frame with
  | .ok l => return p.withLedger l (Ledger.size_of_stampFooter h)
  | .error e => throw e

/-- Recorded length of the run at `pa`, if one starts there. -/
def runLength? (p : FramePool) (pa : PAddr) : Option Nat :=
  match p.frameIndex pa with
  | .ok frame =>
    match p.ledger.get frame with
    | .start len => some len
    | _ => none
  | .error _ => none

/-- A write over ledger entry `i` that goes past the pool. -/
def strayWrite? (p : FramePool) (i : Nat) (e : Entry) : Option FramePool :=
  if i < p.ledger.size then some (p.withLedger (p.ledger.overwrite i 1 fun _ => e) (by simp))
  else none

end FramePool

/-- How a range of RAM is split into the ledger's frames and the frames of the pool. -/
structure PoolLayout where
  lo : PAddr
  hi : PAddr
  ledgerFrames : Nat
  managed : Nat
  base : PAddr
deriving DecidableEq

namespace PoolLayout

/-- The split of the whole frames between `lo` and `hi`, the ledger lowest. -/
def new (lo hi : PAddr) : Except Halt PoolLayout := do
  let hi := hi.alignDown
  let lo := match lo.alignUp? with
    | some lo => if lo < hi then lo else hi
    | none => hi
  let total := (hi.val - lo.val) / pageSize
  let ledgerFrames ← ledgerFramesFor total
  if total < ledgerFrames then throw .overflow
  let base ← lo.add (ledgerFrames * pageSize)
  return { lo, hi, ledgerFrames, managed := total - ledgerFrames, base }

def record (l : PoolLayout) : Record :=
  ⟨.info, s!"frame allocator: pool {l.lo}..{l.hi}, {l.ledgerFrames} ledger frames, " ++
    s!"{l.managed} frames managed from {l.base}"⟩

/-- RAM with the entries of the new ledger written. -/
def initLedger (l : PoolLayout) (ram : Ram) : Except Halt Ram :=
  ram.zero l.lo (l.managed * entrySize)

def pool (l : PoolLayout) : Except Halt FramePool := FramePool.new l.managed l.base

end PoolLayout
end MipsVm
