import MipsVm.Error
import MipsVm.Log

/-! The RAM left free by the boot loader, handed out frame by frame from its low end. Nothing is
ever given back. -/
namespace MipsVm

structure BootMemory where
  /-- First frame not handed out yet. -/
  next : PAddr
  /-- One past the last frame. -/
  limit : PAddr
deriving DecidableEq

namespace BootMemory

/-- The whole frames between `first` and `last`. -/
def new (first last : PAddr) : BootMemory :=
  match first.alignUp? with
  | some next => ⟨if next ≤ last.alignDown then next else last.alignDown, last.alignDown⟩
  | none => ⟨last.alignDown, last.alignDown⟩

/-- Number of frames left, halting if the cursor has run past the end. -/
def framesLeft (b : BootMemory) : Except Halt Nat :=
  match b.limit.offsetFrom? b.next with
  | some bytes => .ok (bytes / pageSize)
  | none => .error .overflow

/-- Where the cursor stands after `n` more frames, if they are left. -/
def advance? (b : BootMemory) (n : Nat) : Option PAddr :=
  if n * pageSize < 0x100000000 then
    match b.next.add? (n * pageSize) with
    | some next => if next ≤ b.limit then some next else none
    | none => none
  else none

/-- Hands out `n` frames in a row; without enough of them the kernel cannot go on. -/
def take (b : BootMemory) (n : Nat) : Except Halt PAddr × BootMemory :=
  match b.advance? n with
  | some next => (.ok b.next, { b with next })
  | none => (.error .bootMemoryExhausted, b)

/-- What `take` writes to the log. -/
def takeRecords (b : BootMemory) (n : Nat) : Except Halt (List Record) :=
  match b.advance? n with
  | some _ => .ok []
  | none => do
    let left ← b.framesLeft
    return [⟨.error, s!"bootstrap stealer exhausted: wanted {n} frames, {left} left"⟩]

end BootMemory
end MipsVm
