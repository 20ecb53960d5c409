import MipsVm.AddressSpace.Basic
import MipsVm.Mapping
import MipsVm.PhysicalMemory

/-! Address spaces and their frames: load, copy, run and destroy. Frames bound before a failure stay
bound, so that destroying the space gives them back. -/
namespace MipsVm

/-- A machine and the address space that a program is being loaded into. -/
structure Loading where
  machine : Machine
  space : AddressSpace

/-- An operation on both. A halt keeps what the space has got so far. -/
abbrev Loader := EStateM Halt Loading

namespace Loader

/-- An operation of the kernel that leaves the space alone. -/
def onMachine {α : Type} (k : Kernel α) : Loader α := fun s =>
  match k s.machine with
  | .ok a machine => .ok a { s with machine }
  | .error halt machine => .error halt { s with machine }

/-- Gives zeroed frames to the declared ones of `segments`, in order, up to the first failure. -/
def bindSegments : List Segment → Loader (Except VmError Unit)
  | [] => return .ok ()
  | segment :: rest => do
    match (← get).space.region? segment with
    | none => bindSegments rest
    | some region =>
      match ← onMachine (Kernel.allocFrames region.npages) with
      | none => return .error .outOfMemory
      | some pa =>
        modify fun s => { s with space := s.space.bind segment pa }
        onMachine (Kernel.zeroFrames pa region.npages)
        bindSegments rest

/-- Gives zeroed frames to every declared region and to the stack. -/
def prepareLoad : Loader (Except VmError Unit) := do
  if (← get).space.hasFrames then onMachine (Kernel.stop .framesAlreadyBound)
  else bindSegments Segment.all

end Loader

namespace Kernel

/-- Declares a program region, with a record of the outcome in the log. -/
def defineRegion (a : AddressSpace) (va : VAddr) (size : Nat) (perms : Permissions) :
    Kernel (Except VmError AddressSpace) := do
  logAll (a.defineRecords va size perms)
  return a.define va size

/-- Ends the load: no translation made while the program text could be written survives. -/
def completeLoad (a : AddressSpace) : Kernel AddressSpace := do
  flushTlb
  return { a with loaded := true }

def freeAll : List PAddr → Kernel Unit
  | [] => pure ()
  | pa :: rest => do
    freeFrames pa
    freeAll rest

/-- Gives every frame of the space back. -/
def destroySpace (a : AddressSpace) : Kernel Unit := freeAll a.boundFrames

/-- Copies the contents of those of `segments` that have frames on both sides. -/
def copySegments (src dst : AddressSpace) : List Segment → Kernel Unit
  | [] => pure ()
  | segment :: rest => do
    match src.region? segment, (dst.region? segment).bind Region.pbase with
    | some ⟨_, npages, some srcBase, _⟩, some dstBase => copyFrames dstBase srcBase npages
    | _, _ => pure ()
    copySegments src dst rest

/-- A space with the same regions, in fresh frames that hold the same bytes, not loaded yet. A
failed copy gives back what it took. -/
def copySpace (a : AddressSpace) : Kernel (Except VmError AddressSpace) := fun m =>
  match Loader.prepareLoad ⟨m, a.layout⟩ with
  | .error halt s => .error halt s.machine
  | .ok (.error e) s => (destroySpace s.space *> pure (.error e) : Kernel _) s.machine
  | .ok (.ok ()) s => (copySegments a s.space Segment.all *> pure (.ok s.space) : Kernel _) s.machine

/-- The processor turns to a process: the buffer does not tell spaces apart, so it is emptied. A
kernel thread has no space and keeps the buffer. -/
def activateSpace : Option AddressSpace → Kernel Unit
  | some _ => flushTlb
  | none => pure ()

/-- The processor leaves a process; the next `activateSpace` does what there is to do. -/
def deactivateSpace (_ : AddressSpace) : Kernel Unit := pure ()

end Kernel
end MipsVm
