import MipsVm.AddressSpace.Basic
import MipsVm.Mapping

/-! Misses of the translation buffer. Nothing is ever paged in: a miss is resolved at once from the
current address space, or the process has no right to the address. -/
namespace MipsVm

/-- What the processor trapped on. -/
inductive FaultKind where
  /-- A load from a page that no entry matches. -/
  | read
  /-- A store to a page that no entry matches. -/
  | write
  /-- A store through a clean entry. -/
  | readOnly
deriving DecidableEq, Repr

namespace FaultKind

def code : FaultKind → Nat
  | .read => 0
  | .write => 1
  | .readOnly => 2

def ofCode (raw : Nat) : Except VmError FaultKind :=
  match raw with
  | 0 => .ok .read
  | 1 => .ok .write
  | 2 => .ok .readOnly
  | _ => .error (.invalidFaultType raw)

def name : FaultKind → String
  | .read => "Read"
  | .write => "Write"
  | .readOnly => "ReadOnly"

end FaultKind

/-- The mapping that answers a miss. -/
structure Resolution where
  page : VAddr
  frame : PAddr
  segment : Segment
  dirty : Bool
  placement : Placement
deriving DecidableEq

def Resolution.record (r : Resolution) : Record :=
  ⟨.debug, s!"fault: {r.page} -> {r.frame} ({r.segment.name}, dirty={r.dirty})"⟩

namespace Kernel

/-- Resolves a miss at `addr` for the current address space, if there is one. All pages are writable
but those of a loaded program's text. -/
def resolveMiss (space : Option AddressSpace) (kind : FaultKind) (addr : VAddr) :
    Kernel (Except VmError Resolution) := do
  let page := addr.alignDown
  log ⟨.debug, s!"fault: {kind.name} at {addr}"⟩
  if kind = .readOnly then return .error (.readOnly page)
  match space with
  | none => return .error .noAddressSpace
  | some a =>
    match ← a.translate page with
    | none => return .error (.unmapped addr)
    | some ⟨segment, frame⟩ =>
      let dirty := !(segment == .text && a.loaded)
      let placement ← installMapping page frame dirty
      let resolution := { page, frame, segment, dirty, placement }
      log resolution.record
      return .ok resolution

/-- Handles an exception of raw type `code` at `addr`. -/
def fault (space : Option AddressSpace) (code : Nat) (addr : VAddr) :
    Kernel (Except VmError Resolution) :=
  match FaultKind.ofCode code with
  | .error e => return .error e
  | .ok kind => resolveMiss space kind addr

/-- `fault`, answering 0 or an error number. -/
def faultErrno (space : Option AddressSpace) (code : Nat) (addr : VAddr) : Kernel Nat := do
  match ← fault space code addr with
  | .ok _ => return 0
  | .error e => return e.errno.code

end Kernel
end MipsVm
