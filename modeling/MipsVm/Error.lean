import MipsVm.Address

/-! What can go wrong, by cause. A `VmError` is answered to the caller, a `LedgerError` names the
first damage found in the frame ledger, and a `Halt` stops the operation where it stands: what
was changed before it stays changed. -/
namespace MipsVm

/-- Kernel error numbers. -/
inductive Errno where
  | unimplemented
  | outOfMemory
  | badAddress
  | invalidArgument
deriving DecidableEq, Repr

def Errno.code : Errno → Nat
  | .unimplemented => 2
  | .outOfMemory => 3
  | .badAddress => 6
  | .invalidArgument => 8

/-- Why a request to the memory system was turned down. -/
inductive VmError where
  | outOfMemory
  | invalidFaultType (raw : Nat)
  | tooManyRegions
  | noAddressSpace
  | unmapped (va : VAddr)
  | readOnly (page : VAddr)
  | invalidRange (va : VAddr)
deriving DecidableEq

namespace VmError

def errno : VmError → Errno
  | .outOfMemory => .outOfMemory
  | .invalidFaultType _ => .invalidArgument
  | .tooManyRegions => .unimplemented
  | .noAddressSpace | .unmapped _ | .readOnly _ | .invalidRange _ => .badAddress

/-- Whether the process whose access raised the error is to be killed; the other errors are
reported to it. -/
def terminatesProcess : VmError → Bool
  | .noAddressSpace | .unmapped _ | .readOnly _ => true
  | _ => false

def message : VmError → String
  | .outOfMemory => "out of physical memory"
  | .invalidFaultType raw => s!"unknown fault type {raw}"
  | .tooManyRegions => "address space already holds two program regions"
  | .noAddressSpace => "no address space bound to the faulting context"
  | .unmapped va => s!"access to unmapped address {va}"
  | .readOnly page => s!"write to read-only page at {page}"
  | .invalidRange va => s!"user range starting at {va} leaves its region"

end VmError

/-- Damage to the frame ledger, or an address that no run of frames starts at. -/
inductive LedgerError where
  | doubleFree (frame : Nat)
  | notRunStart (frame : Nat)
  | lengthMismatch (frame declared cleared : Nat)
  | strayContinuation (frame : Nat)
  | truncatedRun (frame declared found : Nat)
  | freeCountMismatch (counted recorded : Nat)
  | outsidePool (pa : PAddr)
  | unaligned (pa : PAddr)
deriving DecidableEq

def LedgerError.message : LedgerError → String
  | .doubleFree frame => s!"frame {frame} freed but not allocated (double free?)"
  | .notRunStart frame => s!"frame {frame} freed but is in the middle of a run"
  | .lengthMismatch frame declared cleared =>
    s!"run at frame {frame} declared {declared} frames but {cleared} were contiguous"
  | .strayContinuation frame => s!"frame {frame} continues a run that never started"
  | .truncatedRun frame declared found =>
    s!"run at frame {frame} declared {declared} frames but the ledger ends after {found}"
  | .freeCountMismatch counted recorded =>
    s!"ledger counts {counted} free frames but the allocator recorded {recorded}"
  | .outsidePool pa => s!"{pa} is outside the managed frame pool"
  | .unaligned pa => s!"{pa} is not frame aligned"

/-- Why the kernel stopped an operation. -/
inductive Halt where
  /-- A sum, product or difference left its machine word. -/
  | overflow
  /-- An index past the end of a table. -/
  | outOfBounds
  /-- A frame pool whose first frame is not on a frame boundary. -/
  | misalignedPool
  /-- A value above the largest one its field can hold. -/
  | fieldRange (max : Nat)
  | frameInUse
  | ledgerCorrupt (cause : LedgerError)
  | bootMemoryExhausted
  | bootstrappedTwice
  | beyondDirectMap
  | notDirectMapped (va : VAddr)
  | framesAlreadyBound
  | stackUnbound
  | shootdownUnsupported
  | outsideRam (pa : PAddr)
  | noRam
  | ramTooLarge (frames : Nat)
deriving DecidableEq

def Halt.message : Halt → String
  | .overflow => "arithmetic overflow"
  | .outOfBounds => "index out of bounds"
  | .misalignedPool => "frame pool base is not page aligned"
  | .fieldRange max => s!"value out of bounds [0, {max}]"
  | .frameInUse => "marking a frame that is in use"
  | .ledgerCorrupt cause => s!"frame ledger corrupt: {cause.message}"
  | .bootMemoryExhausted => "out of memory during bootstrap"
  | .bootstrappedTwice => "frame allocator bootstrapped twice"
  | .beyondDirectMap => "physical address beyond KSEG0"
  | .notDirectMapped va => s!"free_kpages: {va} is not a direct-mapped kernel address"
  | .framesAlreadyBound => "as: prepare_load on an address space that already holds frames"
  | .stackUnbound => "as: define_stack before prepare_load"
  | .shootdownUnsupported => "vm: tlb shootdown is not supported"
  | .outsideRam pa => s!"{pa.taggedText} is outside simulated RAM"
  | .noRam => "SimRam needs at least one frame"
  | .ramTooLarge frames => s!"SimRam of {frames} frames is too large"

/-- Largest size of a table or buffer that an index can count, plus one. -/
abbrev sizeLimit : Nat := 0x10000000000000000

/-- `a` moved up by `n` bytes, halting past the last address. -/
def Address.add {s : Space} (a : Address s) (n : Nat) : Except Halt (Address s) :=
  match a.add? n with
  | some b => .ok b
  | none => .error .overflow

theorem Address.add_eq_ok_iff {s : Space} {a b : Address s} {n : Nat} :
    a.add n = .ok b ↔ b.val = a.val + n := by
  rw [← Address.add?_eq_some_iff, Address.add]
  split <;> simp_all

end MipsVm
