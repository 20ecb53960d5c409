import MipsVm.AddressSpace.Basic
import MipsVm.PhysicalMemory

/-! Bytes between the kernel and user memory. A range must lie in one segment. -/
namespace MipsVm
namespace Kernel

/-- Writes `bytes` to user memory at `dst`. -/
def copyOut (a : AddressSpace) (dst : VAddr) (bytes : Array UInt8) :
    Kernel (Except VmError Unit) := do
  if bytes.isEmpty then return .ok ()
  match ← a.span dst bytes.size with
  | .error e => return .error e
  | .ok pa =>
    writeBytes pa bytes
    return .ok ()

/-- The `len` bytes of user memory from `src` on. -/
def copyIn (a : AddressSpace) (src : VAddr) (len : Nat) :
    Kernel (Except VmError (Array UInt8)) := do
  if len = 0 then return .ok #[]
  match ← a.span src len with
  | .error e => return .error e
  | .ok pa => return .ok (← readBytes pa len)

end Kernel
end MipsVm
