import MipsVm.AddressMap
import MipsVm.Machine

/-! Physical memory: one owner of RAM. Frames come from boot memory until `bootstrap` puts the
ledger into what is left of it, and from the frame pool from then on. What the pool changes in its
ledger is written to the ledger's frames. -/
namespace MipsVm
namespace Kernel

/-- Splits the RAM that boot memory still has into ledger and pool, and allocates from the pool from
then on. This happens once. -/
def bootstrap : Kernel Unit := withFrames fun
  | .pool _ => stop .bootstrappedTwice
  | .boot memory => do
    let layout ← PoolLayout.new memory.next memory.limit
    setRam (← layout.initLedger (← get).ram)
    setLedger layout.lo
    log layout.record
    setSource (.pool (← layout.pool))

/-- Whether the frame pool is in use. -/
def isReady : Kernel Bool := withFrames fun
  | .boot _ => return false
  | .pool _ => return true

/-- Allocates `n` frames in a row. Boot memory without enough of them halts; the pool answers
`none`. -/
def allocFrames (n : Nat) : Kernel (Option PAddr) :=
  if n = 0 then return none
  else withFrames fun
    | .boot memory => do
      logAll (← memory.takeRecords n)
      let (result, memory) := memory.take n
      setSource (.boot memory)
      return some (← result)
    | .pool pool => do
      let (result, next) := pool.allocate n
      setPool pool next
      result

/-- Frees the run at `pa`. Boot memory takes nothing back. -/
def freeFrames (pa : PAddr) : Kernel Unit := withFrames fun
  | .boot _ => return
  | .pool pool => do
    logAll (pool.deallocateRecords pa)
    let (result, next) := pool.deallocate pa
    setPool pool next
    let _ ← result

/-- Allocates `n` frames in a row and gives their kernel address. -/
def allocKernelPages (n : Nat) : Kernel (Option VAddr) := do
  match ← allocFrames n with
  | some pa => return some (← kernelAddr pa)
  | none => return none

/-- Frees the run at a kernel address. -/
def freeKernelPages (va : VAddr) : Kernel Unit :=
  match directMapped? va with
  | some pa => freeFrames pa
  | none => stop (.notDirectMapped va)

/-- The counts of the frame pool, all zero before there is one. -/
def frameStats : Kernel FrameStats := withFrames fun
  | .boot _ => return .zero
  | .pool pool => pool.stats

/-- Checks the ledger and the count of free frames. -/
def auditFrames : Kernel (Except LedgerError FrameStats) := withFrames fun
  | .boot _ => return .ok .zero
  | .pool pool => return pool.audit

/-- Writes `bytes` to RAM from `pa` on. -/
def writeBytes (pa : PAddr) (bytes : Array UInt8) : Kernel Unit := do
  setRam (← (← get).ram.write pa bytes)

/-- The `len` bytes of RAM from `pa` on. -/
def readBytes (pa : PAddr) (len : Nat) : Kernel (Array UInt8) := do
  (← get).ram.read pa len

/-- Fills `n` frames from `pa` on with zeros. -/
def zeroFrames (pa : PAddr) (n : Nat) : Kernel Unit := do
  setRam (← (← get).ram.zero pa (n * pageSize))

/-- Copies `n` frames between runs that do not overlap. -/
def copyFrames (dst src : PAddr) (n : Nat) : Kernel Unit := do
  setRam (← (← get).ram.copy dst src (n * pageSize))

/-- The thread-stack footer as it lies in RAM, the low byte first. -/
def threadStackFooter : Array UInt8 :=
  .ofFn fun i : Fin 4 => UInt8.ofNat (threadStackMagic >>> (8 * i.val))

/-- Marks the run at `pa` as a thread's stack: the footer goes to its first bytes, and over its
length in the ledger if the ledger has the run. -/
def markThreadStack (pa : PAddr) : Kernel (Except LedgerError Unit) := withFrames fun
  | .boot _ => do
    writeBytes pa threadStackFooter
    return .ok ()
  | .pool pool =>
    match pool.markFooter pa with
    | .error e => return .error e
    | .ok marked => do
      setPool pool marked
      writeBytes pa threadStackFooter
      return .ok ()

end Kernel
end MipsVm
