import MipsVm.Machine

/-! Loading the translation buffer. Only these operations change slots, and always with interrupts
masked. -/
namespace MipsVm

/-- What putting a mapping into the buffer writes to the log. -/
def Placement.record (va : VAddr) (pa : PAddr) : Placement → Record
  | .slot index => ⟨.trace, s!"tlb: {va} -> {pa} in slot {index.val}"⟩
  | .random => ⟨.trace, s!"tlb: full, {va} -> {pa} replaces a random slot"⟩

namespace Kernel

/-- Looks at the slots. -/
def readSlots {α : Type} (f : Tlb → α) : Kernel α := do
  note .readSlots
  return f (← get).tlb

/-- Changes slots. -/
def writeSlots (f : Tlb → Tlb) : Kernel Unit := do
  modify fun m => m.setTlb (f m.tlb)
  note .writeSlots

/-- Empties the translation buffer. -/
def flushTlb : Kernel Unit := masked (writeSlots Tlb.flush)

/-- Maps the page of `va` to the frame of `pa`: in the first empty slot, or in the slot that the
hardware chooses. -/
def installMapping (va : VAddr) (pa : PAddr) (dirty : Bool) : Kernel Placement := masked do
  let placement ← readSlots Tlb.nextPlacement
  log (placement.record va pa)
  writeSlots (·.put ⟨.forPage va, .mapping pa dirty⟩ placement)
  return placement

/-- One processor has nobody to ask for a shootdown, of one page or of all. -/
def shootdown (page : Option VAddr) : Kernel Unit := do
  log ⟨.error, match page with
    | some va => s!"vm: tlb shootdown of {va} requested on a uniprocessor"
    | none => "vm: tlb shootdown requested on a uniprocessor"⟩
  throw .shootdownUnsupported

end Kernel
end MipsVm
