/-! The interrupt-enable flag of the processor and the guards that mask it. A guard remembers the
flag it found, and dropping the guard enables interrupts again only if they were enabled then. -/
namespace MipsVm

structure Interrupts where
  enabled : Bool
  /-- How many times interrupts were disabled. -/
  disables : Nat
deriving DecidableEq, Repr

structure InterruptGuard where
  wereEnabled : Bool
deriving DecidableEq, Repr

namespace Interrupts

def initial : Interrupts := ⟨true, 0⟩

/-- Masks interrupts; the answer is whether they were enabled. -/
def disable (i : Interrupts) : Bool × Interrupts := (i.enabled, ⟨false, i.disables + 1⟩)

def enable (i : Interrupts) : Interrupts := { i with enabled := true }

def guard (i : Interrupts) : InterruptGuard × Interrupts := (⟨i.disable.1⟩, i.disable.2)

def drop (i : Interrupts) (g : InterruptGuard) : Interrupts := if g.wereEnabled then i.enable else i

theorem enabled_drop (i : Interrupts) (g : InterruptGuard) :
    (i.drop g).enabled = (g.wereEnabled || i.enabled) := by
  obtain ⟨wereEnabled⟩ := g
  cases wereEnabled <;> rfl

theorem disables_drop (i : Interrupts) (g : InterruptGuard) :
    (i.drop g).disables = i.disables := by
  obtain ⟨wereEnabled⟩ := g
  cases wereEnabled <;> rfl

end Interrupts
end MipsVm
