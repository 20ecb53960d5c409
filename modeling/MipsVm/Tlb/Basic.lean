import MipsVm.Tlb.Entry

/-! The translation buffer: 64 slots loaded by software. A write that names no slot replaces the
slot that the hardware's replacement order gives. -/
namespace MipsVm

structure Tlb where
  slots : Vector TlbEntry tlbSlots
  /-- How many writes left the choice of the slot to the hardware. -/
  randomWrites : Nat
  /-- The replacement order: the slot replaced by each random write, by its number. -/
  victim : Nat → Fin tlbSlots

/-- Where an entry was put. -/
inductive Placement where
  /-- The first slot that held no valid entry. -/
  | slot (index : Fin tlbSlots)
  /-- All slots were valid, and the hardware chose. -/
  | random
deriving DecidableEq, Repr

namespace Tlb

/-- The contents of a buffer with no valid entry. -/
def emptySlots : Vector TlbEntry tlbSlots := .ofFn TlbEntry.invalid

/-- A buffer with no valid entry and the given replacement order. -/
def empty (victim : Nat → Fin tlbSlots) : Tlb := ⟨emptySlots, 0, victim⟩

/-- Number of valid entries. -/
def validCount (t : Tlb) : Nat := t.slots.countP TlbEntry.isValid

/-- The first valid entry that matches the page of `va`. -/
def probe? (t : Tlb) (va : VAddr) : Option TlbEntry :=
  t.slots.find? fun e => e.isValid && e.hi.vpn == va.pageNumber

def read (t : Tlb) (slot : Nat) : Except Halt TlbEntry :=
  if h : slot < tlbSlots then .ok t.slots[slot] else .error .outOfBounds

def set (t : Tlb) (slot : Fin tlbSlots) (e : TlbEntry) : Tlb :=
  { t with slots := t.slots.set slot e }

def write (t : Tlb) (slot : Nat) (e : TlbEntry) : Except Halt Tlb :=
  if h : slot < tlbSlots then .ok (t.set ⟨slot, h⟩ e) else .error .outOfBounds

/-- Writes `e` over the next slot of the replacement order. -/
def writeRandom (t : Tlb) (e : TlbEntry) : Tlb :=
  { t.set (t.victim t.randomWrites) e with randomWrites := t.randomWrites + 1 }

/-- The lowest slot that holds no valid entry. -/
def firstInvalid? (t : Tlb) : Option (Fin tlbSlots) := t.slots.findFinIdx? fun e => !e.isValid

theorem firstInvalid?_eq_some_iff {t : Tlb} {i : Fin tlbSlots} :
    t.firstInvalid? = some i ↔
      t.slots[i].isValid = false ∧ ∀ j : Fin tlbSlots, j < i → t.slots[j].isValid = true := by
  obtain ⟨⟨entries, hsize⟩, writes, victim⟩ := t
  simp only [firstInvalid?, Vector.findFinIdx?_mk, Option.map_eq_some_iff,
    Array.findFinIdx?_eq_some_iff]
  constructor
  · rintro ⟨k, ⟨hk, hlow⟩, rfl⟩
    refine ⟨by simpa using hk, fun j hj => ?_⟩
    simpa using hlow ⟨j.val, by omega⟩ hj
  · rintro ⟨hi, hlow⟩
    refine ⟨⟨i.val, by omega⟩, ⟨by simpa using hi, fun j hj => ?_⟩, rfl⟩
    simpa using hlow ⟨j.val, by omega⟩ hj

theorem firstInvalid?_eq_none_iff {t : Tlb} :
    t.firstInvalid? = none ↔ ∀ i : Fin tlbSlots, t.slots[i].isValid = true := by
  rw [firstInvalid?, Vector.findFinIdx?_eq_none_iff]
  constructor
  · intro h i
    simpa using h t.slots[i] (Vector.getElem_mem _)
  · intro h e he
    obtain ⟨i, hi, rfl⟩ := Vector.getElem_of_mem he
    simpa using h ⟨i, hi⟩

/-- Where the next entry goes. -/
def nextPlacement (t : Tlb) : Placement :=
  match t.firstInvalid? with
  | some slot => .slot slot
  | none => .random

def put (t : Tlb) (e : TlbEntry) : Placement → Tlb
  | .slot i => t.set i e
  | .random => t.writeRandom e

/-- Empties every slot. -/
def flush (t : Tlb) : Tlb := { t with slots := emptySlots }

/-- Fills the slots from `first` up to `last` with writable mappings of the page of their own number
to the frame of that number. -/
def fillIdentity (t : Tlb) (first last : Nat) : Tlb :=
  { t with
    slots := .ofFn fun i =>
      if first ≤ i.val ∧ i.val < last then
        ⟨.forPage (.ofPageNumber i), .mapping (.ofPageNumber i) true⟩
      else t.slots[i] }

end Tlb
end MipsVm
