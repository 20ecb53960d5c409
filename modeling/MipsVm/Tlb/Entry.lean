import MipsVm.AddressMap
import MipsVm.BitField

/-! One slot of the translation buffer: a high word that says which page it matches and a low word
that says which frame the page goes to. Bits outside the named fields are kept as they are. -/
namespace MipsVm

/-- Number of slots in the translation buffer. -/
abbrev tlbSlots : Nat := 64

/-- The page that a slot matches. -/
structure EntryHi where
  bits : BitVec 32
deriving DecidableEq

namespace EntryHi

/-- Address-space number, which this system leaves zero. -/
def pidField : BitField := ⟨6, 6⟩

def vpnField : BitField := ⟨12, 20⟩

def pid (e : EntryHi) : Nat := pidField.read e.bits

/-- Number of the page matched. -/
def vpn (e : EntryHi) : Nat := vpnField.read e.bits

def setPid (e : EntryHi) (value : Nat) : Except Halt EntryHi :=
  EntryHi.mk <$> pidField.set e.bits value

def setVpn (e : EntryHi) (value : Nat) : Except Halt EntryHi :=
  EntryHi.mk <$> vpnField.set e.bits value

/-- The page matched, as an address. -/
def page (e : EntryHi) : VAddr := .ofPageNumber e.vpn

/-- Matches the page that holds `va`. -/
def forPage (va : VAddr) : EntryHi := ⟨vpnField.write 0 va.pageNumber⟩

/-- Number of the page that empty slot 0 is given; the page lies in the direct map, where addresses
never reach the buffer. -/
def firstUnmatched : Nat := kseg0 / pageSize

/-- Matches nothing. Each slot is given its own page, since two equal high words would be a machine
check. -/
def unmatched (slot : Fin tlbSlots) : EntryHi := ⟨vpnField.write 0 (firstUnmatched + slot)⟩

/-- `unmatched` for any number, of which the low 32 bits count; a page past the last one halts. -/
def unmatched? (slot : Nat) : Except Halt EntryHi :=
  if firstUnmatched + slot % 0x100000000 < 0x100000000 then
    setVpn ⟨0⟩ (firstUnmatched + slot % 0x100000000)
  else .error .overflow

/-- The pages of the empty slots have numbers that fit into the field. -/
theorem firstUnmatched_add_lt (slot : Fin tlbSlots) :
    firstUnmatched + slot.val < patterns vpnField.width := by
  have hslot := slot.isLt
  simp only [firstUnmatched, vpnField, patterns, kseg0, pageSize, tlbSlots] at *
  omega

theorem unmatched?_eq (slot : Fin tlbSlots) : unmatched? slot = .ok (unmatched slot) := by
  have hfits := firstUnmatched_add_lt slot
  have hword : firstUnmatched + slot.val < 0x100000000 := by
    simp only [vpnField, patterns] at hfits
    omega
  have hslot : slot.val % 0x100000000 = slot.val :=
    Nat.mod_eq_of_lt (Nat.lt_of_le_of_lt (Nat.le_add_left ..) hword)
  rw [unmatched?, hslot, if_pos hword, setVpn, vpnField.set_of_lt _ hfits]
  rfl

end EntryHi

/-- The frame that a slot maps to, and how it may be used. -/
structure EntryLo where
  bits : BitVec 32
deriving DecidableEq

namespace EntryLo

def globalField : BitField := ⟨8, 1⟩
def validField : BitField := ⟨9, 1⟩
def dirtyField : BitField := ⟨10, 1⟩
def nocacheField : BitField := ⟨11, 1⟩
def pfnField : BitField := ⟨12, 20⟩

/-- Whether the address-space number is left out of the match. -/
def global (e : EntryLo) : Bool := globalField.flag e.bits

def valid (e : EntryLo) : Bool := validField.flag e.bits

/-- Whether the page may be written; a store through a clean entry traps. -/
def dirty (e : EntryLo) : Bool := dirtyField.flag e.bits

def nocache (e : EntryLo) : Bool := nocacheField.flag e.bits

/-- Number of the frame mapped to. -/
def pfn (e : EntryLo) : Nat := pfnField.read e.bits

def setGlobal (e : EntryLo) (value : Bool) : EntryLo := ⟨globalField.setFlag e.bits value⟩
def setValid (e : EntryLo) (value : Bool) : EntryLo := ⟨validField.setFlag e.bits value⟩
def setDirty (e : EntryLo) (value : Bool) : EntryLo := ⟨dirtyField.setFlag e.bits value⟩
def setNocache (e : EntryLo) (value : Bool) : EntryLo := ⟨nocacheField.setFlag e.bits value⟩
def setPfn (e : EntryLo) (value : Nat) : Except Halt EntryLo :=
  EntryLo.mk <$> pfnField.set e.bits value

/-- The frame mapped to, as an address. -/
def frame (e : EntryLo) : PAddr := .ofPageNumber e.pfn

/-- A valid mapping to the frame that holds `pa`. -/
def mapping (pa : PAddr) (dirty : Bool) : EntryLo :=
  EntryLo.setDirty (EntryLo.setValid ⟨pfnField.write 0 pa.pageNumber⟩ true) dirty

end EntryLo

structure TlbEntry where
  hi : EntryHi
  lo : EntryLo
deriving DecidableEq

namespace TlbEntry

def isValid (e : TlbEntry) : Bool := e.lo.valid

/-- The contents of an empty slot. -/
def invalid (slot : Fin tlbSlots) : TlbEntry := ⟨.unmatched slot, ⟨0⟩⟩

/-- `invalid` for any number, halting as `EntryHi.unmatched?` does. -/
def invalid? (slot : Nat) : Except Halt TlbEntry := return ⟨← EntryHi.unmatched? slot, ⟨0⟩⟩

theorem invalid?_eq (slot : Fin tlbSlots) : invalid? slot = .ok (invalid slot) := by
  rw [invalid?, EntryHi.unmatched?_eq]
  rfl

end TlbEntry
end MipsVm
