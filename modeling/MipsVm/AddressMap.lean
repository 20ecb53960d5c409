import MipsVm.Error

/-! The fixed virtual address map of the machine: user space below `kseg0`, then a window of 512 MiB
through which the kernel sees RAM directly, then its uncached twin and the mapped kernel segment. -/
namespace MipsVm

def kuseg : Nat := 0
abbrev kseg0 : Nat := 0x80000000
abbrev kseg1 : Nat := 0xA0000000
abbrev kseg2 : Nat := 0xC0000000

/-- Bytes of RAM that the direct map reaches. -/
abbrev directMapSize : Nat := kseg1 - kseg0

/-- One past the last user address. -/
abbrev userTop : Nat := kseg0

/-- Pages of a user stack. -/
abbrev userStackPages : Nat := 12

abbrev userStackSize : Nat := userStackPages * pageSize

/-- The user stack grows down from here. -/
def userStackTop : VAddr := ⟨userTop, by decide⟩

def userStackBase : VAddr := ⟨userTop - userStackSize, by decide⟩

/-- Number of regions that a program can declare beside its stack. -/
def maxProgramRegions : Nat := 2

/-- The kernel's virtual address of the byte at `pa`; only the direct map has one. -/
def kernelAddr (pa : PAddr) : Except Halt VAddr :=
  if h : pa.val < directMapSize then
    .ok ⟨kseg0 + pa.val, by simp only [directMapSize, kseg0, kseg1] at *; omega⟩
  else .error .beyondDirectMap

/-- The byte of RAM behind a kernel address, if `va` is in the direct map. -/
def directMapped? (va : VAddr) : Option PAddr :=
  if kseg0 ≤ va.val ∧ va.val < kseg1 then some ⟨va.val - kseg0, by have := va.isLt; omega⟩ else none

theorem kernelAddr_eq_ok_iff {pa : PAddr} {va : VAddr} :
    kernelAddr pa = .ok va ↔ directMapped? va = some pa := by
  have := pa.isLt
  simp only [kernelAddr, directMapped?, directMapSize, kseg0, kseg1]
  split <;> split <;> simp_all [Address.ext_iff] <;> omega

theorem directMapped?_eq_none_iff {va : VAddr} :
    directMapped? va = none ↔ va.val < kseg0 ∨ kseg1 ≤ va.val := by
  simp only [directMapped?, kseg0, kseg1]
  split <;> simp <;> omega

end MipsVm
