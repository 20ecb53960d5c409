/-! Addresses of a 32-bit machine and the 4 KiB pages they fall into. An address is a number below
`2 ^ 32`; an operation whose result would leave that range has no result. -/
namespace MipsVm

/-- Number of bytes in a page, and in the frame of RAM behind it. -/
abbrev pageSize : Nat := 4096

/-- Binary logarithm of `pageSize`. -/
def pageShift : Nat := 12

/-- The bits of an address that name its page. -/
def pageMask : Nat := 0xFFFFF000

/-- Number of pages that hold `bytes` bytes. -/
def pagesFor (bytes : Nat) : Nat := (bytes + (pageSize - 1)) / pageSize

theorem le_pagesFor_mul (bytes : Nat) : bytes ≤ pagesFor bytes * pageSize := by
  simp only [pagesFor, pageSize]
  omega

theorem pagesFor_mul_lt (bytes : Nat) : pagesFor bytes * pageSize < bytes + pageSize := by
  simp only [pagesFor, pageSize]
  omega

/-- What an address points into. -/
inductive Space where
  /-- A bare number, not yet known to be virtual or physical. -/
  | raw
  | virtual
  | physical
deriving DecidableEq, Repr

/-- A byte address in the space `s`. -/
structure Address (s : Space) where
  val : Nat
  isLt : val < 0x100000000 := by omega
deriving DecidableEq

/-- An address as a program or the kernel uses it. -/
abbrev VAddr := Address .virtual

/-- An address of a byte of RAM. -/
abbrev PAddr := Address .physical

namespace Address
variable {s : Space}

@[ext] theorem ext {a b : Address s} (h : a.val = b.val) : a = b := by
  cases a
  cases b
  simp_all

instance : LT (Address s) := ⟨fun a b => a.val < b.val⟩
instance : LE (Address s) := ⟨fun a b => a.val ≤ b.val⟩
instance : Ord (Address s) := ⟨fun a b => compare a.val b.val⟩

instance (a b : Address s) : Decidable (a < b) := Nat.decLt a.val b.val
instance (a b : Address s) : Decidable (a ≤ b) := Nat.decLe a.val b.val

theorem lt_def {a b : Address s} : a < b ↔ a.val < b.val := Iff.rfl
theorem le_def {a b : Address s} : a ≤ b ↔ a.val ≤ b.val := Iff.rfl

/-- Address zero, which no run of frames may start at. -/
def null : Address s := ⟨0, by decide⟩

instance : Inhabited (Address s) := ⟨null⟩

def isNull (a : Address s) : Bool := a.val == 0

/-- The address with number `n`, if there is one. -/
def ofNat? (n : Nat) : Option (Address s) :=
  if h : n < 0x100000000 then some ⟨n, h⟩ else none

/-- The address `n` steps round a space that starts again at zero after its last byte. -/
def wrapping (n : Nat) : Address s := ⟨n % 0x100000000, Nat.mod_lt _ (by decide)⟩

/-- First address of the page that holds `a`. -/
def alignDown (a : Address s) : Address s :=
  ⟨a.val / pageSize * pageSize, by have := a.isLt; simp only [pageSize]; omega⟩

/-- First page boundary at or after `a`, if the space has one. -/
def alignUp? (a : Address s) : Option (Address s) :=
  if h : a.val + (pageSize - 1) < 0x100000000 then
    some ⟨(a.val + (pageSize - 1)) / pageSize * pageSize, by simp only [pageSize] at *; omega⟩
  else none

def isPageAligned (a : Address s) : Bool := a.val % pageSize == 0

/-- Distance of `a` from the start of its page. -/
def pageOffset (a : Address s) : Nat := a.val % pageSize

/-- Index of the page that holds `a`. -/
def pageNumber (a : Address s) : Nat := a.val / pageSize

/-- First address of page `n`; the bits of `n` that no address has are dropped. -/
def ofPageNumber (n : Nat) : Address s := wrapping (n * pageSize)

/-- `a` moved up by `n` bytes. -/
def add? (a : Address s) (n : Nat) : Option (Address s) := ofNat? (a.val + n)

/-- `a` moved down by `n` bytes. -/
def sub? (a : Address s) (n : Nat) : Option (Address s) :=
  if n ≤ a.val then some ⟨a.val - n, by have := a.isLt; omega⟩ else none

/-- Number of bytes from `base` up to `a`. -/
def offsetFrom? (a base : Address s) : Option Nat :=
  if base.val ≤ a.val then some (a.val - base.val) else none

theorem ofNat?_eq_some_iff {n : Nat} {a : Address s} : ofNat? n = some a ↔ a.val = n := by
  have := a.isLt
  simp only [ofNat?]
  split
  · rw [Option.some_inj, Address.ext_iff]
    exact eq_comm
  · simp only [reduceCtorEq, false_iff]
    omega

theorem add?_eq_some_iff {a b : Address s} {n : Nat} : a.add? n = some b ↔ b.val = a.val + n :=
  ofNat?_eq_some_iff

theorem add?_eq_none_iff {a : Address s} {n : Nat} : a.add? n = none ↔ 0x100000000 ≤ a.val + n := by
  simp [add?, ofNat?]

theorem alignDown_le (a : Address s) : a.alignDown ≤ a := Nat.div_mul_le_self a.val pageSize

theorem isPageAligned_iff {a : Address s} : a.isPageAligned = true ↔ pageSize ∣ a.val := by
  simp [isPageAligned, Nat.dvd_iff_mod_eq_zero]

@[simp] theorem isPageAligned_alignDown (a : Address s) : a.alignDown.isPageAligned = true := by
  simp [isPageAligned, alignDown]

theorem alignDown_add_pageOffset (a : Address s) : a.alignDown.val + a.pageOffset = a.val := by
  simp only [alignDown, pageOffset]
  exact Nat.div_add_mod' a.val pageSize

/-- The digit of value `d` in base sixteen, in upper case. -/
def hexDigit (d : Nat) : Char :=
  if d < 10 then Char.ofNat (0x30 + d) else Char.ofNat (0x37 + d)

/-- The low `width` digits of `n` in base sixteen, the most significant first. -/
def hexDigits : Nat → Nat → List Char
  | 0, _ => []
  | width + 1, n => hexDigits width (n / 16) ++ [hexDigit (n % 16)]

/-- Addresses are written as `0x` and eight digits. -/
def text (a : Address s) : String := "0x" ++ String.ofList (hexDigits 8 a.val)

instance : ToString (Address s) := ⟨text⟩

/-- The word that tells the space of an address in diagnostic text. -/
def spaceTag : Space → String
  | .raw => "MemoryAddress"
  | .virtual => "VA"
  | .physical => "PA"

/-- Diagnostic text: the space, then the address in parentheses. -/
def taggedText (a : Address s) : String := spaceTag s ++ "(" ++ a.text ++ ")"

end Address
end MipsVm
