import MipsVm.Error

/-! The bytes of RAM, from physical address 0 upwards. RAM is stored by frames, and is read and
written through two views: the byte at an address and the change of a range of bytes. -/
namespace MipsVm

abbrev Page := Vector UInt8 pageSize

def Page.zero : Page := .replicate pageSize 0

/-- The page `number` with `f i` in the `i`-th of `len` bytes from `start` on. -/
def Page.update (page : Page) (number start len : Nat) (f : Nat → UInt8) : Page :=
  .ofFn fun j =>
    let i := number * pageSize + j.val
    if start ≤ i ∧ i < start + len then f (i - start) else page[j]

structure Ram where
  pages : Array Page

namespace Ram

/-- Number of bytes. -/
def size (r : Ram) : Nat := r.pages.size * pageSize

/-- Largest number of bytes that one block of memory can have. -/
def maxSize : Nat := 0x7FFFFFFFFFFFF000

/-- RAM of `frames` frames, all zero. -/
def new (frames : Nat) : Except Halt Ram :=
  if frames = 0 then .error .noRam
  else if sizeLimit ≤ frames * pageSize then .error .overflow
  else if maxSize < frames * pageSize then .error (.ramTooLarge frames)
  else .ok ⟨.replicate frames .zero⟩

/-- One past the last byte, in 32 bits. -/
def limit (r : Ram) : PAddr := .wrapping r.size

/-- The byte at `i`; there is nothing but zeros past the end. -/
def byte (r : Ram) (i : Nat) : UInt8 :=
  match r.pages[i / pageSize]? with
  | some page =>
    have : i % pageSize < pageSize := Nat.mod_lt i (by decide)
    page[i % pageSize]
  | none => 0

/-- Halts unless there is a byte at `pa`. -/
def reach (r : Ram) (pa : PAddr) : Except Halt Unit :=
  if pa.val < r.size then .ok () else .error (.outsideRam pa)

/-- RAM with each page `p` of the `n` pages from `first` on changed by `g p`. -/
def modifyPages (r : Ram) (first n : Nat) (g : Nat → Page → Page) : Ram :=
  ⟨n.fold (fun k _ pages => pages.modify (first + k) (g (first + k))) r.pages⟩

/-- RAM with `f i` in the `i`-th of `len` bytes from `start` on; bytes past the end are lost. -/
def update (r : Ram) (start len : Nat) (f : Nat → UInt8) : Ram :=
  r.modifyPages (start / pageSize) (pagesFor (start % pageSize + len)) fun p page =>
    page.update p start len f

@[simp] theorem size_modifyPages (r : Ram) (first n : Nat) (g : Nat → Page → Page) :
    (r.modifyPages first n g).size = r.size := by
  simp only [size, modifyPages]
  congr 1
  induction n with
  | zero => rfl
  | succ n ih => rw [Nat.fold_succ, Array.size_modify, ih]

@[simp] theorem size_update (r : Ram) (start len : Nat) (f : Nat → UInt8) :
    (r.update start len f).size = r.size := size_modifyPages ..

theorem getElem?_modifyPages (r : Ram) (first n : Nat) (g : Nat → Page → Page) (p : Nat) :
    (r.modifyPages first n g).pages[p]? =
      if first ≤ p ∧ p < first + n then r.pages[p]?.map (g p) else r.pages[p]? := by
  simp only [modifyPages]
  induction n with
  | zero => rw [if_neg (by omega), Nat.fold_zero]
  | succ n ih =>
    rw [Nat.fold_succ, Array.getElem?_modify]
    by_cases hp : first + n = p
    · subst hp
      rw [if_pos rfl, if_pos (by omega), ih, if_neg (by omega)]
    · have h : (first ≤ p ∧ p < first + (n + 1)) ↔ (first ≤ p ∧ p < first + n) := by omega
      simp only [if_neg hp, h, ih]

/-- A byte of the updated range is given by `f`, and every other byte is as it was. -/
theorem byte_update (r : Ram) (start len : Nat) (f : Nat → UInt8) (i : Nat) :
    (r.update start len f).byte i =
      if start ≤ i ∧ i < start + len ∧ i < r.size then f (i - start) else r.byte i := by
  have hi : i / pageSize * pageSize + i % pageSize = i := Nat.div_add_mod' i pageSize
  simp only [byte, update, getElem?_modifyPages]
  by_cases hb : i / pageSize < r.pages.size
  · have hs : i < r.size := by
      simp only [size, pageSize] at *
      omega
    rw [Array.getElem?_eq_getElem hb]
    by_cases ht : start / pageSize ≤ i / pageSize ∧
        i / pageSize < start / pageSize + pagesFor (start % pageSize + len)
    · simp [if_pos ht, Page.update, hi, hs]
    · rw [if_neg ht, if_neg]
      simp only [pagesFor, pageSize] at *
      omega
  · have hs : ¬ i < r.size := by
      simp only [size, pageSize] at *
      omega
    simp [Array.getElem?_eq_none (Nat.not_lt.mp hb), hs]

/-- RAM with zeros in the `n` whole pages from page `first` on, all of them one shared page. -/
def zeroPages (r : Ram) (first n : Nat) : Ram := r.modifyPages first n fun _ _ => .zero

/-- Zeroing whole pages is the change of all their bytes to zero. -/
theorem zeroPages_eq_update (r : Ram) (first n : Nat) :
    r.zeroPages first n = r.update (first * pageSize) (n * pageSize) fun _ => 0 := by
  have hpages : (r.zeroPages first n).pages =
      (r.update (first * pageSize) (n * pageSize) fun _ => 0).pages := by
    apply Array.ext_getElem?
    intro p
    have hfirst : first * pageSize / pageSize = first := Nat.mul_div_cancel _ (by decide)
    have hcount : pagesFor (first * pageSize % pageSize + n * pageSize) = n := by
      simp only [pagesFor, pageSize]
      omega
    rw [zeroPages, update, getElem?_modifyPages, getElem?_modifyPages, hfirst, hcount]
    split
    · have hpage : (fun _ : Page => Page.zero) =
          fun page => page.update p (first * pageSize) (n * pageSize) fun _ => 0 := by
        funext page
        apply Vector.ext
        intro j hj
        have hin : first * pageSize ≤ p * pageSize + j ∧
            p * pageSize + j < first * pageSize + n * pageSize := by
          simp only [pageSize] at *
          omega
        rw [Page.zero, Vector.getElem_replicate, Page.update, Vector.getElem_ofFn]
        simp only [if_pos hin]
      rw [hpage]
    · rfl
  exact congrArg Ram.mk hpages

/-- Writes zeros to the `len` bytes from `pa` on. -/
def zero (r : Ram) (pa : PAddr) (len : Nat) : Except Halt Ram := do
  r.reach pa
  return if pa.isPageAligned && len % pageSize == 0 then
      r.zeroPages (pa.val / pageSize) (len / pageSize)
    else r.update pa.val len fun _ => 0

theorem zero_eq (r : Ram) (pa : PAddr) (len : Nat) :
    r.zero pa len = (do r.reach pa; return r.update pa.val len fun _ => 0) := by
  simp only [zero]
  split
  · rename_i h
    simp only [Address.isPageAligned, Bool.and_eq_true, beq_iff_eq] at h
    rw [zeroPages_eq_update, Nat.div_mul_cancel (Nat.dvd_of_mod_eq_zero h.1),
      Nat.div_mul_cancel (Nat.dvd_of_mod_eq_zero h.2)]
  · rfl

/-- Writes `bytes` from `pa` on. -/
def write (r : Ram) (pa : PAddr) (bytes : Array UInt8) : Except Halt Ram := do
  r.reach pa
  return r.update pa.val bytes.size fun i => bytes.getD i 0

/-- The `len` bytes from `pa` on. -/
def read (r : Ram) (pa : PAddr) (len : Nat) : Except Halt (Array UInt8) := do
  r.reach pa
  return .ofFn fun i : Fin len => r.byte (pa.val + i)

/-- Copies `len` bytes between ranges that do not overlap. -/
def copy (r : Ram) (dst src : PAddr) (len : Nat) : Except Halt Ram := do
  r.reach src
  r.reach dst
  return r.update dst.val len fun i => r.byte (src.val + i)

end Ram
end MipsVm
