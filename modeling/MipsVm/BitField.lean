import MipsVm.Error

/-! Numbers packed into a machine word. Reading a field after writing it gives the value written,
and a field that shares no bit with it keeps its value. Fields side by side over all bits of a word
tell it apart from every other. -/
namespace MipsVm

/-- The `width` bits of a word from bit `offset` upwards. -/
structure BitField where
  offset : Nat
  width : Nat
deriving DecidableEq, Repr

/-- Number of patterns of `k` bits. -/
def patterns (k : Nat) : Nat := 1 <<< k

theorem patterns_add (j k : Nat) : patterns (j + k) = patterns j * patterns k := by
  simp only [patterns, Nat.one_shiftLeft, Nat.pow_add]

theorem patterns_pos (k : Nat) : 0 < patterns k := by
  simp only [patterns, Nat.one_shiftLeft, Nat.two_pow_pos]

theorem toNat_lt_patterns {n : Nat} (word : BitVec n) : word.toNat < patterns n := by
  simpa only [patterns, Nat.one_shiftLeft] using word.isLt

namespace BitField
variable {n : Nat}

/-- The largest value that the field holds. -/
def max (f : BitField) : Nat := patterns f.width - 1

def read (f : BitField) (word : BitVec n) : Nat := word.toNat / patterns f.offset % patterns f.width

/-- The word with `value` in the field and every other bit as it was. -/
def write (f : BitField) (word : BitVec n) (value : Nat) : BitVec n :=
  BitVec.ofNat n (word.toNat / patterns (f.offset + f.width) * patterns (f.offset + f.width) +
    value * patterns f.offset + word.toNat % patterns f.offset)

/-- `write`, halting on a value that does not fit. -/
def set (f : BitField) (word : BitVec n) (value : Nat) : Except Halt (BitVec n) :=
  if value ≤ f.max then .ok (f.write word value) else .error (.fieldRange f.max)

/-- A field of one bit as a truth value. -/
def flag (f : BitField) (word : BitVec n) : Bool := f.read word == 1

def setFlag (f : BitField) (word : BitVec n) (value : Bool) : BitVec n := f.write word value.toNat

theorem read_lt (f : BitField) (word : BitVec n) : f.read word < patterns f.width :=
  Nat.mod_lt _ (patterns_pos _)

theorem low_lt (f : BitField) (word : Nat) {value : Nat} (hv : value < patterns f.width) :
    value * patterns f.offset + word % patterns f.offset < patterns (f.offset + f.width) := by
  have h₁ := Nat.mod_lt word (patterns_pos f.offset)
  have h₂ : (value + 1) * patterns f.offset ≤ patterns f.width * patterns f.offset :=
    Nat.mul_le_mul_right _ hv
  rw [patterns_add, Nat.mul_comm (patterns f.offset)]
  rw [Nat.succ_mul] at h₂
  omega

/-- A value that fits leaves the word within its width. -/
theorem toNat_write (f : BitField) (word : BitVec n) {value : Nat}
    (hf : f.offset + f.width ≤ n) (hv : value < patterns f.width) :
    (f.write word value).toNat =
      word.toNat / patterns (f.offset + f.width) * patterns (f.offset + f.width) +
        value * patterns f.offset + word.toNat % patterns f.offset := by
  have hn : patterns n = patterns (n - (f.offset + f.width)) * patterns (f.offset + f.width) := by
    rw [← patterns_add, Nat.sub_add_cancel hf]
  have hlow := f.low_lt word.toNat hv
  have hhigh : word.toNat / patterns (f.offset + f.width) <
      patterns (n - (f.offset + f.width)) := by
    rw [Nat.div_lt_iff_lt_mul (patterns_pos _), ← hn]
    exact toNat_lt_patterns word
  have h : (word.toNat / patterns (f.offset + f.width) + 1) * patterns (f.offset + f.width) ≤
      patterns (n - (f.offset + f.width)) * patterns (f.offset + f.width) :=
    Nat.mul_le_mul_right _ hhigh
  rw [← hn, Nat.succ_mul] at h
  rw [write, BitVec.toNat_ofNat]
  apply Nat.mod_eq_of_lt
  rw [← Nat.one_shiftLeft]
  simp only [patterns] at *
  omega

/-- `toNat_write` with everything from the field upwards as one multiple. -/
theorem toNat_write_eq (f : BitField) (word : BitVec n) {value : Nat}
    (hf : f.offset + f.width ≤ n) (hv : value < patterns f.width) :
    (f.write word value).toNat =
      (word.toNat / patterns (f.offset + f.width) * patterns f.width + value) * patterns f.offset +
        word.toNat % patterns f.offset := by
  rw [toNat_write f word hf hv, Nat.add_mul, Nat.mul_assoc, ← patterns_add, Nat.add_comm f.width]

theorem read_write (f : BitField) (word : BitVec n) {value : Nat}
    (hf : f.offset + f.width ≤ n) (hv : value < patterns f.width) :
    f.read (f.write word value) = value := by
  rw [read, toNat_write_eq f word hf hv, Nat.add_comm, Nat.add_mul_div_right _ _ (patterns_pos _),
    Nat.div_eq_of_lt (Nat.mod_lt _ (patterns_pos _)), Nat.zero_add, Nat.add_comm,
    Nat.add_mul_mod_self_right, Nat.mod_eq_of_lt hv]

/-- The bits above the field stay as they are. -/
theorem write_div (f : BitField) (word : BitVec n) {value : Nat}
    (hf : f.offset + f.width ≤ n) (hv : value < patterns f.width) :
    (f.write word value).toNat / patterns (f.offset + f.width) =
      word.toNat / patterns (f.offset + f.width) := by
  rw [toNat_write f word hf hv, Nat.add_assoc, Nat.add_comm,
    Nat.add_mul_div_right _ _ (patterns_pos _), Nat.div_eq_of_lt (f.low_lt word.toNat hv),
    Nat.zero_add]

/-- The bits below the field stay as they are. -/
theorem write_mod (f : BitField) (word : BitVec n) {value : Nat}
    (hf : f.offset + f.width ≤ n) (hv : value < patterns f.width) :
    (f.write word value).toNat % patterns f.offset = word.toNat % patterns f.offset := by
  rw [toNat_write_eq f word hf hv, Nat.add_comm, Nat.add_mul_mod_self_right, Nat.mod_mod]

theorem read_write_of_disjoint (f g : BitField) (word : BitVec n) {value : Nat}
    (hf : f.offset + f.width ≤ n) (hv : value < patterns f.width)
    (hg : g.offset + g.width ≤ f.offset ∨ f.offset + f.width ≤ g.offset) :
    g.read (f.write word value) = g.read word := by
  simp only [read]
  rcases hg with hg | hg
  · obtain ⟨k, hk⟩ := Nat.exists_eq_add_of_le hg
    have hd : patterns g.offset * patterns g.width ∣ patterns f.offset := by
      rw [hk, patterns_add, patterns_add]
      exact Nat.dvd_mul_right _ _
    rw [← Nat.mod_mul_right_div_self, ← Nat.mod_mul_right_div_self, ← Nat.mod_mod_of_dvd _ hd,
      write_mod f word hf hv, Nat.mod_mod_of_dvd _ hd]
  · obtain ⟨k, hk⟩ := Nat.exists_eq_add_of_le hg
    rw [hk, patterns_add _ k, ← Nat.div_div_eq_div_mul, ← Nat.div_div_eq_div_mul,
      write_div f word hf hv]

theorem set_of_lt (f : BitField) (word : BitVec n) {value : Nat} (hv : value < patterns f.width) :
    f.set word value = .ok (f.write word value) :=
  if_pos (Nat.le_sub_one_of_lt hv)

theorem write_inj (f : BitField) (word : BitVec n) {u v : Nat} (hf : f.offset + f.width ≤ n)
    (hu : u < patterns f.width) (hv : v < patterns f.width) :
    f.write word u = f.write word v ↔ u = v := by
  constructor
  · intro h
    rw [← read_write f word hf hu, h, read_write f word hf hv]
  · exact congrArg _

section Flags
variable {f : BitField} {a b : BitVec n} {value : Bool}

theorem toNat_lt_of_flag (hflag : f.width = 1) : value.toNat < patterns f.width := by
  rw [hflag]
  exact Bool.toNat_lt value

theorem flag_setFlag (word : BitVec n) (hf : f.offset + f.width ≤ n) (hflag : f.width = 1) :
    f.flag (f.setFlag word value) = value := by
  rw [flag, setFlag, read_write f word hf (toNat_lt_of_flag hflag)]
  cases value <;> rfl

theorem read_setFlag_of_disjoint (g : BitField) (word : BitVec n) (hf : f.offset + f.width ≤ n)
    (hflag : f.width = 1)
    (hg : g.offset + g.width ≤ f.offset ∨ f.offset + f.width ≤ g.offset) :
    g.read (f.setFlag word value) = g.read word :=
  read_write_of_disjoint f g word hf (toNat_lt_of_flag hflag) hg

theorem read_eq_of_flag_eq (hflag : f.width = 1) (h : f.flag a = f.flag b) :
    f.read a = f.read b := by
  have ha := f.read_lt a
  have hb := f.read_lt b
  simp only [hflag, patterns, flag, Bool.beq_eq_decide_eq, decide_eq_decide] at *
  omega

end Flags

section Rows
variable {a b : BitVec n} {low high : Nat}

/-- The fields lie side by side, from bit `low` up to bit `high`. -/
def InRow (low : Nat) : List BitField → Nat → Prop
  | [], high => low = high
  | f :: rest, high => f.offset = low ∧ InRow (low + f.width) rest high

theorem read_lowest (width : Nat) (word : BitVec n) :
    BitField.read ⟨0, width⟩ word = word.toNat % patterns width :=
  congrArg (· % patterns width) (Nat.div_one word.toNat)

/-- Below its end a word is the field and what lies below the field. -/
theorem toNat_mod_end (f : BitField) (word : BitVec n) :
    word.toNat % patterns (f.offset + f.width) =
      f.read word * patterns f.offset + word.toNat % patterns f.offset := by
  rw [patterns_add, Nat.mod_mul, read, Nat.mul_comm, Nat.add_comm]

/-- Words that agree below a row and in its fields agree below the end of the row. -/
theorem mod_eq_of_reads (fields : List BitField) (hrow : InRow low fields high)
    (hlow : a.toNat % patterns low = b.toNat % patterns low)
    (hreads : ∀ f ∈ fields, f.read a = f.read b) :
    a.toNat % patterns high = b.toNat % patterns high := by
  induction fields generalizing low with
  | nil =>
    obtain rfl : low = high := hrow
    exact hlow
  | cons f rest ih =>
    obtain ⟨rfl, hrest⟩ := hrow
    obtain ⟨hread, hreads⟩ := List.forall_mem_cons.mp hreads
    apply ih hrest _ hreads
    rw [toNat_mod_end, toNat_mod_end, hread, hlow]

/-- A row that leaves out no bit tells the word. -/
theorem eq_of_reads (fields : List BitField) (hrow : InRow 0 fields n)
    (hreads : ∀ f ∈ fields, f.read a = f.read b) : a = b := by
  have hnone : a.toNat % patterns 0 = b.toNat % patterns 0 :=
    (Nat.mod_one _).trans (Nat.mod_one _).symm
  have hall := mod_eq_of_reads fields hrow hnone hreads
  rw [Nat.mod_eq_of_lt (toNat_lt_patterns a), Nat.mod_eq_of_lt (toNat_lt_patterns b)] at hall
  exact BitVec.eq_of_toNat_eq hall

end Rows
end BitField
end MipsVm
