import MipsVm.Ledger
import MipsVm.Ram

/-! The ledger as it lies in RAM. An entry takes two words, its kind and its number, each with the low
byte first. Which bytes stand for which entry is the compiler's affair, and nothing but the ledger reads
them: it matters that they are there, and that they change with the entries. -/
namespace MipsVm

/-- Bytes that a ledger entry takes in RAM. -/
abbrev entrySize : Nat := 8

namespace Entry

/-- The word that tells the kinds of entries apart. -/
def kind : Entry → Nat
  | .free => 0
  | .start _ => 1
  | .continuation _ => 2
  | .footer => 3

/-- The number in the entry, zero where there is none. -/
def number : Entry → Nat
  | .start len => len
  | .continuation position => position
  | .free | .footer => 0

/-- Byte `k` of the entry. -/
def byte (e : Entry) (k : Nat) : UInt8 :=
  if k < 4 then .ofNat (e.kind >>> (8 * k)) else .ofNat (e.number >>> (8 * (k - 4)))

@[simp] theorem byte_free (k : Nat) : Entry.free.byte k = 0 := by
  simp [byte, kind, number]

end Entry

namespace Ledger

/-- Byte `k` of the entries in a row. -/
def byte (l : Ledger) (k : Nat) : UInt8 :=
  match l.get? (k / entrySize) with
  | some e => e.byte (k % entrySize)
  | none => 0

/-- The entries that are not those of `old`. -/
def changes (l old : Ledger) : List Nat :=
  (List.range l.size).filter fun i => decide (l.get? i ≠ old.get? i)

/-- RAM that had the entries of `old` from `pa` on, with those of `l` written from the first that is new
to the last: an operation on the ledger writes entries in a row. -/
def store (l old : Ledger) (pa : PAddr) (ram : Ram) : Ram :=
  match (l.changes old).min?, (l.changes old).max? with
  | some first, some last =>
    ram.update (pa.val + first * entrySize) ((last + 1 - first) * entrySize) fun k =>
      l.byte (first * entrySize + k)
  | _, _ => ram

theorem mem_changes {l old : Ledger} {i : Nat} :
    i ∈ l.changes old ↔ i < l.size ∧ l.get? i ≠ old.get? i := by
  simp [changes]

@[simp] theorem size_store (l old : Ledger) (pa : PAddr) (ram : Ram) :
    (l.store old pa ram).size = ram.size := by
  unfold store
  split
  · exact Ram.size_update ..
  · rfl

/-- A byte in the row of entries that is written reads as the new ledger has it, and every other byte
is as it was; outside of the row no entry is new. -/
theorem byte_store (l old : Ledger) (pa : PAddr) (ram : Ram) :
    ∃ first stop, stop ≤ l.size ∧
      (∀ i < l.size, ¬ (first ≤ i ∧ i < stop) → l.get? i = old.get? i) ∧
      ∀ j, (l.store old pa ram).byte j =
        if pa.val + first * entrySize ≤ j ∧ j < pa.val + stop * entrySize ∧ j < ram.size then
          l.byte (j - pa.val)
        else ram.byte j := by
  unfold store
  cases hmin : (l.changes old).min? with
  | none =>
    have hempty : l.changes old = [] := List.min?_eq_none_iff.mp hmin
    refine ⟨0, 0, Nat.zero_le _, ?_, ?_⟩
    · intro i hi _
      refine Decidable.byContradiction fun hne => ?_
      have hmem : i ∈ l.changes old := mem_changes.mpr ⟨hi, hne⟩
      rw [hempty] at hmem
      cases hmem
    · intro j
      rw [if_neg (by omega)]
  | some first =>
    obtain ⟨hfirst, hleast⟩ := List.min?_eq_some_iff.mp hmin
    cases hmax : (l.changes old).max? with
    | none =>
      rw [List.max?_eq_none_iff.mp hmax] at hfirst
      cases hfirst
    | some last =>
      obtain ⟨hlast, hgreatest⟩ := List.max?_eq_some_iff.mp hmax
      have hle : first ≤ last := hleast last hlast
      have hsize : last < l.size := (mem_changes.mp hlast).1
      refine ⟨first, last + 1, hsize, ?_, ?_⟩
      · intro i hi hout
        refine Decidable.byContradiction fun hne => ?_
        have hmem : i ∈ l.changes old := mem_changes.mpr ⟨hi, hne⟩
        have hge := hleast i hmem
        have hlt := hgreatest i hmem
        omega
      · intro j
        have hrow : (pa.val + first * entrySize ≤ j ∧
              j < pa.val + first * entrySize + (last + 1 - first) * entrySize ∧ j < ram.size) ↔
            (pa.val + first * entrySize ≤ j ∧ j < pa.val + (last + 1) * entrySize ∧
              j < ram.size) := by
          simp only [entrySize]
          omega
        simp only [Ram.byte_update, hrow]
        split
        · congr 1
          omega
        · rfl

end Ledger
end MipsVm
