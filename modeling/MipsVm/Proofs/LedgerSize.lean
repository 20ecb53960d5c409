import Mathlib.Order.Bounds.Basic
import Mathlib.Tactic.Ring
import MipsVm.Proofs.BootLayout

/-! The size of the ledger at the bottom of a range of frames. The frames of the ledger need no entries
of their own, so its size depends on itself; it is the least one that fits, and with more frames in the
range neither the ledger nor what is left beside it gets smaller. -/
namespace MipsVm
variable {total fewer frames k : Nat}

/-- `ledger` of `total` frames hold an entry for each of the others. -/
def HoldsEntries (total ledger : Nat) : Prop := (total - ledger) * entrySize ≤ ledger * pageSize

/-- Each frame of the ledger holds a page of entries and saves its own. -/
theorem holdsEntries_iff : HoldsEntries total k ↔ total * entrySize ≤ k * (pageSize + entrySize) := by
  unfold HoldsEntries
  simp only [entrySize, pageSize]
  omega

theorem holdsEntries_self (total : Nat) : HoldsEntries total total := by
  rw [HoldsEntries, Nat.sub_self, Nat.zero_mul]
  exact Nat.zero_le _

theorem HoldsEntries.of_le (h : HoldsEntries total k) (hle : fewer ≤ total) :
    HoldsEntries fewer k := by
  unfold HoldsEntries at h ⊢
  calc
    (fewer - k) * entrySize ≤ (total - k) * entrySize :=
      Nat.mul_le_mul_right _ (Nat.sub_le_sub_right hle k)
    _ ≤ k * pageSize := h

/-- Frames that are all given to the ledger need no entries. -/
theorem HoldsEntries.add (h : HoldsEntries total k) (more : Nat) :
    HoldsEntries (total + more) (k + more) := by
  unfold HoldsEntries at h ⊢
  calc
    (total + more - (k + more)) * entrySize = (total - k) * entrySize := by
      rw [Nat.add_sub_add_right]
    _ ≤ k * pageSize := h
    _ ≤ (k + more) * pageSize := Nat.mul_le_mul_right _ (Nat.le_add_right k more)

/-- Rounded up, the quotient by the bytes that a frame holds and saves is the least size. -/
theorem isLeast_holdsEntries (total : Nat) :
    IsLeast {k | HoldsEntries total k}
      ((total * entrySize + (pageSize + entrySize - 1)) / (pageSize + entrySize)) := by
  have hpos : 0 < pageSize + entrySize := by decide
  constructor
  · -- a quotient that is rounded up is not below the exact one
    have hround := Nat.lt_div_mul_add (a := total * entrySize + (pageSize + entrySize - 1)) hpos
    apply holdsEntries_iff.mpr
    omega
  · intro k hk
    have hbytes : total * entrySize ≤ k * (pageSize + entrySize) := holdsEntries_iff.mp hk
    apply Nat.lt_succ_iff.mp
    apply (Nat.div_lt_iff_lt_mul hpos).mpr
    calc
      total * entrySize + (pageSize + entrySize - 1) <
          k * (pageSize + entrySize) + (pageSize + entrySize) := by omega
      _ = (k + 1) * (pageSize + entrySize) := by ring

theorem ledgerFramesFor_eq_ok_iff :
    ledgerFramesFor total = .ok frames ↔
      total * entrySize < sizeLimit ∧ IsLeast {k | HoldsEntries total k} frames := by
  unfold ledgerFramesFor
  by_cases hsmall : total * entrySize < sizeLimit
  · rw [if_pos hsmall, Except.ok.injEq]
    constructor
    · rintro rfl
      exact ⟨hsmall, isLeast_holdsEntries total⟩
    · rintro ⟨-, hleast⟩
      exact (isLeast_holdsEntries total).unique hleast
  · rw [if_neg hsmall]
    simp [hsmall]

/-- The least sizes for two ranges, one inside of the other. -/
theorem leastEntries_mono (hfewer : IsLeast {k | HoldsEntries fewer k} k)
    (htotal : IsLeast {k | HoldsEntries total k} frames) (hle : fewer ≤ total) :
    k ≤ frames ∧ fewer - k ≤ total - frames := by
  have hsmaller : k ≤ frames := hfewer.2 (HoldsEntries.of_le htotal.1 hle)
  -- the frames by which the ranges differ could all go to the ledger, so it grows by no more
  have hgrowth : frames ≤ k + (total - fewer) := by
    apply htotal.2
    have hadd := HoldsEntries.add hfewer.1 (total - fewer)
    rwa [Nat.add_sub_cancel' hle] at hadd
  refine ⟨hsmaller, ?_⟩
  omega

/-- The ledger of any range of fewer than `2 ^ 61` frames has a size: the least that holds the entries of
the other frames. In a part of the range the ledger is no larger, and no more frames are left beside it.
The entries of a longer range are more bytes than a machine word counts. -/
theorem ledgerFramesFor_optimal (total : Nat) :
    (total < 2 ^ 61 →
      ∃ frames, ledgerFramesFor total = .ok frames ∧ frames ≤ total ∧
        IsLeast {k | HoldsEntries total k} frames ∧
        ∀ fewer ≤ total, ∃ k, ledgerFramesFor fewer = .ok k ∧ k ≤ frames ∧
          fewer - k ≤ total - frames) ∧
    (2 ^ 61 ≤ total → ledgerFramesFor total = .error .overflow) := by
  constructor
  · intro hsmall
    have hsize {n : Nat} (hn : n ≤ total) : n * entrySize < sizeLimit := by
      simp only [entrySize, sizeLimit]
      omega
    have hleast := isLeast_holdsEntries total
    refine ⟨_, ledgerFramesFor_eq_ok_iff.mpr ⟨hsize (Nat.le_refl total), hleast⟩,
      hleast.2 (holdsEntries_self total), hleast, ?_⟩
    intro fewer hle
    have hfewer := isLeast_holdsEntries fewer
    exact ⟨_, ledgerFramesFor_eq_ok_iff.mpr ⟨hsize hle, hfewer⟩, leastEntries_mono hfewer hleast hle⟩
  · intro hlarge
    have hsize : ¬ total * entrySize < sizeLimit := by
      simp only [entrySize, sizeLimit]
      omega
    exact if_neg hsize

/-- One frame of entries is full with 513 frames, and the next frame needs a second one. -/
theorem ledgerFramesFor_optimal_at_full_frame :
    514 < 2 ^ 61 ∧ ledgerFramesFor 514 = .ok 2 ∧ IsLeast {k | HoldsEntries 514 k} 2 ∧
      ledgerFramesFor 513 = .ok 1 ∧ 513 - 1 ≤ 514 - 2 ∧
      2 ^ 61 ≤ 2 ^ 61 ∧ ledgerFramesFor (2 ^ 61) = .error .overflow := by
  have hsmall : 514 < 2 ^ 61 := by decide
  obtain ⟨frames, hframes, -, hleast, hfewer⟩ := (ledgerFramesFor_optimal 514).1 hsmall
  obtain rfl : 2 = frames := Except.ok.inj hframes
  obtain ⟨k, hk, -, hleft⟩ := hfewer 513 (by decide)
  obtain rfl : 1 = k := Except.ok.inj hk
  exact ⟨hsmall, hframes, hleast, hk, hleft, Nat.le_refl _,
    (ledgerFramesFor_optimal (2 ^ 61)).2 (Nat.le_refl _)⟩

end MipsVm
