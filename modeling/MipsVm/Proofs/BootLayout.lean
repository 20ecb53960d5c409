import Mathlib.Tactic.SplitIfs
import MipsVm.BootMemory
import MipsVm.FramePool

/-! Where the frames of boot memory lie, and how the range that it leaves is split between the ledger
and the pool. -/
namespace MipsVm

theorem Address.alignDown_alignDown {s : Space} (a : Address s) :
    a.alignDown.alignDown = a.alignDown :=
  Address.ext (Nat.div_mul_cancel (Address.isPageAligned_iff.mp (isPageAligned_alignDown a)))

/-- The first page boundary at or after `lo`, or `hi` if that comes first. -/
def pageFrom (lo hi : PAddr) : Nat := min (pagesFor lo.val * pageSize) hi.val

theorem pageFrom_of_some {lo hi next : PAddr} (h : lo.alignUp? = some next) :
    pageFrom lo hi = min next.val hi.val := by
  unfold Address.alignUp? at h
  split_ifs at h
  rw [← Option.some.inj h]
  rfl

theorem pageFrom_of_none {lo hi : PAddr} (h : lo.alignUp? = none) : pageFrom lo hi = hi.val := by
  have hhi := hi.isLt
  unfold Address.alignUp? at h
  split_ifs at h
  simp only [pageFrom, pagesFor, pageSize] at *
  omega

theorem pageFrom_le (lo hi : PAddr) : pageFrom lo hi ≤ hi.val := Nat.min_le_right ..

theorem pageFrom_dvd {lo hi : PAddr} (h : hi.isPageAligned = true) : pageSize ∣ pageFrom lo hi := by
  rw [Address.isPageAligned_iff] at h
  unfold pageFrom
  rcases Nat.le_total (pagesFor lo.val * pageSize) hi.val with hle | hle
  · rw [Nat.min_eq_left hle]
    exact Nat.dvd_mul_left ..
  · rwa [Nat.min_eq_right hle]

theorem pageFrom_of_dvd {lo hi : PAddr} (hlo : pageSize ∣ lo.val) (hle : lo ≤ hi) :
    pageFrom lo hi = lo.val := by
  obtain ⟨pages, hpages⟩ := hlo
  rw [Address.le_def] at hle
  simp only [pageFrom, pagesFor, pageSize] at *
  omega

namespace BootMemory
variable {b : BootMemory} {n : Nat} {pa : PAddr}

theorem new_limit (first last : PAddr) : (new first last).limit = last.alignDown := by
  unfold new
  split <;> rfl

theorem new_next (first last : PAddr) :
    (new first last).next.val = pageFrom first last.alignDown := by
  unfold new
  cases h : first.alignUp? with
  | none => exact (pageFrom_of_none h).symm
  | some next =>
    rw [pageFrom_of_some h]
    simp only [Address.le_def]
    split_ifs <;> omega

theorem advance?_eq_some_iff :
    b.advance? n = some pa ↔ pa.val = b.next.val + n * pageSize ∧ pa ≤ b.limit := by
  have hpa := pa.isLt
  unfold advance?
  by_cases hn : n * pageSize < 0x100000000
  · rw [if_pos hn]
    cases h : b.next.add? (n * pageSize) with
    | none =>
      have hpast := Address.add?_eq_none_iff.mp h
      simp only [reduceCtorEq, false_iff]
      omega
    | some next =>
      have hnext := Address.add?_eq_some_iff.mp h
      simp only [Option.ite_none_right_eq_some, Option.some_inj, Address.ext_iff, Address.le_def]
      omega
  · rw [if_neg hn]
    simp only [reduceCtorEq, false_iff]
    omega

theorem take_eq_ok_iff :
    (b.take n).1 = .ok pa ↔ pa = b.next ∧ b.next.val + n * pageSize ≤ b.limit.val := by
  have hlimit := b.limit.isLt
  unfold take
  cases h : b.advance? n with
  | none =>
    have hfew : ¬ b.next.val + n * pageSize ≤ b.limit.val := by
      intro hle
      have hadvance : b.advance? n = some ⟨b.next.val + n * pageSize, by omega⟩ :=
        advance?_eq_some_iff.mpr ⟨rfl, hle⟩
      cases h.symm.trans hadvance
    simp [hfew]
  | some next =>
    obtain ⟨hnext, hle⟩ := advance?_eq_some_iff.mp h
    rw [Address.le_def, hnext] at hle
    simp only [Except.ok.injEq, hle, and_true]
    exact eq_comm

theorem take_of_ok (h : (b.take n).1 = .ok pa) :
    (b.take n).2.limit = b.limit ∧ (b.take n).2.next.val = b.next.val + n * pageSize := by
  unfold take at h ⊢
  cases hadvance : b.advance? n with
  | none =>
    rw [hadvance] at h
    cases h
  | some next => exact ⟨rfl, (advance?_eq_some_iff.mp hadvance).1⟩

theorem take_of_error {halt : Halt} (h : (b.take n).1 = .error halt) : (b.take n).2 = b := by
  unfold take at h ⊢
  cases hadvance : b.advance? n with
  | none => rfl
  | some next =>
    rw [hadvance] at h
    cases h

theorem halt_of_take {halt : Halt} (h : (b.take n).1 = .error halt) :
    halt = .bootMemoryExhausted := by
  unfold take at h
  cases hadvance : b.advance? n with
  | none =>
    rw [hadvance] at h
    exact (Except.error.inj h).symm
  | some next =>
    rw [hadvance] at h
    cases h

theorem framesLeft_eq (h : b.next ≤ b.limit) :
    b.framesLeft = .ok ((b.limit.val - b.next.val) / pageSize) := by
  rw [Address.le_def] at h
  simp only [framesLeft, Address.offsetFrom?, if_pos h]

theorem takeRecords_eq_ok (h : b.next ≤ b.limit) (n : Nat) :
    ∃ records, b.takeRecords n = .ok records := by
  unfold takeRecords
  cases b.advance? n with
  | none =>
    simp only [framesLeft_eq h]
    exact ⟨_, rfl⟩
  | some next => exact ⟨_, rfl⟩

end BootMemory

/-- The frames of the ledger are some of all frames, and hold the entries of the others. -/
theorem ledgerFramesFor_fits {total frames : Nat} (h : ledgerFramesFor total = .ok frames) :
    frames ≤ total ∧ (total - frames) * entrySize ≤ frames * pageSize := by
  unfold ledgerFramesFor at h
  split_ifs at h
  have hframes := Except.ok.inj h
  simp only [entrySize, pageSize] at *
  omega

/-- A split of the whole frames between `lo` and `hi`: those of the ledger first, then those that it
has entries for. -/
structure PoolLayout.Splits (l : PoolLayout) (lo hi : PAddr) : Prop where
  hi_eq : l.hi = hi.alignDown
  lo_val : l.lo.val = pageFrom lo hi.alignDown
  ledgerFrames_eq : ledgerFramesFor ((l.hi.val - l.lo.val) / pageSize) = .ok l.ledgerFrames
  base_val : l.base.val = l.lo.val + l.ledgerFrames * pageSize
  limit_eq : l.base.val + l.managed * pageSize = l.hi.val
  entries_fit : l.managed * entrySize ≤ l.ledgerFrames * pageSize

theorem PoolLayout.new_eq {lo hi start : PAddr} (h : start.val = pageFrom lo hi.alignDown) :
    PoolLayout.new lo hi = (do
      let total := (hi.alignDown.val - start.val) / pageSize
      let frames ← ledgerFramesFor total
      if total < frames then throw .overflow
      let base ← start.add (frames * pageSize)
      return ⟨start, hi.alignDown, frames, total - frames, base⟩) := by
  -- once `lo` is rounded, whichever way, the rest is the same
  unfold PoolLayout.new
  cases hup : lo.alignUp? with
  | none =>
    obtain rfl : start = hi.alignDown := Address.ext (h.trans (pageFrom_of_none hup))
    rfl
  | some next =>
    rw [pageFrom_of_some hup] at h
    by_cases hlt : next < hi.alignDown
    · obtain rfl : start = next := Address.ext (by rw [Address.lt_def] at hlt; omega)
      simp only [if_pos hlt]
    · obtain rfl : start = hi.alignDown := Address.ext (by rw [Address.lt_def] at hlt; omega)
      simp only [if_neg hlt]

/-- Every range has a split. -/
theorem PoolLayout.new_splits (lo hi : PAddr) :
    ∃ l : PoolLayout, PoolLayout.new lo hi = .ok l ∧ l.Splits lo hi := by
  have hhi := hi.alignDown.isLt
  have hle := pageFrom_le lo hi.alignDown
  obtain ⟨start, hlo⟩ : ∃ start : PAddr, start.val = pageFrom lo hi.alignDown :=
    ⟨⟨_, by omega⟩, rfl⟩
  rw [← hlo] at hle
  obtain ⟨total, htotal⟩ : ∃ total, total = (hi.alignDown.val - start.val) / pageSize := ⟨_, rfl⟩
  have hwhole : start.val + total * pageSize = hi.alignDown.val := by
    have hstart : pageSize ∣ start.val := by
      rw [hlo]
      exact pageFrom_dvd hi.isPageAligned_alignDown
    have hlast : pageSize ∣ hi.alignDown.val := Address.isPageAligned_iff.mp (by simp)
    rw [htotal, Nat.div_mul_cancel (Nat.dvd_sub hlast hstart), Nat.add_sub_cancel' hle]
  have hsmall : total * entrySize < sizeLimit := by
    simp only [entrySize, pageSize, sizeLimit] at *
    omega
  obtain ⟨frames, hframes⟩ : ∃ frames, ledgerFramesFor total = .ok frames := ⟨_, if_pos hsmall⟩
  obtain ⟨hfew, hfits⟩ := ledgerFramesFor_fits hframes
  have hbase : start.val + frames * pageSize < 0x100000000 := by
    simp only [pageSize] at *
    omega
  have haddr : start.add (frames * pageSize) = .ok ⟨_, hbase⟩ := Address.add_eq_ok_iff.mpr rfl
  refine ⟨⟨start, hi.alignDown, frames, total - frames, ⟨_, hbase⟩⟩, ?_, ?_⟩
  · rw [PoolLayout.new_eq hlo]
    simp only [← htotal, hframes]
    change (if total < frames then _ else do
      let base ← start.add (frames * pageSize)
      pure (⟨start, hi.alignDown, frames, total - frames, base⟩ : PoolLayout)) = _
    rw [if_neg (Nat.not_lt.mpr hfew), haddr]
    rfl
  · constructor
    case hi_eq => rfl
    case lo_val => exact hlo
    case ledgerFrames_eq => simpa only [← htotal] using hframes
    case base_val => rfl
    case limit_eq =>
      simp only [pageSize] at *
      omega
    case entries_fit => exact hfits

theorem PoolLayout.splits_of_new {lo hi : PAddr} {l : PoolLayout}
    (h : PoolLayout.new lo hi = .ok l) : l.Splits lo hi := by
  obtain ⟨split, hsplit, hsplits⟩ := PoolLayout.new_splits lo hi
  obtain rfl : split = l := Except.ok.inj (hsplit.symm.trans h)
  exact hsplits

end MipsVm
