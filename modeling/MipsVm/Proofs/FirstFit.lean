import Mathlib.Data.List.Count
import MipsVm.Proofs.RunAllocator

/-! The search for a gap finds the first one that fits, whatever the entries of the ledger are. So an
allocation may look at the count of free frames before it searches, and the frames that it marks are in
the ledger and free. -/
namespace MipsVm
namespace Ledger
variable {l : Ledger} {start n : Nat}

/-- The `n` entries from `start` on lie inside of the ledger and are all free. -/
def HasGap (l : Ledger) (start n : Nat) : Prop :=
  start + n ≤ l.size ∧ ∀ i, start ≤ i → i < start + n → l.get? i = some .free

theorem hasGap_iff (hn : 0 < n) : l.HasGap start n ↔ l.FreeRun start n := by
  constructor
  · rintro ⟨-, hfree⟩ k hk
    exact hfree (start + k) (Nat.le_add_right start k) (Nat.add_lt_add_left hk start)
  · intro h
    have hlast := h.lt_size (Nat.sub_lt hn Nat.one_pos)
    refine ⟨by omega, ?_⟩
    intro i hi hstop
    have hentry := h (i - start) (by omega)
    rwa [Nat.add_sub_cancel' hi] at hentry

/-- The entries of a gap are some of the free ones. -/
theorem FreeRun.le_count (h : l.FreeRun start n) : n ≤ l.entries.count .free := by
  have hgap : (l.entries.toList.drop start).take n = List.replicate n .free := by
    apply List.ext_getElem?
    intro k
    rw [List.getElem?_take, List.getElem?_drop, List.getElem?_replicate, Array.getElem?_toList]
    split_ifs with hk
    · exact h k hk
    · rfl
  rw [← Array.count_toList]
  apply List.replicate_sublist_iff.mp
  rw [← hgap]
  exact (List.take_sublist ..).trans (List.drop_sublist ..)

theorem findGap_eq_none_of_count_lt (h : l.entries.count .free < n) : l.findGap n = none := by
  apply findGap_eq_none_iff.mpr
  right
  intro start hrun
  exact absurd hrun.le_count (Nat.not_le.mpr h)

theorem findGap_eq_some_iff_hasGap :
    l.findGap n = some start ↔ 1 ≤ n ∧ l.HasGap start n ∧ ∀ j < start, ¬ l.HasGap j n := by
  rw [findGap_eq_some_iff]
  apply and_congr_right
  intro hn
  simp only [hasGap_iff hn]

theorem findGap_eq_none_iff_hasGap :
    l.findGap n = none ↔ n = 0 ∨ ∀ start, ¬ l.HasGap start n := by
  rw [findGap_eq_none_iff]
  rcases Nat.eq_zero_or_pos n with rfl | hn
  · simp only [true_or]
  · simp only [hasGap_iff hn]

/-- What the search has found can be marked, as far as there are positions. -/
theorem mark_of_findGap (hsize : l.size < sizeLimit) (h : l.findGap n = some start) :
    l.mark start n =
      if 0x100000000 ≤ n then .error .overflow else .ok (l.overwrite start n (Entry.ofRun n)) := by
  obtain ⟨hn, ⟨hinside, -⟩, -⟩ := findGap_eq_some_iff_hasGap.mp h
  obtain ⟨-, hfree, -⟩ := findGap_eq_some_iff.mp h
  exact mark_eq_of_freeRun hn (Nat.lt_of_le_of_lt hinside hsize) hfree

theorem mark_of_findGap_of_le (hsize : l.size ≤ maxFrames) (h : l.findGap n = some start) :
    l.mark start n = .ok (l.overwrite start n (Entry.ofRun n)) := by
  obtain ⟨-, ⟨hinside, -⟩, -⟩ := findGap_eq_some_iff_hasGap.mp h
  simp only [maxFrames] at hsize
  rw [mark_of_findGap (Nat.lt_of_le_of_lt hsize (by decide)) h, if_neg (by omega)]

end Ledger

namespace FramePool
variable {p : FramePool} {start n : Nat}

/-- Each frame of a ledger that is not too long has an address. -/
theorem frameAddr_lt (p : FramePool) (hsize : p.ledger.size ≤ maxFrames) {i : Nat}
    (h : i < p.ledger.size) : p.base.val + i * pageSize < 0x100000000 := by
  have hword : p.ledger.size % 0x100000000 = p.ledger.size :=
    Nat.mod_eq_of_lt (Nat.lt_of_le_of_lt hsize (by decide))
  have hfits := p.fits
  rw [hword] at hfits
  exact Nat.lt_of_le_of_lt
    (Nat.add_le_add_left (Nat.mul_le_mul_right _ (Nat.le_of_lt h)) _) hfits

/-- `allocate` with the ledger searched in any case, however few frames are counted as free. -/
def allocateBySearch (p : FramePool) (n : Nat) : Except Halt (Option PAddr) × FramePool :=
  match p.ledger.findGap n with
  | none => (.ok none, p)
  | some start =>
    match p.claim start n with
    | .error e => (.error e, p.overrun start n)
    | .ok p => (some <$> p.base.add (start % 0x100000000 * pageSize), p)

/-- The early exit only spares a search that would find nothing. -/
theorem allocate_eq_allocateBySearch (h : p.ledger.entries.count .free ≤ p.free) (n : Nat) :
    p.allocate n = p.allocateBySearch n := by
  by_cases hfew : n = 0 ∨ p.free < n
  · have hnone : p.ledger.findGap n = none := by
      rcases hfew with rfl | hlt
      · exact Ledger.findGap_eq_none_iff.mpr (.inl rfl)
      · exact Ledger.findGap_eq_none_of_count_lt (Nat.lt_of_le_of_lt h hlt)
    rw [allocate, if_pos hfew, allocateBySearch, hnone]
  · rw [allocate, if_neg hfew]
    rfl

/-- The search decides the answer, and nothing behind it can halt. -/
theorem allocateBySearch_answer (p : FramePool) (hsize : p.ledger.size ≤ maxFrames) (n : Nat) :
    ∃ answer, (p.allocateBySearch n).1 = .ok answer ∧
      ∀ pa, answer = some pa ↔
        ∃ start, p.ledger.findGap n = some start ∧ pa.val = p.base.val + start * pageSize := by
  unfold allocateBySearch
  cases hgap : p.ledger.findGap n with
  | none => exact ⟨none, rfl, by simp⟩
  | some start =>
    obtain ⟨hn, ⟨hinside, -⟩, -⟩ := Ledger.findGap_eq_some_iff_hasGap.mp hgap
    have hlt := p.frameAddr_lt hsize (i := start) (by omega)
    have hclaim := claim_eq_ok (Ledger.mark_of_findGap_of_le hsize hgap)
    have hword : start % 0x100000000 = start := by
      simp only [maxFrames] at hsize
      omega
    have haddr : p.base.add (start * pageSize) = .ok ⟨p.base.val + start * pageSize, hlt⟩ :=
      Address.add_eq_ok_iff.mpr rfl
    refine ⟨some ⟨p.base.val + start * pageSize, hlt⟩, ?_, ?_⟩
    · simp only [hclaim]
      change some <$> p.base.add (start % 0x100000000 * pageSize) = _
      rw [hword, haddr]
      rfl
    · intro pa
      simp only [Option.some_inj, Address.ext_iff, exists_eq_left']
      exact eq_comm

end FramePool

/-- A search finds `start` if and only if that is the lowest start of a gap of `n` frames, and nothing if
and only if there is none or no frames are asked for; the gap can be marked, unless it has more frames
than there are positions. A pool whose count of free frames is right loses nothing by looking at the
count first, and with a ledger that is not too long it answers the address of the gap. -/
theorem Ledger.findGap_firstFit (l : Ledger) (n : Nat) :
    (∀ start, l.findGap n = some start ↔
      1 ≤ n ∧ l.HasGap start n ∧ ∀ j < start, ¬ l.HasGap j n) ∧
    (l.findGap n = none ↔ n = 0 ∨ ∀ start, ¬ l.HasGap start n) ∧
    (∀ start, l.size < sizeLimit → l.findGap n = some start →
      l.mark start n =
        if 0x100000000 ≤ n then .error .overflow
        else .ok (l.overwrite start n (Entry.ofRun n))) ∧
    ∀ p : FramePool, p.ledger = l → p.free = l.entries.count .free →
      p.allocate n = p.allocateBySearch n ∧
      (l.size ≤ maxFrames → ∃ answer, (p.allocate n).1 = .ok answer ∧
        ∀ pa, answer = some pa ↔
          ∃ start, l.findGap n = some start ∧ pa.val = p.base.val + start * pageSize) := by
  refine ⟨fun start => findGap_eq_some_iff_hasGap, findGap_eq_none_iff_hasGap,
    fun start hsize hgap => mark_of_findGap hsize hgap, ?_⟩
  rintro p rfl hfree
  have hsearch := FramePool.allocate_eq_allocateBySearch (Nat.le_of_eq hfree.symm) n
  refine ⟨hsearch, fun hsize => ?_⟩
  rw [hsearch]
  exact p.allocateBySearch_answer hsize n

/-- The hole of one frame is passed over, and the request for four frames is turned down unsearched. -/
theorem Ledger.findGap_firstFit_behind_hole :
    let l : Ledger := ⟨#[.start 1, .free, .footer, .continuation 2, .free, .free]⟩
    let p : FramePool := ⟨⟨0x100000, by decide⟩, l, 3, 2, by decide⟩
    l.HasGap 4 2 ∧ ¬ l.HasGap 1 2 ∧ l.mark 4 2 = .ok (l.overwrite 4 2 (Entry.ofRun 2)) ∧
      p.free = l.entries.count .free ∧ p.allocate 2 = p.allocateBySearch 2 ∧
      p.allocate 4 = p.allocateBySearch 4 := by
  intro l p
  have hgap : l.findGap 2 = some 4 := by decide +kernel
  have hfree : p.free = l.entries.count .free := by decide
  obtain ⟨hsome, -, hmark, hpool⟩ := l.findGap_firstFit 2
  obtain ⟨-, hfits, hleast⟩ := (hsome 4).mp hgap
  exact ⟨hfits, hleast 1 (by decide), hmark 4 (by decide) hgap, hfree, (hpool p rfl hfree).1,
    ((l.findGap_firstFit 4).2.2.2 p rfl hfree).1⟩

end MipsVm
