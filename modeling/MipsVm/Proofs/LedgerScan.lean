import Mathlib.Data.Nat.Find
import Mathlib.Tactic.ByContra
import MipsVm.Ledger

/-! What the walks over a ledger find, whatever its entries are: the search for a gap and the chain of
continuations behind a frame. -/
namespace MipsVm

/-- Whether the entry is the first of a run. -/
def Entry.opensRun : Entry → Bool
  | .start _ | .footer => true
  | .free | .continuation _ => false

@[simp] theorem Entry.opensRun_free : Entry.free.opensRun = false := rfl

@[simp] theorem Entry.opensRun_start (len : Nat) : (Entry.start len).opensRun = true := rfl

@[simp] theorem Entry.opensRun_continuation (position : Nat) :
    (Entry.continuation position).opensRun = false := rfl

@[simp] theorem Entry.opensRun_footer : Entry.footer.opensRun = true := rfl

namespace Ledger

theorem ext_get? {l m : Ledger} (h : ∀ i, l.get? i = m.get? i) : l = m := by
  obtain ⟨entries⟩ := l
  obtain ⟨entries'⟩ := m
  exact congrArg Ledger.mk (Array.ext_getElem? h)

theorem get?_eq_none {l : Ledger} {i : Nat} (h : l.size ≤ i) : l.get? i = none :=
  Array.getElem?_eq_none h

theorem get?_eq_getElem {l : Ledger} {i : Nat} (h : i < l.entries.size) :
    l.get? i = some l.entries[i] := Array.getElem?_eq_getElem h

theorem lt_size_of_get? {l : Ledger} {i : Nat} {e : Entry} (h : l.get? i = some e) :
    i < l.entries.size := by
  by_contra hge
  rw [get?_eq_none (Nat.not_lt.mp hge)] at h
  cases h

theorem getElem_of_get? {l : Ledger} {i : Nat} {e : Entry} (h : l.get? i = some e)
    (hi : i < l.entries.size) : l.entries[i] = e := by
  rw [get?_eq_getElem hi] at h
  exact Option.some.inj h

theorem get?_val (l : Ledger) (i : Fin l.size) : l.get? i = some (l.get i) :=
  get?_eq_getElem i.isLt

theorem overwrite_succ (l : Ledger) (start n : Nat) (f : Nat → Entry) :
    (l.overwrite start n f).overwrite (start + n) 1 (fun _ => f n) = l.overwrite start (n + 1) f := by
  simp [overwrite, Nat.fold_succ]

/-- The `n` entries from `start` on exist and are free. -/
def FreeRun (l : Ledger) (start n : Nat) : Prop := ∀ k < n, l.get? (start + k) = some .free

theorem FreeRun.lt_size {l : Ledger} {start n k : Nat} (h : l.FreeRun start n) (hk : k < n) :
    start + k < l.size := lt_size_of_get? (h k hk)

theorem allFree_eq_true_iff {l : Ledger} {start n : Nat} :
    l.allFree start n = true ↔ l.FreeRun start n := by
  simp only [allFree]
  -- the last of the entries is looked at by itself
  induction n with
  | zero => simp [FreeRun]
  | succ n ih =>
    simp only [Nat.all_succ, ih, Bool.and_eq_true, beq_iff_eq, FreeRun]
    constructor
    · rintro ⟨hinit, hlast⟩ k hk
      rcases Nat.lt_succ_iff_lt_or_eq.mp hk with hk | rfl
      · exact hinit k hk
      · exact hlast
    · intro h
      exact ⟨fun k hk => h k (by omega), h n (by omega)⟩

/-- What a search from entry `i` answers when the `found` entries before `i` are free and no gap
of `n` frames starts before those. -/
theorem findGapFrom_spec (l : Ledger) (n i found : Nat) (hn : found < n) (hi : found ≤ i)
    (hfree : l.FreeRun (i - found) found) (hnone : ∀ j < i - found, ¬ l.FreeRun j n) :
    match l.findGapFrom n i found with
    | some start => l.FreeRun start n ∧ ∀ j < start, ¬ l.FreeRun j n
    | none => ∀ j, ¬ l.FreeRun j n := by
  -- one more free entry lengthens the stretch that ends before `i`
  have hgrow (i found : Nat) (hi : found ≤ i) (hfree : l.FreeRun (i - found) found)
      (he : l.get? i = some .free) : l.FreeRun (i - found) (found + 1) := by
    intro k hk
    rcases Nat.lt_succ_iff_lt_or_eq.mp hk with hk | rfl
    · exact hfree k hk
    · rwa [Nat.sub_add_cancel hi]
  fun_induction l.findGapFrom n i found with
  | case1 i found hlt hentry hfound =>
    -- the stretch has reached its length with entry `i`
    have he : l.get? i = some .free := by rw [get?_eq_getElem hlt, hentry]
    subst hfound
    rw [Nat.add_sub_add_right]
    exact ⟨hgrow i found hi hfree he, hnone⟩
  | case2 i found hlt hentry hne ih =>
    -- a free entry: the stretch starts where it did
    have he : l.get? i = some .free := by rw [get?_eq_getElem hlt, hentry]
    apply ih (by omega) (by omega)
    · rw [Nat.add_sub_add_right]
      exact hgrow i found hi hfree he
    · rwa [Nat.add_sub_add_right]
  | case3 i found hlt hentry ih =>
    -- an entry in use: the next stretch starts behind it
    apply ih (by omega) (by omega)
    · intro k hk
      omega
    · intro j hj hrun
      by_cases hjs : j < i - found
      · exact hnone j hjs hrun
      -- a gap from `j` on would contain the entry `i`, which is in use
      · have he := hrun (i - j) (by omega)
        rw [Nat.add_sub_cancel' (by omega), get?_eq_getElem hlt, Option.some_inj] at he
        exact hentry he
  | case4 i found hge =>
    -- the stretch in front of the end is too short
    intro j hrun
    by_cases hjs : j < i - found
    · exact hnone j hjs hrun
    · have hlt : j + found < l.entries.size := hrun.lt_size hn
      omega

theorem findGap_eq_some_iff {l : Ledger} {n start : Nat} :
    l.findGap n = some start ↔ 0 < n ∧ l.FreeRun start n ∧ ∀ j < start, ¬ l.FreeRun j n := by
  rcases Nat.eq_zero_or_pos n with rfl | hn
  · simp [findGap]
  have hspec := l.findGapFrom_spec n 0 0 hn (Nat.le_refl 0) (by intro k hk; omega)
    (by intro j hj; omega)
  rw [findGap, if_neg (Nat.ne_of_gt hn)]
  constructor
  · intro h
    rw [h] at hspec
    exact ⟨hn, hspec⟩
  · rintro ⟨-, hrun, hleast⟩
    cases hg : l.findGapFrom n 0 0 with
    | none =>
      rw [hg] at hspec
      exact absurd hrun (hspec start)
    | some other =>
      rw [hg] at hspec
      -- two least gaps are the same
      rcases Nat.lt_trichotomy other start with h | h | h
      · exact absurd hspec.1 (hleast other h)
      · rw [h]
      · exact absurd hrun (hspec.2 start h)

theorem findGap_eq_none_iff {l : Ledger} {n : Nat} :
    l.findGap n = none ↔ n = 0 ∨ ∀ start, ¬ l.FreeRun start n := by
  classical
  constructor
  · intro h
    by_contra hex
    push Not at hex
    obtain ⟨hn, hgap⟩ := hex
    -- if there were gaps, the search would answer the least of them
    have hsome := findGap_eq_some_iff.mpr
      ⟨Nat.pos_of_ne_zero hn, Nat.find_spec hgap, fun j hj => Nat.find_min hgap hj⟩
    rw [h] at hsome
    cases hsome
  · intro h
    cases hg : l.findGap n with
    | none => rfl
    | some start =>
      obtain ⟨hn, hrun, -⟩ := findGap_eq_some_iff.mp hg
      rcases h with h | h
      · omega
      · exact absurd hrun (h start)

/-- Free frames can be marked, as many as there are positions for. -/
theorem mark_eq_of_freeRun {l : Ledger} {start n : Nat} (hn : 0 < n)
    (hlimit : start + n < sizeLimit) (hfree : l.FreeRun start n) :
    l.mark start n =
      if 0x100000000 ≤ n then .error .overflow else .ok (l.overwrite start n (Entry.ofRun n)) := by
  have hsize := hfree.lt_size (Nat.sub_lt hn Nat.one_pos)
  simp only [mark]
  rw [if_neg (Nat.not_le.mpr hlimit), if_neg (by omega), allFree_eq_true_iff.mpr hfree,
    if_neg (by simp), if_neg (Nat.ne_of_gt hn)]

theorem get?_of_lt_chainEnd {l : Ledger} {i position j : Nat} (hij : i ≤ j)
    (hj : j < l.chainEnd i position) : l.get? j = some (.continuation (position + (j - i))) := by
  fun_induction l.chainEnd i position with
  | case1 i position hlt hentry ih =>
    rcases Nat.eq_or_lt_of_le hij with rfl | hij
    · rw [get?_eq_getElem hlt, hentry, Nat.sub_self, Nat.add_zero]
    · rw [ih (by omega) hj]
      congr 2
      omega
  | case2 => omega
  | case3 => omega

theorem get?_chainEnd (l : Ledger) (i position : Nat) :
    l.get? (l.chainEnd i position) ≠
      some (.continuation (position + (l.chainEnd i position - i))) := by
  -- the walk stops in front of the entry that does not continue the chain
  fun_induction l.chainEnd i position with
  | case1 i position hlt hentry ih =>
    have := l.le_chainEnd (i + 1) (position + 1)
    rwa [show position + (l.chainEnd (i + 1) (position + 1) - i) =
      position + 1 + (l.chainEnd (i + 1) (position + 1) - (i + 1)) by omega]
  | case2 i position hlt hentry =>
    rw [get?_eq_getElem hlt, Nat.sub_self, Nat.add_zero]
    exact fun h => hentry (Option.some.inj h)
  | case3 i position hge =>
    rw [get?_eq_none (Nat.not_lt.mp hge)]
    intro h
    cases h

theorem chainEnd_le_size {l : Ledger} {i position : Nat} (h : i ≤ l.size) :
    l.chainEnd i position ≤ l.size := by
  fun_induction l.chainEnd i position with
  | case1 i position hlt hentry ih => exact ih hlt
  | case2 => exact h
  | case3 => exact h

theorem chainEnd_eq {l : Ledger} {i position last : Nat} (hle : i ≤ last)
    (hchain : ∀ j, i ≤ j → j < last → l.get? j = some (.continuation (position + (j - i))))
    (hend : l.get? last ≠ some (.continuation (position + (last - i)))) :
    l.chainEnd i position = last := by
  -- a chain that ended early or late would contradict the entry at one of the two ends
  rcases Nat.lt_trichotomy (l.chainEnd i position) last with h | h | h
  · exact absurd (hchain _ (l.le_chainEnd i position) h) (l.get?_chainEnd i position)
  · exact h
  · exact absurd (get?_of_lt_chainEnd hle h) hend

/-- Behind entry `start` the continuations `2, …, n` stand in a row, and `n + 1` does not follow: the
entry and the longest chain behind it are `n` frames. -/
structure Spans (l : Ledger) (start n : Nat) : Prop where
  pos : 0 < n
  chain : ∀ k, 0 < k → k < n → l.get? (start + k) = some (.continuation (k + 1))
  stops : l.get? (start + n) ≠ some (.continuation (n + 1))

theorem Spans.runLength_eq {l : Ledger} {start n : Nat} (h : l.Spans start n) :
    l.runLength start = n := by
  have hpos := h.pos
  -- the chain starts with position 2, at the entry behind the run's first
  have hend : l.chainEnd (start + 1) 2 = start + n := by
    apply chainEnd_eq (by omega)
    · intro j hj hlt
      have hk := h.chain (j - start) (by omega) (by omega)
      rw [Nat.add_sub_cancel' (by omega)] at hk
      rw [hk]
      congr 2
      omega
    · have hstops := h.stops
      rwa [show 2 + (start + n - (start + 1)) = n + 1 by omega]
  rw [runLength, hend, Nat.add_sub_cancel_left]

theorem Spans.unique {l : Ledger} {start m n : Nat} (hm : l.Spans start m) (hn : l.Spans start n) :
    m = n := hm.runLength_eq.symm.trans hn.runLength_eq

/-- The chain behind an entry is a matter of the entries behind it alone. -/
theorem Spans.congr {l m : Ledger} {start n : Nat} (h : l.Spans start n)
    (hsame : ∀ j, start < j → m.get? j = l.get? j) : m.Spans start n := by
  have hpos := h.pos
  refine ⟨h.pos, ?_, ?_⟩
  · intro k hk hkn
    rw [hsame _ (by omega)]
    exact h.chain k hk hkn
  · rw [hsame _ (by omega)]
    exact h.stops

theorem add_runLength (l : Ledger) (start : Nat) :
    start + l.runLength start = l.chainEnd (start + 1) 2 := by
  have := l.le_chainEnd (start + 1) 2
  rw [runLength]
  omega

theorem spans_runLength (l : Ledger) (start : Nat) : l.Spans start (l.runLength start) := by
  have hend := l.add_runLength start
  refine ⟨l.runLength_pos start, ?_, ?_⟩
  · intro k hk hkn
    have hlt : start + k < l.chainEnd (start + 1) 2 := by omega
    rw [get?_of_lt_chainEnd (by omega) hlt]
    congr 2
    omega
  · have hstop := l.get?_chainEnd (start + 1) 2
    rw [← hend] at hstop
    rwa [show 2 + (start + l.runLength start - (start + 1)) = l.runLength start + 1 by
      have := l.runLength_pos start
      omega] at hstop

theorem add_runLength_le_size {l : Ledger} {start : Nat} (h : start < l.size) :
    start + l.runLength start ≤ l.size := by
  rw [add_runLength]
  exact chainEnd_le_size h

theorem Spans.add_le_size {l : Ledger} {start n : Nat} (h : l.Spans start n)
    (hstart : start < l.size) : start + n ≤ l.size := by
  rw [← h.runLength_eq]
  exact add_runLength_le_size hstart

end Ledger
end MipsVm
