import Mathlib.Algebra.GroupWithZero.Nat
import Mathlib.Data.List.Pairwise
import Mathlib.Data.Nat.Find
import MipsVm.Proofs.LedgerScan

/-! The frames handed out of a pool as a finite set of disjoint intervals, and the one ledger that
records such a set. -/
namespace MipsVm

/-- Frames handed out together; a stamped run carries the thread-stack footer. -/
structure Run where
  start : Nat
  len : Nat
  stamped : Bool
deriving DecidableEq, Repr

namespace Run

def stop (r : Run) : Nat := r.start + r.len

def Covers (r : Run) (i : Nat) : Prop := r.start ≤ i ∧ i < r.stop

instance (r : Run) (i : Nat) : Decidable (r.Covers i) := inferInstanceAs (Decidable (_ ∧ _))

def Apart (r t : Run) : Prop := r.stop ≤ t.start ∨ t.stop ≤ r.start

instance : Std.Symm Apart := ⟨fun _ _ h => h.symm⟩

def stamp (r : Run) : Run := { r with stamped := true }

/-- The ledger entry of frame `i` of the run. -/
def entry (r : Run) (i : Nat) : Entry :=
  if r.stamped = true ∧ i = r.start then .footer else .ofRun r.len (i - r.start)

theorem entry_ne_free (r : Run) (i : Nat) : r.entry i ≠ .free := by
  unfold entry Entry.ofRun
  split_ifs <;> exact nofun

theorem entry_start (r : Run) :
    r.entry r.start = if r.stamped = true then .footer else .start r.len := by
  simp [entry, Entry.ofRun]

theorem entry_of_lt (r : Run) {i : Nat} (h : r.start < i) :
    r.entry i = .continuation (i - r.start + 1) := by
  unfold entry Entry.ofRun
  rw [if_neg (by omega), if_neg (by omega)]

end Run

/-- Disjoint runs of at least one frame each out of `frames` frames. -/
structure RunSet (frames : Nat) where
  runs : List Run
  nonempty : ∀ r ∈ runs, 0 < r.len
  inside : ∀ r ∈ runs, r.stop ≤ frames
  apart : runs.Pairwise Run.Apart

namespace RunSet
variable {frames : Nat} {s t : RunSet frames} {r : Run} {i : Nat}

def empty (frames : Nat) : RunSet frames := ⟨[], nofun, nofun, .nil⟩

/-- The run that frame `i` belongs to. -/
def at? (s : RunSet frames) (i : Nat) : Option Run := s.runs.find? fun r => r.Covers i

/-- Whether the `n` frames from `start` on exist and belong to no run. -/
def Gap (s : RunSet frames) (start n : Nat) : Prop :=
  start + n ≤ frames ∧ ∀ r ∈ s.runs, r.stop ≤ start ∨ start + n ≤ r.start

instance (s : RunSet frames) (start n : Nat) : Decidable (s.Gap start n) :=
  inferInstanceAs (Decidable (_ ∧ _))

instance (s : RunSet frames) (n : Nat) : Decidable (∃ start, s.Gap start n) :=
  decidable_of_iff (∃ start, start < frames + 1 ∧ s.Gap start n)
    ⟨fun ⟨start, _, h⟩ => ⟨start, h⟩, fun ⟨start, h⟩ => ⟨start, by have := h.1; omega, h⟩⟩

def add (s : RunSet frames) (start n : Nat) (hn : 0 < n) (h : s.Gap start n) : RunSet frames where
  runs := ⟨start, n, false⟩ :: s.runs
  nonempty := by simpa using ⟨hn, s.nonempty⟩
  inside := by simpa [Run.stop] using ⟨h.1, s.inside⟩
  apart := List.pairwise_cons.mpr ⟨fun r hr => (h.2 r hr).symm, s.apart⟩

def remove (s : RunSet frames) (r : Run) : RunSet frames where
  runs := s.runs.erase r
  nonempty t ht := s.nonempty t (List.mem_of_mem_erase ht)
  inside t ht := s.inside t (List.mem_of_mem_erase ht)
  apart := s.apart.sublist List.erase_sublist

/-- `stamp` at one run of a set. -/
def stampIf (r t : Run) : Run := if t = r then t.stamp else t

theorem start_stampIf (r t : Run) : (stampIf r t).start = t.start := by
  unfold stampIf
  split_ifs <;> rfl

theorem len_stampIf (r t : Run) : (stampIf r t).len = t.len := by
  unfold stampIf
  split_ifs <;> rfl

theorem stop_stampIf (r t : Run) : (stampIf r t).stop = t.stop := by
  rw [Run.stop, start_stampIf, len_stampIf, Run.stop]

def stamp (s : RunSet frames) (r : Run) : RunSet frames where
  runs := s.runs.map (stampIf r)
  nonempty := by simpa [len_stampIf] using s.nonempty
  inside := by simpa [stop_stampIf] using s.inside
  apart := by
    rw [List.pairwise_map]
    refine s.apart.imp ?_
    intro a b h
    rwa [Run.Apart, start_stampIf, stop_stampIf, start_stampIf, stop_stampIf]

/-- Number of frames in the runs. -/
def used (s : RunSet frames) : Nat := (s.runs.map Run.len).sum

def count (s : RunSet frames) : Nat := s.runs.length

theorem nodup (s : RunSet frames) : s.runs.Nodup := by
  refine s.apart.imp_of_mem ?_
  rintro a b ha - h rfl
  have := s.nonempty a ha
  simp only [Run.Apart, Run.stop] at h
  omega

theorem covers_start (hr : r ∈ s.runs) : r.Covers r.start := by
  have := s.nonempty r hr
  simp only [Run.Covers, Run.stop]
  omega

theorem lt_of_covers (hr : r ∈ s.runs) (h : r.Covers i) : i < frames :=
  Nat.lt_of_lt_of_le h.2 (s.inside r hr)

theorem eq_of_covers {r u : Run} (hr : r ∈ s.runs) (hu : u ∈ s.runs) (hri : r.Covers i)
    (hui : u.Covers i) : r = u := by
  -- different runs are apart, so they have no frame in common
  by_contra hne
  have h := s.apart.forall hr hu hne
  simp only [Run.Apart, Run.Covers] at *
  omega

theorem at?_eq_some_iff : s.at? i = some r ↔ r ∈ s.runs ∧ r.Covers i := by
  constructor
  · intro h
    exact ⟨List.mem_of_find?_eq_some h, by simpa using List.find?_some h⟩
  · rintro ⟨hr, hi⟩
    cases h : s.at? i with
    | none =>
      have hnone := List.find?_eq_none.mp h r hr
      simp [hi] at hnone
    | some u =>
      have hu : u.Covers i := by simpa using List.find?_some h
      rw [eq_of_covers (List.mem_of_find?_eq_some h) hr hu hi]

theorem at?_eq_none_iff : s.at? i = none ↔ ∀ r ∈ s.runs, ¬ r.Covers i := by
  simp [at?, List.find?_eq_none]

/-- The ledger entry of frame `i`. -/
def entry (s : RunSet frames) (i : Nat) : Entry :=
  match s.at? i with
  | some r => r.entry i
  | none => .free

theorem entry_of_covers (hr : r ∈ s.runs) (hi : r.Covers i) : s.entry i = r.entry i := by
  rw [entry, at?_eq_some_iff.mpr ⟨hr, hi⟩]

theorem entry_eq_free_iff : s.entry i = .free ↔ ∀ r ∈ s.runs, ¬ r.Covers i := by
  rw [← at?_eq_none_iff, entry]
  cases s.at? i with
  | none => simp
  | some r => simp [r.entry_ne_free i]

theorem entry_congr (h : ∀ r : Run, r.Covers i → (r ∈ s.runs ↔ r ∈ t.runs)) :
    s.entry i = t.entry i := by
  -- no run that does not cover `i` has a say in its entry
  have hat : s.at? i = t.at? i := by
    apply Option.ext
    intro r
    rw [at?_eq_some_iff, at?_eq_some_iff]
    constructor
    · rintro ⟨hr, hi⟩
      exact ⟨(h r hi).mp hr, hi⟩
    · rintro ⟨hr, hi⟩
      exact ⟨(h r hi).mpr hr, hi⟩
  rw [entry, entry, hat]

theorem entry_add {start n : Nat} (hn : 0 < n) (h : s.Gap start n) (i : Nat) :
    (s.add start n hn h).entry i =
      if start ≤ i ∧ i < start + n then .ofRun n (i - start) else s.entry i := by
  split_ifs with hi
  · -- a frame of the new run
    have hmem : (⟨start, n, false⟩ : Run) ∈ (s.add start n hn h).runs := List.mem_cons_self
    rw [entry_of_covers hmem hi, Run.entry, if_neg (by simp)]
  · apply entry_congr
    intro r hr
    rw [add, List.mem_cons, or_iff_right]
    rintro rfl
    exact hi hr

theorem mem_remove {u : Run} : u ∈ (s.remove r).runs ↔ u ≠ r ∧ u ∈ s.runs :=
  s.nodup.mem_erase_iff

/-- No other run of the set starts where `r` does. -/
theorem filter_start_ne (hr : r ∈ s.runs) :
    s.runs.filter (fun u => u.start ≠ r.start) = (s.remove r).runs := by
  have herase : (s.remove r).runs = s.runs.filter (· != r) := s.nodup.erase_eq_filter r
  rw [herase]
  apply List.filter_congr
  intro u hu
  have hsame : u.start = r.start ↔ u = r := by
    constructor
    · intro hstart
      have hcovers : u.Covers r.start := hstart ▸ covers_start hu
      exact eq_of_covers hu hr hcovers (covers_start hr)
    · intro h
      rw [h]
  simp only [ne_eq, hsame, bne, decide_not]
  rfl

theorem entry_remove (hr : r ∈ s.runs) (i : Nat) :
    (s.remove r).entry i = if r.Covers i then .free else s.entry i := by
  split_ifs with hi
  · -- another run over the frame would share it with `r`
    rw [entry_eq_free_iff]
    intro u hu hui
    obtain ⟨hne, hmem⟩ := mem_remove.mp hu
    exact hne (eq_of_covers hmem hr hui hi)
  · apply entry_congr
    intro u hu
    rw [mem_remove, and_iff_right]
    rintro rfl
    exact hi hu

theorem entry_stamp (hr : r ∈ s.runs) (i : Nat) :
    (s.stamp r).entry i = if i = r.start then .footer else s.entry i := by
  have hself : r.stamp ∈ (s.stamp r).runs := List.mem_map.mpr ⟨r, hr, if_pos rfl⟩
  by_cases hi : r.Covers i
  · rw [entry_of_covers hself hi, entry_of_covers hr hi]
    split_ifs with hstart
    · rw [hstart]
      exact r.stamp.entry_start
    · -- behind the first frame of the run its length and stamp do not show
      have hlt : r.start < i := Nat.lt_of_le_of_ne hi.1 (Ne.symm hstart)
      rw [r.entry_of_lt hlt]
      exact r.stamp.entry_of_lt hlt
  · -- the runs over a frame outside of `r` are the same in both sets
    rw [if_neg (by rintro rfl; exact hi (covers_start hr))]
    apply entry_congr
    intro u hu
    simp only [stamp, List.mem_map]
    constructor
    · rintro ⟨v, hv, rfl⟩
      by_cases hvr : v = r
      · subst hvr
        rw [stampIf, if_pos rfl] at hu
        exact absurd hu hi
      · rwa [stampIf, if_neg hvr]
    · intro hmem
      have hur : u ≠ r := by
        rintro rfl
        exact hi hu
      exact ⟨u, hmem, if_neg hur⟩

theorem used_add {start n : Nat} (hn : 0 < n) (h : s.Gap start n) :
    (s.add start n hn h).used = n + s.used := by
  simp [used, add]

theorem used_remove (hr : r ∈ s.runs) : s.used = r.len + (s.remove r).used := by
  have hperm := (List.perm_cons_erase hr).map Run.len
  simpa [used, remove] using hperm.sum_nat

theorem used_stamp : (s.stamp r).used = s.used := by
  have hlen : Run.len ∘ stampIf r = Run.len := funext (len_stampIf r)
  simp only [used, stamp, List.map_map, hlen]

theorem count_remove (hr : r ∈ s.runs) : s.count = (s.remove r).count + 1 := by
  simpa [count, remove] using (List.perm_cons_erase hr).length_eq

theorem count_stamp : (s.stamp r).count = s.count := List.length_map _

end RunSet
end MipsVm
