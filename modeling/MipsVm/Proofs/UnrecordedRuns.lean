import MipsVm.Proofs.FirstFit
import MipsVm.Proofs.StrayWrites

/-! The count of runs that a frame pool keeps beside its ledger, along requests and stray writes of any
number. The audit compares the free frames with their count and leaves the runs uncompared: those that it
counts are the recorded ones but for the run starts that came and went unrecorded. -/
namespace MipsVm
namespace Ledger
variable {l : Ledger} {i : Nat}

/-- Where all entries but the first count as those they replace, only the first changes the count. -/
theorem countP_overwrite {old : Entry} {n : Nat} {f : Nat → Entry} (P : Entry → Bool) (hn : 0 < n)
    (hfirst : l.get? i = some old)
    (hrest : ∀ k, 0 < k → k < n → ∃ e, l.get? (i + k) = some e ∧ P e = P (f k)) :
    (l.overwrite i n f).entries.countP P + (if P old then 1 else 0) =
      l.entries.countP P + if P (f 0) then 1 else 0 := by
  induction n with
  | zero => omega
  | succ n ih =>
    rcases Nat.eq_zero_or_pos n with rfl | hpos
    · exact countP_overwrite_one P (f 0) hfirst
    obtain ⟨e, he, hPe⟩ := hrest n hpos (Nat.lt_succ_self n)
    have hkept : (l.overwrite i n f).get? (i + n) = some e := by
      rw [get?_overwrite, if_neg (by omega), he]
    have hlast := countP_overwrite_one P (f n) hkept
    have hinit := ih hpos fun k hk hkn => hrest k hk (by omega)
    rw [overwrite_succ, hPe] at hlast
    omega

theorem opensRun_ofRun {n k : Nat} : (Entry.ofRun n k).opensRun = decide (k = 0) := by
  unfold Entry.ofRun
  split_ifs with hk <;> simp [hk]

theorem countP_mark {start n : Nat} (hn : 0 < n) (h : l.FreeRun start n) :
    (l.overwrite start n (Entry.ofRun n)).entries.countP Entry.opensRun =
      l.entries.countP Entry.opensRun + 1 := by
  have hcount := countP_overwrite Entry.opensRun (f := Entry.ofRun n) hn (h 0 hn) fun k hk hkn =>
    ⟨.free, h k hkn, by rw [opensRun_ofRun, decide_eq_false (Nat.ne_of_gt hk)]; rfl⟩
  simpa [opensRun_ofRun] using hcount

theorem countP_clear {e : Entry} {start : Nat} (h : l.get? start = some e) (hopens : e.opensRun = true) :
    (l.overwrite start (l.runLength start) fun _ => .free).entries.countP Entry.opensRun + 1 =
      l.entries.countP Entry.opensRun := by
  have hspans := l.spans_runLength start
  have hcount := countP_overwrite Entry.opensRun (f := fun _ => .free) hspans.pos h fun k hk hkn =>
    ⟨_, hspans.chain k hk hkn, rfl⟩
  simpa [hopens] using hcount

end Ledger

/-- What may befall a pool: a request, or a write past it over an entry of its ledger. -/
inductive PoolEvent where
  | call (c : PoolCall)
  | strayWrite (i : Nat) (e : Entry)

namespace FramePool
variable {p : FramePool}

/-- A write behind the end of the ledger does not hit it. -/
def next (p : FramePool) : PoolEvent → FramePool
  | .call c => (p.reply c).2
  | .strayWrite i e => (p.strayWrite? i e).getD p

def run (p : FramePool) (events : List PoolEvent) : FramePool := events.foldl next p

/-- Number of ledger entries that open a run. -/
def openings (p : FramePool) : Nat := p.ledger.entries.countP Entry.opensRun

/-- Run starts that the event puts into the ledger, less those that it takes out, without the count of
runs following: those of a write, and the one of a run whose frames a release made free before it
halted. -/
def unrecorded (p : FramePool) : PoolEvent → Int
  | .strayWrite i e =>
    match p.ledger.get? i with
    | some old => (if e.opensRun then 1 else 0) - if old.opensRun then 1 else 0
    | none => 0
  | .call (.deallocate pa) =>
    match (p.deallocate pa).1 with
    | .error _ => if (p.deallocate pa).2.ledger = p.ledger then 0 else -1
    | .ok _ => 0
  | .call _ => 0

/-- Run starts that came into the ledger unrecorded, less those that went, along the events. -/
def unrecordedIn : FramePool → List PoolEvent → Int
  | _, [] => 0
  | p, event :: events => p.unrecorded event + (p.next event).unrecordedIn events

theorem openings_allocate (hsize : p.ledger.size ≤ maxFrames) (n : Nat) :
    ((p.allocate n).2.openings : Int) - (p.allocate n).2.runs = p.openings - p.runs := by
  unfold allocate
  split_ifs with hfew
  · rfl
  cases hgap : p.ledger.findGap n with
  | none => rfl
  | some start =>
    obtain ⟨hn, hfree, -⟩ := Ledger.findGap_eq_some_iff.mp hgap
    have hmark := Ledger.mark_of_findGap_of_le hsize hgap
    have hcount := Ledger.countP_mark hn hfree
    simp only [claim_eq_ok hmark]
    simp only [openings, withLedger, hcount]
    omega

theorem openings_reclaim {pa : PAddr} {f : Fin p.ledger.size} {e : Entry}
    (hf : p.frameIndex pa = .ok f) (he : p.ledger.get f = e) (hopens : e.opensRun = true) :
    (p.reclaim pa).openings + 1 = p.openings := by
  have hget := (p.ledger.get?_val f).trans (congrArg some he)
  have hcleared : p.ledger.cleared f =
      p.ledger.overwrite f (p.ledger.runLength f) fun _ => .free := by
    cases e <;> simp_all [Ledger.cleared]
  have hcount := Ledger.countP_clear hget hopens
  rw [← hcleared] at hcount
  simp only [reclaim, hf]
  exact hcount

theorem runs_reclaim (p : FramePool) (pa : PAddr) : (p.reclaim pa).runs = p.runs := by
  unfold reclaim
  cases p.frameIndex pa <;> rfl

/-- The ledger is as it was when no run starts at the address, and one run start shorter otherwise. -/
theorem reclaim_cases (p : FramePool) (pa : PAddr) :
    ((p.reclaim pa).ledger = p.ledger ∧ ∃ cause, p.reclaimed pa = .error cause) ∨
      (p.reclaim pa).openings + 1 = p.openings := by
  cases hf : p.frameIndex pa with
  | error cause =>
    refine .inl ⟨?_, cause, ?_⟩
    · simp only [reclaim, hf]
    · simp only [reclaimed, hf]
      rfl
  | ok f =>
    have hledger : (p.reclaim pa).ledger = p.ledger.cleared f := by simp only [reclaim, hf, withLedger]
    have hreclaimed : p.reclaimed pa = p.ledger.released f := by
      simp only [reclaimed, hf]
      rfl
    cases he : p.ledger.get f with
    | free =>
      refine .inl ⟨by simp only [hledger, Ledger.cleared, he], .doubleFree f, ?_⟩
      simp only [hreclaimed, Ledger.released, he]
    | continuation position =>
      refine .inl ⟨by simp only [hledger, Ledger.cleared, he], .notRunStart f, ?_⟩
      simp only [hreclaimed, Ledger.released, he]
    | start len => exact .inr (openings_reclaim hf he rfl)
    | footer => exact .inr (openings_reclaim hf he rfl)

/-- After the ledger has given a run back, the release halts just if no run was recorded. -/
theorem deallocate_of_reclaimed {pa : PAddr} {r : Released} (hignores : p.ignores pa = false)
    (h : p.reclaimed pa = .ok r) : ∃ q, q.ledger = (p.reclaim pa).ledger ∧
      ((q.runs = p.runs ∧ p.deallocate pa = (.error .overflow, q)) ∨
        (q.runs + 1 = p.runs ∧ p.deallocate pa = (.ok r.cleared, q))) := by
  have hruns := p.runs_reclaim pa
  simp only [deallocate, hignores, h, Bool.false_eq_true, if_false]
  split_ifs with hzero
  · exact ⟨{ p.reclaim pa with free := p.free + r.cleared }, rfl, .inl ⟨hruns, rfl⟩⟩
  · refine ⟨{ p.reclaim pa with free := p.free + r.cleared, runs := (p.reclaim pa).runs - 1 }, rfl,
      .inr ⟨?_, rfl⟩⟩
    simp only at hzero ⊢
    omega

theorem openings_deallocate (p : FramePool) (pa : PAddr) :
    ((p.deallocate pa).2.openings : Int) - (p.deallocate pa).2.runs =
      p.openings - p.runs + p.unrecorded (.call (.deallocate pa)) := by
  have hruns := p.runs_reclaim pa
  cases hignores : p.ignores pa with
  | true => simp [unrecorded, deallocate, hignores]
  | false =>
    rcases p.reclaim_cases pa with ⟨hledger, cause, hcause⟩ | hopenings
    · -- nothing was cleared
      have hsame : (p.reclaim pa).openings = p.openings := by rw [openings, hledger, openings]
      simp only [unrecorded, deallocate_of_reclaimed_error hignores hcause, if_pos hledger, hsame, hruns]
      omega
    have hledger : (p.reclaim pa).ledger ≠ p.ledger := by
      intro heq
      rw [openings, heq, ← openings] at hopenings
      omega
    cases hreclaimed : p.reclaimed pa with
    | error cause =>
      -- a run was cleared, and its length was not the recorded one
      simp only [unrecorded, deallocate_of_reclaimed_error hignores hreclaimed, if_neg hledger, hruns]
      omega
    | ok r =>
      obtain ⟨q, hq, hcases⟩ := deallocate_of_reclaimed hignores hreclaimed
      have hqopenings : q.openings = (p.reclaim pa).openings := by rw [openings, hq, openings]
      rcases hcases with ⟨hqruns, hdeallocate⟩ | ⟨hqruns, hdeallocate⟩
      · simp only [unrecorded, hdeallocate, hq, if_neg hledger, hqopenings, hqruns]
        omega
      · simp only [unrecorded, hdeallocate, hqopenings]
        omega

theorem openings_markFooter {pa : PAddr} {q : FramePool} (h : p.markFooter pa = .ok q) :
    q.openings = p.openings ∧ q.runs = p.runs := by
  cases hf : p.frameIndex pa with
  | error cause =>
    simp only [markFooter, hf] at h
    cases h
  | ok f =>
    rw [markFooter_eq hf] at h
    split at h
    · rename_i l hl
      obtain rfl := Except.ok.inj h
      refine ⟨?_, rfl⟩
      have hget := p.ledger.get?_val f
      have hcount := Ledger.countP_overwrite_one Entry.opensRun .footer hget
      -- the entry under the footer opened a run, and the footer does
      unfold Ledger.stampFooter at hl
      cases he : p.ledger.get f <;> simp only [he, reduceCtorEq, Except.ok.injEq] at hl
      all_goals
        rw [he] at hcount
        simpa [openings, withLedger, ← hl] using hcount
    · cases h

theorem openings_strayWrite (p : FramePool) (i : Nat) (e : Entry) :
    ((p.next (.strayWrite i e)).openings : Int) - (p.next (.strayWrite i e)).runs =
      p.openings - p.runs + p.unrecorded (.strayWrite i e) := by
  by_cases hi : i < p.ledger.size
  · have hwrite : p.strayWrite? i e = some _ := strayWrite?_eq_some_iff.mpr ⟨hi, rfl⟩
    have hget := Ledger.get?_eq_getElem hi
    have hcount := Ledger.countP_overwrite_one Entry.opensRun e hget
    simp only [next, hwrite, Option.getD_some, unrecorded, hget]
    simp only [openings, withLedger]
    split_ifs at hcount ⊢ <;> omega
  · have hget := Ledger.get?_eq_none (Nat.not_lt.mp hi)
    simp [next, strayWrite?, hi, unrecorded, hget]

/-- No event adds frames or takes any away. -/
theorem size_next (p : FramePool) (event : PoolEvent) : (p.next event).ledger.size = p.ledger.size := by
  cases event with
  | strayWrite i e =>
    by_cases hi : i < p.ledger.size
    · have hwrite : p.strayWrite? i e = some _ := strayWrite?_eq_some_iff.mpr ⟨hi, rfl⟩
      rw [next, hwrite]
      exact Ledger.size_overwrite ..
    · simp [next, strayWrite?, hi]
  | call c =>
    cases c with
    | allocate n => exact (p.sameFrames_allocate n).size
    | deallocate pa => exact (p.sameFrames_deallocate pa).size
    | markFooter pa =>
      simp only [next, reply]
      cases h : p.markFooter pa with
      | error cause => rfl
      | ok q => exact (sameFrames_markFooter h).size
    | runLength pa => rfl
    | stats => rfl

/-- What one event does to the difference of the two numbers of runs. -/
theorem openings_next (hsize : p.ledger.size ≤ maxFrames) (event : PoolEvent) :
    ((p.next event).openings : Int) - (p.next event).runs =
      p.openings - p.runs + p.unrecorded event := by
  cases event with
  | strayWrite i e => exact p.openings_strayWrite i e
  | call c =>
    cases c with
    | allocate n => exact (openings_allocate hsize n).trans (Int.add_zero _).symm
    | deallocate pa => exact p.openings_deallocate pa
    | markFooter pa =>
      simp only [next, reply, unrecorded]
      cases h : p.markFooter pa with
      | error cause => exact (Int.add_zero _).symm
      | ok q =>
        obtain ⟨hopenings, hruns⟩ := openings_markFooter h
        simp only [hopenings, hruns, Int.add_zero]
    | runLength pa => exact (Int.add_zero _).symm
    | stats => exact (Int.add_zero _).symm

theorem openings_run (hsize : p.ledger.size ≤ maxFrames) (events : List PoolEvent) :
    ((p.run events).openings : Int) - (p.run events).runs =
      p.openings - p.runs + p.unrecordedIn events := by
  induction events generalizing p with
  | nil => exact (Int.add_zero _).symm
  | cons event events ih =>
    calc
      ((p.run (event :: events)).openings : Int) - (p.run (event :: events)).runs
        = (p.next event).openings - (p.next event).runs + (p.next event).unrecordedIn events :=
        ih (p.size_next event ▸ hsize)
      _ = p.openings - p.runs + p.unrecorded event + (p.next event).unrecordedIn events := by
        rw [openings_next hsize]
      _ = p.openings - p.runs + p.unrecordedIn (event :: events) := Int.add_assoc ..

theorem openings_new {frames : Nat} {base : PAddr} (h : new frames base = .ok p) :
    p.openings = 0 ∧ p.runs = 0 ∧ p.ledger.size = frames := by
  unfold new at h
  split_ifs at h
  obtain rfl := Except.ok.inj h
  refine ⟨?_, rfl, Ledger.size_new frames⟩
  simp [openings, Ledger.new, Array.countP_replicate]

end FramePool

/-- Whatever was asked of a pool and written past it, an audit that passes answers for all but the number
of runs, and for that too just if no run starts came or went unrecorded on balance: as long as the
ledger is not too long for its lengths to be recorded. -/
theorem FramePool.audit_eq_stats_iff {frames : Nat} {base : PAddr} {fresh : FramePool}
    (hframes : frames ≤ maxFrames) (h : FramePool.new frames base = .ok fresh)
    (events : List PoolEvent) {s t : FrameStats} (haudit : (fresh.run events).audit = .ok s)
    (hstats : (fresh.run events).stats = .ok t) :
    s.total = t.total ∧ s.free = t.free ∧ s.used = t.used ∧
      (s.runs : Int) = t.runs + fresh.unrecordedIn events ∧
      (s = t ↔ fresh.unrecordedIn events = 0) := by
  obtain ⟨c, hc, hfree, rfl⟩ := FramePool.audit_of_ok haudit
  obtain ⟨-, hruns, hsum⟩ := Ledger.audit_counts hc
  have hnew := FramePool.openings_new h
  have hrun := FramePool.openings_run (hnew.2.2 ▸ hframes) events
  unfold FramePool.stats at hstats
  split_ifs at hstats with hle
  obtain rfl := Except.ok.inj hstats
  have hbalance : (c.runs : Int) = (fresh.run events).runs + fresh.unrecordedIn events := by
    rw [hruns]
    rw [hnew.1, hnew.2.1, FramePool.openings] at hrun
    omega
  have hused : c.used = (fresh.run events).ledger.size - (fresh.run events).free := by omega
  refine ⟨rfl, hfree, hused, hbalance, ?_⟩
  simp only [FrameStats.mk.injEq, true_and, hfree, hused]
  omega

/-- A length recorded over the continuation of a stamped run: the ledger counts two runs, two is what
the audit answers, and one is what the pool has recorded. -/
theorem FramePool.stray_run_passes_audit :
    ∃ fresh, FramePool.new 2 ⟨0x100000, by decide⟩ = .ok fresh ∧
      ∃ p, p = fresh.run [.call (.allocate 2), .call (.markFooter ⟨0x100000, by decide⟩),
        .strayWrite 1 (.start 1)] ∧
      p.audit = .ok ⟨2, 0, 2, 2⟩ ∧ p.stats = .ok ⟨2, 0, 2, 1⟩ := by
  refine ⟨_, rfl, _, rfl, ?_, ?_⟩
  · decide +kernel
  · decide +kernel

theorem FramePool.audit_eq_stats_iff_of_split_run :
    2 ≤ maxFrames ∧ ∃ fresh, FramePool.new 2 ⟨0x100000, by decide⟩ = .ok fresh ∧
      ∃ events : List PoolEvent, events = [.call (.allocate 2),
        .call (.markFooter ⟨0x100000, by decide⟩), .strayWrite 1 (.start 1),
        .call (.deallocate ⟨0x100000, by decide⟩)] ∧
      ∃ s t, (fresh.run events).audit = .ok s ∧ (fresh.run events).stats = .ok t ∧
        s.free = t.free ∧ (s.runs : Int) = t.runs + fresh.unrecordedIn events ∧
        fresh.unrecordedIn events = 1 := by
  have hnew : FramePool.new 2 ⟨0x100000, by decide⟩ =
      .ok (RunAllocator.new ⟨0x100000, by decide⟩ 2 (by decide)).pool :=
    (FramePool.new_eq_ok_iff (by decide)).mpr ⟨rfl, by decide, rfl⟩
  refine ⟨by decide, _, hnew, _, rfl, ?_⟩
  generalize hevents : ([.call (.allocate 2), .call (.markFooter ⟨0x100000, by decide⟩),
    .strayWrite 1 (.start 1), .call (.deallocate ⟨0x100000, by decide⟩)] : List PoolEvent) = events
  have haudit : ((RunAllocator.new ⟨0x100000, by decide⟩ 2 (by decide)).pool.run events).audit =
      .ok ⟨2, 1, 1, 1⟩ := by
    subst hevents
    decide +kernel
  have hstats : ((RunAllocator.new ⟨0x100000, by decide⟩ 2 (by decide)).pool.run events).stats =
      .ok ⟨2, 1, 1, 0⟩ := by
    subst hevents
    decide +kernel
  obtain ⟨-, hfree, -, hruns, -⟩ := FramePool.audit_eq_stats_iff (by decide) hnew events haudit hstats
  have hone : (1 : Int) = 0 + _ := hruns
  exact ⟨_, _, haudit, hstats, hfree, hruns, by omega⟩

end MipsVm
