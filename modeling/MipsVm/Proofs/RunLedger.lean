import Mathlib.Algebra.BigOperators.Group.List.Basic
import MipsVm.Proofs.RunSet

/-! The ledger operations on the ledger that records a set of runs: each is the operation on
intervals of the same meaning, and the answers are equal. -/
namespace MipsVm
namespace RunSet
variable {frames : Nat} {s t : RunSet frames} {r : Run} {i : Nat}

/-- The ledger that records the runs. -/
def ledger (s : RunSet frames) : Ledger := ⟨.ofFn fun i : Fin frames => s.entry i⟩

@[simp] theorem size_ledger (s : RunSet frames) : s.ledger.size = frames := Array.size_ofFn

theorem get?_ledger (s : RunSet frames) (i : Nat) :
    s.ledger.get? i = if i < frames then some (s.entry i) else none := by
  by_cases hi : i < frames <;> simp [Ledger.get?, ledger, hi]

theorem eq_ledger {l : Ledger} (hsize : l.size = frames)
    (h : ∀ i < frames, l.get? i = some (s.entry i)) : l = s.ledger := by
  apply Ledger.ext_get?
  intro i
  rw [get?_ledger]
  split_ifs with hi
  · exact h i hi
  · exact Ledger.get?_eq_none (by omega)

theorem ledger_empty (frames : Nat) : (empty frames).ledger = .new frames := by
  symm
  apply eq_ledger (Ledger.size_new frames)
  intro i hi
  have hfree : (empty frames).entry i = .free := entry_eq_free_iff.mpr nofun
  simp [hfree, Ledger.get?, Ledger.new, hi]

theorem overwrite_ledger {start n : Nat} {f : Nat → Entry}
    (h : ∀ i, t.entry i = if start ≤ i ∧ i < start + n then f (i - start) else s.entry i) :
    s.ledger.overwrite start n f = t.ledger := by
  apply eq_ledger (by simp)
  intro i hi
  rw [Ledger.get?_overwrite, get?_ledger, if_pos hi, h i, size_ledger]
  split_ifs <;> first | rfl | omega

theorem get_ledger (s : RunSet frames) (i : Fin s.ledger.size) : s.ledger.get i = s.entry i := by
  have hi : i.val < frames := Nat.lt_of_lt_of_eq i.isLt s.size_ledger
  have h := s.ledger.get?_val i
  rw [get?_ledger, if_pos hi] at h
  exact (Option.some.inj h).symm

theorem freeRun_ledger_iff {start n : Nat} (hn : 0 < n) :
    s.ledger.FreeRun start n ↔ s.Gap start n := by
  constructor
  · intro h
    have hlast := h.lt_size (Nat.sub_lt hn Nat.one_pos)
    rw [size_ledger] at hlast
    refine ⟨by omega, fun r hr => ?_⟩
    by_contra hover
    -- the later of the two starts is a frame of the run and of the gap
    have hlen := s.nonempty r hr
    have hle := s.inside r hr
    simp only [Run.stop] at hover hle
    have hcover : r.Covers (max start r.start) := by
      simp only [Run.Covers, Run.stop]
      omega
    have hfree := h (max start r.start - start) (by omega)
    rw [Nat.add_sub_cancel' (Nat.le_max_left start r.start), get?_ledger, if_pos (by omega),
      Option.some_inj] at hfree
    exact entry_eq_free_iff.mp hfree r hr hcover
  · rintro ⟨hle, hgap⟩ k hk
    -- no run covers a frame of the gap
    rw [get?_ledger, if_pos (by omega), Option.some_inj, entry_eq_free_iff]
    intro r hr hcover
    have := hgap r hr
    simp only [Run.Covers] at hcover
    omega

theorem findGap_ledger_eq_some_iff {n start : Nat} (hn : 0 < n) :
    s.ledger.findGap n = some start ↔ s.Gap start n ∧ ∀ j < start, ¬ s.Gap j n := by
  simp only [Ledger.findGap_eq_some_iff, freeRun_ledger_iff hn, hn, true_and]

theorem findGap_ledger_eq_none_iff {n : Nat} (hn : 0 < n) :
    s.ledger.findGap n = none ↔ ∀ start, ¬ s.Gap start n := by
  simp only [Ledger.findGap_eq_none_iff, freeRun_ledger_iff hn, Nat.ne_of_gt hn, false_or]

theorem mark_ledger {start n : Nat} (hn : 0 < n) (hframes : frames ≤ maxFrames)
    (h : s.Gap start n) : s.ledger.mark start n = .ok (s.add start n hn h).ledger := by
  have hle := h.1
  have hlimit : start + n < sizeLimit := by
    simp only [maxFrames, sizeLimit] at *
    omega
  simp only [maxFrames] at hframes
  rw [Ledger.mark_eq_of_freeRun hn hlimit ((freeRun_ledger_iff hn).mpr h), if_neg (by omega)]
  congr 1
  exact overwrite_ledger fun i => entry_add hn h i

/-- The run whose first frame is `i`, or why no run can be released there. -/
def runFrom (s : RunSet frames) (i : Nat) : Except LedgerError Run :=
  match s.at? i with
  | none => .error (.doubleFree i)
  | some r => if r.start = i then .ok r else .error (.notRunStart i)

theorem runFrom_eq_ok_iff : s.runFrom i = .ok r ↔ r ∈ s.runs ∧ r.start = i := by
  unfold runFrom
  constructor
  · intro h
    split at h
    · cases h
    · rename_i u hu
      split_ifs at h with hstart
      obtain rfl : u = r := by simpa using h
      exact ⟨(at?_eq_some_iff.mp hu).1, hstart⟩
  · rintro ⟨hr, rfl⟩
    rw [at?_eq_some_iff.mpr ⟨hr, covers_start hr⟩]
    exact if_pos rfl

/-- The places that a frame can have among the runs, with the entry that stands there. -/
inductive Place (s : RunSet frames) (i : Nat) : Prop
  | free (hfrom : s.runFrom i = .error (.doubleFree i)) (hentry : s.entry i = .free)
  | first (r : Run) (hr : r ∈ s.runs) (hstart : r.start = i) (hfrom : s.runFrom i = .ok r)
      (hentry : s.entry i = if r.stamped = true then .footer else .start r.len)
  | inner (position : Nat) (hfrom : s.runFrom i = .error (.notRunStart i))
      (hentry : s.entry i = .continuation position)

theorem place (s : RunSet frames) (i : Nat) : s.Place i := by
  cases hat : s.at? i with
  | none =>
    exact .free (by rw [runFrom, hat]) (entry_eq_free_iff.mpr (at?_eq_none_iff.mp hat))
  | some r =>
    obtain ⟨hr, hi⟩ := at?_eq_some_iff.mp hat
    by_cases hstart : r.start = i
    · refine .first r hr hstart (runFrom_eq_ok_iff.mpr ⟨hr, hstart⟩) ?_
      rw [entry_of_covers hr hi, ← hstart, r.entry_start]
    · refine .inner (i - r.start + 1) (by rw [runFrom, hat]; exact if_neg hstart) ?_
      rw [entry_of_covers hr hi, r.entry_of_lt (Nat.lt_of_le_of_ne hi.1 hstart)]

/-- No run reaches across the boundary in front of frame `i`. -/
def Edge (s : RunSet frames) (i : Nat) : Prop := ∀ r ∈ s.runs, r.Covers i → r.start = i

theorem edge_zero (s : RunSet frames) : s.Edge 0 := fun _ _ h => Nat.le_zero.mp h.1

theorem edge_succ (h : s.entry i = .free) : s.Edge (i + 1) := by
  intro r hr hcover
  have hnot := entry_eq_free_iff.mp h r hr
  simp only [Run.Covers] at hcover hnot
  omega

theorem edge_stop (hr : r ∈ s.runs) : s.Edge r.stop := by
  intro u hu hcover
  have hlen := s.nonempty r hr
  have hne : u ≠ r := by
    rintro rfl
    exact Nat.lt_irrefl _ hcover.2
  have hapart := s.apart.forall hu hr hne
  simp only [Run.Apart, Run.Covers, Run.stop] at *
  omega

theorem Edge.entry_ne_continuation (h : s.Edge i) (position : Nat) :
    s.entry i ≠ .continuation position := by
  -- continuations stand inside of runs, and a run over an edge starts there
  cases hat : s.at? i with
  | none =>
    rw [entry_eq_free_iff.mpr (at?_eq_none_iff.mp hat)]
    exact nofun
  | some r =>
    obtain ⟨hr, hcover⟩ := at?_eq_some_iff.mp hat
    rw [entry_of_covers hr hcover, ← h r hr hcover, r.entry_start]
    split_ifs <;> exact nofun

theorem spans_ledger (hr : r ∈ s.runs) : s.ledger.Spans r.start r.len := by
  have hle := s.inside r hr
  have hstop : r.stop = r.start + r.len := rfl
  refine ⟨s.nonempty r hr, ?_, ?_⟩
  · -- all frames of the run behind its first continue it
    intro k hpos hk
    have hcover : r.Covers (r.start + k) := by
      simp only [Run.Covers]
      omega
    rw [get?_ledger, if_pos (by omega), entry_of_covers hr hcover, r.entry_of_lt (by omega),
      Nat.add_sub_cancel_left]
  · -- and the frame behind its last does not
    rw [get?_ledger, ← hstop]
    split_ifs
    · exact fun h => (edge_stop hr).entry_ne_continuation _ (Option.some.inj h)
    · intro h
      cases h

theorem runLength_ledger (hr : r ∈ s.runs) : s.ledger.runLength r.start = r.len :=
  (spans_ledger hr).runLength_eq

theorem released_ledger (s : RunSet frames) (i : Fin s.ledger.size) :
    s.ledger.released i =
      (s.runFrom i).map fun r => ⟨if r.stamped = true then none else some r.len, r.len⟩ := by
  cases s.place i with
  | free hfrom hentry =>
    rw [Ledger.released, get_ledger, hentry, hfrom]
    rfl
  | first r hr hstart hfrom hentry =>
    have hlen : s.ledger.runLength i = r.len := by rw [← hstart, runLength_ledger hr]
    rw [Ledger.released, get_ledger, hentry, hfrom]
    cases hstamp : r.stamped <;> simp [hlen, hstamp, Except.map]
  | inner position hfrom hentry =>
    rw [Ledger.released, get_ledger, hentry, hfrom]
    rfl

theorem cleared_ledger (s : RunSet frames) (i : Fin s.ledger.size) :
    s.ledger.cleared i =
      match s.runFrom i with
      | .ok r => (s.remove r).ledger
      | .error _ => s.ledger := by
  cases s.place i with
  | free hfrom hentry => rw [Ledger.cleared, get_ledger, hentry, hfrom]
  | first r hr hstart hfrom hentry =>
    have hclear : s.ledger.overwrite i (s.ledger.runLength i) (fun _ => .free) =
        (s.remove r).ledger := by
      rw [← hstart, runLength_ledger hr]
      exact overwrite_ledger fun j => entry_remove hr j
    rw [Ledger.cleared, get_ledger, hentry, hfrom]
    cases hstamp : r.stamped <;> simpa using hclear
  | inner position hfrom hentry => rw [Ledger.cleared, get_ledger, hentry, hfrom]

theorem stampFooter_ledger (s : RunSet frames) (i : Fin s.ledger.size) :
    s.ledger.stampFooter i = (s.runFrom i).map fun r => (s.stamp r).ledger := by
  cases s.place i with
  | free hfrom hentry =>
    rw [Ledger.stampFooter, get_ledger, hentry, hfrom]
    rfl
  | first r hr hstart hfrom hentry =>
    have hstamped : s.ledger.overwrite i 1 (fun _ => .footer) = (s.stamp r).ledger := by
      rw [← hstart]
      apply overwrite_ledger
      intro j
      rw [entry_stamp hr]
      congr 1
      exact propext (by omega)
    rw [Ledger.stampFooter, get_ledger, hentry, hfrom]
    cases hstamp : r.stamped <;> simpa [Except.map] using hstamped
  | inner position hfrom hentry =>
    rw [Ledger.stampFooter, get_ledger, hentry, hfrom]
    rfl

/-- The runs that start at frame `i` or behind it. -/
def runsFrom (s : RunSet frames) (i : Nat) : List Run := s.runs.filter (i ≤ ·.start)

def usedFrom (s : RunSet frames) (i : Nat) : Nat := ((s.runsFrom i).map Run.len).sum

theorem runsFrom_zero (s : RunSet frames) : s.runsFrom 0 = s.runs := by
  simp [runsFrom]

theorem runsFrom_frames (s : RunSet frames) : s.runsFrom frames = [] := by
  rw [runsFrom, List.filter_eq_nil_iff]
  intro r hr
  have := lt_of_covers hr (covers_start hr)
  simp only [decide_eq_true_eq]
  omega

theorem runsFrom_succ (h : s.entry i = .free) : s.runsFrom (i + 1) = s.runsFrom i := by
  apply List.filter_congr
  intro r hr
  have hne : r.start ≠ i := by
    rintro rfl
    exact entry_eq_free_iff.mp h r hr (covers_start hr)
  rw [decide_eq_decide]
  omega

theorem runsFrom_start (hr : r ∈ s.runs) :
    (s.runsFrom r.start).Perm (r :: s.runsFrom r.stop) := by
  have hlen := s.nonempty r hr
  have hnotin : r ∉ s.runsFrom r.stop := by
    intro h
    have hle : r.stop ≤ r.start := by simpa using (List.mem_filter.mp h).2
    simp only [Run.stop] at hle
    omega
  refine (List.perm_ext_iff_of_nodup (s.nodup.filter _)
    (List.nodup_cons.mpr ⟨hnotin, s.nodup.filter _⟩)).mpr ?_
  intro u
  simp only [runsFrom, List.mem_cons, List.mem_filter, decide_eq_true_eq]
  constructor
  · rintro ⟨hu, hle⟩
    by_cases hur : u = r
    · exact .inl hur
    · -- another run that starts behind the start of `r` starts behind all of `r`
      have hulen := s.nonempty u hu
      have hapart := s.apart.forall hu hr hur
      refine .inr ⟨hu, ?_⟩
      simp only [Run.Apart, Run.stop] at hapart ⊢
      omega
  · rintro (rfl | ⟨hu, hle⟩)
    · exact ⟨hr, Nat.le_refl _⟩
    · refine ⟨hu, ?_⟩
      simp only [Run.stop] at hle
      omega

theorem usedFrom_start (hr : r ∈ s.runs) : s.usedFrom r.start = r.len + s.usedFrom r.stop := by
  simpa [usedFrom] using ((runsFrom_start hr).map Run.len).sum_nat

/-- The audit from a boundary on counts the runs behind it. -/
theorem auditFrom_ledger (s : RunSet frames) (frame : Nat) (c : Census) (hframe : frame ≤ frames)
    (hedge : s.Edge frame) :
    s.usedFrom frame ≤ frames - frame ∧
      s.ledger.auditFrom frame c =
        .ok ⟨c.free + (frames - frame - s.usedFrom frame), c.used + s.usedFrom frame,
          c.runs + (s.runsFrom frame).length⟩ := by
  -- the walk is from boundary to boundary, over a free frame or over a whole run
  induction hk : frames - frame using Nat.strongRecOn generalizing frame c with
  | ind k ih =>
    subst hk
    rcases Nat.eq_or_lt_of_le hframe with rfl | hlt
    · have hend : ¬ frame < s.ledger.entries.size := Nat.not_lt.mpr (Nat.le_of_eq s.size_ledger)
      rw [Ledger.auditFrom, dif_neg hend, usedFrom, runsFrom_frames]
      simp
    have hlt' : frame < s.ledger.entries.size := Nat.lt_of_lt_of_eq hlt s.size_ledger.symm
    have hget : s.ledger.entries[frame] = s.entry frame := s.get_ledger ⟨frame, hlt'⟩
    rw [Ledger.auditFrom, dif_pos hlt', hget]
    cases s.place frame with
    | free hfrom hentry =>
      obtain ⟨hle, haudit⟩ :=
        ih _ (by omega) (frame + 1) { c with free := c.free + 1 } hlt (edge_succ hentry) rfl
      rw [usedFrom, runsFrom_succ hentry, ← usedFrom] at hle haudit
      rw [hentry]
      refine ⟨by omega, haudit.trans ?_⟩
      simp only [Except.ok.injEq, Census.mk.injEq, and_true]
      omega
    | first r hr hstart hfrom hentry =>
      subst hstart
      have hlen := s.nonempty r hr
      have hstop : r.start + r.len = r.stop := rfl
      have hinside := s.inside r hr
      obtain ⟨hle, haudit⟩ := ih _ (by omega) r.stop (c.addRun r.len) hinside (edge_stop hr) rfl
      have hused := usedFrom_start hr
      have hcount : (s.runsFrom r.start).length = (s.runsFrom r.stop).length + 1 :=
        (runsFrom_start hr).length_eq
      have hstep : s.ledger.auditFrom (r.start + r.len) (c.addRun r.len) =
          .ok ⟨c.free + (frames - r.start - s.usedFrom r.start), c.used + s.usedFrom r.start,
            c.runs + (s.runsFrom r.start).length⟩ := by
        rw [hstop, haudit, Census.addRun]
        simp only [Except.ok.injEq, Census.mk.injEq]
        omega
      refine ⟨by omega, ?_⟩
      rw [hentry, runLength_ledger hr]
      split_ifs
      · exact hstep
      · simpa using hstep
    | inner position hfrom hentry => exact absurd hentry (hedge.entry_ne_continuation position)

theorem used_le (s : RunSet frames) : s.used ≤ frames := by
  have h := (s.auditFrom_ledger 0 ⟨0, 0, 0⟩ (Nat.zero_le _) s.edge_zero).1
  rwa [usedFrom, runsFrom_zero] at h

theorem audit_ledger (s : RunSet frames) :
    s.ledger.audit = .ok ⟨frames - s.used, s.used, s.count⟩ := by
  have h := (s.auditFrom_ledger 0 ⟨0, 0, 0⟩ (Nat.zero_le _) s.edge_zero).2
  rw [usedFrom, runsFrom_zero] at h
  simpa [Ledger.audit, used, count] using h

theorem Gap.add_used_le {start n : Nat} (hn : 0 < n) (h : s.Gap start n) : n + s.used ≤ frames := by
  -- with the gap handed out the runs still fit
  rw [← used_add hn h]
  exact used_le _

theorem count_le_used (s : RunSet frames) : s.count ≤ s.used := by
  have h := List.length_le_sum_of_one_le (s.runs.map Run.len) ?_
  · simpa [count, used] using h
  · intro n hn
    obtain ⟨r, hr, rfl⟩ := List.mem_map.mp hn
    exact s.nonempty r hr

end RunSet
end MipsVm
