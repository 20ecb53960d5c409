import Mathlib.Data.List.Nodup
import MipsVm.Proofs.FrameLoans

/-! The runs that are live in a pool, as those know them who were answered: a run that was handed out, that
was stamped, that was taken back. Nothing else of the past can be seen in the pool. -/
namespace MipsVm

/-- Frames that were handed out and not taken back, as their holder knows them. -/
structure LiveRun where
  start : PAddr
  frames : Nat
  /-- Whether the thread-stack footer stands in place of their length. -/
  stamped : Bool
deriving DecidableEq

namespace LiveRun

def stamp (r : LiveRun) : LiveRun := { r with stamped := true }

/-- The runs that are live after a call that was answered so. A call that was refused changes none. -/
def after (live : List LiveRun) : PoolCall × PoolReply → List LiveRun
  | (.allocate n, .allocated (.ok (some pa))) => ⟨pa, n, false⟩ :: live
  | (.deallocate pa, .deallocated (.ok _)) => live.filter fun r => r.start ≠ pa
  | (.markFooter pa, .marked (.ok ())) => live.map fun r => if r.start = pa then r.stamp else r
  | _ => live

end LiveRun

namespace FramePool

/-- The pool that the calls leave. -/
def after (p : FramePool) (calls : List PoolCall) : FramePool := (serve reply p calls).2

/-- The runs that are live once the calls are answered, if none was before. -/
def liveRuns (p : FramePool) (calls : List PoolCall) : List LiveRun :=
  (calls.zip (serve reply p calls).1).foldl LiveRun.after []

end FramePool

namespace RunAllocator
variable {a : RunAllocator} {live left : RunSet a.frames} {r t : Run} {pa : PAddr}

theorem after_pool (a : RunAllocator) (calls : List PoolCall) :
    a.pool.after calls = (serve reply a calls).2.pool := by
  rw [FramePool.after, serve_pool]

/-- A run of the allocator, by the address of its first frame. -/
def liveRun (a : RunAllocator) (r : Run) : LiveRun :=
  ⟨.wrapping (a.base.val + r.start * pageSize), r.len, r.stamped⟩

theorem start_liveRun (hr : r ∈ live.runs) :
    (a.liveRun r).start.val = (a.range r).start := by
  have hstart : r.start < a.frames := RunSet.lt_of_covers hr (RunSet.covers_start hr)
  exact Nat.mod_eq_of_lt (a.frameAddr_lt hstart)

theorem start_eq_of_liveRun (hr : r ∈ live.runs) (ht : t ∈ left.runs)
    (h : (a.liveRun r).start = (a.liveRun t).start) : r.start = t.start := by
  have hval : (a.range r).start = (a.range t).start := by
    rw [← start_liveRun hr, ← start_liveRun ht, h]
  simp only [range, pageSize] at hval
  omega

/-- Live runs with the same first address are the same. -/
theorem eq_of_start_liveRun (hr : r ∈ live.runs) (ht : t ∈ live.runs)
    (h : (a.liveRun r).start = (a.liveRun t).start) : r = t := by
  have hcovers : r.Covers t.start := start_eq_of_liveRun hr ht h ▸ RunSet.covers_start hr
  exact RunSet.eq_of_covers hr ht hcovers (RunSet.covers_start ht)

/-- In whatever sets two runs are live, who holds them can tell one from the other. -/
theorem liveRun_inj (hr : r ∈ live.runs) (ht : t ∈ left.runs) (h : a.liveRun r = a.liveRun t) :
    r = t := by
  have hstart := start_eq_of_liveRun hr ht (congrArg LiveRun.start h)
  have hlen : r.len = t.len := congrArg LiveRun.frames h
  have hstamped : r.stamped = t.stamped := congrArg LiveRun.stamped h
  cases r
  cases t
  simp_all only

theorem nodup_liveRuns (live : RunSet a.frames) : (live.runs.map a.liveRun).Nodup :=
  live.nodup.map_on fun _ hr _ ht h => liveRun_inj hr ht h

theorem map_liveRun_remove (hr : r ∈ live.runs) (hpa : (a.liveRun r).start = pa) :
    (live.runs.map a.liveRun).filter (fun u => u.start ≠ pa) =
      (live.remove r).runs.map a.liveRun := by
  rw [List.filter_map, ← RunSet.filter_start_ne hr]
  congr 1
  apply List.filter_congr
  intro t ht
  have hsame : (a.liveRun t).start = pa ↔ t.start = r.start := by
    constructor
    · intro hstart
      exact start_eq_of_liveRun ht hr (hstart.trans hpa.symm)
    · intro hstart
      rw [← hpa]
      simp only [liveRun, hstart]
  simp only [Function.comp_apply, ne_eq, hsame]

theorem map_liveRun_stamp (hr : r ∈ live.runs) (hpa : (a.liveRun r).start = pa) :
    (live.runs.map a.liveRun).map (fun u => if u.start = pa then u.stamp else u) =
      (live.stamp r).runs.map a.liveRun := by
  rw [RunSet.stamp, List.map_map, List.map_map]
  apply List.map_congr_left
  intro t ht
  simp only [Function.comp_apply, RunSet.stampIf]
  by_cases htr : t = r
  · rw [if_pos htr, if_pos (htr ▸ hpa)]
    rfl
  · have hother : (a.liveRun t).start ≠ pa := fun hstart =>
      htr (eq_of_start_liveRun ht hr (hstart.trans hpa.symm))
    rw [if_neg htr, if_neg hother]

/-- No run starts at an address whose release is passed over. -/
theorem map_liveRun_ignored (hpos : 0 < a.base.val) (hpa : pa = .null ∨ pa < a.base) :
    (live.runs.map a.liveRun).filter (fun u => u.start ≠ pa) = live.runs.map a.liveRun := by
  apply List.filter_eq_self.mpr
  intro u hu
  obtain ⟨r, hr, rfl⟩ := List.mem_map.mp hu
  have hstart : a.base.val ≤ (a.liveRun r).start.val := by
    rw [start_liveRun hr]
    exact Nat.le_add_right ..
  rw [decide_eq_true_eq]
  rintro rfl
  rcases hpa with hnull | hbelow
  · rw [hnull] at hstart
    exact absurd hpos (Nat.not_lt.mpr hstart)
  · exact absurd hbelow (Nat.not_lt.mpr hstart)

/-- An allocation that answers an address has made a run live there. -/
theorem allocate_liveRun {n : Nat} (h : (a.allocate n).1 = some pa) :
    ∃ (live : RunSet a.frames) (r : Run), (a.allocate n).2 = a.withLive live ∧
      live.runs = r :: a.live.runs ∧ a.liveRun r = ⟨pa, n, false⟩ := by
  obtain ⟨start, hn, hgap, hpa, hnext⟩ := allocate_some h
  have haddr : Address.wrapping (a.base.val + start * pageSize) = pa := by
    apply Address.ext
    rw [← hpa]
    exact Nat.mod_eq_of_lt pa.isLt
  refine ⟨a.live.add start n hn hgap, ⟨start, n, false⟩, hnext, rfl, ?_⟩
  simp only [liveRun, haddr]

/-- What the answers tell of the live runs is what the allocator knows, after one more call. -/
theorem liveRuns_reply (hbase : pageSize ∣ a.base.val) (hpos : 0 < a.base.val) (call : PoolCall) :
    ∃ left : RunSet a.frames, (a.reply call).2 = a.withLive left ∧
      LiveRun.after (a.live.runs.map a.liveRun) (call, (a.reply call).1) =
        left.runs.map a.liveRun := by
  have hstart {r : Run} {pa : PAddr} (hrun : a.runAt pa = .ok r) :
      r ∈ a.live.runs ∧ (a.liveRun r).start = pa := by
    have hr := runAt_mem hrun
    exact ⟨hr, Address.ext ((start_liveRun hr).trans (start_range_of_runAt hbase hrun))⟩
  cases call with
  | allocate n =>
    rw [reply]
    cases hanswer : (a.allocate n).1 with
    | none =>
      rw [allocate_none hanswer]
      exact ⟨a.live, rfl, rfl⟩
    | some pa =>
      obtain ⟨live, r, hnext, hruns, hr⟩ := allocate_liveRun hanswer
      refine ⟨live, hnext, ?_⟩
      rw [LiveRun.after, hruns, List.map_cons, hr]
  | deallocate pa =>
    rw [reply]
    cases hanswer : (a.deallocate pa).1 with
    | error halt =>
      rw [(deallocate_of_error hanswer).2]
      exact ⟨a.live, rfl, rfl⟩
    | ok freed =>
      rw [LiveRun.after]
      rcases deallocate_of_ok hanswer with ⟨hignored, -, hsame⟩ | ⟨r, hrun, -, hnext⟩
      · exact ⟨a.live, hsame, map_liveRun_ignored hpos hignored⟩
      · obtain ⟨hr, hpa⟩ := hstart hrun
        exact ⟨a.live.remove r, hnext, map_liveRun_remove hr hpa⟩
  | markFooter pa =>
    rw [reply]
    cases hanswer : (a.markFooter pa).1 with
    | error e =>
      rw [(markFooter_of_error hanswer).2]
      exact ⟨a.live, rfl, rfl⟩
    | ok marked =>
      obtain ⟨r, hrun, hnext⟩ := markFooter_of_ok hanswer
      obtain ⟨hr, hpa⟩ := hstart hrun
      exact ⟨a.live.stamp r, hnext, map_liveRun_stamp hr hpa⟩
  | runLength pa => exact ⟨a.live, rfl, rfl⟩
  | stats => exact ⟨a.live, rfl, rfl⟩

theorem liveRuns_serve (hbase : pageSize ∣ a.base.val) (hpos : 0 < a.base.val)
    (calls : List PoolCall) :
    ∃ left : RunSet a.frames, (serve reply a calls).2 = a.withLive left ∧
      (calls.zip (serve reply a calls).1).foldl LiveRun.after (a.live.runs.map a.liveRun) =
        left.runs.map a.liveRun := by
  -- the frames and where they lie stay, so the runs of the next state are runs of these frames
  induction calls generalizing a with
  | nil => exact ⟨a.live, rfl, rfl⟩
  | cons call calls ih =>
    obtain ⟨next, hnext, hafter⟩ := liveRuns_reply hbase hpos call
    have hrest := ih (a := a.withLive next) hbase hpos
    rw [serve, hnext, List.zip_cons_cons, List.foldl_cons, hafter]
    exact hrest

/-- Lists of live runs that their holders cannot tell apart hold the same runs. -/
theorem perm_of_liveRuns {rs ts : List Run} (hrs : rs ⊆ live.runs) (hts : ts ⊆ left.runs)
    (hrsNodup : rs.Nodup) (htsNodup : ts.Nodup)
    (h : ∀ u, u ∈ rs.map a.liveRun ↔ u ∈ ts.map a.liveRun) : rs.Perm ts := by
  refine (List.perm_ext_iff_of_nodup hrsNodup htsNodup).mpr fun r => ⟨fun hr => ?_, fun hr => ?_⟩
  · obtain ⟨t, ht, hsame⟩ := List.mem_map.mp ((h _).mp (List.mem_map_of_mem hr))
    exact liveRun_inj (hts ht) (hrs hr) hsame ▸ ht
  · obtain ⟨t, ht, hsame⟩ := List.mem_map.mp ((h _).mpr (List.mem_map_of_mem hr))
    exact liveRun_inj (hrs ht) (hts hr) hsame ▸ ht

/-- The pool does not tell in which order its live runs came about. -/
theorem pool_of_liveRuns
    (h : ∀ u, u ∈ live.runs.map a.liveRun ↔ u ∈ left.runs.map a.liveRun) :
    (a.withLive live).pool = (a.withLive left).pool := by
  have hperm := perm_of_liveRuns (fun _ hr => hr) (fun _ hr => hr) live.nodup left.nodup h
  exact pool_withLive (a := a.withLive left) hperm

/-- A live run is taken back whole, and the pool is the one with the other runs live. -/
theorem deallocate_live (hbase : pageSize ∣ a.base.val) (hpos : 0 < a.base.val)
    (hperm : live.runs.Perm (r :: left.runs)) :
    (a.withLive live).pool.deallocate (a.liveRun r).start = (.ok r.len, (a.withLive left).pool) := by
  have hr : r ∈ live.runs := hperm.symm.subset List.mem_cons_self
  have hfree : (a.withLive live).deallocate (a.liveRun r).start =
      (.ok r.len, a.withLive (live.remove r)) :=
    deallocate_of_range hbase hpos hr (start_liveRun hr)
  have hleft : (live.remove r).runs.Perm left.runs := by
    have herase := hperm.erase r
    rwa [List.erase_cons_head] at herase
  rw [deallocate_pool, hfree]
  exact congrArg (Prod.mk _) (pool_withLive (a := a.withLive left) hleft)

theorem stamp_perm (hperm : live.runs.Perm (r :: left.runs)) :
    (live.stamp r).runs.Perm (r.stamp :: left.runs) := by
  have hnotin : r ∉ left.runs := (List.nodup_cons.mp (hperm.nodup live.nodup)).1
  have hothers : left.runs.map (RunSet.stampIf r) = left.runs := by
    have hself : ∀ t ∈ left.runs, RunSet.stampIf r t = id t := by
      intro t ht
      refine if_neg ?_
      rintro rfl
      exact hnotin ht
    rw [List.map_congr_left hself, List.map_id]
  have hself : RunSet.stampIf r r = r.stamp := if_pos rfl
  have hmap := hperm.map (RunSet.stampIf r)
  rwa [List.map_cons, hself, hothers] at hmap

/-- A run that is handed out and taken back leaves the pool as it was, also if it was stamped. -/
theorem deallocate_allocated (hbase : pageSize ∣ a.base.val) (hpos : 0 < a.base.val) {n : Nat}
    (h : (a.pool.allocate n).1 = .ok (some pa)) :
    (a.pool.allocate n).2.deallocate pa = (.ok n, a.pool) ∧
      ∃ marked, (a.pool.allocate n).2.markFooter pa = .ok marked ∧
        marked.deallocate pa = (.ok n, a.pool) := by
  rw [allocate_pool] at h ⊢
  obtain ⟨live, r, hnext, hruns, hliveRun⟩ := allocate_liveRun (Except.ok.inj h)
  have hpa : (a.liveRun r).start = pa := congrArg LiveRun.start hliveRun
  have hlen : r.len = n := congrArg LiveRun.frames hliveRun
  have hperm : live.runs.Perm (r :: a.live.runs) := .of_eq hruns
  have hr : r ∈ live.runs := hruns ▸ List.mem_cons_self
  have hrun : (a.withLive live).runAt pa = .ok r :=
    runAt_of_range hbase hr (hpa ▸ start_liveRun hr)
  have hmark : (a.withLive live).pool.markFooter pa = .ok (a.withLive (live.stamp r)).pool := by
    rw [markFooter_pool, markFooter, hrun]
    rfl
  have hfree := deallocate_live hbase hpos hperm
  have hfreeStamped := deallocate_live hbase hpos (stamp_perm hperm)
  rw [hpa, hlen] at hfree
  have hstampedPa : (a.liveRun r.stamp).start = pa := hpa
  have hstampedLen : r.stamp.len = n := hlen
  rw [hstampedPa, hstampedLen] at hfreeStamped
  rw [hnext]
  exact ⟨hfree, _, hmark, hfreeStamped⟩

theorem exists_left {rs : List Run} (hnodup : rs.Nodup) (hsub : rs ⊆ live.runs) :
    ∃ left : RunSet a.frames, live.runs.Perm (rs ++ left.runs) := by
  induction rs generalizing live with
  | nil => exact ⟨live, .refl _⟩
  | cons r rest ih =>
    obtain ⟨hnotin, hrest⟩ := List.nodup_cons.mp hnodup
    have hothers : rest ⊆ (live.remove r).runs := by
      intro t ht
      refine RunSet.mem_remove.mpr ⟨?_, hsub (List.mem_cons_of_mem r ht)⟩
      rintro rfl
      exact hnotin ht
    obtain ⟨left, hperm⟩ := ih hrest hothers
    exact ⟨left, (List.perm_cons_erase (hsub List.mem_cons_self)).trans (hperm.cons r)⟩

/-- Runs that are taken back one after the other, in whatever order, leave the pool with the others
live. -/
theorem serve_deallocates (hbase : pageSize ∣ a.base.val) (hpos : 0 < a.base.val) {rs : List Run}
    (hperm : live.runs.Perm (rs ++ left.runs)) :
    serve FramePool.reply (a.withLive live).pool
        (rs.map fun r => .deallocate (a.liveRun r).start) =
      (rs.map fun r => .deallocated (.ok r.len), (a.withLive left).pool) := by
  -- each release finds its run by its address, wherever it stands among the live ones
  induction rs generalizing live with
  | nil => exact congrArg (Prod.mk _) (pool_withLive (a := a.withLive left) hperm)
  | cons r rest ih =>
    have hr : r ∈ live.runs := hperm.symm.subset List.mem_cons_self
    have hself : live.runs.Perm (r :: (live.remove r).runs) := List.perm_cons_erase hr
    have hothers : (live.remove r).runs.Perm (rest ++ left.runs) := (hself.symm.trans hperm).cons_inv
    have hfirst := deallocate_live hbase hpos hself
    simp only [List.map_cons, serve, FramePool.reply, hfirst, ih hothers]

theorem exists_runs {us : List LiveRun} (hsub : us ⊆ live.runs.map a.liveRun) :
    ∃ rs : List Run, rs ⊆ live.runs ∧ rs.map a.liveRun = us := by
  induction us with
  | nil => exact ⟨[], List.nil_subset _, rfl⟩
  | cons u rest ih =>
    obtain ⟨hu, hrest⟩ := List.cons_subset.mp hsub
    obtain ⟨r, hr, rfl⟩ := List.mem_map.mp hu
    obtain ⟨rs, hrs, rfl⟩ := ih hrest
    exact ⟨r :: rs, List.cons_subset.mpr ⟨hr, hrs⟩, rfl⟩

/-- Any live runs can be taken back in any order: all the orders leave the same pool, with the other
runs live. -/
theorem serve_releases (hbase : pageSize ∣ a.base.val) (hpos : 0 < a.base.val) {us : List LiveRun}
    (hnodup : us.Nodup) (hsub : us ⊆ live.runs.map a.liveRun) :
    ∃ left : RunSet a.frames,
      (live.runs.map a.liveRun).Perm (us ++ left.runs.map a.liveRun) ∧
      ∀ ts : List LiveRun, ts.Perm us →
        serve FramePool.reply (a.withLive live).pool (ts.map fun r => .deallocate r.start) =
          (ts.map fun r => .deallocated (.ok r.frames), (a.withLive left).pool) := by
  obtain ⟨rs, hrs, rfl⟩ := exists_runs hsub
  have hrsNodup : rs.Nodup := List.Nodup.of_map _ hnodup
  obtain ⟨left, hleft⟩ := exists_left hrsNodup hrs
  refine ⟨left, ?_, ?_⟩
  · rw [← List.map_append]
    exact hleft.map a.liveRun
  · intro ts hts
    -- the same runs in another order, so they leave the same ones behind
    obtain ⟨ks, hks, rfl⟩ := exists_runs (fun u hu => hsub (hts.subset hu))
    have hksNodup : ks.Nodup := List.Nodup.of_map _ (hts.nodup_iff.mpr hnodup)
    have hperm : ks.Perm rs :=
      perm_of_liveRuns hks hrs hksNodup hrsNodup fun u => hts.mem_iff
    have hserve := serve_deallocates hbase hpos (hleft.trans (hperm.symm.append_right _))
    rw [List.map_map, List.map_map]
    exact hserve

end RunAllocator

namespace FramePool
variable {frames : Nat} {base : PAddr} {p : FramePool}

/-- The calls that a new pool has answered are the past of an allocator whose live runs are those
that the answers tell of. -/
theorem exists_live (hframes : frames ≤ maxFrames) (h : new frames base = .ok p)
    (hbase : base ≠ .null) :
    ∃ a : RunAllocator, pageSize ∣ a.base.val ∧ 0 < a.base.val ∧
      p = (a.withLive (.empty a.frames)).pool ∧
      ∀ calls, ∃ live : RunSet a.frames, p.after calls = (a.withLive live).pool ∧
        p.liveRuns calls = live.runs.map a.liveRun := by
  obtain ⟨haligned, fits, rfl⟩ := (new_eq_ok_iff hframes).mp h
  have hdvd : pageSize ∣ base.val := Address.isPageAligned_iff.mp haligned
  have hpos : 0 < base.val := Nat.pos_of_ne_zero fun hzero => hbase (Address.ext hzero)
  refine ⟨.new base frames fits, hdvd, hpos, rfl, fun calls => ?_⟩
  obtain ⟨live, hafter, hlive⟩ :=
    RunAllocator.liveRuns_serve (a := .new base frames fits) hdvd hpos calls
  refine ⟨live, ?_, ?_⟩
  · rw [RunAllocator.after_pool, hafter]
  · rw [liveRuns, RunAllocator.serve_pool]
    exact hlive

/-- What a pool owes to its past: nothing beyond the runs that are live. -/
structure ForgetsHistory (p : FramePool) : Prop where
  /-- Pasts that end with the same runs live cannot be told apart, in the ledger, in the counts or
  by anything that is asked later. -/
  same_runs : ∀ xs ys, (∀ r, r ∈ p.liveRuns xs ↔ r ∈ p.liveRuns ys) →
    (p.after xs).ledger = (p.after ys).ledger ∧ (p.after xs).free = (p.after ys).free ∧
      (p.after xs).runs = (p.after ys).runs ∧
      ∀ calls, serve reply (p.after xs) calls = serve reply (p.after ys) calls
  /-- Taking a run back at once, stamped or not, restores the pool that handed it out. -/
  undone : ∀ calls n pa, ((p.after calls).allocate n).1 = .ok (some pa) →
    ((p.after calls).allocate n).2.deallocate pa = (.ok n, p.after calls) ∧
      ∃ marked, ((p.after calls).allocate n).2.markFooter pa = .ok marked ∧
        marked.deallocate pa = (.ok n, p.after calls)
  /-- Live runs can be taken back in any order: the pool is the same at the end, and it is the first
  one when no run is left. -/
  released : ∀ calls rs, rs.Nodup → rs ⊆ p.liveRuns calls →
    ∃ left, (∀ ts : List LiveRun, ts.Perm rs →
        serve reply (p.after calls) (ts.map fun r => .deallocate r.start) =
          (ts.map fun r => .deallocated (.ok r.frames), left)) ∧
      (p.liveRuns calls ⊆ rs → left = p)

/-- Over a ledger that is not too long a pool owes nothing else, unless it begins at the null address. -/
theorem forgetsHistory (hframes : frames ≤ maxFrames) (h : new frames base = .ok p)
    (hbase : base ≠ .null) : p.ForgetsHistory := by
  obtain ⟨a, hdvd, hpos, hp, hlive⟩ := exists_live hframes h hbase
  constructor
  case same_runs =>
    intro xs ys hsame
    obtain ⟨live, hxs, hxsRuns⟩ := hlive xs
    obtain ⟨left, hys, hysRuns⟩ := hlive ys
    have hpool : p.after xs = p.after ys := by
      rw [hxsRuns, hysRuns] at hsame
      rw [hxs, hys, RunAllocator.pool_of_liveRuns hsame]
    rw [hpool]
    exact ⟨rfl, rfl, rfl, fun _ => rfl⟩
  case undone =>
    intro calls n pa hanswer
    obtain ⟨live, hafter, -⟩ := hlive calls
    rw [hafter] at hanswer ⊢
    exact RunAllocator.deallocate_allocated (a := a.withLive live) hdvd hpos hanswer
  case released =>
    intro calls rs hnodup hsub
    obtain ⟨live, hafter, hruns⟩ := hlive calls
    rw [hruns] at hsub
    obtain ⟨left, hleft, hserve⟩ := RunAllocator.serve_releases hdvd hpos hnodup hsub
    refine ⟨(a.withLive left).pool, hafter ▸ hserve, ?_⟩
    intro hall
    -- a run that was left would be one of those taken back
    have hnone : left.runs.map a.liveRun = [] := by
      apply List.eq_nil_iff_forall_not_mem.mpr
      intro u hu
      have hdisjoint := List.disjoint_of_nodup_append (hleft.nodup (RunAllocator.nodup_liveRuns live))
      have hback : u ∈ rs := hall (hruns ▸ hleft.symm.subset (List.mem_append_right _ hu))
      exact hdisjoint hback hu
    have hperm : left.runs.Perm (RunSet.empty a.frames).runs := .of_eq (List.map_eq_nil_iff.mp hnone)
    rw [hp]
    exact RunAllocator.pool_withLive (a := a.withLive (.empty a.frames)) hperm

theorem forgetsHistory_three_frames :
    3 ≤ maxFrames ∧ ∃ p, new 3 ⟨0x1000, by decide⟩ = .ok p ∧
      let xs : List PoolCall := [.allocate 2, .allocate 1, .deallocate ⟨0x1000, by decide⟩]
      let ys : List PoolCall := [.allocate 1, .deallocate ⟨0x1008, by decide⟩, .allocate 2,
        .deallocate ⟨0x2000, by decide⟩, .allocate 1, .allocate 1,
        .deallocate ⟨0x1000, by decide⟩, .deallocate ⟨0x2000, by decide⟩]
      p.liveRuns xs = [⟨⟨0x3000, by decide⟩, 1, false⟩] ∧
        p.liveRuns ys = [⟨⟨0x3000, by decide⟩, 1, false⟩] ∧
        (p.after xs).ledger = (p.after ys).ledger ∧ (p.after xs).free = (p.after ys).free ∧
        (p.after xs).runs = (p.after ys).runs ∧
        ∀ calls, serve reply (p.after xs) calls = serve reply (p.after ys) calls := by
  have hp : new 3 ⟨0x1000, by decide⟩ = .ok _ := rfl
  refine ⟨by decide, _, hp, by decide +kernel, by decide +kernel, ?_⟩
  apply (forgetsHistory (by decide) hp (by decide)).same_runs
  intro r
  apply Iff.of_eq
  apply congrArg (r ∈ ·)
  decide +kernel

end FramePool
end MipsVm
