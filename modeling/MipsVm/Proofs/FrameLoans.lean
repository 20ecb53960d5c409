import MipsVm.Proofs.FrameHoldings

/-! Frames on loan from a pool. Beside the runs that were live at some point a pool has those handed
out since then; once these are back, in whatever order they came, it is the pool that it was. -/
namespace MipsVm

namespace RunSet
variable {frames : Nat} {s t : RunSet frames}

/-- The ledger does not tell in which order the runs were handed out. -/
theorem ledger_of_perm (h : s.runs.Perm t.runs) : s.ledger = t.ledger := by
  apply eq_ledger s.size_ledger
  -- an entry depends on which runs there are, not on where they stand in the list
  intro i hi
  have hentry : s.entry i = t.entry i := entry_congr fun r _ => h.mem_iff
  rw [get?_ledger, if_pos hi, hentry]

theorem used_of_perm (h : s.runs.Perm t.runs) : s.used = t.used := (h.map Run.len).sum_nat

end RunSet

/-- Each frame of `t` is a free frame of the pool. -/
def FramePool.HasFree (p : FramePool) (t : FrameRange) : Prop :=
  ∀ k < t.frames, ∃ i, p.base.val + i * pageSize = t.start + k * pageSize ∧
    p.ledger.get? i = some .free

namespace RunAllocator
variable {a : RunAllocator} {r : Run} {pa : PAddr}

theorem pool_withLive {live : RunSet a.frames} (h : live.runs.Perm a.live.runs) :
    (a.withLive live).pool = a.pool := by
  have hledger : live.ledger = a.live.ledger := RunSet.ledger_of_perm h
  have hfree : a.frames - live.used = a.frames - a.live.used := by rw [RunSet.used_of_perm h]
  have hruns : live.count = a.live.count := h.length_eq
  exact FramePool.eq_of_fields rfl hledger hfree hruns

theorem covers_range_iff {t : Run} {i : Nat} :
    (a.range t).Covers (a.base.val + i * pageSize) ↔ t.Covers i := by
  rw [FrameRange.Covers, stop_range, Run.Covers]
  simp only [range, pageSize]
  omega

theorem hasFree_of_gap (h : a.live.Gap r.start r.len) (hpos : 0 < r.len) :
    a.pool.HasFree (a.range r) := by
  have hfree : a.live.ledger.FreeRun r.start r.len := (RunSet.freeRun_ledger_iff hpos).mpr h
  intro k hk
  refine ⟨r.start + k, ?_, hfree k hk⟩
  simp only [pool, range, Nat.add_mul, Nat.add_assoc]

end RunAllocator

/-- A free frame lies in the pool. -/
theorem FramePool.HasFree.base_le {p : FramePool} {t : FrameRange} (h : p.HasFree t)
    (hpos : 0 < t.frames) : p.base.val ≤ t.start := by
  obtain ⟨i, hi, -⟩ := h 0 hpos
  omega

/-- From `p` to `q` no entry has changed but those of the frames `ts`. -/
def FramePool.SameBeside (ts : List FrameRange) (p q : FramePool) : Prop :=
  ∀ i, (∀ t ∈ ts, ¬ t.Covers (p.base.val + i * pageSize)) → q.ledger.get? i = p.ledger.get? i

namespace Machine
variable {m m' : Machine} {a : RunAllocator} {rs : List Run} {r : Run} {n : Nat} {pa : PAddr}

/-- Byte `i` of RAM belongs to the entry of a frame of `ts`. -/
def InEntries (m : Machine) (ts : List FrameRange) (i : Nat) : Prop :=
  m.InLedger i ∧ ∃ pool, m.frames.value = .pool pool ∧
    ∃ t ∈ ts, t.Covers (pool.base.val + (i - m.ledgerAt.val) / entrySize * pageSize)

/-- Each frame of `t` is a free frame of the pool of `m`. -/
def HasFree (m : Machine) (t : FrameRange) : Prop :=
  ∃ pool, m.frames.value = .pool pool ∧ pool.HasFree t

/-- The frames come from the pool of `a`, which has handed out the runs `rs` on top of its own. -/
def Lends (m : Machine) (a : RunAllocator) (rs : List Run) : Prop :=
  ∃ live : RunSet a.frames, live.runs.Perm (rs ++ a.live.runs) ∧
    m.frames.value = .pool (a.withLive live).pool

theorem lends_nil_iff : m.Lends a [] ↔ m.frames.value = .pool a.pool := by
  constructor
  · rintro ⟨live, hperm, hsource⟩
    rw [hsource, RunAllocator.pool_withLive hperm]
  · intro hsource
    exact ⟨a.live, .refl _, hsource⟩

namespace Lends
variable (h : m.Lends a rs)
include h

theorem of_source (hsource : m'.frames.value = m.frames.value) : m'.Lends a rs := by
  obtain ⟨live, hperm, hpool⟩ := h
  exact ⟨live, hperm, hsource.trans hpool⟩

/-- What is on loan now was free before. -/
theorem gap (hr : r ∈ rs) : 0 < r.len ∧ a.live.Gap r.start r.len := by
  obtain ⟨live, hperm, -⟩ := h
  have hmem : r ∈ live.runs := hperm.symm.subset (List.mem_append_left _ hr)
  have hapart : (rs ++ a.live.runs).Pairwise Run.Apart :=
    (hperm.pairwise_iff fun hapart => hapart.symm).mp live.apart
  refine ⟨live.nonempty r hmem, live.inside r hmem, ?_⟩
  intro t ht
  exact ((List.pairwise_append.mp hapart).2.2 r hr t ht).symm

theorem hasFree (hr : r ∈ rs) : a.pool.HasFree (a.range r) :=
  RunAllocator.hasFree_of_gap (h.gap hr).2 (h.gap hr).1

/-- What is not on loan is in the ledger as it was. -/
theorem sameBeside {pool : FramePool} (hpool : m.frames.value = .pool pool) :
    a.pool.SameBeside (rs.map a.range) pool := by
  obtain ⟨live, hperm, hsource⟩ := h
  obtain rfl := FrameSource.pool.inj (hsource.symm.trans hpool)
  intro i hi
  have hentry : live.entry i = a.live.entry i := by
    apply RunSet.entry_congr
    intro r hcovers
    have hout : r ∉ rs := fun hr =>
      hi (a.range r) (List.mem_map_of_mem hr) (RunAllocator.covers_range_iff.mpr hcovers)
    rw [hperm.mem_iff, List.mem_append, or_iff_right hout]
  change live.ledger.get? i = a.live.ledger.get? i
  rw [RunSet.get?_ledger, RunSet.get?_ledger, hentry]

end Lends

/-- An allocation of `n` frames, from `m` with the runs `rs` on loan on. -/
inductive Lending (m : Machine) (a : RunAllocator) (rs : List Run) (n : Nat) :
    Except Halt (Option PAddr) × Machine → Prop where
  | lent (pa : PAddr) (r : Run) (m' : Machine) (hrange : a.range r = ⟨pa.val, n⟩)
    (hledger : m.WritesLedger m') (hlends : m'.Lends a (r :: rs)) :
    Lending m a rs n (.ok (some pa), m')
  | refused (m' : Machine) (hledger : m.WritesLedger m') (hlends : m'.Lends a rs) :
    Lending m a rs n (.ok none, m')

theorem Lends.allocFrames (h : m.Lends a rs) (n : Nat) :
    Lending m a rs n ((Kernel.allocFrames n).outcome m) := by
  rcases Nat.eq_zero_or_pos n with rfl | hpos
  · exact .refused m (.refl m) h
  obtain ⟨live, hperm, hsource⟩ := h
  have hledger := Kernel.writesLedger_allocFrames_pool hsource n
  rw [Kernel.allocFrames_pool hsource (Nat.ne_of_gt hpos), RunAllocator.allocate_pool] at hledger ⊢
  -- first fit may choose a gap between runs that were on loan before, but never one of their frames
  cases hanswer : ((a.withLive live).allocate n).1 with
  | none =>
    rw [RunAllocator.allocate_none hanswer] at hledger ⊢
    exact .refused _ hledger ⟨live, hperm, rfl⟩
  | some pa =>
    obtain ⟨start, hn, hgap, hpa, hnext⟩ := RunAllocator.allocate_some hanswer
    have hrange : a.range ⟨start, n, false⟩ = ⟨pa.val, n⟩ := by
      rw [hpa]
      rfl
    rw [hnext] at hledger ⊢
    exact .lent pa ⟨start, n, false⟩ _ hrange hledger
      ⟨live.add start n hn hgap, hperm.cons _, rfl⟩

/-- A run on loan is taken back, whatever was handed out after it. -/
theorem Lends.freeFrames (h : m.Lends a rs) (husable : a.Usable) (hr : r ∈ rs)
    (hpa : pa.val = (a.range r).start) :
    ∃ m', (Kernel.freeFrames pa).outcome m = (.ok (), m') ∧ m.WritesLedger m' ∧
      m'.Lends a (rs.erase r) := by
  have hledger := Kernel.writesLedger_freeFrames m pa
  have hframes : 0 < a.frames := by
    obtain ⟨hpos, hstop, -⟩ := h.gap hr
    omega
  obtain ⟨live, hperm, hsource⟩ := h
  have hmem : r ∈ live.runs := hperm.symm.subset (List.mem_append_left _ hr)
  -- the pool finds the run by where it starts, which no other live run does
  have hfree : (a.withLive live).deallocate pa =
      (.ok r.len, a.withLive (live.remove r)) :=
    RunAllocator.deallocate_of_range husable.base_dvd (husable.base_pos hframes) hmem hpa
  have hleft : (live.runs.erase r).Perm (rs.erase r ++ a.live.runs) := by
    rw [← List.erase_append_left _ hr]
    exact hperm.erase r
  rw [Kernel.freeFrames_pool hsource, RunAllocator.deallocate_pool, hfree] at hledger ⊢
  exact ⟨_, rfl, hledger, live.remove r, hleft, rfl⟩

/-- When all of them are taken back, in any order, the pool is the one that lent them. -/
theorem Lends.freeAll {pas : List PAddr} (h : m.Lends a rs) (husable : a.Usable)
    (hstarts : (pas.map Address.val).Perm (rs.map fun r => (a.range r).start)) :
    ∃ m', (Kernel.freeAll pas).outcome m = (.ok (), m') ∧ m.WritesLedger m' ∧
      m'.frames.value = .pool a.pool := by
  -- the addresses say which run goes back next, so the runs are erased from wherever they are
  induction pas generalizing m rs with
  | nil =>
    obtain rfl : rs = [] := List.map_eq_nil_iff.mp (List.nil_perm.mp hstarts)
    exact ⟨m, rfl, .refl m, lends_nil_iff.mp h⟩
  | cons pa rest ih =>
    obtain ⟨r, hr, hpa⟩ := List.mem_map.mp (hstarts.subset List.mem_cons_self)
    obtain ⟨m₁, hfree, hledger₁, hlends⟩ := h.freeFrames husable hr hpa.symm
    have hothers : (rest.map Address.val).Perm
        ((rs.erase r).map fun r => (a.range r).start) := by
      have hsplit := (List.perm_cons_erase hr).map fun r => (a.range r).start
      rw [List.map_cons, hpa] at hsplit
      exact (hstarts.trans hsplit).cons_inv
    obtain ⟨m₂, hrest, hledger₂, hsource⟩ := ih hlends hothers
    refine ⟨m₂, ?_, hledger₁.trans hledger₂, hsource⟩
    rw [Kernel.freeAll_cons, hfree]
    exact hrest

end Machine
end MipsVm
