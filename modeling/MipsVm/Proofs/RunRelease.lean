import MipsVm.Proofs.KernelPages
import MipsVm.Proofs.LiveRuns

/-! Which runs a pool takes back. An allocation counts its addresses from the base of the pool; a release
looks for the null address before it looks into the ledger. The two agree but for a pool that begins at
the null address: the run of its first frame is out for good. -/
namespace MipsVm

/-- The request takes the run at `pa` back: it is a release of this address, and frames became free. -/
def PoolCall.GivesBack (p : FramePool) (pa : PAddr) : PoolCall → Prop
  | .deallocate freed => freed = pa ∧ ∃ n, 0 < n ∧ (p.deallocate freed).1 = .ok n
  | _ => False

namespace FramePool

/-- None of the requests, one after the other, takes the run at `pa` back. -/
def KeepsOut (pa : PAddr) : FramePool → List PoolCall → Prop
  | _, [] => True
  | p, call :: calls => ¬ call.GivesBack p pa ∧ (p.reply call).2.KeepsOut pa calls

/-- No request takes a run at the null address back. -/
theorem keepsOut_null (p : FramePool) (calls : List PoolCall) : p.KeepsOut .null calls := by
  induction calls generalizing p with
  | nil => trivial
  | cons call calls ih =>
    refine ⟨?_, ih _⟩
    cases call with
    | deallocate freed =>
      rintro ⟨rfl, n, hpos, hfreed⟩
      have hzero : n = 0 := (Except.ok.inj hfreed).symm
      exact Nat.ne_of_gt hpos hzero
    | allocate n => exact id
    | markFooter pa => exact id
    | runLength pa => exact id
    | stats => exact id

/-- The run of `n` frames at `pa` comes back into the pool when its address is released, unless that is
the null address: then no request makes its frames free again. -/
structure ReleasesUnlessNull (p : FramePool) (n : Nat) (pa : PAddr) : Prop where
  ignores_iff : p.ignores pa = true ↔ pa = .null
  released : pa ≠ .null →
    (p.deallocate pa).1 = .ok n ∧ p.TakesBack ⟨pa.val, n⟩ (p.deallocate pa).2
  lost : pa = .null → p.base = .null ∧ ∀ calls,
    (p.after calls).deallocate pa = (.ok 0, p.after calls) ∧
      ∀ i < n, (p.after calls).ledger.get? i ≠ some .free

end FramePool

namespace RunAllocator
variable {a : RunAllocator} {r : FrameRange} {pa : PAddr} {call : PoolCall} {calls : List PoolCall}

/-- The frames are those of a live run. -/
def IsOut (a : RunAllocator) (r : FrameRange) : Prop := ∃ t ∈ a.live.runs, a.range t = r

theorem isOut_of_allocate {n : Nat} (h : (a.allocate n).1 = some pa) :
    (a.allocate n).2.IsOut ⟨pa.val, n⟩ := by
  obtain ⟨start, hn, hgap, hpa, hnext⟩ := allocate_some h
  rw [hnext, hpa]
  exact ⟨⟨start, n, false⟩, List.mem_cons_self, rfl⟩

theorem isOut_allocate (h : a.IsOut r) (n : Nat) : (a.allocate n).2.IsOut r := by
  cases hanswer : (a.allocate n).1 with
  | none => rwa [allocate_none hanswer]
  | some pa =>
    obtain ⟨start, hn, hgap, -, hnext⟩ := allocate_some hanswer
    obtain ⟨t, ht, hrange⟩ := h
    rw [hnext]
    exact ⟨t, List.mem_cons_of_mem _ ht, hrange⟩

theorem isOut_markFooter (h : a.IsOut r) (marked : PAddr) : (a.markFooter marked).2.IsOut r := by
  cases hanswer : (a.markFooter marked).1 with
  | error e => rwa [(markFooter_of_error hanswer).2]
  | ok done =>
    obtain ⟨u, -, hnext⟩ := markFooter_of_ok hanswer
    obtain ⟨t, ht, hrange⟩ := h
    -- a stamp changes neither where a run starts nor how long it is
    have hsame : a.range (RunSet.stampIf u t) = a.range t := by
      rw [range, RunSet.start_stampIf, RunSet.len_stampIf, range]
    rw [hnext]
    exact ⟨RunSet.stampIf u t, List.mem_map_of_mem ht, hsame.trans hrange⟩

theorem isOut_deallocate (hbase : pageSize ∣ a.base.val) (h : a.IsOut r) (hpa : pa.val = r.start)
    {freed : PAddr} (hkept : ¬ (PoolCall.deallocate freed).GivesBack a.pool pa) :
    (a.deallocate freed).2.IsOut r := by
  cases hanswer : (a.deallocate freed).1 with
  | error halt => rwa [(deallocate_of_error hanswer).2]
  | ok n =>
    rcases deallocate_of_ok hanswer with ⟨-, -, hsame⟩ | ⟨u, hrun, hlen, hnext⟩
    · rwa [hsame]
    obtain ⟨t, ht, hrange⟩ := h
    -- the run that came back starts at another address
    have hne : t ≠ u := by
      rintro rfl
      have hstart := start_range_of_runAt hbase hrun
      have hsame : freed = pa := by
        apply Address.ext
        rw [← hstart, hrange, hpa]
      have hpool : (a.pool.deallocate freed).1 = .ok n := by rw [deallocate_pool, hanswer]
      exact hkept ⟨hsame, n, hlen ▸ a.live.nonempty t ht, hpool⟩
    rw [hnext]
    exact ⟨t, RunSet.mem_remove.mpr ⟨hne, ht⟩, hrange⟩

/-- A run stays out as long as its own address is not released. -/
theorem isOut_reply (hbase : pageSize ∣ a.base.val) (h : a.IsOut r) (hpa : pa.val = r.start)
    (hkept : ¬ call.GivesBack a.pool pa) : (a.reply call).2.IsOut r := by
  cases call with
  | allocate n => exact isOut_allocate h n
  | deallocate freed => exact isOut_deallocate hbase h hpa hkept
  | markFooter marked => exact isOut_markFooter h marked
  | runLength pa => exact h
  | stats => exact h

theorem isOut_serve (hbase : pageSize ∣ a.base.val) (h : a.IsOut r) (hpa : pa.val = r.start)
    (hkept : a.pool.KeepsOut pa calls) : (serve reply a calls).2.IsOut r := by
  induction calls generalizing a with
  | nil => exact h
  | cons call calls ih =>
    obtain ⟨hcall, hcalls⟩ := hkept
    rw [reply_pool] at hcalls
    exact ih (a.base_reply call ▸ hbase) (isOut_reply hbase h hpa hcall) hcalls

/-- A run that is out has its first frame inside of the pool. -/
theorem IsOut.base_le (h : a.IsOut r) : a.base.val ≤ r.start := by
  obtain ⟨t, -, rfl⟩ := h
  exact Nat.le_add_right ..

theorem IsOut.get?_ne_free (h : a.IsOut r) {i : Nat} (hi : r.Covers (a.base.val + i * pageSize)) :
    a.pool.ledger.get? i ≠ some .free := by
  obtain ⟨t, ht, rfl⟩ := h
  exact get?_pool_ne_free ht (covers_range_iff.mp hi)

/-- What is out is released by its address, in whatever state the other runs are. -/
theorem IsOut.releasesUnlessNull (hbase : pageSize ∣ a.base.val) {n : Nat}
    (h : a.IsOut ⟨pa.val, n⟩) : a.pool.ReleasesUnlessNull n pa := by
  have hle : a.base.val ≤ pa.val := h.base_le
  constructor
  case ignores_iff =>
    rw [ignores_pool_iff, or_iff_left]
    exact Nat.not_lt.mpr hle
  case released =>
    intro hnull
    obtain ⟨t, ht, hrange⟩ := h
    have hlen : t.len = n := congrArg FrameRange.frames hrange
    have hpa : pa.val = (a.range t).start := (congrArg FrameRange.start hrange).symm
    rw [deallocate_pool, deallocate_of_ne_null hbase hnull ht hpa, ← hrange, hlen]
    exact ⟨rfl, takesBack_remove ht⟩
  case lost =>
    rintro rfl
    have hzero : a.base.val = 0 := Nat.le_zero.mp hle
    refine ⟨Address.ext hzero, ?_⟩
    intro calls
    refine ⟨rfl, ?_⟩
    -- nobody can take the run back, so it is out after the calls as before, and where it was
    have hout := isOut_serve hbase h rfl (a.pool.keepsOut_null calls)
    have hstart : (serve reply a calls).2.base.val = 0 := by rw [base_serve, hzero]
    intro i hi
    have hcovers : (⟨0, n⟩ : FrameRange).Covers (0 + i * pageSize) := by
      simp only [FrameRange.Covers, FrameRange.stop, pageSize]
      omega
    rw [after_pool]
    apply hout.get?_ne_free
    rw [hstart]
    exact hcovers

theorem releasesUnlessNull_allocated (hbase : pageSize ∣ a.base.val) {n : Nat}
    (hgiven : (a.pool.allocate n).1 = .ok (some pa))
    (hkept : (a.pool.allocate n).2.KeepsOut pa calls) :
    ((a.pool.allocate n).2.after calls).ReleasesUnlessNull n pa := by
  rw [allocate_pool] at hgiven hkept ⊢
  have hafter : (a.allocate n).2.base = a.base := a.base_reply (.allocate n)
  have hout := isOut_of_allocate (Except.ok.inj hgiven)
  have hlater := isOut_serve (hafter ▸ hbase) hout rfl hkept
  rw [after_pool]
  apply hlater.releasesUnlessNull
  rwa [base_serve, hafter]

end RunAllocator

/-- Whatever a new pool was asked before and is asked after it hands frames out, it takes them back by
their address, as many as were asked for, unless that address is null: a pool that begins there never
gets its first run back. The ledger must not be too long for frames to have addresses. -/
theorem FramePool.runs_released_unless_null {frames n : Nat} {base pa : PAddr} {p : FramePool}
    (hframes : frames ≤ maxFrames) (h : new frames base = .ok p) (calls later : List PoolCall)
    (hgiven : ((p.after calls).allocate n).1 = .ok (some pa))
    (hkept : ((p.after calls).allocate n).2.KeepsOut pa later) :
    (((p.after calls).allocate n).2.after later).ReleasesUnlessNull n pa := by
  obtain ⟨haligned, fits, rfl⟩ := (new_eq_ok_iff hframes).mp h
  have hdvd : pageSize ∣ base.val := Address.isPageAligned_iff.mp haligned
  rw [RunAllocator.after_pool] at hgiven hkept ⊢
  apply RunAllocator.releasesUnlessNull_allocated _ hgiven hkept
  rwa [RunAllocator.base_serve]

/-- Stamped as a thread stack, with its neighbour freed and its other frames asked for again. -/
theorem FramePool.run_released_among_other_requests :
    3 ≤ maxFrames ∧ ∃ p, new 3 ⟨0x1000, by decide⟩ = .ok p ∧
      let calls : List PoolCall := [.allocate 1]
      let later : List PoolCall := [.markFooter ⟨0x2000, by decide⟩, .deallocate .null,
        .deallocate ⟨0x1000, by decide⟩, .deallocate ⟨0x3000, by decide⟩, .allocate 1]
      let q := ((p.after calls).allocate 2).2
      ((p.after calls).allocate 2).1 = .ok (some ⟨0x2000, by decide⟩) ∧
        q.KeepsOut ⟨0x2000, by decide⟩ later ∧
        (q.after later).ReleasesUnlessNull 2 ⟨0x2000, by decide⟩ := by
  have hp : new 3 ⟨0x1000, by decide⟩ = .ok _ := rfl
  refine ⟨by decide, _, hp, ?given, ?kept,
    runs_released_unless_null (by decide) hp _ _ ?given ?kept⟩
  case given => decide +kernel
  case kept =>
    -- the other releases are of other addresses
    exact ⟨id, fun h => absurd h.1 (by decide), fun h => absurd h.1 (by decide),
      fun h => absurd h.1 (by decide), id, trivial⟩

/-- The only frame of a pool at the null address is handed out, and its release is passed over. -/
theorem FramePool.null_run_never_released :
    ∃ p, new 1 .null = .ok p ∧ (p.allocate 1).1 = .ok (some .null) ∧
      (p.allocate 1).2.deallocate .null = (.ok 0, (p.allocate 1).2) ∧
      (p.allocate 1).2.ledger.get? 0 ≠ some .free ∧
      (p.allocate 1).2.stats = .ok ⟨1, 0, 1, 1⟩ := by
  have hp : new 1 .null = .ok (RunAllocator.new .null 1 (by decide)).pool :=
    (new_eq_ok_iff (by decide)).mpr ⟨rfl, by decide, rfl⟩
  refine ⟨_, hp, ?_, ?_, ?_, ?_⟩
  · decide +kernel
  · rfl
  · decide +kernel
  · decide +kernel

end MipsVm
