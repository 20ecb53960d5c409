import MipsVm.Proofs.FrameLoans
import MipsVm.Proofs.Operations

/-! Frames that were just handed out: they were free until then, they are a run of their own now, and
whatever is handed out later is apart from them. In this boot memory and the pool are alike. -/
namespace MipsVm

namespace RunAllocator
variable {a : RunAllocator} {start n : Nat} {pa : PAddr} {t : FrameRange}

/-- Free frames in a row are a gap. -/
theorem gap_of_hasFree (hpos : 0 < t.frames) (h : a.pool.HasFree t) :
    ∃ i, t.start = a.base.val + i * pageSize ∧ a.live.Gap i t.frames := by
  obtain ⟨i, hi, -⟩ := h 0 hpos
  have hstart : t.start = a.base.val + i * pageSize := by
    rw [Nat.zero_mul, Nat.add_zero] at hi
    exact hi.symm
  have hfree : a.live.ledger.FreeRun i t.frames := by
    intro k hk
    obtain ⟨j, hj, hentry⟩ := h k hk
    have hindex : j = i + k := by
      change a.base.val + j * pageSize = _ at hj
      simp only [pageSize] at *
      omega
    rwa [hindex] at hentry
  exact ⟨i, hstart, (RunSet.freeRun_ledger_iff hpos).mp hfree⟩

theorem hasFree_of_start (hpos : 0 < t.frames) (hstart : t.start = a.base.val + start * pageSize)
    (hgap : a.live.Gap start t.frames) : a.pool.HasFree t := by
  have hfree := hasFree_of_gap (r := ⟨start, t.frames, false⟩) hgap hpos
  rw [range, ← hstart] at hfree
  exact hfree

theorem stop_le_limit (hpos : 0 < t.frames) (h : a.pool.HasFree t) :
    t.stop ≤ a.pool.limit.val := by
  obtain ⟨i, hstart, hin, -⟩ := gap_of_hasFree hpos h
  rw [limit_pool, FrameRange.stop, hstart]
  simp only [pageSize]
  omega

/-- What is free beside a new run was free before, and shares no frame with the run. -/
theorem hasFree_add (hn : 0 < n) (hgap : a.live.Gap start n) (hpos : 0 < t.frames)
    (h : (a.withLive (a.live.add start n hn hgap)).pool.HasFree t) :
    a.pool.HasFree t ∧
      (⟨a.base.val + start * pageSize, n⟩ : FrameRange).Apart t := by
  obtain ⟨i, hstart, hin, hruns⟩ := gap_of_hasFree hpos h
  have hself : start + n ≤ i ∨ i + t.frames ≤ start :=
    hruns ⟨start, n, false⟩ List.mem_cons_self
  have hothers : a.live.Gap i t.frames :=
    ⟨hin, fun r hr => hruns r (List.mem_cons_of_mem _ hr)⟩
  have hbase : (a.withLive (a.live.add start n hn hgap)).base = a.base := rfl
  rw [hbase] at hstart
  refine ⟨hasFree_of_start hpos hstart hothers, ?_⟩
  simp only [FrameRange.Apart, FrameRange.stop, hstart, pageSize]
  omega

theorem runLength?_of_mem {r : Run} (hbase : pageSize ∣ a.base.val) (hr : r ∈ a.live.runs)
    (hplain : r.stamped = false) (hpa : pa.val = (a.range r).start) :
    a.pool.runLength? pa = some r.len := by
  rw [runLength?_pool, runLength?, runAt_of_range hbase hr hpa]
  simp only [hplain, Bool.false_eq_true, if_false]

theorem runLength?_add (hbase : pageSize ∣ a.base.val) (hn : 0 < n) (hgap : a.live.Gap start n)
    (hpa : pa.val = a.base.val + start * pageSize) :
    (a.withLive (a.live.add start n hn hgap)).pool.runLength? pa = some n := by
  have hnew : (⟨start, n, false⟩ : Run) ∈ (a.withLive (a.live.add start n hn hgap)).live.runs :=
    List.mem_cons_self
  exact runLength?_of_mem (r := ⟨start, n, false⟩) hbase hnew rfl hpa

theorem run_of_runLength? {len : Nat} (hbase : pageSize ∣ a.base.val)
    (h : a.pool.runLength? pa = some len) :
    ∃ r ∈ a.live.runs, r.stamped = false ∧ pa.val = (a.range r).start ∧ r.len = len := by
  rw [runLength?_pool, runLength?] at h
  cases hrun : a.runAt pa with
  | error e =>
    rw [hrun] at h
    cases h
  | ok r =>
    rw [hrun] at h
    have hstart := start_range_of_runAt hbase hrun
    cases hplain : r.stamped with
    | true =>
      simp only [hplain, if_true] at h
      cases h
    | false =>
      simp only [hplain, Bool.false_eq_true, if_false, Option.some_inj] at h
      exact ⟨r, runAt_mem hrun, hplain, hstart.symm, h⟩

end RunAllocator

namespace FrameSource
variable {source next : FrameSource} {n : Nat} {pa : PAddr} {t : FrameRange}

/-- One past the last byte of the frames of the source. -/
def limit : FrameSource → PAddr
  | .boot b => b.limit
  | .pool p => p.limit

/-- Each frame of `t` is there to be handed out. -/
def HasFree : FrameSource → FrameRange → Prop
  | .boot b, t => b.next.val ≤ t.start ∧ t.stop ≤ b.limit.val
  | .pool p, t => p.HasFree t

/-- The frames of `t` are out: in the ledger they are one run. Boot memory keeps no record of runs, but
its cursor is behind them. -/
def HasRun : FrameSource → FrameRange → Prop
  | .boot b, t => t.stop ≤ b.next.val
  | .pool p, t => ∃ pa : PAddr, pa.val = t.start ∧ p.runLength? pa = some t.frames

theorem Step.limit_le (h : source.Step next) : next.limit ≤ source.limit := by
  cases h with
  | same => exact Nat.le_refl _
  | take n pa htake =>
    obtain ⟨hlimit, -⟩ := BootMemory.take_of_ok htake
    exact Nat.le_of_eq (congrArg Address.val hlimit)
  | @relive a husable live =>
    have hlimit : (a.withLive live).pool.limit.val = a.pool.limit.val := by
      rw [RunAllocator.limit_pool, RunAllocator.limit_pool]
      rfl
    exact Nat.le_of_eq hlimit
  | @install b l hsplits fits =>
    have hlimit := RunAllocator.limit_pool (.new l.base l.managed fits)
    have hstop : l.base.val + l.managed * pageSize = b.limit.alignDown.val := by
      rw [hsplits.limit_eq, hsplits.hi_eq]
    exact Nat.le_trans (Nat.le_of_eq (hlimit.trans hstop)) b.limit.alignDown_le

theorem HasFree.stop_le (h : source.HasFree t) (hpages : source.OnPages) (hpos : 0 < t.frames) :
    t.stop ≤ source.limit.val := by
  cases source with
  | boot b => exact h.2
  | pool p =>
    obtain ⟨a, rfl, -⟩ := hpages
    exact RunAllocator.stop_le_limit hpos h

/-- The frames `t` went from the source, which is `next` without them. -/
structure Hands (source : FrameSource) (t : FrameRange) (next : FrameSource) : Prop where
  aligned : pageSize ∣ t.start
  nonempty : 0 < t.frames
  free : source.HasFree t
  run : next.HasRun t
  left : ∀ u, 0 < u.frames → next.HasFree u → source.HasFree u ∧ t.Apart u
  kept : ∀ u, source.HasRun u → next.HasRun u

theorem Grants.hands (h : Grants n source (.ok (some pa)) next) (hpages : source.OnPages) :
    source.Hands ⟨pa.val, n⟩ next := by
  have hdvd := h.dvd hpages
  cases h with
  | @stolen b _ hpos htake =>
    obtain ⟨rfl, hfit⟩ := BootMemory.take_eq_ok_iff.mp htake
    obtain ⟨hlimit, hnext⟩ := BootMemory.take_of_ok htake
    constructor
    case aligned => exact hdvd
    case nonempty => exact hpos
    case free => exact ⟨Nat.le_refl _, hfit⟩
    case run => exact Nat.le_of_eq hnext.symm
    case left =>
      -- the cursor has come to the end of the run
      rintro u - ⟨hstart, hstop⟩
      rw [hnext] at hstart
      rw [hlimit] at hstop
      exact ⟨⟨Nat.le_trans (Nat.le_add_right ..) hstart, hstop⟩, .inl hstart⟩
    case kept =>
      intro u hu
      have hle : b.next.val ≤ (b.take n).2.next.val := by
        rw [hnext]
        exact Nat.le_add_right ..
      exact Nat.le_trans hu hle
  | @pooled a husable _ start hpos hgap hpa =>
    constructor
    case aligned => exact hdvd
    case nonempty => exact hpos
    case free => exact RunAllocator.hasFree_of_start hpos hpa hgap
    case run => exact ⟨pa, rfl, RunAllocator.runLength?_add husable.base_dvd hpos hgap hpa⟩
    case left =>
      intro u hu hfree
      rw [hpa]
      exact RunAllocator.hasFree_add hpos hgap hu hfree
    case kept =>
      rintro u ⟨addr, haddr, hlen⟩
      obtain ⟨r, hr, hplain, hstart, hframes⟩ :=
        RunAllocator.run_of_runLength? husable.base_dvd hlen
      refine ⟨addr, haddr, ?_⟩
      rw [← hframes]
      exact RunAllocator.runLength?_of_mem (a := a.withLive _) husable.base_dvd
        (List.mem_cons_of_mem _ hr) hplain hstart

/-- Nothing is handed out if nothing is asked for, or not enough frames in a row are free. -/
theorem Grants.of_refused (h : Grants n source (.ok none) next) :
    next = source ∧ (n = 0 ∨ ∀ t : FrameRange, t.frames = n → ¬ next.HasFree t) := by
  cases h with
  | empty _ hzero => exact ⟨rfl, .inl hzero⟩
  | refused a hnone =>
    rcases Nat.eq_zero_or_pos n with hzero | hpos
    · exact ⟨rfl, .inl hzero⟩
    refine ⟨rfl, .inr ?_⟩
    rintro t rfl hfree
    obtain ⟨start, -, hgap⟩ := RunAllocator.gap_of_hasFree hpos hfree
    exact hnone start hgap

/-- The frames to hand out come on page boundaries, and end at or below `last`. -/
structure Within (last : PAddr) (source : FrameSource) : Prop where
  onPages : source.OnPages
  limit_le : source.limit ≤ last

theorem Within.stop_le {last : PAddr} (h : source.Within last) (hfree : source.HasFree t)
    (hpos : 0 < t.frames) : t.stop ≤ last.val :=
  Nat.le_trans (hfree.stop_le h.onPages hpos) h.limit_le

theorem Within.step {last : PAddr} (h : source.Within last) (hstep : source.Step next) :
    next.Within last :=
  ⟨hstep.onPages h.onPages, Nat.le_trans hstep.limit_le h.limit_le⟩

end FrameSource

namespace Machine

/-- Free frames are none of the ledger's. -/
theorem not_inLedger_of_hasFree {m : Machine} {t : FrameRange} {i : Nat} (hbelow : m.LedgerBelow)
    (hpos : 0 < t.frames) (hfree : m.frames.value.HasFree t) (hi : t.Covers i) : ¬ m.InLedger i := by
  cases hsource : m.frames.value with
  | boot memory => exact not_inLedger_of_boot hsource i
  | pool pool =>
    rw [hsource] at hfree
    have hbase : pool.base.val ≤ i := Nat.le_trans (hfree.base_le hpos) hi.1
    exact fun hin => absurd (hbelow.lt_base hsource hin) (Nat.not_lt.mpr hbase)

theorem within_new (ram : Ram) (first last : PAddr) (victim : Nat → Fin tlbSlots) :
    (new ram first last victim).frames.value.Within last := by
  constructor
  case onPages => exact onPages_new ram first last victim
  case limit_le =>
    have hboot : (new ram first last victim).frames.value = .boot (.new first last) := rfl
    rw [hboot, FrameSource.limit, BootMemory.new_limit]
    exact last.alignDown_le

/-- No sequence of operations makes the source hand out frames of another kind. -/
theorem within_run (ram : Ram) (first last : PAddr) (victim : Nat → Fin tlbSlots)
    (ops : List Operation) :
    ((new ram first last victim).run ops).frames.value.Within last := by
  have hkeeps := Kernel.keeps_bound (I := FrameSource.Within last) (fun _ h => h.onPages)
    fun _ _ hstep h => h.step hstep
  exact run_bound hkeeps Kernel.keeps_flushTlb Kernel.keeps_installMapping _ ops
    (within_new ram first last victim)

end Machine
end MipsVm
