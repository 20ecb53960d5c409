import Mathlib.Data.List.Perm.Subperm
import MipsVm.Proofs.FrameAlignment
import MipsVm.Proofs.FrameOwnership

/-! The pool has no runs live but those that are out. What an allocation hands out counts as out, also
where its caller gets no address for it; then each call keeps the two the same. -/
namespace MipsVm

/-- Kernel pages are frames. -/
def FrameCall.direct : FrameCall → FrameCall
  | .allocKernelPages n => .allocFrames n
  | call => call

namespace RunAllocator
variable {a : RunAllocator} {t : Run} {pa : PAddr}

theorem runAt_of_range (hbase : pageSize ∣ a.base.val) (ht : t ∈ a.live.runs)
    (hpa : pa.val = (a.range t).start) : a.runAt pa = .ok t := by
  have hval : pa.val = a.base.val + t.start * pageSize := hpa
  have hlast : t.start + t.len ≤ a.frames := a.live.inside t ht
  have hpos := a.live.nonempty t ht
  have haligned : ¬ pa.val % pageSize ≠ 0 := by
    rw [hval, not_not]
    exact Nat.mod_eq_zero_of_dvd (Nat.dvd_add hbase (Nat.dvd_mul_left ..))
  have hinside : ¬ (pa < a.base ∨ a.base.val + a.frames * pageSize ≤ pa.val) := by
    rw [not_or, Address.lt_def, hval]
    simp only [pageSize]
    omega
  have hindex : (pa.val - a.base.val) / pageSize = t.start := by
    rw [hval, Nat.add_sub_cancel_left, Nat.mul_div_cancel _ (by decide)]
  rw [runAt, if_neg haligned, if_neg hinside, hindex]
  exact RunSet.runFrom_eq_ok_iff.mpr ⟨ht, rfl⟩

/-- A live run is released by the address of its first frame, unless that is the null address. -/
theorem deallocate_of_ne_null (hbase : pageSize ∣ a.base.val) (hnull : pa ≠ .null)
    (ht : t ∈ a.live.runs) (hpa : pa.val = (a.range t).start) :
    a.deallocate pa = (.ok t.len, { a with live := a.live.remove t }) := by
  have hbelow : ¬ pa < a.base := by
    rw [Address.lt_def, hpa, Nat.not_lt]
    exact Nat.le_add_right ..
  have hkept : ¬ (pa = .null ∨ pa < a.base) := not_or.mpr ⟨hnull, hbelow⟩
  rw [deallocate, if_neg hkept, runAt_of_range hbase ht hpa]

theorem deallocate_of_range (hbase : pageSize ∣ a.base.val) (hpos : 0 < a.base.val)
    (ht : t ∈ a.live.runs) (hpa : pa.val = (a.range t).start) :
    a.deallocate pa = (.ok t.len, { a with live := a.live.remove t }) := by
  have hlt : 0 < pa.val := by
    rw [hpa]
    exact Nat.lt_of_lt_of_le hpos (Nat.le_add_right ..)
  have hnull : pa ≠ .null := by
    rintro rfl
    exact Nat.lt_irrefl 0 hlt
  exact deallocate_of_ne_null hbase hnull ht hpa

end RunAllocator

namespace FrameHistory
variable {first last pa : PAddr} {h : FrameHistory} {machine : Machine} {a : RunAllocator}
  {l r : FrameRange}

/-- The null address is no frame of the pool: the ledger lies below the pool. -/
theorem Pooling.usable (hp : h.Pooling first last a l) : a.Usable := by
  refine ⟨hp.base_dvd, ?_⟩
  intro hframes
  have hfit := hp.entries_fit
  have hbase : l.start + l.frames * pageSize = a.base.val := hp.base_eq
  simp only [entrySize, pageSize] at *
  omega

theorem Accounted.onPages (hacc : h.Accounted first last) : h.machine.frames.value.OnPages := by
  rcases hacc.phase with ⟨memory, hs⟩ | ⟨a, l, hp⟩
  · rw [hs.source_eq]
    exact ⟨hs.cursor_dvd, hs.cursor_le⟩
  · rw [hp.source_eq]
    exact ⟨a, rfl, hp.usable⟩

/-- A run of the pool that is out is one of its live runs, and the pool takes it back. -/
theorem Pooling.deallocate_pooled (hp : h.Pooling first last a l) (hr : r ∈ h.pooled)
    (hpa : pa.val = r.start) :
    ∃ t ∈ a.live.runs, r = a.range t ∧
      a.deallocate pa = (.ok t.len, { a with live := a.live.remove t }) := by
  obtain ⟨t, ht, hrange⟩ := hp.pooled_live r hr
  have hstart : pa.val = (a.range t).start := hpa.trans (congrArg FrameRange.start hrange)
  have hframes : 0 < a.frames :=
    Nat.zero_lt_of_lt (RunSet.lt_of_covers ht (RunSet.covers_start ht))
  have hfreed := RunAllocator.deallocate_of_range hp.base_dvd (hp.usable.base_pos hframes) ht hstart
  exact ⟨t, ht, hrange, hfreed⟩

/-- Frames of boot memory lie below the pool. -/
theorem Pooling.stolen_lt_base (hp : h.Pooling first last a l) (hacc : h.Accounted first last)
    (hr : r ∈ h.stolen) : r.start < a.base.val := by
  have hpos := hacc.stolen_nonempty r hr
  calc
    r.start < r.stop := by
      simp only [FrameRange.stop, pageSize]
      omega
    _ ≤ l.start := hp.stolen_le r hr
    _ ≤ a.base.val := hp.start_le_base

/-- The pool passes over them. -/
theorem Pooling.deallocate_stolen (hp : h.Pooling first last a l) (hacc : h.Accounted first last)
    (hr : r ∈ h.stolen) (hpa : pa.val = r.start) : a.deallocate pa = (.ok 0, a) := by
  have hbelow : pa < a.base := by
    rw [Address.lt_def, hpa]
    exact hp.stolen_lt_base hacc hr
  exact if_pos (.inr hbelow)

theorem Pooling.nodup_pooled (hp : h.Pooling first last a l) : h.pooled.Nodup := by
  refine hp.pooled_apart.imp_of_mem ?_
  intro r t hr _ hapart heq
  subst heq
  obtain ⟨u, hu, hrange⟩ := hp.pooled_live r hr
  have hpos : 0 < r.frames := hrange ▸ a.live.nonempty u hu
  simp only [FrameRange.Apart, FrameRange.stop, pageSize] at hapart
  omega

/-- The live runs of the pool are what is out of it, if there are no more of them. -/
theorem Pooling.live_perm (hp : h.Pooling first last a l)
    (hcount : a.live.count = h.pooled.length) : h.pooled.Perm (a.live.runs.map a.range) := by
  have hsubset : h.pooled ⊆ a.live.runs.map a.range := by
    intro r hr
    obtain ⟨t, ht, rfl⟩ := hp.pooled_live r hr
    exact List.mem_map_of_mem ht
  -- distinct and as many, they leave no live run over
  refine (hp.nodup_pooled.subperm hsubset).perm_of_length_le ?_
  rw [List.length_map, ← hcount]
  exact Nat.le_refl _

/-- The pool has lost the run that is no longer out, if one started there. -/
theorem Pooling.count_deallocate (hp : h.Pooling first last a l)
    (hcount : a.live.count = h.pooled.length) {pa : PAddr} {freed : Nat}
    (hok : (a.deallocate pa).1 = .ok freed) :
    (a.deallocate pa).2.live.count = (h.pooled.filter fun r => r.start ≠ pa.val).length := by
  have hperm := hp.live_perm hcount
  rcases RunAllocator.deallocate_of_ok hok with ⟨-, hzero, hsame⟩ | ⟨t, hrun, -, hnext⟩
  · -- no run starts at an address that is passed over
    have hnone : h.pooled.filter (fun r => r.start ≠ pa.val) = h.pooled := by
      apply List.filter_eq_self.mpr
      intro r hr
      rw [decide_eq_true_eq]
      intro hstart
      obtain ⟨t, ht, -, hfreed⟩ := hp.deallocate_pooled hr hstart.symm
      rw [hfreed] at hok
      have hlen : t.len = freed := Except.ok.inj hok
      have hpos := a.live.nonempty t ht
      omega
    rw [hsame, hnone]
    exact hcount
  -- the address tells a run among those that are out, and the frame number among the live ones
  · have ht := RunAllocator.runAt_mem hrun
    have hstart := RunAllocator.start_range_of_runAt hp.base_dvd hrun
    have hleft := (hperm.filter fun r => r.start ≠ pa.val).length_eq
    rw [List.filter_map, List.length_map] at hleft
    have hsame : a.live.runs.filter ((fun r : FrameRange => decide (r.start ≠ pa.val)) ∘ a.range) =
        a.live.runs.filter fun u => u.start ≠ t.start := by
      apply List.filter_congr
      intro u _
      rw [← hstart]
      simp only [Function.comp_apply, RunAllocator.range, pageSize, ne_eq]
      congr 2
      apply propext
      omega
    rw [hnext, hleft, hsame, RunSet.filter_start_ne ht]
    rfl

@[simp] theorem machine_keep (h : FrameHistory) (machine : Machine) :
    (h.keep machine).machine = machine := rfl

@[simp] theorem machine_grant (h : FrameHistory) (r : FrameRange) (machine : Machine) :
    (h.grant r machine).machine = machine := by
  unfold grant
  cases h.machine.frames.value <;> rfl

@[simp] theorem machine_release (h : FrameHistory) (start : Nat) (machine : Machine) :
    (h.release start machine).machine = machine := by
  unfold release
  cases h.machine.frames.value <;> rfl

/-- The runs that are out are accounted for, and the pool has no others live. -/
structure Tracked (first last : PAddr) (h : FrameHistory) : Prop where
  accounted : h.Accounted first last
  counted : ∀ pool, h.machine.frames.value = .pool pool → pool.runs = h.pooled.length

theorem tracked_start (ram : Ram) (first last : PAddr) (victim : Nat → Fin tlbSlots) :
    (start (.new ram first last victim)).Tracked first last :=
  ⟨accounted_start ram first last victim, nofun⟩

theorem Tracked.of_boot {memory : BootMemory} (hacc : h.Accounted first last)
    (hsource : h.machine.frames.value = .boot memory) : h.Tracked first last := by
  refine ⟨hacc, ?_⟩
  intro pool hpool
  cases hsource.symm.trans hpool

theorem Tracked.of_pool (hacc : h.Accounted first last)
    (hsource : h.machine.frames.value = .pool a.pool) (hcount : a.live.count = h.pooled.length) :
    h.Tracked first last := by
  refine ⟨hacc, ?_⟩
  intro pool hpool
  obtain rfl := FrameSource.pool.inj (hsource.symm.trans hpool)
  exact hcount

theorem Tracked.keep (ht : h.Tracked first last) (hacc : (h.keep machine).Accounted first last)
    (hsource : h.machine.SameSource machine) : (h.keep machine).Tracked first last := by
  refine ⟨hacc, ?_⟩
  intro pool hpool
  exact ht.counted pool (hsource.source_eq.symm.trans hpool)

theorem Tracked.phase (ht : h.Tracked first last) :
    (∃ memory, h.Stealing first last memory) ∨
      ∃ a l, h.Pooling first last a l ∧ a.live.count = h.pooled.length := by
  rcases ht.accounted.phase with hs | ⟨a, l, hp⟩
  · exact .inl hs
  · exact .inr ⟨a, l, hp, ht.counted a.pool hp.source_eq⟩

theorem Tracked.allocFrames (ht : h.Tracked first last) (n : Nat) :
    (h.next (.allocFrames n)).Tracked first last := by
  have hacc := ht.accounted.allocFrames n
  rcases Nat.eq_zero_or_pos n with rfl | hpos
  · exact ht
  have hn : n ≠ 0 := Nat.ne_of_gt hpos
  rw [next] at hacc ⊢
  rcases ht.phase with ⟨memory, hs⟩ | ⟨a, l, hp, hcount⟩
  · obtain ⟨records, hrecords⟩ := BootMemory.takeRecords_eq_ok hs.cursor_le n
    rw [Kernel.allocFrames_boot hs.source_eq hn hrecords] at hacc ⊢
    cases htake : (memory.take n).1 with
    | error halt =>
      rw [htake] at hacc
      exact .of_boot hacc rfl
    | ok pa =>
      rw [htake] at hacc
      have hsource (machine : Machine) (hmachine : machine.frames.value = .boot (memory.take n).2) :
          (h.grant ⟨pa.val, n⟩ machine).machine.frames.value = .boot (memory.take n).2 := by
        rwa [machine_grant]
      exact .of_boot hacc (hsource _ rfl)
  · rw [Kernel.allocFrames_pool hp.source_eq hn, RunAllocator.allocate_pool] at hacc ⊢
    cases hanswer : (a.allocate n).1 with
    | none =>
      rw [hanswer] at hacc
      rw [RunAllocator.allocate_none hanswer] at hacc ⊢
      exact .of_pool hacc rfl hcount
    | some pa =>
      rw [hanswer] at hacc
      obtain ⟨start, hn, hgap, hpa, hnext⟩ := RunAllocator.allocate_some hanswer
      rw [hnext] at hacc ⊢
      dsimp only at hacc ⊢
      simp only [grant, hp.source_eq] at hacc ⊢
      exact .of_pool hacc rfl (congrArg (· + 1) hcount)

theorem Tracked.freeFrames (ht : h.Tracked first last) (pa : PAddr) :
    (h.next (.freeFrames pa)).Tracked first last := by
  have hacc := ht.accounted.freeFrames pa
  rw [next] at hacc ⊢
  rcases ht.phase with ⟨memory, hs⟩ | ⟨a, l, hp, hcount⟩
  · rw [Kernel.freeFrames_boot hs.source_eq] at hacc ⊢
    simp only [release, hs.source_eq] at hacc ⊢
    exact .of_boot hacc rfl
  rw [Kernel.freeFrames_pool hp.source_eq, RunAllocator.deallocate_pool] at hacc ⊢
  cases hanswer : (a.deallocate pa).1 with
  | error halt =>
    -- the halt comes before anything is released
    rw [hanswer, (RunAllocator.deallocate_of_error hanswer).2] at hacc
    rw [(RunAllocator.deallocate_of_error hanswer).2]
    exact .of_pool hacc rfl hcount
  | ok freed =>
    rw [hanswer] at hacc
    simp only [Except.map, release, hp.source_eq] at hacc ⊢
    exact .of_pool hacc rfl (hp.count_deallocate hcount hanswer)

theorem Tracked.markThreadStack (ht : h.Tracked first last) (pa : PAddr) :
    (h.next (.markThreadStack pa)).Tracked first last := by
  have hacc := ht.accounted.markThreadStack pa
  rw [next] at hacc ⊢
  rcases ht.phase with ⟨memory, hs⟩ | ⟨a, l, hp, hcount⟩
  · rw [Kernel.markThreadStack_boot hs.source_eq] at hacc ⊢
    cases hwrite : h.machine.ram.write pa Kernel.threadStackFooter <;> rw [hwrite] at hacc <;>
      exact .of_boot hacc hs.source_eq
  rw [Kernel.markThreadStack_pool hp.source_eq, RunAllocator.markFooter_pool] at hacc ⊢
  cases hmark : (a.markFooter pa).1 with
  | error e =>
    rw [hmark] at hacc
    exact .of_pool hacc hp.source_eq hcount
  | ok marked =>
    obtain ⟨t, -, hstamped⟩ := RunAllocator.markFooter_of_ok hmark
    rw [hmark, hstamped] at hacc
    rw [hstamped]
    have hstamp : (a.live.stamp t).count = h.pooled.length := RunSet.count_stamp.trans hcount
    dsimp only [Except.map] at hacc ⊢
    split at hacc <;> exact .of_pool hacc rfl hstamp

theorem Tracked.bootstrap (ht : h.Tracked first last) : (h.next .bootstrap).Tracked first last := by
  have hacc := ht.accounted.bootstrap
  rw [next] at hacc ⊢
  rcases ht.phase with ⟨memory, hs⟩ | ⟨a, l, hp, hcount⟩
  · obtain ⟨split, hsplit, -⟩ := PoolLayout.new_splits memory.next memory.limit
    rcases Nat.lt_or_ge split.lo.val h.machine.ram.size with hin | hout
    · obtain ⟨fits, houtcome⟩ := Kernel.bootstrap_boot_of_lt hs.source_eq hsplit hin
      simp only [houtcome, install, hs.source_eq, hsplit] at hacc ⊢
      exact .of_pool hacc rfl (by rw [hs.pooled_eq]; rfl)
    · rw [Kernel.bootstrap_boot_of_le hs.source_eq hsplit hout] at hacc ⊢
      exact .of_boot hacc hs.source_eq
  · rw [Kernel.bootstrap_pool hp.source_eq] at hacc ⊢
    exact .of_pool hacc hp.source_eq hcount

/-- One call, with kernel pages allocated as frames. -/
theorem Tracked.next_direct (ht : h.Tracked first last) (call : FrameCall) :
    (h.next call.direct).Tracked first last := by
  have hcritical := Machine.sameSource_effect.critical
  have hacc := ht.accounted.next call.direct
  cases call with
  | allocFrames n => exact ht.allocFrames n
  | allocKernelPages n => exact ht.allocFrames n
  | freeFrames pa => exact ht.freeFrames pa
  | freeKernelPages va =>
    change (h.next (.freeKernelPages va)).Tracked first last
    cases hva : directMapped? va with
    | none =>
      rw [next_freeKernelPages_of_none hva]
      exact ht.keep (ht.accounted.keep rfl (.of_same rfl rfl rfl)) ⟨rfl, rfl⟩
    | some pa =>
      rw [next_freeKernelPages hva]
      exact ht.freeFrames pa
  | markThreadStack pa => exact ht.markThreadStack pa
  | frameStats => exact ht.keep hacc (Kernel.obeys_frameStats hcritical h.machine)
  | auditFrames => exact ht.keep hacc (Kernel.obeys_auditFrames hcritical h.machine)
  | bootstrap => exact ht.bootstrap

end FrameHistory
end MipsVm
