import MipsVm.Proofs.FrameHoldings

/-! Each operation on physical memory moves at most one holding in or out of the list of all holdings:
what is handed out was nobody's, and what is given back was held. -/
namespace MipsVm
namespace Owned
variable {first last : PAddr} {m : Machine} {hs : List Holding} {l : Option FrameRange}
  {x : Holding} {n : Nat} {pa : PAddr}

/-- The allocation of `n` frames, from `m` with the holdings `hs` on. -/
inductive Allocation (first last : PAddr) (m : Machine) (hs : List Holding) (l : Option FrameRange)
    (n : Nat) : Except Halt (Option PAddr) × Machine → Prop where
  | granted (pa : PAddr) (m' : Machine) (hledger : m.WritesLedger m')
    (hpooling : m'.pooling = m.pooling)
    (howned : Owned first last m' (⟨⟨pa.val, n⟩, m.pooling⟩ :: hs) l) :
    Allocation first last m hs l n (.ok (some pa), m')
  | refused (m' : Machine) (hledger : m.WritesLedger m') (hpooling : m'.pooling = m.pooling)
    (howned : Owned first last m' hs l) : Allocation first last m hs l n (.ok none, m')
  /-- Only boot memory halts. -/
  | halted (halt : Halt) (m' : Machine) (hledger : m.WritesLedger m')
    (hboot : m.pooling = false) (hpooling : m'.pooling = m.pooling) (howned : Owned first last m' hs l) :
    Allocation first last m hs l n (.error halt, m')

theorem allocFrames (h : Owned first last m hs l) (n : Nat) :
    Allocation first last m hs l n ((Kernel.allocFrames n).outcome m) := by
  have hnext := h.tracked.allocFrames n
  have hmachine : (account m hs l).machine = m := rfl
  rw [FrameHistory.next, hmachine] at hnext
  rcases houtcome : (Kernel.allocFrames n).outcome m with ⟨answer, m'⟩
  obtain ⟨hgrants, hledger⟩ := Kernel.grants_of_outcome h.accounted.onPages houtcome
  have hpooling : m'.pooling = m.pooling := hgrants.isPool_eq
  have hin : last.val ≤ m'.ram.size := h.ram_le.trans_eq hledger.size.symm
  rw [houtcome] at hnext
  rcases answer with halt | _ | pa
  · have hboot : m.pooling = false := hgrants.of_halted.2.1
    exact .halted halt m' hledger hboot hpooling (of_tracked hnext hin h.direct_le)
  · exact .refused m' hledger hpooling (of_tracked hnext hin h.direct_le)
  · simp only [grant_account] at hnext
    exact .granted pa m' hledger hpooling (of_tracked hnext hin h.direct_le)

/-- In the pool, a holding is the only one that begins where it begins. -/
theorem release_account (h : Owned first last m (x :: hs) l) (hx : x.pooled = true)
    (hpa : pa.val = x.range.start) (hpooling : m.pooling = true) (machine : Machine) :
    (account m (x :: hs) l).release pa.val machine = account machine hs l := by
  have hothers : ∀ r ∈ Holding.pooledRanges hs, r.start ≠ pa.val := by
    intro r hr
    obtain ⟨y, hy, rfl⟩ := List.mem_map.mp hr
    rw [hpa]
    exact h.start_ne (List.mem_of_mem_filter hy)
  have hfilter : (Holding.pooledRanges (x :: hs)).filter (fun r => r.start ≠ pa.val) =
      Holding.pooledRanges hs := by
    have hself : ¬ decide (x.range.start ≠ pa.val) = true := by simp [hpa]
    rw [Holding.pooledRanges_cons_of_pooled hx, List.filter_cons, if_neg hself,
      List.filter_eq_self]
    exact fun r hr => decide_eq_true (hothers r hr)
  rw [FrameHistory.release]
  simp only [account]
  cases hsource : m.frames.value with
  | boot memory =>
    rw [Machine.pooling, hsource] at hpooling
    cases hpooling
  | pool pool =>
    simp only [hfilter, Holding.stolenRanges_cons_of_pooled hx]

/-- Whoever gives back frames that are held is answered, and nobody else loses any. -/
theorem freeFrames (h : Owned first last m (x :: hs) l) (hpa : pa.val = x.range.start) :
    ∃ m', (Kernel.freeFrames pa).outcome m = (.ok (), m') ∧ m.WritesLedger m' ∧
      m'.pooling = m.pooling ∧ Owned first last m' hs l := by
  have hnext := h.tracked.freeFrames pa
  have hmachine : (account m (x :: hs) l).machine = m := rfl
  have hledger := Kernel.writesLedger_freeFrames m pa
  have hin := h.ram_le.trans_eq hledger.size.symm
  rcases h.phase with ⟨memory, hsource, hboot, -⟩ | ⟨a, ledger, hsource, hpooling, hp⟩
  · -- boot memory takes nothing back
    have hx := h.pooled_of_mem_boot hboot List.mem_cons_self
    rw [Kernel.freeFrames_boot hsource] at hledger ⊢
    exact ⟨_, rfl, hledger, rfl, (h.drop hx).of_same ⟨rfl, rfl⟩ rfl⟩
  rw [FrameHistory.next, hmachine, Kernel.freeFrames_pool hsource,
    RunAllocator.deallocate_pool] at hnext
  rw [Kernel.freeFrames_pool hsource, RunAllocator.deallocate_pool] at hledger hin ⊢
  cases hx : x.pooled with
  | false =>
    have hmem : x.range ∈ (account m (x :: hs) l).stolen := by
      rw [account, Holding.stolenRanges_cons_of_stolen hx]
      exact List.mem_cons_self
    rw [hp.deallocate_stolen h.accounted hmem hpa] at hledger ⊢
    exact ⟨_, rfl, hledger, hpooling.symm,
      (h.drop hx).of_same ⟨hsource.symm, rfl⟩ (Ledger.store_self ..)⟩
  | true =>
    have hmem : x.range ∈ (account m (x :: hs) l).pooled := by
      rw [account, Holding.pooledRanges_cons_of_pooled hx]
      exact List.mem_cons_self
    obtain ⟨t, -, -, hfreed⟩ := hp.deallocate_pooled hmem hpa
    rw [hfreed] at hnext hledger hin ⊢
    simp only [Except.map, release_account h hx hpa hpooling] at hnext
    exact ⟨_, rfl, hledger, hpooling.symm, of_tracked hnext hin h.direct_le⟩

/-- The footer goes to the first bytes of the holding, and to the ledger in place of its length. -/
theorem markThreadStack (h : Owned first last m (x :: hs) l) (hpa : pa.val = x.range.start) :
    Owned first last ((Kernel.markThreadStack pa).outcome m).2 (x :: hs) l ∧
      m.Spares hs ((Kernel.markThreadStack pa).outcome m).2 := by
  have hmarked : (account ((Kernel.markThreadStack pa).outcome m).2 (x :: hs) l).Tracked
      first last := h.tracked.markThreadStack pa
  have hfits : pa.val + Kernel.threadStackFooter.size ≤ x.range.stop := by
    have hpos := h.frames_pos List.mem_cons_self
    have hsize : Kernel.threadStackFooter.size = 4 := Array.size_ofFn
    simp only [FrameRange.stop, pageSize]
    omega
  obtain ⟨ram, hledger, hfooter⟩ := Ram.changesAt_markThreadStack m pa
  have hw := hfooter.writesIn (Nat.le_of_eq hpa.symm) hfits
  have hsize := hw.size.trans hledger.size
  have hpooling := (Kernel.step_markThreadStack h.accounted.onPages pa).isPool
  refine ⟨of_tracked hmarked (h.ram_le.trans_eq hsize.symm) h.direct_le, hsize, ?_, hpooling⟩
  -- neither the ledger nor the first holding has a byte of the others
  intro y hy i hi
  have hapart : x.range.Apart y.range :=
    (List.pairwise_cons.mp h.apart).1 y.range (List.mem_map_of_mem hy)
  have hmem := mem_outstanding (m := m) (l := l) (List.mem_cons_of_mem x hy)
  calc
    ((Kernel.markThreadStack pa).outcome m).2.ram.byte i = ram.byte i :=
      hw.byte i (hapart.symm.not_covers hi)
    _ = m.ram.byte i := hledger.byte i (h.accounted.not_inLedger hmem hi)

theorem bootstrap_account (m : Machine) (hs : List Holding) (l : Option FrameRange) :
    let booted := FrameHistory.next ⟨m, [], [], l⟩ .bootstrap
    (account m hs l).next .bootstrap = account booted.machine hs booted.ledger := by
  have hmachine : (account m hs l).machine = m := rfl
  simp only [FrameHistory.next, hmachine]
  rcases Kernel.bootstrap.outcome m with ⟨halt | _, machine⟩
  · rfl
  simp only [FrameHistory.install, hmachine]
  cases m.frames.value with
  | pool pool => rfl
  | boot memory =>
    dsimp only
    cases PoolLayout.new memory.next memory.limit <;> rfl

/-- The step from boot memory to the pool keeps everybody's frames and their bytes. -/
theorem bootstrap (h : Owned first last m hs l) :
    let booted := FrameHistory.next ⟨m, [], [], l⟩ .bootstrap
    Owned first last booted.machine hs booted.ledger ∧ m.Spares hs booted.machine := by
  have hnext := h.tracked.bootstrap
  rw [bootstrap_account] at hnext
  rcases h.phase with ⟨memory, hsource, -, -⟩ | ⟨a, ledger, hsource, -, -⟩
  · obtain ⟨split, hsplit, hsplits⟩ := PoolLayout.new_splits memory.next memory.limit
    rcases Nat.lt_or_ge split.lo.val m.ram.size with hin | hout
    · obtain ⟨fits, houtcome⟩ := Kernel.bootstrap_boot_of_lt hsource hsplit hin
      have hfit : split.lo.val + split.managed * entrySize ≤
          split.lo.val + split.ledgerFrames * pageSize :=
        Nat.add_le_add_left hsplits.entries_fit _
      have hw : m.ram.WritesIn ⟨split.lo.val, split.ledgerFrames⟩
          (m.ram.update split.lo.val (split.managed * entrySize) fun _ => 0) :=
        Ram.writesIn_update (Nat.le_refl _) hfit _
      simp only [FrameHistory.next, houtcome, FrameHistory.install, hsource, hsplit] at hnext ⊢
      refine ⟨of_tracked hnext (h.ram_le.trans_eq hw.size.symm) h.direct_le, hw.size, ?_, ?_⟩
      · -- nothing is written but the new ledger, which is apart from all that is held
        intro x hx i hi
        have hapart := hnext.accounted.exclusive.ledger_apart _ rfl x.range (mem_outstanding hx)
        exact hw.byte i (hapart.not_covers hi)
      · exact fun _ => rfl
    · simp only [FrameHistory.next, Kernel.bootstrap_boot_of_le hsource hsplit hout]
      exact ⟨h.of_same ⟨rfl, rfl⟩ rfl, rfl, fun _ _ _ _ => rfl, id⟩
  · simp only [FrameHistory.next, Kernel.bootstrap_pool hsource]
    exact ⟨h.of_same ⟨rfl, rfl⟩ rfl, rfl, fun _ _ _ _ => rfl, id⟩

/-- The direct map reaches all the frames. -/
theorem kernelAddr_of_holding (h : Owned first last m hs l) (hx : x ∈ hs)
    (hpa : pa.val = x.range.start) :
    ∃ va, kernelAddr pa = .ok va ∧ directMapped? va = some pa := by
  have hbelow : pa.val < directMapSize := calc
    pa.val = x.range.start := hpa
    _ < x.range.stop := h.start_lt_stop hx
    _ ≤ last.val := h.stop_le hx
    _ ≤ directMapSize := h.direct_le
  obtain ⟨va, haddr⟩ : ∃ va, kernelAddr pa = .ok va := ⟨_, dif_pos hbelow⟩
  exact ⟨va, haddr, kernelAddr_eq_ok_iff.mp haddr⟩

end Owned
end MipsVm
