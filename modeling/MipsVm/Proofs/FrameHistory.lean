import MipsVm.Proofs.FrameService

/-! Runs of frames that were handed out and not released since, along any sequence of calls to physical
memory. One invariant covers boot memory, the frame pool, and the step from one to the other. -/
namespace MipsVm

inductive FrameCall where
  | allocFrames (n : Nat)
  | allocKernelPages (n : Nat)
  | freeFrames (pa : PAddr)
  | freeKernelPages (va : VAddr)
  | markThreadStack (pa : PAddr)
  | frameStats
  | auditFrames
  | bootstrap

/-- A machine, with the runs of frames that are out. -/
structure FrameHistory where
  machine : Machine
  /-- Runs handed out by boot memory. -/
  stolen : List FrameRange
  /-- Runs handed out by the pool. -/
  pooled : List FrameRange
  /-- The frames that hold the ledger. -/
  ledger : Option FrameRange

namespace FrameHistory

def start (machine : Machine) : FrameHistory := ⟨machine, [], [], none⟩

def outstanding (h : FrameHistory) : List FrameRange := h.stolen ++ h.pooled

/-- Keeps the record of a call that handed out and released nothing. -/
def keep (h : FrameHistory) (machine : Machine) : FrameHistory := { h with machine }

def grant (h : FrameHistory) (r : FrameRange) (machine : Machine) : FrameHistory :=
  match h.machine.frames.value with
  | .boot _ => { h with machine, stolen := r :: h.stolen }
  | .pool _ => { h with machine, pooled := r :: h.pooled }

/-- Boot memory takes nothing back. -/
def release (h : FrameHistory) (start : Nat) (machine : Machine) : FrameHistory :=
  match h.machine.frames.value with
  | .boot _ => h.keep machine
  | .pool _ => { h with machine, pooled := h.pooled.filter fun r => r.start ≠ start }

/-- The ledger goes to the frames that the split of boot memory gives it. -/
def install (h : FrameHistory) (machine : Machine) : FrameHistory :=
  match h.machine.frames.value with
  | .boot memory =>
    match PoolLayout.new memory.next memory.limit with
    | .ok l => { h with machine, ledger := some ⟨l.lo.val, l.ledgerFrames⟩ }
    | .error _ => h.keep machine
  | .pool _ => h.keep machine

/-- Performs the call. A run is out from the moment it is returned. -/
def next (h : FrameHistory) : FrameCall → FrameHistory
  | .allocFrames n =>
    match (Kernel.allocFrames n).outcome h.machine with
    | (.ok (some pa), machine) => h.grant ⟨pa.val, n⟩ machine
    | (_, machine) => h.keep machine
  | .allocKernelPages n =>
    match (Kernel.allocKernelPages n).outcome h.machine with
    | (.ok (some va), machine) => h.grant ⟨va.val - kseg0, n⟩ machine
    | (_, machine) => h.keep machine
  | .freeFrames pa =>
    match (Kernel.freeFrames pa).outcome h.machine with
    | (.ok (), machine) => h.release pa.val machine
    | (_, machine) => h.keep machine
  | .freeKernelPages va =>
    match (Kernel.freeKernelPages va).outcome h.machine with
    | (.ok (), machine) => h.release (va.val - kseg0) machine
    | (_, machine) => h.keep machine
  | .markThreadStack pa => h.keep ((Kernel.markThreadStack pa).outcome h.machine).2
  | .frameStats => h.keep (Kernel.frameStats.outcome h.machine).2
  | .auditFrames => h.keep (Kernel.auditFrames.outcome h.machine).2
  | .bootstrap =>
    match Kernel.bootstrap.outcome h.machine with
    | (.ok (), machine) => h.install machine
    | (_, machine) => h.keep machine

/-- A run is freed by its kernel address as it is by its own … -/
theorem next_freeKernelPages {h : FrameHistory} {va : VAddr} {pa : PAddr}
    (hva : directMapped? va = some pa) :
    h.next (.freeKernelPages va) = h.next (.freeFrames pa) := by
  rw [next, next, Kernel.freeKernelPages_outcome, hva, offset_of_directMapped hva]

/-- … and an address that is no kernel address leaves nothing but a record. -/
theorem next_freeKernelPages_of_none {h : FrameHistory} {va : VAddr}
    (hva : directMapped? va = none) :
    h.next (.freeKernelPages va) =
      h.keep (h.machine.logged [⟨.error, (Halt.notDirectMapped va).message⟩]) := by
  rw [next, Kernel.freeKernelPages_outcome, hva]

def run (h : FrameHistory) (calls : List FrameCall) : FrameHistory := calls.foldl next h

end FrameHistory

namespace RunAllocator
variable {a : RunAllocator} {pa : PAddr} {r t : Run}

/-- The frames of a run of the pool. -/
def range (a : RunAllocator) (r : Run) : FrameRange := ⟨a.base.val + r.start * pageSize, r.len⟩

theorem stop_range (a : RunAllocator) (r : Run) :
    (a.range r).stop = a.base.val + r.stop * pageSize := by
  simp only [range, FrameRange.stop, Run.stop, Nat.add_mul, Nat.add_assoc]

theorem range_apart (h : r.Apart t) : (a.range r).Apart (a.range t) := by
  rw [FrameRange.Apart, stop_range, stop_range]
  exact h.imp (fun hle => Nat.add_le_add_left (Nat.mul_le_mul_right _ hle) _)
    fun hle => Nat.add_le_add_left (Nat.mul_le_mul_right _ hle) _

theorem stop_range_le (hr : r ∈ a.live.runs) :
    (a.range r).stop ≤ a.base.val + a.frames * pageSize := by
  rw [stop_range]
  exact Nat.add_le_add_left (Nat.mul_le_mul_right _ (a.live.inside r hr)) _

theorem start_range_of_runAt (hbase : pageSize ∣ a.base.val) (h : a.runAt pa = .ok r) :
    (a.range r).start = pa.val := by
  unfold runAt at h
  split_ifs at h with haligned hbound
  have hstart := (RunSet.runFrom_eq_ok_iff.mp h).2
  rw [not_or, Address.lt_def] at hbound
  simp only [range, hstart, pageSize] at *
  omega

end RunAllocator

namespace FrameHistory
variable {first last : PAddr} {h : FrameHistory} {machine : Machine} {memory : BootMemory}
  {a : RunAllocator} {l : FrameRange}

/-- Boot memory hands out the frames: all below its cursor may be out, and none above. -/
structure Stealing (first last : PAddr) (h : FrameHistory) (memory : BootMemory) : Prop where
  source_eq : h.machine.frames.value = .boot memory
  pooled_eq : h.pooled = []
  ledger_eq : h.ledger = none
  cursor_dvd : pageSize ∣ memory.next.val
  floor_le : pageFrom first last.alignDown ≤ memory.next.val
  cursor_le : memory.next ≤ memory.limit
  limit_eq : memory.limit = last.alignDown
  stolen_le : ∀ r ∈ h.stolen, r.stop ≤ memory.next.val

/-- The pool hands out the frames: what boot memory handed out ends below the ledger, the pool begins
where the ledger ends, and each run that is out is live in the pool. -/
structure Pooling (first last : PAddr) (h : FrameHistory) (a : RunAllocator) (l : FrameRange) :
    Prop where
  source_eq : h.machine.frames.value = .pool a.pool
  ledger_eq : h.ledger = some l
  start_dvd : pageSize ∣ l.start
  floor_le : pageFrom first last.alignDown ≤ l.start
  base_eq : l.stop = a.base.val
  limit_le : a.base.val + a.frames * pageSize ≤ last.alignDown.val
  entries_fit : a.frames * entrySize ≤ l.frames * pageSize
  ledgerAt_eq : h.machine.ledgerAt.val = l.start
  stored : h.machine.StoresLedger
  stolen_le : ∀ r ∈ h.stolen, r.stop ≤ l.start
  pooled_live : ∀ r ∈ h.pooled, ∃ t ∈ a.live.runs, r = a.range t
  pooled_apart : h.pooled.Pairwise FrameRange.Apart

structure Accounted (first last : PAddr) (h : FrameHistory) : Prop where
  stolen_dvd : ∀ r ∈ h.stolen, pageSize ∣ r.start
  stolen_nonempty : ∀ r ∈ h.stolen, 0 < r.frames
  floor_le : ∀ r ∈ h.stolen, pageFrom first last.alignDown ≤ r.start
  stolen_apart : h.stolen.Pairwise FrameRange.Apart
  phase : (∃ memory, h.Stealing first last memory) ∨ ∃ a l, h.Pooling first last a l

theorem accounted_start (ram : Ram) (first last : PAddr) (victim : Nat → Fin tlbSlots) :
    (start (.new ram first last victim)).Accounted first last := by
  constructor
  case stolen_dvd => exact nofun
  case stolen_nonempty => exact nofun
  case floor_le => exact nofun
  case stolen_apart => exact .nil
  case phase =>
    refine .inl ⟨.new first last, ?_⟩
    constructor
    case source_eq => rfl
    case pooled_eq => rfl
    case ledger_eq => rfl
    case cursor_dvd =>
      rw [BootMemory.new_next]
      exact pageFrom_dvd last.isPageAligned_alignDown
    case floor_le => rw [BootMemory.new_next]
    case cursor_le =>
      rw [Address.le_def, BootMemory.new_next, BootMemory.new_limit]
      exact pageFrom_le ..
    case limit_eq => exact BootMemory.new_limit first last
    case stolen_le => exact nofun

theorem Stealing.accounted_keep (hs : h.Stealing first last memory) (hacc : h.Accounted first last)
    (hsource : machine.frames.value = .boot memory) : (h.keep machine).Accounted first last :=
  { hacc with phase := .inl ⟨memory, { hs with source_eq := hsource }⟩ }

theorem Accounted.keep (hacc : h.Accounted first last)
    (hsource : machine.frames.value = h.machine.frames.value)
    (hledger : h.machine.WritesLedger machine) : (h.keep machine).Accounted first last := by
  -- of the machine only the frame source and the ledger matter
  rcases hacc.phase with ⟨memory, hs⟩ | ⟨a, l, hp⟩
  · exact hs.accounted_keep hacc (hsource.trans hs.source_eq)
  · refine { hacc with phase := .inr ⟨a, l, { hp with
      source_eq := hsource.trans hp.source_eq, ledgerAt_eq := ?_, stored := ?_ }⟩ }
    · exact (congrArg Address.val hledger.ledgerAt_eq).trans hp.ledgerAt_eq
    · exact hledger.stored hp.stored

theorem Accounted.of_grant {r : FrameRange} (hacc : (h.grant r machine).Accounted first last) :
    (h.keep machine).Accounted first last := by
  -- every bound holds of the other runs without it
  unfold grant at hacc
  cases hsource : h.machine.frames.value with
  | boot memory =>
    rw [hsource] at hacc
    have hmem {t : FrameRange} (ht : t ∈ h.stolen) : t ∈ r :: h.stolen := List.mem_cons_of_mem r ht
    refine ⟨fun t ht => hacc.stolen_dvd t (hmem ht), fun t ht => hacc.stolen_nonempty t (hmem ht),
      fun t ht => hacc.floor_le t (hmem ht), (List.pairwise_cons.mp hacc.stolen_apart).2, ?_⟩
    rcases hacc.phase with ⟨memory, hs⟩ | ⟨a, l, hp⟩
    · exact .inl ⟨memory, { hs with stolen_le := fun t ht => hs.stolen_le t (hmem ht) }⟩
    · exact .inr ⟨a, l, { hp with stolen_le := fun t ht => hp.stolen_le t (hmem ht) }⟩
  | pool pool =>
    rw [hsource] at hacc
    refine { hacc with phase := ?_ }
    rcases hacc.phase with ⟨memory, hs⟩ | ⟨a, l, hp⟩
    · cases hs.pooled_eq
    · exact .inr ⟨a, l, { hp with
        pooled_live := fun t ht => hp.pooled_live t (List.mem_cons_of_mem r ht)
        pooled_apart := (List.pairwise_cons.mp hp.pooled_apart).2 }⟩

theorem Stealing.accounted_take (hs : h.Stealing first last memory) (hacc : h.Accounted first last)
    {n : Nat} (hn : n ≠ 0) {pa : PAddr} (htake : (memory.take n).1 = .ok pa)
    (hmachine : machine.frames.value = .boot (memory.take n).2) :
    (h.grant ⟨pa.val, n⟩ machine).Accounted first last := by
  obtain ⟨rfl, hle⟩ := BootMemory.take_eq_ok_iff.mp htake
  obtain ⟨hlimit, hnext⟩ := BootMemory.take_of_ok htake
  have hstop : (⟨memory.next.val, n⟩ : FrameRange).stop = memory.next.val + n * pageSize := rfl
  rw [grant, hs.source_eq]
  constructor
  case stolen_dvd => exact List.forall_mem_cons.mpr ⟨hs.cursor_dvd, hacc.stolen_dvd⟩
  case stolen_nonempty =>
    exact List.forall_mem_cons.mpr ⟨Nat.pos_of_ne_zero hn, hacc.stolen_nonempty⟩
  case floor_le => exact List.forall_mem_cons.mpr ⟨hs.floor_le, hacc.floor_le⟩
  case stolen_apart =>
    -- all that was handed out before ends by the cursor
    exact List.pairwise_cons.mpr ⟨fun r hr => .inr (hs.stolen_le r hr), hacc.stolen_apart⟩
  case phase =>
    refine .inl ⟨(memory.take n).2, ?_⟩
    constructor
    case source_eq => exact hmachine
    case pooled_eq => exact hs.pooled_eq
    case ledger_eq => exact hs.ledger_eq
    case cursor_dvd =>
      rw [hnext]
      exact Nat.dvd_add hs.cursor_dvd (Nat.dvd_mul_left ..)
    case floor_le =>
      rw [hnext]
      exact Nat.le_add_right_of_le hs.floor_le
    case cursor_le => rwa [Address.le_def, hlimit, hnext]
    case limit_eq => rw [hlimit, hs.limit_eq]
    case stolen_le =>
      rw [hnext]
      refine List.forall_mem_cons.mpr ⟨Nat.le_of_eq hstop, ?_⟩
      intro r hr
      exact Nat.le_add_right_of_le (hs.stolen_le r hr)

theorem Pooling.accounted_allocate (hp : h.Pooling first last a l) (hacc : h.Accounted first last)
    {n : Nat} {pa : PAddr} (hsome : (a.allocate n).1 = some pa)
    (hsource : machine.frames.value = .pool (a.allocate n).2.pool)
    (hledger : h.machine.WritesLedger machine) :
    (h.grant ⟨pa.val, n⟩ machine).Accounted first last := by
  obtain ⟨start, hn, hgap, hpa, hnext⟩ := RunAllocator.allocate_some hsome
  have hrange : (⟨pa.val, n⟩ : FrameRange) = a.range ⟨start, n, false⟩ := by
    rw [hpa]
    rfl
  rw [grant, hp.source_eq, hrange]
  refine { hacc with phase := .inr ⟨(a.allocate n).2, l, ?_⟩ }
  rw [hnext] at hsource ⊢
  refine { hp with
    source_eq := hsource
    ledgerAt_eq := (congrArg Address.val hledger.ledgerAt_eq).trans hp.ledgerAt_eq
    stored := hledger.stored hp.stored
    pooled_live := ?_
    pooled_apart := ?_ }
  · refine List.forall_mem_cons.mpr ⟨⟨_, List.mem_cons_self, rfl⟩, ?_⟩
    intro r hr
    obtain ⟨t, ht, hrt⟩ := hp.pooled_live r hr
    exact ⟨t, List.mem_cons_of_mem _ ht, hrt⟩
  · -- the gap that became the run keeps clear of every live run, so of those that are out
    refine List.pairwise_cons.mpr ⟨?_, hp.pooled_apart⟩
    intro r hr
    obtain ⟨t, ht, rfl⟩ := hp.pooled_live r hr
    exact RunAllocator.range_apart (hgap.2 t ht).symm

theorem Accounted.allocFrames (hacc : h.Accounted first last) (n : Nat) :
    (h.next (.allocFrames n)).Accounted first last := by
  rw [next]
  rcases Nat.eq_zero_or_pos n with rfl | hpos
  · exact hacc.keep rfl (.refl h.machine)
  have hn : n ≠ 0 := Nat.ne_of_gt hpos
  rcases hacc.phase with ⟨memory, hs⟩ | ⟨a, l, hp⟩
  · obtain ⟨records, hrecords⟩ := BootMemory.takeRecords_eq_ok hs.cursor_le n
    rw [Kernel.allocFrames_boot hs.source_eq hn hrecords]
    cases htake : (memory.take n).1 with
    | error halt =>
      refine hs.accounted_keep hacc ?_
      rw [BootMemory.take_of_error htake]
      rfl
    | ok pa => exact hs.accounted_take hacc hn htake rfl
  · have hledger := Kernel.writesLedger_allocFrames_pool hp.source_eq n
    rw [Kernel.allocFrames_pool hp.source_eq hn, RunAllocator.allocate_pool] at hledger ⊢
    cases hanswer : (a.allocate n).1 with
    | none =>
      refine hacc.keep ?_ hledger
      rw [hp.source_eq, RunAllocator.allocate_none hanswer]
      rfl
    | some pa => exact hp.accounted_allocate hacc hanswer rfl hledger

theorem Accounted.allocKernelPages (hacc : h.Accounted first last) (n : Nat) :
    (h.next (.allocKernelPages n)).Accounted first last := by
  -- frames that the direct map does not reach are handed out too, but not to the caller
  have hnext := hacc.allocFrames n
  rw [next] at hnext
  rw [next, Kernel.allocKernelPages_outcome]
  rcases houtcome : (Kernel.allocFrames n).outcome h.machine with ⟨_ | _ | pa, machine⟩ <;>
    rw [houtcome] at hnext
  · exact hnext
  · exact hnext
  cases haddr : kernelAddr pa with
  | error halt =>
    simp only [haddr]
    exact hnext.of_grant
  | ok va =>
    have hva := offset_of_directMapped (kernelAddr_eq_ok_iff.mp haddr)
    simp only [haddr, Except.map, hva]
    exact hnext

theorem Pooling.base_dvd (hp : h.Pooling first last a l) : pageSize ∣ a.base.val := by
  rw [← hp.base_eq]
  exact Nat.dvd_add hp.start_dvd (Nat.dvd_mul_left ..)

theorem Pooling.accounted_deallocate (hp : h.Pooling first last a l)
    (hacc : h.Accounted first last) {pa : PAddr} {freed : Nat}
    (hok : (a.deallocate pa).1 = .ok freed)
    (hsource : machine.frames.value = .pool (a.deallocate pa).2.pool)
    (hledger : h.machine.WritesLedger machine) :
    (h.release pa.val machine).Accounted first last := by
  have hledgerAt := (congrArg Address.val hledger.ledgerAt_eq).trans hp.ledgerAt_eq
  have hstored := hledger.stored hp.stored
  have hapart := hp.pooled_apart.filter fun r => r.start ≠ pa.val
  rw [release, hp.source_eq]
  refine { hacc with phase := .inr ?_ }
  rcases RunAllocator.deallocate_of_ok hok with ⟨-, -, hsame⟩ | ⟨released, hrun, -, hnext⟩
  · -- passed over: nothing is released in the pool
    rw [hsame] at hsource
    refine ⟨a, l, { hp with
      source_eq := hsource, ledgerAt_eq := hledgerAt, stored := hstored, pooled_live := ?_,
      pooled_apart := hapart }⟩
    exact fun r hr => hp.pooled_live r (List.mem_of_mem_filter hr)
  · rw [hnext] at hsource
    refine ⟨{ a with live := a.live.remove released }, l, { hp with
      source_eq := hsource, ledgerAt_eq := hledgerAt, stored := hstored, pooled_live := ?_,
      pooled_apart := hapart }⟩
    intro r hr
    obtain ⟨hmem, hne⟩ := List.mem_filter.mp hr
    obtain ⟨t, ht, rfl⟩ := hp.pooled_live r hmem
    -- two live runs have different first frames
    refine ⟨t, RunSet.mem_remove.mpr ⟨?_, ht⟩, rfl⟩
    rintro rfl
    rw [RunAllocator.start_range_of_runAt hp.base_dvd hrun] at hne
    simp at hne

theorem Accounted.freeFrames (hacc : h.Accounted first last) (pa : PAddr) :
    (h.next (.freeFrames pa)).Accounted first last := by
  have hledger := Kernel.writesLedger_freeFrames h.machine pa
  rcases hacc.phase with ⟨memory, hs⟩ | ⟨a, l, hp⟩
  · rw [Kernel.freeFrames_boot hs.source_eq] at hledger
    rw [next, Kernel.freeFrames_boot hs.source_eq]
    simp only [release, hs.source_eq] at hledger ⊢
    exact hacc.keep hs.source_eq.symm hledger
  · rw [Kernel.freeFrames_pool hp.source_eq, RunAllocator.deallocate_pool] at hledger
    rw [next, Kernel.freeFrames_pool hp.source_eq, RunAllocator.deallocate_pool]
    cases hanswer : (a.deallocate pa).1 with
    | ok freed => exact hp.accounted_deallocate hacc hanswer rfl hledger
    | error halt =>
      refine hacc.keep ?_ hledger
      rw [hp.source_eq, (RunAllocator.deallocate_of_error hanswer).2]
      rfl

/-- The entries end where the pool begins. -/
theorem Pooling.entries_le (hp : h.Pooling first last a l) :
    h.machine.ledgerAt.val + a.frames * entrySize ≤ a.base.val := by
  have hfit := Nat.add_le_add_left hp.entries_fit l.start
  rw [← hp.base_eq, hp.ledgerAt_eq]
  exact hfit

theorem Pooling.ledgerBelow (hp : h.Pooling first last a l) : h.machine.LedgerBelow := by
  intro pool hsource
  obtain rfl := FrameSource.pool.inj (hsource.symm.trans hp.source_eq)
  have hsize : a.pool.ledger.size = a.frames := a.live.size_ledger
  rw [hsize]
  exact hp.entries_le

/-- A write to the pool's frames leaves the ledger alone. -/
theorem Pooling.storedAt_of_changesAt (hp : h.Pooling first last a l) {pa : PAddr}
    (hpa : a.base ≤ pa) {len : Nat} {ram ram' : Ram} {ledger : Ledger}
    (hsize : ledger.size = a.frames) (hstored : ledger.StoredAt h.machine.ledgerAt ram)
    (hram : ram.ChangesAt pa.val len ram') : ledger.StoredAt h.machine.ledgerAt ram' := by
  have hentries := hp.entries_le
  rw [Address.le_def] at hpa
  refine hstored.of_bytes hram.size fun i _ hlt => hram.byte i ?_
  rw [hsize] at hlt
  omega

theorem Pooling.accounted_stamp (hp : h.Pooling first last a l) (hacc : h.Accounted first last)
    {marked : Run} (hsource : machine.frames.value =
      .pool { a with live := a.live.stamp marked : RunAllocator }.pool)
    (hledger : machine.ledgerAt = h.machine.ledgerAt)
    (hstored : (a.live.stamp marked).ledger.StoredAt h.machine.ledgerAt machine.ram) :
    (h.keep machine).Accounted first last := by
  refine { hacc with phase := .inr ⟨{ a with live := a.live.stamp marked }, l, ?_⟩ }
  refine { hp with
    source_eq := hsource
    ledgerAt_eq := (congrArg Address.val hledger).trans hp.ledgerAt_eq
    stored := ?_
    pooled_live := ?_ }
  · intro pool hpool
    obtain rfl := FrameSource.pool.inj (hsource.symm.trans hpool)
    rwa [← hledger] at hstored
  · -- a stamp leaves the frames of every run as they were
    intro r hr
    obtain ⟨t, ht, rfl⟩ := hp.pooled_live r hr
    refine ⟨RunSet.stampIf marked t, List.mem_map_of_mem ht, ?_⟩
    simp only [RunAllocator.range, RunSet.start_stampIf, RunSet.len_stampIf]

theorem Accounted.markThreadStack (hacc : h.Accounted first last) (pa : PAddr) :
    (h.next (.markThreadStack pa)).Accounted first last := by
  rcases hacc.phase with ⟨memory, hs⟩ | ⟨a, l, hp⟩
  · rw [next, Kernel.markThreadStack_boot hs.source_eq]
    cases h.machine.ram.write pa Kernel.threadStackFooter with
    | error halt => exact hs.accounted_keep hacc hs.source_eq
    | ok ram => exact hs.accounted_keep hacc hs.source_eq
  rw [next, Kernel.markThreadStack_pool hp.source_eq, RunAllocator.markFooter_pool]
  cases hmark : (a.markFooter pa).1 with
  | error e => exact hacc.keep rfl (.of_same rfl rfl rfl)
  | ok marked =>
    obtain ⟨r, hrun, hnext⟩ := RunAllocator.markFooter_of_ok hmark
    have hpa : a.base ≤ pa := by
      rw [Address.le_def, ← RunAllocator.start_range_of_runAt hp.base_dvd hrun]
      exact Nat.le_add_right ..
    have hsize : (a.live.stamp r).ledger.size = a.live.ledger.size := by
      rw [RunSet.size_ledger, RunSet.size_ledger]
    have hstored := (hp.stored a.pool hp.source_eq).store hsize
    -- the footer goes to the first frame of a live run, which is no frame of the ledger
    simp only [Except.map, hnext]
    cases hwrite : (Ledger.store { a with live := a.live.stamp r : RunAllocator }.pool.ledger
        a.pool.ledger h.machine.ledgerAt h.machine.ram).write pa Kernel.threadStackFooter with
    | error halt => exact hp.accounted_stamp hacc rfl rfl hstored
    | ok ram =>
      have hram := Ram.changesAt_write hwrite
      exact hp.accounted_stamp hacc rfl rfl
        (hp.storedAt_of_changesAt hpa (RunSet.size_ledger _) hstored hram)

theorem Stealing.accounted_install (hs : h.Stealing first last memory)
    (hacc : h.Accounted first last) {split : PoolLayout}
    (hsplit : PoolLayout.new memory.next memory.limit = .ok split)
    {fits : split.base.val + split.managed * pageSize < 0x100000000}
    (hsource : machine.frames.value = .pool (RunAllocator.new split.base split.managed fits).pool)
    (hledger : machine.ledgerAt = split.lo)
    (hram : machine.ram =
      h.machine.ram.update split.lo.val (split.managed * entrySize) fun _ => 0) :
    (h.install machine).Accounted first last := by
  have hsplits := PoolLayout.splits_of_new hsplit
  have hlimit : memory.limit.alignDown = memory.limit := by
    rw [hs.limit_eq, Address.alignDown_alignDown]
  -- the cursor is on a page boundary, so the split starts at the cursor
  have hlo : split.lo.val = memory.next.val := by
    rw [hsplits.lo_val, hlimit]
    exact pageFrom_of_dvd hs.cursor_dvd hs.cursor_le
  simp only [install, hs.source_eq, hsplit]
  refine { hacc with phase := .inr ⟨.new split.base split.managed fits,
    ⟨split.lo.val, split.ledgerFrames⟩, ?_⟩ }
  constructor
  case source_eq => exact hsource
  case ledger_eq => rfl
  case start_dvd =>
    rw [hlo]
    exact hs.cursor_dvd
  case floor_le =>
    rw [hlo]
    exact hs.floor_le
  case base_eq => exact hsplits.base_val.symm
  case limit_le =>
    have hend := hsplits.limit_eq
    rw [hsplits.hi_eq, hlimit, hs.limit_eq] at hend
    exact Nat.le_of_eq hend
  case entries_fit => exact hsplits.entries_fit
  case ledgerAt_eq => exact congrArg Address.val hledger
  case stored =>
    intro pool hpool
    obtain rfl := FrameSource.pool.inj (hsource.symm.trans hpool)
    have hempty : (RunAllocator.new split.base split.managed fits).pool.ledger =
        .new split.managed := RunSet.ledger_empty split.managed
    rw [hempty]
    simp only [hledger, hram]
    exact Ledger.storedAt_new split.managed split.lo h.machine.ram
  case stolen_le =>
    rw [hlo]
    exact hs.stolen_le
  case pooled_live =>
    rw [hs.pooled_eq]
    exact nofun
  case pooled_apart =>
    rw [hs.pooled_eq]
    exact .nil

theorem machine_bootstrap (h : FrameHistory) :
    (h.next .bootstrap).machine = (Kernel.bootstrap.outcome h.machine).2 := by
  rw [next]
  rcases Kernel.bootstrap.outcome h.machine with ⟨halt | _, booted⟩
  · rfl
  · unfold install
    cases h.machine.frames.value with
    | pool pool => rfl
    | boot memory =>
      dsimp only
      cases PoolLayout.new memory.next memory.limit <;> rfl

theorem Accounted.bootstrap (hacc : h.Accounted first last) :
    (h.next .bootstrap).Accounted first last := by
  rcases hacc.phase with ⟨memory, hs⟩ | ⟨a, l, hp⟩
  · obtain ⟨split, hsplit, -⟩ := PoolLayout.new_splits memory.next memory.limit
    rcases Nat.lt_or_ge split.lo.val h.machine.ram.size with hin | hout
    · obtain ⟨fits, houtcome⟩ := Kernel.bootstrap_boot_of_lt hs.source_eq hsplit hin
      rw [next, houtcome]
      exact hs.accounted_install hacc hsplit rfl rfl rfl
    · rw [next, Kernel.bootstrap_boot_of_le hs.source_eq hsplit hout]
      exact hacc.keep rfl (.of_same rfl rfl rfl)
  · rw [next, Kernel.bootstrap_pool hp.source_eq]
    exact hacc.keep rfl (.of_same rfl rfl rfl)

theorem Accounted.next (hacc : h.Accounted first last) (call : FrameCall) :
    (h.next call).Accounted first last := by
  cases call with
  | allocFrames n => exact hacc.allocFrames n
  | allocKernelPages n => exact hacc.allocKernelPages n
  | freeFrames pa => exact hacc.freeFrames pa
  | freeKernelPages va =>
    cases hva : directMapped? va with
    | none =>
      rw [next_freeKernelPages_of_none hva]
      exact hacc.keep rfl (.of_same rfl rfl rfl)
    | some pa =>
      rw [next_freeKernelPages hva]
      exact hacc.freeFrames pa
  | markThreadStack pa => exact hacc.markThreadStack pa
  | frameStats =>
    rw [FrameHistory.next, Kernel.frameStats_outcome]
    exact hacc.keep rfl (.of_same rfl rfl rfl)
  | auditFrames =>
    rw [FrameHistory.next, Kernel.auditFrames_outcome]
    exact hacc.keep rfl (.of_same rfl rfl rfl)
  | bootstrap => exact hacc.bootstrap

theorem Accounted.run (hacc : h.Accounted first last) (calls : List FrameCall) :
    (h.run calls).Accounted first last := by
  induction calls generalizing h with
  | nil => exact hacc
  | cons call calls ih => exact ih (hacc.next call)

end FrameHistory
end MipsVm
