import MipsVm.PhysicalMemory
import MipsVm.Proofs.BootLayout
import MipsVm.Proofs.FrameAccounting
import MipsVm.Proofs.KernelOutcome
import MipsVm.Proofs.RamWrites

/-! What each operation on physical memory answers and leaves behind, in either phase of the frame
source. -/
namespace MipsVm

theorem offset_of_directMapped {va : VAddr} {pa : PAddr} (h : directMapped? va = some pa) :
    va.val - kseg0 = pa.val := by
  unfold directMapped? at h
  split_ifs at h
  rw [← Option.some.inj h]

theorem PoolLayout.Splits.managed_le {l : PoolLayout} {lo hi : PAddr} (h : l.Splits lo hi) :
    l.managed ≤ maxFrames := by
  have hlimit := h.limit_eq
  have hhi := l.hi.isLt
  simp only [maxFrames, pageSize] at *
  omega

/-- The pool of a split has all its frames free. -/
theorem PoolLayout.Splits.pool_eq {l : PoolLayout} {lo hi : PAddr} (h : l.Splits lo hi) :
    ∃ fits, l.pool = .ok (RunAllocator.new l.base l.managed fits).pool := by
  have hlimit := l.hi.isLt
  have hdvd : pageSize ∣ l.lo.val := by
    rw [h.lo_val]
    exact pageFrom_dvd hi.isPageAligned_alignDown
  have haligned : l.base.isPageAligned = true := by
    rw [Address.isPageAligned_iff, h.base_val]
    exact Nat.dvd_add hdvd (Nat.dvd_mul_left ..)
  have hfits : l.base.val + l.managed * pageSize < 0x100000000 := by
    rw [h.limit_eq]
    exact hlimit
  exact ⟨hfits, (FramePool.new_eq_ok_iff h.managed_le).mpr ⟨haligned, hfits, rfl⟩⟩

/-- Whatever becomes of the frames of a pool, nothing but its ledger is written. -/
theorem FramePool.SameFrames.writesLedger {p q : FramePool} (h : p.SameFrames q) {m : Machine}
    (hsource : m.frames.value = .pool p) (records : List Record) :
    m.WritesLedger (m.servedPool records p q) := by
  have hsize := congrArg (· * entrySize) h.size
  have hafter : (m.servedPool records p q).ledgerSize = q.ledger.size * entrySize := rfl
  constructor
  case size => exact Ledger.size_store ..
  case byte =>
    intro i hi
    rw [Machine.InLedger, Machine.ledgerSize_of_pool hsource, ← hsize] at hi
    exact (Ledger.changesAt_store ..).byte i hi
  case ledgerAt_eq => rfl
  case ledgerSize_eq => exact hafter.trans (hsize.trans (Machine.ledgerSize_of_pool hsource).symm)
  case stored =>
    intro hstored pool hpool
    obtain rfl : q = pool := FrameSource.pool.inj hpool
    exact (hstored p hsource).store h.size

namespace Kernel
variable {m : Machine} {memory : BootMemory} {pool : FramePool} {n : Nat} {pa : PAddr}

theorem allocFrames_boot {records : List Record} (h : m.frames.value = .boot memory) (hn : n ≠ 0)
    (hrecords : memory.takeRecords n = .ok records) :
    (allocFrames n).outcome m =
      ((memory.take n).1.map some, m.served records (.boot (memory.take n).2) m.ram) := by
  rw [allocFrames, if_neg hn]
  apply outcome_withFrames
  simp only [h, hrecords, outcome_bind, outcome_lift, outcome_logAll]
  cases (memory.take n).1 <;> rfl

theorem allocFrames_pool (h : m.frames.value = .pool pool) (hn : n ≠ 0) :
    (allocFrames n).outcome m =
      ((pool.allocate n).1, m.servedPool [] pool (pool.allocate n).2) := by
  rw [allocFrames, if_neg hn]
  apply outcome_withFrames
  simp only [h, outcome_bind, outcome_setPool, outcome_lift, Machine.logged_nil]
  rfl

theorem writesLedger_allocFrames_pool (h : m.frames.value = .pool pool) (n : Nat) :
    m.WritesLedger ((allocFrames n).outcome m).2 := by
  rcases Nat.eq_zero_or_pos n with rfl | hpos
  · exact .refl m
  · rw [allocFrames_pool h (Nat.ne_of_gt hpos)]
    exact (pool.sameFrames_allocate n).writesLedger h []

theorem allocKernelPages_outcome (n : Nat) :
    (allocKernelPages n).outcome m =
      match (allocFrames n).outcome m with
      | (.ok (some pa), m) => ((kernelAddr pa).map some, m)
      | (.ok none, m) => (.ok none, m)
      | (.error halt, m) => (.error halt, m) := by
  rw [allocKernelPages, outcome_bind]
  rcases (allocFrames n).outcome m with ⟨_ | _ | pa, m⟩
  · rfl
  · rfl
  · simp only [outcome_bind, outcome_lift]
    cases kernelAddr pa <;> rfl

theorem freeFrames_boot (h : m.frames.value = .boot memory) (pa : PAddr) :
    (freeFrames pa).outcome m = (.ok (), m.served [] m.frames.value m.ram) := by
  apply outcome_withFrames_logged
  rw [h, Machine.logged_nil]
  rfl

theorem freeFrames_pool (h : m.frames.value = .pool pool) (pa : PAddr) :
    (freeFrames pa).outcome m =
      ((pool.deallocate pa).1.map fun _ => (),
        m.servedPool (pool.deallocateRecords pa) pool (pool.deallocate pa).2) := by
  apply outcome_withFrames
  simp only [h, outcome_bind, outcome_logAll, outcome_setPool, outcome_lift]
  cases (pool.deallocate pa).1 <;> rfl

theorem writesLedger_freeFrames (m : Machine) (pa : PAddr) :
    m.WritesLedger ((freeFrames pa).outcome m).2 := by
  cases h : m.frames.value with
  | boot memory =>
    rw [freeFrames_boot h]
    exact .of_same rfl rfl rfl
  | pool pool =>
    rw [freeFrames_pool h]
    exact (pool.sameFrames_deallocate pa).writesLedger h _

theorem freeKernelPages_outcome (va : VAddr) :
    (freeKernelPages va).outcome m =
      match directMapped? va with
      | some pa => (freeFrames pa).outcome m
      | none => (.error (.notDirectMapped va),
          m.logged [⟨.error, (Halt.notDirectMapped va).message⟩]) := by
  unfold freeKernelPages
  cases directMapped? va with
  | none => exact outcome_stop _
  | some pa => rfl

theorem frameStats_outcome :
    frameStats.outcome m =
      (match m.frames.value with
        | .boot _ => .ok .zero
        | .pool pool => pool.stats, m.served [] m.frames.value m.ram) := by
  apply outcome_withFrames_logged
  rw [Machine.logged_nil]
  cases m.frames.value with
  | boot memory => rfl
  | pool pool => simp only [outcome_lift]

theorem auditFrames_outcome :
    auditFrames.outcome m =
      (.ok (match m.frames.value with
        | .boot _ => .ok .zero
        | .pool pool => pool.audit), m.served [] m.frames.value m.ram) := by
  apply outcome_withFrames_logged
  rw [Machine.logged_nil]
  cases m.frames.value <;> rfl

/-- The pool of an allocator passes its audit, with the counts that it answers. -/
theorem audited_of_pool {a : RunAllocator} (h : m.frames.value = .pool a.pool) :
    (frameStats.outcome m).1 = .ok a.stats ∧ (auditFrames.outcome m).1 = .ok (.ok a.stats) := by
  rw [frameStats_outcome, auditFrames_outcome, h]
  exact ⟨a.stats_pool, congrArg Except.ok a.audit_pool⟩

theorem isReady_outcome :
    isReady.outcome m =
      (.ok (match m.frames.value with
        | .boot _ => false
        | .pool _ => true), m.served [] m.frames.value m.ram) := by
  apply outcome_withFrames_logged
  rw [Machine.logged_nil]
  cases m.frames.value <;> rfl

theorem bootstrap_pool (h : m.frames.value = .pool pool) :
    bootstrap.outcome m = (.error .bootstrappedTwice,
      m.served [⟨.error, Halt.bootstrappedTwice.message⟩] m.frames.value m.ram) := by
  apply outcome_withFrames_logged
  rw [h]
  exact outcome_stop _

/-- The ledger is written, and the pool of all the frames behind it takes over. -/
theorem bootstrap_boot_of_lt {l : PoolLayout} (h : m.frames.value = .boot memory)
    (hl : PoolLayout.new memory.next memory.limit = .ok l) (hlo : l.lo.val < m.ram.size) :
    ∃ fits, bootstrap.outcome m = (.ok (), (m.setLedger l.lo).served [l.record]
      (.pool (RunAllocator.new l.base l.managed fits).pool)
      (m.ram.update l.lo.val (l.managed * entrySize) fun _ => 0)) := by
  obtain ⟨fits, hpool⟩ := (PoolLayout.splits_of_new hl).pool_eq
  have hram : m.mask.takeLock.ram = m.ram := rfl
  refine ⟨fits, outcome_withFrames_moved ?_⟩
  simp only [h, outcome_bind, outcome_lift, hl, outcome_get, PoolLayout.initLedger, hram,
    Ram.zero_of_lt hlo, outcome_setRam, outcome_setLedger, outcome_log, hpool, outcome_setSource]
  rfl

theorem bootstrap_boot_of_le {l : PoolLayout} (h : m.frames.value = .boot memory)
    (hl : PoolLayout.new memory.next memory.limit = .ok l) (hlo : m.ram.size ≤ l.lo.val) :
    bootstrap.outcome m = (.error (.outsideRam l.lo), m.served [] m.frames.value m.ram) := by
  apply outcome_withFrames_logged
  have hram : m.mask.takeLock.ram = m.ram := rfl
  simp only [h, outcome_bind, outcome_lift, hl, outcome_get, PoolLayout.initLedger, hram,
    Ram.zero_of_le hlo, Machine.logged_nil]

theorem markThreadStack_boot (h : m.frames.value = .boot memory) (pa : PAddr) :
    (markThreadStack pa).outcome m =
      match m.ram.write pa threadStackFooter with
      | .ok ram => (.ok (.ok ()), m.served [] m.frames.value ram)
      | .error halt => (.error halt, m.served [] m.frames.value m.ram) := by
  -- there is no ledger yet: the footer goes to RAM alone
  have hram : m.mask.takeLock.ram = m.ram := rfl
  cases hwrite : m.ram.write pa threadStackFooter with
  | error halt =>
    apply outcome_withFrames_logged
    simp only [h, writeBytes, outcome_bind, outcome_get, hram, hwrite, outcome_lift,
      Machine.logged_nil]
  | ok ram =>
    apply outcome_withFrames
    simp only [h, writeBytes, outcome_bind, outcome_get, hram, hwrite, outcome_lift,
      outcome_setRam, Machine.logged_nil]
    rw [← h, ← value_takeLock m]
    rfl

theorem markThreadStack_pool (h : m.frames.value = .pool pool) (pa : PAddr) :
    (markThreadStack pa).outcome m =
      match pool.markFooter pa with
      | .error e => (.ok (.error e), m.served [] m.frames.value m.ram)
      | .ok marked =>
        match (marked.ledger.store pool.ledger m.ledgerAt m.ram).write pa threadStackFooter with
        | .ok ram => (.ok (.ok ()), m.served [] (.pool marked) ram)
        | .error halt => (.error halt, m.servedPool [] pool marked) := by
  -- the footer goes to the ledger first, and stays there when the write to RAM halts
  cases hmark : pool.markFooter pa with
  | error e =>
    apply outcome_withFrames_logged
    simp only [h, hmark, outcome_pure, Machine.logged_nil]
  | ok marked =>
    have hram : (m.mask.takeLock.setPool pool marked).ram =
        marked.ledger.store pool.ledger m.ledgerAt m.ram := rfl
    dsimp only
    cases hwrite :
        (marked.ledger.store pool.ledger m.ledgerAt m.ram).write pa threadStackFooter with
    | error halt =>
      apply outcome_withFrames
      simp only [h, hmark, writeBytes, outcome_bind, outcome_get, outcome_setPool, hram, hwrite,
        outcome_lift, Machine.logged_nil]
      rfl
    | ok ram =>
      apply outcome_withFrames
      simp only [h, hmark, writeBytes, outcome_bind, outcome_get, outcome_setPool, hram, hwrite,
        outcome_lift, outcome_setRam, Machine.logged_nil]
      rfl

end Kernel
end MipsVm
