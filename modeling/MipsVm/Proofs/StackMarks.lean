import MipsVm.Proofs.MemoryCalls

/-! The footer of a thread's stack: where it goes in RAM and in the ledger, and which runs of frames can
get one. -/
namespace MipsVm

/-- Of the ledger, at most the entry of the frame at `start` differs, and nothing else of the source. -/
def FrameSource.SameBut (start : Nat) : FrameSource → FrameSource → Prop
  | .boot b, .boot c => c = b
  | .pool p, .pool q => q.base = p.base ∧ q.ledger.size = p.ledger.size ∧ q.free = p.free ∧
      q.runs = p.runs ∧
      ∀ i, p.base.val + i * pageSize ≠ start → q.ledger.get? i = p.ledger.get? i
  | _, _ => False

/-- To mark `pa` is answered, puts the footer into the four bytes there, the low byte first, and changes
no count, nor any other byte but those of the ledger, which are its entries then as before. -/
structure Machine.MarksStack (m : Machine) (pa : PAddr) : Prop where
  answered : ((Kernel.markThreadStack pa).outcome m).1 = .ok (.ok ())
  footer : ∀ k < 4, ((Kernel.markThreadStack pa).outcome m).2.ram.byte (pa.val + k) =
    UInt8.ofNat (threadStackMagic >>> (8 * k))
  size : ((Kernel.markThreadStack pa).outcome m).2.ram.size = m.ram.size
  others : ∀ i, ¬ (pa.val ≤ i ∧ i < pa.val + 4) → ¬ m.InLedger i →
    ((Kernel.markThreadStack pa).outcome m).2.ram.byte i = m.ram.byte i
  stored : ((Kernel.markThreadStack pa).outcome m).2.StoresLedger
  entries : m.frames.value.SameBut pa.val ((Kernel.markThreadStack pa).outcome m).2.frames.value
  audited : ∃ stats, (Kernel.frameStats.outcome m).1 = .ok stats ∧
    (Kernel.frameStats.outcome ((Kernel.markThreadStack pa).outcome m).2).1 = .ok stats ∧
    (Kernel.auditFrames.outcome ((Kernel.markThreadStack pa).outcome m).2).1 = .ok (.ok stats)

/-- To mark `pa` gives the error, and changes neither the frame source nor RAM. -/
def Machine.RefusesMark (m : Machine) (pa : PAddr) (e : LedgerError) : Prop :=
  (Kernel.markThreadStack pa).outcome m = (.ok (.error e), m.served [] m.frames.value m.ram)

namespace Ram
variable {ram : Ram} {pa : PAddr}

/-- The footer, in RAM that has room for it. -/
theorem write_footer (h : pa.val + 4 ≤ ram.size) :
    ∃ marked, ram.write pa Kernel.threadStackFooter = .ok marked ∧
      ram.ChangesAt pa.val 4 marked ∧
      ∀ k < 4, marked.byte (pa.val + k) = UInt8.ofNat (threadStackMagic >>> (8 * k)) := by
  have hsize : Kernel.threadStackFooter.size = 4 := Array.size_ofFn
  have hwrite := write_of_lt (Nat.lt_of_lt_of_le (Nat.lt_add_of_pos_right (by decide)) h)
    Kernel.threadStackFooter
  refine ⟨_, hwrite, changesAt_write hwrite, ?_⟩
  intro k hk
  have hin : pa.val ≤ pa.val + k ∧ pa.val + k < pa.val + Kernel.threadStackFooter.size ∧
      pa.val + k < ram.size := by omega
  rw [byte_update, if_pos hin, Nat.add_sub_cancel_left, Array.getD_eq_getD_getElem?]
  simp [Kernel.threadStackFooter, hk]

end Ram

namespace RunAllocator
variable {a : RunAllocator} {t : Run} {pa : PAddr}

/-- A stamp shows in the first entry of its run alone. -/
theorem sameBut_stamp (ht : t ∈ a.live.runs) (hpa : pa.val = (a.range t).start) :
    (FrameSource.pool a.pool).SameBut pa.val
      (.pool { a with live := a.live.stamp t : RunAllocator }.pool) := by
  refine ⟨rfl, ?_, ?_, RunSet.count_stamp, ?_⟩
  · exact (RunSet.size_ledger _).trans (RunSet.size_ledger _).symm
  · simp only [pool, RunSet.used_stamp]
  · intro i hi
    have hother : i ≠ t.start := by
      rintro rfl
      exact hi hpa.symm
    change (a.live.stamp t).ledger.get? i = a.live.ledger.get? i
    rw [RunSet.get?_ledger, RunSet.get?_ledger, RunSet.entry_stamp ht, if_neg hother]

theorem stats_stamp (a : RunAllocator) (t : Run) :
    { a with live := a.live.stamp t : RunAllocator }.stats = a.stats := by
  simp only [stats, RunSet.used_stamp, RunSet.count_stamp]

end RunAllocator

namespace FrameHistory
variable {first last pa : PAddr} {h : FrameHistory} {r : FrameRange}

/-- A run that is out is marked by the address of its first frame, unless the pool is in use and the run
is from boot memory; such a run is refused like any address at which the pool has no run. The ledger lies
in no frame that is out, and in none of the pool's. -/
structure MarksStacks (h : FrameHistory) : Prop where
  ledger_beside : ∀ i, h.machine.InLedger i → (∀ r ∈ h.outstanding, ¬ r.Covers i) ∧
    ∀ pool, h.machine.frames.value = .pool pool → i < pool.base.val
  marked : ∀ r ∈ h.outstanding, (h.machine.pooling = true → r ∈ h.pooled) →
    ∀ pa : PAddr, pa.val = r.start → h.machine.MarksStack pa
  stolen : h.machine.pooling = true → ∀ r ∈ h.stolen,
    ∀ pa : PAddr, pa.val = r.start → h.machine.RefusesMark pa (.outsidePool pa)
  refused : h.machine.pooling = true → ∀ pa : PAddr, (∀ r ∈ h.pooled, r.start ≠ pa.val) →
    ∃ e, h.machine.RefusesMark pa e

theorem Accounted.start_add_le (hacc : h.Accounted first last) (hr : r ∈ h.outstanding) :
    r.start + 4 ≤ last.val := by
  obtain ⟨-, hpos, -, hstop⟩ := hacc.outstanding hr
  have hdown : last.alignDown.val ≤ last.val := last.alignDown_le
  simp only [FrameRange.stop, pageSize] at hstop
  omega

/-- Boot memory keeps no ledger, so the footer goes to RAM alone … -/
theorem Stealing.marksStack {memory : BootMemory} (hs : h.Stealing first last memory)
    (hacc : h.Accounted first last) (hin : pa.val + 4 ≤ h.machine.ram.size) : h.machine.MarksStack pa := by
  obtain ⟨ram, hwrite, hothers, hfooter⟩ := Ram.write_footer hin
  have houtcome := Kernel.markThreadStack_boot hs.source_eq pa
  rw [hwrite] at houtcome
  constructor
  case answered => rw [houtcome]
  case footer =>
    rw [houtcome]
    exact hfooter
  case size =>
    rw [houtcome]
    exact hothers.size
  case others =>
    intro i hi _
    rw [houtcome]
    exact hothers.byte i hi
  case stored => exact (hacc.markThreadStack pa).storesLedger
  case entries =>
    rw [houtcome]
    change h.machine.frames.value.SameBut pa.val h.machine.frames.value
    rw [hs.source_eq]
    rfl
  case audited =>
    have hsource : (h.machine.served [] h.machine.frames.value ram).frames.value = .boot memory :=
      hs.source_eq
    rw [houtcome, Kernel.frameStats_outcome, Kernel.frameStats_outcome, Kernel.auditFrames_outcome,
      hsource, hs.source_eq]
    exact ⟨.zero, rfl, rfl, rfl⟩

/-- … and a pool takes it into its ledger before. -/
theorem Pooling.markThreadStack {a : RunAllocator} {l : FrameRange} {t : Run}
    (hp : h.Pooling first last a l) (ht : t ∈ a.live.runs) (hpa : pa.val = (a.range t).start)
    (hin : pa.val + 4 ≤ h.machine.ram.size) :
    ∃ stored marked, (Kernel.markThreadStack pa).outcome h.machine = (.ok (.ok ()),
        h.machine.served [] (.pool { a with live := a.live.stamp t : RunAllocator }.pool) marked) ∧
      h.machine.ram.ChangesAt h.machine.ledgerAt.val h.machine.ledgerSize stored ∧
      stored.ChangesAt pa.val 4 marked ∧
      ∀ k < 4, marked.byte (pa.val + k) = UInt8.ofNat (threadStackMagic >>> (8 * k)) := by
  have hrun := RunAllocator.runAt_of_range hp.base_dvd ht hpa
  have hmark : a.markFooter pa = (.ok (), { a with live := a.live.stamp t }) := by
    rw [RunAllocator.markFooter, hrun]
  have hsize : { a with live := a.live.stamp t : RunAllocator }.pool.ledger.size =
      a.pool.ledger.size := (RunSet.size_ledger _).trans (RunSet.size_ledger _).symm
  have hstore := { a with live := a.live.stamp t : RunAllocator }.pool.ledger.changesAt_store
    a.pool.ledger h.machine.ledgerAt h.machine.ram
  rw [hsize, ← Machine.ledgerSize_of_pool hp.source_eq] at hstore
  rw [← hstore.size] at hin
  obtain ⟨marked, hwrite, hothers, hfooter⟩ := Ram.write_footer hin
  refine ⟨_, marked, ?_, hstore, hothers, hfooter⟩
  rw [Kernel.markThreadStack_pool hp.source_eq, RunAllocator.markFooter_pool, hmark]
  simp only [Except.map, hwrite]

theorem Pooling.marksStack {a : RunAllocator} {l : FrameRange} (hp : h.Pooling first last a l)
    (hacc : h.Accounted first last) (hr : r ∈ h.pooled) (hpa : pa.val = r.start)
    (hin : pa.val + 4 ≤ h.machine.ram.size) : h.machine.MarksStack pa := by
  obtain ⟨t, ht, rfl⟩ := hp.pooled_live r hr
  obtain ⟨stored, marked, houtcome, hstored, hothers, hfooter⟩ := hp.markThreadStack ht hpa hin
  constructor
  case answered => rw [houtcome]
  case footer =>
    rw [houtcome]
    exact hfooter
  case size =>
    rw [houtcome]
    exact hothers.size.trans hstored.size
  case others =>
    intro i hi hout
    rw [houtcome]
    exact (hothers.byte i hi).trans (hstored.byte i hout)
  case stored => exact (hacc.markThreadStack pa).storesLedger
  case entries =>
    rw [houtcome, hp.source_eq]
    exact RunAllocator.sameBut_stamp ht hpa
  case audited =>
    obtain ⟨hstats, -⟩ := Kernel.audited_of_pool hp.source_eq
    have hstamped (machine : Machine) (hsource : machine.frames.value =
        .pool { a with live := a.live.stamp t : RunAllocator }.pool) :
        (Kernel.frameStats.outcome machine).1 = .ok a.stats ∧
          (Kernel.auditFrames.outcome machine).1 = .ok (.ok a.stats) := by
      rw [← a.stats_stamp t]
      exact Kernel.audited_of_pool hsource
    rw [houtcome]
    exact ⟨a.stats, hstats, hstamped _ rfl⟩

theorem Pooling.refusesMark {a : RunAllocator} {l : FrameRange} {e : LedgerError}
    (hp : h.Pooling first last a l) (hrun : a.runAt pa = .error e) : h.machine.RefusesMark pa e := by
  have houtcome := Kernel.markThreadStack_pool hp.source_eq pa
  rw [RunAllocator.markFooter_pool, RunAllocator.markFooter, hrun] at houtcome
  exact houtcome

theorem Tracked.marksStacks (ht : h.Tracked first last) (hram : last.val ≤ h.machine.ram.size) :
    h.MarksStacks := by
  have hacc := ht.accounted
  have hin {r : FrameRange} {pa : PAddr} (hr : r ∈ h.outstanding) (hpa : pa.val = r.start) :
      pa.val + 4 ≤ h.machine.ram.size := by
    rw [hpa]
    exact Nat.le_trans (hacc.start_add_le hr) hram
  rcases ht.phase with ⟨memory, hs⟩ | ⟨a, l, hp, hcount⟩
  · have hboot : h.machine.pooling = false := by rw [Machine.pooling, hs.source_eq]; rfl
    -- boot memory has no ledger, and refuses nobody
    constructor
    case ledger_beside => exact fun i hi => absurd hi (Machine.not_inLedger_of_boot hs.source_eq i)
    case marked => exact fun r hr _ pa hpa => hs.marksStack hacc (hin hr hpa)
    case stolen =>
      intro hpooling
      cases hboot.symm.trans hpooling
    case refused =>
      intro hpooling
      cases hboot.symm.trans hpooling
  have hpool : h.machine.pooling = true := by rw [Machine.pooling, hp.source_eq]; rfl
  constructor
  case ledger_beside =>
    intro i hi
    refine ⟨fun r hr hcovers => hacc.not_inLedger hr hcovers hi, ?_⟩
    exact fun pool hsource => hp.ledgerBelow.lt_base hsource hi
  case marked => exact fun r hr hpooled pa hpa =>
    hp.marksStack hacc (hpooled hpool) hpa (hin hr hpa)
  case stolen =>
    intro _ r hr pa hpa
    -- its address is a frame's, but the pool does not look below its base
    have haligned : ¬ pa.val % pageSize ≠ 0 := by
      rw [hpa, not_not]
      exact Nat.mod_eq_zero_of_dvd (hacc.stolen_dvd r hr)
    have hbelow : pa < a.base := by
      rw [Address.lt_def, hpa]
      exact hp.stolen_lt_base hacc hr
    apply hp.refusesMark
    rw [RunAllocator.runAt, if_neg haligned, if_pos (.inl hbelow)]
  case refused =>
    intro _ pa hnone
    cases hrun : a.runAt pa with
    | error e => exact ⟨e, hp.refusesMark hrun⟩
    | ok t =>
      -- a run that is live there is out
      have hlive : a.range t ∈ a.live.runs.map a.range :=
        List.mem_map_of_mem (RunAllocator.runAt_mem hrun)
      have hout := (hp.live_perm hcount).symm.subset hlive
      exact absurd (RunAllocator.start_range_of_runAt hp.base_dvd hrun) (hnone _ hout)

/-- In every state that calls lead to, with all frames in RAM. -/
theorem stacks_marked (ram : Ram) (first last : PAddr) (victim : Nat → Fin tlbSlots)
    (hram : last.val ≤ ram.size) (calls : List MemoryCall) :
    ((start (.new ram first last victim)).performAll calls).MarksStacks := by
  obtain ⟨htracked, hsize⟩ := (tracked_start ram first last victim).performAll calls
  have hsize' : ((start (.new ram first last victim)).performAll calls).machine.ram.size = ram.size :=
    hsize
  exact htracked.marksStacks (hram.trans_eq hsize'.symm)

theorem stacks_marked_across_bootstrap :
    (⟨0x4000, by decide⟩ : PAddr).val ≤ Ram.size ⟨.replicate 4 .zero⟩ ∧
      ((start (.new ⟨.replicate 4 .zero⟩ ⟨0x1000, by decide⟩ ⟨0x4000, by decide⟩
        fun _ => 0)).performAll [.frames (.allocFrames 1), .frames .bootstrap,
          .frames (.allocFrames 1), .frames (.markThreadStack ⟨0x3000, by decide⟩)]).MarksStacks :=
  ⟨by decide, stacks_marked _ _ _ _ (by decide) _⟩

/-- A stack from boot memory cannot be marked any more once there is a pool, and gets no footer. -/
theorem stolen_stack_refused :
    let h := (start (.new ⟨.replicate 4 .zero⟩ ⟨0x1000, by decide⟩ ⟨0x4000, by decide⟩
      fun _ => 0)).performAll [.frames (.allocFrames 1), .frames .bootstrap]
    let marked := (Kernel.markThreadStack ⟨0x1000, by decide⟩).outcome h.machine
    h.outstanding = [⟨0x1000, 1⟩] ∧ marked.1 = .ok (.error (.outsidePool ⟨0x1000, by decide⟩)) ∧
      marked.2.ram.byte 0x1000 = 0 := by
  decide +kernel

end FrameHistory
end MipsVm
