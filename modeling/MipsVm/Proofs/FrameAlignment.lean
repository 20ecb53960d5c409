import MipsVm.Proofs.FrameService
import MipsVm.Proofs.SpaceService

/-! Frames are handed out on page boundaries, whatever is freed, written or handed out before, so the
frames behind an address space are whole. They lie above the ledger, which no operation moves again. -/
namespace MipsVm

namespace RunAllocator
variable {a : RunAllocator}

/-- The allocator of the same frames with other runs live. -/
def withLive (a : RunAllocator) (live : RunSet a.frames) : RunAllocator := { a with live }

/-- The frames begin on a page boundary, and none of them is at the null address. -/
structure Usable (a : RunAllocator) : Prop where
  base_dvd : pageSize ∣ a.base.val
  base_pos : 0 < a.frames → 0 < a.base.val

theorem Usable.withLive (h : a.Usable) (live : RunSet a.frames) : (a.withLive live).Usable :=
  ⟨h.base_dvd, h.base_pos⟩

end RunAllocator

/-- What the source of frames has to hand out next begins on a page boundary, and a pool is the pool
of some set of live runs. -/
def FrameSource.OnPages : FrameSource → Prop
  | .boot b => pageSize ∣ b.next.val ∧ b.next ≤ b.limit
  | .pool p => ∃ a : RunAllocator, p = a.pool ∧ a.Usable

def FrameSource.isPool : FrameSource → Bool
  | .boot _ => false
  | .pool _ => true

/-- Whether frames come from the pool. -/
def Machine.pooling (m : Machine) : Bool := m.frames.value.isPool

namespace FrameSource
variable {source next : FrameSource} {answer : Except Halt (Option PAddr)} {n : Nat} {pa : PAddr}

/-- What an operation on physical memory may make of the frame source. -/
inductive Step : FrameSource → FrameSource → Prop where
  | same (source : FrameSource) : Step source source
  | take {b : BootMemory} (n : Nat) (pa : PAddr) (htake : (b.take n).1 = .ok pa) :
    Step (.boot b) (.boot (b.take n).2)
  /-- The pool keeps its frames, whichever of them are out. -/
  | relive {a : RunAllocator} (husable : a.Usable) (live : RunSet a.frames) :
    Step (.pool a.pool) (.pool (a.withLive live).pool)
  | install {b : BootMemory} {l : PoolLayout} (hsplits : l.Splits b.next b.limit)
    (fits : l.base.val + l.managed * pageSize < 0x100000000) :
    Step (.boot b) (.pool (RunAllocator.new l.base l.managed fits).pool)

theorem Step.onPages (h : source.Step next) (hpages : source.OnPages) : next.OnPages := by
  cases h with
  | same => exact hpages
  | take n pa htake =>
    obtain ⟨hdvd, -⟩ := hpages
    obtain ⟨-, hfit⟩ := BootMemory.take_eq_ok_iff.mp htake
    obtain ⟨hlimit, hnext⟩ := BootMemory.take_of_ok htake
    constructor
    · rw [hnext]
      exact Nat.dvd_add hdvd (Nat.dvd_mul_left ..)
    · rwa [Address.le_def, hlimit, hnext]
  | relive husable live => exact ⟨_, rfl, husable.withLive live⟩
  | @install b l hsplits fits =>
    refine ⟨_, rfl, ?_, ?_⟩
    · change pageSize ∣ l.base.val
      rw [hsplits.base_val, hsplits.lo_val]
      exact Nat.dvd_add (pageFrom_dvd b.limit.isPageAligned_alignDown) (Nat.dvd_mul_left ..)
    · -- the frames of the ledger lie below
      intro hframes
      change 0 < l.managed at hframes
      change 0 < l.base.val
      have hfits := hsplits.entries_fit
      have hbase := hsplits.base_val
      simp only [entrySize, pageSize] at *
      omega

/-- Whoever has a pool keeps one. -/
theorem Step.isPool (h : source.Step next) (hpool : source.isPool = true) : next.isPool = true := by
  cases h with
  | same => exact hpool
  | take n pa htake => cases hpool
  | relive husable live => rfl
  | install hsplits fits => rfl

/-- What an allocation of `n` frames answers, and what it leaves. -/
inductive Grants (n : Nat) : FrameSource → Except Halt (Option PAddr) → FrameSource → Prop where
  | empty (source : FrameSource) (hzero : n = 0) : Grants n source (.ok none) source
  | refused (a : RunAllocator) (hnone : ∀ start, ¬ a.live.Gap start n) :
    Grants n (.pool a.pool) (.ok none) (.pool a.pool)
  | exhausted (b : BootMemory) : Grants n (.boot b) (.error .bootMemoryExhausted) (.boot b)
  | stolen {b : BootMemory} (pa : PAddr) (hpos : 0 < n) (htake : (b.take n).1 = .ok pa) :
    Grants n (.boot b) (.ok (some pa)) (.boot (b.take n).2)
  | pooled {a : RunAllocator} (husable : a.Usable) (pa : PAddr) (start : Nat) (hpos : 0 < n)
    (hgap : a.live.Gap start n) (hpa : pa.val = a.base.val + start * pageSize) :
    Grants n (.pool a.pool) (.ok (some pa)) (.pool (a.withLive (a.live.add start n hpos hgap)).pool)

theorem Grants.step (h : Grants n source answer next) : source.Step next := by
  cases h with
  | empty _ hzero => exact .same source
  | refused a hnone => exact .same (.pool a.pool)
  | exhausted b => exact .same (.boot b)
  | stolen pa hpos htake => exact .take n pa htake
  | pooled husable pa start hpos hgap hpa => exact .relive husable _

theorem Grants.dvd (h : Grants n source (.ok (some pa)) next) (hpages : source.OnPages) :
    pageSize ∣ pa.val := by
  cases h with
  | stolen _ hpos htake =>
    obtain ⟨rfl, -⟩ := BootMemory.take_eq_ok_iff.mp htake
    exact hpages.1
  | pooled husable _ start hpos hgap hpa =>
    rw [hpa]
    exact Nat.dvd_add husable.base_dvd (Nat.dvd_mul_left ..)

theorem Grants.isPool_eq (h : Grants n source answer next) :
    next.isPool = source.isPool := by
  cases h with
  | empty source hzero => rfl
  | refused a hnone => rfl
  | exhausted b => rfl
  | stolen pa hpos htake => rfl
  | pooled husable pa start hpos hgap hpa => rfl

/-- Only boot memory halts. -/
theorem Grants.of_halted {halt : Halt} (h : Grants n source (.error halt) next) :
    halt = .bootMemoryExhausted ∧ source.isPool = false ∧ next = source := by
  cases h with
  | exhausted b => exact ⟨rfl, rfl, rfl⟩

end FrameSource

namespace Machine
variable {m : Machine} {source : FrameSource}

theorem onPages_new (ram : Ram) (first last : PAddr) (victim : Nat → Fin tlbSlots) :
    (Machine.new ram first last victim).frames.value.OnPages := by
  change pageSize ∣ (BootMemory.new first last).next.val ∧
    (BootMemory.new first last).next ≤ (BootMemory.new first last).limit
  rw [Address.le_def, BootMemory.new_next, BootMemory.new_limit]
  exact ⟨pageFrom_dvd last.isPageAligned_alignDown, pageFrom_le ..⟩

/-- The frame source stays as it is, and the ledger where it is. -/
structure SameSource (m m' : Machine) : Prop where
  source_eq : m'.frames.value = m.frames.value
  ledgerAt_eq : m'.ledgerAt = m.ledgerAt

theorem sameSource_effect : Effect SameSource where
  trans h₁ h₂ := ⟨h₂.source_eq.trans h₁.source_eq, h₂.ledgerAt_eq.trans h₁.ledgerAt_eq⟩
  trace _ _ := ⟨rfl, rfl⟩
  interrupts _ _ := ⟨rfl, rfl⟩
  locked _ _ := ⟨rfl, rfl⟩

theorem sameSource_setRam (m : Machine) (ram : Ram) : m.SameSource (m.setRam ram) := ⟨rfl, rfl⟩

theorem sameSource_setTlb (m : Machine) (tlb : Tlb) : m.SameSource (m.setTlb tlb) := ⟨rfl, rfl⟩

theorem SameSource.ledgerSize_eq {m' : Machine} (h : m.SameSource m') :
    m'.ledgerSize = m.ledgerSize := by
  rw [ledgerSize, ledgerSize, h.source_eq]

/-- RAM goes on holding the entries of the ledger if none of their bytes is written. -/
theorem StoresLedger.of_bytes {m' : Machine} (h : m.StoresLedger) (hsame : m.SameSource m')
    (hsize : m'.ram.size = m.ram.size)
    (hbytes : ∀ i, m.InLedger i → m'.ram.byte i = m.ram.byte i) : m'.StoresLedger := by
  intro pool hpool
  rw [hsame.source_eq] at hpool
  rw [hsame.ledgerAt_eq]
  refine (h pool hpool).of_bytes hsize fun i hge hlt => hbytes i ⟨hge, ?_⟩
  rwa [ledgerSize_of_pool hpool]

/-- If `I` holds of the source of `m`, so it does of that of `m'`. -/
def Keeps (I : FrameSource → Prop) (m m' : Machine) : Prop :=
  I m.frames.value → I m'.frames.value

theorem SameSource.keeps {I : FrameSource → Prop} {m' : Machine} (h : m.SameSource m') :
    m.Keeps I m' := by
  intro hsource
  rwa [h.source_eq]

/-- If the frames of `m` come on page boundaries, so do those of `m'`. -/
def KeepsPages (m m' : Machine) : Prop := m.frames.value.OnPages → m'.frames.value.OnPages

end Machine

namespace Kernel
variable {m : Machine} {n : Nat} {pa : PAddr}

theorem allocFrames_grants (h : m.frames.value.OnPages) (n : Nat) :
    FrameSource.Grants n m.frames.value ((allocFrames n).outcome m).1
      ((allocFrames n).outcome m).2.frames.value := by
  rcases Nat.eq_zero_or_pos n with rfl | hpos
  · exact .empty m.frames.value rfl
  have hn : n ≠ 0 := Nat.ne_of_gt hpos
  cases hsource : m.frames.value with
  | boot memory =>
    rw [hsource] at h
    obtain ⟨records, hrecords⟩ := BootMemory.takeRecords_eq_ok h.2 n
    rw [allocFrames_boot hsource hn hrecords]
    cases htake : (memory.take n).1 with
    | error halt =>
      obtain rfl := BootMemory.halt_of_take htake
      rw [BootMemory.take_of_error htake]
      exact .exhausted memory
    | ok base => exact .stolen base hpos htake
  | pool pool =>
    rw [hsource] at h
    obtain ⟨a, rfl, husable⟩ := h
    rw [allocFrames_pool hsource hn, RunAllocator.allocate_pool]
    cases hanswer : (a.allocate n).1 with
    | none =>
      rw [RunAllocator.allocate_none hanswer]
      exact .refused a fun start => RunAllocator.not_gap_of_allocate_none hpos hanswer
    | some base =>
      obtain ⟨start, hpos, hgap, hbase, hnext⟩ := RunAllocator.allocate_some hanswer
      rw [hnext]
      exact .pooled husable base start hpos hgap hbase

/-- An allocation does not look at the bytes in RAM … -/
theorem allocFrames_setRam (h : m.frames.value.OnPages) (n : Nat) (ram : Ram) :
    ∃ ram', ram'.size = ram.size ∧ (allocFrames n).outcome (m.setRam ram) =
      (((allocFrames n).outcome m).1, ((allocFrames n).outcome m).2.setRam ram') := by
  rcases Nat.eq_zero_or_pos n with rfl | hpos
  · exact ⟨ram, rfl, rfl⟩
  have hn : n ≠ 0 := Nat.ne_of_gt hpos
  cases hsource : m.frames.value with
  | boot memory =>
    rw [hsource] at h
    obtain ⟨records, hrecords⟩ := BootMemory.takeRecords_eq_ok h.2 n
    rw [allocFrames_boot hsource hn hrecords,
      allocFrames_boot (m := m.setRam ram) hsource hn hrecords]
    exact ⟨ram, rfl, rfl⟩
  | pool pool =>
    rw [allocFrames_pool hsource hn, allocFrames_pool (m := m.setRam ram) hsource hn]
    exact ⟨_, Ledger.size_store .., rfl⟩

/-- … and changes none but those of the ledger. -/
theorem writesLedger_allocFrames (h : m.frames.value.OnPages) (n : Nat) :
    m.WritesLedger ((allocFrames n).outcome m).2 := by
  rcases Nat.eq_zero_or_pos n with rfl | hpos
  · exact .refl m
  cases hsource : m.frames.value with
  | boot memory =>
    rw [hsource] at h
    obtain ⟨records, hrecords⟩ := BootMemory.takeRecords_eq_ok h.2 n
    rw [allocFrames_boot hsource (Nat.ne_of_gt hpos) hrecords]
    exact .of_boot hsource rfl rfl rfl
  | pool pool => exact writesLedger_allocFrames_pool hsource n

section outcome
variable {answer : Except Halt (Option PAddr)} {allocated : Machine} (h : m.frames.value.OnPages)
  (halloc : (allocFrames n).outcome m = (answer, allocated))
include h halloc

theorem grants_of_outcome :
    FrameSource.Grants n m.frames.value answer allocated.frames.value ∧
      m.WritesLedger allocated := by
  have hgrants := allocFrames_grants h n
  have hledger := writesLedger_allocFrames h n
  rw [halloc] at hgrants hledger
  exact ⟨hgrants, hledger⟩

theorem outcome_setRam_of_outcome (ram : Ram) :
    ∃ ram', ram'.size = ram.size ∧
      (allocFrames n).outcome (m.setRam ram) = (answer, allocated.setRam ram') := by
  obtain ⟨ram', hsize, hsame⟩ := allocFrames_setRam h n ram
  rw [halloc] at hsame
  exact ⟨ram', hsize, hsame⟩

end outcome

theorem step_freeFrames (h : m.frames.value.OnPages) (pa : PAddr) :
    m.frames.value.Step ((freeFrames pa).outcome m).2.frames.value := by
  cases hsource : m.frames.value with
  | boot memory =>
    rw [freeFrames_boot hsource, hsource]
    exact .same (.boot memory)
  | pool pool =>
    rw [hsource] at h
    obtain ⟨a, rfl, husable⟩ := h
    rw [freeFrames_pool hsource, RunAllocator.deallocate_pool]
    cases hanswer : (a.deallocate pa).1 with
    | error halt =>
      rw [(RunAllocator.deallocate_of_error hanswer).2]
      exact .same (.pool a.pool)
    | ok freed =>
      rcases RunAllocator.deallocate_of_ok hanswer with ⟨-, -, hsame⟩ | ⟨r, -, -, hnext⟩
      · rw [hsame]
        exact .same (.pool a.pool)
      · rw [hnext]
        exact .relive husable _

theorem step_markThreadStack (h : m.frames.value.OnPages) (pa : PAddr) :
    m.frames.value.Step ((markThreadStack pa).outcome m).2.frames.value := by
  cases hsource : m.frames.value with
  | boot memory =>
    rw [markThreadStack_boot hsource, hsource]
    cases m.ram.write pa threadStackFooter <;> exact .same (.boot memory)
  | pool pool =>
    rw [hsource] at h
    obtain ⟨a, rfl, husable⟩ := h
    rw [markThreadStack_pool hsource, RunAllocator.markFooter_pool]
    cases hmark : (a.markFooter pa).1 with
    | error e =>
      simp only [Except.map, Machine.served, SpinLock.unlocked, hsource]
      exact .same (.pool a.pool)
    | ok marked =>
      obtain ⟨r, -, hnext⟩ := RunAllocator.markFooter_of_ok hmark
      rw [hnext]
      dsimp only [Except.map]
      split <;> exact .relive husable _

theorem step_bootstrap (m : Machine) :
    m.frames.value.Step (bootstrap.outcome m).2.frames.value := by
  cases hsource : m.frames.value with
  | boot memory =>
    obtain ⟨l, hl, hsplits⟩ := PoolLayout.new_splits memory.next memory.limit
    rcases Nat.lt_or_ge l.lo.val m.ram.size with hin | hout
    · obtain ⟨fits, houtcome⟩ := bootstrap_boot_of_lt hsource hl hin
      rw [houtcome]
      exact .install hsplits fits
    · rw [bootstrap_boot_of_le hsource hl hout, hsource]
      exact .same (.boot memory)
  | pool pool =>
    rw [bootstrap_pool hsource, hsource]
    exact .same (.pool pool)

section keeps
variable {I : FrameSource → Prop}

/-- What each step of a source on page boundaries keeps, the operations on physical memory keep. -/
theorem keeps_bound (hpages : ∀ source, I source → source.OnPages)
    (hstep : ∀ source next, source.Step next → I source → I next) :
    Machine.MemoryBound (Machine.Keeps I) := by
  have hsame {α : Type} {k : Kernel α} (hk : k.Obeys Machine.SameSource) :
      k.Obeys (Machine.Keeps I) := fun m => (hk m).keeps
  have hcomposes := Machine.sameSource_effect.composes
  have hcritical := Machine.sameSource_effect.critical
  have hram := Machine.sameSource_setRam
  constructor
  case toComposes => exact ⟨fun _ h => h, fun h h' hm => h' (h hm), fun _ _ h => h⟩
  case bootstrap => exact fun m h => hstep _ _ (step_bootstrap m) h
  case isReady => exact hsame (obeys_isReady hcritical)
  case frameStats => exact hsame (obeys_frameStats hcritical)
  case auditFrames => exact hsame (obeys_auditFrames hcritical)
  case allocFrames => exact fun n m h => hstep _ _ (allocFrames_grants (hpages _ h) n).step h
  case freeFrames => exact fun pa m h => hstep _ _ (step_freeFrames (hpages _ h) pa) h
  case markThreadStack => exact fun pa m h => hstep _ _ (step_markThreadStack (hpages _ h) pa) h
  case writeBytes => exact fun pa bytes => hsame (obeys_writeBytes hcomposes hram pa bytes)
  case zeroFrames => exact fun pa n => hsame (obeys_zeroFrames hcomposes hram pa n)
  case copyFrames => exact fun dst src n => hsame (obeys_copyFrames hcomposes hram dst src n)

theorem keeps_flushTlb : flushTlb.Obeys (Machine.Keeps I) := fun m =>
  (obeys_flushTlb Machine.sameSource_effect.masking Machine.sameSource_setTlb m).keeps

theorem keeps_installMapping (va : VAddr) (pa : PAddr) (dirty : Bool) :
    (installMapping va pa dirty).Obeys (Machine.Keeps I) := fun m =>
  (obeys_installMapping Machine.sameSource_effect.masking Machine.sameSource_setTlb va pa dirty
    m).keeps

end keeps

/-- No operation on physical memory takes the source off page boundaries. -/
theorem keepsPages_bound : Machine.MemoryBound Machine.KeepsPages :=
  keeps_bound (fun _ h => h) fun _ _ hstep => hstep.onPages

theorem keepsPages_flushTlb : flushTlb.Obeys Machine.KeepsPages := keeps_flushTlb

theorem keepsPages_installMapping (va : VAddr) (pa : PAddr) (dirty : Bool) :
    (installMapping va pa dirty).Obeys Machine.KeepsPages := keeps_installMapping va pa dirty

end Kernel

namespace Machine
variable {m m' : Machine} {p q : FramePool}

theorem ledgerBelow_of_boot {memory : BootMemory} (h : m.frames.value = .boot memory) :
    m.LedgerBelow := by
  intro pool hpool
  cases h.symm.trans hpool

theorem LedgerBelow.of_sameSource (h : m.LedgerBelow) (hsame : m.SameSource m') :
    m'.LedgerBelow := by
  simpa only [LedgerBelow, hsame.source_eq, hsame.ledgerAt_eq]

theorem LedgerBelow.of_sameFrames (h : m.LedgerBelow) (hframes : p.SameFrames q)
    (hsource : m.frames.value = .pool p) (hnext : m'.frames.value = .pool q)
    (hledger : m'.ledgerAt = m.ledgerAt) : m'.LedgerBelow := by
  intro pool hpool
  obtain rfl : q = pool := FrameSource.pool.inj (hnext.symm.trans hpool)
  rw [hledger, hframes.size, hframes.base]
  exact h p hsource

/-- The frames come on page boundaries, and the ledger lies below those of the pool. -/
structure LaidOut (m : Machine) : Prop where
  onPages : m.frames.value.OnPages
  ledger_below : m.LedgerBelow

def KeepsLayout (m m' : Machine) : Prop := m.LaidOut → m'.LaidOut

theorem laidOut_new (ram : Ram) (first last : PAddr) (victim : Nat → Fin tlbSlots) :
    (new ram first last victim).LaidOut :=
  ⟨onPages_new ram first last victim, ledgerBelow_of_boot rfl⟩

end Machine

namespace Kernel
variable {m : Machine}

theorem ledgerBelow_allocFrames (h : m.LaidOut) (n : Nat) :
    ((allocFrames n).outcome m).2.LedgerBelow := by
  rcases Nat.eq_zero_or_pos n with rfl | hpos
  · exact h.ledger_below
  cases hsource : m.frames.value with
  | boot memory =>
    have hpages := h.onPages
    rw [hsource] at hpages
    obtain ⟨records, hrecords⟩ := BootMemory.takeRecords_eq_ok hpages.2 n
    rw [allocFrames_boot hsource (Nat.ne_of_gt hpos) hrecords]
    exact Machine.ledgerBelow_of_boot rfl
  | pool pool =>
    rw [allocFrames_pool hsource (Nat.ne_of_gt hpos)]
    exact h.ledger_below.of_sameFrames (pool.sameFrames_allocate n) hsource rfl rfl

theorem ledgerBelow_freeFrames (h : m.LedgerBelow) (pa : PAddr) :
    ((freeFrames pa).outcome m).2.LedgerBelow := by
  cases hsource : m.frames.value with
  | boot memory =>
    rw [freeFrames_boot hsource]
    exact h.of_sameSource ⟨rfl, rfl⟩
  | pool pool =>
    rw [freeFrames_pool hsource]
    exact h.of_sameFrames (pool.sameFrames_deallocate pa) hsource rfl rfl

theorem ledgerBelow_markThreadStack (h : m.LedgerBelow) (pa : PAddr) :
    ((markThreadStack pa).outcome m).2.LedgerBelow := by
  cases hsource : m.frames.value with
  | boot memory =>
    rw [markThreadStack_boot hsource]
    split <;> exact h.of_sameSource ⟨rfl, rfl⟩
  | pool pool =>
    rw [markThreadStack_pool hsource]
    cases hmark : pool.markFooter pa with
    | error e => exact h.of_sameSource ⟨rfl, rfl⟩
    | ok marked =>
      have hframes := FramePool.sameFrames_markFooter hmark
      dsimp only
      split <;> exact h.of_sameFrames hframes hsource rfl rfl

/-- The split puts the ledger into the lowest frames. -/
theorem ledgerBelow_bootstrap (h : m.LedgerBelow) : (bootstrap.outcome m).2.LedgerBelow := by
  cases hsource : m.frames.value with
  | boot memory =>
    obtain ⟨l, hl, hsplits⟩ := PoolLayout.new_splits memory.next memory.limit
    rcases Nat.lt_or_ge l.lo.val m.ram.size with hin | hout
    · obtain ⟨fits, houtcome⟩ := bootstrap_boot_of_lt hsource hl hin
      rw [houtcome]
      intro pool hpool
      obtain rfl := FrameSource.pool.inj hpool
      have hsize : (RunAllocator.new l.base l.managed fits).pool.ledger.size = l.managed :=
        RunSet.size_ledger _
      have hfit := Nat.add_le_add_left hsplits.entries_fit l.lo.val
      rw [← hsplits.base_val, ← hsize] at hfit
      exact hfit
    · rw [bootstrap_boot_of_le hsource hl hout]
      exact h.of_sameSource ⟨rfl, rfl⟩
  | pool pool =>
    rw [bootstrap_pool hsource]
    exact h.of_sameSource ⟨rfl, rfl⟩

/-- No operation on physical memory brings the ledger and the pool's frames together. -/
theorem keepsLayout_bound : Machine.MemoryBound Machine.KeepsLayout := by
  have hsame {α : Type} {k : Kernel α} (hk : k.Obeys Machine.SameSource) :
      k.Obeys Machine.KeepsLayout := fun m h =>
    ⟨(hk m).keeps h.onPages, h.ledger_below.of_sameSource (hk m)⟩
  have hcomposes := Machine.sameSource_effect.composes
  have hcritical := Machine.sameSource_effect.critical
  have hram := Machine.sameSource_setRam
  constructor
  case toComposes => exact ⟨fun _ h => h, fun h h' hm => h' (h hm), fun _ _ h => ⟨h.1, h.2⟩⟩
  case bootstrap =>
    exact fun m h => ⟨keepsPages_bound.bootstrap m h.onPages, ledgerBelow_bootstrap h.ledger_below⟩
  case isReady => exact hsame (obeys_isReady hcritical)
  case frameStats => exact hsame (obeys_frameStats hcritical)
  case auditFrames => exact hsame (obeys_auditFrames hcritical)
  case allocFrames =>
    exact fun n m h => ⟨keepsPages_bound.allocFrames n m h.onPages, ledgerBelow_allocFrames h n⟩
  case freeFrames =>
    exact fun pa m h =>
      ⟨keepsPages_bound.freeFrames pa m h.onPages, ledgerBelow_freeFrames h.ledger_below pa⟩
  case markThreadStack =>
    exact fun pa m h => ⟨keepsPages_bound.markThreadStack pa m h.onPages,
      ledgerBelow_markThreadStack h.ledger_below pa⟩
  case writeBytes => exact fun pa bytes => hsame (obeys_writeBytes hcomposes hram pa bytes)
  case zeroFrames => exact fun pa n => hsame (obeys_zeroFrames hcomposes hram pa n)
  case copyFrames => exact fun dst src n => hsame (obeys_copyFrames hcomposes hram dst src n)

theorem keepsLayout_flushTlb : flushTlb.Obeys Machine.KeepsLayout := fun m h =>
  have hsame := obeys_flushTlb Machine.sameSource_effect.masking Machine.sameSource_setTlb m
  ⟨hsame.keeps h.onPages, h.ledger_below.of_sameSource hsame⟩

theorem keepsLayout_installMapping (va : VAddr) (pa : PAddr) (dirty : Bool) :
    (installMapping va pa dirty).Obeys Machine.KeepsLayout := fun m h =>
  have hsame := obeys_installMapping Machine.sameSource_effect.masking Machine.sameSource_setTlb
    va pa dirty m
  ⟨hsame.keeps h.onPages, h.ledger_below.of_sameSource hsame⟩

end Kernel

namespace Loader
variable {s : Loading}

theorem Binds.placed {segments : List Segment}
    {outcome : Except Halt (Except VmError Unit) × Loading} (h : Binds segments s outcome)
    (hsource : s.machine.frames.value.OnPages) (hplaced : s.space.Placed) :
    outcome.2.space.Placed := by
  induction h with
  | done s => exact hplaced
  | absent hr hrest ih => exact ih hsource hplaced
  | halted rest hr halloc => exact hplaced
  | refused rest hr halloc => exact hplaced
  | unzeroed rest hr halloc hzero =>
    obtain ⟨hgrants, -⟩ := Kernel.grants_of_outcome hsource halloc
    exact hplaced.bind (hgrants.dvd hsource)
  | @bound segment rest s r pa allocated zeroed _ hr halloc hzero hrest ih =>
    obtain ⟨hgrants, -⟩ := Kernel.grants_of_outcome hsource halloc
    have hpages := Kernel.keepsPages_bound.zeroFrames pa r.npages allocated
      (hgrants.step.onPages hsource)
    rw [hzero] at hpages
    exact ih hpages (hplaced.bind (hgrants.dvd hsource))

theorem placed_prepareLoad (hsource : s.machine.frames.value.OnPages)
    (hplaced : s.space.Placed) : (prepareLoad.outcome s).2.space.Placed := by
  cases h : s.space.hasFrames with
  | true =>
    rw [prepareLoad_of_bound h]
    exact hplaced
  | false =>
    rw [prepareLoad_of_unbound h]
    exact (binds_bindSegments Segment.all s).placed hsource hplaced

end Loader

theorem Kernel.placed_copySpace {m m' : Machine} {a b : AddressSpace}
    (hsource : m.frames.value.OnPages) (hplaced : a.Placed)
    (h : (copySpace a).outcome m = (.ok (.ok b), m')) : b.Placed := by
  have hchild := Loader.placed_prepareLoad (s := ⟨m, a.layout⟩) hsource hplaced.layout
  obtain ⟨loaded, hload, -⟩ := copySpace_of_ok h
  rwa [hload] at hchild

end MipsVm
