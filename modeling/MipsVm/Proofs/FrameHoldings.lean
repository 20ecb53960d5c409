import MipsVm.Proofs.TrackedRuns

/-! Who holds which frames. The list of all holdings accounts for every live run of the pool, and each
operation on physical memory moves one holding in or out of it and writes to no other. -/
namespace MipsVm

/-- Frames that somebody holds. -/
structure Holding where
  range : FrameRange
  /-- Whether the pool handed them out, rather than boot memory. -/
  pooled : Bool
deriving DecidableEq

namespace Holding
variable {hs hs' : List Holding} {x : Holding}

def stolenRanges (hs : List Holding) : List FrameRange :=
  (hs.filter fun x => !x.pooled).map Holding.range

def pooledRanges (hs : List Holding) : List FrameRange := (hs.filter Holding.pooled).map Holding.range

theorem pooledRanges_cons_of_pooled (h : x.pooled = true) (hs : List Holding) :
    pooledRanges (x :: hs) = x.range :: pooledRanges hs := by
  simp [pooledRanges, h]

theorem pooledRanges_cons_of_stolen (h : x.pooled = false) (hs : List Holding) :
    pooledRanges (x :: hs) = pooledRanges hs := by
  simp [pooledRanges, h]

theorem stolenRanges_cons_of_pooled (h : x.pooled = true) (hs : List Holding) :
    stolenRanges (x :: hs) = stolenRanges hs := by
  simp [stolenRanges, h]

theorem stolenRanges_cons_of_stolen (h : x.pooled = false) (hs : List Holding) :
    stolenRanges (x :: hs) = x.range :: stolenRanges hs := by
  simp [stolenRanges, h]

theorem ranges_perm (hs : List Holding) :
    (stolenRanges hs ++ pooledRanges hs).Perm (hs.map Holding.range) := by
  have hsplit := (List.filter_append_perm Holding.pooled hs).map Holding.range
  rw [List.map_append] at hsplit
  exact List.perm_append_comm.trans hsplit

end Holding

namespace FrameHistory
variable {first last : PAddr} {h : FrameHistory} {machine : Machine}

theorem pairwise_apart_of_subperm {rs ts : List FrameRange} (hsub : rs.Subperm ts)
    (h : ts.Pairwise FrameRange.Apart) : rs.Pairwise FrameRange.Apart := by
  obtain ⟨us, hperm, hsublist⟩ := hsub
  have hus := h.sublist hsublist
  exact (hperm.pairwise_iff fun hapart => hapart.symm).mp hus

/-- What is no longer counted as out does not disturb the rest. -/
theorem Accounted.of_subperm (hacc : h.Accounted first last) {stolen pooled : List FrameRange}
    (hstolen : stolen.Subperm h.stolen) (hpooled : pooled.Subperm h.pooled) :
    (FrameHistory.mk h.machine stolen pooled h.ledger).Accounted first last := by
  constructor
  case stolen_dvd => exact fun r hr => hacc.stolen_dvd r (hstolen.subset hr)
  case stolen_nonempty => exact fun r hr => hacc.stolen_nonempty r (hstolen.subset hr)
  case floor_le => exact fun r hr => hacc.floor_le r (hstolen.subset hr)
  case stolen_apart => exact pairwise_apart_of_subperm hstolen hacc.stolen_apart
  case phase =>
    rcases hacc.phase with ⟨memory, hs⟩ | ⟨a, l, hp⟩
    · refine .inl ⟨memory, { hs with pooled_eq := ?_, stolen_le := ?_ }⟩
      · rw [hs.pooled_eq] at hpooled
        exact List.subperm_nil.mp hpooled
      · exact fun r hr => hs.stolen_le r (hstolen.subset hr)
    · refine .inr ⟨a, l, { hp with stolen_le := ?_, pooled_live := ?_, pooled_apart := ?_ }⟩
      · exact fun r hr => hp.stolen_le r (hstolen.subset hr)
      · exact fun r hr => hp.pooled_live r (hpooled.subset hr)
      · exact pairwise_apart_of_subperm hpooled hp.pooled_apart

/-- Of RAM, only the bytes in the frames of the ledger matter. -/
theorem Accounted.keep_of_bytes (hacc : h.Accounted first last)
    (hsame : h.machine.SameSource machine) (hsize : machine.ram.size = h.machine.ram.size)
    (hbytes : ∀ i, h.machine.InLedger i → machine.ram.byte i = h.machine.ram.byte i) :
    (h.keep machine).Accounted first last := by
  rcases hacc.phase with ⟨memory, hs⟩ | ⟨a, l, hp⟩
  · exact hs.accounted_keep hacc (hsame.source_eq.trans hs.source_eq)
  · have hledgerAt := congrArg Address.val hsame.ledgerAt_eq
    exact { hacc with phase := .inr ⟨a, l, { hp with
      source_eq := hsame.source_eq.trans hp.source_eq
      ledgerAt_eq := hledgerAt.trans hp.ledgerAt_eq
      stored := hp.stored.of_bytes hsame hsize hbytes }⟩ }

end FrameHistory

/-- The record of the runs that are out, as holdings. -/
def account (m : Machine) (hs : List Holding) (l : Option FrameRange) : FrameHistory :=
  ⟨m, Holding.stolenRanges hs, Holding.pooledRanges hs, l⟩

theorem grant_account (m machine : Machine) (hs : List Holding) (l : Option FrameRange)
    (r : FrameRange) :
    (account m hs l).grant r machine = account machine (⟨r, m.pooling⟩ :: hs) l := by
  rw [FrameHistory.grant, Machine.pooling]
  simp only [account]
  cases m.frames.value with
  | boot memory => rfl
  | pool pool => rfl

/-- The holdings are all the frames that are out: what the pool has live is what is held of it. All
frames lie in RAM and in the direct map. -/
structure Owned (first last : PAddr) (m : Machine) (hs : List Holding) (l : Option FrameRange) :
    Prop where
  accounted : (account m hs l).Accounted first last
  counted : ∀ pool, m.frames.value = .pool pool →
    pool.runs = (Holding.pooledRanges hs).length
  ram_le : last.val ≤ m.ram.size
  direct_le : last.val ≤ directMapSize

namespace Ram

theorem changesAt_writeBytes (m : Machine) (pa : PAddr) (bytes : Array UInt8) :
    m.ram.ChangesAt pa.val bytes.size ((Kernel.writeBytes pa bytes).outcome m).2.ram := by
  rw [Kernel.writeBytes_outcome]
  rcases hwrite : m.ram.write pa bytes with halt | ram
  · exact .refl _ _ m.ram
  · exact changesAt_write hwrite

theorem changesAt_zeroFrames (m : Machine) (pa : PAddr) (n : Nat) :
    m.ram.ChangesAt pa.val (n * pageSize) ((Kernel.zeroFrames pa n).outcome m).2.ram := by
  rw [Kernel.zeroFrames_outcome]
  rcases Nat.lt_or_ge pa.val m.ram.size with hin | hout
  · rw [Ram.zero_of_lt hin]
    exact changesAt_update ..
  · rw [Ram.zero_of_le hout]
    exact .refl _ _ m.ram

theorem changesAt_copyFrames (m : Machine) (dst src : PAddr) (n : Nat) :
    m.ram.ChangesAt dst.val (n * pageSize) ((Kernel.copyFrames dst src n).outcome m).2.ram := by
  rw [Kernel.copyFrames_outcome]
  rcases hcopy : m.ram.copy dst src (n * pageSize) with halt | ram
  · exact .refl _ _ m.ram
  · obtain rfl := Ram.copy_eq_ok hcopy
    exact changesAt_update ..

/-- The ledger is written before the footer is. -/
theorem changesAt_markThreadStack (m : Machine) (pa : PAddr) :
    ∃ ram, m.ram.ChangesAt m.ledgerAt.val m.ledgerSize ram ∧
      ram.ChangesAt pa.val Kernel.threadStackFooter.size
        ((Kernel.markThreadStack pa).outcome m).2.ram := by
  cases hsource : m.frames.value with
  | boot memory =>
    refine ⟨m.ram, .refl _ _ m.ram, ?_⟩
    rw [Kernel.markThreadStack_boot hsource]
    rcases hwrite : m.ram.write pa Kernel.threadStackFooter with halt | ram
    · exact .refl _ _ m.ram
    · exact changesAt_write hwrite
  | pool pool =>
    rw [Kernel.markThreadStack_pool hsource]
    cases hmark : pool.markFooter pa with
    | error e => exact ⟨m.ram, .refl _ _ m.ram, .refl _ _ m.ram⟩
    | ok marked =>
      have hstore := Ledger.changesAt_store marked.ledger pool.ledger m.ledgerAt m.ram
      rw [(FramePool.sameFrames_markFooter hmark).size, ← Machine.ledgerSize_of_pool hsource]
        at hstore
      refine ⟨_, hstore, ?_⟩
      dsimp only
      rcases hwrite : (marked.ledger.store pool.ledger m.ledgerAt m.ram).write pa
        Kernel.threadStackFooter with halt | ram
      · exact .refl ..
      · exact changesAt_write hwrite

end Ram

/-- What those who hold `hs` rely on: their bytes stay as they are, and a pool stays. -/
structure Machine.Spares (hs : List Holding) (m m' : Machine) : Prop where
  size : m'.ram.size = m.ram.size
  byte : ∀ x ∈ hs, ∀ i, x.range.Covers i → m'.ram.byte i = m.ram.byte i
  pooling : m.pooling = true → m'.pooling = true

namespace Machine
variable {m m' m'' : Machine} {hs hs' : List Holding}

theorem pooling_of_source (h : m'.frames.value = m.frames.value) : m'.pooling = m.pooling := by
  rw [pooling, pooling, h]

theorem Spares.of_ram (hram : m'.ram = m.ram) (hpooling : m'.pooling = m.pooling)
    (hs : List Holding) : m.Spares hs m' :=
  ⟨by rw [hram], fun _ _ _ _ => by rw [hram], hpooling.trans⟩

theorem Spares.trans (h : m.Spares hs m') (h' : m'.Spares hs m'') : m.Spares hs m'' :=
  ⟨h'.size.trans h.size, fun x hx i hi => (h'.byte x hx i hi).trans (h.byte x hx i hi),
    fun hpooling => h'.pooling (h.pooling hpooling)⟩

theorem Spares.mono (h : m.Spares hs m') (hsub : hs' ⊆ hs) : m.Spares hs' m' :=
  ⟨h.size, fun x hx => h.byte x (hsub hx), h.pooling⟩

end Machine

namespace Owned
variable {first last : PAddr} {m m' : Machine} {hs hs' : List Holding} {l : Option FrameRange}
  {x y : Holding} {n : Nat} {pa : PAddr}

theorem perm (h : Owned first last m hs l) (hp : hs.Perm hs') : Owned first last m hs' l := by
  have hstolen : (Holding.stolenRanges hs').Perm (Holding.stolenRanges hs) :=
    (hp.symm.filter _).map _
  have hpooled : (Holding.pooledRanges hs').Perm (Holding.pooledRanges hs) :=
    (hp.symm.filter _).map _
  refine { h with accounted := h.accounted.of_subperm hstolen.subperm hpooled.subperm, counted := ?_ }
  intro pool hsource
  rw [hpooled.length_eq]
  exact h.counted pool hsource

theorem tracked (h : Owned first last m hs l) : (account m hs l).Tracked first last :=
  ⟨h.accounted, h.counted⟩

theorem of_tracked (h : (account m hs l).Tracked first last) (hram : last.val ≤ m.ram.size)
    (hdirect : last.val ≤ directMapSize) : Owned first last m hs l :=
  ⟨h.accounted, h.counted, hram, hdirect⟩

/-- The frames come from boot memory or from the pool. -/
theorem phase (h : Owned first last m hs l) :
    (∃ memory, m.frames.value = .boot memory ∧ m.pooling = false ∧
      (account m hs l).Stealing first last memory) ∨
    ∃ a ledger, m.frames.value = .pool a.pool ∧ m.pooling = true ∧
      (account m hs l).Pooling first last a ledger := by
  rcases h.accounted.phase with ⟨memory, hsteal⟩ | ⟨a, ledger, hp⟩
  · have hsource : m.frames.value = .boot memory := hsteal.source_eq
    exact .inl ⟨memory, hsource, by rw [Machine.pooling, hsource]; rfl, hsteal⟩
  · have hsource : m.frames.value = .pool a.pool := hp.source_eq
    exact .inr ⟨a, ledger, hsource, by rw [Machine.pooling, hsource]; rfl, hp⟩

theorem exclusive (h : Owned first last m hs l) : (account m hs l).Exclusive first last :=
  h.accounted.exclusive

theorem mem_outstanding (hx : x ∈ hs) : x.range ∈ (account m hs l).outstanding :=
  (Holding.ranges_perm hs).mem_iff.mpr (List.mem_map_of_mem hx)

/-- No two holdings share a frame. -/
theorem apart (h : Owned first last m hs l) :
    (hs.map Holding.range).Pairwise FrameRange.Apart := by
  have houtstanding := h.exclusive.apart
  exact ((Holding.ranges_perm hs).pairwise_iff fun hapart => hapart.symm).mp houtstanding

theorem frames_pos (h : Owned first last m hs l) (hx : x ∈ hs) : 0 < x.range.frames :=
  h.exclusive.nonempty x.range (mem_outstanding hx)

theorem stop_le (h : Owned first last m hs l) (hx : x ∈ hs) : x.range.stop ≤ last.val := by
  have hstop := (h.exclusive.inside x.range (mem_outstanding hx)).2
  exact Nat.le_trans hstop last.alignDown_le

theorem start_lt_stop (h : Owned first last m hs l) (hx : x ∈ hs) :
    x.range.start < x.range.stop := by
  have hpos := h.frames_pos hx
  simp only [FrameRange.stop, pageSize]
  omega

theorem start_ne (h : Owned first last m (x :: hs) l) (hy : y ∈ hs) :
    y.range.start ≠ x.range.start := by
  have hapart : x.range.Apart y.range :=
    (List.pairwise_cons.mp h.apart).1 y.range (List.mem_map_of_mem hy)
  have hx := h.frames_pos List.mem_cons_self
  have hy := h.frames_pos (List.mem_cons_of_mem x hy)
  simp only [FrameRange.Apart, FrameRange.stop, pageSize] at hapart
  omega

theorem start_lt_size (h : Owned first last m hs l) (hx : x ∈ hs) :
    x.range.start < m.ram.size :=
  calc
    x.range.start < x.range.stop := h.start_lt_stop hx
    _ ≤ last.val := h.stop_le hx
    _ ≤ m.ram.size := h.ram_le

/-- Writes to frames that are held leave the ledger alone … -/
theorem write (h : Owned first last m hs l) (hx : x ∈ hs) (hsame : m.SameSource m')
    (hw : m.ram.WritesIn x.range m'.ram) : Owned first last m' hs l := by
  refine ⟨h.accounted.keep_of_bytes hsame hw.size ?_, ?_, h.ram_le.trans_eq hw.size.symm,
    h.direct_le⟩
  · intro i hi
    exact hw.byte i fun hcovers => h.accounted.not_inLedger (mem_outstanding hx) hcovers hi
  · rw [hsame.source_eq]
    exact h.counted

/-- … as writes to the ledger leave alone what is held. -/
theorem spares_ledger (h : Owned first last m hs l) (hledger : m.WritesLedger m')
    (hpooling : m'.pooling = m.pooling) : m.Spares hs m' := by
  refine ⟨hledger.size, ?_, hpooling.trans⟩
  intro x hx i hi
  exact hledger.byte i (h.accounted.not_inLedger (mem_outstanding hx) hi)

/-- What others hold is left alone too. -/
theorem spares {xs : List Holding} (h : Owned first last m (xs ++ hs) l) (hx : x ∈ xs)
    (hpooling : m.pooling = true → m'.pooling = true) (hw : m.ram.WritesIn x.range m'.ram) :
    m.Spares hs m' := by
  refine ⟨hw.size, ?_, hpooling⟩
  intro y hy i hi
  have hranges := h.apart
  rw [List.map_append] at hranges
  have hapart : x.range.Apart y.range := (List.pairwise_append.mp hranges).2.2 x.range
    (List.mem_map_of_mem hx) y.range (List.mem_map_of_mem hy)
  exact hw.byte i (hapart.symm.not_covers hi)

theorem spares_tail (h : Owned first last m (x :: hs) l)
    (hpooling : m.pooling = true → m'.pooling = true) (hw : m.ram.WritesIn x.range m'.ram) :
    m.Spares hs m' := by
  have hself : x ∈ [x] := List.mem_singleton_self x
  exact spares h hself hpooling hw

theorem of_same (h : Owned first last m hs l) (hsame : m.SameSource m')
    (hram : m'.ram = m.ram) : Owned first last m' hs l := by
  have hledger : m.WritesLedger m' := .of_same hsame.source_eq hsame.ledgerAt_eq hram
  refine ⟨h.accounted.keep hsame.source_eq hledger, ?_, ?_, h.direct_le⟩
  · rw [hsame.source_eq]
    exact h.counted
  · rw [hram]
    exact h.ram_le

/-- Boot memory is never told what became of its frames. -/
theorem drop (h : Owned first last m (x :: hs) l) (hx : x.pooled = false) :
    Owned first last m hs l := by
  have hstolen : (Holding.stolenRanges hs).Subperm (Holding.stolenRanges (x :: hs)) := by
    rw [Holding.stolenRanges_cons_of_stolen hx]
    exact (List.sublist_cons_self x.range _).subperm
  have hpooled := Holding.pooledRanges_cons_of_stolen hx hs
  refine ⟨h.accounted.of_subperm hstolen ?_, ?_, h.ram_le, h.direct_le⟩
  · rw [account, hpooled]
  · rw [← hpooled]
    exact h.counted

theorem drop_all {xs : List Holding} (h : Owned first last m (xs ++ hs) l)
    (hxs : ∀ x ∈ xs, x.pooled = false) : Owned first last m hs l := by
  induction xs with
  | nil => exact h
  | cons x xs ih =>
    obtain ⟨hx, hrest⟩ := List.forall_mem_cons.mp hxs
    exact ih (h.drop hx) hrest

theorem pooled_of_mem_boot (h : Owned first last m hs l) (hboot : m.pooling = false)
    (hx : x ∈ hs) : x.pooled = false := by
  rcases h.phase with ⟨memory, -, -, hsteal⟩ | ⟨a, ledger, -, hpooling, -⟩
  · rw [Bool.eq_false_iff]
    intro hpooled
    have hmem : x.range ∈ Holding.pooledRanges hs :=
      List.mem_map_of_mem (List.mem_filter.mpr ⟨hx, hpooled⟩)
    have hempty : Holding.pooledRanges hs = [] := hsteal.pooled_eq
    rw [hempty] at hmem
    cases hmem
  · cases hboot.symm.trans hpooling

end Owned

end MipsVm
