import MipsVm.FramePool
import MipsVm.Proofs.RunLedger

/-! The frame pool and an allocator that keeps nothing but the set of runs handed out give the same
answers to every sequence of requests. -/
namespace MipsVm

/-- A request to an allocator of frames. -/
inductive PoolCall where
  | allocate (n : Nat)
  | deallocate (pa : PAddr)
  | markFooter (pa : PAddr)
  | runLength (pa : PAddr)
  | stats

inductive PoolReply where
  | allocated (answer : Except Halt (Option PAddr))
  | deallocated (answer : Except Halt Nat)
  | marked (answer : Except LedgerError Unit)
  | length (answer : Option Nat)
  | counted (answer : Except Halt FrameStats)

/-- The replies to `calls` one after the other, and the state that the last of them leaves. -/
def serve {σ κ ρ : Type} (reply : σ → κ → ρ × σ) : σ → List κ → List ρ × σ
  | s, [] => ([], s)
  | s, call :: calls =>
    let first := reply s call
    let rest := serve reply first.2 calls
    (first.1 :: rest.1, rest.2)

def FramePool.reply (p : FramePool) : PoolCall → PoolReply × FramePool
  | .allocate n => (.allocated (p.allocate n).1, (p.allocate n).2)
  | .deallocate pa => (.deallocated (p.deallocate pa).1, (p.deallocate pa).2)
  | .markFooter pa =>
    match p.markFooter pa with
    | .ok q => (.marked (.ok ()), q)
    | .error e => (.marked (.error e), p)
  | .runLength pa => (.length (p.runLength? pa), p)
  | .stats => (.counted p.stats, p)

/-- An allocator that knows where its frames lie and which runs are live. -/
structure RunAllocator where
  base : PAddr
  frames : Nat
  fits : base.val + frames * pageSize < 0x100000000
  live : RunSet frames

namespace RunAllocator
variable {a : RunAllocator} {pa : PAddr}

def new (base : PAddr) (frames : Nat) (fits : base.val + frames * pageSize < 0x100000000) :
    RunAllocator := ⟨base, frames, fits, .empty frames⟩

theorem frameAddr_lt (a : RunAllocator) {i : Nat} (h : i < a.frames) :
    a.base.val + i * pageSize < 0x100000000 :=
  calc
    a.base.val + i * pageSize ≤ a.base.val + a.frames * pageSize :=
      Nat.add_le_add_left (Nat.mul_le_mul_right _ (Nat.le_of_lt h)) _
    _ < 0x100000000 := a.fits

/-- Address of the first byte of frame `i`. -/
def frameAddr (a : RunAllocator) (i : Nat) (h : i < a.frames) : PAddr :=
  ⟨a.base.val + i * pageSize, a.frameAddr_lt h⟩

/-- The lowest gap of `n` frames becomes a run. -/
def allocate (a : RunAllocator) (n : Nat) : Option PAddr × RunAllocator :=
  if hn : 0 < n then
    if h : ∃ start, a.live.Gap start n then
      (some (a.frameAddr (Nat.find h) (by have := (Nat.find_spec h).1; omega)),
        { a with live := a.live.add (Nat.find h) n hn (Nat.find_spec h) })
    else (none, a)
  else (none, a)

/-- The run whose first byte is at `pa`, or why there is none. -/
def runAt (a : RunAllocator) (pa : PAddr) : Except LedgerError Run :=
  if pa.val % pageSize ≠ 0 then .error (.unaligned pa)
  else if pa < a.base ∨ a.base.val + a.frames * pageSize ≤ pa.val then .error (.outsidePool pa)
  else a.live.runFrom ((pa.val - a.base.val) / pageSize)

/-- A live run is released whole; null and everything below the frames are passed over, and every
other address halts with nothing changed. -/
def deallocate (a : RunAllocator) (pa : PAddr) : Except Halt Nat × RunAllocator :=
  if pa = .null ∨ pa < a.base then (.ok 0, a)
  else
    match a.runAt pa with
    | .ok r => (.ok r.len, { a with live := a.live.remove r })
    | .error e => (.error (.ledgerCorrupt e), a)

def markFooter (a : RunAllocator) (pa : PAddr) : Except LedgerError Unit × RunAllocator :=
  match a.runAt pa with
  | .ok r => (.ok (), { a with live := a.live.stamp r })
  | .error e => (.error e, a)

def runLength? (a : RunAllocator) (pa : PAddr) : Option Nat :=
  match a.runAt pa with
  | .ok r => if r.stamped = true then none else some r.len
  | .error _ => none

def stats (a : RunAllocator) : FrameStats :=
  ⟨a.frames, a.frames - a.live.used, a.live.used, a.live.count⟩

def reply (a : RunAllocator) : PoolCall → PoolReply × RunAllocator
  | .allocate n => (.allocated (.ok (a.allocate n).1), (a.allocate n).2)
  | .deallocate pa => (.deallocated (a.deallocate pa).1, (a.deallocate pa).2)
  | .markFooter pa => (.marked (a.markFooter pa).1, (a.markFooter pa).2)
  | .runLength pa => (.length (a.runLength? pa), a)
  | .stats => (.counted (.ok a.stats), a)

/-- The frames have addresses, so their number is a word. -/
theorem frames_lt (a : RunAllocator) : a.frames < maxFrames := by
  have hfits := a.fits
  simp only [pageSize, maxFrames] at *
  omega

theorem mod_of_le_frames (a : RunAllocator) {i : Nat} (h : i ≤ a.frames) :
    i % 0x100000000 = i := by
  have hlt := a.frames_lt
  simp only [maxFrames] at hlt
  omega

/-- The frame pool with the same runs live. -/
def pool (a : RunAllocator) : FramePool where
  base := a.base
  ledger := a.live.ledger
  free := a.frames - a.live.used
  runs := a.live.count
  fits := by
    rw [RunSet.size_ledger, a.mod_of_le_frames (Nat.le_refl _)]
    exact a.fits

end RunAllocator

namespace FramePool

theorem eq_of_fields {p q : FramePool} (hbase : p.base = q.base) (hledger : p.ledger = q.ledger)
    (hfree : p.free = q.free) (hruns : p.runs = q.runs) : p = q := by
  cases p
  cases q
  simp_all

theorem contains_iff {p : FramePool} {pa : PAddr} : p.contains pa = true ↔
    p.base.val ≤ pa.val ∧
      pa.val < p.base.val + p.ledger.size % 0x100000000 * pageSize := by
  rw [contains, Bool.and_eq_true, decide_eq_true_eq, decide_eq_true_eq]
  rfl

theorem frameIndex_eq_ok_iff {p : FramePool} {pa : PAddr} {f : Fin p.ledger.size} :
    p.frameIndex pa = .ok f ↔ pa.isPageAligned = true ∧ p.contains pa = true ∧
      f.val = (pa.val - p.base.val) / pageSize := by
  unfold frameIndex
  split_ifs with haligned hcontains
  · rw [Except.ok.injEq, Fin.ext_iff, eq_comm]
    simp only [haligned, hcontains, true_and]
  · simp [hcontains]
  · simp [haligned]

theorem claim_eq_ok {p : FramePool} {start n : Nat} {l : Ledger}
    (h : p.ledger.mark start n = .ok l) :
    p.claim start n = .ok
      { p.withLedger l (Ledger.size_of_mark h) with free := p.free - n, runs := p.runs + 1 } := by
  unfold claim
  split
  · rename_i m hm
    obtain rfl : l = m := by simpa [h] using hm
    rfl
  · rename_i e he
    simp [h] at he

/-- The pool `q` manages the frames that `p` does, whichever of them are free. -/
structure SameFrames (p q : FramePool) : Prop where
  base : q.base = p.base
  size : q.ledger.size = p.ledger.size

theorem sameFrames_withLedger (p : FramePool) {l : Ledger} (h : l.size = p.ledger.size) :
    p.SameFrames (p.withLedger l h) := ⟨rfl, h⟩

theorem sameFrames_allocate (p : FramePool) (n : Nat) : p.SameFrames (p.allocate n).2 := by
  unfold allocate
  split_ifs with hfew
  · exact ⟨rfl, rfl⟩
  cases p.ledger.findGap n with
  | none => exact ⟨rfl, rfl⟩
  | some start =>
    cases hmark : p.ledger.mark start n with
    | ok l =>
      simp only [claim_eq_ok hmark]
      exact ⟨rfl, Ledger.size_of_mark hmark⟩
    | error e =>
      have hclaim : p.claim start n = .error e := by
        unfold claim
        split <;> simp_all
      simp only [hclaim]
      exact p.sameFrames_withLedger (p.ledger.size_overrun start n)

theorem sameFrames_deallocate (p : FramePool) (pa : PAddr) :
    p.SameFrames (p.deallocate pa).2 := by
  have hreclaim : p.SameFrames (p.reclaim pa) := by
    unfold reclaim
    cases p.frameIndex pa with
    | ok frame => exact p.sameFrames_withLedger (p.ledger.size_cleared frame)
    | error e => exact ⟨rfl, rfl⟩
  unfold deallocate
  split_ifs with hignores
  · exact ⟨rfl, rfl⟩
  cases p.reclaimed pa with
  | error e => exact hreclaim
  | ok released =>
    dsimp only
    split_ifs <;> exact ⟨hreclaim.base, hreclaim.size⟩

theorem markFooter_eq {p : FramePool} {pa : PAddr} {i : Fin p.ledger.size}
    (hi : p.frameIndex pa = .ok i) :
    p.markFooter pa =
      match h : p.ledger.stampFooter i with
      | .ok l => .ok (p.withLedger l (Ledger.size_of_stampFooter h))
      | .error e => .error e := by
  simp only [markFooter, hi]
  rfl

theorem sameFrames_markFooter {p q : FramePool} {pa : PAddr} (h : p.markFooter pa = .ok q) :
    p.SameFrames q := by
  cases hframe : p.frameIndex pa with
  | error e =>
    rw [markFooter, hframe] at h
    cases h
  | ok frame =>
    rw [markFooter_eq hframe] at h
    split at h
    · rename_i l hl
      obtain rfl := Except.ok.inj h
      exact p.sameFrames_withLedger (Ledger.size_of_stampFooter hl)
    · cases h

/-- A ledger that is not too long makes a pool if the last of its frames has an address. -/
theorem new_eq_ok_iff {frames : Nat} {base : PAddr} {p : FramePool} (hframes : frames ≤ maxFrames) :
    new frames base = .ok p ↔ base.isPageAligned = true ∧
      ∃ fits, p = (RunAllocator.new base frames fits).pool := by
  have hpool (fits : base.val + frames * pageSize < 0x100000000)
      (hfits : base.val + (Ledger.new frames).size % 0x100000000 * pageSize < 0x100000000) :
      (⟨base, .new frames, frames, 0, hfits⟩ : FramePool) =
        (RunAllocator.new base frames fits).pool :=
    eq_of_fields rfl (RunSet.ledger_empty frames).symm rfl rfl
  have hword : frames % 0x100000000 = frames := by
    simp only [maxFrames] at hframes
    omega
  unfold new
  simp only [hword]
  split_ifs with haligned hfits
  · rw [Except.ok.injEq, hpool hfits]
    constructor
    · rintro rfl
      exact ⟨haligned, hfits, rfl⟩
    · rintro ⟨-, -, rfl⟩
      rfl
  · simp [hfits]
  · simp [haligned]

end FramePool

namespace RunAllocator
variable {a : RunAllocator} {pa : PAddr}

/-- An allocation that answers an address has made a run of the lowest gap. -/
theorem allocate_some {n : Nat} (h : (a.allocate n).1 = some pa) :
    ∃ start, ∃ (hn : 0 < n) (hgap : a.live.Gap start n),
      pa.val = a.base.val + start * pageSize ∧
        (a.allocate n).2 = { a with live := a.live.add start n hn hgap } := by
  unfold allocate at h ⊢
  by_cases hn : 0 < n
  · by_cases hgap : ∃ start, a.live.Gap start n
    · rw [dif_pos hn, dif_pos hgap] at h ⊢
      refine ⟨Nat.find hgap, hn, Nat.find_spec hgap, ?_, rfl⟩
      rw [← Option.some.inj h]
      rfl
    · rw [dif_pos hn, dif_neg hgap] at h
      cases h
  · rw [dif_neg hn] at h
    cases h

theorem allocate_none {n : Nat} (h : (a.allocate n).1 = none) : (a.allocate n).2 = a := by
  unfold allocate at h ⊢
  split_ifs at h ⊢ <;> rfl

theorem not_gap_of_allocate_none {n start : Nat} (hn : 0 < n) (h : (a.allocate n).1 = none) :
    ¬ a.live.Gap start n := by
  intro hgap
  have hsome : ∃ start, a.live.Gap start n := ⟨start, hgap⟩
  rw [allocate, dif_pos hn, dif_pos hsome] at h
  cases h

theorem runAt_mem {r : Run} (h : a.runAt pa = .ok r) : r ∈ a.live.runs := by
  unfold runAt at h
  split_ifs at h
  exact (RunSet.runFrom_eq_ok_iff.mp h).1

/-- A release that is answered was passed over, or has taken a live run back. -/
theorem deallocate_of_ok {freed : Nat} (h : (a.deallocate pa).1 = .ok freed) :
    ((pa = .null ∨ pa < a.base) ∧ freed = 0 ∧ (a.deallocate pa).2 = a) ∨
      ∃ r, a.runAt pa = .ok r ∧ freed = r.len ∧
        (a.deallocate pa).2 = { a with live := a.live.remove r } := by
  unfold deallocate at h ⊢
  by_cases hignore : pa = .null ∨ pa < a.base
  · rw [if_pos hignore] at h ⊢
    exact .inl ⟨hignore, (Except.ok.inj h).symm, rfl⟩
  rw [if_neg hignore] at h ⊢
  cases hrun : a.runAt pa with
  | error e =>
    rw [hrun] at h
    cases h
  | ok r =>
    rw [hrun] at h
    exact .inr ⟨r, rfl, (Except.ok.inj h).symm, rfl⟩

theorem deallocate_of_error {halt : Halt} (h : (a.deallocate pa).1 = .error halt) :
    (∃ e, a.runAt pa = .error e ∧ halt = .ledgerCorrupt e) ∧ (a.deallocate pa).2 = a := by
  unfold deallocate at h ⊢
  by_cases hignore : pa = .null ∨ pa < a.base
  · rw [if_pos hignore] at h
    cases h
  rw [if_neg hignore] at h ⊢
  cases hrun : a.runAt pa with
  | error e =>
    rw [hrun] at h
    exact ⟨⟨e, rfl, (Except.error.inj h).symm⟩, rfl⟩
  | ok r =>
    rw [hrun] at h
    cases h

theorem markFooter_of_ok (h : (a.markFooter pa).1 = .ok ()) :
    ∃ r, a.runAt pa = .ok r ∧ (a.markFooter pa).2 = { a with live := a.live.stamp r } := by
  unfold markFooter at h ⊢
  cases hrun : a.runAt pa with
  | error e =>
    rw [hrun] at h
    cases h
  | ok r => exact ⟨r, rfl, rfl⟩

theorem markFooter_of_error {e : LedgerError} (h : (a.markFooter pa).1 = .error e) :
    a.runAt pa = .error e ∧ (a.markFooter pa).2 = a := by
  unfold markFooter at h ⊢
  cases hrun : a.runAt pa with
  | error e' =>
    rw [hrun] at h
    rw [Except.error.inj h]
    exact ⟨rfl, rfl⟩
  | ok r =>
    rw [hrun] at h
    cases h

theorem contains_pool_iff : a.pool.contains pa = true ↔
    ¬ (pa < a.base ∨ a.base.val + a.frames * pageSize ≤ pa.val) := by
  have hsize : a.pool.ledger.size = a.frames := a.live.size_ledger
  rw [FramePool.contains_iff, hsize, a.mod_of_le_frames (Nat.le_refl _), not_or, Address.lt_def,
    Nat.not_lt, Nat.not_le]
  rfl

theorem limit_pool (a : RunAllocator) : a.pool.limit.val = a.base.val + a.frames * pageSize := by
  have hsize : a.pool.ledger.size = a.frames := a.live.size_ledger
  have hlimit : a.pool.limit.val =
      a.base.val + a.pool.ledger.size % 0x100000000 * pageSize := rfl
  rw [hlimit, hsize, a.mod_of_le_frames (Nat.le_refl _)]

theorem runAt_of_frameIndex {i : Fin a.pool.ledger.size} (h : a.pool.frameIndex pa = .ok i) :
    a.runAt pa = a.live.runFrom i := by
  unfold FramePool.frameIndex at h
  split_ifs at h with haligned hcontains
  obtain rfl := Except.ok.inj h
  rw [Address.isPageAligned, beq_iff_eq] at haligned
  rw [runAt, if_neg (not_not.mpr haligned), if_neg (contains_pool_iff.mp hcontains)]
  rfl

theorem runAt_of_frameIndex_error {e : LedgerError} (h : a.pool.frameIndex pa = .error e) :
    a.runAt pa = .error e := by
  unfold FramePool.frameIndex at h
  split_ifs at h with haligned hcontains
  · rw [Address.isPageAligned, beq_iff_eq] at haligned
    rw [contains_pool_iff, not_not] at hcontains
    rw [runAt, if_neg (not_not.mpr haligned), if_pos hcontains, Except.error.inj h]
  · rw [Address.isPageAligned, beq_iff_eq] at haligned
    rw [runAt, if_pos haligned, Except.error.inj h]

theorem findGap_pool {n : Nat} (hn : 0 < n) :
    a.pool.ledger.findGap n = if h : ∃ start, a.live.Gap start n then some (Nat.find h) else none := by
  split_ifs with h
  · exact (RunSet.findGap_ledger_eq_some_iff hn).mpr
      ⟨Nat.find_spec h, fun j hj => Nat.find_min h hj⟩
  · exact (RunSet.findGap_ledger_eq_none_iff hn).mpr (not_exists.mp h)

theorem claim_pool {start n : Nat} (hn : 0 < n) (h : a.live.Gap start n) :
    a.pool.claim start n = .ok { a with live := a.live.add start n hn h }.pool := by
  rw [FramePool.claim_eq_ok (RunSet.mark_ledger hn (Nat.le_of_lt a.frames_lt) h)]
  congr 1
  refine FramePool.eq_of_fields rfl rfl ?_ rfl
  simp only [pool, RunSet.used_add]
  omega

theorem allocate_pool (a : RunAllocator) (n : Nat) :
    a.pool.allocate n = (.ok (a.allocate n).1, (a.allocate n).2.pool) := by
  rcases Nat.eq_zero_or_pos n with rfl | hn
  · rfl
  unfold FramePool.allocate allocate
  rw [dif_pos hn, findGap_pool hn]
  split_ifs with hfew hgap hgap
  · -- a gap would need more free frames than there are
    obtain ⟨start, hstart⟩ := hgap
    have hle := hstart.add_used_le hn
    simp only [pool] at hfew
    omega
  · rfl
  · have hlt : Nat.find hgap < a.frames := by
      have := (Nat.find_spec hgap).1
      omega
    have haddr : a.base.add (Nat.find hgap * pageSize) = .ok (a.frameAddr _ hlt) :=
      Address.add_eq_ok_iff.mpr rfl
    simp only [claim_pool hn (Nat.find_spec hgap)]
    change (some <$> a.base.add (Nat.find hgap % 0x100000000 * pageSize), _) = _
    rw [a.mod_of_le_frames (Nat.le_of_lt hlt), haddr]
    rfl
  · rfl

theorem reclaimed_pool (a : RunAllocator) (pa : PAddr) :
    a.pool.reclaimed pa =
      (a.runAt pa).map fun r => ⟨if r.stamped = true then none else some r.len, r.len⟩ := by
  unfold FramePool.reclaimed
  cases h : a.pool.frameIndex pa with
  | error e =>
    rw [runAt_of_frameIndex_error h]
    rfl
  | ok i =>
    rw [runAt_of_frameIndex h]
    exact a.live.released_ledger i

theorem reclaim_pool_of_ok {r : Run} (hrun : a.runAt pa = .ok r) :
    a.pool.reclaim pa =
      a.pool.withLedger (a.live.remove r).ledger (by simp [pool]) := by
  unfold FramePool.reclaim
  cases h : a.pool.frameIndex pa with
  | error e => cases hrun.symm.trans (runAt_of_frameIndex_error h)
  | ok i =>
    have hclear := a.live.cleared_ledger i
    rw [← runAt_of_frameIndex h, hrun] at hclear
    exact FramePool.eq_of_fields rfl hclear rfl rfl

theorem reclaim_pool_of_error {e : LedgerError} (hrun : a.runAt pa = .error e) :
    a.pool.reclaim pa = a.pool := by
  unfold FramePool.reclaim
  cases h : a.pool.frameIndex pa with
  | error e => rfl
  | ok i =>
    have hclear := a.live.cleared_ledger i
    rw [← runAt_of_frameIndex h, hrun] at hclear
    exact FramePool.eq_of_fields rfl hclear rfl rfl

theorem ignores_pool_iff : a.pool.ignores pa = true ↔ pa = .null ∨ pa < a.base := by
  rw [FramePool.ignores, Bool.or_eq_true, decide_eq_true_eq, Address.isNull, beq_iff_eq,
    Address.ext_iff]
  rfl

theorem deallocate_pool (a : RunAllocator) (pa : PAddr) :
    a.pool.deallocate pa = ((a.deallocate pa).1, (a.deallocate pa).2.pool) := by
  unfold FramePool.deallocate deallocate
  simp only [ignores_pool_iff]
  by_cases hignore : pa = .null ∨ pa < a.base
  · rw [if_pos hignore, if_pos hignore]
  rw [if_neg hignore, if_neg hignore, reclaimed_pool]
  cases hrun : a.runAt pa with
  | error e =>
    rw [reclaim_pool_of_error hrun]
    rfl
  | ok r =>
    have hr := runAt_mem hrun
    have hused := RunSet.used_remove hr
    have hcount := RunSet.count_remove hr
    have hle := a.live.used_le
    -- the run that is taken back is one of those counted, so the count does not go below zero
    have hruns : (a.pool.reclaim pa).runs ≠ 0 := by
      rw [reclaim_pool_of_ok hrun]
      simp only [FramePool.withLedger, pool]
      omega
    simp only [Except.map, if_neg hruns]
    congr 1
    rw [reclaim_pool_of_ok hrun]
    refine FramePool.eq_of_fields rfl rfl ?_ ?_
    · simp only [pool]
      omega
    · simp only [FramePool.withLedger, pool]
      omega

theorem markFooter_pool (a : RunAllocator) (pa : PAddr) :
    a.pool.markFooter pa = (a.markFooter pa).1.map fun _ => (a.markFooter pa).2.pool := by
  unfold markFooter
  cases h : a.pool.frameIndex pa with
  | error e =>
    rw [runAt_of_frameIndex_error h, FramePool.markFooter, h]
    rfl
  | ok i =>
    -- the ledger decides, and it decides like the set of runs
    have hstamp := a.live.stampFooter_ledger i
    rw [runAt_of_frameIndex h, FramePool.markFooter_eq h]
    cases hrun : a.live.runFrom i with
    | error e =>
      rw [hrun] at hstamp
      split
      · rename_i l hl
        cases hl.symm.trans hstamp
      · rename_i e' he
        cases he.symm.trans hstamp
        rfl
    | ok r =>
      rw [hrun] at hstamp
      split
      · rename_i l hl
        obtain rfl : l = (a.live.stamp r).ledger := Except.ok.inj (hl.symm.trans hstamp)
        refine congrArg Except.ok (FramePool.eq_of_fields rfl rfl ?_ ?_)
        · simp only [pool, FramePool.withLedger, RunSet.used_stamp]
        · simp only [pool, FramePool.withLedger, RunSet.count_stamp]
      · rename_i e' he
        cases he.symm.trans hstamp

theorem runLength?_pool (a : RunAllocator) (pa : PAddr) :
    a.pool.runLength? pa = a.runLength? pa := by
  unfold FramePool.runLength? runLength?
  cases h : a.pool.frameIndex pa with
  | error e => rw [runAt_of_frameIndex_error h]
  | ok i =>
    -- only the first entry of a run holds a length, unless the stamp has replaced it
    have hget : a.pool.ledger.get i = a.live.entry i := a.live.get_ledger i
    rw [runAt_of_frameIndex h]
    simp only [hget]
    cases a.live.place i with
    | free hfrom hentry => rw [hfrom, hentry]
    | first r hr hstart hfrom hentry =>
      rw [hfrom, hentry]
      split_ifs <;> simp_all
    | inner position hfrom hentry => rw [hfrom, hentry]

theorem stats_pool (a : RunAllocator) : a.pool.stats = .ok a.stats := by
  have hle := a.live.used_le
  have hsize : a.pool.ledger.size = a.frames := a.live.size_ledger
  have hfree : a.pool.free = a.frames - a.live.used := rfl
  rw [FramePool.stats, hsize, hfree, if_pos (Nat.sub_le _ _), stats, Nat.sub_sub_self hle]
  rfl

theorem reply_pool (a : RunAllocator) (call : PoolCall) :
    a.pool.reply call = ((a.reply call).1, (a.reply call).2.pool) := by
  cases call with
  | allocate n => simp only [FramePool.reply, reply, allocate_pool]
  | deallocate pa => simp only [FramePool.reply, reply, deallocate_pool]
  | markFooter pa =>
    rw [FramePool.reply, markFooter_pool, reply, markFooter]
    cases a.runAt pa <;> rfl
  | runLength pa => simp only [FramePool.reply, reply, runLength?_pool]
  | stats => simp only [FramePool.reply, reply, stats_pool]

theorem serve_pool (a : RunAllocator) (calls : List PoolCall) :
    serve FramePool.reply a.pool calls =
      ((serve reply a calls).1, (serve reply a calls).2.pool) := by
  induction calls generalizing a with
  | nil => rfl
  | cons call calls ih => simp only [serve, reply_pool, ih]

/-- No request moves the frames. -/
theorem base_reply (a : RunAllocator) (call : PoolCall) : (a.reply call).2.base = a.base := by
  cases call with
  | allocate n =>
    simp only [reply, allocate]
    split_ifs <;> rfl
  | deallocate pa =>
    simp only [reply, deallocate]
    split_ifs
    · rfl
    · cases a.runAt pa <;> rfl
  | markFooter pa =>
    simp only [reply, markFooter]
    cases a.runAt pa <;> rfl
  | runLength pa => rfl
  | stats => rfl

theorem base_serve (a : RunAllocator) (calls : List PoolCall) :
    (serve reply a calls).2.base = a.base := by
  induction calls generalizing a with
  | nil => rfl
  | cons call calls ih => exact (ih _).trans (a.base_reply call)

end RunAllocator

/-- Over a ledger that is not too long a frame pool answers any requests like the allocator of disjoint
runs, also after a request that halted, and its ledger is always the one that records the live runs. -/
theorem FramePool.serve_eq_runAllocator {frames : Nat} {base : PAddr} {p : FramePool}
    (hframes : frames ≤ maxFrames) (h : FramePool.new frames base = .ok p) (calls : List PoolCall) :
    ∃ fits,
      (serve FramePool.reply p calls).1 =
        (serve RunAllocator.reply (.new base frames fits) calls).1 ∧
      (serve FramePool.reply p calls).2.ledger =
        (serve RunAllocator.reply (.new base frames fits) calls).2.live.ledger := by
  obtain ⟨-, fits, rfl⟩ := (FramePool.new_eq_ok_iff hframes).mp h
  rw [RunAllocator.serve_pool]
  exact ⟨fits, rfl, rfl⟩

theorem FramePool.serve_eq_runAllocator_three_frames :
    3 ≤ maxFrames ∧ ∃ p, FramePool.new 3 ⟨0x1000, by decide⟩ = .ok p ∧
      let calls : List PoolCall := [.allocate 2, .markFooter ⟨0x1000, by decide⟩,
        .runLength ⟨0x1000, by decide⟩, .deallocate ⟨0x2000, by decide⟩,
        .deallocate ⟨0x1000, by decide⟩, .deallocate ⟨0x1008, by decide⟩, .allocate 3, .stats]
      ∃ fits,
        (serve FramePool.reply p calls).1 =
          (serve RunAllocator.reply (.new ⟨0x1000, by decide⟩ 3 fits) calls).1 ∧
        (serve FramePool.reply p calls).2.ledger =
          (serve RunAllocator.reply (.new ⟨0x1000, by decide⟩ 3 fits) calls).2.live.ledger :=
  ⟨by decide, _, rfl, FramePool.serve_eq_runAllocator (by decide) rfl _⟩

namespace FramePool
variable {p : FramePool}

/-- The number of frames is cut to a word before it is checked, so a ledger may be far too long. A pool
with nothing left of that number is over at its base, … -/
theorem deallocate_base_of_overlong (hword : p.ledger.size % 0x100000000 = 0)
    (haligned : p.base.isPageAligned = true) (hnull : p.base.isNull = false) :
    (p.deallocate p.base).1 = .error (.ledgerCorrupt (.outsidePool p.base)) := by
  have hout : p.frameIndex p.base = .error (.outsidePool p.base) := by
    have hcontains : ¬ p.contains p.base = true := by simp [contains, limit, hword, Address.lt_def]
    rw [frameIndex, if_pos haligned, dif_neg hcontains]
  have hknown : ¬ p.ignores p.base = true := by simp [ignores, hnull, Address.lt_def]
  rw [deallocate, if_neg hknown, reclaimed, hout]
  rfl

/-- … and hands out its first frame, which it takes for somebody else's when it comes back. -/
theorem outsidePool_of_overlong {frames : Nat} {base : PAddr} (hpos : 0 < frames)
    (hword : frames % 0x100000000 = 0) (hnull : base.isNull = false)
    (h : new frames base = .ok p) :
    (p.allocate 1).1 = .ok (some base) ∧
      ((p.allocate 1).2.deallocate base).1 = .error (.ledgerCorrupt (.outsidePool base)) := by
  obtain ⟨haligned, rfl, hledger, hfree⟩ : base.isPageAligned = true ∧ p.base = base ∧
      p.ledger = .new frames ∧ p.free = frames := by
    unfold new at h
    split_ifs at h with haligned
    obtain rfl := Except.ok.inj h
    exact ⟨haligned, rfl, rfl, rfl⟩
  have hframes := p.sameFrames_allocate 1
  constructor
  · have hrun : p.ledger.FreeRun 0 1 := by
      intro k hk
      rw [hledger, Ledger.get?, Ledger.new, Array.getElem?_replicate, if_pos (by omega)]
    have hgap : p.ledger.findGap 1 = some 0 :=
      Ledger.findGap_eq_some_iff.mpr ⟨Nat.one_pos, hrun, fun j hj => absurd hj (Nat.not_lt_zero j)⟩
    have hmark := Ledger.mark_eq_of_freeRun Nat.one_pos (by decide) hrun
    rw [if_neg (by decide)] at hmark
    have hfew : ¬ (1 = 0 ∨ p.free < 1) := by omega
    have haddr : p.base.add (0 % 0x100000000 * pageSize) = .ok p.base :=
      Address.add_eq_ok_iff.mpr rfl
    rw [allocate, if_neg hfew]
    simp only [hgap, claim_eq_ok hmark]
    change some <$> p.base.add (0 % 0x100000000 * pageSize) = _
    rw [haddr]
    rfl
  · rw [← hframes.base]
    apply deallocate_base_of_overlong
    · rw [hframes.size, hledger, Ledger.size_new, hword]
    · rwa [hframes.base]
    · rwa [hframes.base]

end FramePool
end MipsVm
