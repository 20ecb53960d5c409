import MipsVm.Proofs.LedgerGrammar
import MipsVm.Proofs.RunAllocator

/-! The counters of the frame pool and its ledger, counted afresh, agree in every state that requests
lead to, so the audit passes and only a bad address is ever reported. -/
namespace MipsVm

/-- Whether the complaint is about an address that no live run starts at, rather than about damage
to the ledger. -/
def LedgerError.IsBadAddress : LedgerError → Prop
  | .doubleFree _ | .notRunStart _ | .outsidePool _ | .unaligned _ => True
  | .lengthMismatch .. | .strayContinuation _ | .truncatedRun .. | .freeCountMismatch .. => False

/-- Counters, ledger and audit of the pool agree, no counter leaves the range of the pool, and
requests fail for bad addresses alone, with nothing changed. -/
structure FramePool.Conserved (p : FramePool) : Prop where
  audit_eq_stats : ∃ stats, p.audit = .ok stats ∧ p.stats = .ok stats ∧
    stats.free + stats.used = stats.total
  free_eq_count : p.free = p.ledger.entries.count .free
  runs_eq_count : p.runs = p.ledger.entries.countP Entry.opensRun
  free_add_runs_le : p.free + p.runs ≤ p.ledger.size
  size_lt : p.ledger.size < maxFrames
  allocate_ok : ∀ n, ∃ answer, (p.allocate n).1 = .ok answer
  allocate_free : ∀ n pa, (p.allocate n).1 = .ok (some pa) → (p.allocate n).2.free + n = p.free
  deallocate_error : ∀ pa halt, (p.deallocate pa).1 = .error halt →
    (∃ cause : LedgerError, cause.IsBadAddress ∧ halt = .ledgerCorrupt cause) ∧
      (p.deallocate pa).2 = p
  markFooter_error : ∀ pa cause, p.markFooter pa = .error cause → cause.IsBadAddress

namespace RunAllocator
variable {a : RunAllocator} {pa : PAddr}

theorem isBadAddress_of_runAt {e : LedgerError} (h : a.runAt pa = .error e) : e.IsBadAddress := by
  unfold runAt at h
  split_ifs at h
  · rw [← Except.error.inj h]
    trivial
  · rw [← Except.error.inj h]
    trivial
  · cases a.live.place ((pa.val - a.base.val) / pageSize) with
    | free hfrom hentry =>
      rw [← Except.error.inj (hfrom.symm.trans h)]
      trivial
    | first r hr hstart hfrom hentry => cases hfrom.symm.trans h
    | inner position hfrom hentry =>
      rw [← Except.error.inj (hfrom.symm.trans h)]
      trivial

theorem audit_pool (a : RunAllocator) : a.pool.audit = .ok a.stats := by
  have haudit : a.pool.ledger.audit = .ok ⟨a.frames - a.live.used, a.live.used, a.live.count⟩ :=
    a.live.audit_ledger
  have hsize : a.pool.ledger.size = a.frames := a.live.size_ledger
  have hfree : a.pool.free = a.frames - a.live.used := rfl
  simp only [FramePool.audit, haudit, hfree, hsize]
  exact if_pos rfl

/-- The pool of any set of live runs is conserved: it is the ledger of intervals. -/
theorem conserved_pool (a : RunAllocator) : a.pool.Conserved := by
  have hsize : a.pool.ledger.size = a.frames := a.live.size_ledger
  have hle := a.live.used_le
  have hcount := a.live.count_le_used
  obtain ⟨hfree, hruns, -⟩ := Ledger.audit_counts a.live.audit_ledger
  constructor
  case audit_eq_stats =>
    exact ⟨a.stats, a.audit_pool, a.stats_pool, Nat.sub_add_cancel hle⟩
  case free_eq_count => exact hfree
  case runs_eq_count => exact hruns
  case free_add_runs_le =>
    rw [hsize]
    simp only [pool]
    omega
  case size_lt =>
    rw [hsize]
    exact a.frames_lt
  case allocate_ok =>
    -- the allocator of runs has no way to fail
    intro n
    exact ⟨_, congrArg Prod.fst (a.allocate_pool n)⟩
  case allocate_free =>
    intro n pa h
    rw [allocate_pool] at h ⊢
    obtain ⟨start, hn, hgap, -, hnext⟩ := allocate_some (Except.ok.inj h)
    have hfit := hgap.add_used_le hn
    rw [hnext]
    simp only [pool, RunSet.used_add]
    omega
  case deallocate_error =>
    intro pa halt h
    rw [deallocate_pool] at h ⊢
    obtain ⟨⟨e, hrun, hhalt⟩, hsame⟩ := deallocate_of_error h
    exact ⟨⟨e, isBadAddress_of_runAt hrun, hhalt⟩, by rw [hsame]⟩
  case markFooter_error =>
    intro pa cause h
    rw [markFooter_pool] at h
    cases hmark : (a.markFooter pa).1 with
    | error e =>
      rw [hmark] at h
      rw [← Except.error.inj h]
      exact isBadAddress_of_runAt (markFooter_of_error hmark).1
    | ok marked =>
      rw [hmark] at h
      cases h

end RunAllocator

/-- Whatever is asked of a new pool over a ledger that is not too long, and however often a request halts,
the pool stays conserved. -/
theorem FramePool.conserved_serve {frames : Nat} {base : PAddr} {p : FramePool}
    (hframes : frames ≤ maxFrames) (h : FramePool.new frames base = .ok p) (calls : List PoolCall) :
    (serve FramePool.reply p calls).2.Conserved := by
  obtain ⟨-, fits, rfl⟩ := (FramePool.new_eq_ok_iff hframes).mp h
  rw [RunAllocator.serve_pool]
  exact RunAllocator.conserved_pool _

theorem FramePool.conserved_serve_null_base :
    2 ≤ maxFrames ∧ ∃ p, FramePool.new 2 ⟨0, by decide⟩ = .ok p ∧
      (serve FramePool.reply p [.allocate 2, .deallocate .null, .deallocate ⟨0x1000, by decide⟩,
        .markFooter .null]).2.Conserved := by
  have hp : FramePool.new 2 ⟨0, by decide⟩ =
      .ok (RunAllocator.new ⟨0, by decide⟩ 2 (by decide)).pool :=
    (FramePool.new_eq_ok_iff (by decide)).mpr ⟨rfl, by decide, rfl⟩
  exact ⟨by decide, _, hp, FramePool.conserved_serve (by decide) hp _⟩

end MipsVm
