import MipsVm.Proofs.FrameAccounting

/-! A write that goes past the frame pool and hits an entry of its ledger. In a ledger without footers it
is always found by the audit, and by the release of the run that it damages. -/
namespace MipsVm
namespace Ledger
variable {l m : Ledger} {i : Nat}

theorem get?_overwrite_one (l : Ledger) (i : Nat) (e : Entry) (hi : i < l.size) (j : Nat) :
    (l.overwrite i 1 fun _ => e).get? j = if j = i then some e else l.get? j := by
  rw [get?_overwrite]
  congr 1
  exact propext (by omega)

theorem countP_overwrite_one {old : Entry} (P : Entry → Bool) (e : Entry) (h : l.get? i = some old) :
    (l.overwrite i 1 fun _ => e).entries.countP P + (if P old then 1 else 0) =
      l.entries.countP P + if P e then 1 else 0 := by
  have hi := lt_size_of_get? h
  have hset : (l.overwrite i 1 fun _ => e).entries = l.entries.set i e hi := by
    simp [overwrite, Array.setIfInBounds, hi]
  have hentry := getElem_of_get? h hi
  rw [hset, Array.countP_set, hentry]
  by_cases hP : P old = true
  · -- the entry that goes is one of those counted
    have hpos : 0 < l.entries.countP P :=
      Array.countP_pos_iff.mpr ⟨old, hentry ▸ Array.getElem_mem hi, hP⟩
    simp only [if_pos hP]
    omega
  · simp only [if_neg hP]
    omega

/-- A write that keeps the number of free entries neither frees the entry nor takes it. -/
theorem free_iff_of_count_eq {old e : Entry} (h : l.get? i = some old)
    (hcount : (l.overwrite i 1 fun _ => e).entries.count .free = l.entries.count .free) :
    old = .free ↔ e = .free := by
  have hwritten := countP_overwrite_one (· == Entry.free) e h
  rw [← Array.count_eq_countP, ← Array.count_eq_countP, hcount] at hwritten
  have hsame := Nat.add_left_cancel hwritten
  simp only [beq_iff_eq] at hsame
  split_ifs at hsame with hl hr hr <;> simp only [hl, hr]

/-- In a ledger that passes its audit each recorded length is the length of the chain. -/
theorem spans_of_audit {c : Census} {n : Nat} (h : l.audit = .ok c)
    (hi : l.get? i = some (.start n)) : l.Spans i n := by
  obtain ⟨blocks, hreads, -⟩ := reads_of_audit h
  obtain ⟨s, b, here, hle, hlt⟩ := hreads.exists_holds (Nat.zero_le i) (lt_size_of_get? hi)
  -- behind the first frame of a block stand continuations, so the block starts here
  obtain rfl : s = i := by
    by_contra hne
    have hchain := here.chain (k := i - s) (by omega) (by omega)
    rw [Nat.add_sub_cancel' hle, hi] at hchain
    cases hchain
  have hfirst := Option.some.inj (here.first.symm.trans hi)
  cases b with
  | free => cases hfirst
  | footer tail => cases hfirst
  | run tail =>
    obtain rfl := Entry.start.inj hfirst
    exact here.spans rfl

/-- And each continuation belongs to a run that starts in front of it. -/
theorem run_of_continuation {c : Census} {position : Nat} (h : l.audit = .ok c)
    (hi : l.get? i = some (.continuation position)) :
    ∃ s n, s < i ∧ i < s + n ∧ (l.get? s = some .footer ∨ l.get? s = some (.start n)) := by
  obtain ⟨blocks, hreads, -⟩ := reads_of_audit h
  obtain ⟨s, b, here, hle, hlt⟩ := hreads.exists_holds (Nat.zero_le i) (lt_size_of_get? hi)
  have hne : s ≠ i := by
    rintro rfl
    exact b.first_ne_continuation position (Option.some.inj (here.first.symm.trans hi))
  refine ⟨s, b.len, by omega, hlt, ?_⟩
  have hfirst := here.first
  cases b with
  | free =>
    simp only [Block.len, Block.tail] at hlt
    omega
  | run tail => exact .inr hfirst
  | footer tail => exact .inl hfirst

/-- Two ledgers that pass their audits, the one without footers, do not differ in a single entry, unless
a frame is free in one of them alone or a footer stands over a length. -/
theorem eq_of_audits {c d : Census} {old e : Entry} (hl : l.audit = .ok c) (hm : m.audit = .ok d)
    (hold : l.get? i = some old) (he : m.get? i = some e) (hsame : ∀ j, j ≠ i → m.get? j = l.get? j)
    (hfooter : ∀ j, l.get? j ≠ some .footer) (hfree : old = .free ↔ e = .free)
    (hmask : e = .footer → ∀ n, old ≠ .start n) : e = old := by
  -- a run that reaches over the entry has one length in both ledgers, and so the same chain
  have hinside (s n : Nat) (hsi : s < i) (hin : i < s + n)
      (hs : l.get? s = some .footer ∨ l.get? s = some (.start n)) : e = old := by
    have hstart := hs.resolve_left (hfooter s)
    have hchain := (spans_of_audit hl hstart).chain (i - s) (by omega) (by omega)
    have hstart' := (hsame s (Nat.ne_of_lt hsi)).trans hstart
    have hchain' := (spans_of_audit hm hstart').chain (i - s) (by omega) (by omega)
    rw [Nat.add_sub_cancel' (Nat.le_of_lt hsi)] at hchain hchain'
    exact Option.some.inj (he.symm.trans (hchain'.trans (hchain.symm.trans hold)))
  cases old with
  | free => exact hfree.mp rfl
  | footer => exact absurd hold (hfooter i)
  | continuation position =>
    obtain ⟨s, n, hsi, hin, hs⟩ := run_of_continuation hl hold
    exact hinside s n hsi hin hs
  | start n =>
    cases e with
    | free => exact (hfree.mpr rfl).symm
    | footer => exact absurd rfl (hmask rfl n)
    | continuation position =>
      obtain ⟨s, n, hsi, hin, hs⟩ := run_of_continuation hm he
      rw [hsame s (Nat.ne_of_lt hsi)] at hs
      exact hinside s n hsi hin hs
    | start n' =>
      -- the chain behind the entry is untouched
      have hkept := (spans_of_audit hl hold).congr fun j hj => hsame j (Nat.ne_of_gt hj)
      rw [hkept.unique (spans_of_audit hm he)]

/-- A release is answered at a footer, or at a recorded length that is the length of the chain. -/
theorem get?_of_released {start : Fin l.size} {r : Released} (h : l.released start = .ok r) :
    l.get? start = some .footer ∨ ∃ n, l.get? start = some (.start n) ∧ l.Spans start n := by
  have hget := l.get?_val start
  unfold released at h
  cases hentry : l.get start with
  | free =>
    rw [hentry] at h
    cases h
  | continuation position =>
    rw [hentry] at h
    cases h
  | footer => exact .inl (hget.trans (congrArg some hentry))
  | start declared =>
    simp only [hentry] at h
    split_ifs at h with hlen
    refine .inr ⟨declared, hget.trans (congrArg some hentry), ?_⟩
    rw [hlen]
    exact l.spans_runLength start

/-- A run that a write hits, or lengthens, is not released. -/
theorem released_of_hit {e : Entry} {s len : Nat} (hstart : l.get? s = some (.start len))
    (hspans : l.Spans s len) (hwritten : ∀ j, m.get? j = if j = i then some e else l.get? j)
    (hne : l.get? i ≠ some e) (hmask : e = .footer → ∀ n, l.get? i ≠ some (.start n))
    (hhit : (s ≤ i ∧ i < s + len) ∨ (i = s + len ∧ e = .continuation (len + 1)))
    {f : Fin m.size} (hf : f.val = s) : ∃ cause, m.released f = .error cause := by
  subst hf
  cases hreleased : m.released f with
  | error cause => exact ⟨cause, rfl⟩
  | ok r =>
    have hget := hwritten f
    by_cases hfi : f.val = i
    · -- the first frame was hit: the chain behind it is as it was
      rw [if_pos hfi] at hget
      rcases get?_of_released hreleased with hfooter | ⟨n, hn, hspans'⟩
      · rw [hfi] at hstart
        exact absurd hstart (hmask (Option.some.inj (hget.symm.trans hfooter)) len)
      · have hkept := hspans.congr fun j hj => (hwritten j).trans (if_neg (by omega))
        rw [← hkept.unique hspans', hget] at hn
        rw [hfi, ← hn] at hstart
        exact absurd hstart hne
    rw [if_neg hfi, hstart] at hget
    rcases get?_of_released hreleased with hfooter | ⟨n, hn, hspans'⟩
    · cases hget.symm.trans hfooter
    obtain rfl := Entry.start.inj (Option.some.inj (hget.symm.trans hn))
    rcases hhit with ⟨hle, hlt⟩ | ⟨hend, hcontinues⟩
    · -- a later frame was hit: the chain breaks off there
      have hchain := hspans.chain (i - f) (by omega) (by omega)
      have hchain' := hspans'.chain (i - f) (by omega) (by omega)
      rw [Nat.add_sub_cancel' hle] at hchain hchain'
      rw [hwritten, if_pos rfl] at hchain'
      exact absurd (hchain.trans hchain'.symm) hne
    · -- the frame behind the run was hit: the chain goes on
      have hstops := hspans'.stops
      rw [hwritten, if_pos hend.symm, hcontinues] at hstops
      exact absurd rfl hstops

end Ledger

/-- What shows after the write of `e` over ledger entry `i` of the pool, which makes it `q`: the audit
fails, and so does the release of the run that the write hits or lengthens. -/
structure FramePool.Betrays (p : FramePool) (i : Nat) (e : Entry) (q : FramePool) : Prop where
  audit : ∃ cause, q.audit = .error cause
  release : ∀ (pa : PAddr) (s len : Nat), pa.val = p.base.val + s * pageSize →
    p.runLength? pa = some len →
      (s ≤ i ∧ i < s + len) ∨ (i = s + len ∧ e = .continuation (len + 1)) →
        ∃ cause, (q.deallocate pa).1 = .error (.ledgerCorrupt cause)

namespace FramePool
variable {p q : FramePool} {pa : PAddr} {i : Nat} {e : Entry}

theorem strayWrite?_eq_some_iff : p.strayWrite? i e = some q ↔
    i < p.ledger.size ∧ q = p.withLedger (p.ledger.overwrite i 1 fun _ => e) (by simp) := by
  unfold strayWrite?
  split_ifs with hi
  · rw [Option.some_inj, eq_comm, and_iff_right hi]
  · simp [hi]

theorem audit_of_ok {s : FrameStats} (h : p.audit = .ok s) :
    ∃ c, p.ledger.audit = .ok c ∧ c.free = p.free ∧ s = ⟨p.ledger.size, c.free, c.used, c.runs⟩ := by
  unfold audit at h
  cases hc : p.ledger.audit with
  | error cause =>
    rw [hc] at h
    cases h
  | ok c =>
    simp only [hc] at h
    by_cases hfree : c.free = p.free
    · have hs : Except.ok _ = Except.ok s := (if_pos hfree).symm.trans h
      exact ⟨c, rfl, hfree, (Except.ok.inj hs).symm⟩
    · cases (if_neg hfree).symm.trans h

theorem frameIndex_withLedger {l : Ledger} (h : l.size = p.ledger.size) {f : Fin p.ledger.size}
    (hf : p.frameIndex pa = .ok f) : (p.withLedger l h).frameIndex pa = .ok (f.cast h.symm) := by
  obtain ⟨haligned, hcontains, hval⟩ := frameIndex_eq_ok_iff.mp hf
  refine frameIndex_eq_ok_iff.mpr ⟨haligned, ?_, hval⟩
  rw [contains_iff] at hcontains ⊢
  rwa [← h] at hcontains

theorem runLength?_eq_some {len : Nat} (h : p.runLength? pa = some len) :
    ∃ f, p.frameIndex pa = .ok f ∧ p.ledger.get? f = some (.start len) := by
  unfold runLength? at h
  cases hf : p.frameIndex pa with
  | error cause =>
    rw [hf] at h
    cases h
  | ok f =>
    have hget := p.ledger.get?_val f
    rw [hf] at h
    cases hentry : p.ledger.get f with
    | start n =>
      simp only [hentry, Option.some_inj] at h
      rw [hentry, h] at hget
      exact ⟨f, rfl, hget⟩
    | free => simp only [hentry, reduceCtorEq] at h
    | continuation position => simp only [hentry, reduceCtorEq] at h
    | footer => simp only [hentry, reduceCtorEq] at h

theorem deallocate_of_reclaimed_error {cause : LedgerError} (hignores : p.ignores pa = false)
    (h : p.reclaimed pa = .error cause) :
    p.deallocate pa = (.error (.ledgerCorrupt cause), p.reclaim pa) := by
  simp only [deallocate, hignores, h, Bool.false_eq_true, if_false]

theorem deallocate_of_released_error {f : Fin p.ledger.size} {cause : LedgerError}
    (hbase : p.base.isNull = false) (hf : p.frameIndex pa = .ok f)
    (h : p.ledger.released f = .error cause) :
    (p.deallocate pa).1 = .error (.ledgerCorrupt cause) := by
  obtain ⟨-, hcontains, -⟩ := frameIndex_eq_ok_iff.mp hf
  -- an address in the pool is neither null nor below the base
  have hignores : p.ignores pa = false := by
    have hin := contains_iff.mp hcontains
    simp only [ignores, Address.isNull, Address.lt_def, beq_eq_false_iff_ne, Bool.or_eq_false_iff,
      decide_eq_false_iff_not] at hbase ⊢
    omega
  have hreclaimed : p.reclaimed pa = .error cause := by
    simp only [reclaimed, hf]
    exact h
  rw [deallocate_of_reclaimed_error hignores hreclaimed]

end FramePool

namespace RunAllocator
variable {a : RunAllocator} {q : FramePool} {i : Nat} {e : Entry}

section betrayed
variable (hbase : a.base.isNull = false) (hfooter : ∀ j, a.pool.ledger.get? j ≠ some .footer)
  (hwrite : a.pool.strayWrite? i e = some q) (hne : a.pool.ledger.get? i ≠ some e)
  (hmask : e = .footer → ∀ n, a.pool.ledger.get? i ≠ some (.start n))
include hfooter hwrite hne hmask

theorem audit_betrays : ∃ cause, q.audit = .error cause := by
  obtain ⟨hi, rfl⟩ := FramePool.strayWrite?_eq_some_iff.mp hwrite
  cases haudit : FramePool.audit _ with
  | error cause => exact ⟨cause, rfl⟩
  | ok s =>
    obtain ⟨c, hc, hcfree, -⟩ := FramePool.audit_of_ok a.audit_pool
    obtain ⟨d, hd, hdfree, -⟩ := FramePool.audit_of_ok haudit
    have hold := Ledger.get?_eq_getElem hi
    have hwritten := Ledger.get?_overwrite_one a.pool.ledger i e hi
    -- the counter stayed, so with another number of free frames one of the audits had failed
    have hcount : (a.pool.ledger.overwrite i 1 fun _ => e).entries.count .free =
        a.pool.ledger.entries.count .free :=
      calc
        _ = d.free := (Ledger.audit_counts hd).1.symm
        _ = a.pool.free := hdfree
        _ = c.free := hcfree.symm
        _ = _ := (Ledger.audit_counts hc).1
    have heq : e = a.pool.ledger.entries[i] := by
      apply Ledger.eq_of_audits hc hd hold ((hwritten i).trans (if_pos rfl))
      · exact fun j hj => (hwritten j).trans (if_neg hj)
      · exact hfooter
      · exact Ledger.free_iff_of_count_eq hold hcount
      · intro he n hn
        exact hmask he n (hold.trans (congrArg some hn))
    rw [← heq] at hold
    exact absurd hold hne

include hbase in
theorem pool_betrays : a.pool.Betrays i e q := by
  constructor
  case audit => exact audit_betrays hfooter hwrite hne hmask
  case release =>
    intro pa s len hpa hlen hhit
    obtain ⟨hi, rfl⟩ := FramePool.strayWrite?_eq_some_iff.mp hwrite
    obtain ⟨c, hc, -, -⟩ := FramePool.audit_of_ok a.audit_pool
    obtain ⟨f, hf, hstart⟩ := FramePool.runLength?_eq_some hlen
    have hwritten := Ledger.get?_overwrite_one a.pool.ledger i e hi
    have hsize := a.pool.ledger.size_overwrite i 1 fun _ => e
    have hspans := Ledger.spans_of_audit hc hstart
    obtain rfl : f.val = s := by
      have hval := (FramePool.frameIndex_eq_ok_iff.mp hf).2.2
      rw [hval, hpa, Nat.add_sub_cancel_left, Nat.mul_div_cancel _ (by decide)]
    have hf' := FramePool.frameIndex_withLedger hsize hf
    obtain ⟨cause, hreleased⟩ := Ledger.released_of_hit hstart hspans hwritten hne hmask hhit
      (Fin.val_cast hsize.symm f)
    exact ⟨cause, FramePool.deallocate_of_released_error hbase hf' hreleased⟩

end betrayed

end RunAllocator

/-- Where no run carries a footer, every write that changes an entry of a ledger that is not too long is
betrayed, but for the footer over a recorded length, which is how a thread stack is marked. -/
theorem FramePool.stray_write_betrayed {frames : Nat} {base : PAddr} {fresh p q : FramePool}
    (hframes : frames ≤ maxFrames) (h : FramePool.new frames base = .ok fresh)
    (hbase : base.isNull = false) (calls : List PoolCall)
    (hreached : (serve FramePool.reply fresh calls).2 = p)
    (hfooter : ∀ j, p.ledger.get? j ≠ some .footer) {i : Nat} {e : Entry}
    (hwrite : p.strayWrite? i e = some q) (hne : p.ledger.get? i ≠ some e)
    (hmask : e = .footer → ∀ n, p.ledger.get? i ≠ some (.start n)) : p.Betrays i e q := by
  obtain ⟨-, fits, rfl⟩ := (FramePool.new_eq_ok_iff hframes).mp h
  rw [RunAllocator.serve_pool] at hreached
  subst hreached
  have hbase' := RunAllocator.base_serve (.new base frames fits) calls
  exact RunAllocator.pool_betrays (by rw [hbase']; exact hbase) hfooter hwrite hne hmask

theorem FramePool.stray_write_betrayed_behind_run :
    4 ≤ maxFrames ∧ ∃ fresh p q, FramePool.new 4 ⟨0x100000, by decide⟩ = .ok fresh ∧
      (serve FramePool.reply fresh [.allocate 2, .allocate 1]).2 = p ∧
      p.ledger.entries = #[.start 2, .continuation 2, .start 1, .free] ∧
      p.strayWrite? 2 (.continuation 3) = some q ∧ p.Betrays 2 (.continuation 3) q := by
  have hnew : FramePool.new 4 ⟨0x100000, by decide⟩ =
      .ok (RunAllocator.new ⟨0x100000, by decide⟩ 4 (by decide)).pool :=
    (FramePool.new_eq_ok_iff (by decide)).mpr ⟨rfl, by decide, rfl⟩
  have hentries : (serve FramePool.reply (RunAllocator.new ⟨0x100000, by decide⟩ 4 (by decide)).pool
      [.allocate 2, .allocate 1]).2.ledger.entries =
        #[.start 2, .continuation 2, .start 1, .free] := by
    decide +kernel
  have hwrite := FramePool.strayWrite?_eq_some_iff (e := .continuation 3).mpr
    ⟨show 2 < Array.size _ by rw [hentries]; decide, rfl⟩
  refine ⟨by decide, _, _, _, hnew, rfl, hentries, hwrite,
    FramePool.stray_write_betrayed (by decide) hnew rfl _ rfl ?_ hwrite ?_ nofun⟩
  · intro j hj
    have hmem := Array.mem_of_getElem? hj
    rw [hentries] at hmem
    simp at hmem
  · rw [Ledger.get?, hentries]
    decide

end MipsVm
