import MipsVm.Proofs.FrameHistory

/-! Every frame of RAM has one owner: a run that is out, the ledger, or the memory that is left to hand
out. -/
namespace MipsVm
namespace FrameHistory
variable {first last : PAddr} {h : FrameHistory}

/-- The runs that are out lie on whole pages between `first` and `last`, share no frame with one
another, and are separated by the ledger: boot memory's lie below it and the pool's above it. -/
structure Exclusive (first last : PAddr) (h : FrameHistory) : Prop where
  aligned : ∀ r ∈ h.outstanding, pageSize ∣ r.start
  nonempty : ∀ r ∈ h.outstanding, 0 < r.frames
  inside : ∀ r ∈ h.outstanding,
    pagesFor first.val * pageSize ≤ r.start ∧ r.stop ≤ last.alignDown.val
  apart : h.outstanding.Pairwise FrameRange.Apart
  ledger_apart : ∀ l, h.ledger = some l → ∀ r ∈ h.outstanding, r.Apart l
  stolen_below : ∀ l, h.ledger = some l → ∀ r ∈ h.stolen, r.stop ≤ l.start
  pooled_above : ∀ l, h.ledger = some l → ∀ r ∈ h.pooled, l.stop ≤ r.start
  /-- Before there is a pool, nothing but boot memory has handed out frames. -/
  boot_phase : ∀ memory, h.machine.frames.value = .boot memory → h.ledger = none ∧ h.pooled = []
  /-- The frames of the ledger have room for an entry for each frame of the pool behind them, and what
  lies in them are the entries: nobody has written over any. -/
  pool_phase : ∀ pool, h.machine.frames.value = .pool pool → ∃ l, h.ledger = some l ∧
    l.start = h.machine.ledgerAt.val ∧ l.stop = pool.base.val ∧
    pool.ledger.size * entrySize ≤ l.frames * pageSize ∧
    pool.ledger.StoredAt h.machine.ledgerAt h.machine.ram

theorem le_start_of_floor {r : FrameRange} (hpos : 0 < r.frames)
    (hfloor : pageFrom first last.alignDown ≤ r.start) (hstop : r.stop ≤ last.alignDown.val) :
    pagesFor first.val * pageSize ≤ r.start := by
  -- with the ceiling below `first` no run would have room
  simp only [pageFrom, FrameRange.stop, pageSize] at *
  omega

theorem Pooling.start_le_base {a : RunAllocator} {l : FrameRange}
    (hp : h.Pooling first last a l) : l.start ≤ a.base.val := by
  rw [← hp.base_eq]
  exact Nat.le_add_right ..

theorem Pooling.base_le {a : RunAllocator} {l r : FrameRange} (hp : h.Pooling first last a l)
    (hr : r ∈ h.pooled) : a.base.val ≤ r.start := by
  obtain ⟨t, ht, rfl⟩ := hp.pooled_live r hr
  exact Nat.le_add_right ..

theorem Accounted.stolen_stop_le (hacc : h.Accounted first last) {r : FrameRange}
    (hr : r ∈ h.stolen) : r.stop ≤ last.alignDown.val := by
  rcases hacc.phase with ⟨memory, hs⟩ | ⟨a, l, hp⟩
  · calc
      r.stop ≤ memory.next.val := hs.stolen_le r hr
      _ ≤ memory.limit.val := hs.cursor_le
      _ = last.alignDown.val := by rw [hs.limit_eq]
  · calc
      r.stop ≤ l.start := hp.stolen_le r hr
      _ ≤ a.base.val := hp.start_le_base
      _ ≤ a.base.val + a.frames * pageSize := Nat.le_add_right ..
      _ ≤ last.alignDown.val := hp.limit_le

theorem Accounted.outstanding (hacc : h.Accounted first last) {r : FrameRange}
    (hr : r ∈ h.outstanding) : pageSize ∣ r.start ∧ 0 < r.frames ∧
      pageFrom first last.alignDown ≤ r.start ∧ r.stop ≤ last.alignDown.val := by
  rcases List.mem_append.mp hr with hstolen | hpooled
  · exact ⟨hacc.stolen_dvd r hstolen, hacc.stolen_nonempty r hstolen, hacc.floor_le r hstolen,
      hacc.stolen_stop_le hstolen⟩
  rcases hacc.phase with ⟨memory, hs⟩ | ⟨a, l, hp⟩
  · rw [hs.pooled_eq] at hpooled
    cases hpooled
  have hbase := hp.base_le hpooled
  obtain ⟨t, ht, rfl⟩ := hp.pooled_live r hpooled
  refine ⟨Nat.dvd_add hp.base_dvd (Nat.dvd_mul_left ..), a.live.nonempty t ht, ?_, ?_⟩
  · exact Nat.le_trans hp.floor_le (Nat.le_trans hp.start_le_base hbase)
  · exact Nat.le_trans (RunAllocator.stop_range_le ht) hp.limit_le

theorem Accounted.ledger_between (hacc : h.Accounted first last) {l : FrameRange}
    (hl : h.ledger = some l) :
    (∀ r ∈ h.stolen, r.stop ≤ l.start) ∧ ∀ r ∈ h.pooled, l.stop ≤ r.start := by
  rcases hacc.phase with ⟨memory, hs⟩ | ⟨a, l', hp⟩
  · cases hs.ledger_eq.symm.trans hl
  obtain rfl : l' = l := Option.some.inj (hp.ledger_eq.symm.trans hl)
  refine ⟨hp.stolen_le, ?_⟩
  intro r hr
  rw [hp.base_eq]
  exact hp.base_le hr

theorem Accounted.apart (hacc : h.Accounted first last) :
    h.outstanding.Pairwise FrameRange.Apart := by
  rcases hacc.phase with ⟨memory, hs⟩ | ⟨a, l, hp⟩
  · rw [FrameHistory.outstanding, hs.pooled_eq, List.append_nil]
    exact hacc.stolen_apart
  refine List.pairwise_append.mpr ⟨hacc.stolen_apart, hp.pooled_apart, ?_⟩
  intro r hr t ht
  obtain ⟨hstolen, hpooled⟩ := hacc.ledger_between hp.ledger_eq
  exact .inl (Nat.le_trans (hstolen r hr)
    (Nat.le_trans (Nat.le_add_right ..) (hpooled t ht)))

theorem Accounted.exclusive (hacc : h.Accounted first last) : h.Exclusive first last := by
  constructor
  case aligned => exact fun r hr => (hacc.outstanding hr).1
  case nonempty => exact fun r hr => (hacc.outstanding hr).2.1
  case inside =>
    intro r hr
    obtain ⟨-, hpos, hfloor, hstop⟩ := hacc.outstanding hr
    exact ⟨le_start_of_floor hpos hfloor hstop, hstop⟩
  case apart => exact hacc.apart
  case ledger_apart =>
    intro l hl r hr
    obtain ⟨hstolen, hpooled⟩ := hacc.ledger_between hl
    rcases List.mem_append.mp hr with hmem | hmem
    · exact .inl (hstolen r hmem)
    · exact .inr (hpooled r hmem)
  case stolen_below => exact fun l hl => (hacc.ledger_between hl).1
  case pooled_above => exact fun l hl => (hacc.ledger_between hl).2
  case boot_phase =>
    intro memory hsource
    rcases hacc.phase with ⟨memory', hs⟩ | ⟨a, l, hp⟩
    · exact ⟨hs.ledger_eq, hs.pooled_eq⟩
    · cases hsource.symm.trans hp.source_eq
  case pool_phase =>
    intro pool hsource
    rcases hacc.phase with ⟨memory, hs⟩ | ⟨a, l, hp⟩
    · cases hsource.symm.trans hs.source_eq
    · obtain rfl : pool = a.pool := FrameSource.pool.inj (hsource.symm.trans hp.source_eq)
      have hsize : a.pool.ledger.size = a.frames := a.live.size_ledger
      rw [hsize]
      exact ⟨l, hp.ledger_eq, hp.ledgerAt_eq.symm, hp.base_eq, hp.entries_fit,
        hp.stored a.pool hp.source_eq⟩

theorem Accounted.storesLedger (hacc : h.Accounted first last) : h.machine.StoresLedger := by
  intro pool hsource
  obtain ⟨-, -, -, -, -, hstored⟩ := hacc.exclusive.pool_phase pool hsource
  exact hstored

/-- The entries lie in the frames that the split gave to the ledger, so apart from all that is out. -/
theorem Accounted.not_inLedger (hacc : h.Accounted first last) {r : FrameRange}
    (hr : r ∈ h.outstanding) {i : Nat} (hi : r.Covers i) : ¬ h.machine.InLedger i := by
  rcases hacc.phase with ⟨memory, hs⟩ | ⟨a, l, hp⟩
  · exact Machine.not_inLedger_of_boot hs.source_eq i
  · intro hin
    have hlt : i < a.base.val := hp.ledgerBelow.lt_base hp.source_eq hin
    rw [← hp.base_eq] at hlt
    have hcovers : l.Covers i := ⟨hp.ledgerAt_eq ▸ hin.1, hlt⟩
    exact (hacc.exclusive.ledger_apart l hp.ledger_eq r hr).not_covers hi hcovers

/-- Whatever is called, in whatever order and with whatever arguments, and whichever calls halt. -/
theorem exclusive_of_calls (ram : Ram) (first last : PAddr) (victim : Nat → Fin tlbSlots)
    (calls : List FrameCall) :
    ((start (.new ram first last victim)).run calls).Exclusive first last :=
  ((accounted_start ram first last victim).run calls).exclusive

/-- One frame of the ledger lies between the run from boot memory, which nothing takes back, and the
two from the pool. -/
example :
    ((start (.new ⟨.replicate 6 .zero⟩ ⟨0x800, by decide⟩ ⟨0x6000, by decide⟩ fun _ => 0)).run
      [.allocFrames 1, .bootstrap, .allocKernelPages 2, .allocFrames 1,
        .freeKernelPages ⟨0x80003000, by decide⟩, .freeFrames ⟨0x1000, by decide⟩]).outstanding =
      [⟨0x1000, 1⟩, ⟨0x5000, 1⟩] := by
  decide +kernel

end FrameHistory
end MipsVm
