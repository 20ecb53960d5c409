import MipsVm.Proofs.FrameHoldings

/-! The step from boot memory to the pool: where ledger and pool come to lie in the frames that are
left, and the one case in which there is nothing left to put them into. -/
namespace MipsVm

/-- Number of whole frames from `lo` up to `hi`. -/
def framesBetween (lo hi : PAddr) : Nat := (hi.val - lo.val) / pageSize

/-- A pool that was carved out of the frames between `start` and `stop`: the lowest `ledger` of them
hold the entries of the others, which are all free. -/
structure FramePool.CarvedFrom (p : FramePool) (start stop : PAddr) (ledger : Nat) : Prop where
  ledger_eq : ledgerFramesFor (framesBetween start stop) = .ok ledger
  ledger_le : ledger ≤ framesBetween start stop
  base_val : p.base.val = start.val + ledger * pageSize
  base_aligned : p.base.isPageAligned = true
  limit_eq : p.limit = stop
  all_free : p.ledger = .new (framesBetween start stop - ledger)
  stats_eq : p.stats =
    .ok ⟨framesBetween start stop - ledger, framesBetween start stop - ledger, 0, 0⟩
  entries_fit : (framesBetween start stop - ledger) * entrySize ≤ ledger * pageSize

/-- Wherever there is a frame, the ledger gets one, so that the pool does not begin at address 0. -/
theorem FramePool.CarvedFrom.base_ne_null {p : FramePool} {start stop : PAddr} {ledger : Nat}
    (h : p.CarvedFrom start stop ledger) (hroom : 0 < framesBetween start stop) :
    p.base ≠ .null := by
  intro hnull
  have hzero : p.base.val = 0 := congrArg Address.val hnull
  have hbase := h.base_val
  have hfit := h.entries_fit
  simp only [entrySize, pageSize] at hbase hfit
  omega

theorem FramePool.CarvedFrom.allocate_of_empty {p : FramePool} {start stop : PAddr} {ledger : Nat}
    (h : p.CarvedFrom start stop ledger) (hempty : framesBetween start stop = 0) (n : Nat) :
    p.allocate n = (.ok none, p) := by
  have hfree : p.free = 0 := by
    have hstats := h.stats_eq
    unfold FramePool.stats at hstats
    split_ifs at hstats
    have hcount := congrArg FrameStats.free (Except.ok.inj hstats)
    simpa only [hempty, Nat.zero_sub] using hcount
  unfold FramePool.allocate
  rw [if_pos]
  omega

/-- Frames that begin at the end of RAM are none, and end there. -/
theorem empty_at_end_iff {ram : Ram} {start last : PAddr} (hdvd : pageSize ∣ start.val)
    (hle : start ≤ last.alignDown) (hram : last.val ≤ ram.size) :
    framesBetween start last.alignDown = 0 ∧ last.val = ram.size ↔ ram.size ≤ start.val := by
  have hpages : pageSize ∣ ram.size := Nat.dvd_mul_left ..
  have hdown : last.alignDown.val ≤ last.val := last.alignDown_le
  rw [Address.le_def] at hle
  simp only [framesBetween, Address.alignDown, pageSize] at *
  omega

namespace PoolLayout
variable {l : PoolLayout} {lo hi first : PAddr}

theorem Splits.framesBetween_eq (h : l.Splits lo hi) :
    framesBetween l.lo l.hi = l.ledgerFrames + l.managed := by
  have hbase := h.base_val
  have hlimit := h.limit_eq
  simp only [framesBetween, pageSize] at *
  omega

theorem Splits.carvedFrom {p : FramePool} (h : l.Splits lo hi) (hp : l.pool = .ok p) :
    p.CarvedFrom l.lo l.hi l.ledgerFrames := by
  have hbetween := h.framesBetween_eq
  have hmanaged : framesBetween l.lo l.hi - l.ledgerFrames = l.managed := by omega
  obtain ⟨haligned, fits, rfl⟩ := (FramePool.new_eq_ok_iff h.managed_le).mp hp
  constructor
  case ledger_eq => exact h.ledgerFrames_eq
  case ledger_le =>
    rw [hbetween]
    exact Nat.le_add_right ..
  case base_val => exact h.base_val
  case base_aligned => exact haligned
  case limit_eq =>
    apply Address.ext
    rw [← h.limit_eq]
    exact RunAllocator.limit_pool _
  case all_free =>
    rw [hmanaged]
    exact RunSet.ledger_empty l.managed
  case stats_eq =>
    rw [hmanaged]
    exact RunAllocator.stats_pool _
  case entries_fit =>
    rw [hmanaged]
    exact h.entries_fit

/-- The entries of the new ledger go to the frames of the ledger. -/
theorem Splits.writesIn_entries (h : l.Splits lo hi) (ram : Ram) :
    ram.WritesIn ⟨l.lo.val, l.ledgerFrames⟩
      (ram.update l.lo.val (l.managed * entrySize) fun _ => 0) := by
  refine Ram.writesIn_update (Nat.le_refl _) ?_ _
  exact Nat.add_le_add_left h.entries_fit _

/-- With at least one frame to split, the split starts at the first page boundary. -/
theorem Splits.lo_eq (h : l.Splits lo hi) (hfirst : lo.alignUp? = some first)
    (hroom : 0 < framesBetween first hi.alignDown) : l.lo = first := by
  apply Address.ext
  have hlo := h.lo_val
  rw [pageFrom_of_some hfirst] at hlo
  simp only [framesBetween, pageSize] at hroom
  omega

/-- Frames left by the boot loader are split into the ledger and all the frames that it has entries
for, and nothing outside of the ledger is written. -/
theorem new_carves {ram : Ram}
    (hfirst : lo.alignUp? = some first) (hroom : 1 ≤ framesBetween first hi.alignDown)
    (hram : hi.val ≤ ram.size) :
    ∃ l ram' p ledger, new lo hi = .ok l ∧ l.initLedger ram = .ok ram' ∧
      l.pool = .ok p ∧ p.CarvedFrom first hi.alignDown ledger ∧ p.base ≠ .null ∧
      ram.WritesIn ⟨first.val, ledger⟩ ram' ∧
      ∀ m : Machine, m.frames.value = .boot ⟨lo, hi⟩ → m.ram = ram →
        Kernel.bootstrap.outcome m =
          (.ok (), (m.setLedger l.lo).served [l.record] (.pool p) ram') := by
  obtain ⟨l, hl, hsplits⟩ := new_splits lo hi
  obtain ⟨fits, hpool⟩ := hsplits.pool_eq
  have hlo : l.lo = first := hsplits.lo_eq hfirst hroom
  have hinside : l.lo.val < ram.size := by
    have hdown : hi.alignDown.val ≤ hi.val := hi.alignDown_le
    rw [hlo]
    simp only [framesBetween, pageSize] at hroom
    omega
  have hcarved := hsplits.carvedFrom hpool
  have hwrites := hsplits.writesIn_entries ram
  rw [hsplits.hi_eq, hlo] at hcarved
  rw [hlo] at hwrites
  refine ⟨l, _, _, _, hl, Ram.zero_of_lt hinside _, hpool, hcarved, hcarved.base_ne_null hroom, ?_, ?_⟩
  · rwa [hlo]
  · rintro m hsource rfl
    obtain ⟨_, houtcome⟩ := Kernel.bootstrap_boot_of_lt hsource hl hinside
    exact houtcome

theorem new_carves_two_frames :
    ∃ ram, Ram.new 4 = .ok ram ∧
      let lo : PAddr := ⟨0xFFF, by decide⟩
      let hi : PAddr := ⟨0x3FFF, by decide⟩
      ∃ l ram' p ledger, new lo hi = .ok l ∧ l.initLedger ram = .ok ram' ∧ l.pool = .ok p ∧
        p.CarvedFrom ⟨0x1000, by decide⟩ ⟨0x3000, by decide⟩ ledger ∧ p.base ≠ .null ∧
        ram.WritesIn ⟨0x1000, ledger⟩ ram' ∧
        ∀ m : Machine, m.frames.value = .boot ⟨lo, hi⟩ → m.ram = ram →
          Kernel.bootstrap.outcome m =
            (.ok (), (m.setLedger l.lo).served [l.record] (.pool p) ram') :=
  ⟨_, rfl, new_carves rfl (by decide) (by decide)⟩

end PoolLayout

namespace BootMemory
variable {b c d : BootMemory} {n k : Nat} {pa : PAddr}

/-- Boot memory `c` is what is left of `b` when `n` frames were handed out. -/
structure Advances (b : BootMemory) (n : Nat) (c : BootMemory) : Prop where
  limit_eq : c.limit = b.limit
  next_val : c.next.val = b.next.val + n * pageSize
  cursor_le : c.next ≤ c.limit

theorem Advances.zero (h : b.next ≤ b.limit) : b.Advances 0 b :=
  ⟨rfl, by rw [Nat.zero_mul, Nat.add_zero], h⟩

theorem Advances.trans (h : b.Advances n c) (h' : c.Advances k d) : b.Advances (n + k) d := by
  refine ⟨h'.limit_eq.trans h.limit_eq, ?_, h'.cursor_le⟩
  rw [h'.next_val, h.next_val, Nat.add_mul, Nat.add_assoc]

theorem advances_take (h : (b.take n).1 = .ok pa) : b.Advances n (b.take n).2 := by
  obtain ⟨hlimit, hnext⟩ := take_of_ok h
  have hfits := (take_eq_ok_iff.mp h).2
  refine ⟨hlimit, hnext, ?_⟩
  rwa [Address.le_def, hlimit, hnext]

end BootMemory

namespace Kernel
variable {m m' : Machine} {memory : BootMemory} {n : Nat}

theorem allocFrames_advances {answer : Option PAddr} (hsource : m.frames.value = .boot memory)
    (hle : memory.next ≤ memory.limit) (h : (allocFrames n).outcome m = (.ok answer, m')) :
    ∃ left, m'.frames.value = .boot left ∧ memory.Advances n left ∧ m'.ram = m.ram := by
  rcases Nat.eq_zero_or_pos n with rfl | hpos
  · obtain ⟨-, rfl⟩ := Prod.mk.inj h
    exact ⟨memory, hsource, .zero hle, rfl⟩
  obtain ⟨records, hrecords⟩ := BootMemory.takeRecords_eq_ok hle n
  rw [allocFrames_boot hsource (Nat.ne_of_gt hpos) hrecords] at h
  obtain ⟨hanswer, rfl⟩ := Prod.mk.inj h
  cases htake : (memory.take n).1 with
  | error halt =>
    rw [htake] at hanswer
    cases hanswer
  | ok pa => exact ⟨(memory.take n).2, rfl, BootMemory.advances_take htake, rfl⟩

theorem outcome_bind_eq_ok {α β : Type} {k : Kernel α} {f : α → Kernel β} {b : β}
    (h : (k >>= f).outcome m = (.ok b, m')) :
    ∃ a m₁, k.outcome m = (.ok a, m₁) ∧ (f a).outcome m₁ = (.ok b, m') := by
  rw [outcome_bind] at h
  rcases hk : k.outcome m with ⟨halt | a, m₁⟩
  · rw [hk] at h
    cases h
  · rw [hk] at h
    exact ⟨a, m₁, rfl, h⟩

/-- Requests that are all answered take their frames one after the other. -/
theorem mapM_allocFrames_advances {ns : List Nat} {answers : List (Option PAddr)}
    (hsource : m.frames.value = .boot memory) (hle : memory.next ≤ memory.limit)
    (h : (ns.mapM allocFrames).outcome m = (.ok answers, m')) :
    ∃ left, m'.frames.value = .boot left ∧ memory.Advances ns.sum left ∧ m'.ram = m.ram := by
  induction ns generalizing m memory answers with
  | nil =>
    obtain ⟨-, rfl⟩ := Prod.mk.inj h
    exact ⟨memory, hsource, .zero hle, rfl⟩
  | cons n ns ih =>
    rw [List.mapM_cons] at h
    obtain ⟨answer, m₁, hfirst, h⟩ := outcome_bind_eq_ok h
    obtain ⟨rest, m₂, hrest, h⟩ := outcome_bind_eq_ok h
    obtain ⟨-, rfl⟩ := Prod.mk.inj h
    -- what the first request leaves is boot memory too, with its cursor not past the end
    obtain ⟨next, hsource₁, hnext, hram₁⟩ := allocFrames_advances hsource hle hfirst
    obtain ⟨left, hsource₂, hleft, hram₂⟩ := ih hsource₁ hnext.cursor_le hrest
    rw [List.sum_cons]
    exact ⟨left, hsource₂, hnext.trans hleft, hram₂.trans hram₁⟩

/-- What `bootstrap` makes of boot memory up to `last` with `left` frames left. -/
structure Boots (m : Machine) (last : PAddr) (left : Nat) : Prop where
  /-- The pool takes over; without a frame in it, it never has one to give. -/
  pools : ¬ (left = 0 ∧ last.val = m.ram.size) →
    ∃ m' p start ledger, bootstrap.outcome m = (.ok (), m') ∧ (isReady.outcome m').1 = .ok true ∧
      m'.frames.value = .pool p ∧ left = framesBetween start last.alignDown ∧
      p.CarvedFrom start last.alignDown ledger ∧
      (left = 0 → ∀ n, p.allocate n = (.ok none, p))
  /-- The ledger would begin at the end of RAM, where there is not even a place for no entries. -/
  halts : left = 0 → last.val = m.ram.size →
    ∃ m', bootstrap.outcome m = (.error (.outsideRam last), m') ∧
      (isReady.outcome m').1 = .ok false ∧ m'.frames.value = m.frames.value

theorem boots_of_boot {last : PAddr} (hsource : m.frames.value = .boot memory)
    (hdvd : pageSize ∣ memory.next.val) (hle : memory.next ≤ memory.limit)
    (hlimit : memory.limit = last.alignDown) (hram : last.val ≤ m.ram.size) :
    Boots m last (framesBetween memory.next last.alignDown) := by
  -- boot memory begins and ends on page boundaries, so the split takes it as it is
  obtain ⟨l, hl, hsplits⟩ := PoolLayout.new_splits memory.next memory.limit
  have hhi : l.hi = last.alignDown := by
    rw [hsplits.hi_eq, hlimit, Address.alignDown_alignDown]
  have hlo : l.lo = memory.next := by
    apply Address.ext
    rw [hsplits.lo_val, hlimit, Address.alignDown_alignDown]
    exact pageFrom_of_dvd hdvd (hlimit ▸ hle)
  have hout := empty_at_end_iff hdvd (hlimit ▸ hle) hram
  constructor
  case pools =>
    intro hplace
    have hinside : l.lo.val < m.ram.size := by
      rw [hlo]
      exact Nat.lt_of_not_le fun hge => hplace (hout.mpr hge)
    obtain ⟨fits, hpool⟩ := hsplits.pool_eq
    obtain ⟨_, houtcome⟩ := bootstrap_boot_of_lt hsource hl hinside
    have hcarved := hsplits.carvedFrom hpool
    rw [hlo, hhi] at hcarved
    refine ⟨_, _, memory.next, _, houtcome, ?_, rfl, rfl, hcarved, ?_⟩
    · rw [isReady_outcome]
      rfl
    · intro hnone n
      exact hcarved.allocate_of_empty hnone n
  case halts =>
    intro hnone hend
    have hge : m.ram.size ≤ memory.next.val := hout.mp ⟨hnone, hend⟩
    have hsame : l.lo = last := by
      have hdown : last.alignDown.val ≤ last.val := last.alignDown_le
      rw [hlimit, Address.le_def] at hle
      apply Address.ext
      rw [hlo]
      omega
    rw [← hsame, bootstrap_boot_of_le hsource hl (hlo ▸ hge)]
    refine ⟨_, rfl, ?_, rfl⟩
    rw [isReady_outcome]
    simp only [Machine.served, hsource]
    rfl

/-- However many frames boot memory has handed out, `bootstrap` puts the others under a ledger, save in
the one case that none is left and the memory ended with RAM. -/
theorem bootstrap_after_steals {ram : Ram} {first last : PAddr} {victim : Nat → Fin tlbSlots}
    {ns : List Nat} {answers : List (Option PAddr)} {m : Machine} (hlast : last.val ≤ ram.size)
    (hsteals : (ns.mapM allocFrames).outcome (.new ram first last victim) = (.ok answers, m)) :
    ∃ left, (BootMemory.new first last).framesLeft = .ok (ns.sum + left) ∧ Boots m last left := by
  have hle : (BootMemory.new first last).next ≤ (BootMemory.new first last).limit := by
    rw [Address.le_def, BootMemory.new_next, BootMemory.new_limit]
    exact pageFrom_le ..
  obtain ⟨left, hsource, hleft, hram⟩ := mapM_allocFrames_advances rfl hle hsteals
  have hlimit : left.limit = last.alignDown := hleft.limit_eq.trans (BootMemory.new_limit ..)
  have hdvd : pageSize ∣ left.next.val := by
    rw [hleft.next_val, BootMemory.new_next]
    exact Nat.dvd_add (pageFrom_dvd last.isPageAligned_alignDown) (Nat.dvd_mul_left ..)
  refine ⟨framesBetween left.next last.alignDown, ?_, ?_⟩
  · have hnext := hleft.next_val
    have hwhole : left.next.val ≤ last.alignDown.val := hlimit ▸ hleft.cursor_le
    rw [BootMemory.framesLeft_eq hle, BootMemory.new_limit]
    simp only [framesBetween, pageSize] at *
    congr 1
    omega
  · apply boots_of_boot hsource hdvd hleft.cursor_le hlimit
    rw [hram]
    exact hlast

theorem bootstrap_after_steals_of_last_frame :
    ∃ ram, Ram.new 3 = .ok ram ∧
      let first : PAddr := ⟨0x1000, by decide⟩
      let last : PAddr := ⟨0x2000, by decide⟩
      let stolen := ([1].mapM allocFrames).outcome (.new ram first last fun _ => 0)
      last.val ≤ ram.size ∧ stolen.1 = .ok [some first] ∧
        ∃ left, (BootMemory.new first last).framesLeft = .ok (1 + left) ∧
          Boots stolen.2 last left := by
  have hlast : (⟨0x2000, by decide⟩ : PAddr).val ≤ Ram.size ⟨.replicate 3 .zero⟩ := by
    decide +kernel
  have hanswer : (([1].mapM allocFrames).outcome (.new ⟨.replicate 3 .zero⟩ ⟨0x1000, by decide⟩
      ⟨0x2000, by decide⟩ fun _ => 0)).1 = .ok [some ⟨0x1000, by decide⟩] := by decide +kernel
  exact ⟨_, rfl, hlast, hanswer, bootstrap_after_steals hlast (Prod.ext hanswer rfl)⟩

/-- The frame that is handed out here is the last one of RAM. -/
theorem bootstrap_halts_at_end_of_ram :
    ∃ ram, Ram.new 2 = .ok ram ∧
      let first : PAddr := ⟨0x1000, by decide⟩
      let last : PAddr := ⟨0x2000, by decide⟩
      let stolen := ([1].mapM allocFrames).outcome (.new ram first last fun _ => 0)
      let booted := bootstrap.outcome stolen.2
      last = ram.limit ∧ stolen.1 = .ok [some first] ∧
        booted.1 = .error (.outsideRam last) ∧ (isReady.outcome booted.2).1 = .ok false := by
  refine ⟨_, rfl, ?_, ?_, ?_, ?_⟩
  · decide +kernel
  · decide +kernel
  · decide +kernel
  · decide +kernel

end Kernel
end MipsVm
