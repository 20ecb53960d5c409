import MipsVm.Proofs.FreshFrames
import MipsVm.Proofs.MemoryCalls

/-! Kernel pages are frames under their address in the direct map. To free that address undoes the
allocation, whatever was called in between. -/
namespace MipsVm

/-- The pool `q` is the pool `p` with the frames of the live run `r` free again. -/
structure FramePool.TakesBack (p : FramePool) (r : FrameRange) (q : FramePool) : Prop where
  inside : p.base.val ≤ r.start ∧ r.stop ≤ p.limit.val
  base_eq : q.base = p.base
  size_eq : q.ledger.size = p.ledger.size
  released : ∀ i, r.Covers (p.base.val + i * pageSize) →
    p.ledger.get? i ≠ some .free ∧ q.ledger.get? i = some .free
  others : ∀ i, ¬ r.Covers (p.base.val + i * pageSize) → q.ledger.get? i = p.ledger.get? i
  counted : ∃ s t, p.stats = .ok s ∧ q.stats = .ok t ∧ s.total = t.total ∧
    t.free = s.free + r.frames ∧ s.used = t.used + r.frames ∧ s.runs = t.runs + 1

namespace RunAllocator
variable {a : RunAllocator} {t : Run} {i : Nat}

theorem get?_pool_ne_free (ht : t ∈ a.live.runs) (hi : t.Covers i) :
    a.pool.ledger.get? i ≠ some .free := by
  have hin : i < a.frames := RunSet.lt_of_covers ht hi
  change a.live.ledger.get? i ≠ some .free
  rw [RunSet.get?_ledger, if_pos hin, RunSet.entry_of_covers ht hi]
  exact fun h => t.entry_ne_free i (Option.some.inj h)

theorem takesBack_remove (ht : t ∈ a.live.runs) :
    a.pool.TakesBack (a.range t) (a.withLive (a.live.remove t)).pool := by
  constructor
  case inside =>
    rw [limit_pool]
    exact ⟨Nat.le_add_right .., stop_range_le ht⟩
  case base_eq => rfl
  case size_eq => exact (RunSet.size_ledger _).trans (RunSet.size_ledger _).symm
  case released =>
    intro i hi
    have hcovers : t.Covers i := covers_range_iff.mp hi
    have hin : i < a.frames := RunSet.lt_of_covers ht hcovers
    have hafter : (a.live.remove t).entry i = .free := by
      rw [RunSet.entry_remove ht, if_pos hcovers]
    constructor
    · exact get?_pool_ne_free ht hcovers
    · change (a.live.remove t).ledger.get? i = some .free
      rw [RunSet.get?_ledger, if_pos hin, hafter]
  case others =>
    intro i hi
    have hcovers : ¬ t.Covers i := fun h => hi (covers_range_iff.mpr h)
    change (a.live.remove t).ledger.get? i = a.live.ledger.get? i
    rw [RunSet.get?_ledger, RunSet.get?_ledger, RunSet.entry_remove ht, if_neg hcovers]
  case counted =>
    have hused := RunSet.used_remove ht
    have hle := a.live.used_le
    refine ⟨_, _, stats_pool _, stats_pool _, rfl, ?_, ?_, RunSet.count_remove ht⟩
    · simp only [stats, withLive, range]
      omega
    · simp only [stats, withLive, range]
      omega

end RunAllocator

namespace Machine

/-- To free the kernel address `va` gives the run `r` back to the pool, and of RAM nothing changes but the
entries of the run. -/
def FreesRun (m : Machine) (va : VAddr) (r : FrameRange) : Prop :=
  ∃ p q records, m.frames.value = .pool p ∧ p.TakesBack r q ∧
    (Kernel.freeKernelPages va).outcome m = (.ok (), m.servedPool records p q)

/-- To free the kernel address `va` is answered, and changes neither the frame source nor RAM. -/
def FreesNothing (m : Machine) (va : VAddr) : Prop :=
  ∃ records,
    (Kernel.freeKernelPages va).outcome m = (.ok (), m.served records m.frames.value m.ram)

end Machine

theorem Kernel.freeKernelPages_of_directMapped {m : Machine} {va : VAddr} {pa : PAddr}
    (hva : directMapped? va = some pa) :
    (freeKernelPages va).outcome m = (freeFrames pa).outcome m := by
  rw [freeKernelPages_outcome, hva]

/-- An answer of kernel pages is the kernel address of frames that were allocated. -/
theorem Kernel.allocKernelPages_eq_some {m : Machine} {n : Nat} {va : VAddr}
    (h : ((allocKernelPages n).outcome m).1 = .ok (some va)) :
    ∃ pa, ((allocFrames n).outcome m).1 = .ok (some pa) ∧ directMapped? va = some pa := by
  rw [allocKernelPages_outcome] at h
  -- without frames there is no address
  rcases houtcome : (allocFrames n).outcome m with ⟨_ | _ | pa, machine⟩ <;> rw [houtcome] at h
  · cases h
  · cases h
  refine ⟨pa, rfl, ?_⟩
  cases haddr : kernelAddr pa with
  | error halt =>
    simp only [haddr] at h
    cases h
  | ok va' =>
    simp only [haddr] at h
    obtain rfl := Option.some.inj (Except.ok.inj h)
    exact kernelAddr_eq_ok_iff.mp haddr

namespace FrameHistory
variable {first last pa : PAddr} {h : FrameHistory} {va : VAddr} {r : FrameRange} {n : Nat}

/-- A run of the pool is given back. -/
theorem Accounted.freesRun (hacc : h.Accounted first last) (hva : directMapped? va = some pa)
    (hr : r ∈ h.pooled) (hpa : pa.val = r.start) : h.machine.FreesRun va r := by
  rcases hacc.phase with ⟨memory, hs⟩ | ⟨a, l, hp⟩
  · rw [hs.pooled_eq] at hr
    cases hr
  obtain ⟨t, ht, rfl, hfreed⟩ := hp.deallocate_pooled hr hpa
  refine ⟨a.pool, (a.withLive (a.live.remove t)).pool, a.pool.deallocateRecords pa, hp.source_eq,
    RunAllocator.takesBack_remove ht, ?_⟩
  rw [Kernel.freeKernelPages_of_directMapped hva, Kernel.freeFrames_pool hp.source_eq,
    RunAllocator.deallocate_pool, hfreed]
  rfl

/-- A run of boot memory is passed over in either phase. -/
theorem Accounted.freesNothing (hacc : h.Accounted first last) (hva : directMapped? va = some pa)
    (hr : r ∈ h.stolen) (hpa : pa.val = r.start) : h.machine.FreesNothing va := by
  rw [Machine.FreesNothing, Kernel.freeKernelPages_of_directMapped hva]
  rcases hacc.phase with ⟨memory, hs⟩ | ⟨a, l, hp⟩
  · exact ⟨[], Kernel.freeFrames_boot hs.source_eq pa⟩
  · refine ⟨a.pool.deallocateRecords pa, ?_⟩
    rw [Kernel.freeFrames_pool hp.source_eq, RunAllocator.deallocate_pool,
      hp.deallocate_stolen hacc hr hpa, hp.source_eq, Machine.servedPool, Ledger.store_self]
    rfl

/-- Once `n` frames are handed out at `pa` under the kernel address `va`, that address lies on a page
boundary of the direct map and stands for `pa`. As long as nobody else frees the run, freeing the
address gives the run back to the pool that it is from; a run of boot memory stays out. -/
structure Undone (h : FrameHistory) (n : Nat) (va : VAddr) (pa : PAddr) : Prop where
  granted : ((Kernel.allocFrames n).outcome h.machine).1 = .ok (some pa)
  mapped : directMapped? va = some pa
  aligned : pageSize ∣ va.val
  inside : kseg0 ≤ va.val ∧ va.val < kseg1
  freed : ∀ calls : List MemoryCall, (∀ call ∈ calls, ¬ call.Frees pa) →
    let later := (h.perform (.frames (.allocKernelPages n))).performAll calls
    if h.machine.pooling = true then later.machine.FreesRun va ⟨pa.val, n⟩
    else later.machine.FreesNothing va

theorem mem_pooled_grant (hpooling : h.machine.pooling = true) (r : FrameRange)
    (machine : Machine) : r ∈ (h.grant r machine).pooled := by
  rw [Machine.pooling] at hpooling
  unfold grant
  cases hsource : h.machine.frames.value with
  | boot memory =>
    rw [hsource] at hpooling
    cases hpooling
  | pool pool => exact List.mem_cons_self

theorem mem_stolen_grant (hpooling : h.machine.pooling = false) (r : FrameRange)
    (machine : Machine) : r ∈ (h.grant r machine).stolen := by
  rw [Machine.pooling] at hpooling
  unfold grant
  cases hsource : h.machine.frames.value with
  | boot memory => exact List.mem_cons_self
  | pool pool =>
    rw [hsource] at hpooling
    cases hpooling

theorem mem_outstanding_grant (h : FrameHistory) (r : FrameRange) (machine : Machine) :
    r ∈ (h.grant r machine).outstanding := by
  cases hpooling : h.machine.pooling with
  | true => exact List.mem_append_right _ (mem_pooled_grant hpooling r machine)
  | false => exact List.mem_append_left _ (mem_stolen_grant hpooling r machine)

theorem perform_allocKernelPages
    (hgrant : ((Kernel.allocFrames n).outcome h.machine).1 = .ok (some pa)) :
    h.perform (.frames (.allocKernelPages n)) =
      h.grant ⟨pa.val, n⟩ ((Kernel.allocKernelPages n).outcome h.machine).2 := by
  have hpermits : h.Permits (.frames (.allocKernelPages n)) := trivial
  rw [perform, if_pos hpermits, after, hgrant]

theorem Tracked.undone (ht : h.Tracked first last)
    (halloc : ((Kernel.allocKernelPages n).outcome h.machine).1 = .ok (some va)) :
    ∃ pa, h.Undone n va pa := by
  obtain ⟨pa, hgrant, hva⟩ := Kernel.allocKernelPages_eq_some halloc
  have hgranted := perform_allocKernelPages hgrant
  have hout : (h.perform (.frames (.allocKernelPages n))).Tracked first last :=
    perform_induction ht ht.after
  have hmapped : ¬ (va.val < kseg0 ∨ kseg1 ≤ va.val) := by
    rw [← directMapped?_eq_none_iff, hva]
    exact nofun
  refine ⟨pa, ?_⟩
  constructor
  case granted => exact hgrant
  case mapped => exact hva
  case aligned =>
    have hdvd : pageSize ∣ pa.val := by
      rw [hgranted] at hout
      exact hout.accounted.exclusive.aligned ⟨pa.val, n⟩ (mem_outstanding_grant ..)
    -- the direct map shifts addresses by whole pages
    have hoffset := offset_of_directMapped hva
    simp only [kseg0, kseg1, pageSize] at *
    omega
  case inside =>
    simp only [kseg0, kseg1] at *
    omega
  case freed =>
    -- the run is on record from the start, and nothing takes it off
    intro calls hfrees
    have hlater := ((hout.performAll calls).1).accounted
    have hkept := retains_performAll (h.perform (.frames (.allocKernelPages n))) calls hfrees
    rw [hgranted] at hlater hkept ⊢
    split_ifs with hpooling
    · exact hlater.freesRun hva (hkept.pooled _ (mem_pooled_grant hpooling ..) rfl) rfl
    · have hboot : h.machine.pooling = false := Bool.eq_false_iff.mpr hpooling
      exact hlater.freesNothing hva (hkept.stolen (mem_stolen_grant hboot ⟨pa.val, n⟩ _)) rfl

/-- Kernel pages can be freed by the address that they were handed out under, and no address outside of
the direct map is freed: that halts before anything is locked, with nothing but the message in the log. -/
structure FreesPages (h : FrameHistory) : Prop where
  undone : ∀ n va, ((Kernel.allocKernelPages n).outcome h.machine).1 = .ok (some va) →
    ∃ pa, h.Undone n va pa
  refused : ∀ va : VAddr, va.val < kseg0 ∨ kseg1 ≤ va.val →
    (Kernel.freeKernelPages va).outcome h.machine = (.error (.notDirectMapped va),
      h.machine.note (.log ⟨.error, (Halt.notDirectMapped va).message⟩))

/-- In every state that calls lead to, in either phase and whichever of the calls halt. -/
theorem kernel_pages_freed (ram : Ram) (first last : PAddr) (victim : Nat → Fin tlbSlots)
    (calls : List MemoryCall) :
    ((start (.new ram first last victim)).performAll calls).FreesPages := by
  obtain ⟨htracked, -⟩ := (tracked_start ram first last victim).performAll calls
  constructor
  case undone => exact fun n va halloc => htracked.undone halloc
  case refused =>
    intro va hva
    rw [Kernel.freeKernelPages_outcome, directMapped?_eq_none_iff.mpr hva]
    rfl

/-- A frame that was stolen stays out although there is a pool by then, and two frames of that pool go back
although they have been marked as a stack. -/
theorem kernel_pages_freed_in_either_phase :
    ∃ h booted : FrameHistory, h =
        start (.new ⟨.replicate 6 .zero⟩ ⟨0x1000, by decide⟩ ⟨0x6000, by decide⟩ fun _ => 0) ∧
      booted = h.performAll [.frames (.allocKernelPages 1), .frames .bootstrap] ∧
      ((Kernel.allocKernelPages 1).outcome h.machine).1 = .ok (some ⟨0x80001000, by decide⟩) ∧
      booted.machine.FreesNothing ⟨0x80001000, by decide⟩ ∧
      ((Kernel.allocKernelPages 2).outcome booted.machine).1 =
        .ok (some ⟨0x80003000, by decide⟩) ∧
      (booted.performAll [.frames (.allocKernelPages 2),
        .frames (.markThreadStack ⟨0x3000, by decide⟩)]).machine.FreesRun
          ⟨0x80003000, by decide⟩ ⟨0x3000, 2⟩ := by
  refine ⟨_, _, rfl, rfl, ?stolen, ?passed, ?pooled, ?released⟩
  case stolen => decide +kernel
  case passed =>
    obtain ⟨pa, hundone⟩ := (kernel_pages_freed ⟨.replicate 6 .zero⟩ ⟨0x1000, by decide⟩
      ⟨0x6000, by decide⟩ (fun _ => 0) []).undone 1 ⟨0x80001000, by decide⟩ (by decide +kernel)
    have hfreed := hundone.freed [.frames .bootstrap] (by simp [MemoryCall.Frees])
    rw [if_neg (by decide)] at hfreed
    simpa only [performAll, List.foldl_cons, List.foldl_nil] using hfreed
  case pooled => decide +kernel
  case released =>
    obtain ⟨pa, hundone⟩ := (kernel_pages_freed ⟨.replicate 6 .zero⟩ ⟨0x1000, by decide⟩
      ⟨0x6000, by decide⟩ (fun _ => 0) [.frames (.allocKernelPages 1), .frames .bootstrap]).undone
        2 ⟨0x80003000, by decide⟩ (by decide +kernel)
    obtain rfl : pa = ⟨0x3000, by decide⟩ :=
      Option.some.inj (hundone.mapped.symm.trans (by decide))
    have hfreed := hundone.freed [.frames (.markThreadStack ⟨0x3000, by decide⟩)]
      (by simp [MemoryCall.Frees])
    rw [if_pos (by decide +kernel)] at hfreed
    simpa only [performAll, List.foldl_cons, List.foldl_nil] using hfreed

end FrameHistory
namespace Kernel
variable {m : Machine} {n : Nat} {pa : PAddr}

/-- The conversion to a kernel address comes last, and changes nothing any more. -/
theorem machine_allocKernelPages (m : Machine) (n : Nat) :
    ((allocKernelPages n).outcome m).2 = ((allocFrames n).outcome m).2 := by
  rw [allocKernelPages_outcome]
  rcases (allocFrames n).outcome m with ⟨_ | _ | pa, machine⟩ <;> rfl

theorem allocKernelPages_of_granted (h : ((allocFrames n).outcome m).1 = .ok (some pa)) :
    ((allocKernelPages n).outcome m).1 = (kernelAddr pa).map some := by
  rw [allocKernelPages_outcome]
  rcases houtcome : (allocFrames n).outcome m with ⟨_ | _ | granted, machine⟩ <;> rw [houtcome] at h
  · cases h
  · cases h
  · obtain rfl := Option.some.inj (Except.ok.inj h)
    rfl

end Kernel

/-- Frames that were handed out are missing from the source. -/
theorem FrameSource.Hands.ne {source next : FrameSource} {t : FrameRange}
    (h : source.Hands t next) : next ≠ source := by
  rintro rfl
  have hpos := h.nonempty
  have hself := (h.left t hpos h.free).2
  simp only [FrameRange.Apart, FrameRange.stop, pageSize] at hself
  omega

namespace Machine

/-- A request for `n` kernel pages that gives no address costs no frames, but for one case: where the
frames lie beyond the direct map they have been handed out before that is found, and nobody gets them.
With the end of RAM, `last`, in reach of the direct map there is no such case. -/
structure LosesBeyondDirectMap (last : PAddr) (m : Machine) (n : Nat) : Prop where
  kept_iff : (∀ va, ((Kernel.allocKernelPages n).outcome m).1 ≠ .ok (some va)) →
    (((Kernel.allocKernelPages n).outcome m).2.frames.value = m.frames.value ↔
      ∀ pa, ((Kernel.allocFrames n).outcome m).1 = .ok (some pa) → pa.val < directMapSize)
  lost : ∀ pa, ((Kernel.allocFrames n).outcome m).1 = .ok (some pa) → directMapSize ≤ pa.val →
    ((Kernel.allocKernelPages n).outcome m).1 = .error .beyondDirectMap ∧
      m.frames.value.Hands ⟨pa.val, n⟩ ((Kernel.allocKernelPages n).outcome m).2.frames.value
  kept : last.val ≤ directMapSize →
    (∀ va, ((Kernel.allocKernelPages n).outcome m).1 ≠ .ok (some va)) →
    ((Kernel.allocKernelPages n).outcome m).2.frames.value = m.frames.value

variable {m : Machine} {last : PAddr} {n : Nat}

theorem losesBeyondDirectMap_of_within (h : m.frames.value.Within last) :
    m.LosesBeyondDirectMap last n := by
  have hgrants := Kernel.allocFrames_grants h.onPages n
  have hhands {pa : PAddr} (hpa : ((Kernel.allocFrames n).outcome m).1 = .ok (some pa)) :
      m.frames.value.Hands ⟨pa.val, n⟩ ((Kernel.allocFrames n).outcome m).2.frames.value := by
    rw [hpa] at hgrants
    exact hgrants.hands h.onPages
  have hkept_iff : (∀ va, ((Kernel.allocKernelPages n).outcome m).1 ≠ .ok (some va)) →
      (((Kernel.allocKernelPages n).outcome m).2.frames.value = m.frames.value ↔
        ∀ pa, ((Kernel.allocFrames n).outcome m).1 = .ok (some pa) → pa.val < directMapSize) := by
    intro hno
    rw [Kernel.machine_allocKernelPages]
    constructor
    · intro hsame pa hpa
      exact absurd hsame (hhands hpa).ne
    · intro hreached
      rcases hanswer : ((Kernel.allocFrames n).outcome m).1 with halt | _ | pa
      · rw [hanswer] at hgrants
        exact hgrants.of_halted.2.2
      · rw [hanswer] at hgrants
        exact hgrants.of_refused.1
      · -- frames in reach of the direct map would have given an address
        have haddr : kernelAddr pa = .ok ⟨kseg0 + pa.val, _⟩ := dif_pos (hreached pa hanswer)
        have hgiven := Kernel.allocKernelPages_of_granted hanswer
        rw [haddr] at hgiven
        exact absurd hgiven (hno _)
  constructor
  case kept_iff => exact hkept_iff
  case lost =>
    intro pa hpa hbeyond
    have haddr : kernelAddr pa = .error .beyondDirectMap := dif_neg (Nat.not_lt.mpr hbeyond)
    rw [Kernel.machine_allocKernelPages, Kernel.allocKernelPages_of_granted hpa, haddr]
    exact ⟨rfl, hhands hpa⟩
  case kept =>
    intro hlast hno
    apply (hkept_iff hno).mpr
    intro pa hpa
    have hpos : 0 < n := (hhands hpa).nonempty
    have hstop : pa.val + n * pageSize ≤ last.val := h.stop_le (hhands hpa).free hpos
    simp only [pageSize] at hstop
    omega

/-- In every state that operations lead to, in either phase and whatever the range of RAM is. -/
theorem kernel_pages_lost_beyond_direct_map (ram : Ram) (first last : PAddr)
    (victim : Nat → Fin tlbSlots) (ops : List Operation) (n : Nat) :
    ((new ram first last victim).run ops).LosesBeyondDirectMap last n :=
  losesBeyondDirectMap_of_within (within_run ram first last victim ops)

/-- The first frame behind the direct map is requested: no address is given, and the cursor of boot
memory has passed the frame. -/
theorem kernel_pages_lost_at_direct_map_end :
    let m := (new ⟨.replicate 1 .zero⟩ ⟨0x1FFFF000, by decide⟩ ⟨0x20002000, by decide⟩
      fun _ => 0).run [.allocKernelPages 1]
    ((Kernel.allocKernelPages 1).outcome m).1 = .error .beyondDirectMap ∧
      m.frames.value = .boot ⟨⟨0x20000000, by decide⟩, ⟨0x20002000, by decide⟩⟩ ∧
      ((Kernel.allocKernelPages 1).outcome m).2.frames.value =
        .boot ⟨⟨0x20001000, by decide⟩, ⟨0x20002000, by decide⟩⟩ := by
  exact ⟨rfl, rfl, rfl⟩

end Machine
end MipsVm
