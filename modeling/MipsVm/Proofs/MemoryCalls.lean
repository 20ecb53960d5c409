import MipsVm.Proofs.FrameHoldings

/-! All calls to physical memory, those that read and write bytes among them. Allocating, freeing and
marking may be called with any arguments; bytes may be touched by who owns them. -/
namespace MipsVm

inductive MemoryCall where
  | frames (call : FrameCall)
  | isReady
  | writeBytes (pa : PAddr) (bytes : Array UInt8)
  | readBytes (pa : PAddr) (len : Nat)
  | zeroFrames (pa : PAddr) (n : Nat)
  | copyFrames (dst src : PAddr) (n : Nat)

/-- Whether the call asks to free what lies at `pa`. -/
def MemoryCall.Frees (pa : PAddr) : MemoryCall → Prop
  | .frames (.freeFrames freed) => freed = pa
  | .frames (.freeKernelPages va) => directMapped? va = some pa
  | _ => False

namespace FrameRange

instance (r : FrameRange) (i : Nat) : Decidable (r.Covers i) := inferInstanceAs (Decidable (_ ∧ _))

instance (r t : FrameRange) : Decidable (r.Apart t) := inferInstanceAs (Decidable (_ ∨ _))

end FrameRange

namespace FrameHistory

/-- The `len` bytes from `pa` on lie in frames that are out. -/
def Holds (h : FrameHistory) (pa : PAddr) (len : Nat) : Prop :=
  ∀ k < len, ∃ r ∈ h.outstanding, r.Covers (pa.val + k)

instance (h : FrameHistory) (pa : PAddr) (len : Nat) : Decidable (h.Holds pa len) :=
  inferInstanceAs (Decidable (∀ k < len, ∃ r ∈ h.outstanding, r.Covers (pa.val + k)))

/-- What a caller has to see to: the bytes that it reads or writes are in frames that are out, and a copy
does not overlap what it copies. -/
def Permits (h : FrameHistory) : MemoryCall → Prop
  | .frames _ | .isReady => True
  | .writeBytes pa bytes => h.Holds pa bytes.size
  | .readBytes pa len => h.Holds pa len
  | .zeroFrames pa n => h.Holds pa (n * pageSize)
  | .copyFrames dst src n => h.Holds dst (n * pageSize) ∧ h.Holds src (n * pageSize) ∧
      FrameRange.Apart ⟨dst.val, n⟩ ⟨src.val, n⟩

instance (h : FrameHistory) : DecidablePred h.Permits
  | .frames _ | .isReady => isTrue trivial
  | .writeBytes pa bytes => inferInstanceAs (Decidable (h.Holds pa bytes.size))
  | .readBytes pa len => inferInstanceAs (Decidable (h.Holds pa len))
  | .zeroFrames pa n => inferInstanceAs (Decidable (h.Holds pa (n * pageSize)))
  | .copyFrames dst src n => inferInstanceAs (Decidable (h.Holds dst (n * pageSize) ∧
      h.Holds src (n * pageSize) ∧ FrameRange.Apart ⟨dst.val, n⟩ ⟨src.val, n⟩))

/-- What the call leaves. A run counts as out once boot memory or the pool has handed it out, also where
the direct map ends before it and the caller of `allocKernelPages` gets no address. -/
def after (h : FrameHistory) : MemoryCall → FrameHistory
  | .frames (.allocKernelPages n) =>
    match ((Kernel.allocFrames n).outcome h.machine).1 with
    | .ok (some pa) => h.grant ⟨pa.val, n⟩ ((Kernel.allocKernelPages n).outcome h.machine).2
    | _ => h.keep ((Kernel.allocKernelPages n).outcome h.machine).2
  | .frames call => h.next call
  | .isReady => h.keep (Kernel.isReady.outcome h.machine).2
  | .writeBytes pa bytes => h.keep ((Kernel.writeBytes pa bytes).outcome h.machine).2
  | .readBytes pa len => h.keep ((Kernel.readBytes pa len).outcome h.machine).2
  | .zeroFrames pa n => h.keep ((Kernel.zeroFrames pa n).outcome h.machine).2
  | .copyFrames dst src n => h.keep ((Kernel.copyFrames dst src n).outcome h.machine).2

/-- A call without permission is not made. -/
def perform (h : FrameHistory) (call : MemoryCall) : FrameHistory :=
  if h.Permits call then h.after call else h

def performAll (h : FrameHistory) (calls : List MemoryCall) : FrameHistory := calls.foldl perform h

end FrameHistory

namespace Machine

/-- RAM neither grows nor shrinks. -/
def SameSize (m m' : Machine) : Prop := m'.ram.size = m.ram.size

theorem sameSize_effect : Effect SameSize where
  trans h₁ h₂ := h₂.trans h₁
  trace _ _ := rfl
  interrupts _ _ := rfl
  locked _ _ := rfl

end Machine

namespace Kernel

theorem sameSize_bootstrap : bootstrap.Obeys Machine.SameSize := by
  intro m
  cases hsource : m.frames.value with
  | boot memory =>
    obtain ⟨l, hl, -⟩ := PoolLayout.new_splits memory.next memory.limit
    -- the ledger is cleared where it lies, and without RAM there the switch halts before that
    rcases Nat.lt_or_ge l.lo.val m.ram.size with hin | hout
    · obtain ⟨fits, houtcome⟩ := bootstrap_boot_of_lt hsource hl hin
      rw [houtcome]
      exact Ram.size_update ..
    · rw [bootstrap_boot_of_le hsource hl hout]
      rfl
  | pool pool =>
    rw [bootstrap_pool hsource]
    rfl

theorem machine_readBytes (m : Machine) (pa : PAddr) (len : Nat) :
    ((readBytes pa len).outcome m).2 = m := by
  rw [readBytes, outcome_bind, outcome_get]
  simp only [outcome_lift]

theorem sameSize_bound : Machine.MemoryBound Machine.SameSize where
  toComposes := Machine.sameSize_effect.composes
  bootstrap := sameSize_bootstrap
  isReady := obeys_isReady Machine.sameSize_effect.critical
  frameStats := obeys_frameStats Machine.sameSize_effect.critical
  auditFrames := obeys_auditFrames Machine.sameSize_effect.critical
  allocFrames := obeys_allocFrames Machine.sameSize_effect.critical (fun _ _ => rfl)
    fun _ _ _ => Ledger.size_store ..
  freeFrames := obeys_freeFrames Machine.sameSize_effect.critical fun _ _ _ => Ledger.size_store ..
  markThreadStack pa m := by
    obtain ⟨ram, hledger, hfooter⟩ := Ram.changesAt_markThreadStack m pa
    exact hfooter.size.trans hledger.size
  writeBytes pa bytes m := (Ram.changesAt_writeBytes m pa bytes).size
  zeroFrames pa n m := (Ram.changesAt_zeroFrames m pa n).size
  copyFrames dst src n m := (Ram.changesAt_copyFrames m dst src n).size

end Kernel

namespace FrameHistory
variable {h : FrameHistory} {call : MemoryCall} {n : Nat}

/-- The frames of kernel pages are allocated like any others. -/
theorem after_frames (h : FrameHistory) (call : FrameCall) :
    h.after (.frames call) = h.next call.direct := by
  cases call with
  | allocKernelPages n =>
    rw [after, FrameCall.direct, next, Kernel.allocKernelPages_outcome]
    rcases (Kernel.allocFrames n).outcome h.machine with ⟨_ | _ | pa, machine⟩ <;> rfl
  | _ => rfl

/-- A relation that the operations on physical memory keep to is kept to by a call. -/
theorem next_bound {R : Machine → Machine → Prop} (hR : Machine.MemoryBound R) (h : FrameHistory)
    (call : FrameCall) : R h.machine (h.next call).machine := by
  have hcomposes := hR.toComposes
  cases call with
  | allocFrames n =>
    have hk := hR.allocFrames n h.machine
    rw [next]
    rcases houtcome : (Kernel.allocFrames n).outcome h.machine with ⟨_ | _ | pa, machine⟩ <;>
      rw [houtcome] at hk <;> simpa using hk
  | allocKernelPages n =>
    have hk := Kernel.obeys_allocKernelPages hcomposes hR.allocFrames n h.machine
    rw [next]
    rcases houtcome : (Kernel.allocKernelPages n).outcome h.machine with ⟨_ | _ | va, machine⟩ <;>
      rw [houtcome] at hk <;> simpa using hk
  | freeFrames pa =>
    have hk := hR.freeFrames pa h.machine
    rw [next]
    rcases houtcome : (Kernel.freeFrames pa).outcome h.machine with ⟨_ | _, machine⟩ <;>
      rw [houtcome] at hk <;> simpa using hk
  | freeKernelPages va =>
    have hk := Kernel.obeys_freeKernelPages hcomposes hR.freeFrames va h.machine
    rw [next]
    rcases houtcome : (Kernel.freeKernelPages va).outcome h.machine with ⟨_ | _, machine⟩ <;>
      rw [houtcome] at hk <;> simpa using hk
  | markThreadStack pa => exact hR.markThreadStack pa h.machine
  | frameStats => exact hR.frameStats h.machine
  | auditFrames => exact hR.auditFrames h.machine
  | bootstrap =>
    rw [machine_bootstrap]
    exact hR.bootstrap h.machine

/-- What holds before a call and after each call that may be made holds after any call. -/
theorem perform_induction {P : FrameHistory → Prop} (hsame : P h)
    (hafter : h.Permits call → P (h.after call)) : P (h.perform call) := by
  rw [perform]
  split_ifs with hpermits
  · exact hafter hpermits
  · exact hsame

theorem sameSize_after (h : FrameHistory) (call : MemoryCall) :
    h.machine.SameSize (h.after call).machine := by
  have hbound := Kernel.sameSize_bound
  cases call with
  | frames call =>
    rw [after_frames]
    exact next_bound hbound h call.direct
  | isReady => exact hbound.isReady h.machine
  | writeBytes pa bytes => exact hbound.writeBytes pa bytes h.machine
  | readBytes pa len =>
    rw [after, Kernel.machine_readBytes]
    exact hbound.refl h.machine
  | zeroFrames pa n => exact hbound.zeroFrames pa n h.machine
  | copyFrames dst src n => exact hbound.copyFrames dst src n h.machine

/-- Whatever boot memory has handed out stays on record, and so does a run of the pool at `pa`. -/
structure Retains (pa : PAddr) (h h' : FrameHistory) : Prop where
  stolen : h.stolen ⊆ h'.stolen
  pooled : ∀ r ∈ h.pooled, r.start = pa.val → r ∈ h'.pooled

section retains
variable {pa : PAddr} {h' h'' : FrameHistory}

theorem Retains.refl (pa : PAddr) (h : FrameHistory) : h.Retains pa h :=
  ⟨List.Subset.refl _, fun _ hr _ => hr⟩

theorem Retains.trans (hfirst : h.Retains pa h') (hrest : h'.Retains pa h'') : h.Retains pa h'' :=
  ⟨List.Subset.trans hfirst.stolen hrest.stolen,
    fun r hr hstart => hrest.pooled r (hfirst.pooled r hr hstart) hstart⟩

theorem retains_keep (pa : PAddr) (h : FrameHistory) (machine : Machine) :
    h.Retains pa (h.keep machine) := ⟨List.Subset.refl _, fun _ hr _ => hr⟩

theorem retains_grant (pa : PAddr) (h : FrameHistory) (r : FrameRange) (machine : Machine) :
    h.Retains pa (h.grant r machine) := by
  unfold grant
  cases h.machine.frames.value with
  | boot memory => exact ⟨List.subset_cons_self r h.stolen, fun _ hr _ => hr⟩
  | pool pool => exact ⟨List.Subset.refl _, fun _ hr _ => List.mem_cons_of_mem r hr⟩

theorem retains_release {start : Nat} (hstart : start ≠ pa.val) (h : FrameHistory)
    (machine : Machine) : h.Retains pa (h.release start machine) := by
  unfold release
  cases h.machine.frames.value with
  | boot memory => exact retains_keep pa h machine
  | pool pool =>
    refine ⟨List.Subset.refl _, ?_⟩
    intro r hr hpa
    apply List.mem_filter.mpr
    rw [hpa, decide_eq_true_eq]
    exact ⟨hr, hstart.symm⟩

theorem retains_install (pa : PAddr) (h : FrameHistory) (machine : Machine) :
    h.Retains pa (h.install machine) := by
  unfold install
  cases h.machine.frames.value with
  | pool pool => exact retains_keep pa h machine
  | boot memory =>
    dsimp only
    cases PoolLayout.new memory.next memory.limit with
    | error halt => exact retains_keep pa h machine
    | ok l => exact ⟨List.Subset.refl _, fun _ hr _ => hr⟩

theorem retains_freeFrames {freed : PAddr} (hne : freed ≠ pa) :
    h.Retains pa (h.next (.freeFrames freed)) := by
  have hval : freed.val ≠ pa.val := fun heq => hne (Address.ext heq)
  rw [next]
  split
  · exact retains_release hval ..
  · exact retains_keep ..

/-- Only a call that frees a run takes it off the record. -/
theorem retains_next {call : FrameCall} (hfrees : ¬ MemoryCall.Frees pa (.frames call)) :
    h.Retains pa (h.next call) := by
  cases call with
  | allocFrames n =>
    rw [next]
    split
    · exact retains_grant ..
    · exact retains_keep ..
  | allocKernelPages n =>
    rw [next]
    split
    · exact retains_grant ..
    · exact retains_keep ..
  | freeFrames freed => exact retains_freeFrames hfrees
  | freeKernelPages va =>
    cases hva : directMapped? va with
    | none =>
      rw [next_freeKernelPages_of_none hva]
      exact retains_keep ..
    | some freed =>
      rw [next_freeKernelPages hva]
      apply retains_freeFrames
      rintro rfl
      exact hfrees hva
  | markThreadStack marked => exact retains_keep ..
  | frameStats => exact retains_keep ..
  | auditFrames => exact retains_keep ..
  | bootstrap =>
    rw [next]
    split
    · exact retains_install ..
    · exact retains_keep ..

theorem retains_after (hfrees : ¬ call.Frees pa) : h.Retains pa (h.after call) := by
  cases call with
  | frames call =>
    rw [after_frames]
    apply retains_next
    cases call <;> exact hfrees
  | _ => exact retains_keep ..

theorem retains_performAll (h : FrameHistory) (calls : List MemoryCall)
    (hfrees : ∀ call ∈ calls, ¬ call.Frees pa) : h.Retains pa (h.performAll calls) := by
  induction calls generalizing h with
  | nil => exact Retains.refl pa h
  | cons call calls ih =>
    obtain ⟨hcall, hrest⟩ := List.forall_mem_cons.mp hfrees
    have hfirst : h.Retains pa (h.perform call) :=
      perform_induction (Retains.refl pa h) fun _ => retains_after hcall
    exact hfirst.trans (ih (h.perform call) hrest)

end retains

section tracked
variable {first last : PAddr} {machine : Machine} {a : RunAllocator} {l : FrameRange}

/-- Bytes that the caller holds are none of the ledger's. -/
theorem Accounted.keep_of_holds (hacc : h.Accounted first last) {pa : PAddr} {len : Nat}
    (hheld : h.Holds pa len) (hsame : h.machine.SameSource machine)
    (hram : h.machine.ram.ChangesAt pa.val len machine.ram) :
    (h.keep machine).Accounted first last := by
  -- a byte that changes is in a run that is out, and no such run reaches into the ledger
  refine hacc.keep_of_bytes hsame hram.size fun i hi => hram.byte i ?_
  rintro ⟨hge, hlt⟩
  obtain ⟨r, hr, hcovers⟩ := hheld (i - pa.val) (by omega)
  rw [Nat.add_sub_cancel' hge] at hcovers
  exact hacc.not_inLedger hr hcovers hi

theorem Accounted.after (hacc : h.Accounted first last) (hpermits : h.Permits call) :
    (h.after call).Accounted first last := by
  have hcomposes := Machine.sameSource_effect.composes
  have hram := Machine.sameSource_setRam
  cases call with
  | frames call =>
    rw [after_frames]
    exact hacc.next call.direct
  | isReady =>
    rw [FrameHistory.after, Kernel.isReady_outcome]
    exact hacc.keep rfl (.of_same rfl rfl rfl)
  | readBytes pa len =>
    rw [FrameHistory.after, Kernel.machine_readBytes]
    exact hacc
  | writeBytes pa bytes =>
    exact hacc.keep_of_holds hpermits (Kernel.obeys_writeBytes hcomposes hram pa bytes h.machine)
      (Ram.changesAt_writeBytes h.machine pa bytes)
  | zeroFrames pa n =>
    exact hacc.keep_of_holds hpermits (Kernel.obeys_zeroFrames hcomposes hram pa n h.machine)
      (Ram.changesAt_zeroFrames h.machine pa n)
  | copyFrames dst src n =>
    exact hacc.keep_of_holds hpermits.1 (Kernel.obeys_copyFrames hcomposes hram dst src n h.machine)
      (Ram.changesAt_copyFrames h.machine dst src n)

theorem Tracked.after (ht : h.Tracked first last) (hpermits : h.Permits call) :
    (h.after call).Tracked first last := by
  have hcomposes := Machine.sameSource_effect.composes
  have hacc := ht.accounted.after hpermits
  have hram := Machine.sameSource_setRam
  cases call with
  | frames call =>
    rw [after_frames]
    exact ht.next_direct call
  | isReady => exact ht.keep hacc (Kernel.obeys_isReady Machine.sameSource_effect.critical h.machine)
  | writeBytes pa bytes =>
    exact ht.keep hacc (Kernel.obeys_writeBytes hcomposes hram pa bytes h.machine)
  | readBytes pa len =>
    refine ht.keep hacc ?_
    rw [Kernel.machine_readBytes]
    exact ⟨rfl, rfl⟩
  | zeroFrames pa n => exact ht.keep hacc (Kernel.obeys_zeroFrames hcomposes hram pa n h.machine)
  | copyFrames dst src n =>
    exact ht.keep hacc (Kernel.obeys_copyFrames hcomposes hram dst src n h.machine)

/-- Whatever is called keeps the runs that are out on record, and RAM at its size. -/
theorem Tracked.performAll (ht : h.Tracked first last) (calls : List MemoryCall) :
    (h.performAll calls).Tracked first last ∧ h.machine.SameSize (h.performAll calls).machine := by
  induction calls generalizing h with
  | nil => exact ⟨ht, rfl⟩
  | cons call calls ih =>
    have hcall : (h.perform call).Tracked first last ∧
        h.machine.SameSize (h.perform call).machine := by
      rw [perform]
      split_ifs with hpermits
      · exact ⟨ht.after hpermits, sameSize_after h call⟩
      · exact ⟨ht, rfl⟩
    obtain ⟨htracked, hrest⟩ := ih hcall.1
    exact ⟨htracked, hrest.trans hcall.2⟩

end tracked

end FrameHistory
end MipsVm
