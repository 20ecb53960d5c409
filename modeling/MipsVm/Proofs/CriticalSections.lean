import MipsVm.Proofs.Operations

/-! Every operation leaves the interrupt flag and the lock as it found them, however it ends, and in
between holds the lock and touches the translation buffer only with interrupts masked. -/
namespace MipsVm

/-- The interrupt flag and the lock at one moment. -/
structure Flags where
  interruptsEnabled : Bool
  lockHeld : Bool
deriving DecidableEq, Repr

namespace Flags

/-- In a critical section before the lock is taken. -/
def masked : Flags := ⟨false, false⟩

/-- In a critical section, with the lock. -/
def locked : Flags := ⟨false, true⟩

end Flags

/-- What a step may make of the flags: a lock is taken when it is free and given up when it is held, and
no other step but the two on the interrupt flag moves anything. -/
def Action.Moves (action : Action) (before after : Flags) : Prop :=
  match action with
  | .maskInterrupts => after = ⟨false, before.lockHeld⟩
  | .restoreInterrupts => before.interruptsEnabled = false ∧ after.lockHeld = before.lockHeld
  | .takeLock => before.lockHeld = false ∧ after = { before with lockHeld := true }
  | .freeLock => before.lockHeld = true ∧ after = { before with lockHeld := false }
  | .readSlots | .writeSlots | .log _ => after = before

namespace Event

def flags (e : Event) : Flags := ⟨e.interruptsEnabled, e.lockHeld⟩

/-- Whoever holds the lock or touches the translation buffer has masked interrupts. -/
def Guarded (e : Event) : Prop :=
  e.lockHeld = true ∨ e.action = .readSlots ∨ e.action = .writeSlots → e.interruptsEnabled = false

theorem guarded_of_masked {e : Event} (h : e.interruptsEnabled = false) : e.Guarded := fun _ => h

end Event

/-- Events that lead from the flags `f` to the flags `g`, each from where the one before it left them, and
all of them guarded. -/
inductive Orderly : Flags → List Event → Flags → Prop where
  | nil (f : Flags) : Orderly f [] f
  | cons {f g : Flags} {e : Event} {rest : List Event} (hmoves : e.action.Moves f e.flags)
    (hguarded : e.Guarded) (hrest : Orderly e.flags rest g) : Orderly f (e :: rest) g

namespace Orderly
variable {f g k : Flags} {es es' : List Event}

theorem trans (h : Orderly f es g) (h' : Orderly g es' k) : Orderly f (es ++ es') k := by
  induction h with
  | nil f => exact h'
  | cons hmoves hguarded _ ih => exact .cons hmoves hguarded (ih h')

theorem single {e : Event} (hmoves : e.action.Moves f e.flags) (hguarded : e.Guarded) :
    Orderly f [e] e.flags := .cons hmoves hguarded (.nil e.flags)

theorem guarded (h : Orderly f es g) : ∀ e ∈ es, e.Guarded := by
  induction h with
  | nil f => exact nofun
  | cons hmoves hguarded hrest ih => exact List.forall_mem_cons.mpr ⟨hguarded, ih⟩

end Orderly

namespace Machine
variable {m m' m'' : Machine} {f : Flags}

def flags (m : Machine) : Flags := ⟨m.interrupts.enabled, m.frames.locked⟩

/-- From `m` to `m'` orderly events are observed. -/
def Observes (m m' : Machine) : Prop :=
  ∃ events, m'.trace = m.trace ++ events.toArray ∧ Orderly m.flags events m'.flags

theorem Observes.refl (m : Machine) : m.Observes m := ⟨[], by simp, .nil m.flags⟩

theorem Observes.trans (h : m.Observes m') (h' : m'.Observes m'') : m.Observes m'' := by
  obtain ⟨events, htrace, horderly⟩ := h
  obtain ⟨events', htrace', horderly'⟩ := h'
  have htraces : m''.trace = m.trace ++ (events ++ events').toArray := by
    simp only [htrace', htrace, Array.append_assoc, List.append_toArray]
  exact ⟨events ++ events', htraces, horderly.trans horderly'⟩

/-- One step is observed with the flags as it leaves them. -/
theorem observes_note {action : Action} (hmoves : action.Moves m'.flags m.flags)
    (hguarded : (⟨action, m.interrupts.enabled, m.frames.locked⟩ : Event).Guarded)
    (htrace : m.trace = m'.trace) : m'.Observes (m.note action) := by
  have hpush : (m.note action).trace = m'.trace ++
      [(⟨action, m.interrupts.enabled, m.frames.locked⟩ : Event)].toArray := by
    rw [note, ← htrace]
    exact Array.push_eq_append
  exact ⟨_, hpush, .single hmoves hguarded⟩

/-- From `m` to `m'` orderly events are observed, and the flags are in the end what they were. -/
structure Quiet (m m' : Machine) : Prop where
  observes : m.Observes m'
  flags_eq : m'.flags = m.flags

theorem Quiet.refl (m : Machine) : m.Quiet m := ⟨.refl m, rfl⟩

theorem Quiet.trans (h : m.Quiet m') (h' : m'.Quiet m'') : m.Quiet m'' :=
  ⟨h.observes.trans h'.observes, h'.flags_eq.trans h.flags_eq⟩

theorem Quiet.of_unobserved (htrace : m'.trace = m.trace) (hflags : m'.flags = m.flags) :
    m.Quiet m' := by
  have hempty : m'.trace = m.trace ++ ([] : List Event).toArray := by simp [htrace]
  have horderly : Orderly m.flags [] m'.flags := by
    rw [hflags]
    exact .nil m.flags
  exact ⟨⟨[], hempty, horderly⟩, hflags⟩

/-- A step that moves no flag. -/
theorem quiet_note {action : Action} (hmoves : action.Moves m.flags m.flags)
    (hguarded : (⟨action, m.interrupts.enabled, m.frames.locked⟩ : Event).Guarded) :
    m.Quiet (m.note action) := ⟨observes_note hmoves hguarded rfl, rfl⟩

/-- Quiet for one who comes with the flags `f`. -/
def QuietAt (f : Flags) (m m' : Machine) : Prop := m.flags = f → m.Quiet m'

/-- Quiet for one who comes without the lock. -/
def QuietUnlocked (m m' : Machine) : Prop := m.frames.locked = false → m.Quiet m'

theorem quietAt_of_enabled (hf : f.interruptsEnabled = false) : Composes (QuietAt f) where
  refl m _ := .refl m
  trans := by
    intro a b c hab hbc ha
    have hb : b.flags = f := (hab ha).flags_eq.trans ha
    exact (hab ha).trans (hbc hb)
  log := by
    intro m record hm
    have hmasked : m.interrupts.enabled = false := (congrArg Flags.interruptsEnabled hm).trans hf
    exact quiet_note rfl (Event.guarded_of_masked hmasked)

theorem quietUnlocked_composes : Composes QuietUnlocked where
  refl m _ := .refl m
  trans := by
    intro a b c hab hbc ha
    have hb : b.frames.locked = false := (congrArg Flags.lockHeld (hab ha).flags_eq).trans ha
    exact (hab ha).trans (hbc hb)
  log := by
    intro m record hm
    refine quiet_note rfl ?_
    rintro (hheld | hslot | hslot)
    · cases hm.symm.trans hheld
    · cases hslot
    · cases hslot

/-- What is done under a guard that finds the lock free: the guard puts the flag back to what it found. -/
theorem quiet_masked {α : Type} {k : Kernel α} (hk : k.Obeys (QuietAt .masked)) :
    (Kernel.masked k).Obeys QuietUnlocked := by
  intro m hm
  have hflags : m.mask.flags = .masked := congrArg (Flags.mk false) hm
  have hmask : m.Observes m.mask := observes_note rfl (Event.guarded_of_masked rfl) rfl
  have hbody : m.mask.Quiet (k.outcome m.mask).2 := hk m.mask hflags
  rw [Kernel.outcome_masked]
  -- from here on it does not matter what was done, nor whether it halted: only the flags that it left
  generalize (k.outcome m.mask).2 = left at hbody
  have hleft : left.flags = .masked := hbody.flags_eq.trans hflags
  have hdisabled : left.interrupts.enabled = false := congrArg Flags.interruptsEnabled hleft
  have hfree : left.frames.locked = false := congrArg Flags.lockHeld hleft
  have henabled : (left.interrupts.drop m.interrupts.guard.1).enabled = m.interrupts.enabled := by
    rw [Interrupts.enabled_drop, hdisabled, Bool.or_false]
    rfl
  have hrestore : left.Observes (left.restore m.interrupts.guard.1) := by
    refine observes_note ⟨hdisabled, rfl⟩ ?_ rfl
    -- interrupts may be enabled again, but the lock is free and no slot is touched
    rintro (hheld | hslot | hslot)
    · cases hfree.symm.trans hheld
    · cases hslot
    · cases hslot
  have hobserves : m.Observes (left.restore m.interrupts.guard.1) :=
    hmask.trans (hbody.observes.trans hrestore)
  refine ⟨hobserves, ?_⟩
  exact congrArg₂ Flags.mk henabled (hfree.trans hm.symm)

/-- What is done with the lock, taken while interrupts are masked. -/
theorem quiet_locked {α : Type} {k : Kernel α} (hk : k.Obeys (QuietAt .locked)) :
    (Kernel.locked k).Obeys (QuietAt .masked) := by
  intro m hm
  have hdisabled : m.interrupts.enabled = false := congrArg Flags.interruptsEnabled hm
  have hfree : m.frames.locked = false := congrArg Flags.lockHeld hm
  have hheld : m.frames.lock.locked = true := by rw [SpinLock.lock_eq]
  have hflags : m.takeLock.flags = .locked := congrArg₂ Flags.mk hdisabled hheld
  have htake : m.Observes m.takeLock := by
    refine observes_note ⟨hfree, ?_⟩ (Event.guarded_of_masked hdisabled) rfl
    exact congrArg (Flags.mk m.interrupts.enabled) hheld
  have hbody : m.takeLock.Quiet (k.outcome m.takeLock).2 := hk m.takeLock hflags
  rw [Kernel.outcome_locked]
  generalize (k.outcome m.takeLock).2 = left at hbody
  have hleft : left.flags = .locked := hbody.flags_eq.trans hflags
  have hleftDisabled : left.interrupts.enabled = false := congrArg Flags.interruptsEnabled hleft
  have hleftHeld : left.frames.locked = true := congrArg Flags.lockHeld hleft
  have hfreeLock : left.Observes left.freeLock :=
    observes_note ⟨hleftHeld, rfl⟩ (Event.guarded_of_masked hleftDisabled) rfl
  have hobserves : m.Observes left.freeLock := htake.trans (hbody.observes.trans hfreeLock)
  have hend : left.freeLock.flags = .masked := congrArg (Flags.mk · false) hleftDisabled
  exact ⟨hobserves, hend.trans hm.symm⟩

/-- A write to a part of the machine that carries no flag. -/
theorem quietAt_write {f : Flags} {m m' : Machine} (htrace : m'.trace = m.trace)
    (hflags : m'.flags = m.flags) : QuietAt f m m' := fun _ => .of_unobserved htrace hflags

theorem quiet_masking : Masking (QuietAt .masked) QuietUnlocked where
  inside := quietAt_of_enabled rfl
  readSlots _ hm := quiet_note rfl (Event.guarded_of_masked (congrArg Flags.interruptsEnabled hm))
  writeSlots _ hm := quiet_note rfl (Event.guarded_of_masked (congrArg Flags.interruptsEnabled hm))
  masked := quiet_masked

theorem quiet_critical : Critical (QuietAt .locked) QuietUnlocked where
  inside := quietAt_of_enabled rfl
  outside := quietUnlocked_composes
  frames hk := by
    have hinside : Composes (QuietAt .locked) := quietAt_of_enabled rfl
    apply quiet_masked
    apply quiet_locked
    exact Kernel.obeys_bind hinside (Kernel.obeys_get hinside) fun m => hk m.frames.value

/-- No operation that finds the lock free does anything with it, or with the buffer, unguarded. -/
theorem quiet_next (m : Machine) (op : Operation) (hfree : m.frames.locked = false) :
    m.Quiet (m.next op) := by
  have hmemory : MemoryBound QuietUnlocked := Kernel.memoryBound quiet_critical
    (fun _ _ => quietAt_write rfl rfl) (fun _ _ => quietAt_write rfl rfl)
    (fun _ _ => quietAt_write rfl rfl) fun _ _ _ => .of_unobserved rfl rfl
  have htlb : ∀ m tlb, QuietAt .masked m (m.setTlb tlb) := fun _ _ => quietAt_write rfl rfl
  have hflush : Kernel.flushTlb.Obeys QuietUnlocked := Kernel.obeys_flushTlb quiet_masking htlb
  have hinstall : ∀ va pa dirty, (Kernel.installMapping va pa dirty).Obeys QuietUnlocked :=
    Kernel.obeys_installMapping quiet_masking htlb
  exact next_bound hmemory (fun _ => hflush) (fun _ => hinstall) m hfree

end Machine

/-- What can become of the machine between two operations of its kernel. -/
inductive Step where
  | operation (op : Operation)
  | disableInterrupts
  | enableInterrupts
  /-- A write that goes astray and hits an entry of the ledger. -/
  | strayWrite (i : Nat) (e : Entry)

namespace Machine

def step (m : Machine) : Step → Machine
  | .operation op => m.next op
  | .disableInterrupts => { m with interrupts := m.interrupts.disable.2 }
  | .enableInterrupts => { m with interrupts := m.interrupts.enable }
  | .strayWrite i e =>
    match m.frames.value with
    | .boot _ => m
    | .pool pool =>
      match pool.strayWrite? i e with
      | some stray => m.setPool pool stray
      | none => m

def steps (m : Machine) (steps : List Step) : Machine := steps.foldl step m

variable {m : Machine}

theorem unlocked_step (hfree : m.frames.locked = false) (s : Step) :
    (m.step s).frames.locked = false := by
  cases s with
  | operation op => exact (congrArg Flags.lockHeld (quiet_next m op hfree).flags_eq).trans hfree
  | disableInterrupts => exact hfree
  | enableInterrupts => exact hfree
  | strayWrite i e =>
    unfold step
    cases m.frames.value with
    | boot memory => exact hfree
    | pool pool =>
      dsimp only
      cases pool.strayWrite? i e <;> exact hfree

theorem unlocked_steps (hfree : m.frames.locked = false) (ss : List Step) :
    (m.steps ss).frames.locked = false := by
  -- the interrupt flag is no part of the invariant: operations may be called with either value of it
  induction ss generalizing m with
  | nil => exact hfree
  | cons s ss ih => exact ih (unlocked_step hfree s)

/-- Nothing that the operation does shows in the interrupt flag or in the lock, and while it holds the
lock or touches the translation buffer interrupts are masked. -/
structure Neutral (m : Machine) (op : Operation) : Prop where
  interrupts : (m.next op).interrupts.enabled = m.interrupts.enabled
  before : m.frames.locked = false
  after : (m.next op).frames.locked = false
  observed : ∃ events, (m.next op).trace = m.trace ++ events.toArray ∧
    Orderly m.flags events (m.next op).flags ∧ ∀ e ∈ events, e.Guarded

/-- Whatever happened before, and whether the operation answers, fails or halts. -/
theorem operations_neutral (ram : Ram) (first last : PAddr) (victim : Nat → Fin tlbSlots)
    (ss : List Step) (op : Operation) :
    ((new ram first last victim).steps ss).Neutral op := by
  have hfree : ((new ram first last victim).steps ss).frames.locked = false := unlocked_steps rfl ss
  have hquiet := quiet_next _ op hfree
  obtain ⟨events, htrace, horderly⟩ := hquiet.observes
  constructor
  case interrupts => exact congrArg Flags.interruptsEnabled hquiet.flags_eq
  case before => exact hfree
  case after => exact (congrArg Flags.lockHeld hquiet.flags_eq).trans hfree
  case observed => exact ⟨events, htrace, horderly, horderly.guarded⟩

end Machine
end MipsVm
