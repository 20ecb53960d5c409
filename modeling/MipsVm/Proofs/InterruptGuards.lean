import Mathlib.Data.Bool.Basic
import Mathlib.Data.List.Count
import Mathlib.Data.List.Perm.Basic
import MipsVm.Interrupts

/-! Programs over the interrupt flag and its guards. Of the guards that are alive at most one found
interrupts enabled, and none did while the flag is set; so the flag is restored once all of them are
dropped, in whatever order. Where they are dropped in the order of nested scopes, interrupts stay masked
for as long as one of them is alive. -/
namespace MipsVm

/-- A call on the interrupt flag. -/
inductive FlagCall where
  | disable
  | enable
deriving DecidableEq

def FlagCall.apply (i : Interrupts) : FlagCall → Interrupts
  | .disable => i.disable.2
  | .enable => i.enable

/-- The calls that the drop of a guard makes. -/
def InterruptGuard.dropCalls (g : InterruptGuard) : List FlagCall :=
  if g.wereEnabled then [.enable] else []

theorem InterruptGuard.enable_mem_dropCalls_iff {g : InterruptGuard} :
    .enable ∈ g.dropCalls ↔ g.wereEnabled = true := by
  unfold dropCalls
  cases g.wereEnabled <;> simp

theorem Interrupts.drop_eq_foldl (i : Interrupts) (g : InterruptGuard) :
    i.drop g = g.dropCalls.foldl FlagCall.apply i := by
  unfold drop InterruptGuard.dropCalls
  cases g.wereEnabled <;> rfl

/-- What a program does with guards, through whichever handle on the one flag. -/
inductive GuardStep where
  | create
  /-- Drops the guard after which `younger` of those alive were created. -/
  | drop (younger : Nat)
deriving DecidableEq

/-- The last guard created is the first to be dropped. -/
def GuardStep.Nested (steps : List GuardStep) : Prop :=
  ∀ step ∈ steps, step = .create ∨ step = .drop 0

/-- A program that keeps its guards in nested scopes. -/
inductive Scope where
  | done
  | panic
  /-- `body` under a guard of its own, then `rest`. -/
  | guarded (body rest : Scope)
  /-- `body`, whose panics end here, then `rest`. -/
  | caught (body rest : Scope)

namespace Scope

def panics : Scope → Bool
  | done => false
  | panic => true
  | guarded body rest => body.panics || rest.panics
  | caught _ rest => rest.panics

/-- A guard is dropped where its scope ends, also when a panic ends it; what comes behind is passed over
then. -/
def steps : Scope → List GuardStep
  | done | panic => []
  | guarded body rest =>
    .create :: (body.steps ++ .drop 0 :: if body.panics then [] else rest.steps)
  | caught body rest => body.steps ++ rest.steps

theorem nested_steps (s : Scope) : GuardStep.Nested s.steps := by
  induction s with
  | done => exact nofun
  | panic => exact nofun
  | guarded body rest hbody hrest =>
    intro step hstep
    simp only [steps, List.mem_cons, List.mem_append] at hstep
    rcases hstep with rfl | hin | rfl | hbehind
    · exact .inl rfl
    · exact hbody step hin
    · exact .inr rfl
    · split_ifs at hbehind
      · cases hbehind
      · exact hrest step hbehind
  | caught body rest hbody hrest =>
    intro step hstep
    rcases List.mem_append.mp hstep with hin | hbehind
    · exact hbody step hin
    · exact hrest step hbehind

end Scope

/-- The interrupt flag with the guards that are alive, the newest first. -/
structure GuardedInterrupts where
  interrupts : Interrupts
  guards : List InterruptGuard

namespace GuardedInterrupts
variable {g : GuardedInterrupts} {i : Interrupts} {guard : InterruptGuard} {younger : Nat}

def unguarded (i : Interrupts) : GuardedInterrupts := ⟨i, []⟩

/-- A guard that is gone is not dropped again. -/
def next (g : GuardedInterrupts) : GuardStep → GuardedInterrupts
  | .create => ⟨g.interrupts.guard.2, g.interrupts.guard.1 :: g.guards⟩
  | .drop younger =>
    match g.guards[younger]? with
    | some guard => ⟨g.interrupts.drop guard, g.guards.eraseIdx younger⟩
    | none => g

def run (g : GuardedInterrupts) (steps : List GuardStep) : GuardedInterrupts := steps.foldl next g

/-- The calls on the flag that a step makes. -/
def calls (g : GuardedInterrupts) : GuardStep → List FlagCall
  | .create => [.disable]
  | .drop younger => g.guards[younger]?.elim [] InterruptGuard.dropCalls

theorem next_drop_of_some (h : g.guards[younger]? = some guard) :
    g.next (.drop younger) = ⟨g.interrupts.drop guard, g.guards.eraseIdx younger⟩ := by
  simp only [next, h]

theorem next_drop_of_none (h : g.guards[younger]? = none) : g.next (.drop younger) = g := by
  simp only [next, h]

theorem run_cons (g : GuardedInterrupts) (step : GuardStep) (steps : List GuardStep) :
    g.run (step :: steps) = (g.next step).run steps := rfl

theorem run_append (g : GuardedInterrupts) (steps more : List GuardStep) :
    g.run (steps ++ more) = (g.run steps).run more := List.foldl_append

/-- These calls are all that a step does to the flag. -/
theorem interrupts_next (g : GuardedInterrupts) (step : GuardStep) :
    (g.next step).interrupts = (g.calls step).foldl FlagCall.apply g.interrupts := by
  cases step with
  | create => rfl
  | drop younger =>
    cases h : g.guards[younger]? with
    | none =>
      rw [next_drop_of_none h, calls, h]
      rfl
    | some guard =>
      rw [next_drop_of_some h, calls, h]
      exact g.interrupts.drop_eq_foldl guard

theorem disables_next (g : GuardedInterrupts) (step : GuardStep) :
    (g.next step).interrupts.disables = g.interrupts.disables + [step].count .create := by
  cases step with
  | create => rfl
  | drop younger =>
    cases h : g.guards[younger]? with
    | none =>
      rw [next_drop_of_none h]
      rfl
    | some guard =>
      rw [next_drop_of_some h]
      exact g.interrupts.disables_drop guard

theorem disables_run (g : GuardedInterrupts) (steps : List GuardStep) :
    (g.run steps).interrupts.disables = g.interrupts.disables + steps.count .create := by
  induction steps generalizing g with
  | nil => rfl
  | cons step steps ih =>
    rw [run_cons, ih, disables_next, Nat.add_assoc, ← List.count_append, List.singleton_append]

/-- Number of the guards alive that found interrupts enabled. -/
def restorers (g : GuardedInterrupts) : Nat := g.guards.countP InterruptGuard.wereEnabled

/-- Interrupts were enabled at first if and only if they are now or one guard will enable them. -/
def Balanced (i : Interrupts) (g : GuardedInterrupts) : Prop :=
  g.interrupts.enabled.toNat + g.restorers = i.enabled.toNat

theorem countP_cons_guard (guard : InterruptGuard) (guards : List InterruptGuard) :
    (guard :: guards).countP InterruptGuard.wereEnabled =
      guards.countP InterruptGuard.wereEnabled + guard.wereEnabled.toNat := by
  rw [List.countP_cons]
  cases guard.wereEnabled <;> rfl

theorem countP_eraseIdx (h : g.guards[younger]? = some guard) :
    g.restorers =
      guard.wereEnabled.toNat + (g.guards.eraseIdx younger).countP InterruptGuard.wereEnabled := by
  obtain ⟨hlt, rfl⟩ := List.getElem?_eq_some_iff.mp h
  rw [restorers, ← (List.getElem_cons_eraseIdx_perm hlt).countP_eq, countP_cons_guard, Nat.add_comm]

theorem Balanced.next (h : g.Balanced i) (step : GuardStep) : (g.next step).Balanced i := by
  unfold Balanced at h ⊢
  cases step with
  | create =>
    -- the new guard takes over what the flag was
    have hcount : (g.next .create).restorers = g.restorers + g.interrupts.enabled.toNat :=
      countP_cons_guard g.interrupts.guard.1 g.guards
    rw [hcount, ← h, Nat.add_comm g.restorers]
    exact Nat.zero_add _
  | drop younger =>
    cases hguard : g.guards[younger]? with
    | none => rwa [next_drop_of_none hguard]
    | some guard =>
      have hcount := countP_eraseIdx hguard
      rw [next_drop_of_some hguard, Interrupts.drop]
      cases hfound : guard.wereEnabled with
      | false =>
        rw [hfound, Bool.toNat_false, Nat.zero_add] at hcount
        rw [hcount] at h
        exact h
      | true =>
        -- it is the one guard that restores, so the flag is not set before the drop
        have hle := i.enabled.toNat_le
        rw [hfound, Bool.toNat_true] at hcount
        change 1 + (g.guards.eraseIdx younger).countP InterruptGuard.wereEnabled = i.enabled.toNat
        omega

theorem balanced_run (i : Interrupts) (steps : List GuardStep) :
    ((unguarded i).run steps).Balanced i := by
  have hrun (g : GuardedInterrupts) (h : g.Balanced i) : (g.run steps).Balanced i := by
    induction steps generalizing g with
    | nil => exact h
    | cons step steps ih => exact ih _ (h.next step)
  exact hrun _ rfl

theorem Balanced.enabled_eq (h : g.Balanced i) (hnone : g.guards = []) :
    g.interrupts.enabled = i.enabled := by
  rw [Balanced, restorers, hnone] at h
  exact Function.LeftInverse.injective Bool.ofNat_toNat h

/-- The oldest guard alive found the flag as it was at first. -/
def Rooted (i : Interrupts) (g : GuardedInterrupts) : Prop :=
  ∀ oldest ∈ g.guards.getLast?, oldest.wereEnabled = i.enabled

theorem Rooted.next (hroot : g.Rooted i) (h : g.Balanced i) {step : GuardStep}
    (hstep : step = .create ∨ step = .drop 0) : (g.next step).Rooted i := by
  intro oldest holdest
  rcases hstep with rfl | rfl
  · cases hguards : g.guards with
    | nil =>
      -- the first of the guards finds the flag restored
      rw [GuardedInterrupts.next, hguards] at holdest
      obtain rfl := Option.some.inj holdest
      exact h.enabled_eq hguards
    | cons newest older =>
      rw [GuardedInterrupts.next, hguards, List.getLast?_cons_cons, ← hguards] at holdest
      exact hroot oldest holdest
  · cases hguards : g.guards with
    | nil =>
      rw [next_drop_of_none (by rw [hguards]; rfl), hguards] at holdest
      cases holdest
    | cons newest older =>
      rw [next_drop_of_some (by rw [hguards]; rfl), hguards] at holdest
      apply hroot oldest
      rw [hguards]
      cases older with
      | nil => cases holdest
      | cons second older => rwa [List.getLast?_cons_cons]

theorem rooted_run (i : Interrupts) {steps : List GuardStep} (hnested : GuardStep.Nested steps) :
    ((unguarded i).run steps).Rooted i := by
  have hrun (g : GuardedInterrupts) (hroot : g.Rooted i) (h : g.Balanced i) :
      (g.run steps).Rooted i := by
    induction steps generalizing g with
    | nil => exact hroot
    | cons step steps ih =>
      obtain ⟨hstep, hrest⟩ := List.forall_mem_cons.mp hnested
      exact ih hrest _ (hroot.next h hstep) (h.next step)
  exact hrun _ nofun rfl

/-- While a guard is alive, the guard that is to enable interrupts has not been dropped. -/
theorem Rooted.masked (hroot : g.Rooted i) (h : g.Balanced i) (hsome : g.guards ≠ []) :
    g.interrupts.enabled = false := by
  have hfound := hroot _ (List.getLast?_eq_some_getLast hsome)
  unfold Balanced at h
  apply Bool.toNat_eq_zero.mp
  cases hinitial : i.enabled with
  | false =>
    rw [hinitial, Bool.toNat_false] at h
    omega
  | true =>
    have hpos : 0 < g.restorers :=
      List.countP_pos_iff.mpr ⟨_, List.getLast_mem hsome, hfound.trans hinitial⟩
    rw [hinitial, Bool.toNat_true] at h
    omega

/-- Only the last guard alive can be newest and have found interrupts enabled. -/
theorem Rooted.outermost (hroot : g.Rooted i) (h : g.Balanced i) {older : List InterruptGuard}
    (hguards : g.guards = guard :: older) (hfound : guard.wereEnabled = true) :
    older = [] ∧ i.enabled = true := by
  have hcount : g.restorers = older.countP InterruptGuard.wereEnabled + 1 := by
    rw [restorers, hguards, countP_cons_guard, hfound, Bool.toNat_true]
  have hle := i.enabled.toNat_le
  unfold Balanced at h
  have hinitial : i.enabled = true := Bool.toNat_eq_one.mp (by omega)
  refine ⟨?_, hinitial⟩
  by_contra hsome
  -- the oldest guard would be another one that restores
  have hlast : g.guards.getLast? = some (older.getLast hsome) := by
    rw [hguards, List.getLast?_cons_of_ne_nil hsome, List.getLast?_eq_some_getLast hsome]
  have hpos : 0 < older.countP InterruptGuard.wereEnabled :=
    List.countP_pos_iff.mpr ⟨_, List.getLast_mem hsome, (hroot _ hlast).trans hinitial⟩
  omega

/-- Interrupts are enabled by a nested step if it drops the outermost guard. -/
theorem Rooted.enables (hroot : g.Rooted i) (h : g.Balanced i) {step : GuardStep}
    (hstep : step = .create ∨ step = .drop 0) (hcall : .enable ∈ g.calls step) :
    step = .drop 0 ∧ ∃ outermost, g.guards = [outermost] ∧ outermost.wereEnabled = true ∧
      i.enabled = true := by
  rcases hstep with rfl | rfl
  · rw [calls, List.mem_singleton] at hcall
    cases hcall
  refine ⟨rfl, ?_⟩
  cases hguards : g.guards with
  | nil =>
    rw [calls, hguards] at hcall
    cases hcall
  | cons newest older =>
    rw [calls, hguards] at hcall
    have hfound : newest.wereEnabled = true := InterruptGuard.enable_mem_dropCalls_iff.mp hcall
    obtain ⟨rfl, hinitial⟩ := hroot.outermost h hguards hfound
    exact ⟨newest, rfl, hfound, hinitial⟩

/-- A scope leaves the guards and the flag as it found them, also when a panic ends it. -/
theorem run_scope (g : GuardedInterrupts) (s : Scope) :
    (g.run s.steps).guards = g.guards ∧
      (g.run s.steps).interrupts.enabled = g.interrupts.enabled := by
  induction s generalizing g with
  | done => exact ⟨rfl, rfl⟩
  | panic => exact ⟨rfl, rfl⟩
  | guarded body rest hbody hrest =>
    obtain ⟨hguards, henabled⟩ := hbody (g.next .create)
    -- when the guard is dropped, it is the newest one again, and the flag is as it left it
    have hnewest : ((g.next .create).run body.steps).guards[0]? = some g.interrupts.guard.1 := by
      rw [hguards]
      rfl
    have hdropped : (((g.next .create).run body.steps).next (.drop 0)).guards = g.guards ∧
        (((g.next .create).run body.steps).next (.drop 0)).interrupts.enabled =
          g.interrupts.enabled := by
      rw [next_drop_of_some hnewest, hguards]
      refine ⟨rfl, ?_⟩
      rw [Interrupts.enabled_drop, henabled]
      exact Bool.or_false _
    rw [Scope.steps, run_cons, run_append, run_cons]
    split_ifs with hpanics
    · exact hdropped
    · obtain ⟨hrestGuards, hrestEnabled⟩ :=
        hrest (((g.next .create).run body.steps).next (.drop 0))
      exact ⟨hrestGuards.trans hdropped.1, hrestEnabled.trans hdropped.2⟩
  | caught body rest hbody hrest =>
    rw [Scope.steps, run_append]
    obtain ⟨hbodyGuards, hbodyEnabled⟩ := hbody g
    obtain ⟨hrestGuards, hrestEnabled⟩ := hrest (g.run body.steps)
    exact ⟨hrestGuards.trans hbodyGuards, hrestEnabled.trans hbodyEnabled⟩

/-- In every state of a program that starts without guards: when no guard is alive, the flag is as it was
at first, in whatever order guards were dropped, and each guard was counted once. If the guards were
dropped in the order of nested scopes, interrupts are masked while one is alive, and the only step that
can enable them is the drop of the outermost guard, if it found them enabled. Scopes keep that order, also
those that a panic ends, and leave guards and flag as they were. -/
theorem interrupts_restored (i : Interrupts) (steps : List GuardStep) :
    let g := (unguarded i).run steps
    (g.guards = [] → g.interrupts.enabled = i.enabled) ∧
    g.interrupts.disables = i.disables + steps.count .create ∧
    (GuardStep.Nested steps → g.guards ≠ [] → g.interrupts.enabled = false) ∧
    (∀ step, GuardStep.Nested (steps ++ [step]) → .enable ∈ g.calls step →
      step = .drop 0 ∧ ∃ outermost, g.guards = [outermost] ∧ outermost.wereEnabled = true ∧
        i.enabled = true) ∧
    ∀ s : Scope, GuardStep.Nested s.steps ∧ (g.run s.steps).guards = g.guards ∧
      (g.run s.steps).interrupts.enabled = g.interrupts.enabled := by
  intro g
  have hbalanced : g.Balanced i := balanced_run i steps
  refine ⟨hbalanced.enabled_eq, disables_run (unguarded i) steps, ?_, ?_, ?_⟩
  · intro hnested hsome
    exact (rooted_run i hnested).masked hbalanced hsome
  · intro step hnested hcall
    obtain ⟨hsteps, hstep⟩ := List.forall_mem_append.mp hnested
    exact (rooted_run i hsteps).enables hbalanced (hstep step (List.mem_singleton.mpr rfl)) hcall
  · intro s
    exact ⟨s.nested_steps, g.run_scope s⟩

/-- The outer of two guards is dropped first; and two guards in nested scopes, the inner one gone. -/
theorem interrupts_restored_out_of_order :
    ((unguarded .initial).run [.create, .create, .drop 1]).interrupts.enabled = true ∧
    ((unguarded .initial).run [.create, .create, .drop 1, .drop 0]).guards = [] ∧
    ((unguarded .initial).run [.create, .create, .drop 1, .drop 0]).interrupts.enabled = true ∧
    GuardStep.Nested [.create, .create, .drop 0] ∧
    ((unguarded .initial).run [.create, .create, .drop 0]).interrupts.enabled = false ∧
    .enable ∈ ((unguarded .initial).run [.create, .create, .drop 0]).calls (.drop 0) ∧
    ∃ outermost, ((unguarded .initial).run [.create, .create, .drop 0]).guards = [outermost] := by
  have hnested : GuardStep.Nested [.create, .create, .drop 0] := by simp [GuardStep.Nested]
  have hmore : GuardStep.Nested ([.create, .create, .drop 0] ++ [.drop 0]) := by
    simp [GuardStep.Nested]
  have hcall : .enable ∈ ((unguarded .initial).run [.create, .create, .drop 0]).calls (.drop 0) :=
    List.mem_singleton.mpr rfl
  obtain ⟨hrestored, -⟩ :=
    interrupts_restored .initial [.create, .create, .drop 1, .drop 0]
  obtain ⟨-, -, hmasked, henables, -⟩ := interrupts_restored .initial [.create, .create, .drop 0]
  obtain ⟨-, outermost, hguards, -⟩ := henables (.drop 0) hmore hcall
  exact ⟨rfl, rfl, hrestored rfl, hnested, hmasked hnested (List.cons_ne_nil _ _), hcall,
    outermost, hguards⟩

end GuardedInterrupts
end MipsVm
