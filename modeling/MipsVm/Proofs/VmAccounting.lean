import MipsVm.Proofs.VmHoldings

/-! The pool counts as used exactly the frames that address spaces and the kernel's runs have from it,
and takes back all that they hold. -/
namespace MipsVm

/-- Pages of a region that has frames. -/
def Region.boundPages? (r : Region) : Option Nat := r.pbase.map fun _ => r.npages

/-- Lengths of the runs of the pool that the space holds: of each program region and of the stack, as
far as they were bound from the pool. -/
def ProcessSpace.poolRuns (s : ProcessSpace) : List Nat :=
  if s.pooled then
    Segment.all.filterMap fun segment => (s.space.region? segment).bind Region.boundPages?
  else []

namespace Holding

theorem pooledRanges_append (xs ys : List Holding) :
    pooledRanges (xs ++ ys) = pooledRanges xs ++ pooledRanges ys := by
  rw [pooledRanges, List.filter_append, List.map_append, pooledRanges, pooledRanges]

end Holding

namespace AddressSpace

theorem frames_ranges (a : AddressSpace) :
    a.ranges.map FrameRange.frames =
      Segment.all.filterMap fun segment => (a.region? segment).bind Region.boundPages? := by
  rw [ranges, List.map_filterMap]
  apply List.filterMap_congr
  intro segment _
  rw [range?]
  cases a.region? segment with
  | none => rfl
  | some r =>
    rw [Option.bind_some, Option.bind_some, Option.map_map]
    rfl

theorem pooledRanges_holdings (a : AddressSpace) (pooled : Bool) :
    Holding.pooledRanges (a.holdings pooled) = if pooled then a.ranges else [] := by
  cases pooled with
  | false => simp [Holding.pooledRanges, holdings, List.filter_map, Function.comp_def]
  | true => simp [Holding.pooledRanges, holdings, List.filter_map, Function.comp_def]

end AddressSpace

namespace VmHistory
variable {first last : PAddr} {h : VmHistory} {i : Nat} {s : ProcessSpace}

/-- Lengths of all runs of the pool that somebody holds. -/
def poolRuns (h : VmHistory) : List Nat :=
  h.spaces.live.flatMap ProcessSpace.poolRuns ++
    (h.runs.live.filter KernelRun.pooled).map KernelRun.frames

theorem frames_space (s : ProcessSpace) :
    (Holding.pooledRanges s.holdings).map FrameRange.frames = s.poolRuns := by
  rw [ProcessSpace.holdings, AddressSpace.pooledRanges_holdings, ProcessSpace.poolRuns]
  split_ifs
  · exact s.space.frames_ranges
  · rfl

theorem frames_runs (runs : List KernelRun) :
    (Holding.pooledRanges (runs.map KernelRun.holding)).map FrameRange.frames =
      (runs.filter KernelRun.pooled).map KernelRun.frames := by
  rw [Holding.pooledRanges, List.filter_map, List.map_map, List.map_map]
  rfl

/-- What is held of the pool has the lengths of the runs of the pool that are held. -/
theorem frames_holdings (h : VmHistory) :
    (Holding.pooledRanges h.holdings).map FrameRange.frames = h.poolRuns := by
  have hspaces (spaces : List ProcessSpace) :
      (Holding.pooledRanges (spaces.flatMap ProcessSpace.holdings)).map FrameRange.frames =
        spaces.flatMap ProcessSpace.poolRuns := by
    induction spaces with
    | nil => rfl
    | cons s spaces ih =>
      rw [List.flatMap_cons, Holding.pooledRanges_append, List.map_append, frames_space, ih,
        List.flatMap_cons]
  rw [holdings, allHoldings, Holding.pooledRanges_append, List.map_append, hspaces, frames_runs]
  rfl

/-- Statistics and audit of the pool agree with what is held of it. -/
structure Balanced (h : VmHistory) : Prop where
  counted : ∃ stats, (Kernel.frameStats.outcome h.machine).1 = .ok stats ∧
    (Kernel.auditFrames.outcome h.machine).1 = .ok (.ok stats) ∧
    stats.used = h.poolRuns.sum ∧ stats.runs = h.poolRuns.length
  all_free : h.spaces.live = [] → h.runs.live = [] →
    ∃ pool, h.machine.frames.value = .pool pool ∧ ∀ i, pool.ledger.get i = .free

/-- Whatever is held can be given back. -/
structure Releases (h : VmHistory) : Prop where
  destroySpace : ∀ i s, h.spaces.get? i = some s →
    ((Kernel.destroySpace s.space).outcome h.machine).1 = .ok ()
  freeFrames : ∀ i run, h.runs.get? i = some run →
    ((Kernel.freeFrames run.base).outcome h.machine).1 = .ok ()
  freeKernelPages : ∀ i run, h.runs.get? i = some run →
    ∃ va, kernelAddr run.base = .ok va ∧
      ((Kernel.freeKernelPages va).outcome h.machine).1 = .ok ()

/-- Some call for the pool among `calls` was answered. -/
def Bootstraps (h : VmHistory) (calls : List VmCall) : Prop :=
  ∃ before after, calls = before ++ .bootstrap :: after ∧
    (Kernel.bootstrap.outcome (h.run before).machine).1 = .ok ()

end VmHistory

namespace Owned
variable {first last : PAddr} {m : Machine} {hs : List Holding} {l : Option FrameRange}

/-- The live runs of the pool are what is held of it. -/
theorem live_perm (h : Owned first last m hs l) (hpooling : m.pooling = true) :
    ∃ a : RunAllocator, m.frames.value = .pool a.pool ∧
      (Holding.pooledRanges hs).Perm (a.live.runs.map a.range) := by
  rcases h.phase with ⟨memory, -, hboot, -⟩ | ⟨a, ledger, hsource, -, hp⟩
  · cases hboot.symm.trans hpooling
  · exact ⟨a, hsource, hp.live_perm (h.counted a.pool hsource)⟩

end Owned

namespace Kernel

theorem pooling_of_bootstrap {m : Machine} (h : (bootstrap.outcome m).1 = .ok ()) :
    (bootstrap.outcome m).2.pooling = true := by
  cases hsource : m.frames.value with
  | pool pool =>
    rw [bootstrap_pool hsource] at h
    cases h
  | boot memory =>
    obtain ⟨split, hsplit, -⟩ := PoolLayout.new_splits memory.next memory.limit
    rcases Nat.lt_or_ge split.lo.val m.ram.size with hin | hout
    · obtain ⟨fits, houtcome⟩ := bootstrap_boot_of_lt hsource hsplit hin
      rw [houtcome]
      rfl
    · rw [bootstrap_boot_of_le hsource hsplit hout] at h
      cases h

end Kernel

namespace VmHistory
namespace Owned
variable {first last : PAddr} {h : VmHistory} (hown : h.Owned first last)
include hown

theorem releases : h.Releases := by
  constructor
  case destroySpace =>
    intro i s hs
    have hmoved := hown.perm (holdings_space hs)
    obtain ⟨machine, hdestroy, -⟩ := hmoved.destroySpace
    exact congrArg Prod.fst hdestroy
  case freeFrames =>
    intro i run hrun
    have hmoved := hown.perm (holdings_run hrun)
    obtain ⟨machine, hfree, -⟩ := hmoved.freeFrames run.start_holding
    exact congrArg Prod.fst hfree
  case freeKernelPages =>
    intro i run hrun
    have hmoved := hown.perm (holdings_run hrun)
    obtain ⟨va, haddr, hmapped⟩ :=
      hmoved.kernelAddr_of_holding List.mem_cons_self run.start_holding
    obtain ⟨machine, hfree, -⟩ := hmoved.freeFrames run.start_holding
    refine ⟨va, haddr, ?_⟩
    rw [Kernel.freeKernelPages_outcome, hmapped]
    exact congrArg Prod.fst hfree

theorem balanced (hpooling : h.machine.pooling = true) : h.Balanced := by
  obtain ⟨a, hsource, hperm⟩ := MipsVm.Owned.live_perm hown hpooling
  have hlengths := hperm.map FrameRange.frames
  rw [frames_holdings, List.map_map] at hlengths
  constructor
  case counted =>
    obtain ⟨hstats, haudit⟩ := Kernel.audited_of_pool hsource
    refine ⟨a.stats, hstats, haudit, ?_, ?_⟩
    · exact hlengths.sum_nat.symm
    · rw [hlengths.length_eq, List.length_map]
      rfl
  case all_free =>
    intro hspaces hruns
    have hempty : h.holdings = [] := by
      rw [holdings, hspaces, hruns]
      rfl
    rw [hempty] at hperm
    have hnone : a.live.runs = [] := List.map_eq_nil_iff.mp (List.nil_perm.mp hperm)
    refine ⟨a.pool, hsource, ?_⟩
    intro i
    have hentry : a.pool.ledger.get i = a.live.entry i := a.live.get_ledger i
    rw [hentry, RunSet.entry_eq_free_iff, hnone]
    exact nofun

/-- Once there is a pool, there is one for good. -/
theorem pooling_run {calls : List VmCall} (hpooling : h.machine.pooling = true)
    (hcalls : ∀ call ∈ calls, call.Linear) : (h.run calls).machine.pooling = true := by
  induction calls generalizing h with
  | nil => exact hpooling
  | cons call calls ih =>
    obtain ⟨hcall, hcalls⟩ := List.forall_mem_cons.mp hcalls
    have hnext := hown.next hcall
    exact ih hnext.owned (hnext.spares.pooling hpooling) hcalls

theorem pooling_of_bootstraps {calls : List VmCall} (hcalls : ∀ call ∈ calls, call.Linear)
    (hboot : h.Bootstraps calls) : (h.run calls).machine.pooling = true := by
  obtain ⟨before, after, rfl, hanswer⟩ := hboot
  obtain ⟨hbefore, hrest⟩ := List.forall_mem_append.mp hcalls
  obtain ⟨hcall, hafter⟩ := List.forall_mem_cons.mp hrest
  have hreached : (h.run before).Owned first last := hown.run hbefore
  have hbooted : ((h.run before).next .bootstrap).machine.pooling = true := by
    have hmachine : ((h.run before).next .bootstrap).machine =
        (Kernel.bootstrap.outcome (h.run before).machine).2 :=
      FrameHistory.machine_bootstrap _
    rw [hmachine]
    exact Kernel.pooling_of_bootstrap hanswer
  rw [run_append, run_cons]
  exact (hreached.next hcall).owned.pooling_run hbooted hafter

end Owned

/-- The frames lie in RAM and in the direct map, and no descriptor of a space is duplicated: then all
that is held can be given back at any point, and once there is a pool it counts as used just that. -/
theorem balanced_of_calls {ram : Ram} {first last : PAddr} (hram : last.val ≤ ram.size)
    (hlast : last.val ≤ directMapSize) (victim : Nat → Fin tlbSlots) {calls : List VmCall}
    (hcalls : ∀ call ∈ calls, call.Linear) :
    ((start (.new ram first last victim)).run calls).Releases ∧
      ((start (.new ram first last victim)).Bootstraps calls →
        ((start (.new ram first last victim)).run calls).Balanced) := by
  have hstart : (start (.new ram first last victim)).Owned first last :=
    owned_start hram hlast victim
  have hown := hstart.run hcalls
  exact ⟨hown.releases, fun hboot => hown.balanced (hstart.pooling_of_bootstraps hcalls hboot)⟩

/-- The first space has frames of boot memory, which the pool neither counts nor takes back. -/
theorem balanced_of_calls_across_bootstrap :
    ∃ h : VmHistory, h =
        (start (.new ⟨.replicate 64 .zero⟩ ⟨0x1000, by decide⟩ ⟨0x40000, by decide⟩ fun _ => 0)).run
          ([.createSpace, .defineRegion 0 ⟨0x400000, by decide⟩ 0x1000 ⟨7⟩, .prepareLoad 0] ++
            .bootstrap :: [.copySpace 0, .allocFrames 3, .markThreadStack 0, .destroySpace 0]) ∧
      h.poolRuns = [1, 12, 3] ∧ h.Releases ∧ h.Balanced := by
  refine ⟨_, rfl, ?_, (balanced_of_calls ?_ ?_ _ ?_).imp_right fun hcounts =>
    hcounts ⟨_, _, rfl, ?_⟩⟩
  · decide +kernel
  · decide +kernel
  · decide
  · simp [VmCall.Linear]
  · rfl

end VmHistory
end MipsVm
