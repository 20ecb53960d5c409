import MipsVm.AddressSpace.Transfer
import MipsVm.Proofs.FrameService
import MipsVm.Proofs.KernelEffects
import MipsVm.Proofs.SpaceLayout

/-! What loading, copying, running and destroying an address space answers and leaves behind, from the
outcomes of the operations on physical memory that it is made of. -/
namespace MipsVm

theorem Ram.read_of_lt {r : Ram} {pa : PAddr} (h : pa.val < r.size) (len : Nat) :
    r.read pa len = .ok (.ofFn fun i : Fin len => r.byte (pa.val + i)) := by
  rw [read, reach_of_lt h]
  rfl

theorem Ram.copy_of_lt {r : Ram} {dst src : PAddr} (hsrc : src.val < r.size)
    (hdst : dst.val < r.size) (len : Nat) :
    r.copy dst src len = .ok (r.update dst.val len fun i => r.byte (src.val + i)) := by
  rw [copy, reach_of_lt hsrc, reach_of_lt hdst]
  rfl

theorem Ram.copy_eq_ok {r r' : Ram} {dst src : PAddr} {len : Nat} (h : r.copy dst src len = .ok r') :
    r' = r.update dst.val len fun i => r.byte (src.val + i) := by
  rcases Nat.lt_or_ge src.val r.size with hsrc | hsrc
  · rcases Nat.lt_or_ge dst.val r.size with hdst | hdst
    · rw [copy_of_lt hsrc hdst] at h
      exact (Except.ok.inj h).symm
    · rw [copy, reach_of_lt hsrc, reach_of_le hdst] at h
      cases h
  · rw [copy, reach_of_le hsrc] at h
    cases h

namespace AddressSpace
variable {a b : AddressSpace} {done : List Segment} {segment : Segment}

/-- The segments `done` of `a` have got frames in `b`, and nothing else has changed. -/
structure Filled (a b : AddressSpace) (done : List Segment) : Prop where
  bound : ∀ segment ∈ done, ∃ pa, b.region? segment = (a.region? segment).map fun r => r.bind pa
  others : ∀ segment, segment ∉ done → b.region? segment = a.region? segment
  loaded : b.loaded = a.loaded

theorem filled_nil (a : AddressSpace) : a.Filled a [] := ⟨nofun, fun _ _ => rfl, rfl⟩

theorem Filled.absent (h : a.Filled b done) (hr : a.region? segment = none)
    (hnew : segment ∉ done) : a.Filled b (segment :: done) := by
  have hself : b.region? segment = none := (h.others segment hnew).trans hr
  constructor
  case bound =>
    intro other hmem
    rcases List.mem_cons.mp hmem with rfl | hother
    · exact ⟨.null, by rw [hself, hr]; rfl⟩
    · exact h.bound other hother
  case others =>
    intro other hother
    exact h.others other fun hmem => hother (List.mem_cons_of_mem _ hmem)
  case loaded => exact h.loaded

theorem Filled.after_bind {r : Region} {pa : PAddr} (h : (a.bind segment pa).Filled b done)
    (hr : a.region? segment = some r) (hnew : segment ∉ done) : a.Filled b (segment :: done) := by
  have hself : b.region? segment = some (r.bind pa) :=
    (h.others segment hnew).trans (region?_bind_self hr)
  constructor
  case bound =>
    intro other hmem
    rcases List.mem_cons.mp hmem with rfl | hother
    · exact ⟨pa, by rw [hself, hr]; rfl⟩
    · have hne : other ≠ segment := fun heq => hnew (heq ▸ hother)
      obtain ⟨base, hbase⟩ := h.bound other hother
      rw [region?_bind_ne hne] at hbase
      exact ⟨base, hbase⟩
  case others =>
    intro other hother
    obtain ⟨hne, hrest⟩ := List.ne_and_not_mem_of_not_mem_cons hother
    exact (h.others other hrest).trans (region?_bind_ne hne)
  case loaded => exact h.loaded.trans (a.loaded_bind segment pa)

theorem Filled.region? {r : Region} (h : a.Filled b done) (hmem : segment ∈ done)
    (hr : a.region? segment = some r) : ∃ pa, b.region? segment = some (r.bind pa) := by
  obtain ⟨pa, hpa⟩ := h.bound segment hmem
  rw [hr] at hpa
  exact ⟨pa, hpa⟩

theorem Filled.layout_eq (h : a.Filled b done) : b.layout = a.layout := by
  have hregion (segment : Segment) :
      (b.region? segment).map Region.unbind = (a.region? segment).map Region.unbind := by
    by_cases hmem : segment ∈ done
    · obtain ⟨pa, hpa⟩ := h.bound segment hmem
      rw [hpa, Option.map_map]
      rfl
    · rw [h.others segment hmem]
  have htext : b.text.map Region.unbind = a.text.map Region.unbind := hregion .text
  have hdata : b.data.map Region.unbind = a.data.map Region.unbind := hregion .data
  rw [layout, htext, hdata, layout]

end AddressSpace

namespace Loader
variable {α β : Type} {s : Loading}

/-- The answer of `k` on `s`, and the machine and the space that it leaves. -/
def outcome (k : Loader α) (s : Loading) : Except Halt α × Loading :=
  match k s with
  | .ok a s => (.ok a, s)
  | .error halt s => (.error halt, s)

@[simp] theorem outcome_pure (a : α) : (pure a : Loader α).outcome s = (.ok a, s) := rfl

@[simp] theorem outcome_get : (get : Loader Loading).outcome s = (.ok s, s) := rfl

@[simp] theorem outcome_modify (f : Loading → Loading) :
    (modify f : Loader Unit).outcome s = (.ok (), f s) := rfl

theorem outcome_bind (k : Loader α) (f : α → Loader β) :
    (k >>= f).outcome s =
      match k.outcome s with
      | (.ok a, s) => (f a).outcome s
      | (.error halt, s) => (.error halt, s) := by
  simp only [outcome, bind, EStateM.bind]
  cases k s <;> rfl

theorem outcome_onMachine (k : Kernel α) :
    (onMachine k).outcome s =
      ((k.outcome s.machine).1, { s with machine := (k.outcome s.machine).2 }) := by
  simp only [outcome, onMachine, Kernel.outcome]
  cases k s.machine <;> rfl

theorem bindSegments_absent {segment : Segment} (rest : List Segment)
    (h : s.space.region? segment = none) :
    (bindSegments (segment :: rest)).outcome s = (bindSegments rest).outcome s := by
  rw [bindSegments, outcome_bind, outcome_get]
  simp only [h]

/-- One declared segment: frames, zeros in them, and on to the next. -/
theorem bindSegments_declared {segment : Segment} {r : Region} (rest : List Segment)
    (h : s.space.region? segment = some r) :
    (bindSegments (segment :: rest)).outcome s =
      match (Kernel.allocFrames r.npages).outcome s.machine with
      | (.error halt, machine) => (.error halt, { s with machine })
      | (.ok none, machine) => (.ok (.error .outOfMemory), { s with machine })
      | (.ok (some pa), machine) =>
        match (Kernel.zeroFrames pa r.npages).outcome machine with
        | (.error halt, machine) => (.error halt, ⟨machine, s.space.bind segment pa⟩)
        | (.ok (), machine) => (bindSegments rest).outcome ⟨machine, s.space.bind segment pa⟩ := by
  rw [bindSegments, outcome_bind, outcome_get]
  simp only [h, outcome_bind, outcome_onMachine]
  rcases (Kernel.allocFrames r.npages).outcome s.machine with ⟨halt | _ | pa, machine⟩
  · rfl
  · rfl
  · simp only [outcome_bind, outcome_modify, outcome_onMachine]
    rcases (Kernel.zeroFrames pa r.npages).outcome machine with ⟨halt | _, machine⟩ <;> rfl

/-- How frames are given to segments: one after the other, up to the first that gets none or whose
frames are beyond RAM. -/
inductive Binds : List Segment → Loading → Except Halt (Except VmError Unit) × Loading → Prop where
  | done (s : Loading) : Binds [] s (.ok (.ok ()), s)
  | absent {segment : Segment} {rest : List Segment} {s : Loading}
    {outcome : Except Halt (Except VmError Unit) × Loading}
    (hr : s.space.region? segment = none) (hrest : Binds rest s outcome) :
    Binds (segment :: rest) s outcome
  | halted {segment : Segment} {s : Loading} {r : Region} {halt : Halt} {machine : Machine}
    (rest : List Segment) (hr : s.space.region? segment = some r)
    (halloc : (Kernel.allocFrames r.npages).outcome s.machine = (.error halt, machine)) :
    Binds (segment :: rest) s (.error halt, ⟨machine, s.space⟩)
  | refused {segment : Segment} {s : Loading} {r : Region} {machine : Machine}
    (rest : List Segment) (hr : s.space.region? segment = some r)
    (halloc : (Kernel.allocFrames r.npages).outcome s.machine = (.ok none, machine)) :
    Binds (segment :: rest) s (.ok (.error .outOfMemory), ⟨machine, s.space⟩)
  | unzeroed {segment : Segment} {s : Loading} {r : Region} {pa : PAddr} {halt : Halt}
    {allocated zeroed : Machine} (rest : List Segment) (hr : s.space.region? segment = some r)
    (halloc : (Kernel.allocFrames r.npages).outcome s.machine = (.ok (some pa), allocated))
    (hzero : (Kernel.zeroFrames pa r.npages).outcome allocated = (.error halt, zeroed)) :
    Binds (segment :: rest) s (.error halt, ⟨zeroed, s.space.bind segment pa⟩)
  | bound {segment : Segment} {rest : List Segment} {s : Loading} {r : Region} {pa : PAddr}
    {allocated zeroed : Machine} {outcome : Except Halt (Except VmError Unit) × Loading}
    (hr : s.space.region? segment = some r)
    (halloc : (Kernel.allocFrames r.npages).outcome s.machine = (.ok (some pa), allocated))
    (hzero : (Kernel.zeroFrames pa r.npages).outcome allocated = (.ok (), zeroed))
    (hrest : Binds rest ⟨zeroed, s.space.bind segment pa⟩ outcome) :
    Binds (segment :: rest) s outcome

theorem binds_bindSegments (segments : List Segment) (s : Loading) :
    Binds segments s ((bindSegments segments).outcome s) := by
  induction segments generalizing s with
  | nil => exact .done s
  | cons segment rest ih =>
    cases hr : s.space.region? segment with
    | none =>
      rw [bindSegments_absent rest hr]
      exact .absent hr (ih s)
    | some r =>
      rw [bindSegments_declared rest hr]
      rcases halloc : (Kernel.allocFrames r.npages).outcome s.machine with
        ⟨halt | _ | pa, allocated⟩
      · exact .halted rest hr halloc
      · exact .refused rest hr halloc
      dsimp only
      rcases hzero : (Kernel.zeroFrames pa r.npages).outcome allocated with ⟨halt | _, zeroed⟩
      · exact .unzeroed rest hr halloc hzero
      · exact .bound hr halloc hzero (ih _)

theorem Binds.outcome_eq {segments : List Segment}
    {outcome : Except Halt (Except VmError Unit) × Loading} (h : Binds segments s outcome) :
    (bindSegments segments).outcome s = outcome := by
  induction h with
  | done s => rfl
  | absent hr hrest ih => rw [bindSegments_absent _ hr, ih]
  | halted rest hr halloc => rw [bindSegments_declared rest hr, halloc]
  | refused rest hr halloc => rw [bindSegments_declared rest hr, halloc]
  | unzeroed rest hr halloc hzero =>
    rw [bindSegments_declared rest hr, halloc]
    dsimp only
    rw [hzero]
  | bound hr halloc hzero hrest ih =>
    rw [bindSegments_declared _ hr, halloc]
    dsimp only
    rw [hzero]
    exact ih

/-- The segments are filled one by one, and all of them if the load succeeds. -/
theorem Binds.filled {segments : List Segment}
    {outcome : Except Halt (Except VmError Unit) × Loading} (h : Binds segments s outcome)
    (hnodup : segments.Nodup) : ∃ done left, segments = done ++ left ∧
      s.space.Filled outcome.2.space done ∧ (outcome.1 = .ok (.ok ()) → left = []) := by
  induction h with
  | done s => exact ⟨[], [], rfl, s.space.filled_nil, fun _ => rfl⟩
  | @absent segment rest s outcome hr hrest ih =>
    obtain ⟨hnew, hnodup⟩ := List.nodup_cons.mp hnodup
    obtain ⟨done, left, rfl, hfilled, hall⟩ := ih hnodup
    have hnew : segment ∉ done := fun hmem => hnew (List.mem_append_left left hmem)
    exact ⟨segment :: done, left, rfl, hfilled.absent hr hnew, hall⟩
  | @halted segment s _ _ _ rest hr halloc =>
    exact ⟨[], segment :: rest, rfl, s.space.filled_nil, nofun⟩
  | @refused segment s _ _ rest hr halloc =>
    exact ⟨[], segment :: rest, rfl, s.space.filled_nil, nofun⟩
  | @unzeroed segment s r pa _ _ _ rest hr halloc hzero =>
    have hfilled := (s.space.bind segment pa).filled_nil.after_bind hr List.not_mem_nil
    exact ⟨[segment], rest, rfl, hfilled, nofun⟩
  | @bound segment rest s _ _ _ _ outcome hr halloc hzero hrest ih =>
    obtain ⟨hnew, hnodup⟩ := List.nodup_cons.mp hnodup
    obtain ⟨done, left, rfl, hfilled, hall⟩ := ih hnodup
    have hnew : segment ∉ done := fun hmem => hnew (List.mem_append_left left hmem)
    exact ⟨segment :: done, left, rfl, hfilled.after_bind hr hnew, hall⟩

theorem prepareLoad_of_bound (h : s.space.hasFrames = true) :
    prepareLoad.outcome s = (.error .framesAlreadyBound, { s with
      machine := s.machine.logged [⟨.error, Halt.framesAlreadyBound.message⟩] }) := by
  rw [prepareLoad, outcome_bind, outcome_get]
  simp only [h, if_true, outcome_onMachine, Kernel.outcome_stop]

theorem prepareLoad_of_unbound (h : s.space.hasFrames = false) :
    prepareLoad.outcome s = (bindSegments Segment.all).outcome s := by
  rw [prepareLoad, outcome_bind, outcome_get]
  simp only [h, Bool.false_eq_true, if_false]

theorem binds_prepareLoad (h : s.space.hasFrames = false) :
    Binds Segment.all s (prepareLoad.outcome s) := by
  rw [prepareLoad_of_unbound h]
  exact binds_bindSegments Segment.all s

end Loader

namespace Kernel
variable {m : Machine}

theorem copySpace_outcome (a : AddressSpace) :
    (copySpace a).outcome m =
      match Loader.prepareLoad.outcome ⟨m, a.layout⟩ with
      | (.error halt, s) => (.error halt, s.machine)
      | (.ok (.error e), s) =>
        (((destroySpace s.space).outcome s.machine).1.map fun _ => .error e,
          ((destroySpace s.space).outcome s.machine).2)
      | (.ok (.ok ()), s) =>
        (((copySegments a s.space Segment.all).outcome s.machine).1.map fun _ => .ok s.space,
          ((copySegments a s.space Segment.all).outcome s.machine).2) := by
  have hthen {β : Type} (k : Kernel Unit) (b : β) (m : Machine) :
      (k *> pure b : Kernel β).outcome m =
        ((k.outcome m).1.map fun _ => b, (k.outcome m).2) := by
    rw [seqRight_eq_bind, outcome_bind]
    rcases k.outcome m with ⟨halt | _, m⟩ <;> rfl
  simp only [outcome, copySpace, Loader.outcome]
  rcases Loader.prepareLoad ⟨m, a.layout⟩ with ⟨_ | _, s⟩ | ⟨halt, s⟩
  · exact hthen _ _ s.machine
  · exact hthen _ _ s.machine
  · rfl

section copy
variable {p c : AddressSpace} {m' : Machine} {e : VmError}

/-- A copy is a load of the bare layout, and then a copy of the segments. -/
theorem copySpace_of_ok (h : (copySpace p).outcome m = (.ok (.ok c), m')) :
    ∃ loaded, Loader.prepareLoad.outcome ⟨m, p.layout⟩ = (.ok (.ok ()), ⟨loaded, c⟩) ∧
      (copySegments p c Segment.all).outcome loaded = (.ok (), m') := by
  rw [copySpace_outcome] at h
  rcases hload : Loader.prepareLoad.outcome ⟨m, p.layout⟩ with ⟨halt | e | _, s⟩ <;>
    rw [hload] at h
  · cases h
  · simp only at h
    rcases hdestroy : (destroySpace s.space).outcome s.machine with ⟨halt | _, m₁⟩ <;>
      rw [hdestroy] at h <;> cases h
  · simp only at h
    rcases hcopy : (copySegments p s.space Segment.all).outcome s.machine with ⟨halt | _, m₁⟩ <;>
      rw [hcopy] at h <;> cases h
    exact ⟨s.machine, rfl, hcopy⟩

/-- It fails where the load does, and destroys what was loaded. -/
theorem copySpace_of_error (h : (copySpace p).outcome m = (.ok (.error e), m')) :
    ∃ s, Loader.prepareLoad.outcome ⟨m, p.layout⟩ = (.ok (.error e), s) ∧
      (destroySpace s.space).outcome s.machine = (.ok (), m') := by
  rw [copySpace_outcome] at h
  rcases hload : Loader.prepareLoad.outcome ⟨m, p.layout⟩ with ⟨halt | e' | _, s⟩ <;>
    rw [hload] at h
  · cases h
  · simp only at h
    rcases hdestroy : (destroySpace s.space).outcome s.machine with ⟨halt | _, m₁⟩ <;>
      rw [hdestroy] at h <;> cases h
    exact ⟨s, rfl, hdestroy⟩
  · simp only at h
    rcases hcopy : (copySegments p s.space Segment.all).outcome s.machine with ⟨halt | _, m₁⟩ <;>
      rw [hcopy] at h <;> cases h

end copy

theorem freeAll_cons (pa : PAddr) (rest : List PAddr) :
    (freeAll (pa :: rest)).outcome m =
      match (freeFrames pa).outcome m with
      | (.ok (), m) => (freeAll rest).outcome m
      | (.error halt, m) => (.error halt, m) := by
  rw [freeAll, outcome_bind]
  rcases (freeFrames pa).outcome m with ⟨halt | _, m⟩ <;> rfl

/-- A change of RAM that may halt. -/
theorem outcome_changeRam (f : Ram → Except Halt Ram) :
    (do setRam (← f (← get).ram) : Kernel Unit).outcome m =
      match f m.ram with
      | .ok ram => (.ok (), m.setRam ram)
      | .error halt => (.error halt, m) := by
  rw [outcome_bind, outcome_get]
  simp only [outcome_bind, outcome_lift]
  cases f m.ram <;> rfl

theorem writeBytes_outcome (pa : PAddr) (bytes : Array UInt8) :
    (writeBytes pa bytes).outcome m =
      match m.ram.write pa bytes with
      | .ok ram => (.ok (), m.setRam ram)
      | .error halt => (.error halt, m) := outcome_changeRam fun ram => ram.write pa bytes

theorem zeroFrames_outcome (pa : PAddr) (n : Nat) :
    (zeroFrames pa n).outcome m =
      match m.ram.zero pa (n * pageSize) with
      | .ok ram => (.ok (), m.setRam ram)
      | .error halt => (.error halt, m) := outcome_changeRam fun ram => ram.zero pa (n * pageSize)

theorem copyFrames_outcome (dst src : PAddr) (n : Nat) :
    (copyFrames dst src n).outcome m =
      match m.ram.copy dst src (n * pageSize) with
      | .ok ram => (.ok (), m.setRam ram)
      | .error halt => (.error halt, m) :=
  outcome_changeRam fun ram => ram.copy dst src (n * pageSize)

theorem copyOut_outcome (a : AddressSpace) (dst : VAddr) (bytes : Array UInt8) :
    (copyOut a dst bytes).outcome m =
      if bytes.isEmpty then (.ok (.ok ()), m)
      else
        match a.span dst bytes.size with
        | .error halt => (.error halt, m)
        | .ok (.error e) => (.ok (.error e), m)
        | .ok (.ok pa) =>
          match m.ram.write pa bytes with
          | .ok ram => (.ok (.ok ()), m.setRam ram)
          | .error halt => (.error halt, m) := by
  unfold copyOut
  split_ifs with hempty
  · rfl
  rw [outcome_bind, outcome_lift]
  rcases a.span dst bytes.size with halt | e | pa
  · rfl
  · rfl
  · simp only [outcome_bind, writeBytes_outcome]
    cases m.ram.write pa bytes <;> rfl

theorem copyIn_outcome (a : AddressSpace) (src : VAddr) (len : Nat) :
    (copyIn a src len).outcome m =
      (if len = 0 then .ok (.ok #[])
        else
          match a.span src len with
          | .error halt => .error halt
          | .ok (.error e) => .ok (.error e)
          | .ok (.ok pa) => (m.ram.read pa len).map .ok, m) := by
  unfold copyIn
  split_ifs with hlen
  · rfl
  rw [outcome_bind, outcome_lift]
  rcases a.span src len with halt | e | pa
  · rfl
  · rfl
  · simp only [readBytes, outcome_bind, outcome_get, outcome_lift]
    cases m.ram.read pa len <;> rfl

section fault
variable {a : AddressSpace} {code : Nat} {addr : VAddr}

/-- A load or a store that no entry matches is resolved from the address space: the answer, and what
becomes of the buffer. -/
theorem fault_of_miss (h : code = 0 ∨ code = 1) :
    ((fault (some a) code addr).outcome m).1 = (a.translate addr.alignDown).map (fun
      | none => .error (.unmapped addr)
      | some t => .ok ⟨addr.alignDown, t.pa, t.segment, !(t.segment == .text && a.loaded),
          m.tlb.nextPlacement⟩) ∧
    ((fault (some a) code addr).outcome m).2.tlb =
      match a.translate addr.alignDown with
      | .ok (some t) => m.tlb.put
          ⟨.forPage addr.alignDown, .mapping t.pa !(t.segment == .text && a.loaded)⟩
          m.tlb.nextPlacement
      | _ => m.tlb := by
  obtain ⟨kind, hkind, hfault⟩ : ∃ kind : FaultKind, kind ≠ .readOnly ∧
      fault (some a) code addr = resolveMiss (some a) kind addr := by
    rcases h with rfl | rfl
    · exact ⟨.read, nofun, rfl⟩
    · exact ⟨.write, nofun, rfl⟩
  rw [hfault, resolveMiss]
  simp only [outcome_bind, outcome_log, if_neg hkind, outcome_lift]
  rcases a.translate addr.alignDown with halt | _ | ⟨segment, frame⟩
  · exact ⟨rfl, rfl⟩
  · exact ⟨rfl, rfl⟩
  · exact ⟨rfl, rfl⟩

theorem fault_none_tlb (code : Nat) (addr : VAddr) :
    ((fault none code addr).outcome m).2.tlb = m.tlb :=
  match code with
  | 0 => rfl
  | 1 => rfl
  | 2 => rfl
  | _ + 3 => rfl

theorem fault_of_no_miss (h : ¬ (code = 0 ∨ code = 1)) (space : Option AddressSpace) :
    (∃ e, ((fault space code addr).outcome m).1 = .ok (.error e)) ∧
      ((fault space code addr).outcome m).2.tlb = m.tlb := by
  rw [not_or] at h
  match code with
  | 0 => exact absurd rfl h.1
  | 1 => exact absurd rfl h.2
  | 2 => exact ⟨⟨.readOnly addr.alignDown, rfl⟩, rfl⟩
  | raw + 3 => exact ⟨⟨.invalidFaultType (raw + 3), rfl⟩, rfl⟩

end fault

theorem defineRegion_outcome (a : AddressSpace) (va : VAddr) (size : Nat) (perms : Permissions) :
    (defineRegion a va size perms).outcome m =
      (.ok (a.define va size), m.logged (a.defineRecords va size perms)) := by
  rw [defineRegion, outcome_bind, outcome_logAll]
  rfl

theorem completeLoad_outcome (a : AddressSpace) :
    (completeLoad a).outcome m = (.ok { a with loaded := true }, (flushTlb.outcome m).2) := by
  rw [completeLoad, outcome_bind]
  rfl

end Kernel

section bound
variable {R : Machine → Machine → Prop} (hR : Machine.MemoryBound R)
include hR

theorem Loader.Binds.bound_by {segments : List Segment} {s : Loading}
    {outcome : Except Halt (Except VmError Unit) × Loading} (h : Binds segments s outcome) :
    R s.machine outcome.2.machine := by
  induction h with
  | done s => exact hR.refl s.machine
  | absent hr hrest ih => exact ih
  | @halted segment s r _ _ rest hr halloc =>
    have hbound := hR.allocFrames r.npages s.machine
    rwa [halloc] at hbound
  | @refused segment s r _ rest hr halloc =>
    have hbound := hR.allocFrames r.npages s.machine
    rwa [halloc] at hbound
  | @unzeroed segment s r pa _ allocated _ rest hr halloc hzero =>
    have hbound := hR.allocFrames r.npages s.machine
    have hthen := hR.zeroFrames pa r.npages allocated
    rw [halloc] at hbound
    rw [hzero] at hthen
    exact hR.trans hbound hthen
  | @bound segment rest s r pa allocated _ _ hr halloc hzero hrest ih =>
    have hbound := hR.allocFrames r.npages s.machine
    have hthen := hR.zeroFrames pa r.npages allocated
    rw [halloc] at hbound
    rw [hzero] at hthen
    exact hR.trans hbound (hR.trans hthen ih)

theorem Loader.prepareLoad_bound (s : Loading) :
    R s.machine (prepareLoad.outcome s).2.machine := by
  cases h : s.space.hasFrames with
  | true =>
    rw [prepareLoad_of_bound h]
    exact hR.logged s.machine _
  | false =>
    rw [prepareLoad_of_unbound h]
    exact (binds_bindSegments Segment.all s).bound_by hR

theorem Kernel.obeys_copySpace (a : AddressSpace) : (copySpace a).Obeys R := by
  intro m
  have hload := Loader.prepareLoad_bound hR ⟨m, a.layout⟩
  rw [copySpace_outcome]
  rcases hload' : Loader.prepareLoad.outcome ⟨m, a.layout⟩ with ⟨halt | e | _, s⟩ <;>
    rw [hload'] at hload
  · exact hload
  · have hdestroy := obeys_destroySpace hR.toComposes hR.freeFrames s.space s.machine
    exact hR.trans hload hdestroy
  · have hcopy := obeys_copySegments hR.toComposes hR.copyFrames a s.space Segment.all s.machine
    exact hR.trans hload hcopy

end bound

end MipsVm
