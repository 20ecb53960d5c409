import MipsVm.Proofs.FreshFrames
import MipsVm.Proofs.LoadRecovery
import MipsVm.Proofs.MemoryIsolation

/-! What a process finds in its memory before anything is written there: zeros, whatever the frames held
when they belonged to someone else, and however far the load came. -/
namespace MipsVm

namespace AddressSpace
variable {a b : AddressSpace} {done left : List Segment}

/-- The segments that there are, in order. -/
def declaredSegments (a : AddressSpace) : List Segment :=
  Segment.all.filter fun segment => (a.region? segment).isSome

/-- The segments that have frames, in order. -/
def boundSegments (a : AddressSpace) : List Segment :=
  Segment.all.filter fun segment => (a.region? segment).any Region.isBound

/-- Where segments are filled in order, those with frames are the first ones. -/
theorem Filled.bound_isPrefix (h : a.Filled b done) (hunbound : a.hasFrames = false)
    (hall : Segment.all = done ++ left) : b.boundSegments <+: a.declaredSegments := by
  have hdone : done.filter (fun segment => (b.region? segment).any Region.isBound) =
      done.filter fun segment => (a.region? segment).isSome := by
    apply List.filter_congr
    intro segment hmem
    obtain ⟨pa, hpa⟩ := h.bound segment hmem
    rw [hpa]
    cases a.region? segment with
    | none => rfl
    | some r => rfl
  have hleft : left.filter (fun segment => (b.region? segment).any Region.isBound) = [] := by
    apply List.filter_eq_nil_iff.mpr
    intro segment hmem
    have hnodup : Segment.all.Nodup := by decide
    rw [hall, List.nodup_append] at hnodup
    have hnew : segment ∉ done := fun hdone => hnodup.2.2 segment hdone segment hmem rfl
    rw [h.others segment hnew]
    cases hr : a.region? segment with
    | none => exact Bool.false_ne_true
    | some r =>
      have hfree : r.pbase = none := hasFrames_eq_false_iff.mp hunbound segment r hr
      rw [Option.any_some, Region.isBound, hfree]
      exact Bool.false_ne_true
  rw [boundSegments, declaredSegments, hall, List.filter_append, List.filter_append, hdone, hleft,
    List.append_nil]
  exact List.prefix_append ..

end AddressSpace

namespace Loading
variable {m allocated : Machine} {s : Loading} {segment : Segment} {r : Region} {pa : PAddr}
  {last : PAddr}

/-- The frames that the space has got since `m` were free then, are runs of their own now, and hold
zeros; beside them nothing was written to RAM but the ledger. -/
structure Fresh (last : PAddr) (m : Machine) (s : Loading) : Prop where
  clears : s.Clears m
  within : s.machine.frames.value.Within last
  pooling : s.machine.pooling = m.pooling
  aligned : ∀ t ∈ s.space.ranges, pageSize ∣ t.start
  free : ∀ t ∈ s.space.ranges, m.frames.value.HasFree t
  run : ∀ t ∈ s.space.ranges, s.machine.frames.value.HasRun t
  apart : s.space.ranges.Pairwise FrameRange.Apart
  left : ∀ u, 0 < u.frames → s.machine.frames.value.HasFree u →
    m.frames.value.HasFree u ∧ ∀ t ∈ s.space.ranges, t.Apart u

theorem fresh_of_unbound (hunbound : s.space.hasFrames = false)
    (hwithin : s.machine.frames.value.Within last) : s.Fresh last s.machine := by
  have hranges := AddressSpace.ranges_of_unbound hunbound
  have hnone : ∀ {P : FrameRange → Prop}, ∀ t ∈ s.space.ranges, P t := by
    intro P t ht
    rw [hranges] at ht
    cases ht
  constructor
  case clears => exact clears_of_unbound hunbound
  case within => exact hwithin
  case pooling => rfl
  case aligned => exact hnone
  case free => exact hnone
  case run => exact hnone
  case apart =>
    rw [hranges]
    exact .nil
  case left => exact fun u _ hu => ⟨hu, hnone⟩

/-- Frames that were just handed out are in RAM, so they can be zeroed. -/
theorem zeroFrames_of_hands (hwithin : s.machine.frames.value.Within last)
    (hram : last.val ≤ s.machine.ram.size) (hsize : allocated.ram.size = s.machine.ram.size)
    {n : Nat} (hhands : s.machine.frames.value.Hands ⟨pa.val, n⟩ allocated.frames.value) :
    ∃ zeroed, (Kernel.zeroFrames pa n).outcome allocated = (.ok (), zeroed) := by
  have hstop := hwithin.stop_le hhands.free hhands.nonempty
  have hin : pa.val < allocated.ram.size := by
    rw [hsize]
    calc
      pa.val < pa.val + n * pageSize :=
        Nat.lt_add_of_pos_right (Nat.mul_pos hhands.nonempty (by decide))
      _ ≤ last.val := hstop
      _ ≤ s.machine.ram.size := hram
  rw [Kernel.zeroFrames_outcome, Ram.zero_of_lt hin]
  exact ⟨_, rfl⟩

/-- One more segment gets frames, and they are zeroed. -/
theorem Fresh.bind {zeroed : Machine} (h : s.Fresh last m) (hbelow : m.LedgerBelow)
    (hhands : s.machine.frames.value.Hands ⟨pa.val, r.npages⟩ allocated.frames.value)
    (hstep : s.machine.frames.value.Step allocated.frames.value)
    (hpooling : allocated.pooling = s.machine.pooling)
    (hledger : s.machine.WritesLedger allocated)
    (hr : s.space.region? segment = some r) (hunbound : r.pbase = none)
    (hzero : (Kernel.zeroFrames pa r.npages).outcome allocated = (.ok (), zeroed)) :
    (⟨zeroed, s.space.bind segment pa⟩ : Loading).Fresh last m := by
  have hbefore := h.left _ hhands.nonempty hhands.free
  have hclears : (⟨((Kernel.zeroFrames pa r.npages).outcome allocated).2,
      s.space.bind segment pa⟩ : Loading).Clears m :=
    h.clears.zeroFrames hledger (fun i hi =>
      Machine.not_inLedger_of_hasFree hbelow hhands.nonempty hbefore.1 hi) hr hunbound
  have hsame := Kernel.obeys_zeroFrames Machine.sameSource_effect.composes
    Machine.sameSource_setRam pa r.npages allocated
  rw [hzero] at hclears hsame
  have hsource : zeroed.frames.value = allocated.frames.value := hsame.source_eq
  have hranges : (s.space.bind segment pa).ranges.Perm (⟨pa.val, r.npages⟩ :: s.space.ranges) :=
    AddressSpace.ranges_bind hr hunbound
  have hcons {P : FrameRange → Prop} (hnew : P ⟨pa.val, r.npages⟩)
      (hold : ∀ t ∈ s.space.ranges, P t) : ∀ t ∈ (s.space.bind segment pa).ranges, P t := by
    intro t ht
    rcases List.mem_cons.mp (hranges.subset ht) with rfl | hmem
    · exact hnew
    · exact hold t hmem
  constructor
  case clears => exact hclears
  case within =>
    rw [hsource]
    exact h.within.step hstep
  case pooling =>
    rw [Machine.pooling, hsource]
    exact hpooling.trans h.pooling
  case aligned => exact hcons hhands.aligned h.aligned
  case free => exact hcons hbefore.1 h.free
  case run =>
    rw [hsource]
    exact hcons hhands.run fun t ht => hhands.kept t (h.run t ht)
  case apart =>
    rw [hranges.pairwise_iff fun hapart => hapart.symm]
    exact .cons (fun t ht => (hbefore.2 t ht).symm) h.apart
  case left =>
    rw [hsource]
    intro u hpos hu
    obtain ⟨hfree, hself⟩ := hhands.left u hpos hu
    obtain ⟨hfree, hothers⟩ := h.left u hpos hfree
    exact ⟨hfree, hcons hself hothers⟩

/-- An allocation that hands nothing out leaves the load where it is. -/
theorem Fresh.of_same {machine : Machine} (h : s.Fresh last m)
    (hsource : machine.frames.value = s.machine.frames.value)
    (hledger : s.machine.WritesLedger machine) :
    (⟨machine, s.space⟩ : Loading).Fresh last m := by
  constructor
  case clears => exact h.clears.of_ledger hledger
  case within => exact hsource ▸ h.within
  case pooling =>
    rw [Machine.pooling, hsource]
    exact h.pooling
  case aligned => exact h.aligned
  case free => exact h.free
  case run => exact hsource ▸ h.run
  case apart => exact h.apart
  case left => exact hsource ▸ h.left

/-- How a load on `m` ends. -/
inductive Ends (m : Machine) : Except Halt (Except VmError Unit) → Prop where
  | loaded : Ends m (.ok (.ok ()))
  | outOfMemory : Ends m (.ok (.error .outOfMemory))
  | exhausted (hboot : m.pooling = false) : Ends m (.error .bootMemoryExhausted)

/-- A segment of `segments` has no frames, and there are no frames in a row for it either. -/
def Short (s : Loading) (segments : List Segment) : Prop :=
  ∃ segment ∈ segments, ∃ r, s.space.region? segment = some r ∧ r.pbase = none ∧
    (r.npages = 0 ∨ ∀ t : FrameRange, t.frames = r.npages → ¬ s.machine.frames.value.HasFree t)

theorem Short.cons {segments : List Segment} (h : s.Short segments) (segment : Segment) :
    s.Short (segment :: segments) := by
  obtain ⟨other, hmem, hother⟩ := h
  exact ⟨other, List.mem_cons_of_mem segment hmem, hother⟩

end Loading

theorem Loader.Binds.fresh {segments : List Segment} {s : Loading} {m : Machine} {last : PAddr}
    {outcome : Except Halt (Except VmError Unit) × Loading} (h : Binds segments s outcome)
    (hnodup : segments.Nodup) (hunbound : ∀ segment ∈ segments, s.space.range? segment = none)
    (hfresh : s.Fresh last m) (hbelow : m.LedgerBelow) (hram : last.val ≤ m.ram.size) :
    outcome.2.Fresh last m ∧ Loading.Ends m outcome.1 ∧
      (outcome.1 = .ok (.error .outOfMemory) → outcome.2.Short segments) := by
  -- the space is fresh at every step, so the frames of each allocation are there to be zeroed
  induction h with
  | done s => exact ⟨hfresh, .loaded, nofun⟩
  | @absent segment rest s _ hr hrest ih =>
    obtain ⟨hnext, hends, hshort⟩ :=
      ih (List.nodup_cons.mp hnodup).2 (List.forall_mem_cons.mp hunbound).2 hfresh
    exact ⟨hnext, hends, fun hanswer => (hshort hanswer).cons segment⟩
  | @halted segment s r _ _ rest hr halloc =>
    obtain ⟨hgrants, hledger⟩ := Kernel.grants_of_outcome hfresh.within.onPages halloc
    obtain ⟨rfl, hboot, hsource⟩ := hgrants.of_halted
    exact ⟨hfresh.of_same hsource hledger, .exhausted (hfresh.pooling.symm.trans hboot), nofun⟩
  | @refused segment s r _ rest hr halloc =>
    obtain ⟨hgrants, hledger⟩ := Kernel.grants_of_outcome hfresh.within.onPages halloc
    obtain ⟨hsource, hwhy⟩ := hgrants.of_refused
    have hfree : r.pbase = none :=
      AddressSpace.range?_eq_none_iff.mp (List.forall_mem_cons.mp hunbound).1 r hr
    refine ⟨hfresh.of_same hsource hledger, .outOfMemory, fun _ => ?_⟩
    exact ⟨segment, List.mem_cons_self, r, hr, hfree, hwhy⟩
  | @unzeroed segment s r pa _ allocated _ rest hr halloc hzero =>
    obtain ⟨hgrants, hledger⟩ := Kernel.grants_of_outcome hfresh.within.onPages halloc
    have hin : last.val ≤ s.machine.ram.size := by
      rw [hfresh.clears.size]
      exact hram
    obtain ⟨zeroed, hzeroed⟩ := Loading.zeroFrames_of_hands hfresh.within hin hledger.size
      (hgrants.hands hfresh.within.onPages)
    cases hzero.symm.trans hzeroed
  | @bound segment rest s r pa allocated zeroed _ hr halloc hzero hrest ih =>
    obtain ⟨hgrants, hledger⟩ := Kernel.grants_of_outcome hfresh.within.onPages halloc
    obtain ⟨hnew, hnodup⟩ := List.nodup_cons.mp hnodup
    obtain ⟨hself, hunbound⟩ := List.forall_mem_cons.mp hunbound
    have hfree : r.pbase = none := AddressSpace.range?_eq_none_iff.mp hself r hr
    have hnext := hfresh.bind hbelow (hgrants.hands hfresh.within.onPages) hgrants.step
      hgrants.isPool_eq hledger hr hfree hzero
    obtain ⟨hlast, hends, hshort⟩ :=
      ih hnodup (AddressSpace.range?_bind_of_not_mem hnew hunbound pa) hnext
    exact ⟨hlast, hends, fun hanswer => (hshort hanswer).cons segment⟩

/-- Zeroing asks for the size of RAM and for none of its bytes. -/
theorem Kernel.zeroFrames_setRam {m zeroed : Machine} {pa : PAddr} {n : Nat} {ram : Ram}
    {answer : Except Halt Unit} (hsize : ram.size = m.ram.size)
    (hzero : (zeroFrames pa n).outcome m = (answer, zeroed)) :
    zeroed.frames = m.frames ∧ ∃ ram', ram'.size = zeroed.ram.size ∧
      (zeroFrames pa n).outcome (m.setRam ram) = (answer, zeroed.setRam ram') := by
  have hsame : (m.setRam ram).ram = ram := rfl
  rw [zeroFrames_outcome] at hzero ⊢
  rw [hsame]
  rcases Nat.lt_or_ge pa.val m.ram.size with hin | hout
  · rw [Ram.zero_of_lt hin] at hzero
    rw [← hsize] at hin
    rw [Ram.zero_of_lt hin]
    obtain ⟨rfl, rfl⟩ := Prod.mk.inj hzero
    refine ⟨rfl, _, ?_, rfl⟩
    exact (Ram.size_update ..).trans (hsize.trans (Ram.size_update ..).symm)
  · rw [Ram.zero_of_le hout] at hzero
    rw [← hsize] at hout
    rw [Ram.zero_of_le hout]
    obtain ⟨rfl, rfl⟩ := Prod.mk.inj hzero
    exact ⟨rfl, ram, hsize, rfl⟩

/-- The frames come from the same place, and RAM has as many bytes: then it does not matter which. -/
theorem Loader.Binds.setRam {segments : List Segment} {s : Loading}
    {outcome : Except Halt (Except VmError Unit) × Loading} (h : Binds segments s outcome)
    (hpages : s.machine.frames.value.OnPages) {ram : Ram} (hsize : ram.size = s.machine.ram.size) :
    ∃ ram', Binds segments ⟨s.machine.setRam ram, s.space⟩
      (outcome.1, ⟨outcome.2.machine.setRam ram', outcome.2.space⟩) := by
  -- each allocation is the same one, and the bytes are wherever zeroing has got
  induction h generalizing ram with
  | done s => exact ⟨ram, .done _⟩
  | absent hr hrest ih =>
    obtain ⟨ram', hrest⟩ := ih hpages hsize
    exact ⟨ram', .absent hr hrest⟩
  | halted rest hr halloc =>
    obtain ⟨ram', -, hother⟩ := Kernel.outcome_setRam_of_outcome hpages halloc ram
    exact ⟨ram', .halted rest hr hother⟩
  | refused rest hr halloc =>
    obtain ⟨ram', -, hother⟩ := Kernel.outcome_setRam_of_outcome hpages halloc ram
    exact ⟨ram', .refused rest hr hother⟩
  | unzeroed rest hr halloc hzero =>
    obtain ⟨-, hledger⟩ := Kernel.grants_of_outcome hpages halloc
    obtain ⟨ram₁, hsize₁, hother⟩ := Kernel.outcome_setRam_of_outcome hpages halloc ram
    rw [hsize, ← hledger.size] at hsize₁
    obtain ⟨-, ram₂, -, hzeroed⟩ := Kernel.zeroFrames_setRam hsize₁ hzero
    exact ⟨ram₂, .unzeroed rest hr hother hzeroed⟩
  | bound hr halloc hzero hrest ih =>
    obtain ⟨hgrants, hledger⟩ := Kernel.grants_of_outcome hpages halloc
    obtain ⟨ram₁, hsize₁, hother⟩ := Kernel.outcome_setRam_of_outcome hpages halloc ram
    rw [hsize, ← hledger.size] at hsize₁
    obtain ⟨hframes, ram₂, hsize₂, hzeroed⟩ := Kernel.zeroFrames_setRam hsize₁ hzero
    have hnext := hgrants.step.onPages hpages
    rw [← hframes] at hnext
    obtain ⟨last, hrest⟩ := ih hnext hsize₂
    exact ⟨last, .bound hr hother hzeroed hrest⟩

namespace Loading
variable {m : Machine} {s : Loading} {a : AddressSpace} {last : PAddr}

/-- A load of `a` on `m` that leaves `s`: whatever was in RAM, the process finds zeros in frames that
nobody else had. Beside these frames no byte has changed but in the ledger, and there none but in the
entries of these frames. -/
structure Clean (m : Machine) (a : AddressSpace) (answer : Except Halt (Except VmError Unit))
    (s : Loading) : Prop where
  ends : Ends m answer
  zero : ∀ va t, s.space.translate va = .ok (some t) →
    t.pa.val < s.machine.ram.size ∧ s.machine.ram.byte t.pa.val = 0
  size : s.machine.ram.size = m.ram.size
  byte : ∀ i, ¬ m.InLedger i → (∀ t ∈ s.space.ranges, ¬ t.Covers i) →
    s.machine.ram.byte i = m.ram.byte i
  stored : m.StoresLedger → s.machine.StoresLedger
  entries : m.StoresLedger → ∀ i, ¬ m.InEntries s.space.ranges i →
    (∀ t ∈ s.space.ranges, ¬ t.Covers i) → s.machine.ram.byte i = m.ram.byte i
  aligned : ∀ t ∈ s.space.ranges, pageSize ∣ t.start
  free : ∀ t ∈ s.space.ranges, m.frames.value.HasFree t
  run : ∀ t ∈ s.space.ranges, s.machine.frames.value.HasRun t
  apart : s.space.ranges.Pairwise FrameRange.Apart
  all_bound : answer = .ok (.ok ()) → ∀ segment r, a.region? segment = some r →
    ∃ pa, s.space.region? segment = some (r.bind pa)
  short : answer = .ok (.error .outOfMemory) → s.Short Segment.all
  first_bound : s.space.boundSegments <+: a.declaredSegments
  layout : s.space.layout = a.layout
  loaded : s.space.loaded = a.loaded

/-- What leads anywhere leads to zeros. -/
theorem Fresh.byte_translate (h : s.Fresh last m) (hwithin : m.frames.value.Within last)
    (hram : last.val ≤ m.ram.size) {va : VAddr} {t : Translation}
    (ht : s.space.translate va = .ok (some t)) :
    t.pa.val < s.machine.ram.size ∧ s.machine.ram.byte t.pa.val = 0 := by
  obtain ⟨r, hr, hcovers⟩ := AddressSpace.range_of_translate ht
  have hmem := AddressSpace.mem_ranges_iff.mpr ⟨_, hr⟩
  have hpos : 0 < r.frames := by
    obtain ⟨hstart, hstop⟩ := hcovers
    simp only [FrameRange.stop, pageSize] at hstop
    omega
  have hstop := hwithin.stop_le (h.free r hmem) hpos
  refine ⟨?_, h.clears.zero r hmem _ hcovers⟩
  calc
    t.pa.val < r.stop := hcovers.2
    _ ≤ last.val := hstop
    _ ≤ m.ram.size := hram
    _ = _ := h.clears.size.symm

/-- Boot memory has no entries, and a pool changes those of the frames that it has handed out. -/
theorem byte_prepareLoad (hpages : m.frames.value.OnPages) (hbelow : m.LedgerBelow)
    (hunbound : a.hasFrames = false) (hclears : (Loader.prepareLoad.outcome ⟨m, a⟩).2.Clears m)
    (hstored : m.StoresLedger) {i : Nat}
    (hranges : ∀ t ∈ (Loader.prepareLoad.outcome ⟨m, a⟩).2.space.ranges, ¬ t.Covers i)
    (hentries : ¬ m.InEntries (Loader.prepareLoad.outcome ⟨m, a⟩).2.space.ranges i) :
    (Loader.prepareLoad.outcome ⟨m, a⟩).2.machine.ram.byte i = m.ram.byte i := by
  cases hsource : m.frames.value with
  | boot memory => exact hclears.byte i (Machine.not_inLedger_of_boot hsource i) hranges
  | pool pool =>
    rw [hsource] at hpages
    obtain ⟨p, rfl, -⟩ := hpages
    exact (drawing_prepareLoad hunbound hsource hbelow).draws.byte_eq hclears hsource hstored
      hranges hentries

theorem clean_prepareLoad (hwithin : m.frames.value.Within last) (hbelow : m.LedgerBelow)
    (hram : last.val ≤ m.ram.size) (hunbound : a.hasFrames = false) :
    (Loader.prepareLoad.outcome ⟨m, a⟩).2.Clean m a (Loader.prepareLoad.outcome ⟨m, a⟩).1 := by
  have hbinds := Loader.binds_prepareLoad (s := ⟨m, a⟩) hunbound
  have hsegments : ∀ segment ∈ Segment.all, a.range? segment = none :=
    fun segment _ => AddressSpace.range?_of_unbound hunbound segment
  obtain ⟨hfresh, hends, hshort⟩ := hbinds.fresh (by decide) hsegments
    (fresh_of_unbound (s := ⟨m, a⟩) hunbound hwithin) hbelow hram
  obtain ⟨done, left, hall, hfilled, hleft⟩ := hbinds.filled (by decide)
  constructor
  case ends => exact hends
  case zero =>
    exact fun va t ht => hfresh.byte_translate hwithin hram ht
  case size => exact hfresh.clears.size
  case byte => exact hfresh.clears.byte
  case stored => exact hfresh.clears.stored
  case entries =>
    exact fun hstored i hentries hranges =>
      byte_prepareLoad hwithin.onPages hbelow hunbound hfresh.clears hstored hranges hentries
  case aligned => exact hfresh.aligned
  case free => exact hfresh.free
  case run => exact hfresh.run
  case apart => exact hfresh.apart
  case all_bound =>
    intro hok segment r hr
    have hdone : segment ∈ done := by
      have hmem := segment.mem_all
      rwa [hall, hleft hok, List.append_nil] at hmem
    exact hfilled.region? hdone hr
  case short => exact hshort
  case first_bound => exact hfilled.bound_isPrefix hunbound hall
  case layout => exact hfilled.layout_eq
  case loaded => exact hfilled.loaded

/-- Which frames the space gets, and whether it gets them all, does not depend on what is in RAM. -/
theorem prepareLoad_setRam (hpages : m.frames.value.OnPages) (hunbound : a.hasFrames = false)
    {ram : Ram} (hsize : ram.size = m.ram.size) :
    (Loader.prepareLoad.outcome ⟨m.setRam ram, a⟩).1 = (Loader.prepareLoad.outcome ⟨m, a⟩).1 ∧
      (Loader.prepareLoad.outcome ⟨m.setRam ram, a⟩).2.space =
        (Loader.prepareLoad.outcome ⟨m, a⟩).2.space := by
  have hbinds := Loader.binds_bindSegments Segment.all ⟨m, a⟩
  obtain ⟨ram', hother⟩ := hbinds.setRam hpages hsize
  have houtcome := hother.outcome_eq
  rw [Loader.prepareLoad_of_unbound (s := ⟨m, a⟩) hunbound,
    Loader.prepareLoad_of_unbound (s := ⟨m.setRam ram, a⟩) hunbound]
  dsimp only at houtcome
  rw [houtcome]
  exact ⟨rfl, rfl⟩

end Loading

namespace Machine

/-- Whatever was done to the memory before, and whatever its bytes are now: a space without frames is
loaded with zeros, or with as much of them as there is room for, and other bytes would not have made
a difference. -/
theorem loads_clean (ram : Ram) (first last : PAddr) (victim : Nat → Fin tlbSlots)
    (ops : List Operation) {contents : Ram} (hram : last.val ≤ contents.size) {a : AddressSpace}
    (hunbound : a.hasFrames = false) :
    let m := ((new ram first last victim).run ops).setRam contents
    let loading := Loader.prepareLoad.outcome ⟨m, a⟩
    loading.2.Clean m a loading.1 ∧ ∀ others : Ram, others.size = contents.size →
      let other := Loader.prepareLoad.outcome ⟨m.setRam others, a⟩
      other.1 = loading.1 ∧ other.2.space = loading.2.space := by
  intro m loading
  have hwithin : m.frames.value.Within last := within_run ram first last victim ops
  have hbelow : m.LedgerBelow := (laidOut_run ram first last victim ops).ledger_below
  refine ⟨Loading.clean_prepareLoad hwithin hbelow hram hunbound, ?_⟩
  intro others hsize
  exact Loading.prepareLoad_setRam hwithin.onPages hunbound hsize

/-- The second region does not fit between the runs that are out, so the stack gets no frames either. -/
theorem loads_clean_of_fragments :
    ∃ m : Machine, ∃ a : AddressSpace, m =
        ((new ⟨.replicate 64 .zero⟩ ⟨0x1000, by decide⟩ ⟨0x40000, by decide⟩ fun _ => 0).run
          [.bootstrap, .allocFrames 2, .allocFrames 1, .allocKernelPages 40,
            .freeFrames ⟨0x4000, by decide⟩]).setRam ⟨.replicate 64 (.replicate pageSize 0xFF)⟩ ∧
      a = ⟨some ⟨⟨0x400000, by decide⟩, 1, none, by decide⟩,
        some ⟨⟨0x800000, by decide⟩, 30, none, by decide⟩, none, false⟩ ∧
      (Loader.prepareLoad.outcome ⟨m, a⟩).1 = .ok (.error .outOfMemory) ∧
      (Loader.prepareLoad.outcome ⟨m, a⟩).2.space.boundSegments = [.text] ∧
      (Loader.prepareLoad.outcome ⟨m, a⟩).2.Clean m a (Loader.prepareLoad.outcome ⟨m, a⟩).1 := by
  refine ⟨_, _, rfl, rfl, ?_, ?_, (loads_clean _ _ _ _ _ ?_ ?_).1⟩
  · decide +kernel
  · decide +kernel
  · decide +kernel
  · decide

/-- The ledger lies in RAM: where the first space gets frames for its stack, the first entry has a byte
that changes, and it is in none of these frames. -/
theorem load_writes_ledger :
    ∃ m : Machine, ∃ s : Loading, m =
        (new ⟨.replicate 64 .zero⟩ ⟨0x1000, by decide⟩ ⟨0x40000, by decide⟩ fun _ => 0).run
          [.bootstrap] ∧
      Loader.prepareLoad.outcome ⟨m, .empty⟩ = (.ok (.ok ()), s) ∧ s.space.ranges = [⟨0x2000, 12⟩] ∧
      0x1000 < m.ram.size ∧ m.ram.byte 0x1000 = 0 ∧ s.machine.ram.byte 0x1000 = 1 := by
  -- RAM holds the entries before and after, and of these the first tells a free frame from a run
  have hbefore := (FrameHistory.accounted_start ⟨.replicate 64 .zero⟩ ⟨0x1000, by decide⟩
    ⟨0x40000, by decide⟩ fun _ => 0).bootstrap.storesLedger
  rw [FrameHistory.machine_bootstrap] at hbefore
  have hwithin := within_run ⟨.replicate 64 .zero⟩ ⟨0x1000, by decide⟩ ⟨0x40000, by decide⟩
    (fun _ => 0) [.bootstrap]
  have hlaid := laidOut_run ⟨.replicate 64 .zero⟩ ⟨0x1000, by decide⟩ ⟨0x40000, by decide⟩
    (fun _ => 0) [.bootstrap]
  have hclean := Loading.clean_prepareLoad (a := .empty) hwithin hlaid.ledger_below
    (by decide +kernel) rfl
  refine ⟨_, _, rfl, Prod.ext ?answer rfl, ?ranges, ?inside, ?free, ?taken⟩
  case answer => decide +kernel
  case ranges => decide +kernel
  case inside => decide +kernel
  case free =>
    exact StoresLedger.byte_start (i := 0) (e := .free) hbefore (by decide +kernel)
      (by decide +kernel) (by decide +kernel)
  case taken =>
    exact StoresLedger.byte_start (i := 0) (e := .start 12) (hclean.stored hbefore)
      (by decide +kernel) (by decide +kernel) (by decide +kernel)

end Machine
end MipsVm
