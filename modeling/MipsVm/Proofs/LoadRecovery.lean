import MipsVm.Proofs.FrameLoans
import MipsVm.Proofs.Operations
import MipsVm.Proofs.SpaceHoldings
import MipsVm.Proofs.VmHistory

/-! A load that runs out of frames leaves the space with those that it got, and no other trace of itself:
once the space is destroyed the pool is the one that the load began with. -/
namespace MipsVm

namespace Kernel
variable {m : Machine} {pa : PAddr} {n i : Nat}

/-- Also where zeroing halts: the frames are beyond RAM then, and no byte out there is set. -/
theorem byte_zeroFrames (hi : (⟨pa.val, n⟩ : FrameRange).Covers i) :
    ((zeroFrames pa n).outcome m).2.ram.byte i = 0 := by
  obtain ⟨hstart, hstop⟩ := hi
  rw [zeroFrames_outcome]
  rcases Nat.lt_or_ge pa.val m.ram.size with hin | hout
  · have hbyte := m.ram.byte_update pa.val (n * pageSize) (fun _ => 0) i
    rw [Ram.zero_of_lt hin]
    refine hbyte.trans ?_
    split_ifs with hwritten
    · rfl
    · have hbeyond : m.ram.size ≤ i := Nat.not_lt.mp fun hlt => hwritten ⟨hstart, hstop, hlt⟩
      exact Ram.byte_of_le hbeyond
  · rw [Ram.zero_of_le hout]
    exact Ram.byte_of_le (Nat.le_trans hout hstart)

end Kernel

namespace Loading
variable {m : Machine} {p : RunAllocator} {s : Loading} {segment : Segment} {r : Region}
  {pa : PAddr}

/-- The frames behind the space are what the pool of `p` has handed out on top of its own runs. -/
def Draws (p : RunAllocator) (s : Loading) : Prop :=
  ∃ rs, s.machine.Lends p rs ∧ s.space.ranges.Perm (rs.map p.range)

/-- Since `m` the frames behind the space were filled with zeros, and nothing else was written but the
ledger, which goes on holding its entries. -/
structure Clears (m : Machine) (s : Loading) : Prop where
  size : s.machine.ram.size = m.ram.size
  byte : ∀ i, ¬ m.InLedger i → (∀ t ∈ s.space.ranges, ¬ t.Covers i) →
    s.machine.ram.byte i = m.ram.byte i
  ledgerAt_eq : s.machine.ledgerAt = m.ledgerAt
  ledgerSize_eq : s.machine.ledgerSize = m.ledgerSize
  stored : m.StoresLedger → s.machine.StoresLedger
  beside_ledger : ∀ t ∈ s.space.ranges, ∀ i, t.Covers i → ¬ m.InLedger i
  zero : ∀ t ∈ s.space.ranges, ∀ i, t.Covers i → s.machine.ram.byte i = 0

theorem draws_of_unbound (hunbound : s.space.hasFrames = false)
    (hsource : s.machine.frames.value = .pool p.pool) : s.Draws p := by
  refine ⟨[], Machine.lends_nil_iff.mpr hsource, ?_⟩
  rw [AddressSpace.ranges_of_unbound hunbound]
  exact .refl []

theorem clears_of_unbound (hunbound : s.space.hasFrames = false) : s.Clears s.machine := by
  have hranges := AddressSpace.ranges_of_unbound hunbound
  constructor
  case size => rfl
  case byte => exact fun _ _ _ => rfl
  case ledgerAt_eq => rfl
  case ledgerSize_eq => rfl
  case stored => exact id
  case beside_ledger =>
    rw [hranges]
    exact nofun
  case zero =>
    rw [hranges]
    exact nofun

theorem Clears.inLedger (h : s.Clears m) (i : Nat) : s.machine.InLedger i ↔ m.InLedger i :=
  Machine.inLedger_congr h.ledgerAt_eq h.ledgerSize_eq i

/-- Frames come and go, but what was bound before is beside the ledger. -/
theorem Clears.of_ledger {machine : Machine} (h : s.Clears m)
    (hledger : s.machine.WritesLedger machine) : (⟨machine, s.space⟩ : Loading).Clears m := by
  have hbyte (i : Nat) (hi : ¬ m.InLedger i) : machine.ram.byte i = s.machine.ram.byte i :=
    hledger.byte i fun hin => hi ((h.inLedger i).mp hin)
  constructor
  case size => exact hledger.size.trans h.size
  case byte => exact fun i hi hranges => (hbyte i hi).trans (h.byte i hi hranges)
  case ledgerAt_eq => exact hledger.ledgerAt_eq.trans h.ledgerAt_eq
  case ledgerSize_eq => exact hledger.ledgerSize_eq.trans h.ledgerSize_eq
  case stored => exact fun hstored => hledger.stored (h.stored hstored)
  case beside_ledger => exact h.beside_ledger
  case zero =>
    intro t ht i hi
    exact (hbyte i (h.beside_ledger t ht i hi)).trans (h.zero t ht i hi)

/-- All that the space has drawn was free before. -/
theorem Draws.hasFree (h : s.Draws p) (hsource : m.frames.value = .pool p.pool) :
    ∀ t ∈ s.space.ranges, m.HasFree t := by
  obtain ⟨rs, hlends, hranges⟩ := h
  intro t ht
  obtain ⟨r, hr, rfl⟩ := List.mem_map.mp (hranges.subset ht)
  exact ⟨p.pool, hsource, hlends.hasFree hr⟩

/-- In the ledger it shows in the entries of what was drawn and in no others. -/
theorem Draws.sameBeside (h : s.Draws p) {pool : FramePool}
    (hpool : s.machine.frames.value = .pool pool) : p.pool.SameBeside s.space.ranges pool := by
  obtain ⟨rs, hlends, hranges⟩ := h
  intro i hi
  exact hlends.sameBeside hpool i fun t ht => hi t (hranges.symm.subset ht)

/-- RAM that held the entries has changed in what was drawn and in its entries, and nowhere else. -/
theorem Draws.byte_eq (h : s.Draws p) (hclears : s.Clears m) (hsource : m.frames.value = .pool p.pool)
    (hstored : m.StoresLedger) {i : Nat} (hranges : ∀ t ∈ s.space.ranges, ¬ t.Covers i)
    (hentries : ¬ m.InEntries s.space.ranges i) : s.machine.ram.byte i = m.ram.byte i := by
  by_cases hi : m.InLedger i
  · have ⟨_, ⟨_, _, hpool⟩, _⟩ := h
    refine hstored.byte_eq_of_entry (hclears.stored hstored) hsource hpool hclears.ledgerAt_eq
      hclears.ledgerSize_eq hclears.size hi (h.sameBeside hpool _ ?_)
    exact fun t ht hcovers => hentries ⟨hi, p.pool, hsource, t, ht, hcovers⟩
  · exact hclears.byte i hi hranges

/-- Destroying the space brings back the pool that it drew from. -/
theorem Draws.destroySpace (h : s.Draws p) (husable : p.Usable) :
    ∃ m', (Kernel.destroySpace s.space).outcome s.machine = (.ok (), m') ∧
      s.machine.WritesLedger m' ∧ m'.frames.value = .pool p.pool := by
  obtain ⟨rs, hlends, hranges⟩ := h
  have hstarts : (s.space.boundFrames.map Address.val).Perm
      (rs.map fun r => (p.range r).start) := by
    have hmap := hranges.map FrameRange.start
    rw [List.map_map] at hmap
    rw [AddressSpace.starts_boundFrames]
    exact hmap
  exact hlends.freeAll husable hstarts

/-- The frames of one more segment were lent, and zeroed … -/
theorem Draws.zeroFrames {allocated : Machine} {rs : List Run} {t : Run}
    (hranges : s.space.ranges.Perm (rs.map p.range)) (hlends : allocated.Lends p (t :: rs))
    (hrange : p.range t = ⟨pa.val, r.npages⟩) (hr : s.space.region? segment = some r)
    (hunbound : r.pbase = none) :
    (⟨((Kernel.zeroFrames pa r.npages).outcome allocated).2,
      s.space.bind segment pa⟩ : Loading).Draws p := by
  have hsame := Kernel.obeys_zeroFrames Machine.sameSource_effect.composes
    Machine.sameSource_setRam pa r.npages allocated
  refine ⟨t :: rs, hlends.of_source hsame.source_eq, ?_⟩
  rw [List.map_cons, hrange]
  exact (AddressSpace.ranges_bind hr hunbound).trans (hranges.cons _)

/-- … so they hold zeros like those of the segments before. -/
theorem Clears.zeroFrames {allocated : Machine} (h : s.Clears m)
    (hledger : s.machine.WritesLedger allocated)
    (hbeside : ∀ i, (⟨pa.val, r.npages⟩ : FrameRange).Covers i → ¬ m.InLedger i)
    (hr : s.space.region? segment = some r) (hunbound : r.pbase = none) :
    (⟨((Kernel.zeroFrames pa r.npages).outcome allocated).2,
      s.space.bind segment pa⟩ : Loading).Clears m := by
  have hafter := h.of_ledger hledger
  have hranges : (s.space.bind segment pa).ranges.Perm (⟨pa.val, r.npages⟩ :: s.space.ranges) :=
    AddressSpace.ranges_bind hr hunbound
  have hnew : ⟨pa.val, r.npages⟩ ∈ (s.space.bind segment pa).ranges :=
    hranges.symm.subset List.mem_cons_self
  have hold : s.space.ranges ⊆ (s.space.bind segment pa).ranges :=
    fun t ht => hranges.symm.subset (List.mem_cons_of_mem _ ht)
  have hwrites : allocated.ram.WritesIn ⟨pa.val, r.npages⟩
      ((Kernel.zeroFrames pa r.npages).outcome allocated).2.ram :=
    (Ram.changesAt_zeroFrames allocated pa r.npages).writesIn (Nat.le_refl _) (Nat.le_refl _)
  have hsame := Kernel.obeys_zeroFrames Machine.sameSource_effect.composes
    Machine.sameSource_setRam pa r.npages allocated
  constructor
  case size => exact hwrites.size.trans hafter.size
  case byte =>
    intro i hi hothers
    exact (hwrites.byte i (hothers _ hnew)).trans
      (hafter.byte i hi fun t ht => hothers t (hold ht))
  case ledgerAt_eq => exact hsame.ledgerAt_eq.trans hafter.ledgerAt_eq
  case ledgerSize_eq => exact hsame.ledgerSize_eq.trans hafter.ledgerSize_eq
  case stored =>
    intro hstored
    refine (hafter.stored hstored).of_bytes hsame hwrites.size fun i hi => hwrites.byte i ?_
    exact fun hcovers => hbeside i hcovers ((hafter.inLedger i).mp hi)
  case beside_ledger =>
    intro t ht
    rcases List.mem_cons.mp (hranges.subset ht) with rfl | hearlier
    · exact hbeside
    · exact h.beside_ledger t hearlier
  case zero =>
    intro t ht i hi
    by_cases hin : (⟨pa.val, r.npages⟩ : FrameRange).Covers i
    · exact Kernel.byte_zeroFrames hin
    · -- what is not among the new frames was zeroed with those of an earlier segment
      rcases List.mem_cons.mp (hranges.subset ht) with rfl | hearlier
      · exact absurd hi hin
      · exact (hwrites.byte i hin).trans (hafter.zero t hearlier i hi)

/-- The frames of the pool are none of the ledger's. -/
theorem not_inLedger_of_covers (hsource : m.frames.value = .pool p.pool) (hbelow : m.LedgerBelow)
    {t : Run} {i : Nat} (hi : (p.range t).Covers i) : ¬ m.InLedger i := by
  have hbase : p.base.val ≤ i := Nat.le_trans (Nat.le_add_right ..) hi.1
  exact fun hin => absurd (hbelow.lt_base hsource hin) (Nat.not_lt.mpr hbase)

/-- A step of the load: frames for one more segment, and zeros in them. -/
theorem Draws.bind {allocated : Machine} (h : s.Draws p) (hclears : s.Clears m)
    (hsource : m.frames.value = .pool p.pool) (hbelow : m.LedgerBelow)
    (hr : s.space.region? segment = some r) (hunbound : r.pbase = none)
    (halloc : (Kernel.allocFrames r.npages).outcome s.machine = (.ok (some pa), allocated)) :
    (⟨((Kernel.zeroFrames pa r.npages).outcome allocated).2,
      s.space.bind segment pa⟩ : Loading).Draws p ∧
    (⟨((Kernel.zeroFrames pa r.npages).outcome allocated).2,
      s.space.bind segment pa⟩ : Loading).Clears m := by
  obtain ⟨rs, hlends, hranges⟩ := h
  have hlending := hlends.allocFrames r.npages
  rw [halloc] at hlending
  cases hlending with
  | lent _ t _ hrange hledger hlends =>
    refine ⟨Draws.zeroFrames hranges hlends hrange hr hunbound,
      hclears.zeroFrames hledger ?_ hr hunbound⟩
    rw [← hrange]
    exact fun i hi => not_inLedger_of_covers hsource hbelow hi

/-- What giving frames to `segments` of `a` comes to, from `m` with the pool of `p` on. -/
structure Drawing (p : RunAllocator) (m : Machine) (a : AddressSpace) (segments : List Segment)
    (outcome : Except Halt (Except VmError Unit) × Loading) : Prop where
  draws : outcome.2.Draws p
  clears : outcome.2.Clears m
  layout : outcome.2.space.layout = a.layout
  loaded : outcome.2.space.loaded = a.loaded
  error_eq : ∀ e, outcome.1 = .ok (.error e) → e = .outOfMemory
  bound : outcome.1 = .ok (.ok ()) → ∀ segment ∈ segments, ∀ r, a.region? segment = some r →
    ∃ pa, outcome.2.space.region? segment = some (r.bind pa)
  others : ∀ segment, segment ∉ segments → outcome.2.space.region? segment = a.region? segment

/-- What is drawn and cleared so far is the invariant, and it holds wherever the load stops. -/
theorem draws_of_binds {segments : List Segment}
    {outcome : Except Halt (Except VmError Unit) × Loading} (h : Loader.Binds segments s outcome)
    (hnodup : segments.Nodup) (hunbound : ∀ segment ∈ segments, s.space.range? segment = none)
    (hsource : m.frames.value = .pool p.pool) (hbelow : m.LedgerBelow)
    (hdraws : s.Draws p) (hclears : s.Clears m) :
    outcome.2.Draws p ∧ outcome.2.Clears m ∧
      ∀ e, outcome.1 = .ok (.error e) → e = .outOfMemory := by
  induction h with
  | done s => exact ⟨hdraws, hclears, nofun⟩
  | absent hr hrest ih =>
    have hothers := (List.forall_mem_cons.mp hunbound).2
    exact ih (List.nodup_cons.mp hnodup).2 hothers hdraws hclears
  | @halted segment s r _ _ rest hr halloc =>
    -- a pool does not halt
    obtain ⟨rs, hlends, -⟩ := hdraws
    have hlending := hlends.allocFrames r.npages
    rw [halloc] at hlending
    cases hlending
  | @refused segment s r _ rest hr halloc =>
    -- the segments before this one keep their frames
    obtain ⟨rs, hlends, hranges⟩ := hdraws
    have hlending := hlends.allocFrames r.npages
    rw [halloc] at hlending
    cases hlending with
    | refused _ hledger hlends =>
      refine ⟨⟨rs, hlends, hranges⟩, hclears.of_ledger hledger, ?_⟩
      exact fun _ herror => (Except.error.inj (Except.ok.inj herror)).symm
  | @unzeroed segment s r pa _ allocated _ rest hr halloc hzero =>
    -- the frames were bound before they were zeroed, so they are not lost
    have hfree := AddressSpace.range?_eq_none_iff.mp (List.forall_mem_cons.mp hunbound).1 r hr
    obtain ⟨hdrawn, hcleared⟩ := hdraws.bind hclears hsource hbelow hr hfree halloc
    rw [hzero] at hdrawn hcleared
    exact ⟨hdrawn, hcleared, nofun⟩
  | @bound segment rest s r pa allocated zeroed _ hr halloc hzero hrest ih =>
    obtain ⟨hnew, hnodup⟩ := List.nodup_cons.mp hnodup
    obtain ⟨hself, hunbound⟩ := List.forall_mem_cons.mp hunbound
    have hfree := AddressSpace.range?_eq_none_iff.mp hself r hr
    obtain ⟨hdrawn, hcleared⟩ := hdraws.bind hclears hsource hbelow hr hfree halloc
    rw [hzero] at hdrawn hcleared
    exact ih hnodup (AddressSpace.range?_bind_of_not_mem hnew hunbound pa) hdrawn hcleared

/-- A load of a space without frames. -/
theorem drawing_prepareLoad {a : AddressSpace} (hunbound : a.hasFrames = false)
    (hsource : m.frames.value = .pool p.pool) (hbelow : m.LedgerBelow) :
    Drawing p m a Segment.all (Loader.prepareLoad.outcome ⟨m, a⟩) := by
  have hbinds := Loader.binds_prepareLoad (s := ⟨m, a⟩) hunbound
  have hsegments : ∀ segment ∈ Segment.all, a.range? segment = none :=
    fun segment _ => AddressSpace.range?_of_unbound hunbound segment
  obtain ⟨hdraws, hclears, herror⟩ := draws_of_binds hbinds (by decide) hsegments hsource hbelow
    (draws_of_unbound hunbound hsource) (clears_of_unbound (s := ⟨m, a⟩) hunbound)
  obtain ⟨done, left, hall, hfilled, hleft⟩ := hbinds.filled (by decide)
  constructor
  case draws => exact hdraws
  case clears => exact hclears
  case layout => exact hfilled.layout_eq
  case loaded => exact hfilled.loaded
  case error_eq => exact herror
  case bound =>
    intro hdone segment hmem r hr
    rw [hall, hleft hdone, List.append_nil] at hmem
    exact hfilled.region? hmem hr
  case others => exact fun segment hmem => absurd segment.mem_all hmem

end Loading

namespace Machine
variable {m : Machine}

/-- What was drawn for a space that could not be loaded, or not be copied, can be given back in full. -/
structure Recovers (m : Machine) : Prop where
  load : ∀ a : AddressSpace, a.hasFrames = false →
    let loading := Loader.prepareLoad.outcome ⟨m, a⟩
    (∀ e, loading.1 = .ok (.error e) → e = .outOfMemory) ∧
      ∃ m', (Kernel.destroySpace loading.2.space).outcome loading.2.machine = (.ok (), m') ∧
        m'.frames.value = m.frames.value
  copy : ∀ h : VmHistory, h.machine = m → ∀ i s, h.spaces.get? i = some s → ∀ e m',
    (Kernel.copySpace s.space).outcome m = (.ok (.error e), m') →
      e = .outOfMemory ∧ m'.frames.value = m.frames.value ∧
      (∀ j, ¬ m.InLedger j → (∀ t, m.HasFree t → ¬ t.Covers j) →
        m'.ram.byte j = m.ram.byte j) ∧
      (m.StoresLedger → ∀ j, m.InLedger j → m'.ram.byte j = m.ram.byte j) ∧
      h.next (.copySpace i) = { h with machine := m' }

theorem recovers_of_usable {p : RunAllocator} (hsource : m.frames.value = .pool p.pool)
    (husable : p.Usable) (hbelow : m.LedgerBelow) : m.Recovers := by
  constructor
  case load =>
    intro a hunbound loading
    have hdrawing := Loading.drawing_prepareLoad hunbound hsource hbelow
    obtain ⟨m', hdestroy, -, hrestored⟩ := hdrawing.draws.destroySpace husable
    exact ⟨hdrawing.error_eq, m', hdestroy, hrestored.trans hsource.symm⟩
  case copy =>
    intro h hmachine i s hs e m' hcopy
    -- a copy that fails is a failed load of the bare layout, destroyed at once
    obtain ⟨loading, hload, hdestroyed⟩ := Kernel.copySpace_of_error hcopy
    have hdrawing := Loading.drawing_prepareLoad s.space.hasFrames_layout hsource hbelow
    rw [hload] at hdrawing
    obtain ⟨m₁, hdestroy, hledger, hrestored⟩ := hdrawing.draws.destroySpace husable
    obtain rfl : m' = m₁ := congrArg Prod.snd (hdestroyed.symm.trans hdestroy)
    have hclears := hdrawing.clears
    refine ⟨hdrawing.error_eq e rfl, hrestored.trans hsource.symm, ?_, ?_, ?_⟩
    · intro j hout hj
      have hfree := hdrawing.draws.hasFree hsource
      rw [hledger.byte j fun hin => hout ((hclears.inLedger j).mp hin)]
      exact hclears.byte j hout fun t ht => hj t (hfree t ht)
    · intro hstored j hj
      exact Machine.StoresLedger.byte_eq hstored (hledger.stored (hclears.stored hstored))
        (hrestored.trans hsource.symm) (hledger.ledgerAt_eq.trans hclears.ledgerAt_eq)
        (hledger.size.trans hclears.size) hj
    · rw [← hmachine] at hcopy
      rw [VmHistory.next, VmHistory.onSpace_of_live hs, hcopy]

theorem laidOut_run (ram : Ram) (first last : PAddr) (victim : Nat → Fin tlbSlots)
    (ops : List Operation) : ((new ram first last victim).run ops).LaidOut :=
  run_bound Kernel.keepsLayout_bound Kernel.keepsLayout_flushTlb Kernel.keepsLayout_installMapping
    _ ops (laidOut_new ram first last victim)

/-- Once there is a pool, whatever became of it: a space without frames that is loaded, however that
ends, and then destroyed leaves the ledger and both counts as they were, and so does a copy that
fails, which fails for want of frames alone. -/
theorem recovers_of_operations (ram : Ram) (first last : PAddr) (victim : Nat → Fin tlbSlots)
    (ops : List Operation) (hpool : ((new ram first last victim).run ops).pooling = true) :
    ((new ram first last victim).run ops).Recovers := by
  obtain ⟨hpages, hbelow⟩ := laidOut_run ram first last victim ops
  cases hsource : ((new ram first last victim).run ops).frames.value with
  | boot memory =>
    rw [pooling, hsource] at hpool
    cases hpool
  | pool pool =>
    rw [hsource] at hpages
    obtain ⟨p, rfl, husable⟩ := hpages
    exact recovers_of_usable hsource husable hbelow

/-- The first region gets the frame that was freed between two live runs; the second has no pages, and
is refused. -/
theorem recovers_of_operations_of_fragments :
    ∃ m : Machine, ∃ a : AddressSpace, m =
        (new ⟨.replicate 64 .zero⟩ ⟨0x1000, by decide⟩ ⟨0x40000, by decide⟩ fun _ => 0).run
          [.bootstrap, .allocFrames 2, .allocFrames 1, .allocKernelPages 3,
            .freeFrames ⟨0x4000, by decide⟩] ∧
      a = ⟨some ⟨⟨0x400000, by decide⟩, 1, none, by decide⟩,
        some ⟨⟨0x800000, by decide⟩, 0, none, by decide⟩, none, false⟩ ∧
      (Loader.prepareLoad.outcome ⟨m, a⟩).1 = .ok (.error .outOfMemory) ∧
      (Loader.prepareLoad.outcome ⟨m, a⟩).2.space.boundFrames = [⟨0x4000, by decide⟩] ∧
      m.Recovers := by
  refine ⟨_, _, rfl, rfl, ?_, ?_, recovers_of_operations _ _ _ _ _ ?_⟩
  · decide +kernel
  · decide +kernel
  · decide +kernel

end Machine
end MipsVm
