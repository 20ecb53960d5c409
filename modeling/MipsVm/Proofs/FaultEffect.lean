import MipsVm.Proofs.DistinctPages
import MipsVm.Proofs.ReachableSpaces

/-! What one fault comes to. It is refused and leaves everything but the log as it was, or it fills one slot
of the translation buffer, whatever the slots hold, so that the access that missed is found there when
it is tried again. -/
namespace MipsVm

namespace Tlb
variable {t t' : Tlb} {e : TlbEntry} {va : VAddr} {i : Fin tlbSlots}

/-- `t'` is `t` with `e` in one slot: the lowest without a valid entry, or the one that the hardware
chooses once each has one. -/
inductive Filled (t t' : Tlb) (e : TlbEntry) : Placement → Prop where
  | slot (i : Fin tlbSlots) (hfree : (t.slots.get i).isValid = false)
    (hlow : ∀ j < i, (t.slots.get j).isValid = true) (hself : t'.slots.get i = e)
    (hothers : ∀ j, j ≠ i → t'.slots.get j = t.slots.get j)
    (hwrites : t'.randomWrites = t.randomWrites) : Filled t t' e (.slot i)
  | random (hfull : ∀ j, (t.slots.get j).isValid = true)
    (hself : t'.slots.get (t.victim t.randomWrites) = e)
    (hothers : ∀ j, j ≠ t.victim t.randomWrites → t'.slots.get j = t.slots.get j)
    (hwrites : t'.randomWrites = t.randomWrites + 1) : Filled t t' e .random

theorem get_set_self (t : Tlb) (i : Fin tlbSlots) (e : TlbEntry) : (t.set i e).slots.get i = e :=
  Vector.getElem_set_self ..

theorem get_set_ne (t : Tlb) (e : TlbEntry) {j : Fin tlbSlots} (h : j ≠ i) :
    (t.set i e).slots.get j = t.slots.get j :=
  Vector.getElem_set_ne i.isLt j.isLt fun heq => h (Fin.ext heq.symm)

theorem filled_put (t : Tlb) (e : TlbEntry) : Filled t (t.put e t.nextPlacement) e t.nextPlacement := by
  unfold nextPlacement
  cases hfirst : t.firstInvalid? with
  | none =>
    have hfull : ∀ j : Fin tlbSlots, (t.slots.get j).isValid = true :=
      firstInvalid?_eq_none_iff.mp hfirst
    apply Filled.random hfull
    · exact t.get_set_self _ e
    · intro j hj
      exact t.get_set_ne e hj
    · rfl
  | some i =>
    obtain ⟨hfree, hlow⟩ := firstInvalid?_eq_some_iff.mp hfirst
    apply Filled.slot i hfree hlow
    · exact t.get_set_self i e
    · intro j hj
      exact t.get_set_ne e hj
    · rfl

theorem Filled.exists_slot {placement : Placement} (h : Filled t t' e placement) :
    ∃ i, t'.slots.get i = e ∧ ∀ j, j ≠ i → t'.slots.get j = t.slots.get j := by
  cases h with
  | slot i _ _ hself hothers _ => exact ⟨i, hself, hothers⟩
  | random _ hself hothers _ => exact ⟨_, hself, hothers⟩

/-- Where one slot alone matches a page, its order among the others does not matter. -/
theorem probe?_of_unique (hvalid : (t.slots.get i).isValid = true)
    (hpage : (t.slots.get i).hi.vpn = va.pageNumber)
    (honly : ∀ j, (t.slots.get j).isValid = true → (t.slots.get j).hi.vpn = va.pageNumber → j = i) :
    t.probe? va = some (t.slots.get i) := by
  cases hprobe : t.probe? va with
  | none => exact absurd hpage (ne_of_probe?_eq_none hprobe i hvalid)
  | some e =>
    have hmatch := Vector.find?_some hprobe
    obtain ⟨j, hj, rfl⟩ := Vector.getElem_of_mem (Vector.mem_of_find?_eq_some hprobe)
    rw [Bool.and_eq_true, beq_iff_eq] at hmatch
    have hsame : (⟨j, hj⟩ : Fin tlbSlots) = i := honly ⟨j, hj⟩ hmatch.1 hmatch.2
    rw [← hsame]
    rfl

/-- What missed before is found in the slot that was filled for it. -/
theorem Filled.probe? {placement : Placement} (h : Filled t t' e placement)
    (hmiss : t.probe? va = none) (hvalid : e.isValid = true) (hpage : e.hi.vpn = va.pageNumber) :
    t'.probe? va = some e := by
  obtain ⟨i, rfl, hothers⟩ := h.exists_slot
  apply probe?_of_unique hvalid hpage
  intro j hj hjpage
  by_contra hne
  rw [hothers j hne] at hj hjpage
  exact ne_of_probe?_eq_none hmiss j hj hjpage

end Tlb

namespace AddressSpace
variable {a : AddressSpace} {va : VAddr} {t : Translation}

/-- A page is one piece of its segment, so the address is as far into the frame as into the page. -/
theorem Placed.translate_of_alignDown (h : a.Placed) (hframes : a.FramesBelow directMapSize)
    (ht : a.translate va.alignDown = .ok (some t)) :
    ∃ u, a.translate va = .ok (some u) ∧ u.segment = t.segment ∧
      t.pa.val + va.pageOffset = u.pa.val := by
  obtain ⟨r, hr, pbase, hpbase, hin, hpa⟩ := region_of_translate ht
  have hmaps : a.Maps va := (maps_alignDown h).mp (maps_of_translate ht)
  obtain ⟨u, hu⟩ := translate_of_maps hmaps h hframes
  obtain ⟨s, hs, sbase, hsbase, hsin, hupa⟩ := region_of_translate hu
  have hrin : r.Contains va := (r.contains_alignDown (h.pages _ r hr)).mp hin
  have hsegment : u.segment = t.segment := h.segment_eq hs hr hsin hrin
  rw [hsegment] at hs
  obtain rfl : r = s := Option.some.inj (hr.symm.trans hs)
  obtain rfl : pbase = sbase := Option.some.inj (hpbase.symm.trans hsbase)
  refine ⟨u, hu, hsegment, ?_⟩
  have hbegin : r.vbase.val ≤ va.alignDown.val := hin.1
  have hoffset := va.alignDown_add_pageOffset
  omega

end AddressSpace

/-- Why a fault at `addr` is not resolved, if it is not. The first reason that applies is given. -/
def refusal? (space : Option AddressSpace) (code : Nat) (addr : VAddr) : Option VmError :=
  if 2 < code then some (.invalidFaultType code)
  else if code = 2 then some (.readOnly addr.alignDown)
  else
    match space with
    | none => some .noAddressSpace
    | some a => if a.Maps addr then none else some (.unmapped addr)

/-- The miss at `addr`, which the space leads to `t`, was resolved by `r`: the access that missed is found
now, and may be tried again. -/
structure Installs (m m' : Machine) (addr : VAddr) (t : Translation) (r : Resolution)
    (entry : TlbEntry) : Prop where
  filled : m.tlb.Filled m'.tlb entry r.placement
  hits : m.tlb.probe? addr = none → m'.tlb.probe? addr = some entry
  frame_eq : entry.lo.frame.val + addr.pageOffset = t.pa.val
  dirty_eq : entry.lo.dirty = r.dirty

/-- What one fault at `addr` comes to on `m`. -/
structure FaultEffect (m : Machine) (space : Option AddressSpace) (code : Nat) (addr : VAddr) :
    Prop where
  refused : ∀ e, refusal? space code addr = some e → ∃ m',
    (Kernel.fault space code addr).outcome m = (.ok (.error e), m') ∧
      m'.tlb = m.tlb ∧ m'.interrupts = m.interrupts ∧ m'.frames = m.frames ∧ m'.ram = m.ram
  resolved : refusal? space code addr = none → ∃ a t r m' entry,
    space = some a ∧ a.translate addr = .ok (some t) ∧
      (Kernel.fault space code addr).outcome m = (.ok (.ok r), m') ∧ Installs m m' addr t r entry

namespace FaultKind
variable {code : Nat}

theorem ofCode_of_lt (h : 2 < code) : ofCode code = .error (.invalidFaultType code) :=
  match code, h with
  | _ + 3, _ => rfl

theorem exists_miss (h : code < 2) : ∃ kind, ofCode code = .ok kind ∧ kind ≠ .readOnly :=
  match code, h with
  | 0, _ => ⟨.read, rfl, nofun⟩
  | 1, _ => ⟨.write, rfl, nofun⟩

end FaultKind

namespace Kernel
variable {m : Machine} {space : Option AddressSpace} {a : AddressSpace} {code : Nat} {addr : VAddr}
  {e : VmError}

/-- A fault that is refused has written to the log at most. -/
theorem fault_of_refused (hspace : ∀ a ∈ space, a.Placed ∧ ¬ a.Overflows addr)
    (h : refusal? space code addr = some e) :
    ∃ records, (fault space code addr).outcome m = (.ok (.error e), m.logged records) := by
  unfold refusal? at h
  split_ifs at h with hinvalid hstore
  · obtain rfl := Option.some.inj h
    refine ⟨[], ?_⟩
    rw [fault, FaultKind.ofCode_of_lt hinvalid, Machine.logged_nil]
    rfl
  · obtain rfl := Option.some.inj h
    subst hstore
    refine ⟨[⟨.debug, s!"fault: {FaultKind.readOnly.name} at {addr}"⟩], ?_⟩
    change (resolveMiss space .readOnly addr).outcome m = _
    simp only [resolveMiss, outcome_bind, outcome_log, if_pos, outcome_pure]
  · obtain ⟨kind, hkind, hmiss⟩ : ∃ kind, FaultKind.ofCode code = .ok kind ∧ kind ≠ .readOnly :=
      FaultKind.exists_miss (by omega)
    have hfault : fault space code addr = resolveMiss space kind addr := by rw [fault, hkind]
    refine ⟨[⟨.debug, s!"fault: {kind.name} at {addr}"⟩], ?_⟩
    rw [hfault]
    cases space with
    | none =>
      obtain rfl := Option.some.inj h
      simp only [resolveMiss, outcome_bind, outcome_log, if_neg hmiss, outcome_pure]
    | some a =>
      dsimp only at h
      split_ifs at h with hmaps
      obtain rfl := Option.some.inj h
      obtain ⟨hplaced, hover⟩ := hspace a rfl
      -- the page is asked for in place of the address
      rw [← AddressSpace.maps_alignDown hplaced] at hmaps
      rw [← AddressSpace.overflows_alignDown hplaced] at hover
      have hnone := AddressSpace.translate_eq_none_iff.mpr ⟨hover, hmaps⟩
      simp only [resolveMiss, outcome_bind, outcome_log, if_neg hmiss, outcome_lift, hnone,
        outcome_pure]

/-- Nothing but a page that the space maps is left to be resolved. -/
theorem exists_maps_of_refusal?_eq_none (h : refusal? space code addr = none) :
    (code = 0 ∨ code = 1) ∧ ∃ a, space = some a ∧ a.Maps addr := by
  unfold refusal? at h
  split_ifs at h with hinvalid hstore
  refine ⟨by omega, ?_⟩
  cases space with
  | none => cases h
  | some a =>
    dsimp only at h
    split_ifs at h with hmaps
    exact ⟨a, rfl, hmaps⟩

theorem fault_of_maps (hplaced : a.Placed) (hframes : a.FramesBelow directMapSize)
    (hcode : code = 0 ∨ code = 1) (hmaps : a.Maps addr) :
    ∃ t r m' entry, a.translate addr = .ok (some t) ∧
      (fault (some a) code addr).outcome m = (.ok (.ok r), m') ∧ Installs m m' addr t r entry := by
  rw [← AddressSpace.maps_alignDown hplaced] at hmaps
  obtain ⟨u, hu⟩ := AddressSpace.translate_of_maps hmaps hplaced hframes
  obtain ⟨t, ht, -, hpa⟩ := hplaced.translate_of_alignDown hframes hu
  have hanswer : ((fault (some a) code addr).outcome m).1 = .ok (.ok ⟨addr.alignDown, u.pa,
      u.segment, !(u.segment == .text && a.loaded), m.tlb.nextPlacement⟩) := by
    rw [(fault_of_miss hcode).1, hu]
    rfl
  have htlb : ((fault (some a) code addr).outcome m).2.tlb = m.tlb.put
      ⟨.forPage addr.alignDown, .mapping u.pa !(u.segment == .text && a.loaded)⟩
      m.tlb.nextPlacement := by
    rw [(fault_of_miss hcode).2, hu]
  generalize (!(u.segment == .text && a.loaded)) = dirty at hanswer htlb
  have hfilled := m.tlb.filled_put ⟨.forPage addr.alignDown, .mapping u.pa dirty⟩
  rw [← htlb] at hfilled
  refine ⟨t, _, _, _, ht, Prod.ext hanswer rfl, ⟨hfilled, ?_, ?_, EntryLo.dirty_mapping ..⟩⟩
  · intro hmiss
    apply hfilled.probe? hmiss (EntryLo.valid_mapping ..)
    rw [EntryHi.vpn_forPage, Address.pageNumber_alignDown]
  · -- the frame is whole, so no bit of its address is lost in the entry
    have hdvd : pageSize ∣ u.pa.val := hplaced.translation_dvd
      (Address.isPageAligned_iff.mp addr.isPageAligned_alignDown) hu
    have hframe : u.pa.alignDown.val = u.pa.val := Nat.div_mul_cancel hdvd
    rw [EntryLo.frame_mapping, hframe, hpa]

/-- Whatever the slots hold, and for each type of fault: one that is refused changes nothing, and one that
is resolved fills one slot with what the space gives. -/
theorem fault_effect (hspace : ∀ a ∈ space, a.Reachable ∧ a.FramesBelow directMapSize)
    (m : Machine) (code : Nat) (haddr : addr.val < userTop) : FaultEffect m space code addr := by
  have hlow : addr.val < 0x100000000 - directMapSize := Nat.lt_trans haddr (by decide)
  constructor
  case refused =>
    intro e he
    have hplaced : ∀ a ∈ space, a.Placed ∧ ¬ a.Overflows addr := by
      intro a ha
      obtain ⟨hreachable, hframes⟩ := hspace a ha
      exact ⟨hreachable.placed, AddressSpace.not_overflows_of_lt hframes hlow⟩
    obtain ⟨records, houtcome⟩ := fault_of_refused (m := m) hplaced he
    exact ⟨_, houtcome, rfl, rfl, rfl, rfl⟩
  case resolved =>
    intro hnone
    obtain ⟨hcode, a, rfl, hmaps⟩ := exists_maps_of_refusal?_eq_none hnone
    obtain ⟨hreachable, hframes⟩ := hspace a rfl
    obtain ⟨t, r, m', entry, h⟩ := fault_of_maps (m := m) hreachable.placed hframes hcode hmaps
    exact ⟨a, t, r, m', entry, rfl, h⟩

/-- Every slot is valid, so the hardware chooses. The page is one of the text of a loaded program, and
clean. -/
theorem fault_effect_of_full_buffer :
    ∃ a : AddressSpace, ∃ m : Machine,
      a = ⟨some ⟨⟨0x400000, by decide⟩, 2, some ⟨0x6000, by decide⟩, by decide⟩,
        some ⟨⟨0x402000, by decide⟩, 1, none, by decide⟩, some ⟨0x8000, by decide⟩, true⟩ ∧
      m = (Machine.new ⟨.replicate 64 .zero⟩ ⟨0x1000, by decide⟩ ⟨0x40000, by decide⟩
        fun _ => 5).setTlb ((Tlb.empty fun _ => 5).fillIdentity 0 64) ∧
      (a.Reachable ∧ a.FramesBelow directMapSize) ∧ (0x401010 : Nat) < userTop ∧
      FaultEffect m (some a) 1 ⟨0x401010, by decide⟩ ∧
      m.tlb.probe? ⟨0x401010, by decide⟩ = none ∧
      ((fault (some a) 1 ⟨0x401010, by decide⟩).outcome m).1 =
        .ok (.ok ⟨⟨0x401000, by decide⟩, ⟨0x7000, by decide⟩, .text, false, .random⟩) := by
  refine ⟨_, _, rfl, rfl, ⟨AddressSpace.reachable_of_late_region, by decide⟩, by decide, ?_, ?_, ?_⟩
  · apply fault_effect
    · intro a ha
      obtain rfl := Option.some.inj ha
      exact ⟨AddressSpace.reachable_of_late_region, by decide⟩
    · decide
  · decide +kernel
  · decide +kernel

end Kernel
end MipsVm
