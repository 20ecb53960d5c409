import MipsVm.Proofs.VmHistory

/-! Any address that a program can name is answered, but for the highest ones: the sum that gives a frame
is formed for addresses past the end of a region too, and far enough past it no longer fits. -/
namespace MipsVm

namespace Region
variable {r : Region} {va : VAddr}

theorem contains_alignDown (hbase : pageSize ∣ r.vbase.val) :
    r.Contains va.alignDown ↔ r.Contains va := by
  simp only [Contains, Address.le_def, Address.lt_def, Address.alignDown, vend, pageSize] at *
  omega

theorem overflows_alignDown (hbase : pageSize ∣ r.vbase.val)
    (hframes : ∀ pa, r.pbase = some pa → pageSize ∣ pa.val) :
    r.Overflows va.alignDown ↔ r.Overflows va := by
  refine exists_congr fun pbase => and_congr_right fun hpbase => ?_
  have hdvd := hframes pbase hpbase
  simp only [Address.le_def, Address.alignDown, pageSize] at *
  omega

end Region

namespace AddressSpace
variable {a : AddressSpace} {va : VAddr} {len limit : Nat}

/-- A region has frames and, for `va`, a sum that no longer fits. -/
def Overflows (a : AddressSpace) (va : VAddr) : Prop :=
  ∃ segment r, a.region? segment = some r ∧ r.Overflows va

/-- A region with frames holds `va`. -/
def Maps (a : AddressSpace) (va : VAddr) : Prop :=
  ∃ segment r, a.region? segment = some r ∧ r.isBound = true ∧ r.Contains va

/-- A range of `len` bytes from `va` on whose first or last address has a sum that does not fit. The
last one is asked for once the first is found. -/
def RangeOverflows (a : AddressSpace) (va : VAddr) (len : Nat) : Prop :=
  0 < len ∧ (a.Overflows va ∨
    (a.Maps va ∧ ∃ last, va.add? (len - 1) = some last ∧ a.Overflows last))

/-- The frames of the space lie below `limit`. -/
def FramesBelow (a : AddressSpace) (limit : Nat) : Prop :=
  ∀ segment r pbase, a.region? segment = some r → r.pbase = some pbase →
    pbase.val + r.npages * pageSize ≤ limit

instance (a : AddressSpace) (va : VAddr) : Decidable (a.Maps va) :=
  decidable_of_iff (∃ segment ∈ Segment.all, ∃ r ∈ a.region? segment,
      r.isBound = true ∧ r.vbase ≤ va ∧ va < r.vend)
    ⟨fun ⟨segment, _, r, h⟩ => ⟨segment, r, h⟩, fun ⟨segment, r, h⟩ => ⟨segment, segment.mem_all, r, h⟩⟩

instance (a : AddressSpace) (limit : Nat) : Decidable (a.FramesBelow limit) :=
  decidable_of_iff (∀ segment ∈ Segment.all, ∀ r ∈ a.region? segment, ∀ pbase ∈ r.pbase,
      pbase.val + r.npages * pageSize ≤ limit)
    ⟨fun h segment r pbase hr => h segment segment.mem_all r hr pbase,
      fun h segment _ r hr pbase => h segment r pbase hr⟩

theorem maps_alignDown (hplaced : a.Placed) : a.Maps va.alignDown ↔ a.Maps va := by
  refine exists_congr fun segment => exists_congr fun r => and_congr_right fun hr => ?_
  rw [r.contains_alignDown (hplaced.pages segment r hr)]

theorem overflows_alignDown (hplaced : a.Placed) :
    a.Overflows va.alignDown ↔ a.Overflows va := by
  refine exists_congr fun segment => exists_congr fun r => and_congr_right fun hr => ?_
  exact r.overflows_alignDown (hplaced.pages segment r hr) fun pa =>
    hplaced.frames segment r pa hr

theorem Maps.lt_userTop (h : a.Maps va) (hplaced : a.Placed) : va.val < userTop := by
  obtain ⟨segment, r, hr, -, hin⟩ := h
  have hend := hplaced.vend_le hr
  have hva : va.val < r.vend.val := hin.2
  exact Nat.lt_of_lt_of_le hva hend

/-- Only the last 512 MiB of the address map are far enough from frames in the direct map. -/
theorem Overflows.le (h : a.Overflows va) (hframes : a.FramesBelow directMapSize) :
    0x100000000 - directMapSize ≤ va.val := by
  obtain ⟨segment, r, hr, pbase, hpbase, hle, hpast⟩ := h
  have hlow := hframes segment r pbase hr hpbase
  simp only [directMapSize, kseg0, kseg1] at *
  omega

theorem Overflows.not_maps (h : a.Overflows va) (hplaced : a.Placed)
    (hframes : a.FramesBelow directMapSize) : ¬ a.Maps va := by
  intro hmaps
  have hhigh := h.le hframes
  have hlow := hmaps.lt_userTop hplaced
  simp only [directMapSize, userTop, kseg0, kseg1] at *
  omega

theorem maps_of_lookup {segment : Segment} {pa : PAddr}
    (h : a.lookup va segment = .ok (some pa)) : a.Maps va := by
  obtain ⟨r, hr, htranslate⟩ := lookup_eq_some_iff.mp h
  obtain ⟨pbase, hpbase, hin, -⟩ := Region.translate_eq_some_iff.mp htranslate
  exact ⟨segment, r, hr, by rw [Region.isBound, hpbase]; rfl, hin⟩

theorem translate_halts_iff (hplaced : a.Placed) (hframes : a.FramesBelow directMapSize) :
    (∃ halt, a.translate va = .error halt) ↔ a.Overflows va := by
  constructor
  · rintro ⟨halt, herror⟩
    obtain ⟨segment, -, hlookup⟩ := translateIn_error herror
    obtain ⟨r, hr, htranslate⟩ := lookup_eq_error_iff.mp hlookup
    exact ⟨segment, r, hr, (Region.translate_eq_error_iff.mp htranslate).2⟩
  · intro hover
    have hsome : ∀ segment pa, a.lookup va segment ≠ .ok (some pa) := fun segment pa hlookup =>
      hover.not_maps hplaced hframes (maps_of_lookup hlookup)
    obtain ⟨segment, r, hr, hpast⟩ := hover
    have herror : a.lookup va segment = .error .overflow :=
      lookup_eq_error_iff.mpr ⟨r, hr, Region.translate_eq_error_iff.mpr ⟨rfl, hpast⟩⟩
    exact translateIn_of_error hsome segment.mem_all herror

theorem translate_eq_none_iff : a.translate va = .ok none ↔ ¬ a.Overflows va ∧ ¬ a.Maps va := by
  have hlookup (segment : Segment) : a.lookup va segment = .ok none ↔
      ∀ r, a.region? segment = some r → ¬ r.Overflows va ∧ (r.Contains va → r.pbase = none) := by
    unfold lookup
    cases a.region? segment with
    | none => simp
    | some r => simpa using Region.translate_eq_none_iff
  rw [translate, translateIn_eq_none_iff]
  constructor
  · intro h
    refine ⟨?_, ?_⟩
    · rintro ⟨segment, r, hr, hover⟩
      exact ((hlookup segment).mp (h segment segment.mem_all) r hr).1 hover
    · rintro ⟨segment, r, hr, hbound, hin⟩
      have hunbound := ((hlookup segment).mp (h segment segment.mem_all) r hr).2 hin
      rw [Region.isBound, hunbound] at hbound
      cases hbound
  · rintro ⟨hover, hmaps⟩ segment -
    refine (hlookup segment).mpr fun r hr => ⟨fun hpast => hover ⟨segment, r, hr, hpast⟩, ?_⟩
    intro hin
    rw [← Option.not_isSome_iff_eq_none]
    exact fun hbound => hmaps ⟨segment, r, hr, hbound, hin⟩

theorem translate_of_maps (h : a.Maps va) (hplaced : a.Placed)
    (hframes : a.FramesBelow directMapSize) : ∃ t, a.translate va = .ok (some t) := by
  cases htranslate : a.translate va with
  | error halt =>
    have hover := (translate_halts_iff hplaced hframes).mp ⟨halt, htranslate⟩
    exact absurd h (hover.not_maps hplaced hframes)
  | ok answer =>
    cases answer with
    | none => exact absurd h (translate_eq_none_iff.mp htranslate).2
    | some t => exact ⟨t, rfl⟩

theorem maps_of_translate {t : Translation} (h : a.translate va = .ok (some t)) : a.Maps va :=
  maps_of_lookup (translateIn_some h)

theorem span_of_unmapped (hover : ¬ a.Overflows va) (hmaps : ¬ a.Maps va) :
    a.span va len = .ok (.error (.unmapped va)) := by
  have hnone := translate_eq_none_iff.mpr ⟨hover, hmaps⟩
  rw [span, hnone]
  rfl

theorem span_halts_iff (hlen : 0 < len) (hplaced : a.Placed)
    (hframes : a.FramesBelow directMapSize) :
    (∃ halt, a.span va len = .error halt) ↔ a.RangeOverflows va len := by
  have hhalts {va : VAddr} : (∃ halt, a.translate va = .error halt) ↔ a.Overflows va :=
    translate_halts_iff hplaced hframes
  rw [RangeOverflows, and_iff_right hlen, span]
  rcases hfirst : a.translate va with halt | _ | first
  · have hover : a.Overflows va := hhalts.mp ⟨halt, hfirst⟩
    exact ⟨fun _ => .inl hover, fun _ => ⟨halt, rfl⟩⟩
  · obtain ⟨hover, hmaps⟩ := translate_eq_none_iff.mp hfirst
    constructor
    · rintro ⟨halt, h⟩
      cases h
    · rintro (h | ⟨h, -⟩)
      · exact absurd h hover
      · exact absurd h hmaps
  have hmaps := maps_of_translate hfirst
  have hover : ¬ a.Overflows va := fun h => h.not_maps hplaced hframes hmaps
  rw [or_iff_right hover, and_iff_right hmaps]
  cases hadd : va.add? (len - 1) with
  | none =>
    constructor
    · rintro ⟨halt, h⟩
      cases h
    · rintro ⟨last, h, -⟩
      cases h
  | some lastAddr =>
    -- what is asked of the last address decides
    have hlast : (∃ last, some lastAddr = some last ∧ a.Overflows last) ↔ a.Overflows lastAddr :=
      ⟨fun ⟨_, heq, h⟩ => Option.some.inj heq ▸ h, fun h => ⟨lastAddr, rfl, h⟩⟩
    rw [hlast, ← hhalts]
    rcases htranslate : a.translate lastAddr with halt | _ | last
    · simp only [htranslate]
      exact ⟨fun _ => ⟨halt, rfl⟩, fun _ => ⟨halt, rfl⟩⟩
    · simp only [htranslate]
      constructor <;> rintro ⟨halt, h⟩ <;> cases h
    · simp only [htranslate]
      constructor <;> rintro ⟨halt, h⟩ <;> cases h

/-- What the kernel makes of an address `va` that a program names. -/
structure Answers (a : AddressSpace) (m : Machine) (va : VAddr) : Prop where
  region : ∀ segment r, a.region? segment = some r →
    ((∃ answer, r.translate va = .ok answer) ↔ ¬ r.Overflows va)
  translate : (∃ answer, a.translate va = .ok answer) ↔ ¬ a.Overflows va
  fault : ∀ code, (∃ answer, ((Kernel.fault (some a) code va).outcome m).1 = .ok answer) ↔
    ¬ ((code = 0 ∨ code = 1) ∧ a.Overflows va)
  copyIn : ∀ len, (∃ answer, ((Kernel.copyIn a va len).outcome m).1 = .ok answer) ↔
    ¬ a.RangeOverflows va len
  copyOut : ∀ bytes, (∃ answer, ((Kernel.copyOut a va bytes).outcome m).1 = .ok answer) ↔
    ¬ a.RangeOverflows va bytes.size
  high : a.Overflows va → 0x100000000 - directMapSize ≤ va.val
  translate_unmapped : ¬ a.Overflows va → ¬ a.Maps va → a.translate va = .ok none
  fault_unmapped : ¬ a.Overflows va → ¬ a.Maps va → ∀ code, code = 0 ∨ code = 1 →
    ((Kernel.fault (some a) code va).outcome m).1 = .ok (.error (.unmapped va)) ∧
      ((Kernel.fault (some a) code va).outcome m).2.tlb = m.tlb
  copyIn_unmapped : ¬ a.Overflows va → ¬ a.Maps va → ∀ len, 0 < len →
    ((Kernel.copyIn a va len).outcome m).1 = .ok (.error (.unmapped va))
  copyOut_unmapped : ¬ a.Overflows va → ¬ a.Maps va → ∀ bytes : Array UInt8, 0 < bytes.size →
    ((Kernel.copyOut a va bytes).outcome m).1 = .ok (.error (.unmapped va))

/-- A computation has an answer unless it halts. -/
theorem returns_iff {α : Type} (x : Except Halt α) :
    (∃ answer, x = .ok answer) ↔ ¬ ∃ halt, x = .error halt := by
  cases x <;> simp

theorem lt_of_span {pa : PAddr} (hlen : 0 < len) (hframes : a.FramesBelow limit)
    (h : a.span va len = .ok (.ok pa)) : pa.val < limit := by
  obtain ⟨segment, r, pbase, hr, hpbase, hbegin, hend⟩ := region_of_span hlen h
  have hinside := hframes segment r pbase hr hpbase
  omega

theorem fault_returns_iff (hplaced : a.Placed) (hframes : a.FramesBelow directMapSize)
    (m : Machine) (code : Nat) :
    (∃ answer, ((Kernel.fault (some a) code va).outcome m).1 = .ok answer) ↔
      ¬ ((code = 0 ∨ code = 1) ∧ a.Overflows va) := by
  rw [← overflows_alignDown hplaced, ← translate_halts_iff hplaced hframes]
  by_cases hcode : code = 0 ∨ code = 1
  · rw [(Kernel.fault_of_miss hcode).1, and_iff_right hcode]
    cases a.translate va.alignDown with
    | error halt => simp [Except.map]
    | ok answer => simp [Except.map]
  · have hanswer : ∃ e, ((Kernel.fault (some a) code va).outcome m).1 = .ok (.error e) :=
      (Kernel.fault_of_no_miss hcode (some a)).1
    obtain ⟨e, he⟩ := hanswer
    exact ⟨fun _ h => hcode h.1, fun _ => ⟨_, he⟩⟩

section transfer
variable {m : Machine} (hplaced : a.Placed) (hframes : a.FramesBelow directMapSize)
  (hram : a.FramesBelow m.ram.size)
include hplaced hframes hram

theorem copyIn_returns_iff (len : Nat) :
    (∃ answer, ((Kernel.copyIn a va len).outcome m).1 = .ok answer) ↔
      ¬ a.RangeOverflows va len := by
  rw [Kernel.copyIn_outcome]
  rcases Nat.eq_zero_or_pos len with rfl | hlen
  · exact ⟨fun _ h => absurd h.1 (by decide), fun _ => ⟨_, rfl⟩⟩
  rw [← span_halts_iff hlen hplaced hframes, if_neg (Nat.ne_of_gt hlen)]
  rcases hspan : a.span va len with halt | e | pa
  · simp
  · simp
  · have hpa := lt_of_span hlen hram hspan
    simp [Ram.read_of_lt hpa, Except.map]

theorem copyOut_returns_iff (bytes : Array UInt8) :
    (∃ answer, ((Kernel.copyOut a va bytes).outcome m).1 = .ok answer) ↔
      ¬ a.RangeOverflows va bytes.size := by
  rw [Kernel.copyOut_outcome]
  rcases Nat.eq_zero_or_pos bytes.size with hzero | hlen
  · have hempty : bytes.isEmpty = true := by simp [Array.isEmpty, hzero]
    rw [if_pos hempty, hzero]
    exact ⟨fun _ h => absurd h.1 (by decide), fun _ => ⟨_, rfl⟩⟩
  have hsome : ¬ bytes.isEmpty = true := by simpa [Array.isEmpty] using Nat.ne_of_gt hlen
  rw [← span_halts_iff hlen hplaced hframes, if_neg hsome]
  rcases hspan : a.span va bytes.size with halt | e | pa
  · simp
  · simp
  · have hpa := lt_of_span hlen hram hspan
    simp [Ram.write_of_lt hpa]

theorem answers (va : VAddr) : a.Answers m va := by
  have htranslate : (∃ halt, a.translate va = .error halt) ↔ a.Overflows va :=
    translate_halts_iff hplaced hframes
  constructor
  case region =>
    intro segment r hr
    rw [returns_iff, not_iff_not]
    constructor
    · rintro ⟨halt, h⟩
      exact (Region.translate_eq_error_iff.mp h).2
    · intro h
      exact ⟨.overflow, Region.translate_eq_error_iff.mpr ⟨rfl, h⟩⟩
  case translate => rw [returns_iff, htranslate]
  case fault => exact fault_returns_iff hplaced hframes m
  case copyIn => exact copyIn_returns_iff hplaced hframes hram
  case copyOut => exact copyOut_returns_iff hplaced hframes hram
  case high => exact fun h => h.le hframes
  case translate_unmapped => exact fun hover hmaps => translate_eq_none_iff.mpr ⟨hover, hmaps⟩
  case fault_unmapped =>
    intro hover hmaps code hcode
    rw [← overflows_alignDown hplaced] at hover
    rw [← maps_alignDown hplaced] at hmaps
    have hnone := translate_eq_none_iff.mpr ⟨hover, hmaps⟩
    rw [(Kernel.fault_of_miss hcode).1, (Kernel.fault_of_miss hcode).2, hnone]
    exact ⟨rfl, rfl⟩
  case copyIn_unmapped =>
    intro hover hmaps len hlen
    rw [Kernel.copyIn_outcome, if_neg (Nat.ne_of_gt hlen), span_of_unmapped hover hmaps]
  case copyOut_unmapped =>
    intro hover hmaps bytes hlen
    have hsome : ¬ bytes.isEmpty = true := by simpa [Array.isEmpty] using Nat.ne_of_gt hlen
    rw [Kernel.copyOut_outcome, if_neg hsome, span_of_unmapped hover hmaps]

end transfer

end AddressSpace

namespace VmHistory

/-- However a space was made, its frames being in RAM and in the direct map, the kernel answers for every
address and every length, but where a sum overflows. -/
theorem user_addresses_answered (ram : Ram) (first last : PAddr) (victim : Nat → Fin tlbSlots)
    (calls : List VmCall) {i : Nat} {s : ProcessSpace}
    (hs : ((start (.new ram first last victim)).run calls).spaces.get? i = some s)
    (hdirect : s.space.FramesBelow directMapSize)
    (hram : s.space.FramesBelow
      ((start (.new ram first last victim)).run calls).machine.ram.size) (va : VAddr) :
    s.space.Answers ((start (.new ram first last victim)).run calls).machine va := by
  have hsound := (sound_start ram first last victim).run calls
  exact AddressSpace.answers (hsound.of_space hs) hdirect hram va

theorem user_addresses_answered_at_kseg0 :
    ∃ h : VmHistory, h =
        (start (.new ⟨.replicate 32 .zero⟩ ⟨0x1000, by decide⟩ ⟨0x20000, by decide⟩ fun _ => 0)).run
          [.createSpace, .defineRegion 0 ⟨0x400000, by decide⟩ 0x1800 ⟨5⟩, .prepareLoad 0,
            .completeLoad 0] ∧
      ∃ s, h.spaces.get? 0 = some s ∧ s.space.Answers h.machine ⟨0x80000000, by decide⟩ := by
  have hs : ((start (.new ⟨.replicate 32 .zero⟩ ⟨0x1000, by decide⟩ ⟨0x20000, by decide⟩
      fun _ => 0)).run [.createSpace, .defineRegion 0 ⟨0x400000, by decide⟩ 0x1800 ⟨5⟩,
        .prepareLoad 0, .completeLoad 0]).spaces.get? 0 =
      some ⟨⟨some ⟨⟨0x400000, by decide⟩, 2, some ⟨0x1000, by decide⟩, by decide⟩, none,
        some ⟨0x3000, by decide⟩, true⟩, false⟩ := by decide +kernel
  exact ⟨_, rfl, _, hs,
    user_addresses_answered _ _ _ _ _ hs (by decide) (by decide +kernel) _⟩

/-- The last address of all lies in no region, and halts the kernel: `0x1000` is less than the first
frame behind the region there. -/
theorem last_address_halts :
    ∃ h : VmHistory, h =
        (start (.new ⟨.replicate 64 .zero⟩ ⟨0x10000, by decide⟩ ⟨0x40000, by decide⟩ fun _ => 0)).run
          [.bootstrap, .createSpace, .defineRegion 0 ⟨0x1000, by decide⟩ 0x1000 ⟨3⟩,
            .prepareLoad 0] ∧
      ∃ s, h.spaces.get? 0 = some s ∧ s.space.FramesBelow directMapSize ∧
        s.space.FramesBelow h.machine.ram.size ∧ ¬ s.space.Maps ⟨0xFFFFFFFF, by decide⟩ ∧
        s.space.translate ⟨0xFFFFFFFF, by decide⟩ = .error .overflow := by
  refine ⟨_, rfl, ⟨⟨some ⟨⟨0x1000, by decide⟩, 1, some ⟨0x11000, by decide⟩, by decide⟩, none,
    some ⟨0x12000, by decide⟩, false⟩, true⟩, ?_, ?_, ?_, ?_, ?_⟩
  · decide +kernel
  · decide
  · decide +kernel
  · decide
  · rfl

end VmHistory
end MipsVm
