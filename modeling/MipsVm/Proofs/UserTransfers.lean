import MipsVm.Proofs.ReachableSpaces

/-! Transfers between the kernel and user memory ask for the first and for the last address alone, and then
move bytes that lie in a row in RAM. That is right because a segment is in one piece on both sides: what
lies between two of its addresses is its own as well. -/
namespace MipsVm
namespace AddressSpace
variable {a : AddressSpace} {m : Machine} {va : VAddr} {len n k : Nat} {t first last : Translation}
  {pa : PAddr}

/-- The byte `k` steps above `va` is found at `t`. -/
def ByteAt (a : AddressSpace) (va : VAddr) (k : Nat) (t : Translation) : Prop :=
  ∃ addr, va.add? k = some addr ∧ a.translate addr = .ok (some t)

/-- Each of the `len` bytes from `va` on is found, all in one segment. -/
def InOneSegment (a : AddressSpace) (va : VAddr) (len : Nat) : Prop :=
  ∃ segment, ∀ k < len, ∃ t, a.ByteAt va k t ∧ t.segment = segment

theorem byteAt_zero_iff : a.ByteAt va 0 t ↔ a.translate va = .ok (some t) := by
  have hzero : va.add? 0 = some va := Address.add?_eq_some_iff.mpr (Nat.add_zero _).symm
  constructor
  · rintro ⟨addr, hadd, ht⟩
    obtain rfl : va = addr := Option.some.inj (hzero.symm.trans hadd)
    exact ht
  · intro ht
    exact ⟨va, hzero, ht⟩

theorem ByteAt.unique {u : Translation} (ht : a.ByteAt va k t) (hu : a.ByteAt va k u) : t = u := by
  obtain ⟨addr, hadd, ht⟩ := ht
  obtain ⟨other, hother, hu⟩ := hu
  obtain rfl : addr = other := Option.some.inj (hadd.symm.trans hother)
  exact Option.some.inj (Except.ok.inj (ht.symm.trans hu))

/-- Between two addresses of one segment each byte is found, as far above the first in RAM as it is
among the user's addresses. -/
theorem Placed.byteAt_between (h : a.Placed) (hframes : a.FramesBelow directMapSize)
    (hfirst : a.ByteAt va 0 first) (hlast : a.ByteAt va n last)
    (hsegment : last.segment = first.segment) (hk : k ≤ n) :
    ∃ t, a.ByteAt va k t ∧ t.segment = first.segment ∧ t.pa.val = first.pa.val + k := by
  rw [byteAt_zero_iff] at hfirst
  obtain ⟨lastAddr, hadd, hlast⟩ := hlast
  obtain ⟨r, hr, pbase, hpbase, hin, hpa⟩ := region_of_translate hfirst
  obtain ⟨s, hs, -, -, hlastIn, -⟩ := region_of_translate hlast
  rw [hsegment] at hs
  obtain rfl : r = s := Option.some.inj (hr.symm.trans hs)
  have hlastVal : lastAddr.val = va.val + n := Address.add?_eq_some_iff.mp hadd
  have hbegin : r.vbase.val ≤ va.val := hin.1
  have hend : lastAddr.val < r.vend.val := hlastIn.2
  -- the address in between is one of the region
  have hlow : va.val + k < 0x100000000 := by
    have hfits := lastAddr.isLt
    omega
  let addr : VAddr := ⟨va.val + k, hlow⟩
  have haddr : r.Contains addr := by
    constructor
    · exact Nat.le_trans hbegin (Nat.le_add_right ..)
    · exact Nat.lt_of_le_of_lt (Nat.add_le_add_left hk _) (hlastVal ▸ hend)
  have hmaps : a.Maps addr := ⟨first.segment, r, hr, by rw [Region.isBound, hpbase]; rfl, haddr⟩
  obtain ⟨t, ht⟩ := translate_of_maps hmaps h hframes
  obtain ⟨q, hq, qbase, hqbase, hqin, htpa⟩ := region_of_translate ht
  have hsame : t.segment = first.segment := h.segment_eq hq hr hqin haddr
  rw [hsame] at hq
  obtain rfl : r = q := Option.some.inj (hr.symm.trans hq)
  obtain rfl : pbase = qbase := Option.some.inj (hpbase.symm.trans hqbase)
  refine ⟨t, ⟨addr, Address.add?_eq_some_iff.mpr rfl, ht⟩, hsame, ?_⟩
  have hoffset : addr.val - r.vbase.val = va.val - r.vbase.val + k := Nat.sub_add_comm hbegin
  rw [htpa, hpa, hoffset, Nat.add_assoc]

/-- What a request for the RAM behind `len` bytes from `va` on is answered. -/
inductive Spans (a : AddressSpace) (va : VAddr) (len : Nat) : Except VmError PAddr → Prop where
  | unmapped (hfirst : a.translate va = .ok none) : Spans a va len (.error (.unmapped va))
  | broken (start : Translation) (hstart : a.ByteAt va 0 start)
    (hbroken : ¬ a.InOneSegment va len) : Spans a va len (.error (.invalidRange va))
  | whole (segment : Segment) (pa : PAddr) (hbytes : ∀ k < len, ∃ t, a.ByteAt va k t ∧
      t.segment = segment ∧ t.pa.val = pa.val + k) : Spans a va len (.ok pa)

/-- Once the first address is found, the last one decides. -/
theorem span_of_found {lastAddr : VAddr} (hfirst : a.translate va = .ok (some first))
    (hadd : va.add? (len - 1) = some lastAddr) :
    a.span va len = (a.translate lastAddr).map fun
      | none => .error (.invalidRange va)
      | some last =>
        if last.segment = first.segment then .ok first.pa else .error (.invalidRange va) := by
  simp only [span, hfirst, hadd]
  rcases a.translate lastAddr with halt | _ | last
  · rfl
  · rfl
  · rfl

/-- Below the last 512 MiB no sum overflows, so there is an answer, and it is right. -/
theorem Placed.spans (h : a.Placed) (hframes : a.FramesBelow directMapSize) (hlen : 0 < len)
    (hlow : va.val + (len - 1) < 0x100000000 - directMapSize) :
    ∃ answer, a.span va len = .ok answer ∧ a.Spans va len answer := by
  have hover {addr : VAddr} (haddr : addr.val < 0x100000000 - directMapSize) :
      ¬ a.Overflows addr := not_overflows_of_lt hframes haddr
  have hva : ¬ a.Overflows va := hover (Nat.lt_of_le_of_lt (Nat.le_add_right ..) hlow)
  by_cases hmaps : a.Maps va
  · obtain ⟨first, hfirst⟩ := translate_of_maps hmaps h hframes
    have hbegin : a.ByteAt va 0 first := byteAt_zero_iff.mpr hfirst
    let lastAddr : VAddr := ⟨va.val + (len - 1), Nat.lt_of_lt_of_le hlow (Nat.sub_le ..)⟩
    have hadd : va.add? (len - 1) = some lastAddr := Address.add?_eq_some_iff.mpr rfl
    rw [span_of_found hfirst hadd]
    -- a range in one segment has both of its ends there
    have hends (hone : a.InOneSegment va len) :
        ∃ last, a.translate lastAddr = .ok (some last) ∧ last.segment = first.segment := by
      obtain ⟨segment, hall⟩ := hone
      obtain ⟨t, ht, hsegment⟩ := hall 0 hlen
      obtain ⟨last, ⟨addr, haddr, hlast⟩, hsame⟩ := hall (len - 1) (Nat.sub_lt hlen Nat.one_pos)
      obtain rfl : lastAddr = addr := Option.some.inj (hadd.symm.trans haddr)
      obtain rfl : t = first := ht.unique hbegin
      exact ⟨last, hlast, hsame.trans hsegment.symm⟩
    rcases hlast : a.translate lastAddr with halt | _ | last
    · have hhalts := (translate_halts_iff h hframes).mp ⟨halt, hlast⟩
      exact absurd hhalts (hover hlow)
    · refine ⟨.error (.invalidRange va), rfl, .broken first hbegin fun hone => ?_⟩
      obtain ⟨last, hfound, -⟩ := hends hone
      cases hlast.symm.trans hfound
    · have hend : a.ByteAt va (len - 1) last := ⟨lastAddr, hadd, hlast⟩
      change ∃ answer, Except.ok (if last.segment = first.segment then _ else _) = _ ∧ _
      split_ifs with hsegment
      · refine ⟨.ok first.pa, rfl, .whole first.segment first.pa fun k hk => ?_⟩
        exact h.byteAt_between hframes hbegin hend hsegment (Nat.le_pred_of_lt hk)
      · refine ⟨.error (.invalidRange va), rfl, .broken first hbegin fun hone => ?_⟩
        obtain ⟨other, hother, hsame⟩ := hends hone
        obtain rfl : last = other := Option.some.inj (Except.ok.inj (hlast.symm.trans hother))
        exact hsegment hsame
  · exact ⟨_, span_of_unmapped hva hmaps, .unmapped (translate_eq_none_iff.mpr ⟨hva, hmaps⟩)⟩

/-- The answer that is due to a transfer of `len` bytes at `va`. -/
structure Judged {α : Type} (a : AddressSpace) (va : VAddr) (len : Nat)
    (answer : Except Halt (Except VmError α)) : Prop where
  ok_iff : (∃ x, answer = .ok (.ok x)) ↔ len = 0 ∨ a.InOneSegment va len
  unmapped_iff : 0 < len → (answer = .ok (.error (.unmapped va)) ↔ a.translate va = .ok none)
  invalid_iff : answer = .ok (.error (.invalidRange va)) ↔
    0 < len ∧ a.translate va ≠ .ok none ∧ ¬ a.InOneSegment va len

section judged
variable {α : Type} {x : α}

theorem judged_zero (a : AddressSpace) (va : VAddr) (x : α) : a.Judged va 0 (.ok (.ok x)) := by
  constructor
  case ok_iff => exact ⟨fun _ => .inl rfl, fun _ => ⟨x, rfl⟩⟩
  case unmapped_iff => exact fun hpos => absurd hpos (Nat.lt_irrefl 0)
  case invalid_iff => exact ⟨nofun, fun h => absurd h.1 (Nat.lt_irrefl 0)⟩

theorem Spans.judged_ok (h : a.Spans va len (.ok pa)) (hlen : 0 < len) (x : α) :
    a.Judged va len (.ok (.ok x)) := by
  cases h with
  | whole segment _ hbytes =>
    have hone : a.InOneSegment va len := by
      refine ⟨segment, fun k hk => ?_⟩
      obtain ⟨t, ht, hsegment, -⟩ := hbytes k hk
      exact ⟨t, ht, hsegment⟩
    obtain ⟨t, ht, -⟩ := hbytes 0 hlen
    constructor
    case ok_iff => exact ⟨fun _ => .inr hone, fun _ => ⟨x, rfl⟩⟩
    case unmapped_iff =>
      intro _
      rw [byteAt_zero_iff.mp ht]
      constructor <;> nofun
    case invalid_iff => exact ⟨nofun, fun hbad => absurd hone hbad.2.2⟩

theorem Spans.judged_error {e : VmError} (h : a.Spans va len (.error e)) (hlen : 0 < len) :
    a.Judged va len (.ok (.error e) : Except Halt (Except VmError α)) := by
  have hpos : len ≠ 0 := Nat.ne_of_gt hlen
  cases h with
  | unmapped hfirst =>
    have hbroken : ¬ a.InOneSegment va len := by
      rintro ⟨segment, hall⟩
      obtain ⟨t, ht, -⟩ := hall 0 hlen
      cases hfirst.symm.trans (byteAt_zero_iff.mp ht)
    constructor
    case ok_iff => exact ⟨nofun, fun hgood => absurd hgood (not_or.mpr ⟨hpos, hbroken⟩)⟩
    case unmapped_iff => exact fun _ => ⟨fun _ => hfirst, fun _ => rfl⟩
    case invalid_iff => exact ⟨nofun, fun hbad => absurd hfirst hbad.2.1⟩
  | broken start hstart hbroken =>
    have hfound : a.translate va ≠ .ok none := by
      rw [byteAt_zero_iff.mp hstart]
      nofun
    constructor
    case ok_iff => exact ⟨nofun, fun hgood => absurd hgood (not_or.mpr ⟨hpos, hbroken⟩)⟩
    case unmapped_iff => exact fun _ => ⟨nofun, fun hnone => absurd hnone hfound⟩
    case invalid_iff => exact ⟨fun _ => ⟨hlen, hfound, hbroken⟩, fun _ => rfl⟩

end judged

/-- `ram'` is `ram` with `bytes` in the user's memory from `va` on. -/
structure Stores (a : AddressSpace) (va : VAddr) (bytes : Array UInt8) (ram ram' : Ram) : Prop where
  size_eq : ram'.size = ram.size
  stored : ∀ k t, a.ByteAt va k t → ∀ hk : k < bytes.size, ram'.byte t.pa.val = bytes[k]
  others : ∀ i, (∀ k t, k < bytes.size → a.ByteAt va k t → t.pa.val ≠ i) → ram'.byte i = ram.byte i

theorem Spans.pa_val (h : a.Spans va len (.ok pa)) (hk : k < len) (ht : a.ByteAt va k t) :
    t.pa.val = pa.val + k := by
  cases h with
  | whole segment _ hbytes =>
    obtain ⟨u, hu, -, hpa⟩ := hbytes k hk
    rw [ht.unique hu, hpa]

theorem Spans.exists_byteAt (h : a.Spans va len (.ok pa)) (hk : k < len) :
    ∃ t, a.ByteAt va k t ∧ t.pa.val = pa.val + k := by
  cases h with
  | whole segment _ hbytes =>
    obtain ⟨t, ht, -, hpa⟩ := hbytes k hk
    exact ⟨t, ht, hpa⟩

theorem Spans.stores {bytes : Array UInt8} {ram : Ram} (h : a.Spans va bytes.size (.ok pa))
    (hinside : pa.val + bytes.size ≤ ram.size) :
    a.Stores va bytes ram (ram.update pa.val bytes.size fun i => bytes.getD i 0) := by
  have hbyte := ram.byte_update pa.val bytes.size fun i => bytes.getD i 0
  constructor
  case size_eq => exact ram.size_update ..
  case stored =>
    intro k t ht hk
    have hwritten : pa.val ≤ pa.val + k ∧ pa.val + k < pa.val + bytes.size ∧
        pa.val + k < ram.size := by omega
    rw [h.pa_val hk ht, hbyte, if_pos hwritten, Nat.add_sub_cancel_left]
    exact bytes.getElem_eq_getD 0 |>.symm
  case others =>
    intro i hother
    rw [hbyte, if_neg]
    rintro ⟨hstart, hstop, -⟩
    -- a byte that was written is the one of some address
    obtain ⟨t, ht, hpa⟩ := h.exists_byteAt (Nat.sub_lt_left_of_lt_add hstart hstop)
    apply hother _ t _ ht
    · rw [hpa, Nat.add_sub_cancel' hstart]
    · exact Nat.sub_lt_left_of_lt_add hstart hstop

/-- What is transferred to and from the user's memory at `va`. -/
structure Transfers (a : AddressSpace) (m : Machine) (va : VAddr) : Prop where
  copyIn : ∀ len ≤ 0x40000000, a.Judged va len ((Kernel.copyIn a va len).outcome m).1
  copyIn_machine : ∀ len, ((Kernel.copyIn a va len).outcome m).2 = m
  copyIn_bytes : ∀ len ≤ 0x40000000, ∀ bytes,
    ((Kernel.copyIn a va len).outcome m).1 = .ok (.ok bytes) → bytes.size = len ∧
      ∀ k t, a.ByteAt va k t → ∀ hk : k < bytes.size, bytes[k] = m.ram.byte t.pa.val
  copyOut : ∀ bytes : Array UInt8, bytes.size ≤ 0x40000000 →
    a.Judged va bytes.size ((Kernel.copyOut a va bytes).outcome m).1
  copyOut_error : ∀ bytes : Array UInt8, bytes.size ≤ 0x40000000 → ∀ e m',
    (Kernel.copyOut a va bytes).outcome m = (.ok (.error e), m') → m' = m
  copyOut_ok : ∀ bytes : Array UInt8, bytes.size ≤ 0x40000000 → ∀ m',
    (Kernel.copyOut a va bytes).outcome m = (.ok (.ok ()), m') →
      (∃ ram, m' = m.setRam ram ∧ a.Stores va bytes m.ram ram) ∧
        ((Kernel.copyIn a va bytes.size).outcome m').1 = .ok (.ok bytes)

theorem end_le_of_span {limit : Nat} (hlen : 0 < len) (hframes : a.FramesBelow limit)
    (h : a.span va len = .ok (.ok pa)) : pa.val + len ≤ limit := by
  obtain ⟨segment, r, pbase, hr, hpbase, -, hend⟩ := region_of_span hlen h
  exact Nat.le_trans hend (hframes segment r pbase hr hpbase)

section outcome
variable {answer : Except VmError PAddr} {bytes : Array UInt8} (hram : a.FramesBelow m.ram.size)
include hram

theorem copyIn_of_span (hlen : 0 < len) (hspan : a.span va len = .ok answer) :
    (Kernel.copyIn a va len).outcome m = (.ok (answer.map fun pa =>
      .ofFn fun k : Fin len => m.ram.byte (pa.val + k)), m) := by
  rw [Kernel.copyIn_outcome, if_neg (Nat.ne_of_gt hlen), hspan]
  cases answer with
  | error e => rfl
  | ok pa =>
    dsimp only
    rw [Ram.read_of_lt (lt_of_span hlen hram hspan)]
    rfl

omit hram in
theorem copyOut_of_span_error {e : VmError} (hlen : 0 < bytes.size)
    (hspan : a.span va bytes.size = .ok (.error e)) :
    (Kernel.copyOut a va bytes).outcome m = (.ok (.error e), m) := by
  have hsome : ¬ bytes.isEmpty = true := by simpa [Array.isEmpty] using Nat.ne_of_gt hlen
  rw [Kernel.copyOut_outcome, if_neg hsome, hspan]

theorem copyOut_of_span_ok (hlen : 0 < bytes.size)
    (hspan : a.span va bytes.size = .ok (.ok pa)) :
    (Kernel.copyOut a va bytes).outcome m = (.ok (.ok ()),
      m.setRam (m.ram.update pa.val bytes.size fun i => bytes.getD i 0)) := by
  have hsome : ¬ bytes.isEmpty = true := by simpa [Array.isEmpty] using Nat.ne_of_gt hlen
  rw [Kernel.copyOut_outcome, if_neg hsome, hspan]
  dsimp only
  rw [Ram.write_of_lt (lt_of_span hlen hram hspan)]

end outcome

/-- The bytes that were stored at the user's addresses are those that are read there. -/
theorem Stores.ofFn_eq {bytes : Array UInt8} {ram ram' : Ram} (h : a.Stores va bytes ram ram')
    (hspans : a.Spans va bytes.size (.ok pa)) :
    (.ofFn fun k : Fin bytes.size => ram'.byte (pa.val + k)) = bytes := by
  apply Array.ext
  · exact Array.size_ofFn
  · intro k hread hk
    obtain ⟨t, ht, hpa⟩ := hspans.exists_byteAt hk
    rw [Array.getElem_ofFn, ← hpa]
    exact h.stored k t ht hk

section transfer
variable {bytes : Array UInt8} {m' : Machine} (h : a.Placed)
  (hframes : a.FramesBelow directMapSize) (hva : va.val < userTop)
include h hframes hva

/-- A user's range of up to 1 GiB ends below the last 512 MiB. -/
theorem Placed.spans_of_user (hpos : 0 < len) (hlen : len ≤ 0x40000000) :
    ∃ answer, a.span va len = .ok answer ∧ a.Spans va len answer := by
  apply h.spans hframes hpos
  simp only [directMapSize, userTop, kseg0, kseg1] at *
  omega

theorem Placed.copyOut_error {e : VmError} (hlen : bytes.size ≤ 0x40000000)
    (hout : (Kernel.copyOut a va bytes).outcome m = (.ok (.error e), m'))
    (hram : a.FramesBelow m.ram.size) : m' = m := by
  rcases Nat.eq_zero_or_pos bytes.size with hzero | hpos
  · obtain rfl := Array.eq_empty_of_size_eq_zero hzero
    cases hout
  obtain ⟨answer, hanswer, -⟩ := h.spans_of_user hframes hva hpos hlen
  cases answer with
  | error e =>
    rw [copyOut_of_span_error hpos hanswer] at hout
    exact (congrArg Prod.snd hout).symm
  | ok pa =>
    rw [copyOut_of_span_ok hram hpos hanswer] at hout
    cases hout

variable (hram : a.FramesBelow m.ram.size)
include hram

theorem Placed.copyIn_judged (hlen : len ≤ 0x40000000) :
    a.Judged va len ((Kernel.copyIn a va len).outcome m).1 := by
  rcases Nat.eq_zero_or_pos len with rfl | hpos
  · exact judged_zero a va #[]
  obtain ⟨answer, hanswer, hspans⟩ := h.spans_of_user hframes hva hpos hlen
  rw [copyIn_of_span hram hpos hanswer]
  cases answer with
  | error e => exact hspans.judged_error hpos
  | ok pa => exact hspans.judged_ok hpos _

theorem Placed.copyIn_bytes (hlen : len ≤ 0x40000000)
    (hin : ((Kernel.copyIn a va len).outcome m).1 = .ok (.ok bytes)) :
    bytes.size = len ∧
      ∀ k t, a.ByteAt va k t → ∀ hk : k < bytes.size, bytes[k] = m.ram.byte t.pa.val := by
  rcases Nat.eq_zero_or_pos len with rfl | hpos
  · obtain rfl : #[] = bytes := Except.ok.inj (Except.ok.inj hin)
    exact ⟨rfl, fun k t _ hk => absurd hk (Nat.not_lt_zero k)⟩
  obtain ⟨answer, hanswer, hspans⟩ := h.spans_of_user hframes hva hpos hlen
  rw [copyIn_of_span hram hpos hanswer] at hin
  cases answer with
  | error e => cases hin
  | ok pa =>
    obtain rfl := Except.ok.inj (Except.ok.inj hin)
    refine ⟨Array.size_ofFn, fun k t ht hk => ?_⟩
    have hlt : k < len := by rwa [Array.size_ofFn] at hk
    rw [Array.getElem_ofFn, hspans.pa_val hlt ht]

theorem Placed.copyOut_judged (hlen : bytes.size ≤ 0x40000000) :
    a.Judged va bytes.size ((Kernel.copyOut a va bytes).outcome m).1 := by
  rcases Nat.eq_zero_or_pos bytes.size with hzero | hpos
  · obtain rfl := Array.eq_empty_of_size_eq_zero hzero
    exact judged_zero a va ()
  obtain ⟨answer, hanswer, hspans⟩ := h.spans_of_user hframes hva hpos hlen
  cases answer with
  | error e =>
    rw [copyOut_of_span_error hpos hanswer]
    exact hspans.judged_error hpos
  | ok pa =>
    rw [copyOut_of_span_ok hram hpos hanswer]
    exact hspans.judged_ok hpos ()

theorem Placed.copyOut_ok (hlen : bytes.size ≤ 0x40000000)
    (hout : (Kernel.copyOut a va bytes).outcome m = (.ok (.ok ()), m')) :
    (∃ ram, m' = m.setRam ram ∧ a.Stores va bytes m.ram ram) ∧
      ((Kernel.copyIn a va bytes.size).outcome m').1 = .ok (.ok bytes) := by
  rcases Nat.eq_zero_or_pos bytes.size with hzero | hpos
  · obtain rfl := Array.eq_empty_of_size_eq_zero hzero
    obtain rfl : m = m' := congrArg Prod.snd hout
    refine ⟨⟨m.ram, rfl, ?_⟩, rfl⟩
    exact ⟨rfl, fun k t _ hk => absurd hk (Nat.not_lt_zero k), fun _ _ => rfl⟩
  obtain ⟨answer, hanswer, hspans⟩ := h.spans_of_user hframes hva hpos hlen
  cases answer with
  | error e =>
    rw [copyOut_of_span_error hpos hanswer] at hout
    cases hout
  | ok pa =>
    rw [copyOut_of_span_ok hram hpos hanswer] at hout
    obtain ⟨-, rfl⟩ := Prod.mk.inj hout
    have hstores := hspans.stores (end_le_of_span hpos hram hanswer)
    refine ⟨⟨_, rfl, hstores⟩, ?_⟩
    have hsame : a.FramesBelow (m.setRam (m.ram.update pa.val bytes.size fun i =>
        bytes.getD i 0)).ram.size := by
      rw [Machine.setRam, hstores.size_eq]
      exact hram
    rw [copyIn_of_span hsame hpos hanswer]
    exact congrArg (fun read => Except.ok (Except.ok read)) (hstores.ofFn_eq hspans)

end transfer

/-- However a space was made: a transfer of up to 1 GiB succeeds just when all of its bytes are in one
segment, moves those bytes and no others, and otherwise leaves the machine as it is. -/
theorem user_transfers_exact (ha : a.Reachable) (hframes : a.FramesBelow directMapSize)
    (hram : a.FramesBelow m.ram.size) (hva : va.val < userTop) : a.Transfers m va where
  copyIn _ hlen := ha.placed.copyIn_judged hframes hva hram hlen
  copyIn_machine len := by rw [Kernel.copyIn_outcome]
  copyIn_bytes _ hlen _ hin := ha.placed.copyIn_bytes hframes hva hram hlen hin
  copyOut _ hlen := ha.placed.copyOut_judged hframes hva hram hlen
  copyOut_error _ hlen _ _ hout := ha.placed.copyOut_error hframes hva hlen hout hram
  copyOut_ok _ hlen _ hout := ha.placed.copyOut_ok hframes hva hram hlen hout

/-- The second region begins where the first one ends, but its frames are elsewhere, for those of the
first fill a gap. -/
theorem user_transfers_exact_of_adjacent :
    ∃ a : AddressSpace, ∃ m : Machine,
      a = ⟨some ⟨⟨0x400000, by decide⟩, 2, some ⟨0x3000, by decide⟩, by decide⟩,
        some ⟨⟨0x402000, by decide⟩, 1, some ⟨0x6000, by decide⟩, by decide⟩,
        some ⟨0x7000, by decide⟩, false⟩ ∧
      a.Reachable ∧ a.FramesBelow directMapSize ∧ a.FramesBelow m.ram.size ∧
      a.Transfers m ⟨0x401FFF, by decide⟩ ∧
      ((Kernel.copyIn a ⟨0x401FFF, by decide⟩ 1).outcome m).1 = .ok (.ok #[0]) ∧
      ((Kernel.copyIn a ⟨0x401FFF, by decide⟩ 2).outcome m).1 =
        .ok (.error (.invalidRange ⟨0x401FFF, by decide⟩)) := by
  obtain ⟨m, hm⟩ : ∃ m : Machine, m = (Machine.new ⟨.replicate 64 .zero⟩ ⟨0x1000, by decide⟩
      ⟨0x40000, by decide⟩ fun _ => 0).run [.bootstrap, .allocFrames 1, .allocFrames 2,
        .allocFrames 1, .freeFrames ⟨0x3000, by decide⟩] := by
    apply exists_eq
  have hlive : m.Reachable := ⟨_, _, _, _, _, hm⟩
  have htext : AddressSpace.empty.define ⟨0x400000, by decide⟩ 0x2000 =
      .ok ⟨some ⟨⟨0x400000, by decide⟩, 2, none, by decide⟩, none, none, false⟩ := by
    decide +kernel
  have hdata : AddressSpace.define
        ⟨some ⟨⟨0x400000, by decide⟩, 2, none, by decide⟩, none, none, false⟩
        ⟨0x402000, by decide⟩ 1 =
      .ok ⟨some ⟨⟨0x400000, by decide⟩, 2, none, by decide⟩,
        some ⟨⟨0x402000, by decide⟩, 1, none, by decide⟩, none, false⟩ := by
    decide +kernel
  have hload := ((Reachable.empty.of_define m htext).of_define m hdata).load hlive
  have hloaded : (Loader.prepareLoad.outcome ⟨m, ⟨some ⟨⟨0x400000, by decide⟩, 2, none,
        by decide⟩, some ⟨⟨0x402000, by decide⟩, 1, none, by decide⟩, none, false⟩⟩).2.space =
      ⟨some ⟨⟨0x400000, by decide⟩, 2, some ⟨0x3000, by decide⟩, by decide⟩,
        some ⟨⟨0x402000, by decide⟩, 1, some ⟨0x6000, by decide⟩, by decide⟩,
        some ⟨0x7000, by decide⟩, false⟩ := by
    rw [hm]
    decide +kernel
  rw [hloaded] at hload
  have hsize : m.ram.size = 0x40000 := by
    rw [hm]
    decide +kernel
  refine ⟨_, m, rfl, hload, by decide, ?_, ?_, ?_, ?_⟩
  · rw [hsize]
    decide
  · apply user_transfers_exact hload (by decide) ?_ (by decide)
    rw [hsize]
    decide
  · rw [hm]
    decide +kernel
  · rw [hm]
    decide +kernel

end AddressSpace
end MipsVm
