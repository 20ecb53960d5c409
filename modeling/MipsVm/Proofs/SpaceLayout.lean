import Mathlib.Tactic.SplitIfs
import MipsVm.AddressSpace.Basic

/-! The layout of an address space: what declaring a region and binding frames change of it, what stays
true of it however it is built, and where its translations lead. -/
namespace MipsVm

theorem Segment.mem_all (segment : Segment) : segment ∈ Segment.all := by
  cases segment <;> decide

namespace Region
variable {r : Region} {va : VAddr} {pa : PAddr} {halt : Halt}

def Contains (r : Region) (va : VAddr) : Prop := r.vbase ≤ va ∧ va < r.vend

/-- The region has frames, and the offset of `va` leads from them past the last address. -/
def Overflows (r : Region) (va : VAddr) : Prop :=
  ∃ pbase, r.pbase = some pbase ∧ r.vbase ≤ va ∧
    0x100000000 ≤ pbase.val + (va.val - r.vbase.val)

theorem contains_iff : r.Contains va ↔
    r.vbase.val ≤ va.val ∧ (va.val - r.vbase.val) / pageSize < r.npages := by
  simp only [Contains, vend, Address.le_def, Address.lt_def, pageSize]
  omega

theorem translate_of_unbound (h : r.pbase = none) (va : VAddr) : r.translate va = .ok none := by
  rw [translate, h]

theorem translate_of_lt (h : va < r.vbase) : r.translate va = .ok none := by
  have hoffset : va.offsetFrom? r.vbase = none := if_neg (Nat.not_le.mpr h)
  rw [translate, hoffset]
  cases r.pbase <;> rfl

theorem translate_of_le {pbase : PAddr} (hbound : r.pbase = some pbase) (h : r.vbase ≤ va) :
    r.translate va = (do
      let pa ← pbase.add (va.val - r.vbase.val)
      return if (va.val - r.vbase.val) / pageSize < r.npages then some pa else none) := by
  have hoffset : va.offsetFrom? r.vbase = some (va.val - r.vbase.val) := if_pos h
  rw [translate, hbound, hoffset]

theorem translate_eq_error_iff : r.translate va = .error halt ↔
    halt = .overflow ∧ r.Overflows va := by
  cases hbound : r.pbase with
  | none =>
    rw [translate_of_unbound hbound]
    simp [Overflows, hbound]
  | some pbase =>
    rcases Nat.lt_or_ge va.val r.vbase.val with hlt | hle
    · rw [translate_of_lt hlt]
      have hbelow : ¬ r.vbase ≤ va := Nat.not_le.mpr hlt
      simp [Overflows, hbelow]
    · rw [translate_of_le hbound hle, Address.add]
      cases hsum : pbase.add? (va.val - r.vbase.val) with
      | none =>
        have hpast := Address.add?_eq_none_iff.mp hsum
        constructor
        · intro h
          exact ⟨(Except.error.inj h).symm, pbase, hbound, hle, hpast⟩
        · rintro ⟨rfl, -⟩
          rfl
      | some sum =>
        have hval := Address.add?_eq_some_iff.mp hsum
        have hlt := sum.isLt
        constructor
        · intro h
          cases h
        · rintro ⟨-, other, hother, -, hpast⟩
          obtain rfl : pbase = other := Option.some.inj (hbound.symm.trans hother)
          omega

theorem translate_eq_some_iff : r.translate va = .ok (some pa) ↔
    ∃ pbase, r.pbase = some pbase ∧ r.Contains va ∧
      pa.val = pbase.val + (va.val - r.vbase.val) := by
  cases hbound : r.pbase with
  | none =>
    rw [translate_of_unbound hbound]
    simp
  | some pbase =>
    rw [contains_iff]
    rcases Nat.lt_or_ge va.val r.vbase.val with hlt | hle
    · rw [translate_of_lt hlt]
      have hbelow : ¬ r.vbase.val ≤ va.val := Nat.not_le.mpr hlt
      simp [hbelow]
    · rw [translate_of_le hbound hle, Address.add]
      cases hsum : pbase.add? (va.val - r.vbase.val) with
      | none =>
        have hpast := Address.add?_eq_none_iff.mp hsum
        have hlt := pa.isLt
        constructor
        · intro h
          cases h
        · rintro ⟨other, hother, -, hval⟩
          obtain rfl : pbase = other := Option.some.inj hother
          omega
      | some sum =>
        have hval := Address.add?_eq_some_iff.mp hsum
        change Except.ok (if _ then some sum else none) = _ ↔ _
        split_ifs with hin
        · constructor
          · intro h
            obtain rfl := Option.some.inj (Except.ok.inj h)
            exact ⟨pbase, rfl, ⟨hle, hin⟩, hval⟩
          · rintro ⟨other, hother, -, hpa⟩
            obtain rfl : pbase = other := Option.some.inj hother
            obtain rfl : sum = pa := Address.ext (hval.trans hpa.symm)
            rfl
        · simp [hin]

theorem translate_eq_none_iff : r.translate va = .ok none ↔
    ¬ r.Overflows va ∧ (r.Contains va → r.pbase = none) := by
  constructor
  · intro h
    refine ⟨fun hover => ?_, fun hin => ?_⟩
    · have herror := translate_eq_error_iff.mpr ⟨rfl, hover⟩
      cases h.symm.trans herror
    · cases hbound : r.pbase with
      | none => rfl
      | some pbase =>
        -- the frame behind `va` exists, or the sum that gives it would have overflowed
        rw [translate_of_le hbound hin.1, Address.add] at h
        cases hsum : pbase.add? (va.val - r.vbase.val) with
        | none =>
          rw [hsum] at h
          cases h
        | some sum =>
          have hsome := translate_eq_some_iff.mpr
            ⟨pbase, hbound, hin, Address.add?_eq_some_iff.mp hsum⟩
          rw [translate_of_le hbound hin.1, Address.add] at hsome
          cases h.symm.trans hsome
  · rintro ⟨hover, hfree⟩
    cases h : r.translate va with
    | error halt => exact absurd (translate_eq_error_iff.mp h).2 hover
    | ok answer =>
      cases answer with
      | none => rfl
      | some pa =>
        obtain ⟨pbase, hbound, hin, -⟩ := translate_eq_some_iff.mp h
        cases hbound.symm.trans (hfree hin)

end Region

namespace AddressSpace
variable {a b : AddressSpace} {r : Region} {segment slot : Segment} {segments : List Segment}
  {va : VAddr} {pa : PAddr} {t : Translation} {halt : Halt}

/-- What the region of `segment` makes of `va`. -/
def lookup (a : AddressSpace) (va : VAddr) (segment : Segment) : Except Halt (Option PAddr) :=
  match a.region? segment with
  | some r => r.translate va
  | none => .ok none

theorem lookup_eq_some_iff : a.lookup va segment = .ok (some pa) ↔
    ∃ r, a.region? segment = some r ∧ r.translate va = .ok (some pa) := by
  unfold lookup
  cases a.region? segment with
  | none => simp
  | some r => simp

theorem lookup_eq_error_iff : a.lookup va segment = .error halt ↔
    ∃ r, a.region? segment = some r ∧ r.translate va = .error halt := by
  unfold lookup
  cases a.region? segment with
  | none => simp
  | some r => simp

theorem translateIn_cons (a : AddressSpace) (va : VAddr) (segment : Segment)
    (rest : List Segment) :
    a.translateIn va (segment :: rest) =
      match a.lookup va segment with
      | .error halt => .error halt
      | .ok (some pa) => .ok (some ⟨segment, pa⟩)
      | .ok none => a.translateIn va rest := by
  rw [translateIn, lookup]
  cases a.region? segment with
  | none => rfl
  | some r =>
    dsimp only
    cases r.translate va with
    | error halt => rfl
    | ok answer => cases answer <;> rfl

theorem translateIn_congr (h : ∀ segment ∈ segments, a.lookup va segment = b.lookup va segment) :
    a.translateIn va segments = b.translateIn va segments := by
  induction segments with
  | nil => rfl
  | cons segment rest ih =>
    have hfirst := h segment List.mem_cons_self
    have hrest := ih fun other hother => h other (List.mem_cons_of_mem _ hother)
    rw [translateIn_cons, translateIn_cons, hfirst, hrest]

theorem translate_congr (h : ∀ segment, a.lookup va segment = b.lookup va segment) :
    a.translate va = b.translate va := translateIn_congr fun segment _ => h segment

theorem translateIn_some (h : a.translateIn va segments = .ok (some t)) :
    a.lookup va t.segment = .ok (some t.pa) := by
  induction segments with
  | nil => cases h
  | cons segment rest ih =>
    rw [translateIn_cons] at h
    cases hlookup : a.lookup va segment with
    | error halt =>
      rw [hlookup] at h
      cases h
    | ok answer =>
      rw [hlookup] at h
      cases answer with
      | none => exact ih h
      | some pa =>
        obtain rfl := Option.some.inj (Except.ok.inj h)
        exact hlookup

/-- A translation leads into the frames of the region of its segment. -/
theorem region_of_translate (h : a.translate va = .ok (some t)) :
    ∃ r, a.region? t.segment = some r ∧ ∃ pbase, r.pbase = some pbase ∧ r.Contains va ∧
      t.pa.val = pbase.val + (va.val - r.vbase.val) := by
  obtain ⟨r, hr, htranslate⟩ := lookup_eq_some_iff.mp (translateIn_some h)
  exact ⟨r, hr, Region.translate_eq_some_iff.mp htranslate⟩

theorem span_eq_ok {len : Nat} (h : a.span va len = .ok (.ok pa)) :
    ∃ first lastAddr last, a.translate va = .ok (some first) ∧
      va.add? (len - 1) = some lastAddr ∧ a.translate lastAddr = .ok (some last) ∧
      last.segment = first.segment ∧ pa = first.pa := by
  unfold span at h
  rcases hfirst : a.translate va with halt | _ | first <;> rw [hfirst] at h
  · cases h
  · cases h
  cases hadd : va.add? (len - 1) with
  | none =>
    simp only [hadd] at h
    cases h
  | some lastAddr =>
    simp only [hadd] at h
    rcases hlast : a.translate lastAddr with halt | _ | last <;> rw [hlast] at h
    · cases h
    · cases h
    by_cases hsegment : last.segment = first.segment
    · change Except.ok (if _ then _ else _) = _ at h
      rw [if_pos hsegment] at h
      exact ⟨first, lastAddr, last, rfl, rfl, hlast, hsegment,
        (Except.ok.inj (Except.ok.inj h)).symm⟩
    · change Except.ok (if _ then _ else _) = _ at h
      rw [if_neg hsegment] at h
      cases h

/-- A span that is answered lies in the frames of one region. -/
theorem region_of_span {len : Nat} (hlen : 0 < len) (h : a.span va len = .ok (.ok pa)) :
    ∃ segment r pbase, a.region? segment = some r ∧ r.pbase = some pbase ∧
      pbase.val ≤ pa.val ∧ pa.val + len ≤ pbase.val + r.npages * pageSize := by
  obtain ⟨first, lastAddr, last, hfirst, hadd, hlast, hsegment, rfl⟩ := span_eq_ok h
  obtain ⟨r, hr, pbase, hpbase, hin, hpa⟩ := region_of_translate hfirst
  obtain ⟨s, hs, _, -, hlastIn, -⟩ := region_of_translate hlast
  rw [hsegment] at hs
  obtain rfl : r = s := Option.some.inj (hr.symm.trans hs)
  have hlastVal := Address.add?_eq_some_iff.mp hadd
  have hbegin : r.vbase.val ≤ va.val := hin.1
  have hend : lastAddr.val < r.vbase.val + r.npages * pageSize := hlastIn.2
  refine ⟨first.segment, r, pbase, hr, hpbase, ?_, ?_⟩ <;> omega

theorem translateIn_eq_none_iff : a.translateIn va segments = .ok none ↔
    ∀ segment ∈ segments, a.lookup va segment = .ok none := by
  induction segments with
  | nil => simp [translateIn]
  | cons segment rest ih =>
    rw [translateIn_cons, List.forall_mem_cons]
    rcases a.lookup va segment with halt | _ | pa
    · simp
    · simp [ih]
    · simp

theorem translateIn_error (h : a.translateIn va segments = .error halt) :
    ∃ segment ∈ segments, a.lookup va segment = .error halt := by
  induction segments with
  | nil => cases h
  | cons segment rest ih =>
    rw [translateIn_cons] at h
    cases hlookup : a.lookup va segment with
    | error halt' =>
      rw [hlookup] at h
      exact ⟨segment, List.mem_cons_self, by rw [hlookup, Except.error.inj h]⟩
    | ok answer =>
      rw [hlookup] at h
      cases answer with
      | none =>
        obtain ⟨other, hother, herror⟩ := ih h
        exact ⟨other, List.mem_cons_of_mem _ hother, herror⟩
      | some pa => cases h

/-- Where no region answers an address, the first sum that overflows halts the translation. -/
theorem translateIn_of_error (hsome : ∀ segment pa, a.lookup va segment ≠ .ok (some pa))
    (hmem : segment ∈ segments) (herror : a.lookup va segment = .error halt) :
    ∃ halt, a.translateIn va segments = .error halt := by
  cases h : a.translateIn va segments with
  | error halt => exact ⟨halt, rfl⟩
  | ok answer =>
    cases answer with
    | none =>
      have hnone := translateIn_eq_none_iff.mp h segment hmem
      cases herror.symm.trans hnone
    | some t => exact absurd (translateIn_some h) (hsome t.segment t.pa)

theorem region?_setRegion (hslot : slot ≠ .stack) (segment : Segment) :
    (a.setRegion r slot).region? segment = if segment = slot then some r else a.region? segment := by
  cases slot with
  | stack => exact absurd rfl hslot
  | text => cases segment <;> rfl
  | data => cases segment <;> rfl

theorem region?_bind_self (h : a.region? segment = some r) :
    (a.bind segment pa).region? segment = some (r.bind pa) := by
  rw [bind, h]
  cases segment with
  | text => rfl
  | data => rfl
  | stack =>
    obtain rfl := Option.some.inj h
    rfl

theorem region?_bind_ne (h : slot ≠ segment) :
    (a.bind segment pa).region? slot = a.region? slot := by
  unfold bind
  cases a.region? segment with
  | none => rfl
  | some r => cases segment <;> cases slot <;> first | rfl | exact absurd rfl h

theorem region?_layout (a : AddressSpace) (segment : Segment) :
    a.layout.region? segment = (a.region? segment).map Region.unbind := by
  cases segment <;> rfl

theorem layout_layout (a : AddressSpace) : a.layout.layout = a.layout := by
  simp only [layout, Option.map_map]
  rfl

theorem layout_bind (a : AddressSpace) (segment : Segment) (pa : PAddr) :
    (a.bind segment pa).layout = a.layout := by
  unfold bind
  cases hr : a.region? segment with
  | none => rfl
  | some r =>
    cases segment with
    | stack => rfl
    | text =>
      have htext : a.text = some r := hr
      simp only [setRegion, layout, htext]
      rfl
    | data =>
      have hdata : a.data = some r := hr
      simp only [setRegion, layout, hdata]
      rfl

theorem hasFrames_eq_false_iff :
    a.hasFrames = false ↔ ∀ segment r, a.region? segment = some r → r.pbase = none := by
  simp only [hasFrames, Bool.or_eq_false_iff, Option.isSome_eq_false_iff, Option.isNone_iff_eq_none,
    Option.any_eq_false]
  constructor
  · rintro ⟨⟨hstack, htext⟩, hdata⟩ segment r hr
    cases segment with
    | text => simpa [Region.isBound] using htext r hr
    | data => simpa [Region.isBound] using hdata r hr
    | stack =>
      obtain rfl := Option.some.inj hr
      exact hstack
  · intro h
    refine ⟨⟨h .stack _ rfl, ?_⟩, ?_⟩
    · intro r hr
      simpa [Region.isBound] using h .text r hr
    · intro r hr
      simpa [Region.isBound] using h .data r hr

theorem hasFrames_layout (a : AddressSpace) : a.layout.hasFrames = false := by
  rw [hasFrames_eq_false_iff]
  intro segment r hr
  rw [region?_layout, Option.map_eq_some_iff] at hr
  obtain ⟨s, -, rfl⟩ := hr
  rfl

theorem translate_of_unbound (h : a.hasFrames = false) (va : VAddr) : a.translate va = .ok none := by
  apply translateIn_eq_none_iff.mpr
  intro segment _
  unfold lookup
  cases hr : a.region? segment with
  | none => rfl
  | some r => exact r.translate_of_unbound (hasFrames_eq_false_iff.mp h segment r hr) va

/-- A region that may be declared in `slot`. -/
structure Admits (a : AddressSpace) (slot : Segment) (r : Region) : Prop where
  slot_free : a.region? slot = none
  unbound : r.pbase = none
  aligned : pageSize ∣ r.vbase.val
  below_stack : r.vend ≤ userStackBase
  apart : ∀ segment s, segment ≠ .stack → a.region? segment = some s → r.overlaps s = false

theorem Admits.slot_ne (h : a.Admits slot r) : slot ≠ .stack := by
  rintro rfl
  cases h.slot_free

theorem region?_of_freeSlot? (h : a.freeSlot? = some slot) : a.region? slot = none := by
  unfold freeSlot? at h
  split_ifs at h with htext hdata
  · obtain rfl := Option.some.inj h
    exact Option.isNone_iff_eq_none.mp htext
  · obtain rfl := Option.some.inj h
    exact Option.isNone_iff_eq_none.mp hdata

theorem covering?_eq_some {va : VAddr} {size : Nat} (h : Region.covering? va size = some r) :
    r.pbase = none ∧ pageSize ∣ r.vbase.val := by
  unfold Region.covering? at h
  split_ifs at h
  obtain rfl := Option.some.inj h
  exact ⟨rfl, Address.isPageAligned_iff.mp va.isPageAligned_alignDown⟩

theorem admits_of_placement {size : Nat} (h : a.placement va size = .ok (slot, r)) :
    a.Admits slot r := by
  unfold placement at h
  cases hcover : Region.covering? va size with
  | none =>
    rw [hcover] at h
    cases h
  | some s =>
    rw [hcover] at h
    simp only at h
    split_ifs at h with hstack hover
    cases hfree : a.freeSlot? with
    | none =>
      rw [hfree] at h
      cases h
    | some free =>
      rw [hfree] at h
      obtain ⟨rfl, rfl⟩ := Prod.mk.inj (Except.ok.inj h)
      obtain ⟨hunbound, haligned⟩ := covering?_eq_some hcover
      rw [Bool.not_eq_true, overlapsProgram, Bool.or_eq_false_iff, Option.any_eq_false,
        Option.any_eq_false] at hover
      refine ⟨region?_of_freeSlot? hfree, hunbound, haligned, Nat.not_lt.mp hstack, ?_⟩
      intro segment other hne hother
      cases segment with
      | text => simpa using hover.1 other hother
      | data => simpa using hover.2 other hother
      | stack => exact absurd rfl hne

theorem define_eq_ok {size : Nat} (h : a.define va size = .ok b) :
    ∃ slot r, a.Admits slot r ∧ b = a.setRegion r slot := by
  unfold define at h
  cases hplace : a.placement va size with
  | error refusal =>
    rw [hplace] at h
    cases h
  | ok place =>
    rw [hplace] at h
    exact ⟨place.1, place.2, admits_of_placement hplace, (Except.ok.inj h).symm⟩

theorem loaded_setRegion (a : AddressSpace) (r : Region) (slot : Segment) :
    (a.setRegion r slot).loaded = a.loaded := by
  cases slot <;> rfl

theorem loaded_bind (a : AddressSpace) (segment : Segment) (pa : PAddr) :
    (a.bind segment pa).loaded = a.loaded := by
  unfold bind
  cases a.region? segment with
  | none => rfl
  | some r => exact a.loaded_setRegion (r.bind pa) segment

/-- A region that was just declared answers no address. -/
theorem translate_define {size : Nat} {vbase : VAddr} (h : a.define vbase size = .ok b)
    (va : VAddr) :
    b.translate va = a.translate va := by
  obtain ⟨slot, r, hadmits, rfl⟩ := define_eq_ok h
  apply translate_congr
  intro segment
  unfold lookup
  rw [region?_setRegion hadmits.slot_ne]
  split_ifs with hslot
  · rw [hslot, hadmits.slot_free]
    exact r.translate_of_unbound hadmits.unbound va
  · rfl

/-- The regions lie on whole pages in the user's part of the address map, apart from each other,
and have whole frames behind them. -/
structure Placed (a : AddressSpace) : Prop where
  pages : ∀ segment r, a.region? segment = some r → pageSize ∣ r.vbase.val
  below_stack : ∀ segment r, segment ≠ .stack → a.region? segment = some r →
    r.vend ≤ userStackBase
  apart : ∀ r s, a.text = some r → a.data = some s → r.overlaps s = false
  frames : ∀ segment r pa, a.region? segment = some r → r.pbase = some pa → pageSize ∣ pa.val

theorem Placed.vend_le (h : a.Placed) (hr : a.region? segment = some r) :
    r.vend.val ≤ userTop := by
  by_cases hstack : segment = .stack
  · subst hstack
    obtain rfl := Option.some.inj hr
    change userStackBase.val + userStackPages * pageSize ≤ userTop
    decide
  · have hbelow : r.vend.val ≤ userStackBase.val := h.below_stack segment r hstack hr
    exact Nat.le_trans hbelow (by decide)

theorem placed_empty : empty.Placed := by
  constructor
  case pages =>
    rintro (_ | _ | _) r hr
    · cases hr
    · cases hr
    · obtain rfl := Option.some.inj hr
      decide
  case below_stack =>
    rintro (_ | _ | _) r hne hr
    · cases hr
    · cases hr
    · exact absurd rfl hne
  case apart => exact nofun
  case frames =>
    rintro (_ | _ | _) r pa hr hpa
    · cases hr
    · cases hr
    · obtain rfl := Option.some.inj hr
      cases hpa

theorem overlaps_comm (r s : Region) : r.overlaps s = s.overlaps r := by
  rw [Region.overlaps, Region.overlaps, Bool.and_comm]

theorem Placed.setRegion (h : a.Placed) (hadmits : a.Admits slot r) :
    (a.setRegion r slot).Placed := by
  have hregion := fun segment => a.region?_setRegion (r := r) hadmits.slot_ne segment
  constructor
  case pages =>
    intro segment s hs
    rw [hregion] at hs
    split_ifs at hs
    · rw [← Option.some.inj hs]
      exact hadmits.aligned
    · exact h.pages segment s hs
  case below_stack =>
    intro segment s hne hs
    rw [hregion] at hs
    split_ifs at hs
    · rw [← Option.some.inj hs]
      exact hadmits.below_stack
    · exact h.below_stack segment s hne hs
  case apart =>
    intro text data htext hdata
    cases slot with
    | text =>
      obtain rfl := Option.some.inj htext
      exact hadmits.apart .data data nofun hdata
    | data =>
      obtain rfl := Option.some.inj hdata
      rw [overlaps_comm]
      exact hadmits.apart .text text nofun htext
    | stack => exact absurd rfl hadmits.slot_ne
  case frames =>
    intro segment s pa hs hpa
    rw [hregion] at hs
    split_ifs at hs
    · obtain rfl := Option.some.inj hs
      cases hadmits.unbound.symm.trans hpa
    · exact h.frames segment s pa hs hpa

theorem Placed.define {size : Nat} (h : a.Placed) (hdefine : a.define va size = .ok b) :
    b.Placed := by
  obtain ⟨slot, r, hadmits, rfl⟩ := define_eq_ok hdefine
  exact h.setRegion hadmits

theorem Placed.overlaps_eq_false (h : a.Placed) {s : Region} (hne : segment ≠ slot)
    (hr : a.region? segment = some r) (hs : a.region? slot = some s) : r.overlaps s = false := by
  have hprogram {other : Segment} {q : Region} (hother : other ≠ .stack)
      (hq : a.region? other = some q) : q.overlaps a.stack = false := by
    have hbelow : q.vend.val ≤ a.stack.vbase.val := h.below_stack other q hother hq
    have hstack : ¬ a.stack.vbase < q.vend := Nat.not_lt.mpr hbelow
    simp [Region.overlaps, hstack]
  cases segment with
  | text =>
    cases slot with
    | text => exact absurd rfl hne
    | data => exact h.apart r s hr hs
    | stack =>
      obtain rfl := Option.some.inj hs
      exact hprogram hne hr
  | data =>
    cases slot with
    | text =>
      rw [overlaps_comm]
      exact h.apart s r hs hr
    | data => exact absurd rfl hne
    | stack =>
      obtain rfl := Option.some.inj hs
      exact hprogram hne hr
  | stack =>
    obtain rfl := Option.some.inj hr
    rw [overlaps_comm]
    exact hprogram hne.symm hs

/-- No address is in two segments. -/
theorem Placed.segment_eq (h : a.Placed) {s : Region} (hr : a.region? segment = some r)
    (hs : a.region? slot = some s) (hrin : r.Contains va) (hsin : s.Contains va) :
    segment = slot := by
  by_cases heq : segment = slot
  · exact heq
  have hapart := h.overlaps_eq_false heq hr hs
  have hleft : r.vbase < s.vend := Nat.lt_of_le_of_lt hrin.1 hsin.2
  have hright : s.vbase < r.vend := Nat.lt_of_le_of_lt hsin.1 hrin.2
  simp [Region.overlaps, hleft, hright] at hapart

/-- Equal layouts have the same pages in each segment. -/
theorem region?_of_layout (hlayout : b.layout = a.layout) (hr : b.region? segment = some r) :
    ∃ s, a.region? segment = some s ∧ s.vbase = r.vbase ∧ s.npages = r.npages := by
  have hsame : (b.region? segment).map Region.unbind = (a.region? segment).map Region.unbind := by
    rw [← region?_layout, ← region?_layout, hlayout]
  rw [hr, Option.map_some] at hsame
  obtain ⟨s, hs, hunbind⟩ := Option.map_eq_some_iff.mp hsame.symm
  have hvbase : s.unbind.vbase = r.unbind.vbase := congrArg Region.vbase hunbind
  have hnpages : s.unbind.npages = r.unbind.npages := congrArg Region.npages hunbind
  exact ⟨s, hs, hvbase, hnpages⟩

/-- Layouts that are equal differ in their frames alone. -/
theorem Placed.of_layout (h : a.Placed) (hlayout : b.layout = a.layout)
    (hframes : ∀ segment r pa, b.region? segment = some r → r.pbase = some pa → pageSize ∣ pa.val) :
    b.Placed := by
  have hvend : ∀ {r s : Region}, s.vbase = r.vbase → s.npages = r.npages → s.vend = r.vend := by
    intro r s hvbase hnpages
    apply Address.ext
    simp only [Region.vend, hvbase, hnpages]
  constructor
  case pages =>
    intro segment r hr
    obtain ⟨s, hs, hvbase, -⟩ := region?_of_layout hlayout hr
    rw [← hvbase]
    exact h.pages segment s hs
  case below_stack =>
    intro segment r hne hr
    obtain ⟨s, hs, hvbase, hnpages⟩ := region?_of_layout hlayout hr
    rw [← hvend hvbase hnpages]
    exact h.below_stack segment s hne hs
  case apart =>
    intro text data htext hdata
    have htext' : b.region? .text = some text := htext
    have hdata' : b.region? .data = some data := hdata
    obtain ⟨s, hs, hsbase, hspages⟩ := region?_of_layout hlayout htext'
    obtain ⟨t, ht, htbase, htpages⟩ := region?_of_layout hlayout hdata'
    have hapart := h.apart s t hs ht
    rwa [Region.overlaps, hsbase, htbase, hvend hsbase hspages, hvend htbase htpages] at hapart
  case frames => exact hframes

theorem Placed.layout (h : a.Placed) : a.layout.Placed := by
  refine h.of_layout a.layout_layout ?_
  intro segment r pa hr hpa
  have hunbound := hasFrames_eq_false_iff.mp a.hasFrames_layout segment r hr
  cases hunbound.symm.trans hpa

theorem Placed.bind (h : a.Placed) (hpa : pageSize ∣ pa.val) : (a.bind segment pa).Placed := by
  refine h.of_layout (a.layout_bind segment pa) ?_
  intro other r pa' hr hpa'
  by_cases hother : other = segment
  · subst hother
    cases hregion : a.region? other with
    | none =>
      rw [AddressSpace.bind, hregion] at hr
      cases hregion.symm.trans hr
    | some s =>
      rw [region?_bind_self hregion] at hr
      obtain rfl := Option.some.inj hr
      obtain rfl : pa = pa' := Option.some.inj hpa'
      exact hpa
  · rw [region?_bind_ne hother] at hr
    exact h.frames other r pa' hr hpa'

theorem Placed.complete (h : a.Placed) : ({ a with loaded := true } : AddressSpace).Placed := by
  have hregion : ∀ segment,
      ({ a with loaded := true } : AddressSpace).region? segment = a.region? segment := by
    intro segment
    cases segment <;> rfl
  refine h.of_layout rfl ?_
  intro segment r pa hr hpa
  rw [hregion] at hr
  exact h.frames segment r pa hr hpa

end AddressSpace
end MipsVm
