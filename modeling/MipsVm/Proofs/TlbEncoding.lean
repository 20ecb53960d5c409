import MipsVm.Tlb.Entry

/-! The two words of a slot of the translation buffer, as they are made for a page, for a frame and for
an empty slot. Each says just what it is made from: no other word says the same, words made from
something else differ, and those of the empty slots differ from one another and from those of all pages
outside of the first 64 of the direct map. -/
namespace MipsVm

namespace Address
variable {s : Space} (a : Address s)

theorem ofPageNumber_pageNumber : ofPageNumber a.pageNumber = a.alignDown :=
  Address.ext (Nat.mod_eq_of_lt a.alignDown.isLt)

theorem pageNumber_lt : a.pageNumber < patterns 20 := by
  have ha := a.isLt
  simp only [pageNumber, pageSize, patterns]
  omega

theorem pageNumber_alignDown : a.alignDown.pageNumber = a.pageNumber := by
  simp only [pageNumber, alignDown]
  exact Nat.mul_div_cancel _ (by decide)

theorem pageNumber_ofPageNumber {number : Nat} (h : number < patterns 20) :
    (ofPageNumber number : Address s).pageNumber = number := by
  simp only [ofPageNumber, wrapping, pageNumber, pageSize, patterns] at *
  omega

/-- A number of 20 bits is told by the page that it names. -/
theorem eq_pageNumber_of_ofPageNumber {a : Address s} {number : Nat}
    (hnumber : number < patterns 20) (h : ofPageNumber number = a.alignDown) : number = a.pageNumber := by
  calc
    number = (ofPageNumber number : Address s).pageNumber := (pageNumber_ofPageNumber hnumber).symm
    _ = a.pageNumber := by rw [h, pageNumber_alignDown]

end Address

namespace EntryHi
variable {e e' : EntryHi} {va vb : VAddr} {slot other : Fin tlbSlots}

/-- The word matches the page of `va`, and says nothing else: the address-space number and the bits below
it are zero. -/
structure Encodes (e : EntryHi) (va : VAddr) : Prop where
  page : e.page = va.alignDown
  pid : e.pid = 0
  low : e.bits.toNat % patterns 12 = 0

theorem setVpn_pageNumber (va : VAddr) : setVpn ⟨0⟩ va.pageNumber = .ok (forPage va) := by
  rw [setVpn, BitField.set_of_lt _ _ va.pageNumber_lt]
  rfl

theorem vpn_forPage (va : VAddr) : (forPage va).vpn = va.pageNumber :=
  vpnField.read_write 0 (by decide) va.pageNumber_lt

theorem page_forPage (va : VAddr) : (forPage va).page = va.alignDown := by
  rw [page, vpn_forPage, Address.ofPageNumber_pageNumber]

theorem encodes_forPage (va : VAddr) : (forPage va).Encodes va where
  page := page_forPage va
  pid := vpnField.read_write_of_disjoint pidField 0 (by decide) va.pageNumber_lt (.inl (by decide))
  low := vpnField.write_mod 0 (by decide) va.pageNumber_lt

theorem Encodes.vpn_eq (h : e.Encodes va) : e.vpn = va.pageNumber :=
  Address.eq_pageNumber_of_ofPageNumber (vpnField.read_lt e.bits) h.page

theorem Encodes.unique (h : e.Encodes va) (h' : e'.Encodes va) : e = e' := by
  -- the page number and the bits below it are the whole word
  have hlow : BitField.read ⟨0, 12⟩ e.bits = BitField.read ⟨0, 12⟩ e'.bits := by
    rw [BitField.read_lowest, BitField.read_lowest, h.low, h'.low]
  have hvpn : vpnField.read e.bits = vpnField.read e'.bits := h.vpn_eq.trans h'.vpn_eq.symm
  have hbits : e.bits = e'.bits := by
    apply BitField.eq_of_reads [⟨0, 12⟩, vpnField] ⟨rfl, rfl, rfl⟩
    simp only [List.forall_mem_cons]
    exact ⟨hlow, hvpn, List.forall_mem_nil _⟩
  exact congrArg EntryHi.mk hbits

theorem encodes_iff : e.Encodes va ↔ e = forPage va := by
  constructor
  · intro h
    exact h.unique (encodes_forPage va)
  · rintro rfl
    exact encodes_forPage va

theorem forPage_eq_iff : forPage va = forPage vb ↔ va.pageNumber = vb.pageNumber := by
  rw [forPage, forPage, mk.injEq]
  exact vpnField.write_inj 0 (by decide) va.pageNumber_lt vb.pageNumber_lt

theorem vpn_unmatched (slot : Fin tlbSlots) : (unmatched slot).vpn = firstUnmatched + slot.val :=
  vpnField.read_write 0 (by decide) (firstUnmatched_add_lt slot)

theorem unmatched_eq_iff : unmatched slot = unmatched other ↔ slot = other := by
  rw [unmatched, unmatched, mk.injEq, vpnField.write_inj 0 (by decide) (firstUnmatched_add_lt slot)
    (firstUnmatched_add_lt other), Nat.add_left_cancel_iff, Fin.val_inj]

/-- The word of an empty slot matches one page of the direct map. -/
theorem unmatched_eq_forPage_iff :
    unmatched slot = forPage va ↔ va.alignDown.val = kseg0 + slot * pageSize := by
  rw [unmatched, forPage, mk.injEq,
    vpnField.write_inj 0 (by decide) (firstUnmatched_add_lt slot) va.pageNumber_lt]
  simp only [firstUnmatched, Address.pageNumber, Address.alignDown, kseg0, pageSize]
  omega

theorem unmatched_ne_forPage (hva : ¬ (0x80000000 ≤ va.val ∧ va.val < 0x80040000)) :
    unmatched slot ≠ forPage va := by
  intro h
  have hpage := unmatched_eq_forPage_iff.mp h
  have hslot := slot.isLt
  simp only [Address.alignDown, kseg0, pageSize, tlbSlots] at *
  omega

end EntryHi

namespace EntryLo
variable {e e' : EntryLo} {pa pb : PAddr} {dirty other : Bool}

/-- The word is a valid mapping to the frame of `pa`, which may be written as `dirty` tells, and says
nothing else. -/
structure Encodes (e : EntryLo) (pa : PAddr) (dirty : Bool) : Prop where
  frame : e.frame = pa.alignDown
  valid : e.valid = true
  dirty : e.dirty = dirty
  global : e.global = false
  nocache : e.nocache = false
  low : e.bits.toNat % patterns 8 = 0

theorem setPfn_pageNumber (pa : PAddr) (dirty : Bool) :
    (setPfn ⟨0⟩ pa.pageNumber).map (fun e => (e.setValid true).setDirty dirty) =
      .ok (mapping pa dirty) := by
  rw [setPfn, BitField.set_of_lt _ _ pa.pageNumber_lt]
  rfl

section Mapping
variable (pa : PAddr) (dirty : Bool)

/-- The dirty flag is written last, over a word that holds the rest. -/
theorem read_mapping_of_disjoint (g : BitField)
    (hg : g.offset + g.width ≤ dirtyField.offset ∨
      dirtyField.offset + dirtyField.width ≤ g.offset) :
    g.read (mapping pa dirty).bits =
      g.read (validField.setFlag (pfnField.write (0 : BitVec 32) pa.pageNumber) true) :=
  BitField.read_setFlag_of_disjoint g _ (by decide) rfl hg

theorem pfn_mapping : (mapping pa dirty).pfn = pa.pageNumber := by
  rw [pfn, read_mapping_of_disjoint pa dirty pfnField (.inr (by decide)),
    BitField.read_setFlag_of_disjoint pfnField _ (by decide) rfl (.inr (by decide))]
  exact pfnField.read_write 0 (by decide) pa.pageNumber_lt

theorem frame_mapping : (mapping pa dirty).frame = pa.alignDown := by
  rw [frame, pfn_mapping, Address.ofPageNumber_pageNumber]

theorem valid_mapping : (mapping pa dirty).valid = true := by
  rw [valid, BitField.flag, read_mapping_of_disjoint pa dirty validField (.inl (by decide))]
  exact BitField.flag_setFlag _ (by decide) rfl

theorem dirty_mapping : (mapping pa dirty).dirty = dirty :=
  BitField.flag_setFlag _ (by decide) rfl

/-- Nothing is written below the flags or between them and the frame. -/
theorem read_mapping_of_unwritten (g : BitField)
    (hg : g.offset + g.width ≤ validField.offset ∨
      dirtyField.offset + dirtyField.width ≤ g.offset ∧ g.offset + g.width ≤ pfnField.offset) :
    g.read (mapping pa dirty).bits = 0 := by
  simp only [validField, dirtyField, pfnField] at hg
  calc
    g.read (mapping pa dirty).bits =
        g.read (validField.setFlag (pfnField.write (0 : BitVec 32) pa.pageNumber) true) :=
      read_mapping_of_disjoint pa dirty g (by simp only [dirtyField]; omega)
    _ = g.read (pfnField.write (0 : BitVec 32) pa.pageNumber) :=
      BitField.read_setFlag_of_disjoint g _ (by decide) rfl (by simp only [validField]; omega)
    _ = g.read (0 : BitVec 32) :=
      pfnField.read_write_of_disjoint g 0 (by decide) pa.pageNumber_lt
        (.inl (by simp only [pfnField]; omega))
    _ = 0 := by simp [BitField.read]

theorem encodes_mapping : (mapping pa dirty).Encodes pa dirty where
  frame := frame_mapping pa dirty
  valid := valid_mapping pa dirty
  dirty := dirty_mapping pa dirty
  global := by
    rw [global, BitField.flag, read_mapping_of_unwritten pa dirty globalField (by decide)]
    rfl
  nocache := by
    rw [nocache, BitField.flag, read_mapping_of_unwritten pa dirty nocacheField (by decide)]
    rfl
  low := by
    rw [← BitField.read_lowest]
    exact read_mapping_of_unwritten pa dirty ⟨0, 8⟩ (by decide)

end Mapping

theorem Encodes.pfn_eq (h : e.Encodes pa dirty) : e.pfn = pa.pageNumber :=
  Address.eq_pageNumber_of_ofPageNumber (pfnField.read_lt e.bits) h.frame

theorem Encodes.unique (h : e.Encodes pa dirty) (h' : e'.Encodes pa dirty) : e = e' := by
  -- the frame number, the four flags and the bits below them are the whole word
  have hlow : BitField.read ⟨0, 8⟩ e.bits = BitField.read ⟨0, 8⟩ e'.bits := by
    rw [BitField.read_lowest, BitField.read_lowest, h.low, h'.low]
  have hpfn : pfnField.read e.bits = pfnField.read e'.bits := h.pfn_eq.trans h'.pfn_eq.symm
  have hbits : e.bits = e'.bits := by
    apply BitField.eq_of_reads
      [⟨0, 8⟩, globalField, validField, dirtyField, nocacheField, pfnField]
      ⟨rfl, rfl, rfl, rfl, rfl, rfl, rfl⟩
    simp only [List.forall_mem_cons]
    exact ⟨hlow,
      BitField.read_eq_of_flag_eq rfl (h.global.trans h'.global.symm),
      BitField.read_eq_of_flag_eq rfl (h.valid.trans h'.valid.symm),
      BitField.read_eq_of_flag_eq rfl (h.dirty.trans h'.dirty.symm),
      BitField.read_eq_of_flag_eq rfl (h.nocache.trans h'.nocache.symm),
      hpfn, List.forall_mem_nil _⟩
  exact congrArg EntryLo.mk hbits

theorem encodes_iff : e.Encodes pa dirty ↔ e = mapping pa dirty := by
  constructor
  · intro h
    exact h.unique (encodes_mapping pa dirty)
  · rintro rfl
    exact encodes_mapping pa dirty

theorem mapping_eq_iff :
    mapping pa dirty = mapping pb other ↔ pa.pageNumber = pb.pageNumber ∧ dirty = other := by
  constructor
  · intro h
    have hpfn := congrArg pfn h
    have hdirty := congrArg EntryLo.dirty h
    rw [pfn_mapping, pfn_mapping] at hpfn
    rw [dirty_mapping, dirty_mapping] at hdirty
    exact ⟨hpfn, hdirty⟩
  · rintro ⟨hpage, rfl⟩
    rw [mapping, mapping, hpage]

end EntryLo

theorem TlbEntry.isValid_invalid (slot : Fin tlbSlots) : (invalid slot).isValid = false := by
  have hzero : EntryLo.valid ⟨0⟩ = false := by decide
  exact hzero

/-- Every page number, frame number and slot fits into its field, and the word that comes out is the only
one that says just that page, or just that frame and whether it may be written. Words for pages or for
frames are equal only where these are. No two empty slots have the same word, none of them is valid, and
each matches one page of the first 64 of the direct map, where no address goes through the buffer. -/
theorem TlbEntry.words_faithful (va vb : VAddr) (pa pb : PAddr) (dirty other : Bool)
    (s t : Fin tlbSlots) :
    (EntryHi.setVpn ⟨0⟩ va.pageNumber = .ok (.forPage va) ∧
      ∀ hi : EntryHi, hi.Encodes va ↔ hi = .forPage va) ∧
    ((EntryLo.setPfn ⟨0⟩ pa.pageNumber).map (fun lo => (lo.setValid true).setDirty dirty) =
        .ok (.mapping pa dirty) ∧
      ∀ lo : EntryLo, lo.Encodes pa dirty ↔ lo = .mapping pa dirty) ∧
    (EntryHi.forPage va = .forPage vb ↔ va.pageNumber = vb.pageNumber) ∧
    (EntryLo.mapping pa dirty = .mapping pb other ↔
      pa.pageNumber = pb.pageNumber ∧ dirty = other) ∧
    (EntryHi.unmatched? s = .ok (.unmatched s) ∧ invalid? s = .ok (invalid s) ∧
      (invalid s).isValid = false) ∧
    (EntryHi.unmatched s = .unmatched t ↔ s = t) ∧
    (EntryHi.unmatched s = .forPage va ↔ va.alignDown.val = kseg0 + s * pageSize) ∧
    (¬ (0x80000000 ≤ va.val ∧ va.val < 0x80040000) → EntryHi.unmatched s ≠ .forPage va) := by
  refine ⟨⟨EntryHi.setVpn_pageNumber va, ?_⟩, ⟨EntryLo.setPfn_pageNumber pa dirty, ?_⟩,
    EntryHi.forPage_eq_iff, EntryLo.mapping_eq_iff, ?_, EntryHi.unmatched_eq_iff,
    EntryHi.unmatched_eq_forPage_iff, EntryHi.unmatched_ne_forPage⟩
  · intro hi
    exact EntryHi.encodes_iff
  · intro lo
    exact EntryLo.encodes_iff
  · exact ⟨EntryHi.unmatched?_eq s, invalid?_eq s, isValid_invalid s⟩

/-- The first page behind those of the empty slots is told apart from the last of them. -/
theorem TlbEntry.words_faithful_behind_empty_slots :
    ¬ (0x80000000 ≤ 0x80040000 ∧ 0x80040000 < 0x80040000) ∧
      EntryHi.unmatched 63 ≠ .forPage ⟨0x80040000, by decide⟩ ∧
      EntryHi.unmatched 63 = .forPage ⟨0x8003FFFF, by decide⟩ ∧
      (EntryLo.mapping ⟨0x0003BFFF, by decide⟩ false).Encodes ⟨0x0003BFFF, by decide⟩ false := by
  have hbehind : ¬ (0x80000000 ≤ 0x80040000 ∧ 0x80040000 < 0x80040000) := by decide
  obtain ⟨-, -, -, -, -, -, -, hne⟩ :=
    words_faithful ⟨0x80040000, by decide⟩ .null .null .null false false 63 63
  obtain ⟨-, ⟨-, hword⟩, -, -, -, -, hpage, -⟩ :=
    words_faithful ⟨0x8003FFFF, by decide⟩ .null ⟨0x0003BFFF, by decide⟩ .null false false 63 63
  exact ⟨hbehind, hne hbehind, hpage.mpr rfl, (hword _).mpr rfl⟩

end MipsVm
