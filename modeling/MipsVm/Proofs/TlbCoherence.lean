import MipsVm.Proofs.TlbEncoding
import MipsVm.Proofs.VmHistory

/-! The translation buffer and the active address space agree: every valid entry is a translation that
the space gives now, and may be written through exactly as the space allows now. -/
namespace MipsVm

namespace Tlb
variable {tlb : Tlb} {a b : AddressSpace} {e : TlbEntry}

/-- What the space gives for the page of an entry. -/
def Agrees (a : AddressSpace) (e : TlbEntry) : Prop :=
  ∃ t, a.translate e.hi.page = .ok (some t) ∧ e.lo.frame = t.pa ∧
    (e.lo.dirty = true ↔ ¬ (t.segment = .text ∧ a.loaded = true))

def Coherent (tlb : Tlb) (a : AddressSpace) : Prop :=
  ∀ slot : Fin tlbSlots, (tlb.slots.get slot).isValid = true → Agrees a (tlb.slots.get slot)

/-- No valid entry lets a page of the text be written. -/
def TextIsClean (tlb : Tlb) (a : AddressSpace) : Prop :=
  ∀ slot : Fin tlbSlots, (tlb.slots.get slot).isValid = true → ∀ t : Translation,
    a.translate (tlb.slots.get slot).hi.page = .ok (some t) → t.segment = .text →
      (tlb.slots.get slot).lo.dirty = false

theorem Coherent.textIsClean (h : tlb.Coherent a) (hloaded : a.loaded = true) :
    tlb.TextIsClean a := by
  intro slot hvalid t ht htext
  obtain ⟨u, hu, -, hdirty⟩ := h slot hvalid
  obtain rfl : t = u := Option.some.inj (Except.ok.inj (ht.symm.trans hu))
  rw [← Bool.not_eq_true, hdirty, not_not]
  exact ⟨htext, hloaded⟩

theorem coherent_flush (tlb : Tlb) (a : AddressSpace) : tlb.flush.Coherent a := by
  intro slot hvalid
  have hslot : tlb.flush.slots.get slot = TlbEntry.invalid slot := Vector.getElem_ofFn ..
  rw [hslot, TlbEntry.isValid_invalid] at hvalid
  cases hvalid

/-- An entry goes over one slot, wherever it is put. -/
theorem get_put (tlb : Tlb) (e : TlbEntry) (placement : Placement) :
    ∃ replaced : Fin tlbSlots, ∀ slot : Fin tlbSlots,
      (tlb.put e placement).slots.get slot = if slot = replaced then e else tlb.slots.get slot := by
  have hset (replaced slot : Fin tlbSlots) : (tlb.set replaced e).slots.get slot =
      if slot = replaced then e else tlb.slots.get slot := by
    simp only [@eq_comm _ slot, ← Fin.val_inj]
    exact Vector.getElem_set replaced.isLt slot.isLt
  cases placement with
  | slot i => exact ⟨i, hset i⟩
  | random => exact ⟨tlb.victim tlb.randomWrites, hset _⟩

theorem Coherent.put (h : tlb.Coherent a) (he : Agrees a e) (placement : Placement) :
    (tlb.put e placement).Coherent a := by
  obtain ⟨replaced, hget⟩ := tlb.get_put e placement
  intro slot hvalid
  rw [hget] at hvalid ⊢
  split_ifs at hvalid ⊢
  · exact he
  · exact h slot hvalid

theorem Coherent.congr (h : tlb.Coherent a) (htranslate : ∀ va, b.translate va = a.translate va)
    (hloaded : b.loaded = a.loaded) : tlb.Coherent b := by
  intro slot hvalid
  obtain ⟨t, ht, hframe, hdirty⟩ := h slot hvalid
  exact ⟨t, (htranslate _).trans ht, hframe, by rw [hloaded, hdirty]⟩

/-- A buffer that agrees with a space without frames is empty. -/
theorem Coherent.of_unbound (h : tlb.Coherent a) (hframes : a.hasFrames = false) :
    tlb.Coherent b := by
  intro slot hvalid
  obtain ⟨t, ht, -⟩ := h slot hvalid
  cases (a.translate_of_unbound hframes _).symm.trans ht

end Tlb

namespace Machine

def SameTlb (m m' : Machine) : Prop := m'.tlb = m.tlb

theorem sameTlb_effect : Effect SameTlb where
  trans h₁ h₂ := h₂.trans h₁
  trace _ _ := rfl
  interrupts _ _ := rfl
  locked _ _ := rfl

end Machine

/-- The frame behind the first byte of a page begins there. -/
theorem AddressSpace.Placed.translation_dvd {a : AddressSpace} (h : a.Placed) {va : VAddr}
    {t : Translation} (hva : pageSize ∣ va.val) (ht : a.translate va = .ok (some t)) :
    pageSize ∣ t.pa.val := by
  obtain ⟨r, hr, pbase, hbound, hin, hpa⟩ := region_of_translate ht
  have hframes := h.frames t.segment r pbase hr hbound
  have hpages := h.pages t.segment r hr
  rw [hpa]
  exact Nat.dvd_add hframes (Nat.dvd_sub hva hpages)

namespace Kernel
variable {m : Machine} {a : AddressSpace}

/-- A resolved miss puts in what the space gives. -/
theorem coherent_fault (hplaced : a.Placed) (h : m.tlb.Coherent a) (code : Nat) (addr : VAddr) :
    ((fault (some a) code addr).outcome m).2.tlb.Coherent a := by
  by_cases hcode : code = 0 ∨ code = 1
  · rw [(fault_of_miss hcode).2]
    rcases htranslate : a.translate addr.alignDown with halt | _ | t
    · exact h
    · exact h
    · have hdvd : pageSize ∣ t.pa.val := hplaced.translation_dvd
        (Address.isPageAligned_iff.mp addr.isPageAligned_alignDown) htranslate
      have hframe : t.pa.alignDown = t.pa := Address.ext (Nat.div_mul_cancel hdvd)
      refine h.put ⟨t, ?_, ?_, ?_⟩ _
      · rw [EntryHi.page_forPage, Address.alignDown_alignDown]
        exact htranslate
      · rw [EntryLo.frame_mapping, hframe]
      · rw [EntryLo.dirty_mapping]
        cases t.segment <;> cases a.loaded <;> decide
  · rw [(fault_of_no_miss hcode _).2]
    exact h

end Kernel

/-- The call is not made for another process than that of space `i`, which it leaves alive. -/
def VmCall.KeepsActive (i : Nat) : VmCall → Prop
  | .fault (some j) _ _ => j = i
  | .destroySpace j => j ≠ i
  | _ => True

namespace VmHistory
variable {h : VmHistory} {i : Nat} {s : ProcessSpace}

theorem tlb_next {call : VmCall} (hcall : ¬ call.LoadsTlb) :
    (h.next call).machine.tlb = h.machine.tlb :=
  reached_next Machine.sameTlb_effect (fun _ _ => rfl) (fun _ _ => rfl) (fun _ _ => rfl) hcall

/-- Space `i` is alive, and the buffer agrees with it. -/
def CoherentWith (i : Nat) (h : VmHistory) : Prop :=
  ∃ s, h.spaces.get? i = some s ∧ h.machine.tlb.Coherent s.space

theorem coherentWith_activate (hs : h.spaces.get? i = some s) :
    (h.next (.activateSpace (some i))).CoherentWith i := by
  rw [next, onCurrent, onSpace_of_live hs]
  exact ⟨s, hs, Tlb.coherent_flush h.machine.tlb s.space⟩

/-- Frames are bound while the buffer is empty, since the space had none before. -/
theorem coherentWith_prepareLoad (h : VmHistory) (hcoherent : h.CoherentWith i) :
    (h.next (.prepareLoad i)).CoherentWith i := by
  obtain ⟨s, hs, htlb⟩ := hcoherent
  have hsame : (h.next (.prepareLoad i)).machine.tlb = h.machine.tlb := tlb_next id
  rw [CoherentWith, hsame, next, onSpace_of_live hs]
  refine ⟨_, HandleTable.get?_set_self hs, ?_⟩
  cases hframes : s.space.hasFrames with
  | true =>
    rw [Loader.prepareLoad_of_bound hframes]
    exact htlb
  | false => exact htlb.of_unbound hframes

theorem coherentWith_next (hsound : h.Sound) (hcoherent : h.CoherentWith i) {call : VmCall}
    (hcall : call.KeepsActive i) : (h.next call).CoherentWith i := by
  by_cases hload : call = .prepareLoad i
  · subst hload
    exact h.coherentWith_prepareLoad hcoherent
  obtain ⟨s, hs, htlb⟩ := hcoherent
  have hdestroy : call ≠ .destroySpace i := by
    rintro rfl
    exact hcall rfl
  obtain ⟨t, ht, htranslate, hloaded⟩ := retains_next hs hload hdestroy
  refine ⟨t, ht, ?_⟩
  have hflush : (h.next call).machine.tlb = h.machine.tlb.flush →
      (h.next call).machine.tlb.Coherent t.space := by
    intro heq
    rw [heq]
    exact Tlb.coherent_flush h.machine.tlb t.space
  have hagree {tlb : Tlb} (hcompleted : call ≠ .completeLoad i) (h : tlb.Coherent s.space) :
      tlb.Coherent t.space := h.congr htranslate (hloaded.resolve_right hcompleted)
  cases call with
  | completeLoad j =>
    cases hlive : h.spaces.get? j with
    | some u =>
      apply hflush
      rw [next, onSpace_of_live hlive]
      rfl
    | none =>
      have hj : j ≠ i := by
        rintro rfl
        cases hlive.symm.trans hs
      have hsame : h.next (.completeLoad j) = h := by rw [next, onSpace, hlive]
      rw [hsame]
      exact hagree (fun heq => hj (VmCall.completeLoad.inj heq)) htlb
  | activateSpace current =>
    cases current with
    | none => exact hagree (by rintro ⟨⟩) htlb
    | some j =>
      cases hlive : h.spaces.get? j with
      | some u =>
        apply hflush
        rw [next, onCurrent, onSpace_of_live hlive]
        rfl
      | none =>
        have hsame : h.next (.activateSpace (some j)) = h := by rw [next, onCurrent, onSpace, hlive]
        rw [hsame]
        exact hagree (by rintro ⟨⟩) htlb
  | fault current code addr =>
    cases current with
    | none =>
      have hsame : (h.next (.fault none code addr)).machine.tlb = h.machine.tlb :=
        Kernel.fault_none_tlb code addr
      rw [hsame]
      exact hagree (by rintro ⟨⟩) htlb
    | some j =>
      obtain rfl : j = i := hcall
      rw [next, onCurrent, onSpace_of_live hs]
      exact hagree (by rintro ⟨⟩) (Kernel.coherent_fault (hsound.of_space hs) htlb code addr)
  | _ =>
    rw [tlb_next id]
    exact hagree (by rintro ⟨⟩) htlb

theorem coherentWith_run (hsound : h.Sound) (hcoherent : h.CoherentWith i) {calls : List VmCall}
    (hcalls : ∀ call ∈ calls, call.KeepsActive i) : (h.run calls).CoherentWith i := by
  induction calls generalizing h with
  | nil => exact hcoherent
  | cons call calls ih =>
    obtain ⟨hcall, hrest⟩ := List.forall_mem_cons.mp hcalls
    exact ih (hsound.next call) (coherentWith_next hsound hcoherent hcall) hrest

/-- From the activation of space `i` on, whatever is called short of a fault of another process and of
the end of the space itself, the buffer agrees with the space as it is then; so once the program is
loaded, no valid entry lets its text be written. -/
theorem coherent_of_calls (ram : Ram) (first last : PAddr) (victim : Nat → Fin tlbSlots)
    (before after : List VmCall) {i : Nat} {s : ProcessSpace}
    (hs : ((start (.new ram first last victim)).run before).spaces.get? i = some s)
    (hafter : ∀ call ∈ after, call.KeepsActive i) :
    ∃ t, ((start (.new ram first last victim)).run
        (before ++ .activateSpace (some i) :: after)).spaces.get? i = some t ∧
      ((start (.new ram first last victim)).run
        (before ++ .activateSpace (some i) :: after)).machine.tlb.Coherent t.space ∧
      (t.space.loaded = true → ((start (.new ram first last victim)).run
        (before ++ .activateSpace (some i) :: after)).machine.tlb.TextIsClean t.space) := by
  have hsound := (sound_start ram first last victim).run before
  have hactive := coherentWith_activate hs
  rw [run_append, run_cons]
  obtain ⟨t, ht, htlb⟩ := coherentWith_run (hsound.next _) hactive hafter
  exact ⟨t, ht, htlb, htlb.textIsClean⟩

theorem coherent_of_calls_while_loading :
    ∃ h : VmHistory, h =
        (start (.new ⟨.replicate 20 .zero⟩ ⟨0x1000, by decide⟩ ⟨0x14000, by decide⟩ fun _ => 5)).run
          ([.bootstrap, .createSpace, .defineRegion 0 ⟨0x400000, by decide⟩ 0x1000 ⟨7⟩] ++
            .activateSpace (some 0) :: [.prepareLoad 0, .fault (some 0) 1 ⟨0x400010, by decide⟩,
              .completeLoad 0, .fault (some 0) 0 ⟨0x400010, by decide⟩]) ∧
      ∃ t, h.spaces.get? 0 = some t ∧ h.machine.tlb.Coherent t.space ∧
        (t.space.loaded = true → h.machine.tlb.TextIsClean t.space) := by
  refine ⟨_, rfl, coherent_of_calls _ _ _ _ _ _ (s := ⟨_, false⟩) rfl ?_⟩
  simp [VmCall.KeepsActive]

end VmHistory
end MipsVm
