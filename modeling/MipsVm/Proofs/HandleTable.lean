import Mathlib.Data.List.Perm.Basic
import Mathlib.Data.List.ReduceOption

/-! Things known by a number from the moment they are made until they are given up. No number is
given twice. -/
namespace MipsVm

structure HandleTable (α : Type) where
  entries : List (Option α)

namespace HandleTable
variable {α : Type} {t : HandleTable α} {i j : Nat} {x y : α}

def empty : HandleTable α := ⟨[]⟩

def get? (t : HandleTable α) (i : Nat) : Option α := t.entries[i]?.join

def add (t : HandleTable α) (x : α) : HandleTable α := ⟨t.entries ++ [some x]⟩

def set (t : HandleTable α) (i : Nat) (x : α) : HandleTable α := ⟨t.entries.set i (some x)⟩

def remove (t : HandleTable α) (i : Nat) : HandleTable α := ⟨t.entries.set i none⟩

/-- All that was not given up. -/
def live (t : HandleTable α) : List α := t.entries.reduceOption

theorem get?_eq_some_iff : t.get? i = some x ↔ t.entries[i]? = some (some x) :=
  Option.join_eq_some_iff

theorem lt_of_get? (h : t.get? i = some x) : i < t.entries.length :=
  (List.getElem?_eq_some_iff.mp (get?_eq_some_iff.mp h)).1

theorem get?_set_self (h : t.get? i = some x) : (t.set i y).get? i = some y := by
  have hlt := lt_of_get? h
  rw [get?_eq_some_iff]
  exact List.getElem?_set_self hlt

theorem get?_set_ne (h : i ≠ j) : (t.set i y).get? j = t.get? j := by
  have hentry : (t.entries.set i (some y))[j]? = t.entries[j]? := List.getElem?_set_ne h
  exact congrArg Option.join hentry

theorem get?_remove_ne (h : i ≠ j) : (t.remove i).get? j = t.get? j := by
  have hentry : (t.entries.set i none)[j]? = t.entries[j]? := List.getElem?_set_ne h
  exact congrArg Option.join hentry

theorem get?_add (h : t.get? i = some x) : (t.add y).get? i = some x := by
  have hlt := lt_of_get? h
  rw [get?_eq_some_iff] at h ⊢
  exact (List.getElem?_append_left hlt).trans h

theorem mem_live_iff : x ∈ t.live ↔ ∃ i, t.get? i = some x := by
  rw [live, List.reduceOption_mem_iff, List.mem_iff_getElem?]
  exact exists_congr fun i => get?_eq_some_iff.symm

theorem mem_live (h : t.get? i = some x) : x ∈ t.live := mem_live_iff.mpr ⟨i, h⟩

theorem live_add (t : HandleTable α) (x : α) : (t.add x).live = t.live ++ [x] :=
  List.reduceOption_append t.entries [some x]

theorem live_remove (h : t.get? i = some x) : t.live.Perm (x :: (t.remove i).live) := by
  -- the entry is taken out of its place in both lists
  have hlt := lt_of_get? h
  have hentry : t.entries[i] = some x :=
    (List.getElem?_eq_some_iff.mp (get?_eq_some_iff.mp h)).2
  have hbefore := (List.getElem_cons_eraseIdx_perm hlt).filterMap id
  have hafter := (List.set_perm_cons_eraseIdx hlt none).filterMap id
  rw [hentry] at hbefore
  exact hbefore.symm.trans (hafter.symm.cons x)

theorem live_set (h : t.get? i = some x) : (t.set i y).live.Perm (y :: (t.remove i).live) := by
  have hlt := lt_of_get? h
  have hset := (List.set_perm_cons_eraseIdx hlt (some y)).filterMap id
  have hafter := (List.set_perm_cons_eraseIdx hlt none).filterMap id
  exact hset.trans (hafter.symm.cons y)

theorem mem_live_of_remove (h : t.get? i = some x) (hy : y ∈ (t.remove i).live) : y ∈ t.live :=
  (live_remove h).mem_iff.mpr (List.mem_cons_of_mem x hy)

end HandleTable
end MipsVm
