/-
  KEYED TABLES: lists whose elements have pairwise different keys.

  `get` reads such a list as a map from keys to elements.  The lemmas say what the ways a program
  changes the list do to the map: changing the element with a key (`get_change`), appending one with a
  new key (`get_append`), dropping those with a key (`get_drop`).  A program that changes the FIRST
  element a test finds changes the element with that element's key (`modifyFirst_eq_change`).
-/
import Saios.Lib.First
import Mathlib.Data.List.Nodup

namespace Keyed

open List

variable {α κ : Type*} {k : α → κ} {l : List α} {a b : α} {key : κ}

/-- The element with the key. -/
def get [BEq κ] (k : α → κ) (l : List α) (key : κ) : Option α := l.find? fun a => k a == key

/-- `f` on the elements with the key. -/
def change [DecidableEq κ] (k : α → κ) (key : κ) (f : α → α) (l : List α) : List α :=
  l.map fun a => if k a = key then f a else a

/-- No two elements have the same key. -/
def Distinct (k : α → κ) (l : List α) : Prop := (l.map k).Nodup

theorem Distinct.eq (h : Distinct k l) (ha : a ∈ l) (hb : b ∈ l) (hk : k a = k b) : a = b :=
  inj_on_of_nodup_map h ha hb hk

theorem Distinct.filter (h : Distinct k l) (p : α → Bool) : Distinct k (l.filter p) :=
  (filter_sublist.map k).nodup h

/-! ## Reading -/

section reading

variable [BEq κ] [LawfulBEq κ]

theorem get_none : get k l key = none ↔ ∀ a ∈ l, k a ≠ key := by
  rw [get]
  simp

theorem mem_of_get (h : get k l key = some a) : a ∈ l ∧ k a = key :=
  ⟨mem_of_find?_eq_some h, by simpa using find?_some h⟩

/-- **Reading gives the element of the list with the key.** -/
theorem Distinct.get_iff (h : Distinct k l) : get k l key = some a ↔ a ∈ l ∧ k a = key := by
  constructor
  · exact mem_of_get
  · rintro ⟨ha, rfl⟩
    cases hg : get k l (k a) with
    | none => exact absurd rfl (get_none.mp hg a ha)
    | some b =>
      obtain ⟨hb, hk⟩ := mem_of_get hg
      rw [h.eq hb ha hk]

theorem Distinct.append (h : Distinct k l) (hnew : get k l (k a) = none) : Distinct k (l ++ [a]) := by
  rw [Distinct, map_append, nodup_append]
  refine ⟨h, nodup_singleton _, fun x hx y hy heq => ?_⟩
  obtain ⟨b, hb, rfl⟩ := List.mem_map.mp hx
  rw [map_singleton, mem_singleton] at hy
  exact get_none.mp hnew b hb (heq.trans hy)

end reading

/-! ## Changes -/

variable {f : α → α}

section changes

variable [DecidableEq κ]

/-- Changing the element with a key changes one place of the list. -/
theorem Distinct.change_append_cons {l1 l2 : List α} (h : Distinct k (l1 ++ a :: l2)) (f : α → α) :
    Keyed.change k (k a) f (l1 ++ a :: l2) = l1 ++ f a :: l2 := by
  have hne : ∀ b, b ∈ l1 ∨ b ∈ l2 → k b ≠ k a := by
    have hnodup : (l1.map k ++ k a :: l2.map k).Nodup := by
      have h' := h
      rwa [Distinct, map_append] at h'
    obtain ⟨-, hback, hcross⟩ := nodup_append.mp hnodup
    rintro b (hb | hb) heq
    · exact hcross (k b) (List.mem_map_of_mem hb) (k a) mem_cons_self heq
    · exact (nodup_cons.mp hback).1 (heq ▸ List.mem_map_of_mem hb)
  have hsame : ∀ l' : List α, (∀ b ∈ l', k b ≠ k a) → Keyed.change k (k a) f l' = l' := by
    intro l' hl'
    refine (map_congr_left fun b hb => ?_).trans (List.map_id l')
    rw [if_neg (hl' b hb)]; rfl
  have hfront := hsame l1 fun b hb => hne b (Or.inl hb)
  have hback := hsame l2 fun b hb => hne b (Or.inr hb)
  unfold Keyed.change at hfront hback ⊢
  rw [map_append, map_cons, if_pos rfl, hfront, hback]

/-- The first element a test finds is the one with its key. -/
theorem Distinct.modifyFirst_eq_change (h : Distinct k l) {p : α → Bool} (hp : l.find? p = some a)
    (f : α → α) : l.modifyFirst p f = change k (k a) f l := by
  obtain ⟨hpa, l1, l2, rfl, hbefore⟩ := find?_split hp
  rw [modifyFirst_append_cons hbefore hpa, h.change_append_cons]

theorem mem_change (h : b ∈ change k key f l) : (b ∈ l ∧ k b ≠ key) ∨ ∃ a ∈ l, k a = key ∧ b = f a := by
  obtain ⟨a, ha, rfl⟩ := List.mem_map.mp h
  split
  · exact .inr ⟨a, ha, ‹_›, rfl⟩
  · exact .inl ⟨ha, ‹_›⟩

/-- Only what `f` does to the one element with the key counts. -/
theorem Distinct.change_congr (h : Distinct k l) (ha : a ∈ l) {g : α → α} (hfg : f a = g a) :
    change k (k a) f l = change k (k a) g l := by
  refine map_congr_left fun b hb => ?_
  split
  · rw [h.eq hb ha ‹_›, hfg]
  · rfl

theorem Distinct.change_self (h : Distinct k l) (ha : a ∈ l) (hf : f a = a) : change k (k a) f l = l := by
  rw [h.change_congr ha (g := id) hf]
  refine (map_congr_left fun b _ => ?_).trans (List.map_id l)
  exact ite_self _

theorem keys_change (hf : ∀ a, k (f a) = k a) : (change k key f l).map k = l.map k := by
  rw [change, List.map_map]
  refine map_congr_left fun a _ => ?_
  rw [Function.comp_apply]
  split
  · exact hf a
  · rfl

theorem Distinct.change (hf : ∀ a, k (f a) = k a) (h : Distinct k l) : Distinct k (change k key f l) := by
  rw [Distinct, keys_change hf]; exact h

variable [BEq κ] [LawfulBEq κ]

theorem get_change (hf : ∀ a, k (f a) = k a) (key' : κ) :
    get k (change k key f l) key' = if key' = key then (get k l key').map f else get k l key' := by
  induction l with
  | nil => split <;> rfl
  | cons a l ih =>
    have hkey : k (if k a = key then f a else a) = k a := by
      split
      · exact hf a
      · rfl
    unfold get Keyed.change at ih ⊢
    rw [map_cons]
    by_cases ha : k a = key'
    · rw [find?_cons_of_pos (by rw [hkey, ha, beq_self_eq_true]),
        find?_cons_of_pos (by rw [ha, beq_self_eq_true]), ha]
      split <;> rfl
    · rw [find?_cons_of_neg (by rw [hkey, beq_iff_eq]; exact ha),
        find?_cons_of_neg (by rw [beq_iff_eq]; exact ha), ih]

theorem get_append (hnew : get k l (k a) = none) (key : κ) :
    get k (l ++ [a]) key = if key = k a then some a else get k l key := by
  rw [get, find?_append]
  split
  · rename_i hkey
    subst hkey
    rw [show (l.find? fun b => k b == k a) = none from hnew, Option.none_or,
      find?_cons_of_pos (by rw [beq_self_eq_true])]
  · rename_i hkey
    rw [find?_cons_of_neg (by rw [beq_iff_eq]; exact fun h => hkey h.symm), find?_nil,
      Option.or_none]
    rfl

theorem get_drop (key key' : κ) :
    get k (l.filter fun a => !(k a == key)) key' = if key' = key then none else get k l key' := by
  rw [get, find?_filter]
  split
  · rename_i hkey
    subst hkey
    simp
  · rename_i hkey
    refine find?_congr fun a _ => ?_
    by_cases ha : k a = key'
    · simp [ha, hkey]
    · simp [ha]

end changes

end Keyed
