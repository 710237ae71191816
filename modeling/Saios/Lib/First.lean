/-
  THE FIRST ELEMENT of a list that satisfies a test: changing it in place.

  `List.find?` finds it and `List.eraseP` removes it; `List.modifyFirst` changes it.  The lemmas say
  what each of the two does to a later `find?`, and that everything in front of and behind the element
  stays.
-/
import Mathlib.Data.List.Basic
import Mathlib.Data.List.Find

namespace List

variable {α β : Type*} {p q : α → Bool} {f : α → α} {l : List α}

/-- `f` on the first element that `p` holds of. -/
def modifyFirst (p : α → Bool) (f : α → α) : List α → List α
  | [] => []
  | a :: l => if p a then f a :: l else a :: modifyFirst p f l

theorem modifyFirst_cons (a : α) (l : List α) :
    modifyFirst p f (a :: l) = if p a then f a :: l else a :: modifyFirst p f l := rfl

/-- The list around the element. -/
theorem modifyFirst_append_cons {l1 l2 : List α} {a : α} (h1 : ∀ b ∈ l1, p b = false) (ha : p a = true) :
    modifyFirst p f (l1 ++ a :: l2) = l1 ++ f a :: l2 := by
  induction l1 with
  | nil => rw [nil_append, nil_append, modifyFirst_cons, if_pos ha]
  | cons b l1 ih =>
    rw [cons_append, modifyFirst_cons, h1 b mem_cons_self]
    simp only [Bool.false_eq_true, if_false]
    rw [ih fun c hc => h1 c (mem_cons_of_mem _ hc), cons_append]

/-- When the test holds of one element at most, changing the first is changing all. -/
theorem modifyFirst_eq_map (h : l.Pairwise fun a b => p a = true → p b = false) :
    modifyFirst p f l = l.map fun a => if p a then f a else a := by
  induction l with
  | nil => rfl
  | cons a l ih =>
    obtain ⟨ha, hl⟩ := pairwise_cons.mp h
    rw [modifyFirst_cons, map_cons]
    split
    · rename_i hpa
      have hrest : (l.map fun b => if p b then f b else b) = l := by
        refine (map_congr_left fun b hb => ?_).trans (map_id l)
        rw [ha b hb hpa]; rfl
      rw [hrest]
    · rw [ih hl]

/-- Where `find?` finds it. -/
theorem find?_split {a : α} (h : l.find? p = some a) :
    p a = true ∧ ∃ l1 l2, l = l1 ++ a :: l2 ∧ ∀ b ∈ l1, p b = false := by
  obtain ⟨ha, l1, l2, hl, hb⟩ := find?_eq_some_iff_append.mp h
  exact ⟨ha, l1, l2, hl, fun b hmem => by simpa using hb b hmem⟩

/-- `find?` and then `eraseP`: the element goes, what stands around it stays. -/
theorem eraseP_of_find? {a : α} (h : l.find? p = some a) :
    ∃ l1 l2, l = l1 ++ a :: l2 ∧ l.eraseP p = l1 ++ l2 := by
  obtain ⟨ha, l1, l2, rfl, hbefore⟩ := find?_split h
  refine ⟨l1, l2, rfl, ?_⟩
  rw [eraseP_append_right _ (fun b hb => by simp [hbefore b hb]), eraseP_cons_of_pos ha]

/-- A property that `f` keeps is the same after the change. -/
theorem map_modifyFirst {g : α → β} (h : ∀ a, p a = true → g (f a) = g a) :
    (modifyFirst p f l).map g = l.map g := by
  induction l with
  | nil => rfl
  | cons a l ih =>
    rw [modifyFirst_cons]
    split
    · rename_i ha
      rw [map_cons, map_cons, h a ha]
    · rw [map_cons, map_cons, ih]

theorem mem_modifyFirst {b : α} (h : b ∈ modifyFirst p f l) :
    b ∈ l ∨ ∃ a ∈ l, p a = true ∧ b = f a := by
  induction l with
  | nil => cases h
  | cons a l ih =>
    rw [modifyFirst_cons] at h
    split at h
    · rename_i ha
      rcases mem_cons.mp h with rfl | h
      · exact .inr ⟨a, mem_cons_self, ha, rfl⟩
      · exact .inl (mem_cons_of_mem _ h)
    · rcases mem_cons.mp h with rfl | h
      · exact .inl mem_cons_self
      · rcases ih h with h | ⟨c, hc, hpc, heq⟩
        · exact .inl (mem_cons_of_mem _ h)
        · exact .inr ⟨c, mem_cons_of_mem _ hc, hpc, heq⟩

/-- A test that looks past what `f` changes finds the same place: the element it finds is `f` of the
    old one when the change hit it. -/
theorem find?_modifyFirst_of_disjoint (hq : ∀ a, p a = true → q a = false ∧ q (f a) = false) :
    (modifyFirst p f l).find? q = l.find? q := by
  induction l with
  | nil => rfl
  | cons a l ih =>
    rw [modifyFirst_cons]
    split
    · rename_i ha
      rw [find?_cons_of_neg (by rw [(hq a ha).2]; decide),
        find?_cons_of_neg (by rw [(hq a ha).1]; decide)]
    · cases hqa : q a with
      | true => rw [find?_cons_of_pos hqa, find?_cons_of_pos hqa]
      | false =>
        rw [find?_cons_of_neg (by rw [hqa]; decide), find?_cons_of_neg (by rw [hqa]; decide), ih]

/-- Removing an element that another test does not look for. -/
theorem find?_eraseP_of_disjoint (hq : ∀ a, p a = true → q a = false) :
    (l.eraseP p).find? q = l.find? q := by
  rcases exists_or_eq_self_of_eraseP p l with h | ⟨a, l1, l2, -, ha, hl, h⟩
  · rw [h]
  · rw [h, hl, find?_append, find?_append, find?_cons_of_neg (by rw [hq a ha]; decide)]

theorem find?_modifyFirst_self (hf : ∀ a, p a = true → p (f a) = true) :
    (modifyFirst p f l).find? p = (l.find? p).map f := by
  induction l with
  | nil => rfl
  | cons a l ih =>
    rw [modifyFirst_cons]
    split
    · rename_i ha
      rw [find?_cons_of_pos (hf a ha), find?_cons_of_pos ha]; rfl
    · rename_i ha
      rw [find?_cons_of_neg ha, find?_cons_of_neg ha, ih]

/-- Two tests that find the same element: changing it for one changes it for the other. -/
theorem find?_modifyFirst_same {a : α} (hp : l.find? p = some a) (hq : l.find? q = some a) (hf : q (f a) = true) :
    (modifyFirst p f l).find? q = some (f a) := by
  obtain ⟨ha, l1, l2, rfl, hbefore⟩ := find?_split hp
  have hnone : l1.find? q = none := by
    cases hfirst : l1.find? q with
    | none => rfl
    | some b =>
      rw [find?_append, hfirst] at hq
      obtain rfl : b = a := Option.some.inj hq
      rw [hbefore b (mem_of_find?_eq_some hfirst)] at ha
      cases ha
  rw [modifyFirst_append_cons hbefore ha, find?_append, hnone, Option.none_or, find?_cons_of_pos hf]

end List
