/-
  GRIDS of cells, read by row and column: one cell written, a window blanked, a window moved up.

  Two grids that show the same through a window show the same after the same change to both (`Same.set`,
  `Same.fill`, `Same.scrollUp`); when one cell is written in the one and another cell in the other, they do so only
  if neither write changed what was seen there (`same_set_set`).
-/
import Mathlib.Data.Nat.Init

/-- Rows and columns of cells. -/
abbrev Grid (α : Type) := Nat → Nat → α

namespace Grid

variable {α : Type} {g g' : Grid α} {w h : Nat}

def set (g : Grid α) (x y : Nat) (a : α) : Grid α := fun y' x' => if y' = y ∧ x' = x then a else g y' x'

/-- `a` in all cells of the window of `w` columns and `h` rows. -/
def fill (g : Grid α) (w h : Nat) (a : α) : Grid α := fun y x => if y < h ∧ x < w then a else g y x

/-- The first `h` rows moved up by `k`, and `a` in `w` columns of the rows that come free. -/
def scrollUp (g : Grid α) (w h k : Nat) (a : α) : Grid α :=
  fun y x => if y + k < h then g (y + k) x else if y < h ∧ x < w then a else g y x

/-- The two grids show the same through the window. -/
def Same (w h : Nat) (g g' : Grid α) : Prop := ∀ y < h, ∀ x < w, g y x = g' y x

@[simp] theorem set_same (g : Grid α) (x y : Nat) (a : α) : set g x y a y x = a := if_pos ⟨rfl, rfl⟩

theorem set_ne {x y x' y' : Nat} (h : ¬(y' = y ∧ x' = x)) (a : α) : set g x y a y' x' = g y' x' := if_neg h

theorem Same.set (hs : Same w h g g') (x y : Nat) (a : α) : Same w h (set g x y a) (set g' x y a) := by
  intro y' hy x' hx
  by_cases heq : y' = y ∧ x' = x
  · rw [Grid.set, Grid.set, if_pos heq, if_pos heq]
  · rw [set_ne heq, set_ne heq]
    exact hs y' hy x' hx

theorem Same.fill (w h : Nat) (g g' : Grid α) (a : α) : Same w h (fill g w h a) (fill g' w h a) := by
  intro y hy x hx
  rw [Grid.fill, Grid.fill, if_pos ⟨hy, hx⟩, if_pos ⟨hy, hx⟩]

theorem Same.scrollUp (hs : Same w h g g') (k : Nat) (a : α) :
    Same w h (scrollUp g w h k a) (scrollUp g' w h k a) := by
  intro y hy x hx
  unfold Grid.scrollUp
  split
  · next hin => exact hs (y + k) hin x hx
  · rw [if_pos ⟨hy, hx⟩, if_pos ⟨hy, hx⟩]

/-- Writing `a` to two different cells of the window. -/
theorem same_set_set (hs : Same w h g g') {x x' y : Nat} (hy : y < h) (hx : x < w) (hx' : x' < w) (hne : x ≠ x')
    (a : α) : Same w h (set g x y a) (set g' x' y a) ↔ g' y x = a ∧ g' y x' = a := by
  constructor
  · intro hsame
    have hat := hsame y hy x hx
    have hat' := hsame y hy x' hx'
    rw [set_same, set_ne (fun h => hne h.2)] at hat
    rw [set_same, set_ne (fun h => hne h.2.symm), hs y hy x' hx'] at hat'
    exact ⟨hat.symm, hat'⟩
  · rintro ⟨hat, hat'⟩ v hv u hu
    by_cases h1 : v = y ∧ u = x
    · obtain ⟨rfl, rfl⟩ := h1
      rw [set_same, set_ne (fun h => hne h.2), hat]
    · by_cases h2 : v = y ∧ u = x'
      · obtain ⟨rfl, rfl⟩ := h2
        rw [set_same, set_ne h1, hs v hv u hu, hat']
      · rw [set_ne h1, set_ne h2]
        exact hs v hv u hu

end Grid
