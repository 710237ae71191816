/-
  TEXT: white space, and what `trim` leaves of a string.

  A string is white space, then what `trim` leaves, then white space again (`exists_trim`); white space put
  before or behind a string is not seen after trimming (`trim_append_left`, `trim_append_right`).
-/
import Mathlib.Data.List.TakeWhile
import Saios.Lib.Path

namespace Text

open List

/-- The Unicode `White_Space` characters. -/
def isWhite (c : Char) : Bool :=
  let v := c.toNat
  decide (9 ≤ v ∧ v ≤ 13) || v == 0x20 || v == 0x85 || v == 0xA0 || v == 0x1680 ||
    decide (0x2000 ≤ v ∧ v ≤ 0x200A) || v == 0x2028 || v == 0x2029 || v == 0x202F || v == 0x205F ||
    v == 0x3000

def trim (s : Str) : Str := ((s.dropWhile isWhite).reverse.dropWhile isWhite).reverse

/-- Nothing but white space. -/
def Blank (s : Str) : Prop := ∀ c ∈ s, isWhite c = true

variable {s : Str}

theorem dropWhile_append_blank {ws : Str} (h : Blank ws) :
    (ws ++ s).dropWhile isWhite = s.dropWhile isWhite := by
  induction ws with
  | nil => rfl
  | cons c ws ih =>
    rw [cons_append, dropWhile_cons, if_pos (h c mem_cons_self)]
    exact ih fun d hd => h d (mem_cons_of_mem _ hd)

theorem trim_append_left {ws : Str} (h : Blank ws) (s : Str) : trim (ws ++ s) = trim s := by
  rw [trim, dropWhile_append_blank h, trim]

theorem dropWhile_blank (h : Blank s) : s.dropWhile isWhite = [] := dropWhile_eq_nil_iff.mpr h

theorem Blank.reverse (h : Blank s) : Blank s.reverse := fun c hc => h c (mem_reverse.mp hc)

theorem trim_blank (h : Blank s) : trim s = [] := by
  rw [trim, dropWhile_blank h]; rfl

theorem trim_append_right {ws : Str} (h : Blank ws) (s : Str) : trim (s ++ ws) = trim s := by
  by_cases hs : Blank s
  · have hall : Blank (s ++ ws) := fun c hc => (mem_append.mp hc).elim (hs c) (h c)
    rw [trim_blank hall, trim_blank hs]
  · obtain ⟨c, hc, hwhite⟩ : ∃ c ∈ s, isWhite c ≠ true := by
      unfold Blank at hs
      push Not at hs
      exact hs
    have hdrop : (s ++ ws).dropWhile isWhite = s.dropWhile isWhite ++ ws := by
      rw [dropWhile_append, if_neg]
      intro hnil
      rw [List.isEmpty_iff] at hnil
      exact hwhite (dropWhile_eq_nil_iff.mp hnil c hc)
    rw [trim, hdrop, reverse_append, dropWhile_append_blank h.reverse, trim]

/-- A string is white space around what `trim` leaves. -/
theorem exists_trim (s : Str) : ∃ l r, Blank l ∧ Blank r ∧ s = l ++ trim s ++ r := by
  have hwhite : ∀ t : Str, Blank (t.takeWhile isWhite) := fun t c hc => mem_takeWhile_imp hc
  refine ⟨s.takeWhile isWhite, (((s.dropWhile isWhite).reverse).takeWhile isWhite).reverse, hwhite s,
    (hwhite _).reverse, ?_⟩
  have hend : s.dropWhile isWhite = trim s ++ (((s.dropWhile isWhite).reverse).takeWhile isWhite).reverse := by
    rw [trim, ← reverse_append, takeWhile_append_dropWhile, reverse_reverse]
  rw [append_assoc, ← hend, takeWhile_append_dropWhile]

theorem trim_eq_nil : trim s = [] ↔ Blank s := by
  refine ⟨fun h => ?_, trim_blank⟩
  obtain ⟨l, r, hl, hr, hs⟩ := exists_trim s
  rw [h, append_nil] at hs
  rw [hs]
  exact fun c hc => (mem_append.mp hc).elim (hl c) (hr c)

/-- A string with no white space at its ends is left as it is. -/
theorem trim_eq_self (hhead : ∀ c, s.head? = some c → isWhite c = false)
    (hlast : ∀ c, s.getLast? = some c → isWhite c = false) : trim s = s := by
  have hdrop : ∀ {t : Str}, (∀ c, t.head? = some c → isWhite c = false) → t.dropWhile isWhite = t := by
    intro t ht
    cases t with
    | nil => rfl
    | cons c t => rw [dropWhile_cons, if_neg (by rw [ht c rfl]; decide)]
  have hback : s.reverse.dropWhile isWhite = s.reverse := by
    refine hdrop fun c hc => hlast c ?_
    rw [head?_reverse] at hc
    exact hc
  rw [trim, hdrop hhead, hback, reverse_reverse]

end Text
