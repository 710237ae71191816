/-
  BIT TABLES: one bit per index, packed `w` to a word.

  A table is read and written the way bitmap allocators do it — word `i / w`, mask `1 << i % w`,
  OR to set and AND-NOT to clear — and behaves like a set of indices: `test_set`/`test_clear` say
  that an update is seen at its own index and nowhere else, `test_setRange` is the same for the
  loop `for i in a..b`.

  `clearBelow t n` counts the clear bits among the first `n`.  Setting a clear bit takes one away,
  clearing a set bit adds one, and a loop that sets clear bits takes away as many as it has rounds.
-/
import Mathlib.Data.List.Basic
import Mathlib.Logic.Function.Basic

/-- Words of `w` bits by word index. -/
abbrev BitTable (w : Nat) : Type := Nat → BitVec w

namespace BitTable

open List

variable {w : Nat}

/-- All bits set in every word. -/
def full : BitTable w := fun _ => BitVec.allOnes w

/-- The mask of bit `i` inside its word. -/
def mask (w i : Nat) : BitVec w := 1#w <<< (i % w)

/-- `words[i / w] & (1 << i % w) != 0`. -/
def test (t : BitTable w) (i : Nat) : Bool := (t (i / w) &&& mask w i) != 0#w

/-- `words[i / w] |= 1 << i % w`. -/
def set (t : BitTable w) (i : Nat) : BitTable w :=
  Function.update t (i / w) (t (i / w) ||| mask w i)

/-- `words[i / w] &= !(1 << i % w)`. -/
def clear (t : BitTable w) (i : Nat) : BitTable w :=
  Function.update t (i / w) (t (i / w) &&& ~~~(mask w i))

theorem getLsbD_mask (hw : 0 < w) (i j : Nat) : (mask w i).getLsbD j = decide (i % w = j) := by
  have hi : i % w < w := Nat.mod_lt i hw
  simp only [mask]
  by_cases h : i % w = j
  · subst h; simp [hi]
  · by_cases hj : j < i % w
    · simp [hj, h]
    · simp [h, show ¬ (j - i % w = 0) by omega]

theorem test_eq (hw : 0 < w) (t : BitTable w) (i : Nat) :
    test t i = (t (i / w)).getLsbD (i % w) := by
  have hand : ∀ j, (t (i / w) &&& mask w i).getLsbD j
      = ((t (i / w)).getLsbD j && decide (i % w = j)) := by
    intro j; rw [BitVec.getLsbD_and, getLsbD_mask hw]
  rw [test]
  cases hb : (t (i / w)).getLsbD (i % w) with
  | true =>
    rw [bne_iff_ne]
    intro h0
    have h1 := hand (i % w)
    rw [h0] at h1
    simp [hb] at h1
  | false =>
    rw [bne_eq_false_iff_eq]
    apply BitVec.eq_of_getLsbD_eq
    intro j _
    rw [hand, BitVec.getLsbD_zero]
    by_cases hj : i % w = j
    · rw [← hj, hb]; rfl
    · simp [hj]

variable {i : Nat}

/-- Two indices in one word at one position are one index. -/
theorem eq_of_div_mod {j : Nat} (hd : i / w = j / w) (hm : i % w = j % w) : i = j := by
  rw [← Nat.div_add_mod i w, ← Nat.div_add_mod j w, hd, hm]

theorem test_set (hw : 0 < w) (t : BitTable w) (i j : Nat) :
    test (set t i) j = (decide (i = j) || test t j) := by
  rw [test_eq hw, test_eq hw, set]
  by_cases hd : j / w = i / w
  · rw [hd, Function.update_self, BitVec.getLsbD_or, getLsbD_mask hw]
    by_cases hij : i = j
    · simp [hij]
    · have hm : ¬ (i % w = j % w) := fun hm => hij (eq_of_div_mod hd.symm hm)
      simp [hij, hm]
  · rw [Function.update_of_ne hd]
    have hij : i ≠ j := by rintro rfl; exact hd rfl
    simp [hij]

theorem test_clear (hw : 0 < w) (t : BitTable w) (i j : Nat) :
    test (clear t i) j = (!decide (i = j) && test t j) := by
  rw [test_eq hw, test_eq hw, clear]
  have hjw : j % w < w := Nat.mod_lt j hw
  by_cases hd : j / w = i / w
  · rw [hd, Function.update_self, BitVec.getLsbD_and, BitVec.getLsbD_not, getLsbD_mask hw]
    by_cases hij : i = j
    · simp [hij]
    · have hm : ¬ (i % w = j % w) := fun hm => hij (eq_of_div_mod hd.symm hm)
      simp [hij, hm, hjw]
  · rw [Function.update_of_ne hd]
    have hij : i ≠ j := by rintro rfl; exact hd rfl
    simp [hij]

@[simp] theorem test_full (hw : 0 < w) (i : Nat) : test (full : BitTable w) i = true := by
  rw [test_eq hw, full, BitVec.getLsbD_allOnes]
  exact decide_eq_true (Nat.mod_lt i hw)

/-- `for i in a..b { set(i) }`. -/
def setRange (t : BitTable w) (a b : Nat) : BitTable w := (List.range' a (b - a)).foldl set t

theorem test_foldl_set (hw : 0 < w) (l : List Nat) : ∀ (t : BitTable w) (j : Nat),
    test (l.foldl set t) j = (decide (j ∈ l) || test t j) := by
  induction l with
  | nil => simp
  | cons i l ih =>
    intro t j
    rw [foldl_cons, ih, test_set hw]
    by_cases hij : i = j
    · simp [hij]
    · simp [hij, Ne.symm hij]

theorem test_setRange (hw : 0 < w) (t : BitTable w) (a b j : Nat) :
    test (setRange t a b) j = (decide (a ≤ j ∧ j < b) || test t j) := by
  rw [setRange, test_foldl_set hw]
  congr 1
  apply decide_eq_decide.mpr
  rw [mem_range'_1]
  omega

/-! ## Counting -/

/-- The number of clear bits below `n`. -/
def clearBelow (t : BitTable w) (n : Nat) : Nat := (List.range n).countP fun i => !t.test i

theorem clearBelow_le (t : BitTable w) (n : Nat) : t.clearBelow n ≤ n := by
  have hle : t.clearBelow n ≤ (range n).length := countP_le_length
  rw [length_range] at hle
  exact hle

@[simp] theorem clearBelow_full (hw : 0 < w) (n : Nat) : (full : BitTable w).clearBelow n = 0 := by
  rw [clearBelow, countP_eq_zero]
  intro i _
  simp [test_full hw i]

variable {n : Nat}

/-- Two tests that differ at one index count one more or less. -/
theorem countP_range_flip {f g : Nat → Bool} (hf : f i = false) (hg : g i = true)
    (hne : ∀ j, j ≠ i → f j = g j) (hi : i < n) : (List.range n).countP g = (List.range n).countP f + 1 := by
  induction n with
  | zero => omega
  | succ n ih =>
    rw [range_succ, countP_append, countP_append, countP_singleton,
      countP_singleton]
    by_cases hn : n = i
    · -- below the index the two tests agree
      have heq : (range n).countP g = (range n).countP f := by
        refine countP_congr fun j hj => ?_
        rw [hne j (by rw [mem_range] at hj; omega)]
      rw [heq, hn, hf, hg]
      rfl
    · rw [hne n hn]
      omega

variable {t : BitTable w}

theorem clearBelow_set (hw : 0 < w) (hi : i < n) (hclear : t.test i = false) :
    t.clearBelow n = (t.set i).clearBelow n + 1 := by
  refine countP_range_flip ?_ ?_ (fun j hj => ?_) hi
  · rw [test_set hw]; simp
  · rw [hclear]; rfl
  · rw [test_set hw, decide_eq_false (Ne.symm hj), Bool.false_or]

theorem clearBelow_clear (hw : 0 < w) (hi : i < n) (hset : t.test i = true) :
    (t.clear i).clearBelow n = t.clearBelow n + 1 := by
  refine countP_range_flip ?_ ?_ (fun j hj => ?_) hi
  · rw [hset]; rfl
  · rw [test_clear hw]; simp
  · rw [test_clear hw, decide_eq_false (Ne.symm hj), Bool.not_false, Bool.true_and]

/-- A loop that sets clear bits. -/
theorem clearBelow_foldl_set (hw : 0 < w) (l : List Nat) : ∀ t : BitTable w, l.Nodup →
    (∀ i ∈ l, i < n ∧ t.test i = false) →
    t.clearBelow n = (l.foldl set t).clearBelow n + l.length := by
  induction l with
  | nil => exact fun _ _ _ => rfl
  | cons i l ih =>
    intro t hnodup hall
    obtain ⟨hi, hl⟩ := nodup_cons.mp hnodup
    obtain ⟨hlt, hclear⟩ := hall i mem_cons_self
    have hrest : ∀ j ∈ l, j < n ∧ (t.set i).test j = false := by
      intro j hj
      obtain ⟨hjn, hjt⟩ := hall j (mem_cons_of_mem i hj)
      have hij : i ≠ j := by rintro rfl; exact hi hj
      rw [test_set hw, hjt, decide_eq_false hij]
      exact ⟨hjn, rfl⟩
    rw [clearBelow_set hw hlt hclear, ih _ hl hrest, foldl_cons, length_cons]
    omega

theorem clearBelow_setRange (hw : 0 < w) {a count : Nat} (hn : a + count ≤ n)
    (hclear : ∀ j, a ≤ j → j < a + count → t.test j = false) :
    t.clearBelow n = (t.setRange a (a + count)).clearBelow n + count := by
  have hcount := clearBelow_foldl_set hw (n := n) _ t nodup_range' (by
    intro i hi
    rw [mem_range'_1] at hi
    exact ⟨by omega, hclear i hi.1 hi.2⟩)
  rw [length_range'] at hcount
  rw [setRange, Nat.add_sub_cancel_left]
  exact hcount

end BitTable
