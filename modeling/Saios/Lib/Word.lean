/-
  Machine-word arithmetic on `Nat`.

  A `u64`/`usize` value is a `Nat` below `2^64`; the operations that can leave that range are
  spelled out: `wadd`/`wsub` wrap (a release build), `sadd`/`smul` saturate.  Masks that clear the
  low `k` bits of a word are division: `x &&& (2^n - 2^k) = x / 2^k * 2^k`, which turns every
  alignment computation into linear arithmetic that `omega` closes.
-/
import Mathlib.Data.Nat.Bitwise

namespace Word

/-- One past the largest 64-bit value. -/
def size : Nat := 2 ^ 64

/-- `u64::MAX`. -/
def max : Nat := size - 1

/-- Wrapping addition. -/
def wadd (a b : Nat) : Nat := (a + b) % size

/-- Wrapping subtraction. -/
def wsub (a b : Nat) : Nat := (a + size - b) % size

/-- `saturating_add`. -/
def sadd (a b : Nat) : Nat := min (a + b) max

/-- `saturating_mul`. -/
def smul (a b : Nat) : Nat := min (a * b) max

variable {a b : Nat}

theorem wadd_eq (h : a + b < size) : wadd a b = a + b := Nat.mod_eq_of_lt h

theorem wsub_eq (h : b ≤ a) (ha : a < size) : wsub a b = a - b := by
  unfold wsub size at *
  omega

theorem sadd_eq (h : a + b < size) : sadd a b = a + b := by
  unfold sadd max
  omega

theorem smul_eq (h : a * b < size) : smul a b = a * b := by
  unfold smul max
  omega

variable {k : Nat}

/-- Clearing the low `k` bits of an `n`-bit word is rounding down to a multiple of `2^k`. -/
theorem land_clear_low {x n : Nat} (hkn : k ≤ n) (hx : x < 2 ^ n) :
    x &&& (2 ^ n - 2 ^ k) = x / 2 ^ k * 2 ^ k := by
  have hmask : 2 ^ n - 2 ^ k = (2 ^ (n - k) - 1) * 2 ^ k := by
    rw [Nat.sub_mul, Nat.one_mul, ← Nat.pow_add, Nat.sub_add_cancel hkn]
  apply Nat.eq_of_testBit_eq
  intro i
  rw [hmask, Nat.testBit_and, Nat.testBit_mul_two_pow, Nat.testBit_mul_two_pow, Nat.testBit_div_two_pow]
  by_cases hki : k ≤ i
  · rw [Nat.sub_add_cancel hki]
    by_cases hin : i < n
    · simp [hki, show i - k < n - k by omega]
    · have hxi : x.testBit i = false :=
        Nat.testBit_lt_two_pow (lt_of_lt_of_le hx (Nat.pow_le_pow_right (by omega) (by omega)))
      simp [hxi]
  · simp [hki]

/-- `value & !(align - 1)` on 64-bit words, for a power-of-two `align`. -/
def alignDown (value align : Nat) : Nat := value &&& (size - align)

/-- `(value + align - 1) & !(align - 1)` on 64-bit words; the addition wraps. -/
def alignUp (value align : Nat) : Nat := alignDown (wadd value (align - 1)) align

variable {value : Nat}

theorem alignDown_eq (hk : k ≤ 64) (h : value < size) :
    alignDown value (2 ^ k) = value / 2 ^ k * 2 ^ k := land_clear_low hk h

theorem alignUp_eq (hk : k ≤ 64) (h : value + (2 ^ k - 1) < size) :
    alignUp value (2 ^ k) = (value + (2 ^ k - 1)) / 2 ^ k * 2 ^ k := by
  rw [alignUp, wadd_eq h, alignDown_eq hk h]

/-- Rounding up does not go below the value ... -/
theorem le_alignUp (hk : k ≤ 64) (h : value + (2 ^ k - 1) < size) : value ≤ alignUp value (2 ^ k) := by
  rw [alignUp_eq hk h]
  have hdiv := Nat.div_add_mod' (value + (2 ^ k - 1)) (2 ^ k)
  omega

/-- Rounding up in the last `2^k` words of the address space wraps to zero. -/
theorem alignUp_wraps (hk : k ≤ 64) (hv : value < size) (h : size ≤ value + (2 ^ k - 1)) :
    alignUp value (2 ^ k) = 0 := by
  obtain ⟨low, hlow⟩ := Nat.exists_eq_add_of_le h
  have hsmall : low < 2 ^ k := by omega
  have hfits : 2 ^ k ≤ size := Nat.pow_le_pow_right (by decide) hk
  have hwrap : wadd value (2 ^ k - 1) = low := by
    rw [wadd, hlow, Nat.add_mod_left]
    exact Nat.mod_eq_of_lt (Nat.lt_of_lt_of_le hsmall hfits)
  rw [alignUp, hwrap, alignDown_eq hk (Nat.lt_of_lt_of_le hsmall hfits), Nat.div_eq_of_lt hsmall, Nat.zero_mul]

end Word
