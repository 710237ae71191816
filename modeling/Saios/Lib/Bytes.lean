/-
  BYTES: little-endian numbers, UTF-8 and patches of a byte string.

  `leBytes w n` writes the low `w` bytes of `n`, `leNat` reads them back; what does not fit is cut
  off, so the round trip holds for `n < 256 ^ w` and a reader of a too narrow field sees `n` modulo
  `256 ^ w` (`leNat_leBytes`).  UTF-8 is the core library's; only the round trip is restated for byte
  lists (`fromUtf8_eq_some`).
-/
import Mathlib.Data.Nat.Bitwise
import Saios.Lib.Path

namespace Bytes

open List

/-! ## Little-endian numbers -/

/-- The low `w` bytes of `n`, lowest first. -/
def leBytes : Nat → Nat → List UInt8
  | 0, _ => []
  | w + 1, n => UInt8.ofNat n :: leBytes w (n / 256)

def leNat : List UInt8 → Nat
  | [] => 0
  | b :: bs => b.toNat + 256 * leNat bs

/-- The `w`-byte number at offset `start`, when it is inside. -/
def leAt (w : Nat) (bytes : List UInt8) (start : Nat) : Option Nat :=
  if start + w ≤ bytes.length then some (leNat ((bytes.drop start).take w)) else none

@[simp] theorem length_leBytes (w n : Nat) : (leBytes w n).length = w := by
  induction w generalizing n with
  | zero => rfl
  | succ w ih => rw [leBytes, length_cons, ih]

/-- Reading back sees the number modulo the width. -/
theorem leNat_leBytes (w n : Nat) : leNat (leBytes w n) = n % 256 ^ w := by
  induction w generalizing n with
  | zero => rw [leBytes, leNat, Nat.pow_zero, Nat.mod_one]
  | succ w ih =>
    have hbyte : (UInt8.ofNat n).toNat = n % 256 := UInt8.toNat_ofNat'
    rw [leBytes, leNat, ih, hbyte, Nat.pow_succ', Nat.mod_mul]

/-- Writing back gives the bytes. -/
theorem leBytes_leNat (bs : List UInt8) : leBytes bs.length (leNat bs) = bs := by
  induction bs with
  | nil => rfl
  | cons b bs ih =>
    have hb : b.toNat < 256 := b.toNat_lt
    have hdiv : (b.toNat + 256 * leNat bs) / 256 = leNat bs := by omega
    have hbyte : UInt8.ofNat (b.toNat + 256 * leNat bs) = b := by
      rw [← UInt8.toNat_inj, UInt8.toNat_ofNat']
      omega
    rw [length_cons, leBytes, leNat, hdiv, ih, hbyte]

theorem leNat_lt (bs : List UInt8) : leNat bs < 256 ^ bs.length := by
  rw [← Nat.mod_eq_iff_lt (Nat.pow_pos (by decide)).ne', ← leNat_leBytes, leBytes_leNat]

variable {bytes : List UInt8}

/-- **A number at the front** is its bytes at the front. -/
theorem leAt_eq_some {w n : Nat} :
    leAt w bytes 0 = some n ↔ n < 256 ^ w ∧ bytes = leBytes w n ++ bytes.drop w := by
  unfold leAt
  rw [Nat.zero_add, drop_zero]
  constructor
  · intro h
    split at h
    · next hle =>
      obtain rfl := Option.some.inj h
      have hlen : (bytes.take w).length = w := length_take_of_le hle
      have hback := leBytes_leNat (bytes.take w)
      have hlt := leNat_lt (bytes.take w)
      rw [hlen] at hback hlt
      exact ⟨hlt, by rw [hback, take_append_drop]⟩
    · cases h
  · rintro ⟨hlt, hbytes⟩
    have hlen := length_leBytes w n
    rw [hbytes, if_pos (by rw [length_append]; omega), take_left' hlen, leNat_leBytes,
      Nat.mod_eq_of_lt hlt]

/-! ## Patches -/

/-- `bytes` with `new` written over it from offset `start`. -/
def patch (start : Nat) (new bytes : List UInt8) : List UInt8 :=
  bytes.take start ++ new ++ bytes.drop (start + new.length)

variable {start : Nat} {new : List UInt8}

section

variable (h : start + new.length ≤ bytes.length)

include h

theorem length_patch :
    (patch start new bytes).length = bytes.length := by
  rw [patch, length_append, length_append, length_take, length_drop]
  omega

/-- What was written can be read back ... -/
theorem slice_patch :
    ((patch start new bytes).drop start).take new.length = new := by
  have htake : (bytes.take start).length = start := by rw [length_take]; omega
  rw [patch, append_assoc, drop_left' htake, take_left]

/-- ... and a byte in front of it or behind it is as it was, ... -/
theorem getElem?_patch_of_disjoint {k : Nat} (hk : k < start ∨ start + new.length ≤ k) :
    (patch start new bytes)[k]? = bytes[k]? := by
  have htake : (bytes.take start).length = start := by rw [length_take]; omega
  rw [patch, append_assoc]
  rcases hk with hk | hk
  · rw [getElem?_append_left (by omega), getElem?_take_of_lt hk]
  · rw [getElem?_append_right (by omega), getElem?_append_right (by omega), getElem?_drop]
    congr 1
    omega

/-- ... and so is a slice that ends before it or starts behind it. -/
theorem slice_patch_of_disjoint {from_ len : Nat} (hdis : from_ + len ≤ start ∨ start + new.length ≤ from_) :
    ((patch start new bytes).drop from_).take len = (bytes.drop from_).take len := by
  apply ext_getElem?
  intro i
  rw [getElem?_take, getElem?_take]
  split
  · rw [getElem?_drop, getElem?_drop, getElem?_patch_of_disjoint h (by omega)]
  · rfl

end

/-- A patch right behind a patch is one patch. -/
theorem patch_patch {more : List UInt8} (h : start + new.length + more.length ≤ bytes.length) :
    patch (start + new.length) more (patch start new bytes) = patch start (new ++ more) bytes := by
  have htake : (bytes.take start ++ new).length = start + new.length := by
    rw [length_append, length_take]; omega
  unfold patch
  rw [take_left' htake, drop_append, drop_eq_nil_of_le (by omega), htake,
    nil_append, drop_drop, length_append, append_assoc _ new more]
  congr 2
  omega

/-- Writing what is already there. -/
theorem patch_slice {len : Nat} (h : start + len ≤ bytes.length) :
    patch start ((bytes.drop start).take len) bytes = bytes := by
  have hlen : ((bytes.drop start).take len).length = len := by
    rw [length_take, length_drop]; omega
  rw [patch, hlen, append_assoc, ← drop_drop, take_append_drop, take_append_drop]

/-- `bytes` cut to, or filled with zeros to, length `n`. -/
def fit (n : Nat) (bytes : List UInt8) : List UInt8 :=
  bytes.take n ++ List.replicate (n - bytes.length) 0

@[simp] theorem length_fit (n : Nat) (bytes : List UInt8) : (fit n bytes).length = n := by
  rw [fit, length_append, length_take, length_replicate]; omega

/-- Fitting in two pieces. -/
theorem fit_add (a b : Nat) (bytes : List UInt8) :
    fit (a + b) bytes = fit a bytes ++ fit b (bytes.drop a) := by
  unfold fit
  rw [take_add, length_drop]
  rcases Nat.le_total a bytes.length with hle | hle
  · rw [Nat.sub_eq_zero_of_le hle, replicate_zero, append_nil, append_assoc]
    congr 3
    omega
  · rw [drop_eq_nil_of_le hle, take_nil, append_nil, nil_append,
      append_assoc, replicate_append_replicate]
    congr 2
    omega

/-! ## Text -/

/-- The UTF-8 bytes of a string. -/
def utf8 (s : Str) : List UInt8 := s.flatMap String.utf8EncodeChar

/-- `core::str::from_utf8`: the string, or `none` for bytes that are not UTF-8. -/
def fromUtf8 (bytes : List UInt8) : Option Str := bytes.toByteArray.utf8Decode?.map Array.toList

theorem fromUtf8_utf8 (s : Str) : fromUtf8 (utf8 s) = some s := by
  have h := utf8Decode?_utf8Encode (l := s)
  rw [utf8Encode] at h
  rw [fromUtf8, utf8, h]; rfl

theorem fromUtf8_eq_some {s : Str} : fromUtf8 bytes = some s ↔ bytes = utf8 s := by
  refine ⟨fun h => ?_, fun h => by rw [h, fromUtf8_utf8]⟩
  obtain ⟨chars, hchars, rfl⟩ := Option.map_eq_some_iff.mp h
  obtain ⟨cs, hcs⟩ := ByteArray.isSome_utf8Decode?_iff.mp (Option.isSome_iff_exists.mpr ⟨chars, hchars⟩)
  rw [hcs, utf8Decode?_utf8Encode] at hchars
  obtain rfl := Option.some.inj hchars
  exact toByteArray_inj.mp hcs

end Bytes
