import Mathlib.Data.Nat.Digits.Lemmas
import Mathlib.Data.Nat.Bitwise

/-!
# Little-endian byte strings

* `value bs`      the number a byte string stands for, least significant byte first
* `digits n`      the shortest byte string of `n`: no zero byte at its end, empty for `0`
* `fixed w n`     the `w` low bytes of `n`

and the bit tests on the last byte that a sign-and-magnitude encoding makes.
-/

namespace LittleEndian

def value (bs : List UInt8) : Nat := Nat.ofDigits 256 (bs.map UInt8.toNat)

def digits (n : Nat) : List UInt8 := (Nat.digits 256 n).map UInt8.ofNat

def fixed : Nat → Nat → List UInt8
  | 0, _ => []
  | w + 1, n => UInt8.ofNat n :: fixed w (n / 256)

theorem value_cons (b : UInt8) (bs : List UInt8) : value (b :: bs) = b.toNat + 256 * value bs := rfl

theorem value_append (as bs : List UInt8) :
    value (as ++ bs) = value as + 256 ^ as.length * value bs := by
  rw [value, List.map_append, Nat.ofDigits_append, List.length_map]
  rfl

theorem value_lt (bs : List UInt8) : value bs < 256 ^ bs.length := by
  induction bs with
  | nil => exact Nat.one_pos
  | cons b bs ih =>
    have hb : b.toNat < 256 := b.toNat_lt
    rw [value_cons, List.length_cons]
    omega

theorem map_toNat_digits (n : Nat) : (digits n).map UInt8.toNat = Nat.digits 256 n := by
  rw [digits, List.map_map]
  refine (List.map_congr_left fun d hd => ?_).trans (List.map_id _)
  exact UInt8.toNat_ofNat_of_lt (Nat.digits_lt_base (by norm_num) hd)

@[simp] theorem value_digits (n : Nat) : value (digits n) = n := by
  rw [value, map_toNat_digits, Nat.ofDigits_digits]

theorem digits_ne_nil {n : Nat} (h : n ≠ 0) : digits n ≠ [] := by
  rw [digits, ne_eq, List.map_eq_nil_iff]
  exact Nat.digits_ne_nil_iff_ne_zero.mpr h

theorem length_digits_le {n w : Nat} (h : n < 256 ^ w) : (digits n).length ≤ w := by
  rw [digits, List.length_map]
  exact (Nat.digits_length_le_iff (by norm_num) n).mpr h

theorem getLast_digits_ne_zero {n : Nat} (h : n ≠ 0) :
    ((digits n).getLast (digits_ne_nil h)).toNat ≠ 0 := by
  have hmap := List.getLast_map (f := UInt8.toNat) (l := digits n) (by simpa using digits_ne_nil h)
  rw [← hmap]
  simp only [map_toNat_digits]
  exact Nat.getLast_digit_ne_zero 256 h

theorem length_fixed (w n : Nat) : (fixed w n).length = w := by
  induction w generalizing n with
  | zero => rfl
  | succ w ih => rw [fixed, List.length_cons, ih]

theorem value_fixed {w n : Nat} (h : n < 256 ^ w) : value (fixed w n) = n := by
  induction w generalizing n with
  | zero => rw [Nat.lt_one_iff.mp h]; rfl
  | succ w ih =>
    have hdiv : n / 256 < 256 ^ w := by
      rw [Nat.div_lt_iff_lt_mul (by norm_num)]
      rwa [pow_succ] at h
    rw [fixed, value_cons, ih hdiv]
    exact Nat.mod_add_div n 256

/-! ## the sign bit of a byte -/

theorem and_0x7f_eq_zero_iff (b : UInt8) : b &&& 0x7f = 0 ↔ b.toNat % 128 = 0 := by
  rw [← UInt8.toNat_inj]
  exact iff_of_eq (congrArg (· = 0) (Nat.and_two_pow_sub_one_eq_mod b.toNat 7))

theorem and_0x80_eq_zero_iff (b : UInt8) : b &&& 0x80 = 0 ↔ b.toNat < 128 := by
  rw [← UInt8.toNat_inj, UInt8.toNat_and]
  have e : b.toNat &&& (0x80 : UInt8).toNat = (b.toNat.testBit 7).toNat * 2 ^ 7 :=
    Nat.and_two_pow b.toNat 7
  have hb : b.toNat < 256 := b.toNat_lt
  rw [e, Nat.testBit_eq_decide_div_mod_eq]
  by_cases h : b.toNat / 2 ^ 7 % 2 = 1
  · rw [decide_eq_true h]
    simp only [Bool.toNat_true, UInt8.toNat_ofNat]
    omega
  · rw [decide_eq_false h]
    simp only [Bool.toNat_false, UInt8.toNat_ofNat]
    omega

end LittleEndian
