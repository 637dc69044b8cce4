import Mathlib.Data.Nat.Size
import Mathlib.Algebra.Order.Ring.Nat
import Mathlib.Tactic.NormNum

/-!
# A floating point format for natural numbers

A number is kept as the number of its bytes and its `m` highest bytes; the highest bit of the
mantissa is a sign bit and stays clear.

* `window m n v`     the `m` highest bytes of a number of `n` bytes
* `size v`           the exponent: the bytes of `v`, one more where the highest bit is set
* `encode`, `decode` exponent and mantissa in one number and back

`decode ∘ encode` rounds down to a number of the format: it never grows (`decode_encode_le`), loses less
than a unit in the last place (`lt_decode_encode_add`) and is monotone (`decode_encode_mono`).
-/

namespace Compact

def window (m n v : Nat) : Nat := if n ≤ m then v * 2 ^ (8 * (m - n)) else v / 2 ^ (8 * (n - m))

def size (v : Nat) : Nat := if v = 0 then 0 else v.size / 8 + 1

def encode (m v : Nat) : Nat := 2 ^ (8 * m) * size v + window m (size v) v

/-- the number of an exponent and a mantissa -/
def unpack (m n w : Nat) : Nat := if n ≤ m then w / 2 ^ (8 * (m - n)) else w * 2 ^ (8 * (n - m))

/-- without the sign bit -/
def decode (m c : Nat) : Nat := unpack m (c / 2 ^ (8 * m)) (c % 2 ^ (8 * m - 1))

variable {m n j v w : Nat}

theorem two_pow_split {a b c : Nat} (h : a = b + c) : 2 ^ a = 2 ^ b * 2 ^ c := by rw [h, pow_add]

theorem window_zero (m n : Nat) : window m n 0 = 0 := by
  unfold window
  split
  · exact Nat.zero_mul _
  · exact Nat.zero_div _

theorem window_lt_iff (v : Nat) (hj : j ≤ 8 * m) (hn : j ≤ 8 * n) :
    window m n v < 2 ^ (8 * m - j) ↔ v < 2 ^ (8 * n - j) := by
  unfold window
  split
  · have hpow : 2 ^ (8 * m - j) = 2 ^ (8 * n - j) * 2 ^ (8 * (m - n)) := two_pow_split (by omega)
    rw [hpow]
    exact Nat.mul_lt_mul_right (Nat.two_pow_pos _)
  · have hpow : 2 ^ (8 * n - j) = 2 ^ (8 * m - j) * 2 ^ (8 * (n - m)) := two_pow_split (by omega)
    rw [Nat.div_lt_iff_lt_mul (Nat.two_pow_pos _), hpow]

theorem window_succ (m n v : Nat) : window m (n + 1) v = window m n v / 2 ^ 8 := by
  unfold window
  by_cases hn : n + 1 ≤ m
  · have hpow : 2 ^ (8 * (m - n)) = 2 ^ (8 * (m - (n + 1))) * 2 ^ 8 := two_pow_split (by omega)
    rw [if_pos hn, if_pos (by omega), hpow, ← Nat.mul_assoc, Nat.mul_div_cancel _ (by decide)]
  · rw [if_neg hn]
    by_cases hle : n ≤ m
    · have hnm : n = m := by omega
      subst hnm
      rw [if_pos le_rfl, Nat.sub_self, Nat.add_sub_cancel_left]
      show v / 2 ^ 8 = v * 1 / 2 ^ 8
      rw [Nat.mul_one]
    · have hpow : 2 ^ (8 * (n + 1 - m)) = 2 ^ (8 * (n - m)) * 2 ^ 8 := two_pow_split (by omega)
      rw [if_neg hle, hpow, Nat.div_div_eq_div_mul]

theorem window_mono (m n : Nat) (h : v ≤ w) : window m n v ≤ window m n w := by
  unfold window
  split
  · exact Nat.mul_le_mul_right _ h
  · exact Nat.div_le_div_right h

theorem unpack_mono (m n : Nat) (h : v ≤ w) : unpack m n v ≤ unpack m n w := by
  unfold unpack
  split
  · exact Nat.div_le_div_right h
  · exact Nat.mul_le_mul_right _ h

/-! ## the exponent -/

theorem size_of_ne_zero (h : v ≠ 0) : size v = v.size / 8 + 1 := if_neg h

theorem lt_size (v : Nat) : v < 2 ^ (8 * size v - 1) := by
  by_cases h0 : v = 0
  · rw [h0]
    exact Nat.two_pow_pos _
  · rw [size_of_ne_zero h0]
    exact Nat.size_le.mp (by omega)

theorem size_le (h : v ≠ 0) : 2 ^ (8 * size v - 9) ≤ v := by
  rw [size_of_ne_zero h]
  have hpos : 0 < v.size := Nat.size_pos.mpr (Nat.pos_of_ne_zero h)
  exact Nat.lt_size.mp (by omega)

theorem size_mono (h : v ≤ w) : size v ≤ size w := by
  by_cases h0 : v = 0
  · rw [h0]
    exact Nat.zero_le _
  · rw [size_of_ne_zero h0, size_of_ne_zero (by omega)]
    have := Nat.size_le_size h
    omega

theorem size_le_succ (v : Nat) : size v ≤ v.size / 8 + 1 := by
  unfold size
  split
  · exact Nat.zero_le _
  · exact le_rfl

theorem size_le_of_lt {k : Nat} (h : v < 2 ^ (8 * k + 7)) : size v ≤ k + 1 := by
  have hsize := size_le_succ v
  have hbits := Nat.size_le.mpr h
  omega

theorem size_eq {k : Nat} (hlo : 2 ^ (8 * k - 1) ≤ v) (hhi : v < 2 ^ (8 * k + 7)) : size v = k + 1 := by
  have h0 : v ≠ 0 := (Nat.two_pow_pos _).trans_le hlo |>.ne'
  have hle := size_le_of_lt hhi
  have hlt := Nat.lt_size.mpr hlo
  rw [size_of_ne_zero h0] at hle ⊢
  omega

/-! ## rounding -/

section
variable (hm : 1 ≤ m) (v : Nat)
include hm

theorem mantissa_lt : window m (size v) v < 2 ^ (8 * m - 1) := by
  by_cases h0 : v = 0
  · rw [h0, window_zero]
    exact Nat.two_pow_pos _
  · have hsize := size_of_ne_zero h0
    exact (window_lt_iff v (by omega) (by omega)).mpr (lt_size v)

theorem mantissa_lt_byte : window m (size v) v < 2 ^ (8 * m) :=
  (mantissa_lt hm v).trans_le (Nat.pow_le_pow_right (by decide) (Nat.sub_le _ _))

theorem encode_div : encode m v / 2 ^ (8 * m) = size v := by
  rw [encode, Nat.mul_add_div (Nat.two_pow_pos _), Nat.div_eq_of_lt (mantissa_lt_byte hm v)]
  rfl

theorem encode_mod : encode m v % 2 ^ (8 * m - 1) = window m (size v) v := by
  have hpow : 2 ^ (8 * m) = 2 ^ (8 * m - 1) * 2 := by
    rw [← pow_succ]
    congr 1
    omega
  rw [encode, hpow, Nat.mul_assoc, Nat.mul_add_mod, Nat.mod_eq_of_lt (mantissa_lt hm v)]

theorem decode_encode : decode m (encode m v) = unpack m (size v) (window m (size v) v) := by
  rw [decode, encode_div hm, encode_mod hm]

end

theorem unpack_window_le (m n v : Nat) : unpack m n (window m n v) ≤ v := by
  unfold unpack window
  split
  · rw [Nat.mul_div_cancel _ (Nat.two_pow_pos _)]
  · exact Nat.div_mul_le_self _ _

theorem decode_encode_le (hm : 1 ≤ m) (v : Nat) : decode m (encode m v) ≤ v := by
  rw [decode_encode hm]
  exact unpack_window_le m (size v) v

theorem lt_decode_encode_add (hm : 1 ≤ m) (v : Nat) :
    v < decode m (encode m v) + 2 ^ (8 * (size v - m)) := by
  rw [decode_encode hm]
  unfold unpack window
  split
  · rw [Nat.mul_div_cancel _ (Nat.two_pow_pos _)]
    exact Nat.lt_add_of_pos_right (Nat.two_pow_pos _)
  · exact Nat.lt_div_mul_add (Nat.two_pow_pos _)

theorem le_decode_encode (hm : 2 ≤ m) (h : v ≠ 0) : 2 ^ (8 * size v - 9) ≤ decode m (encode m v) := by
  have hle := size_le h
  rw [decode_encode (by omega)]
  unfold unpack window
  split
  · rwa [Nat.mul_div_cancel _ (Nat.two_pow_pos _)]
  · have hpow : 2 ^ (8 * size v - 9) = 2 ^ (8 * m - 9) * 2 ^ (8 * (size v - m)) := two_pow_split (by omega)
    rw [hpow] at hle ⊢
    exact Nat.mul_le_mul_right _ ((Nat.le_div_iff_mul_le (Nat.two_pow_pos _)).mpr hle)

theorem decode_encode_mono (hm : 2 ≤ m) (h : v ≤ w) :
    decode m (encode m v) ≤ decode m (encode m w) := by
  have hm1 : 1 ≤ m := by omega
  rcases (size_mono h).eq_or_lt with hsize | hsize
  · rw [decode_encode hm1, decode_encode hm1, hsize]
    exact unpack_mono m _ (window_mono m _ h)
  · have hw : w ≠ 0 := by
      rintro rfl
      exact absurd hsize (Nat.not_lt_zero _)
    have hpow : 2 ^ (8 * size v - 1) ≤ 2 ^ (8 * size w - 9) :=
      Nat.pow_le_pow_right (by decide) (by omega)
    calc decode m (encode m v) ≤ v := decode_encode_le hm1 v
      _ ≤ 2 ^ (8 * size v - 1) := (lt_size v).le
      _ ≤ 2 ^ (8 * size w - 9) := hpow
      _ ≤ decode m (encode m w) := le_decode_encode hm hw

theorem decode_encode_close (hm : 2 ≤ m) (h : 0 < v) :
    (v - decode m (encode m v)) * 2 ^ (8 * m - 9) < v := by
  have hle := size_le h.ne'
  have hlt : v - decode m (encode m v) < 2 ^ (8 * (size v - m)) :=
    Nat.sub_lt_left_of_lt_add (decode_encode_le (by omega) v) (lt_decode_encode_add (by omega) v)
  by_cases hsmall : size v ≤ m
  · rw [Nat.sub_eq_zero_of_le hsmall, pow_zero, Nat.lt_one_iff] at hlt
    rwa [hlt, Nat.zero_mul]
  · have hpow : 2 ^ (8 * size v - 9) = 2 ^ (8 * (size v - m)) * 2 ^ (8 * m - 9) := two_pow_split (by omega)
    rw [hpow] at hle
    exact (Nat.mul_lt_mul_of_pos_right hlt (Nat.two_pow_pos _)).trans_le hle

theorem window_unpack_window (m n v : Nat) : window m n (unpack m n (window m n v)) = window m n v := by
  unfold unpack window
  split
  · rw [Nat.mul_div_cancel _ (Nat.two_pow_pos _)]
  · exact Nat.mul_div_cancel _ (Nat.two_pow_pos _)

/-- the rounded number has the same form -/
theorem encode_decode_encode (hm : 2 ≤ m) (v : Nat) : encode m (decode m (encode m v)) = encode m v := by
  have hm1 : 1 ≤ m := by omega
  by_cases h0 : v = 0
  · have hzero := decode_encode_le hm1 v
    rw [h0, Nat.le_zero] at hzero
    rw [h0, hzero]
  · have hsize : size (decode m (encode m v)) = size v := by
      have hpos := size_of_ne_zero h0
      have hlow := le_decode_encode hm h0
      have hhigh := (decode_encode_le hm1 v).trans_lt (lt_size v)
      rw [size_eq (k := size v - 1)
        (by rwa [show 8 * (size v - 1) - 1 = 8 * size v - 9 by omega])
        (by rwa [show 8 * (size v - 1) + 7 = 8 * size v - 1 by omega])]
      omega
    rw [encode, hsize, decode_encode hm1, window_unpack_window, encode]

theorem le_two_mul_decode_encode (hm : 2 ≤ m) (v : Nat) : v ≤ 2 * decode m (encode m v) := by
  by_cases h0 : v = 0
  · rw [h0]
    exact Nat.zero_le _
  · have hlt := lt_decode_encode_add (by omega : 1 ≤ m) v
    have hle := le_decode_encode hm h0
    have hpow : 2 ^ (8 * (size v - m)) ≤ 2 ^ (8 * size v - 9) :=
      Nat.pow_le_pow_right (by decide) (by omega)
    omega

end Compact
