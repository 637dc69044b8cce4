import Mathlib.Data.Nat.Digits.Lemmas
import Mathlib.Data.Nat.Size

/-!
# Numbers in limbs

A number in limbs of `w` bits, least significant limb first, and the loops that compute with it.
Every loop that hands a carry from limb to limb is `carry`: it brings a list of sums or products of
limbs back into limbs, and it leaves the number modulo the size of the list (`carry_val`).

* `val`                     the number
* `carry`                   the carry loop
* `shlBits`, `shrBits`      shifts by less than a limb
* `shiftLeft`, `shiftRight` shifts by any number of bits
* `compare`, `bits`         comparison, and the position after the highest bit
* `setBit`                  a bit set above a number that ends in zeros
-/

set_option linter.unusedSectionVars false

namespace Limbs

variable {w : Nat}

/-- every limb has `w` bits -/
def Good (w : Nat) (l : List Nat) : Prop := ∀ d ∈ l, d < 2 ^ w

def val (w : Nat) (l : List Nat) : Nat := Nat.ofDigits (2 ^ w) l

variable {d s : Nat} {l : List Nat}

theorem Good.tail (h : Good w (d :: l)) : Good w l :=
  fun x hx => h x (List.mem_cons_of_mem _ hx)

theorem Good.head (h : Good w (d :: l)) : d < 2 ^ w :=
  h d List.mem_cons_self

theorem good_cons (hd : d < 2 ^ w) (hl : Good w l) : Good w (d :: l) := by
  intro x hx
  rcases List.mem_cons.mp hx with rfl | hx
  · exact hd
  · exact hl x hx

@[simp] theorem val_nil : val w [] = 0 := rfl

theorem val_cons (d : Nat) (l : List Nat) : val w (d :: l) = d + 2 ^ w * val w l :=
  Nat.ofDigits_cons

theorem val_lt (hw : 0 < w) (h : Good w l) : val w l < 2 ^ (w * l.length) := by
  rw [pow_mul]
  exact Nat.ofDigits_lt_base_pow_length (Nat.one_lt_two_pow (by omega)) h

theorem val_append (l m : List Nat) : val w (l ++ m) = val w l + 2 ^ (w * l.length) * val w m := by
  rw [pow_mul]
  exact Nat.ofDigits_append

theorem val_replicate_zero (n : Nat) : val w (List.replicate n 0) = 0 := by
  induction n with
  | zero => rfl
  | succ n ih => rw [List.replicate_succ, val_cons, ih, Nat.mul_zero]

theorem good_replicate_zero (n : Nat) : Good w (List.replicate n 0) := by
  intro d hd
  rw [List.eq_of_mem_replicate hd]
  exact Nat.two_pow_pos w

theorem val_take (h : Good w l) (n : Nat) : val w (l.take n) = val w l % 2 ^ (w * n) := by
  rw [pow_mul]
  exact (Nat.ofDigits_mod_pow_eq_ofDigits_take n (Nat.two_pow_pos w) l h).symm

theorem val_drop (h : Good w l) (n : Nat) : val w (l.drop n) = val w l / 2 ^ (w * n) := by
  rw [pow_mul]
  exact (Nat.ofDigits_div_pow_eq_ofDigits_drop n (Nat.two_pow_pos w) l h).symm

/-! ## carries -/

def carry (w : Nat) : Nat → List Nat → List Nat
  | _, [] => []
  | c, n :: l => (c + n) % 2 ^ w :: carry w ((c + n) / 2 ^ w) l

@[simp] theorem carry_length (c : Nat) (l : List Nat) : (carry w c l).length = l.length := by
  induction l generalizing c with
  | nil => rfl
  | cons n l ih => rw [carry, List.length_cons, List.length_cons, ih]

theorem carry_good (c : Nat) (l : List Nat) : Good w (carry w c l) := by
  induction l generalizing c with
  | nil =>
    intro d hd
    cases hd
  | cons n l ih => exact good_cons (Nat.mod_lt _ (Nat.two_pow_pos w)) (ih _)

theorem carry_val (c : Nat) (l : List Nat) :
    val w (carry w c l) = (c + val w l) % 2 ^ (w * l.length) := by
  induction l generalizing c with
  | nil =>
    show 0 = (c + 0) % 2 ^ (w * 0)
    rw [Nat.mul_zero, pow_zero, Nat.mod_one]
  | cons n l ih =>
    have hsum : c + (n + 2 ^ w * val w l) = (c + n) + 2 ^ w * val w l := by omega
    rw [carry, val_cons, ih, val_cons, List.length_cons, Nat.mul_succ, Nat.add_comm (w * _) w,
      pow_add, Nat.mod_mul, hsum, Nat.add_mul_mod_self_left,
      Nat.add_mul_div_left _ _ (Nat.two_pow_pos w)]

theorem carry_zero (h : Good w l) : carry w 0 l = l := by
  induction l with
  | nil => rfl
  | cons d l ih =>
    rw [carry, Nat.zero_add, Nat.mod_eq_of_lt h.head, Nat.div_eq_of_lt h.head, ih h.tail]

theorem val_map_mul (b : Nat) (l : List Nat) : val w (l.map (b * ·)) = b * val w l :=
  (Nat.mul_ofDigits b).symm

theorem val_zipWith_add {m : List Nat} (h : l.length = m.length) :
    val w (List.zipWith (· + ·) l m) = val w l + val w m :=
  (Nat.ofDigits_add_ofDigits_eq_ofDigits_zipWith_of_length_eq h).symm

theorem val_zipWith_mul_add (d : Nat) {m : List Nat} (hm : Good w m) (h : l.length ≤ m.length) :
    val w (List.zipWith (fun e f => e + d * f) l m) =
      val w l + d * (val w m % 2 ^ (w * l.length)) := by
  rw [← val_take hm]
  clear hm
  induction l generalizing m with
  | nil => simp [val]
  | cons e l ih =>
    obtain _ | ⟨f, m⟩ := m
    · cases h
    · rw [List.zipWith_cons_cons, List.length_cons, List.take_succ_cons, val_cons, val_cons, val_cons,
        ih (Nat.le_of_succ_le_succ h)]
      ring

theorem val_complement (h : Good w l) :
    val w (l.map (2 ^ w - 1 - ·)) + val w l + 1 = 2 ^ (w * l.length) := by
  induction l with
  | nil =>
    rfl
  | cons d l ih =>
    have hd := h.head
    have hl := ih h.tail
    rw [List.map_cons, val_cons, val_cons, List.length_cons, Nat.mul_succ, pow_add, ← hl]
    ring_nf
    omega

/-! ## shifts -/

/-- to the left by less than a limb; `p` is the limb before -/
def shlBits (w s : Nat) : Nat → List Nat → List Nat
  | _, [] => []
  | p, d :: l => (d <<< s % 2 ^ w ||| if s ≠ 0 then p >>> (w - s) else 0) :: shlBits w s d l

theorem shlBits_eq_carry (hs : s < w) {p : Nat} (hp : p < 2 ^ w) (hl : Good w l) :
    shlBits w s p l = carry w (p / 2 ^ (w - s)) (l.map (2 ^ s * ·)) := by
  induction l generalizing p with
  | nil => rfl
  | cons d l ih =>
    have hpow : 2 ^ w = 2 ^ s * 2 ^ (w - s) := (pow_mul_pow_sub 2 hs.le).symm
    -- what comes from the limb before lies below the shifted limb
    have hc : p / 2 ^ (w - s) < 2 ^ s :=
      Nat.div_lt_of_lt_mul (hp.trans_eq (pow_sub_mul_pow 2 hs.le).symm)
    have hlow : (if s ≠ 0 then p >>> (w - s) else 0) = p / 2 ^ (w - s) := by
      by_cases h0 : s = 0
      · subst h0
        rw [if_neg (not_not_intro rfl), Nat.sub_zero, Nat.div_eq_of_lt hp]
      · rw [if_pos h0, Nat.shiftRight_eq_div_pow]
    have hhigh : d <<< s % 2 ^ w = 2 ^ s * (d % 2 ^ (w - s)) := by
      rw [Nat.shiftLeft_eq, Nat.mul_comm, hpow, Nat.mul_mod_mul_left]
    have hcarry : (p / 2 ^ (w - s) + 2 ^ s * d) / 2 ^ w = d / 2 ^ (w - s) := by
      rw [hpow, ← Nat.div_div_eq_div_mul, Nat.add_mul_div_left _ _ (Nat.two_pow_pos s),
        Nat.div_eq_of_lt hc, Nat.zero_add]
    have hdigit : (p / 2 ^ (w - s) + 2 ^ s * d) % 2 ^ w =
        2 ^ s * (d % 2 ^ (w - s)) + p / 2 ^ (w - s) := by
      rw [hpow, Nat.mod_mul, Nat.add_mul_mod_self_left, Nat.mod_eq_of_lt hc,
        Nat.add_mul_div_left _ _ (Nat.two_pow_pos s), Nat.div_eq_of_lt hc, Nat.zero_add,
        Nat.add_comm]
    rw [shlBits, List.map_cons, carry, hcarry, hdigit, hhigh, hlow, ← Nat.two_pow_add_eq_or_of_lt hc,
      ih hl.head hl.tail]

/-- to the right by less than a limb -/
def shrBits (w s : Nat) : List Nat → List Nat
  | [] => []
  | d :: l => (d >>> s ||| if s ≠ 0 then (l.headD 0) <<< (w - s) % 2 ^ w else 0) :: shrBits w s l

theorem shrBits_length (s : Nat) (l : List Nat) : (shrBits w s l).length = l.length := by
  induction l with
  | nil => rfl
  | cons d l ih => rw [shrBits, List.length_cons, List.length_cons, ih]

theorem val_mod (hs : s ≤ w) (l : List Nat) : val w l % 2 ^ s = l.headD 0 % 2 ^ s := by
  cases l with
  | nil => rfl
  | cons d l =>
    rw [val_cons, ← pow_mul_pow_sub 2 hs, Nat.mul_assoc, Nat.add_mul_mod_self_left]
    rfl

theorem shrLimb (hs : s < w) (hd : d < 2 ^ w) (l : List Nat) :
    (d >>> s ||| if s ≠ 0 then (l.headD 0) <<< (w - s) % 2 ^ w else 0) =
      2 ^ (w - s) * (val w l % 2 ^ s) + d / 2 ^ s := by
  have hlow : d / 2 ^ s < 2 ^ (w - s) :=
    Nat.div_lt_of_lt_mul (hd.trans_eq (pow_mul_pow_sub 2 hs.le).symm)
  rw [Nat.two_pow_add_eq_or_of_lt hlow, Nat.or_comm, Nat.shiftRight_eq_div_pow, val_mod hs.le]
  congr 1
  by_cases h0 : s = 0
  · subst h0
    rw [if_neg (not_not_intro rfl), pow_zero, Nat.mod_one, Nat.mul_zero]
  · rw [if_pos h0, Nat.shiftLeft_eq, Nat.mul_comm, ← pow_sub_mul_pow 2 hs.le, Nat.mul_mod_mul_left]

theorem shrBits_good (hs : s < w) (hl : Good w l) : Good w (shrBits w s l) := by
  induction l with
  | nil => exact hl
  | cons d l ih =>
    refine good_cons ?_ (ih hl.tail)
    have hlow : d / 2 ^ s < 2 ^ (w - s) :=
      Nat.div_lt_of_lt_mul (hl.head.trans_eq (pow_mul_pow_sub 2 hs.le).symm)
    have hhigh : val w l % 2 ^ s + 1 ≤ 2 ^ s := Nat.mod_lt _ (Nat.two_pow_pos s)
    rw [shrLimb hs hl.head]
    calc 2 ^ (w - s) * (val w l % 2 ^ s) + d / 2 ^ s
        < 2 ^ (w - s) * (val w l % 2 ^ s) + 2 ^ (w - s) := by omega
      _ = 2 ^ (w - s) * (val w l % 2 ^ s + 1) := by rw [Nat.mul_succ]
      _ ≤ 2 ^ (w - s) * 2 ^ s := Nat.mul_le_mul_left _ hhigh
      _ = 2 ^ w := pow_sub_mul_pow 2 hs.le

theorem shrBits_val (hs : s < w) (hl : Good w l) : val w (shrBits w s l) = val w l / 2 ^ s := by
  induction l with
  | nil =>
    show 0 = 0 / 2 ^ s
    rw [Nat.zero_div]
  | cons d l ih =>
    have hpow : 2 ^ w = 2 ^ s * 2 ^ (w - s) := (pow_mul_pow_sub 2 hs.le).symm
    have hdiv : (d + 2 ^ w * val w l) / 2 ^ s = d / 2 ^ s + 2 ^ (w - s) * val w l := by
      rw [hpow, Nat.mul_assoc, Nat.add_mul_div_left _ _ (Nat.two_pow_pos s)]
    have hsplit := Nat.mod_add_div (val w l) (2 ^ s)
    rw [shrBits, val_cons, shrLimb hs hl.head, ih hl.tail, val_cons, hdiv, hpow, Nat.mul_assoc]
    calc 2 ^ (w - s) * (val w l % 2 ^ s) + d / 2 ^ s + 2 ^ s * (2 ^ (w - s) * (val w l / 2 ^ s))
        = d / 2 ^ s + 2 ^ (w - s) * (val w l % 2 ^ s + 2 ^ s * (val w l / 2 ^ s)) := by ring
      _ = d / 2 ^ s + 2 ^ (w - s) * val w l := by rw [hsplit]

def shiftLeft (w s : Nat) (l : List Nat) : List Nat :=
  (List.replicate (s / w) 0 ++ shlBits w (s % w) 0 l).take l.length

theorem shlBits_length (p : Nat) (l : List Nat) : (shlBits w s p l).length = l.length := by
  induction l generalizing p with
  | nil => rfl
  | cons d l ih => rw [shlBits, List.length_cons, List.length_cons, ih]

section shiftLeft
variable (hw : 0 < w) (s : Nat) {l : List Nat} (hl : Good w l)
include hw hl

theorem shlBits_good : Good w (shlBits w (s % w) 0 l) := by
  rw [shlBits_eq_carry (Nat.mod_lt s hw) (Nat.two_pow_pos w) hl]
  exact carry_good _ _

theorem shiftLeft_good : Good w (shiftLeft w s l) := by
  intro d hd
  rcases List.mem_append.mp (List.mem_of_mem_take hd) with h | h
  · exact good_replicate_zero _ d h
  · exact shlBits_good hw s hl d h

theorem shiftLeft_length : (shiftLeft w s l).length = l.length := by
  rw [shiftLeft, List.length_take, List.length_append, shlBits_length]
  omega

theorem shiftLeft_val : val w (shiftLeft w s l) = val w l * 2 ^ s % 2 ^ (w * l.length) := by
  have hgood : Good w (List.replicate (s / w) 0 ++ shlBits w (s % w) 0 l) := by
    intro d hd
    rcases List.mem_append.mp hd with h | h
    · exact good_replicate_zero _ d h
    · exact shlBits_good hw s hl d h
  have hs : 2 ^ s = 2 ^ (w * (s / w)) * 2 ^ (s % w) := by
    rw [← pow_add, Nat.div_add_mod]
  rw [shiftLeft, val_take hgood, val_append, val_replicate_zero, Nat.zero_add, List.length_replicate,
    shlBits_eq_carry (Nat.mod_lt s hw) (Nat.two_pow_pos w) hl, carry_val, Nat.zero_div,
    val_map_mul, List.length_map, Nat.mul_mod, Nat.mod_mod, ← Nat.mul_mod, hs]
  congr 1
  ring

end shiftLeft

def shiftRight (w s : Nat) (l : List Nat) : List Nat :=
  shrBits w (s % w) (l.drop (s / w)) ++ List.replicate (min (s / w) l.length) 0

section shiftRight
variable (hw : 0 < w) (s : Nat) {l : List Nat} (hl : Good w l)
include hw hl

theorem shiftRight_good : Good w (shiftRight w s l) := by
  intro d hd
  rcases List.mem_append.mp hd with h | h
  · exact shrBits_good (Nat.mod_lt s hw) (fun x hx => hl x (List.mem_of_mem_drop hx)) d h
  · exact good_replicate_zero _ d h

theorem shiftRight_length : (shiftRight w s l).length = l.length := by
  rw [shiftRight, List.length_append, shrBits_length, List.length_drop, List.length_replicate]
  omega

theorem shiftRight_val : val w (shiftRight w s l) = val w l / 2 ^ s := by
  have hs : 2 ^ s = 2 ^ (w * (s / w)) * 2 ^ (s % w) := by
    rw [← pow_add, Nat.div_add_mod]
  rw [shiftRight, val_append, val_replicate_zero, Nat.mul_zero, Nat.add_zero,
    shrBits_val (Nat.mod_lt s hw) (fun x hx => hl x (List.mem_of_mem_drop hx)), val_drop hl, hs,
    Nat.div_div_eq_div_mul]

end shiftRight

/-! ## comparison -/

/-- the highest limb that differs decides -/
def compare : List Nat → List Nat → Ordering
  | d :: l, e :: m => (compare l m).then (Ord.compare d e)
  | _, _ => .eq

theorem val_cons_lt {e : Nat} {m : List Nat} (hd : d < 2 ^ w) (h : val w l < val w m) :
    d + 2 ^ w * val w l < e + 2 ^ w * val w m := by
  have hmul : 2 ^ w * (val w l + 1) ≤ 2 ^ w * val w m := Nat.mul_le_mul_left _ h
  rw [Nat.mul_succ] at hmul
  omega

theorem compare_val {m : List Nat} (hl : Good w l) (hm : Good w m) (h : l.length = m.length) :
    compare l m = Ord.compare (val w l) (val w m) := by
  induction l generalizing m with
  | nil =>
    cases m with
    | nil => rfl
    | cons e m => cases h
  | cons d l ih =>
    cases m with
    | nil => cases h
    | cons e m =>
      rw [compare, ih hl.tail hm.tail (Nat.succ.inj h), val_cons, val_cons]
      rcases Nat.lt_trichotomy (val w l) (val w m) with hlt | heq | hgt
      · rw [Nat.compare_eq_lt.mpr hlt, Nat.compare_eq_lt.mpr (val_cons_lt hl.head hlt)]
        rfl
      · rw [heq, Nat.compare_eq_eq.mpr rfl]
        show Ord.compare d e = _
        rcases Nat.lt_trichotomy d e with h1 | h1 | h1
        · have hsum : d + 2 ^ w * val w m < e + 2 ^ w * val w m := by omega
          rw [Nat.compare_eq_lt.mpr h1, Nat.compare_eq_lt.mpr hsum]
        · rw [h1, Nat.compare_eq_eq.mpr rfl, Nat.compare_eq_eq.mpr rfl]
        · have hsum : e + 2 ^ w * val w m < d + 2 ^ w * val w m := by omega
          rw [Nat.compare_eq_gt.mpr h1, Nat.compare_eq_gt.mpr hsum]
      · rw [Nat.compare_eq_gt.mpr hgt, Nat.compare_eq_gt.mpr (val_cons_lt hm.head hgt)]
        rfl

/-! ## the highest bit -/

/-- a limb is searched from the given bit down to the lowest -/
def topBit (d : Nat) : Nat → Nat
  | 0 => 1
  | n + 1 => if d.testBit (n + 1) then n + 2 else topBit d n

theorem topBit_eq {n : Nat} (h0 : d ≠ 0) (h : d < 2 ^ (n + 1)) : topBit d n = d.size := by
  induction n with
  | zero =>
    have h1 : d = 1 := by
      omega
    rw [h1]
    rfl
  | succ n ih =>
    unfold topBit
    by_cases hbit : d.testBit (n + 1) = true
    · rw [if_pos hbit]
      have hge := Nat.ge_two_pow_of_testBit hbit
      have h1 : n + 1 < d.size := Nat.lt_size.mpr hge
      have h2 : d.size ≤ n + 2 := Nat.size_le.mpr h
      omega
    · rw [if_neg hbit]
      by_contra hge
      apply hbit
      rw [Nat.testBit_eq_decide_div_mod_eq, decide_eq_true_iff]
      have hq : d / 2 ^ (n + 1) = 1 := by
        apply Nat.div_eq_of_lt_le
        · omega
        · rw [pow_succ] at h
          omega
      rw [hq]

/-- the position after the highest bit -/
def bits (w : Nat) : List Nat → Nat
  | [] => 0
  | d :: l =>
    if bits w l ≠ 0 then w + bits w l else if d ≠ 0 then topBit d (w - 1) else 0

theorem size_add_mul {v : Nat} (hd : d < 2 ^ w) (hv : v ≠ 0) : (d + 2 ^ w * v).size = w + v.size := by
  apply Nat.le_antisymm
  · have hlt : v + 1 ≤ 2 ^ v.size := Nat.lt_size_self v
    rw [Nat.size_le, pow_add]
    calc d + 2 ^ w * v < 2 ^ w * v + 2 ^ w := by omega
      _ = 2 ^ w * (v + 1) := by rw [Nat.mul_succ]
      _ ≤ 2 ^ w * 2 ^ v.size := Nat.mul_le_mul_left _ hlt
  · have hpos : 0 < v.size := Nat.size_pos.mpr (Nat.pos_of_ne_zero hv)
    have hge : 2 ^ (v.size - 1) ≤ v := Nat.lt_size.mp (by omega)
    have hlt : w + (v.size - 1) < (d + 2 ^ w * v).size := by
      rw [Nat.lt_size, pow_add]
      exact (Nat.mul_le_mul_left _ hge).trans (Nat.le_add_left _ _)
    omega

theorem bits_eq (hw : 0 < w) (hl : Good w l) : bits w l = (val w l).size := by
  induction l with
  | nil => rfl
  | cons d l ih =>
    rw [bits, ih hl.tail, val_cons]
    by_cases hv : val w l = 0
    · rw [hv, Nat.size_zero, if_neg (not_not_intro rfl), Nat.mul_zero]
      by_cases hd : d = 0
      · rw [hd, if_neg (not_not_intro rfl), Nat.size_zero]
      · rw [if_pos hd]
        apply topBit_eq hd
        rw [Nat.sub_add_cancel hw]
        exact hl.head
    · have hpos : 0 < (val w l).size := Nat.size_pos.mpr (Nat.pos_of_ne_zero hv)
      rw [if_pos (by omega), size_add_mul hl.head hv]

/-! ## setting a bit -/

def setBit (w n : Nat) (l : List Nat) : List Nat := l.modify (n / w) (· ||| 1 <<< (n % w))

theorem setBit_length (n : Nat) (l : List Nat) : (setBit w n l).length = l.length :=
  List.length_modify _ _ _

theorem modify_good {f : Nat → Nat} (hf : ∀ d, d < 2 ^ w → f d < 2 ^ w) (i : Nat) (hl : Good w l) :
    Good w (l.modify i f) := by
  induction i generalizing l with
  | zero =>
    cases l with
    | nil => exact hl
    | cons d l =>
      exact good_cons (hf d hl.head) hl.tail
  | succ i ih =>
    cases l with
    | nil => exact hl
    | cons d l =>
      exact good_cons hl.head (ih hl.tail)

theorem setBit_good (hw : 0 < w) (n : Nat) (hl : Good w l) : Good w (setBit w n l) := by
  refine modify_good (fun d hd => ?_) _ hl
  have hbit : 1 <<< (n % w) < 2 ^ w := by
    rw [Nat.one_shiftLeft]
    exact Nat.pow_lt_pow_right (by omega) (Nat.mod_lt n hw)
  exact Nat.or_lt_two_pow hd hbit

theorem modify_val {i r : Nat} (hr : r < w) (hl : Good w l) (hi : i < l.length)
    (hdvd : 2 ^ (w * i + r + 1) ∣ val w l) :
    val w (l.modify i (· ||| 1 <<< r)) = val w l + 2 ^ (w * i + r) := by
  induction i generalizing l with
  | zero =>
    cases l with
    | nil => cases hi
    | cons d l =>
      have hd : 2 ^ (r + 1) ∣ d := by
        have hB : 2 ^ (r + 1) ∣ 2 ^ w * val w l := (pow_dvd_pow 2 (by omega)).mul_right _
        rw [Nat.mul_zero, Nat.zero_add] at hdvd
        exact (Nat.dvd_add_left hB).mp hdvd
      obtain ⟨m, rfl⟩ := hd
      have hor : 2 ^ (r + 1) * m ||| 1 <<< r = 2 ^ (r + 1) * m + 2 ^ r := by
        rw [Nat.one_shiftLeft, Nat.two_pow_add_eq_or_of_lt (Nat.pow_lt_pow_right (by omega) (by omega))]
      rw [List.modify_zero_cons, val_cons, val_cons, Nat.mul_zero, Nat.zero_add]
      omega
  | succ i ih =>
    cases l with
    | nil => cases hi
    | cons d l =>
      have hsplit : 2 ^ (w * (i + 1) + r + 1) = 2 ^ w * 2 ^ (w * i + r + 1) := by
        ring
      rw [hsplit, val_cons] at hdvd
      -- the lower limb is zero
      have hd : d = 0 := by
        have h1 : 2 ^ w ∣ d := (Nat.dvd_add_left (Nat.dvd_mul_right _ _)).mp
          ((Nat.dvd_mul_right _ _).trans hdvd)
        exact Nat.eq_zero_of_dvd_of_lt h1 hl.head
      rw [hd, Nat.zero_add] at hdvd
      have hval := ih hl.tail (Nat.lt_of_succ_lt_succ hi)
        (Nat.dvd_of_mul_dvd_mul_left (Nat.two_pow_pos w) hdvd)
      rw [List.modify_succ_cons, val_cons, val_cons, hval, Nat.add_assoc]
      congr 3
      ring

theorem setBit_val (hw : 0 < w) {n : Nat} (hl : Good w l) (hn : n < w * l.length)
    (hdvd : 2 ^ (n + 1) ∣ val w l) : val w (setBit w n l) = val w l + 2 ^ n := by
  have hsplit : w * (n / w) + n % w = n := Nat.div_add_mod n w
  have hi : n / w < l.length := Nat.div_lt_of_lt_mul hn
  have := modify_val (Nat.mod_lt n hw) hl hi (by rwa [hsplit])
  rwa [hsplit] at this

end Limbs
