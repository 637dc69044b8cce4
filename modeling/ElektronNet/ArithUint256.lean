import ElektronNet.Lib.Limbs
import ElektronNet.Lib.Compact
import ElektronNet.Coins.View

/-!
# `arith_uint256`

`base_uint<256>` and `arith_uint256` of `arith_uint256.h` and `arith_uint256.cpp`: eight limbs of 32
bits and the loops over them, as far as the proof of work uses them.

* `ArithUint256`              the limbs; `val` is the number
* `mulU32`, `mul`, `add`      the carry loops; intermediate values are `uint64_t`
* `div`                       shift and subtract
* `setCompact`, `getCompact`  the compact form of a target

For every operation there is a lemma about `val`.  The compact form is a floating point format with a
mantissa of 23 bits, in numbers: `compact` and `expand`.
-/

namespace ElektronNet

open List Limbs Compact

structure ArithUint256 where
  pn : List Nat
  length_pn : pn.length = 8
  good : Good 32 pn

namespace ArithUint256

def val (a : ArithUint256) : Nat := Limbs.val 32 a.pn

theorem val_lt (a : ArithUint256) : a.val < 2 ^ 256 := by
  have := Limbs.val_lt (show 0 < 32 by decide) a.good
  rwa [a.length_pn] at this

def ofUint64 (b : Nat) : ArithUint256 where
  pn := b % 2 ^ 32 :: b / 2 ^ 32 % 2 ^ 32 :: List.replicate 6 0
  length_pn := by simp
  good := good_cons (Nat.mod_lt _ (by decide))
    (good_cons (Nat.mod_lt _ (by decide)) (good_replicate_zero 6))

theorem ofUint64_val {b : Nat} (h : b < 2 ^ 64) : (ofUint64 b).val = b := by
  show Limbs.val 32 (_ :: _ :: List.replicate 6 0) = b
  rw [val_cons, val_cons, val_replicate_zero]
  omega

/-- `ReadLE32(a.begin() + x*4)` -/
def readLE32 (bs : List UInt8) (x : Nat) : Nat := LittleEndian.value ((bs.drop (4 * x)).take 4)

theorem readLE32_lt (bs : List UInt8) (x : Nat) : readLE32 bs x < 2 ^ 32 := by
  have hlt := LittleEndian.value_lt ((bs.drop (4 * x)).take 4)
  have hlen : ((bs.drop (4 * x)).take 4).length ≤ 4 := length_take_le _ _
  have hpow : 256 ^ ((bs.drop (4 * x)).take 4).length ≤ 256 ^ 4 :=
    Nat.pow_le_pow_right (by decide) hlen
  exact hlt.trans_le hpow

def uintToArith256 (a : Uint256) : ArithUint256 where
  pn := (List.range 8).map (readLE32 a.data)
  length_pn := by simp
  good := by
    intro d hd
    obtain ⟨x, -, rfl⟩ := mem_map.mp hd
    exact readLE32_lt a.data x

/-! ## carry loops -/

/-- `n = carry + (uint64_t)b32 * pn[i]` -/
def mulLoop (b32 : Nat) : Nat → List Nat → List Nat
  | _, [] => []
  | carry, d :: l =>
    let n := (carry + b32 * d) % 2 ^ 64
    n % 2 ^ 32 :: mulLoop b32 (n / 2 ^ 32) l

/-- no intermediate value leaves 64 bits -/
theorem mulLoop_eq_carry {b32 : Nat} (hb : b32 < 2 ^ 32) {c : Nat} (hc : c < 2 ^ 32) {l : List Nat}
    (hl : Good 32 l) : mulLoop b32 c l = carry 32 c (l.map (b32 * ·)) := by
  induction l generalizing c with
  | nil => rfl
  | cons d l ih =>
    have hd := hl.head
    have hprod : b32 * d ≤ (2 ^ 32 - 1) * (2 ^ 32 - 1) :=
      Nat.mul_le_mul (by omega) (by omega)
    have hn : (c + b32 * d) % 2 ^ 64 = c + b32 * d := Nat.mod_eq_of_lt (by omega)
    rw [mulLoop, map_cons, carry, hn, ih (by omega) hl.tail]

def mulU32 (a : ArithUint256) (b32 : Nat) (hb : b32 < 2 ^ 32) : ArithUint256 where
  pn := mulLoop b32 0 a.pn
  length_pn := by rw [mulLoop_eq_carry hb (by decide) a.good, carry_length, length_map, a.length_pn]
  good := by
    rw [mulLoop_eq_carry hb (by decide) a.good]
    exact carry_good _ _

theorem mulU32_val (a : ArithUint256) {b32 : Nat} (hb : b32 < 2 ^ 32) :
    (a.mulU32 b32 hb).val = b32 * a.val % 2 ^ 256 := by
  show Limbs.val 32 (mulLoop b32 0 a.pn) = _
  rw [mulLoop_eq_carry hb (by decide) a.good, carry_val, Nat.zero_add, val_map_mul, length_map,
    a.length_pn]
  rfl

/-- a row of `operator*=`, up to the end of `a`: `n = carry + a.pn[i + j] + (uint64_t)pn[j] * b.pn[i]` -/
def mulRow (d : Nat) : Nat → List Nat → List Nat → List Nat
  | carry, e :: acc, f :: b =>
    let n := (carry + e + d * f) % 2 ^ 64
    n % 2 ^ 32 :: mulRow d (n / 2 ^ 32) acc b
  | _, _, _ => []

/-- the rows of all limbs of `*this`; a row leaves the limbs below its own as they are -/
def mulRows (b : List Nat) : List Nat → List Nat → List Nat
  | [], acc => acc
  | d :: l, acc =>
    match mulRow d 0 acc b with
    | [] => []
    | e :: acc => e :: mulRows b l acc

theorem mulRow_eq_carry {d : Nat} (hd : d < 2 ^ 32) {c : Nat} (hc : c < 2 ^ 32) {acc b : List Nat}
    (hacc : Good 32 acc) (hb : Good 32 b) :
    mulRow d c acc b = carry 32 c (List.zipWith (fun e f => e + d * f) acc b) := by
  induction acc generalizing c b with
  | nil => rfl
  | cons e acc ih =>
    cases b with
    | nil => rfl
    | cons f b =>
      have he := hacc.head
      have hprod : d * f ≤ (2 ^ 32 - 1) * (2 ^ 32 - 1) :=
        Nat.mul_le_mul (by omega) (Nat.le_sub_one_of_lt hb.head)
      have hn : (c + e + d * f) % 2 ^ 64 = c + (e + d * f) := by
        rw [Nat.add_assoc]
        exact Nat.mod_eq_of_lt (by omega)
      rw [mulRow, zipWith_cons_cons, carry, hn, ih (by omega) hacc.tail hb.tail]

theorem mulRows_spec {b l acc : List Nat} (hb : Good 32 b) (hl : Good 32 l) (hacc : Good 32 acc)
    (hlen : acc.length ≤ b.length) :
    (mulRows b l acc).length = acc.length ∧ Good 32 (mulRows b l acc) ∧
      Limbs.val 32 (mulRows b l acc) =
        (Limbs.val 32 acc + Limbs.val 32 l * Limbs.val 32 b) % 2 ^ (32 * acc.length) := by
  induction l generalizing acc with
  | nil =>
    refine ⟨rfl, hacc, ?_⟩
    rw [val_nil, Nat.zero_mul, Nat.add_zero, Nat.mod_eq_of_lt (Limbs.val_lt (by decide) hacc)]
    rfl
  | cons d l ih =>
    have hrow := mulRow_eq_carry hl.head (show 0 < 2 ^ 32 by decide) hacc hb
    have hrowlen : (mulRow d 0 acc b).length = acc.length := by
      rw [hrow, carry_length, length_zipWith, Nat.min_eq_left hlen]
    have hrowgood : Good 32 (mulRow d 0 acc b) := hrow ▸ carry_good _ _
    have hrowval : Limbs.val 32 (mulRow d 0 acc b) =
        (Limbs.val 32 acc + d * Limbs.val 32 b) % 2 ^ (32 * acc.length) := by
      rw [hrow, carry_val, Nat.zero_add, val_zipWith_mul_add d hb hlen, length_zipWith,
        Nat.min_eq_left hlen, Nat.add_mod, Nat.mul_mod_mod, ← Nat.add_mod]
    rw [mulRows]
    generalize mulRow d 0 acc b = r at hrowlen hrowgood hrowval
    cases r with
    | nil =>
      rw [← hrowlen]
      refine ⟨rfl, hrowgood, ?_⟩
      rw [length_nil, pow_zero, Nat.mod_one]
      rfl
    | cons e r =>
      rw [length_cons] at hrowlen
      obtain ⟨hlen', hgood', hval'⟩ := ih hl.tail hrowgood.tail (by omega)
      refine ⟨by rw [length_cons, hlen', hrowlen], good_cons hrowgood.head hgood', ?_⟩
      -- the limb that is done is the remainder, and the other rows go on above it
      have hsplit : (e + 2 ^ 32 * (Limbs.val 32 r + Limbs.val 32 l * Limbs.val 32 b)) %
          2 ^ (32 * acc.length) =
          e + 2 ^ 32 * ((Limbs.val 32 r + Limbs.val 32 l * Limbs.val 32 b) % 2 ^ (32 * r.length)) := by
        rw [← hrowlen, Nat.mul_succ, Nat.add_comm (32 * _), pow_add, Nat.mod_mul,
          Nat.add_mul_mod_self_left, Nat.mod_eq_of_lt hrowgood.head,
          Nat.add_mul_div_left _ _ (by decide), Nat.div_eq_of_lt hrowgood.head, Nat.zero_add]
      rw [val_cons, hval', ← hsplit, Nat.mul_add, ← Nat.add_assoc, ← val_cons, hrowval,
        Nat.mod_add_mod, val_cons]
      congr 1
      ring

def mul (a b : ArithUint256) : ArithUint256 where
  pn := mulRows b.pn a.pn (List.replicate 8 0)
  length_pn := (mulRows_spec b.good a.good (good_replicate_zero 8) (by simp [b.length_pn])).1
  good := (mulRows_spec b.good a.good (good_replicate_zero 8) (by simp [b.length_pn])).2.1

theorem mul_val (a b : ArithUint256) : (a.mul b).val = a.val * b.val % 2 ^ 256 := by
  have hval := (mulRows_spec b.good a.good (good_replicate_zero 8) (by simp [b.length_pn])).2.2
  rwa [val_replicate_zero, Nat.zero_add] at hval

/-- `n = carry + pn[i] + b.pn[i]` -/
def addLoop : Nat → List Nat → List Nat → List Nat
  | carry, d :: l, e :: m =>
    let n := (carry + d + e) % 2 ^ 64
    n % 2 ^ 32 :: addLoop (n / 2 ^ 32) l m
  | _, _, _ => []

theorem addLoop_eq_carry {c : Nat} (hc : c < 2 ^ 32) {l m : List Nat} (hl : Good 32 l)
    (hm : Good 32 m) : addLoop c l m = carry 32 c (List.zipWith (· + ·) l m) := by
  induction l generalizing c m with
  | nil => cases m <;> rfl
  | cons d l ih =>
    cases m with
    | nil => rfl
    | cons e m =>
      have hd := hl.head
      have he := hm.head
      have hn : (c + d + e) % 2 ^ 64 = c + (d + e) := by
        rw [Nat.add_assoc]
        exact Nat.mod_eq_of_lt (by omega)
      rw [addLoop, zipWith_cons_cons, carry, hn, ih (by omega) hl.tail hm.tail]

def add (a b : ArithUint256) : ArithUint256 where
  pn := addLoop 0 a.pn b.pn
  length_pn := by
    rw [addLoop_eq_carry (by decide) a.good b.good, carry_length, length_zipWith, a.length_pn,
      b.length_pn]
    rfl
  good := by
    rw [addLoop_eq_carry (by decide) a.good b.good]
    exact carry_good _ _

theorem add_val (a b : ArithUint256) : (a.add b).val = (a.val + b.val) % 2 ^ 256 := by
  show Limbs.val 32 (addLoop 0 a.pn b.pn) = _
  rw [addLoop_eq_carry (by decide) a.good b.good, carry_val, Nat.zero_add,
    val_zipWith_add (a.length_pn.trans b.length_pn.symm), length_zipWith, a.length_pn, b.length_pn]
  rfl

/-- `operator++`: as long as a limb becomes zero, the next one is increased -/
def incrLoop : List Nat → List Nat
  | [] => []
  | d :: l => if (d + 1) % 2 ^ 32 = 0 then 0 :: incrLoop l else (d + 1) % 2 ^ 32 :: l

theorem incrLoop_eq_carry {l : List Nat} (hl : Good 32 l) : incrLoop l = carry 32 1 l := by
  induction l with
  | nil => rfl
  | cons d l ih =>
    have hd := hl.head
    rw [incrLoop, carry, Nat.add_comm 1 d]
    by_cases h0 : (d + 1) % 2 ^ 32 = 0
    · have hone : (d + 1) / 2 ^ 32 = 1 := by omega
      rw [if_pos h0, h0, hone, ih hl.tail]
    · have hzero : (d + 1) / 2 ^ 32 = 0 := by omega
      rw [if_neg h0, hzero, carry_zero hl.tail]

def neg (a : ArithUint256) : ArithUint256 where
  pn := incrLoop (a.pn.map (2 ^ 32 - 1 - ·))
  length_pn := by
    rw [incrLoop_eq_carry (complement_good a), carry_length, length_map, a.length_pn]
  good := by
    rw [incrLoop_eq_carry (complement_good a)]
    exact carry_good _ _
where
  complement_good (a : ArithUint256) : Good 32 (a.pn.map (2 ^ 32 - 1 - ·)) := by
    intro d hd
    obtain ⟨e, -, rfl⟩ := mem_map.mp hd
    show 2 ^ 32 - 1 - e < 2 ^ 32
    omega

theorem neg_val (a : ArithUint256) : a.neg.val = (2 ^ 256 - a.val) % 2 ^ 256 := by
  have hcompl := val_complement a.good
  rw [a.length_pn] at hcompl
  show Limbs.val 32 (incrLoop _) = _
  rw [incrLoop_eq_carry (neg.complement_good a), carry_val, length_map, a.length_pn]
  congr 1
  unfold val
  omega

def sub (a b : ArithUint256) : ArithUint256 := a.add b.neg

theorem sub_val {a b : ArithUint256} (h : b.val ≤ a.val) : (a.sub b).val = a.val - b.val := by
  have ha := a.val_lt
  rw [sub, add_val, neg_val]
  omega

section
variable (a : ArithUint256)

def compl : ArithUint256 where
  pn := a.pn.map (2 ^ 32 - 1 - ·)
  length_pn := by rw [length_map, a.length_pn]
  good := neg.complement_good a

theorem compl_val : a.compl.val = 2 ^ 256 - 1 - a.val := by
  have hcompl := val_complement a.good
  rw [a.length_pn] at hcompl
  show Limbs.val 32 (a.pn.map (2 ^ 32 - 1 - ·)) = _
  unfold val
  omega

/-! ## shifts, comparison and bits -/

def shiftLeft (s : Nat) : ArithUint256 where
  pn := Limbs.shiftLeft 32 s a.pn
  length_pn := (shiftLeft_length (by decide) s a.good).trans a.length_pn
  good := shiftLeft_good (by decide) s a.good

theorem shiftLeft_val (s : Nat) : (a.shiftLeft s).val = a.val * 2 ^ s % 2 ^ 256 := by
  have := Limbs.shiftLeft_val (show 0 < 32 by decide) s a.good
  rwa [a.length_pn] at this

def shiftRight (s : Nat) : ArithUint256 where
  pn := Limbs.shiftRight 32 s a.pn
  length_pn := (shiftRight_length (by decide) s a.good).trans a.length_pn
  good := shiftRight_good (by decide) s a.good

theorem shiftRight_val (s : Nat) : (a.shiftRight s).val = a.val / 2 ^ s :=
  Limbs.shiftRight_val (by decide) s a.good

end

def compareTo (a b : ArithUint256) : Ordering := Limbs.compare a.pn b.pn

theorem compareTo_eq (a b : ArithUint256) : a.compareTo b = compare a.val b.val :=
  compare_val a.good b.good (a.length_pn.trans b.length_pn.symm)

/-- `EqualTo`: the higher limbs are clear and the two lowest are those of `b` -/
def equalTo (a : ArithUint256) (b : Nat) : Bool := a.pn == (ofUint64 b).pn

theorem equalTo_eq (a : ArithUint256) {b : Nat} (hb : b < 2 ^ 64) : a.equalTo b = decide (a.val = b) := by
  have hiff : a.pn = (ofUint64 b).pn ↔ a.val = b := by
    constructor
    · intro h
      rw [val, h]
      exact ofUint64_val hb
    · intro h
      apply Nat.ofDigits_inj_of_len_eq (show 1 < 2 ^ 32 by decide)
        (a.length_pn.trans (ofUint64 b).length_pn.symm) a.good (ofUint64 b).good
      exact h.trans (ofUint64_val hb).symm
  unfold equalTo
  rw [Bool.eq_iff_iff, beq_iff_eq, decide_eq_true_iff]
  exact hiff

section
variable (a b : ArithUint256)

def gt : Bool := a.compareTo b == .gt

theorem gt_eq : a.gt b = decide (b.val < a.val) := by
  unfold gt
  rw [compareTo_eq]
  rcases Nat.lt_trichotomy a.val b.val with h | h | h
  · rw [Nat.compare_eq_lt.mpr h, decide_eq_false (by omega)]
    rfl
  · rw [Nat.compare_eq_eq.mpr h, decide_eq_false (by omega)]
    rfl
  · rw [Nat.compare_eq_gt.mpr h, decide_eq_true h]
    rfl

def lt : Bool := a.compareTo b == .lt

theorem lt_eq : a.lt b = decide (a.val < b.val) := by
  unfold lt
  rw [compareTo_eq]
  rcases Nat.lt_trichotomy a.val b.val with h | h | h
  · rw [Nat.compare_eq_lt.mpr h, decide_eq_true h]
    rfl
  · rw [Nat.compare_eq_eq.mpr h, decide_eq_false (by omega)]
    rfl
  · rw [Nat.compare_eq_gt.mpr h, decide_eq_false (by omega)]
    rfl

def ge : Bool := a.compareTo b != .lt

theorem ge_eq : a.ge b = decide (b.val ≤ a.val) := by
  unfold ge
  rw [compareTo_eq]
  rcases Nat.lt_trichotomy a.val b.val with h | h | h
  · rw [Nat.compare_eq_lt.mpr h, decide_eq_false (by omega)]
    rfl
  · rw [Nat.compare_eq_eq.mpr h, decide_eq_true h.ge]
    rfl
  · rw [Nat.compare_eq_gt.mpr h, decide_eq_true h.le]
    rfl

end

def bits (a : ArithUint256) : Nat := Limbs.bits 32 a.pn

theorem bits_eq (a : ArithUint256) : a.bits = a.val.size := Limbs.bits_eq (by decide) a.good

def getLow64 (a : ArithUint256) : Nat := (a.pn[0]?).getD 0 ||| (a.pn[1]?).getD 0 <<< 32

theorem getLow64_eq (a : ArithUint256) : a.getLow64 = a.val % 2 ^ 64 := by
  obtain ⟨pn, hlen, hgood⟩ := a
  match pn, hlen, hgood with
  | d :: e :: l, _, hgood =>
    have hd := hgood.head
    have he := hgood.tail.head
    show d ||| e <<< 32 = Limbs.val 32 (d :: e :: l) % 2 ^ 64
    rw [Nat.or_comm, Nat.shiftLeft_eq, Nat.mul_comm, ← Nat.two_pow_add_eq_or_of_lt hd, val_cons,
      val_cons]
    omega

/-! ## division -/

/-- `pn[n / 32] |= 1U << (n & 31)` -/
def orBit (a : ArithUint256) (n : Nat) : ArithUint256 where
  pn := Limbs.setBit 32 n a.pn
  length_pn := (setBit_length n a.pn).trans a.length_pn
  good := setBit_good (by decide) n a.good

theorem orBit_val {a : ArithUint256} {n : Nat} (hn : n < 256) (h : 2 ^ (n + 1) ∣ a.val) :
    (a.orBit n).val = a.val + 2 ^ n := by
  apply setBit_val (by decide) a.good _ h
  rw [a.length_pn]
  exact hn

/-- the loop of `operator/=`; the first argument is `shift + 1` -/
def divLoop : Nat → ArithUint256 → ArithUint256 → ArithUint256 → ArithUint256
  | 0, _, _, q => q
  | shift + 1, num, div, q =>
    if num.ge div then divLoop shift (num.sub div) (div.shiftRight 1) (q.orBit shift)
    else divLoop shift num (div.shiftRight 1) q

/-- `num` is what is left of the dividend, and the bits of the quotient below `n` are still zero -/
theorem divLoop_val {b : Nat} (hb : 0 < b) (n : Nat) {num div q : ArithUint256} (hn : n ≤ 256)
    (hdiv : n ≠ 0 → div.val = b * 2 ^ (n - 1)) (hnum : num.val < b * 2 ^ n) (hq : 2 ^ n ∣ q.val) :
    (divLoop n num div q).val = q.val + num.val / b := by
  induction n generalizing num div q with
  | zero =>
    rw [pow_zero, Nat.mul_one] at hnum
    rw [divLoop, Nat.div_eq_of_lt hnum, Nat.add_zero]
  | succ n ih =>
    have hd : div.val = b * 2 ^ n := hdiv (Nat.succ_ne_zero n)
    have hd' : n ≠ 0 → (div.shiftRight 1).val = b * 2 ^ (n - 1) := by
      intro h0
      rw [shiftRight_val, hd, pow_one]
      obtain ⟨m, rfl⟩ := Nat.exists_eq_succ_of_ne_zero h0
      rw [pow_succ, ← Nat.mul_assoc, Nat.mul_div_cancel _ (by decide)]
      rfl
    rw [divLoop, ge_eq]
    by_cases hle : div.val ≤ num.val
    · rw [decide_eq_true hle, if_pos rfl]
      have hsub := sub_val hle
      have hor := orBit_val (show n < 256 by omega) hq
      have hrest : (num.sub div).val < b * 2 ^ n := by
        rw [pow_succ, ← Nat.mul_assoc] at hnum
        omega
      have hdvd : 2 ^ n ∣ (q.orBit n).val := by
        rw [hor]
        exact Nat.dvd_add ((pow_dvd_pow 2 (Nat.le_succ n)).trans hq) (Nat.dvd_refl _)
      rw [ih (by omega) hd' hrest hdvd, hsub, hd]
      have hquot : num.val / b = 2 ^ n + (num.val - b * 2 ^ n) / b := by
        have hsplit : num.val = (num.val - b * 2 ^ n) + b * 2 ^ n := by omega
        conv_lhs => rw [hsplit]
        rw [Nat.add_mul_div_left _ _ hb, Nat.add_comm]
      omega
    · rw [decide_eq_false hle]
      have hlt : num.val < b * 2 ^ n := by omega
      exact ih (by omega) hd' hlt ((pow_dvd_pow 2 (Nat.le_succ n)).trans hq)

def div (a b : ArithUint256) : Except Fault ArithUint256 :=
  let num_bits := a.bits
  let div_bits := b.bits
  if div_bits = 0 then .error (.runtimeError "Division by zero")
  else if div_bits > num_bits then .ok (ofUint64 0)
  else
    let shift := num_bits - div_bits
    .ok (divLoop (shift + 1) a (b.shiftLeft shift) (ofUint64 0))

theorem div_ok (a : ArithUint256) {b : ArithUint256} (hb : 0 < b.val) :
    ∃ q, a.div b = .ok q ∧ q.val = a.val / b.val := by
  have hzero : (ofUint64 0).val = 0 := ofUint64_val (by decide)
  have hpos : 0 < b.val.size := Nat.size_pos.mpr hb
  have ha : a.val < 2 ^ a.val.size := Nat.lt_size_self _
  have hblt : b.val < 2 ^ b.val.size := Nat.lt_size_self _
  have hbge : 2 ^ (b.val.size - 1) ≤ b.val := Nat.lt_size.mp (by omega)
  unfold div
  rw [bits_eq, bits_eq]
  rw [if_neg (by omega)]
  by_cases hgt : b.val.size > a.val.size
  · rw [if_pos hgt]
    refine ⟨_, rfl, ?_⟩
    have hlt : a.val < b.val :=
      (ha.trans_le (Nat.pow_le_pow_right (by decide) (by omega))).trans_le hbge
    rw [hzero, Nat.div_eq_of_lt hlt]
  · rw [if_neg hgt]
    refine ⟨_, rfl, ?_⟩
    have hsize : a.val.size ≤ 256 := Nat.size_le.mpr a.val_lt
    -- the divisor is shifted to the length of the dividend, so nothing is lost
    have hshift : (b.shiftLeft (a.val.size - b.val.size)).val = b.val * 2 ^ (a.val.size - b.val.size) := by
      rw [shiftLeft_val]
      apply Nat.mod_eq_of_lt
      calc b.val * 2 ^ (a.val.size - b.val.size)
          < 2 ^ b.val.size * 2 ^ (a.val.size - b.val.size) :=
            Nat.mul_lt_mul_of_pos_right hblt (Nat.two_pow_pos _)
        _ = 2 ^ a.val.size := by rw [← pow_add]; congr 1; omega
        _ ≤ 2 ^ 256 := Nat.pow_le_pow_right (by decide) hsize
    have hnum : a.val < b.val * 2 ^ (a.val.size - b.val.size + 1) := by
      calc a.val < 2 ^ a.val.size := ha
        _ = 2 ^ (b.val.size - 1) * 2 ^ (a.val.size - b.val.size + 1) := by
            rw [← pow_add]; congr 1; omega
        _ ≤ b.val * 2 ^ (a.val.size - b.val.size + 1) := Nat.mul_le_mul_right _ hbge
    rw [divLoop_val hb _ (by omega) (fun _ => hshift) hnum (by rw [hzero]; exact Nat.dvd_zero _), hzero,
      Nat.zero_add]

/-! ## the compact form -/

/-- the number, whether it is negative, and whether it overflows -/
def setCompact (nCompact : Nat) : ArithUint256 × Bool × Bool :=
  let nSize := nCompact >>> 24
  let nWord := nCompact &&& 0x007fffff
  let nWord := if nSize ≤ 3 then nWord >>> (8 * (3 - nSize)) else nWord
  let a := if nSize ≤ 3 then ofUint64 nWord else (ofUint64 nWord).shiftLeft (8 * (nSize - 3))
  (a, nWord != 0 && nCompact &&& 0x00800000 != 0,
    nWord != 0 && (decide (nSize > 34) || (decide (nWord > 0xff) && decide (nSize > 33)) ||
      (decide (nWord > 0xffff) && decide (nSize > 32))))

/-- with `fNegative = false` -/
def getCompact (a : ArithUint256) : Except Fault Nat :=
  let nSize := (a.bits + 7) / 8
  let nCompact := if nSize ≤ 3 then a.getLow64 <<< (8 * (3 - nSize)) % 2 ^ 32
    else (a.shiftRight (8 * (nSize - 3))).getLow64 % 2 ^ 32
  let (nCompact, nSize) :=
    if nCompact &&& 0x00800000 ≠ 0 then (nCompact >>> 8, nSize + 1) else (nCompact, nSize)
  if nCompact &&& 0xff800000 ≠ 0 then .error (.assertion "(nCompact & ~0x007fffffU) == 0")
  else if ¬ nSize < 256 then .error (.assertion "nSize < 256")
  else .ok (nCompact ||| nSize <<< 24)

end ArithUint256

/-! ### in numbers -/

def compact (v : Nat) : Nat := encode 3 v

def expand (nCompact : Nat) : Nat := decode 3 nCompact

namespace ArithUint256

theorem and_0x7fffff (n : Nat) : n &&& 0x007fffff = n % 2 ^ 23 := Nat.and_two_pow_sub_one_eq_mod n 23

theorem and_bit23 {n : Nat} (h : n < 2 ^ 24) : n &&& 0x00800000 ≠ 0 ↔ 2 ^ 23 ≤ n := by
  have hand : n &&& 0x00800000 = (n.testBit 23).toNat * 2 ^ 23 := Nat.and_two_pow n 23
  have hbit : n.testBit 23 = decide (2 ^ 23 ≤ n) := by
    rw [Nat.testBit_eq_decide_div_mod_eq]
    apply decide_eq_decide.mpr
    omega
  rw [hand, hbit]
  by_cases hle : 2 ^ 23 ≤ n
  · rw [decide_eq_true hle]
    exact iff_of_true (by decide) hle
  · rw [decide_eq_false hle]
    exact iff_of_false (by decide) hle

theorem and_high {n : Nat} (h : n < 2 ^ 23) : n &&& 0xff800000 = 0 := by
  apply Nat.eq_of_testBit_eq
  intro i
  rw [Nat.testBit_and, Nat.zero_testBit]
  by_cases hi : i < 23
  · have hmask : (0xff800000 : Nat).testBit i = false := by
      have : (0xff800000 : Nat) = 2 ^ 23 * 511 := rfl
      rw [this, Nat.testBit_two_pow_mul, decide_eq_false (by omega), Bool.false_and]
    rw [hmask, Bool.and_false]
  · rw [Nat.testBit_lt_two_pow (h.trans_le (Nat.pow_le_pow_right (by decide) (by omega))),
      Bool.false_and]

theorem window_read (a : ArithUint256) {n : Nat} (hn : a.val < 2 ^ (8 * n)) :
    (if n ≤ 3 then a.getLow64 <<< (8 * (3 - n)) % 2 ^ 32
      else (a.shiftRight (8 * (n - 3))).getLow64 % 2 ^ 32) = window 3 n a.val := by
  have hlt := (window_lt_iff a.val (Nat.zero_le (8 * 3)) (Nat.zero_le (8 * n))).mpr hn
  unfold window at hlt ⊢
  split
  · rename_i h3
    rw [if_pos h3] at hlt
    have hsmall : a.val < 2 ^ 64 :=
      hn.trans_le (Nat.pow_le_pow_right (by decide) (by omega))
    rw [getLow64_eq, Nat.mod_eq_of_lt hsmall, Nat.shiftLeft_eq]
    exact Nat.mod_eq_of_lt (by omega)
  · rename_i h3
    rw [if_neg h3] at hlt
    rw [getLow64_eq, shiftRight_val, Nat.mod_eq_of_lt (show _ < 2 ^ 64 by omega)]
    exact Nat.mod_eq_of_lt (by omega)

theorem window_unsigned {v : Nat} (n : Nat) (hn : n = (v.size + 7) / 8) :
    (if window 3 n v &&& 0x00800000 ≠ 0 then (window 3 n v >>> 8, n + 1) else (window 3 n v, n)) =
      (window 3 (size v) v, size v) := by
  by_cases h0 : v = 0
  · subst h0
    subst hn
    rfl
  · have hpos : 0 < v.size := Nat.size_pos.mpr (Nat.pos_of_ne_zero h0)
    have hval : v < 2 ^ (8 * n) := Nat.size_le.mp (by omega)
    have hlt := (window_lt_iff v (Nat.zero_le (8 * 3)) (Nat.zero_le _)).mpr hval
    have hbit := window_lt_iff v (show 1 ≤ 8 * 3 by decide) (show 1 ≤ 8 * n by omega)
    have hsize := size_of_ne_zero h0
    by_cases hfull : v.size % 8 = 0
    · have hge : 2 ^ (8 * n - 1) ≤ v := Nat.lt_size.mp (by omega)
      have hset : 2 ^ 23 ≤ window 3 n v := by
        by_contra hnot
        omega
      have hsucc : n + 1 = size v := by omega
      rw [if_pos ((and_bit23 hlt).mpr hset), Nat.shiftRight_eq_div_pow, ← window_succ, hsucc]
    · have hclear : window 3 n v < 2 ^ 23 := hbit.mpr (Nat.size_le.mp (by omega))
      have hsame : n = size v := by omega
      rw [if_neg (fun h => absurd ((and_bit23 hlt).mp h) (Nat.not_le_of_lt hclear)), hsame]

/-- **`GetCompact` gives the compact form, and its assertions hold.** -/
theorem getCompact_eq (a : ArithUint256) : a.getCompact = .ok (compact a.val) := by
  have hsize : a.val.size ≤ 256 := Nat.size_le.mpr a.val_lt
  have hval : a.val < 2 ^ (8 * ((a.val.size + 7) / 8)) := Nat.size_le.mp (by omega)
  have hmant : window 3 (size a.val) a.val < 2 ^ 23 := mantissa_lt (by decide) a.val
  have hexp : size a.val < 256 := by
    have := size_le_succ a.val
    omega
  unfold getCompact
  rw [bits_eq]
  dsimp only
  rw [window_read a hval, window_unsigned _ rfl]
  rw [if_neg (not_not_intro (and_high hmant)), if_neg (not_not_intro hexp), Nat.or_comm,
    Nat.shiftLeft_eq, Nat.mul_comm, ← Nat.two_pow_add_eq_or_of_lt (show _ < 2 ^ 24 by omega)]
  rfl

theorem setCompact_val (nCompact : Nat) : (setCompact nCompact).1.val = expand nCompact % 2 ^ 256 := by
  have hword : nCompact % 2 ^ 23 < 2 ^ 64 := (Nat.mod_lt _ (by decide)).trans (by decide)
  unfold setCompact expand decode unpack
  dsimp only
  rw [and_0x7fffff, Nat.shiftRight_eq_div_pow]
  show _ = (if nCompact / 2 ^ 24 ≤ 3 then nCompact % 2 ^ 23 / 2 ^ (8 * (3 - nCompact / 2 ^ 24))
    else nCompact % 2 ^ 23 * 2 ^ (8 * (nCompact / 2 ^ 24 - 3))) % 2 ^ 256
  by_cases h3 : nCompact / 2 ^ 24 ≤ 3
  · rw [if_pos h3, if_pos h3, if_pos h3, Nat.shiftRight_eq_div_pow]
    have hle := Nat.div_le_self (nCompact % 2 ^ 23) (2 ^ (8 * (3 - nCompact / 2 ^ 24)))
    rw [ofUint64_val (by omega), Nat.mod_eq_of_lt (lt_of_le_of_lt hle (hword.trans (by decide)))]
  · rw [if_neg h3, if_neg h3, if_neg h3, shiftLeft_val, ofUint64_val hword]

end ArithUint256

/-! ## rounding a target -/

def rounded (v : Nat) : Nat := expand (compact v)

theorem compact_eq {v k : Nat} (hlo : 2 ^ (8 * k - 1) ≤ v) (hhi : v < 2 ^ (8 * k + 7)) :
    compact v = 2 ^ 24 * (k + 1) + window 3 (k + 1) v := by
  rw [compact, encode, size_eq hlo hhi]

theorem rounded_le (v : Nat) : rounded v ≤ v := decode_encode_le (show 1 ≤ 3 by decide) v

theorem rounded_mono {v w : Nat} (h : v ≤ w) : rounded v ≤ rounded w :=
  decode_encode_mono (show 2 ≤ 3 by decide) h

theorem le_two_mul_rounded (v : Nat) : v ≤ 2 * rounded v :=
  le_two_mul_decode_encode (show 2 ≤ 3 by decide) v

theorem lt_rounded_add {v : Nat} (h : v < 2 ^ 247) : v < rounded v + 2 ^ 224 := by
  have hsize : size v ≤ 31 := @size_le_of_lt v 30 h
  have hpow : 2 ^ (8 * (size v - 3)) ≤ 2 ^ 224 := Nat.pow_le_pow_right (by decide) (by omega)
  have hlt := lt_decode_encode_add (show 1 ≤ 3 by decide) v
  show v < decode 3 (encode 3 v) + 2 ^ 224
  omega

namespace ArithUint256

theorem setCompact_compact {v : Nat} (h : v < 2 ^ 256) : (setCompact (compact v)).1.val = rounded v := by
  rw [setCompact_val]
  exact Nat.mod_eq_of_lt ((rounded_le v).trans_lt h)

theorem setCompact_compact_flags {v : Nat} (h : v < 2 ^ 256) :
    (setCompact (compact v)).2 = (false, false) := by
  have hsize : size v ≤ 33 := by
    have hbits := Nat.size_le.mpr h
    have hle := size_le_succ v
    omega
  -- of 33 bytes the highest is the sign, so the mantissa has two
  have htop : size v > 32 → window 3 (size v) v ≤ 0xffff := by
    intro hlarge
    obtain hthree : size v = 33 := by omega
    rw [hthree]
    exact Nat.le_of_lt_succ ((window_lt_iff v (show 8 ≤ 8 * 3 by decide) (show 8 ≤ 8 * 33 by decide)).mpr h)
  have hmant : window 3 (size v) v < 2 ^ 23 := mantissa_lt (by decide) v
  have hdiv : compact v >>> 24 = size v := by
    rw [Nat.shiftRight_eq_div_pow]
    exact encode_div (by decide) v
  have hsign : compact v &&& 0x00800000 = 0 := by
    have hand : compact v &&& 0x00800000 = ((compact v).testBit 23).toNat * 2 ^ 23 := Nat.and_two_pow _ 23
    have hbit : (compact v).testBit 23 = false := by
      rw [Nat.testBit_eq_decide_div_mod_eq]
      apply decide_eq_false
      show (2 ^ 24 * size v + window 3 (size v) v) / 2 ^ 23 % 2 ≠ 1
      omega
    rw [hand, hbit]
    rfl
  unfold setCompact
  dsimp only
  rw [hdiv, hsign, decide_eq_false (show ¬ size v > 34 by omega),
    decide_eq_false (show ¬ size v > 33 by omega)]
  by_cases hlarge : size v > 32
  · have hword : compact v &&& 0x007fffff = window 3 (size v) v := by
      rw [and_0x7fffff]
      exact encode_mod (by decide) v
    rw [if_neg (by omega), hword, decide_eq_false (Nat.not_lt.mpr (htop hlarge))]
    simp
  · rw [decide_eq_false hlarge]
    simp

/-- **The compact form rounds a target down by less than a part in 2^15, and is that of the rounded
target too; the products and quotients are those of the numbers.** -/
theorem compact_round_trip (a : ArithUint256) :
    (∃ nCompact, a.getCompact = .ok nCompact ∧ (setCompact nCompact).2 = (false, false) ∧
      (setCompact nCompact).1.val ≤ a.val ∧
      (0 < a.val → (a.val - (setCompact nCompact).1.val) * 2 ^ 15 < a.val) ∧
      (setCompact nCompact).1.getCompact = .ok nCompact ∧
      ∀ a' : ArithUint256, a.val ≤ a'.val → ∃ nCompact', a'.getCompact = .ok nCompact' ∧
        (setCompact nCompact).1.val ≤ (setCompact nCompact').1.val) ∧
    ∀ b : ArithUint256, (a.mul b).val = a.val * b.val % 2 ^ 256 ∧
      (b.val ≠ 0 → ∃ q, a.div b = .ok q ∧ q.val = a.val / b.val) := by
  have hback := setCompact_compact a.val_lt
  refine ⟨⟨_, a.getCompact_eq, setCompact_compact_flags a.val_lt, ?_, fun hpos => ?_, ?_,
    fun a' hle => ⟨_, a'.getCompact_eq, ?_⟩⟩, fun b => ⟨mul_val a b, fun hb => ?_⟩⟩
  · rw [hback]
    exact rounded_le a.val
  · rw [hback]
    exact decode_encode_close (show 2 ≤ 3 by decide) hpos
  · rw [getCompact_eq, hback]
    exact congrArg _ (encode_decode_encode (show 2 ≤ 3 by decide) a.val)
  · rw [hback, setCompact_compact a'.val_lt]
    exact rounded_mono hle
  · exact div_ok a (Nat.pos_of_ne_zero hb)

end ArithUint256

end ElektronNet
