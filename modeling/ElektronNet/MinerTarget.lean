import ElektronNet.NewestCheckpoint
import ElektronNet.Pow

/-!
# The target of the C++ miner

`hash_le_target`, `hex_target_to_bytes` and `bits_to_target` of `mining/miner.cpp`.  The miner takes
the target from the text in the template and, without one, from `bits`.

* `checkProofOfWorkImpl`   the test of the node
* `hashLeTarget_eq`        the loop over the bytes compares numbers
* `bitsToTarget_ne`        the bytes from `bits` stand at the wrong end
* `minerTarget_iff`        the two tests agree iff the template has the text
-/

namespace ElektronNet

open List ArithUint256 LittleEndian

/-! ## the node -/

def checkProofOfWorkImpl (hash : Uint256) (nBits : Nat) (params : PowParams) : Bool :=
  match deriveTarget nBits params.powLimit with
  | none => false
  | some bnTarget => !(uintToArith256 hash).gt bnTarget

/-- `base_uint::GetHex` writes the limbs to a blob -/
def ArithUint256.toBlob (a : ArithUint256) : Uint256 where
  data := a.pn.flatMap (fixed 4)
  size_eq := by simp [length_flatMap, length_fixed, a.length_pn]

/-- "target" in the answer of `getblocktemplate` -/
def templateTarget (nBits : Nat) : List Char := (setCompact nBits).1.toBlob.getHex

theorem toBlob_value (a : ArithUint256) : value a.toBlob.data = a.val := by
  have hgood := a.good
  show value (a.pn.flatMap (fixed 4)) = Limbs.val 32 a.pn
  generalize a.pn = pn at hgood
  induction pn with
  | nil => rfl
  | cons d l ih =>
    rw [flatMap_cons, value_append, value_fixed (hgood d mem_cons_self), length_fixed,
      ih fun e he => hgood e (mem_cons_of_mem d he)]
    rfl

theorem readLE32_limbs {bs : Bytes} {n : Nat} (h : bs.length = 4 * n) :
    Limbs.val 32 ((List.range n).map (readLE32 bs)) = value bs := by
  induction n generalizing bs with
  | zero => rw [length_eq_zero_iff.mp h]; rfl
  | succ n ih =>
    have hshift : readLE32 bs ∘ Nat.succ = readLE32 (bs.drop 4) := by
      funext x
      simp only [readLE32, Function.comp_apply, drop_drop]
      rw [show 4 * x.succ = 4 + 4 * x by omega]
    have hsplit := value_append (bs.take 4) (bs.drop 4)
    rw [take_append_drop, length_take, Nat.min_eq_left (by omega)] at hsplit
    rw [range_succ_eq_map, map_cons, map_map, hshift, Limbs.val_cons,
      ih (by rw [length_drop]; omega), hsplit]
    rfl

theorem uintToArith256_val (a : Uint256) : (uintToArith256 a).val = value a.data :=
  readLE32_limbs a.size_eq

/-! ## the miner -/

def hashLeLoop : Bytes → Bytes → Bool
  | h :: hash, t :: target => if h < t then true else if h > t then false else hashLeLoop hash target
  | _, _ => true

/-- byte `31 - i` of the hash is compared with byte `i` of the target -/
def hashLeTarget (hash : Uint256) (target_msb : Bytes) : Bool := hashLeLoop hash.data.reverse target_msb

/-- `std::stoul` in base 16 on at most two characters, where a `0x` has no digit after it; `none`: it
throws, as there is no digit -/
def stoulHex (str : List Char) : Option Nat :=
  let signed := readSign (str.dropWhile isSpace)
  let digits := (signed.2.takeWhile fun c => (Uint256.hexValue c).isSome).filterMap Uint256.hexValue
  let v := digits.foldl (fun v d => 16 * v + d) 0
  if digits.isEmpty then none else some (if signed.1 then (2 ^ 64 - v) % 2 ^ 64 else v)

def hexPairs : Nat → List Char → Option Bytes
  | nbytes + 1, a :: b :: hex =>
    match stoulHex [a, b], hexPairs nbytes hex with
    | some v, some target => some (UInt8.ofNat v :: target)
    | _, _ => none
  | _, _ => some []

def hexTargetToBytes (hex : List Char) : Option Bytes :=
  let nbytes := min (hex.length / 2) 32
  (hexPairs nbytes hex).map fun target => target ++ List.replicate (32 - nbytes) 0

def bitsToTarget (n_bits : Nat) : Bytes :=
  let exponent := n_bits >>> 24 &&& 0xff
  let coefficient := n_bits &&& 0x007fffff
  let target : Bytes := List.replicate 32 0
  if exponent ≤ 3 then
    let coefficient := coefficient >>> (8 * (3 - exponent))
    let target := target.set 0 (UInt8.ofNat coefficient)
    let target := if coefficient > 0xff then target.set 1 (UInt8.ofNat (coefficient >>> 8)) else target
    if coefficient > 0xffff then target.set 2 (UInt8.ofNat (coefficient >>> 16)) else target
  else if exponent ≤ 34 then
    let shift_bytes := exponent - 3
    let target := target.set shift_bytes (UInt8.ofNat coefficient)
    let target :=
      if shift_bytes ≥ 1 then target.set (shift_bytes - 1) (UInt8.ofNat (coefficient >>> 8)) else target
    if shift_bytes ≥ 2 then target.set (shift_bytes - 2) (UInt8.ofNat (coefficient >>> 16)) else target
  else target

def minerTarget (target_hex : List Char) (bits : Nat) : Option Bytes :=
  if target_hex.isEmpty then some (bitsToTarget bits) else hexTargetToBytes target_hex

theorem value_reverse_cons (b : UInt8) (l : Bytes) :
    value (b :: l).reverse = value l.reverse + 256 ^ l.length * b.toNat := by
  rw [reverse_cons, value_append, length_reverse]
  rfl

theorem hashLeLoop_eq {hash target : Bytes} (h : hash.length = target.length) :
    hashLeLoop hash target = decide (value hash.reverse ≤ value target.reverse) := by
  induction hash generalizing target with
  | nil => rw [length_eq_zero_iff.mp h.symm]; rfl
  | cons x hash ih =>
    obtain _ | ⟨t, target⟩ := target
    · cases h
    have hlen : hash.length = target.length := Nat.succ.inj h
    have hhash := value_lt hash.reverse
    have htarget := value_lt target.reverse
    -- the first byte in which they differ outweighs all that follow
    have hstep : ∀ {a b : Nat}, a < b → 256 ^ hash.length * a + 256 ^ hash.length ≤ 256 ^ hash.length * b :=
      fun hab => Nat.mul_le_mul_left _ hab
    rw [length_reverse] at hhash htarget
    rw [← hlen] at htarget
    rw [hashLeLoop, value_reverse_cons, value_reverse_cons, ← hlen]
    simp only [gt_iff_lt, UInt8.lt_iff_toNat_lt]
    split
    · rename_i hlt
      have := hstep hlt
      exact (decide_eq_true (by omega)).symm
    split
    · rename_i hgt
      have := hstep hgt
      exact (decide_eq_false (by omega)).symm
    · rw [ih hlen, show x.toNat = t.toNat by omega]
      simp

theorem hashLeTarget_eq (hash : Uint256) {target : Bytes} (h : target.length = 32) :
    hashLeTarget hash target = decide (value hash.data ≤ value target.reverse) := by
  rw [hashLeTarget, hashLeLoop_eq (by rw [length_reverse, hash.size_eq, h]), reverse_reverse]

theorem stoulHex_hexDigit : ∀ x < 16, ∀ y < 16,
    stoulHex [Uint256.hexDigit x, Uint256.hexDigit y] = some (16 * x + y) := by
  decide

theorem hexPairs_hexDigits (l : Bytes) :
    hexPairs l.length (l.flatMap fun b => [Uint256.hexDigit (b.toNat / 16),
      Uint256.hexDigit (b.toNat % 16)]) = some l := by
  induction l with
  | nil => rfl
  | cons b l ih =>
    have hb := b.toNat_lt
    rw [flatMap_cons, length_cons, cons_append, cons_append, nil_append, hexPairs,
      stoulHex_hexDigit _ (by omega) _ (by omega), ih]
    simp only [Nat.div_add_mod, UInt8.ofNat_toNat]

theorem hexTargetToBytes_getHex (a : Uint256) : hexTargetToBytes a.getHex = some a.data.reverse := by
  have hlen : a.data.reverse.length = 32 := by rw [length_reverse, a.size_eq]
  have hpairs := hexPairs_hexDigits a.data.reverse
  rw [hlen] at hpairs
  rw [hexTargetToBytes, length_getHex]
  simp only [Nat.reduceDiv, Nat.min_self, Nat.sub_self, replicate_zero, append_nil, Option.map_id']
  exact hpairs

-- a character that is no digit ends the number, one without a digit before it throws
example : hexTargetToBytes ['f', 'z'] = some (15 :: List.replicate 31 0) ∧
    hexTargetToBytes ['z', 'f'] = none := by decide

/-! ## the target from `bits` -/

theorem value_reverse_set {l : Bytes} {i : Nat} (h : l[i]? = some 0) (b : UInt8) :
    value (l.set i b).reverse = value l.reverse + 256 ^ (l.length - 1 - i) * b.toNat := by
  induction l generalizing i with
  | nil => cases h
  | cons a l ih =>
    cases i with
    | zero =>
      cases h
      rw [set_cons_zero, value_reverse_cons, value_reverse_cons]
      simp
    | succ i =>
      rw [set_cons_succ, value_reverse_cons, value_reverse_cons, ih h, length_set, length_cons,
        show l.length + 1 - 1 - (i + 1) = l.length - 1 - i by omega]
      omega

theorem value_reverse_three {i j k : Nat} (hi : i < 32) (hj : j < 32) (hk : k < 32) (hij : i ≠ j)
    (hik : i ≠ k) (hjk : j ≠ k) (a b c : UInt8) :
    value ((((List.replicate 32 0).set i a).set j b).set k c).reverse =
      256 ^ (31 - i) * a.toNat + 256 ^ (31 - j) * b.toNat + 256 ^ (31 - k) * c.toNat := by
  rw [value_reverse_set (by rw [getElem?_set_ne hjk, getElem?_set_ne hik, getElem?_replicate, if_pos hk]),
    value_reverse_set (by rw [getElem?_set_ne hij, getElem?_replicate, if_pos hj]),
    value_reverse_set (by rw [getElem?_replicate, if_pos hi]), length_set, length_set, length_set,
    length_replicate, show value (List.replicate 32 0).reverse = 0 by decide, Nat.zero_add]

theorem length_bitsToTarget (n_bits : Nat) : (bitsToTarget n_bits).length = 32 := by
  unfold bitsToTarget
  dsimp only
  repeat' split
  all_goals simp

theorem bytes_eq {c : Nat} (h : c < 2 ^ 24) : (UInt8.ofNat c).toNat + 256 * (UInt8.ofNat (c >>> 8)).toNat +
    65536 * (UInt8.ofNat (c >>> 16)).toNat = c := by
  simp only [UInt8.toNat_ofNat', Nat.shiftRight_eq_div_pow]
  omega

theorem bitsToTarget_few {n_bits : Nat} (he : n_bits >>> 24 &&& 0xff ≤ 4) :
    256 ^ 29 ∣ value (bitsToTarget n_bits).reverse := by
  have hlist : ∃ x y z, bitsToTarget n_bits = x :: y :: z :: List.replicate 29 0 := by
    unfold bitsToTarget
    dsimp only
    by_cases hfour : n_bits >>> 24 &&& 0xff = 4
    · rw [hfour]
      exact ⟨_, _, _, rfl⟩
    · rw [if_pos (by omega)]
      split <;> split <;> exact ⟨_, _, _, rfl⟩
  obtain ⟨x, y, z, hlist⟩ := hlist
  rw [hlist, show (x :: y :: z :: List.replicate 29 0).reverse = List.replicate 29 0 ++ [z, y, x] from rfl,
    value_append, show value (List.replicate 29 0) = 0 by decide, Nat.zero_add]
  exact Nat.dvd_mul_right _ _

theorem bitsToTarget_many {n_bits e : Nat} (hexponent : n_bits >>> 24 &&& 0xff = e) (hlo : 5 ≤ e)
    (hhi : e ≤ 34) {c : Nat} (hc : n_bits &&& 0x007fffff = c) (hsmall : c < 2 ^ 24) :
    value (bitsToTarget n_bits).reverse = 256 ^ (34 - e) * c := by
  unfold bitsToTarget
  rw [hexponent, hc, if_neg (by omega), if_pos hhi, if_pos (by omega), if_pos (by omega),
    value_reverse_three (by omega) (by omega) (by omega) (by omega) (by omega) (by omega),
    show 31 - (e - 3) = 34 - e by omega, show 31 - (e - 3 - 1) = 34 - e + 1 by omega,
    show 31 - (e - 3 - 2) = 34 - e + 2 by omega]
  conv_rhs => rw [← bytes_eq hsmall]
  ring

theorem bitsToTarget_ne {nBits : Nat} {pow_limit : Uint256} {t : ArithUint256}
    (h : deriveTarget nBits pow_limit = some t) : value (bitsToTarget nBits).reverse ≠ t.val := by
  obtain ⟨hset, hpos, -⟩ := deriveTarget_eq_some h
  have hval := setCompact_val nBits
  rw [hset] at hval
  have hc : nBits &&& 0x007fffff = nBits % 2 ^ 23 := and_0x7fffff nBits
  have hsmall : nBits % 2 ^ 23 < 2 ^ 23 := Nat.mod_lt _ (by decide)
  have hexponent : nBits >>> 24 &&& 0xff = nBits / 2 ^ 24 % 256 := by
    rw [Nat.shiftRight_eq_div_pow]
    exact Nat.and_two_pow_sub_one_eq_mod _ 8
  generalize hC : nBits % 2 ^ 23 = c at hc hsmall
  generalize hE : nBits / 2 ^ 24 = e at hexponent
  have hexpand : expand nBits = Compact.unpack 3 e c := by rw [← hC, ← hE]; rfl
  rw [hexpand, Compact.unpack] at hval
  have hle : e ≤ 34 := by
    by_contra hgt
    rw [if_neg (by omega), Nat.mod_eq_zero_of_dvd] at hval
    · omega
    · exact Dvd.dvd.mul_left (pow_dvd_pow 2 (by omega)) c
  rw [Nat.mod_eq_of_lt (by omega)] at hexponent
  intro heq
  -- at both ends one of the two is a multiple of a power and the other one is below it
  have hfar : ∀ {p : Nat}, p ∣ t.val → ¬ t.val < p := fun hdvd hlt => by
    rw [Nat.eq_zero_of_dvd_of_lt hdvd hlt] at hpos
    exact Nat.lt_irrefl 0 hpos
  by_cases hfew : e ≤ 4
  · refine hfar (heq ▸ bitsToTarget_few (hexponent.trans_le hfew)) (hval ▸ (Nat.mod_le _ _).trans_lt ?_)
    have hshift : c * 2 ^ (8 * (e - 3)) ≤ c * 2 ^ 8 :=
      Nat.mul_le_mul_left c (Nat.pow_le_pow_right (by decide) (by omega))
    have hdiv := Nat.div_le_self c (2 ^ (8 * (3 - e)))
    split <;> omega
  rw [bitsToTarget_many hexponent (by omega) hle hc (by omega)] at heq
  rw [if_neg (by omega)] at hval
  by_cases hwrap : e ≤ 32
  · have hlt : c * 2 ^ (8 * (e - 3)) < 2 ^ 256 :=
      calc c * 2 ^ (8 * (e - 3)) < 2 ^ 23 * 2 ^ (8 * (e - 3)) :=
            Nat.mul_lt_mul_of_pos_right hsmall (Nat.two_pow_pos _)
        _ ≤ 2 ^ 23 * 2 ^ 232 := Nat.mul_le_mul_left _ (Nat.pow_le_pow_right (by decide) (by omega))
        _ ≤ 2 ^ 256 := by decide
    rw [Nat.mod_eq_of_lt hlt, pow_mul, ← heq, Nat.mul_comm] at hval
    have hpow := Nat.eq_of_mul_eq_mul_left (Nat.pos_of_ne_zero fun hzero => ?_) hval
    · have := Nat.pow_right_injective (show 2 ≤ 256 by decide) hpow
      omega
    · rw [hzero] at heq
      omega
  · have hdvd : 2 ^ 240 ∣ t.val := hval ▸ (Nat.dvd_mod_iff (pow_dvd_pow 2 (by decide))).mpr
      (Dvd.dvd.mul_left (pow_dvd_pow 2 (by omega)) c)
    have hshift : 256 ^ (34 - e) * c ≤ 256 ^ 1 * c :=
      Nat.mul_le_mul_right c (Nat.pow_le_pow_right (by decide) (by omega))
    omega

/-! ## the two tests -/

theorem minerTarget_iff (params : PowParams) {nBits : Nat}
    (haccepted : (deriveTarget nBits params.powLimit).isSome)
    {target_hex : List Char} (htemplate : target_hex = [] ∨ target_hex = templateTarget nBits) :
    (∀ hash, (minerTarget target_hex nBits).map (hashLeTarget hash) =
        some (checkProofOfWorkImpl hash nBits params)) ↔
      target_hex ≠ [] := by
  obtain ⟨t, ht⟩ := Option.isSome_iff_exists.mp haccepted
  have hnode : ∀ hash, checkProofOfWorkImpl hash nBits params =
      decide (value hash.data ≤ t.val) := fun hash => by
    rw [checkProofOfWorkImpl, ht]
    dsimp only
    rw [gt_eq, uintToArith256_val, ← decide_not, decide_eq_decide, Nat.not_lt]
  obtain ⟨hset, -, -⟩ := deriveTarget_eq_some ht
  obtain rfl | rfl := htemplate
  · refine iff_of_false (fun hall => ?_) (· rfl)
    have hne := bitsToTarget_ne ht
    have hlt := value_lt (bitsToTarget nBits).reverse
    rw [length_reverse, length_bitsToTarget] at hlt
    -- the greater of the two is below one and not below the other
    have hmax : max (value (bitsToTarget nBits).reverse) t.val < 256 ^ 32 := max_lt hlt t.val_lt
    have h := hall ⟨fixed 32 _, length_fixed 32 (max (value (bitsToTarget nBits).reverse) t.val)⟩
    rw [minerTarget, if_pos (by rfl), Option.map_some, hnode, hashLeTarget_eq _ (length_bitsToTarget nBits),
      value_fixed hmax, Option.some_inj, decide_eq_decide] at h
    omega
  · have hhex : hexTargetToBytes (templateTarget nBits) = some t.toBlob.data.reverse := by
      rw [templateTarget, hset, hexTargetToBytes_getHex]
    have hne : templateTarget nBits ≠ [] :=
      ne_nil_of_length_pos (by rw [templateTarget, length_getHex]; decide)
    refine iff_of_true (fun hash => ?_) hne
    rw [minerTarget, if_neg (by simpa using hne), hhex, Option.map_some, hnode,
      hashLeTarget_eq _ (by rw [length_reverse, t.toBlob.size_eq]), reverse_reverse, toBlob_value]

theorem minerTarget_iff_limit : templateTarget 0x1f7fffff ≠ [] ∧ ∀ hash,
    (minerTarget (templateTarget 0x1f7fffff) 0x1f7fffff).map (hashLeTarget hash) =
      some (checkProofOfWorkImpl hash 0x1f7fffff mainPow) := by
  have hne : templateTarget 0x1f7fffff ≠ [] :=
    ne_nil_of_length_pos (by rw [templateTarget]; decide)
  exact ⟨hne, (minerTarget_iff mainPow (by decide +kernel) (.inr rfl)).mpr hne⟩

/-- at the limit of the main network the miner discards a good hash -/
theorem bitsToTarget_discards :
    checkProofOfWorkImpl ⟨List.replicate 20 0 ++ 1 :: List.replicate 11 0, by decide⟩ 0x1f7fffff
      mainPow = true ∧
    hashLeTarget ⟨List.replicate 20 0 ++ 1 :: List.replicate 11 0, by decide⟩
      (bitsToTarget 0x1f7fffff) = false := by
  decide +kernel

end ElektronNet
