import ElektronNet.Pow

/-!
# Retargeting

What `CalculateNextWorkRequired` computes, against the rule over unbounded integers: the old target times
the time that the period took, over the time that was planned, and not above the limit.

The product has 256 bits.  With a limit of `2^247` and a timespan of 19 bits it wraps for the easiest
targets, and then the result is never the one of the rule:

* `compact_wrappedTarget_ne`               a product that wraps shows in the compact form
* `calculateNextWorkRequired_exact_iff`    the result is that of the rule iff the product does not wrap
-/

namespace ElektronNet

open ArithUint256

def PowParams.targetBlock (params : PowParams) (pindexLast : Nat) : Nat :=
  if params.enforce_BIP94 then pindexLast + 1 - params.difficultyAdjustmentInterval else pindexLast

theorem compact_wrappedTarget_ne {old timespan : Nat} (h : 2 ^ 256 ≤ old * timespan) :
    compact (wrappedTarget (0x7fffff * 2 ^ 224) 120960 old timespan) ≠
      compact (exactTarget (0x7fffff * 2 ^ 224) 120960 old timespan) := by
  intro heq
  have hrounded : rounded (wrappedTarget (0x7fffff * 2 ^ 224) 120960 old timespan) =
      rounded (exactTarget (0x7fffff * 2 ^ 224) 120960 old timespan) := congrArg expand heq
  have hw := rounded_le (wrappedTarget (0x7fffff * 2 ^ 224) 120960 old timespan)
  have he := @lt_rounded_add (exactTarget (0x7fffff * 2 ^ 224) 120960 old timespan)
    ((min_le_left _ _).trans_lt (by norm_num))
  rw [hrounded] at hw
  unfold wrappedTarget at hw
  unfold exactTarget at hw he
  omega

theorem sigNet_product_lt {old timespan : Nat} (hold : old ≤ 0x377ae * 2 ^ 216)
    (htimespan : timespan ≤ 120960 * 4) : old * timespan < 2 ^ 256 :=
  (Nat.mul_le_mul hold htimespan).trans_lt (by norm_num)

/-- **The retarget is exact iff the product fits into 256 bits**, on every network that retargets, for
every target that a header may claim and every pair of times. -/
theorem calculateNextWorkRequired_exact_iff {net : ChainType}
    (hretarget : net.pow.fPowNoRetargeting = false) (chain : Nat → PowBlock) {pindexLast : Nat}
    (hlast : (pindexLast + 1) % net.pow.difficultyAdjustmentInterval = 0) (nFirstBlockTime : Int)
    {old : ArithUint256}
    (hold : deriveTarget (chain (net.pow.targetBlock pindexLast)).nBits net.pow.powLimit = some old) :
    calculateNextWorkRequired net.pow chain pindexLast nFirstBlockTime =
        .ok (compact (exactTarget net.pow.limit net.pow.nPowTargetTimespan old.val
          (clampTimespan net.pow.nPowTargetTimespan ((chain pindexLast).nTime - nFirstBlockTime)))) ↔
      old.val * clampTimespan net.pow.nPowTargetTimespan ((chain pindexLast).nTime - nFirstBlockTime) <
        2 ^ 256 := by
  have hT := net.pow_timespan
  have hfirst : net.pow.difficultyAdjustmentInterval ≤ pindexLast + 1 :=
    Nat.le_of_dvd (Nat.succ_pos _) (Nat.dvd_of_mod_eq_zero hlast)
  obtain ⟨hset, -, hlimit⟩ := deriveTarget_eq_some hold
  have hcalc := calculateNextWorkRequired_eq (by omega) (by omega) hretarget chain hfirst nFirstBlockTime
  rw [show (if net.pow.enforce_BIP94 then _ else _) = net.pow.targetBlock pindexLast from rfl, hset] at hcalc
  have hspan := (clampTimespan_le (show 0 < net.pow.nPowTargetTimespan by omega) (by omega)
    ((chain pindexLast).nTime - nFirstBlockTime)).2
  rw [hcalc, hT]
  constructor
  · intro heq
    by_contra hwrap
    have hcompact := Except.ok.inj heq
    have heasy : net.pow.limit = 0x7fffff * 2 ^ 224 → False := by
      intro hval
      rw [hval] at hcompact
      exact compact_wrappedTarget_ne (Nat.not_lt.mp hwrap) hcompact
    cases net with
    | MAIN => exact heasy easyPowLimit_val
    | TESTNET => exact heasy easyPowLimit_val
    | TESTNET4 => exact heasy easyPowLimit_val
    | SIGNET => exact hwrap (sigNet_product_lt (sigNetPowLimit_val ▸ hlimit) hspan)
    | REGTEST => cases hretarget
  · intro hlt
    rw [wrappedTarget_eq hlt]

def plannedPeriod (nBits h : Nat) : PowBlock := ⟨nBits, 1781164284 + if h = 0 then 0 else 120960⟩

theorem easy_accepted {v nBits : Nat} (hcompact : compact v = nBits) (hexpand : expand nBits = v)
    (hpos : 0 < v) (hle : v ≤ 0x7fffff * 2 ^ 224) :
    ∃ t, deriveTarget nBits easyPowLimit = some t ∧ t.val = v := by
  obtain ⟨t, ht, hval⟩ := deriveTarget_compact hpos (hle.trans_lt (by norm_num))
    (hle.trans_eq easyPowLimit_val.symm)
  rw [hcompact] at ht
  rw [rounded, hcompact, hexpand] at hval
  exact ⟨t, ht, hval⟩

theorem compact_limit : compact (0x7fffff * 2 ^ 224) = 0x1f7fffff :=
  compact_eq (k := 30) (by norm_num) (by norm_num)

theorem compact_genesis : compact (0x7fffff * 2 ^ 208) = 0x1d7fffff :=
  compact_eq (k := 28) (by norm_num) (by norm_num)

theorem limit_accepted :
    ∃ t, deriveTarget 0x1f7fffff easyPowLimit = some t ∧ t.val = 0x7fffff * 2 ^ 224 :=
  easy_accepted compact_limit (by decide +kernel) (by norm_num) le_rfl

theorem genesis_accepted :
    ∃ t, deriveTarget 0x1d7fffff easyPowLimit = some t ∧ t.val = 0x7fffff * 2 ^ 208 :=
  easy_accepted compact_genesis (by decide +kernel) (by norm_num) (by norm_num)

theorem plannedPeriod_timespan (nBits : Nat) : clampTimespan mainPow.nPowTargetTimespan
    ((plannedPeriod nBits 2015).nTime - (plannedPeriod nBits 0).nTime) = 120960 := by
  show clampTimespan 120960 (((1781164284 + 120960 : Nat) : Int) - ((1781164284 + 0 : Nat) : Int)) = 120960
  decide

/-- the target of the genesis block stays -/
theorem calculateNextWorkRequired_exact_genesis :
    calculateNextWorkRequired mainPow (plannedPeriod 0x1d7fffff) 2015
      (plannedPeriod 0x1d7fffff 0).nTime = .ok 0x1d7fffff := by
  obtain ⟨t, ht, hval⟩ := genesis_accepted
  have hiff := calculateNextWorkRequired_exact_iff
    (show ChainType.MAIN.pow.fPowNoRetargeting = false from rfl)
    (plannedPeriod 0x1d7fffff) (show (2015 + 1) % _ = 0 from rfl) (plannedPeriod 0x1d7fffff 0).nTime ht
  have hspan : clampTimespan ChainType.MAIN.pow.nPowTargetTimespan _ = 120960 :=
    plannedPeriod_timespan 0x1d7fffff
  have hlimit : ChainType.MAIN.pow.limit = 0x7fffff * 2 ^ 224 := easyPowLimit_val
  have hT : ChainType.MAIN.pow.nPowTargetTimespan = 120960 := rfl
  rw [hspan, hval] at hiff
  exact hiff.mpr (by norm_num)

/-- at the limit the period asks for the same target again and gets one that is 945 times as hard -/
theorem plannedPeriod_wraps :
    (∃ t, deriveTarget (plannedPeriod 0x1f7fffff 2015).nBits mainPow.powLimit = some t ∧
      compact (exactTarget mainPow.limit mainPow.nPowTargetTimespan t.val
        (clampTimespan mainPow.nPowTargetTimespan ((plannedPeriod 0x1f7fffff 2015).nTime -
          (plannedPeriod 0x1f7fffff 0).nTime))) = 0x1f7fffff) ∧
      calculateNextWorkRequired mainPow (plannedPeriod 0x1f7fffff) 2015
        (plannedPeriod 0x1f7fffff 0).nTime = .ok 0x1e22abd5 := by
  obtain ⟨t, ht, hval⟩ := limit_accepted
  have hspan := plannedPeriod_timespan 0x1f7fffff
  have hlimit : mainPow.limit = 0x7fffff * 2 ^ 224 := easyPowLimit_val
  refine ⟨⟨t, ht, ?_⟩, ?_⟩
  · have hexact : exactTarget (0x7fffff * 2 ^ 224) mainPow.nPowTargetTimespan (0x7fffff * 2 ^ 224) 120960 =
        0x7fffff * 2 ^ 224 := by decide +kernel
    rw [hspan, hval, hlimit, hexact, compact_limit]
  · obtain ⟨hset, -, -⟩ := deriveTarget_eq_some ht
    have hcalc := calculateNextWorkRequired_eq (show 0 < mainPow.nPowTargetTimespan by decide) (by decide)
      rfl (plannedPeriod 0x1f7fffff) (show mainPow.difficultyAdjustmentInterval ≤ 2015 + 1 by decide)
      (plannedPeriod 0x1f7fffff 0).nTime
    rw [hcalc]
    show Except.ok (compact (wrappedTarget _ _ (setCompact 0x1f7fffff).1.val _)) = _
    exact congrArg Except.ok (compact_eq (k := 29) (by decide +kernel) (by decide +kernel))

end ElektronNet
