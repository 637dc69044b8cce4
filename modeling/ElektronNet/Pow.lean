import ElektronNet.ArithUint256
import ElektronNet.ConsensusParams

/-!
# Proof of work

`pow.cpp`.  A chain is read by height: the function gives `nBits` and `nTime` of the block at a height,
`pprev` is the height below and `GetAncestor` a height that is not above.

* `deriveTarget`                      the target that a header may claim
* `getNextWorkRequired`               what the next header has to claim
* `calculateNextWorkRequired`         the retarget at the end of a period
* `permittedDifficultyTransition`     what the presync of headers checks in its place

`scaleTarget` is the step that the last two share: one product of 256 bits, one division, the cap.
`calculateNextWorkRequired_eq` and `permittedDifficultyTransition_boundary` say what they compute in
numbers.
-/

set_option linter.unusedSectionVars false

namespace ElektronNet

open ArithUint256

/-- the members of `Consensus::Params` that the proof of work reads -/
structure PowParams where
  powLimit : Uint256
  fPowAllowMinDifficultyBlocks : Bool
  enforce_BIP94 : Bool
  fPowNoRetargeting : Bool
  /-- `-1`: never active -/
  MinDifficultyActivationHeight : Int := -1
  /-- `-1`: never over -/
  StoicAwakeningEndHeight : Int := -1
  nPowTargetSpacing : Nat
  nPowTargetTimespan : Nat

structure PowBlock where
  nBits : Nat
  nTime : Nat
deriving DecidableEq

namespace PowParams

def difficultyAdjustmentInterval (params : PowParams) : Nat :=
  params.nPowTargetTimespan / params.nPowTargetSpacing

def limit (params : PowParams) : Nat := (uintToArith256 params.powLimit).val

/-- the Stoic Awakening, or a network that always allows blocks of the least difficulty -/
def allowMinDifficulty (params : PowParams) (nHeight : Nat) : Bool :=
  let stoicAwakeningActive := decide (params.MinDifficultyActivationHeight ≠ -1) &&
    decide ((nHeight : Int) ≥ params.MinDifficultyActivationHeight) &&
    (decide (params.StoicAwakeningEndHeight = -1) ||
      decide ((nHeight : Int) < params.StoicAwakeningEndHeight))
  params.fPowAllowMinDifficultyBlocks || stoicAwakeningActive

theorem allowMinDifficulty_of_end {params : PowParams} (hallow : params.fPowAllowMinDifficultyBlocks = false)
    (hend : params.StoicAwakeningEndHeight ≠ -1) {nHeight : Nat}
    (h : params.StoicAwakeningEndHeight ≤ nHeight) : params.allowMinDifficulty nHeight = false := by
  unfold allowMinDifficulty
  rw [hallow, decide_eq_false hend, decide_eq_false (show ¬ (nHeight : Int) < _ by omega)]
  simp

end PowParams

/-! ## the networks -/

/-- bytes from the least significant one: `007fffff00…00` -/
def easyPowLimit : Uint256 := ⟨List.replicate 28 0 ++ [0xff, 0xff, 0x7f, 0x00], by decide⟩

def sigNetPowLimit : Uint256 := ⟨List.replicate 27 0 ++ [0xae, 0x77, 0x03, 0x00, 0x00], by decide⟩

def regTestPowLimit : Uint256 := ⟨List.replicate 31 0xff ++ [0x7f], by decide⟩

def mainPow : PowParams where
  powLimit := easyPowLimit
  fPowAllowMinDifficultyBlocks := false
  enforce_BIP94 := false
  fPowNoRetargeting := false
  MinDifficultyActivationHeight := 1
  StoicAwakeningEndHeight := 150000
  nPowTargetSpacing := 60
  nPowTargetTimespan := 2016 * 60

def testNetPow : PowParams where
  powLimit := easyPowLimit
  fPowAllowMinDifficultyBlocks := true
  enforce_BIP94 := false
  fPowNoRetargeting := false
  nPowTargetSpacing := 60
  nPowTargetTimespan := 2016 * 60

def testNet4Pow : PowParams where
  powLimit := easyPowLimit
  fPowAllowMinDifficultyBlocks := true
  enforce_BIP94 := true
  fPowNoRetargeting := false
  nPowTargetSpacing := 60
  nPowTargetTimespan := 2016 * 60

def sigNetPow : PowParams where
  powLimit := sigNetPowLimit
  fPowAllowMinDifficultyBlocks := false
  enforce_BIP94 := false
  fPowNoRetargeting := false
  nPowTargetSpacing := 60
  nPowTargetTimespan := 2016 * 60

/-- `enforce_BIP94` is an option here, off by default -/
def regTestPow : PowParams where
  powLimit := regTestPowLimit
  fPowAllowMinDifficultyBlocks := true
  enforce_BIP94 := false
  fPowNoRetargeting := true
  nPowTargetSpacing := 60
  nPowTargetTimespan := 2016 * 60

def ChainType.pow : ChainType → PowParams
  | .MAIN => mainPow
  | .TESTNET => testNetPow
  | .SIGNET => sigNetPow
  | .REGTEST => regTestPow
  | .TESTNET4 => testNet4Pow

theorem ChainType.pow_timespan (net : ChainType) : net.pow.nPowTargetTimespan = 120960 := by
  cases net <;> rfl

theorem easyPowLimit_val : (uintToArith256 easyPowLimit).val = 0x7fffff * 2 ^ 224 := by decide +kernel

theorem mainPow_limit : mainPow.limit = 0x7fffff * 2 ^ 224 := easyPowLimit_val

theorem sigNetPowLimit_val : (uintToArith256 sigNetPowLimit).val = 0x377ae * 2 ^ 216 := by decide +kernel

/-! ## targets -/

def deriveTarget (nBits : Nat) (pow_limit : Uint256) : Option ArithUint256 :=
  let bnTarget := (setCompact nBits).1
  let fNegative := (setCompact nBits).2.1
  let fOverflow := (setCompact nBits).2.2
  if fNegative || bnTarget.equalTo 0 || fOverflow || bnTarget.gt (uintToArith256 pow_limit) then none
  else some bnTarget

theorem deriveTarget_eq_some {nBits : Nat} {pow_limit : Uint256} {t : ArithUint256}
    (h : deriveTarget nBits pow_limit = some t) :
    (setCompact nBits).1 = t ∧ 0 < t.val ∧ t.val ≤ (uintToArith256 pow_limit).val := by
  unfold deriveTarget at h
  dsimp only at h
  split at h
  · cases h
  · rename_i hok
    cases h
    rw [equalTo_eq _ (by decide), gt_eq] at hok
    simp only [Bool.or_eq_true, decide_eq_true_eq, not_or] at hok
    exact ⟨rfl, Nat.pos_of_ne_zero hok.1.1.2, Nat.not_lt.mp hok.2⟩

theorem deriveTarget_compact {v : Nat} {pow_limit : Uint256} (hpos : 0 < v) (hsmall : v < 2 ^ 255)
    (hle : v ≤ (uintToArith256 pow_limit).val) :
    ∃ t, deriveTarget (compact v) pow_limit = some t ∧ t.val = rounded v := by
  have hval : (setCompact (compact v)).1.val = rounded v := setCompact_compact (by omega)
  have hrounded := rounded_le v
  have hhalf := le_two_mul_rounded v
  refine ⟨(setCompact (compact v)).1, ?_, hval⟩
  unfold deriveTarget
  dsimp only
  rw [setCompact_compact_flags (hsmall.trans (by decide)), equalTo_eq _ (by decide), gt_eq, if_neg]
  simp only [Bool.or_eq_true, decide_eq_true_eq, not_or]
  exact ⟨⟨⟨Bool.false_ne_true, by omega⟩, Bool.false_ne_true⟩, by omega⟩

/-- the conversion of an `int64_t` to the `uint32_t` of `operator*=` -/
def toUint32 (n : Int) : Nat := (n % 2 ^ 32).toNat

theorem toUint32_lt (n : Int) : toUint32 n < 2 ^ 32 := by
  unfold toUint32
  omega

theorem toUint32_eq {n : Int} (hn : 0 ≤ n) (hlt : n < 2 ^ 32) : toUint32 n = n.toNat := by
  unfold toUint32
  rw [Int.emod_eq_of_lt hn hlt]

/-- `SetCompact`, `*= timespan`, `/= nPowTargetTimespan`, and not above the limit -/
def scaleTarget (params : PowParams) (nBits : Nat) (timespan : Int) : Except Fault ArithUint256 := do
  let bn ← ((setCompact nBits).1.mulU32 (toUint32 timespan) (toUint32_lt timespan)).div
    (ofUint64 params.nPowTargetTimespan)
  return if bn.gt (uintToArith256 params.powLimit) then uintToArith256 params.powLimit else bn

/-! ## what the next block has to claim -/

def calculateNextWorkRequired (params : PowParams) (chain : Nat → PowBlock) (pindexLast : Nat)
    (nFirstBlockTime : Int) : Except Fault Nat := do
  if params.fPowNoRetargeting then
    return (chain pindexLast).nBits
  let timespan : Int := params.nPowTargetTimespan
  let nActualTimespan : Int := (chain pindexLast).nTime - nFirstBlockTime
  let nActualTimespan := if nActualTimespan < timespan / 4 then timespan / 4 else nActualTimespan
  let nActualTimespan := if nActualTimespan > timespan * 4 then timespan * 4 else nActualTimespan
  if params.enforce_BIP94 then
    let nHeightFirst : Int := pindexLast - (params.difficultyAdjustmentInterval - 1)
    -- there is no ancestor to read
    if nHeightFirst < 0 then
      throw (.assertion "pindexFirst")
    (← scaleTarget params (chain nHeightFirst.toNat).nBits nActualTimespan).getCompact
  else
    (← scaleTarget params (chain pindexLast).nBits nActualTimespan).getCompact

/-- the loop over blocks that the exception made easy, back to the first block of the period -/
def lastNonSpecial (params : PowParams) (chain : Nat → PowBlock) (nProofOfWorkLimit : Nat) : Nat → Nat
  | 0 => 0
  | n + 1 =>
    if (n + 1) % params.difficultyAdjustmentInterval ≠ 0 ∧ (chain (n + 1)).nBits = nProofOfWorkLimit then
      lastNonSpecial params chain nProofOfWorkLimit n
    else n + 1

/-- `nTime` is that of the new block -/
def getNextWorkRequired (params : PowParams) (chain : Nat → PowBlock) (pindexLast : Nat) (nTime : Nat) :
    Except Fault Nat := do
  let nProofOfWorkLimit ← (uintToArith256 params.powLimit).getCompact
  if (pindexLast + 1) % params.difficultyAdjustmentInterval ≠ 0 then
    if params.allowMinDifficulty (pindexLast + 1) then
      if nTime > (chain pindexLast).nTime + params.nPowTargetSpacing * 2 then
        return nProofOfWorkLimit
      else
        return (chain (lastNonSpecial params chain nProofOfWorkLimit pindexLast)).nBits
    return (chain pindexLast).nBits
  let nHeightFirst : Int := pindexLast - (params.difficultyAdjustmentInterval - 1)
  if nHeightFirst < 0 then
    throw (.assertion "nHeightFirst >= 0")
  calculateNextWorkRequired params chain pindexLast (chain nHeightFirst.toNat).nTime

/-! ## what the presync of headers allows -/

def permittedDifficultyTransition (params : PowParams) (height old_nbits new_nbits : Nat) :
    Except Fault Bool := do
  if params.allowMinDifficulty height then
    return true
  let timespan : Int := params.nPowTargetTimespan
  if height % params.difficultyAdjustmentInterval = 0 then
    let observed_new_target := (setCompact new_nbits).1
    let largest_difficulty_target ← scaleTarget params old_nbits (timespan * 4)
    let maximum_new_target := (setCompact (← largest_difficulty_target.getCompact)).1
    if maximum_new_target.lt observed_new_target then
      return false
    let smallest_difficulty_target ← scaleTarget params old_nbits (timespan / 4)
    let minimum_new_target := (setCompact (← smallest_difficulty_target.getCompact)).1
    if minimum_new_target.gt observed_new_target then
      return false
  else if old_nbits ≠ new_nbits then
    return false
  return true

/-! ## in numbers -/

/-- the target of the code's own arithmetic: the product wraps -/
def wrappedTarget (limit T old timespan : Nat) : Nat := min limit (old * timespan % 2 ^ 256 / T)

/-- the target of the rule, over unbounded integers -/
def exactTarget (limit T old timespan : Nat) : Nat := min limit (old * timespan / T)

theorem wrappedTarget_eq {limit T old timespan : Nat} (h : old * timespan < 2 ^ 256) :
    wrappedTarget limit T old timespan = exactTarget limit T old timespan := by
  unfold wrappedTarget exactTarget
  rw [Nat.mod_eq_of_lt h]

theorem exactTarget_mono {limit T old s t : Nat} (h : s ≤ t) :
    exactTarget limit T old s ≤ exactTarget limit T old t :=
  min_le_min le_rfl (Nat.div_le_div_right (Nat.mul_le_mul_left old h))

/-- the time that a period took, between a quarter of the planned time and four times it -/
def clampTimespan (T : Nat) (elapsed : Int) : Nat := (max ((T : Int) / 4) (min elapsed (4 * T))).toNat

section Numbers

variable {params : PowParams} (hpos : 0 < params.nPowTargetTimespan)
  (hbound : 4 * params.nPowTargetTimespan < 2 ^ 32)
include hpos hbound

theorem scaleTarget_ok (nBits : Nat) {timespan : Int} (hn : 0 ≤ timespan) (hlt : timespan < 2 ^ 32) :
    ∃ b, scaleTarget params nBits timespan = .ok b ∧ b.val = wrappedTarget params.limit
      params.nPowTargetTimespan (setCompact nBits).1.val timespan.toNat := by
  have hT : (ofUint64 params.nPowTargetTimespan).val = params.nPowTargetTimespan :=
    ofUint64_val (by omega)
  obtain ⟨q, hq, hval⟩ := div_ok
    ((setCompact nBits).1.mulU32 (toUint32 timespan) (toUint32_lt timespan)) (hT ▸ hpos)
  rw [hT, mulU32_val, toUint32_eq hn hlt, Nat.mul_comm] at hval
  refine ⟨_, by
    unfold scaleTarget
    rw [hq]
    rfl, ?_⟩
  unfold wrappedTarget PowParams.limit
  rw [gt_eq, ← hval]
  by_cases hgt : (uintToArith256 params.powLimit).val < q.val
  · rw [decide_eq_true hgt, if_pos rfl, min_eq_left hgt.le]
  · rw [decide_eq_false hgt, if_neg Bool.false_ne_true, min_eq_right (Nat.not_lt.mp hgt)]

theorem clamp_eq (elapsed : Int) :
    let t : Int := params.nPowTargetTimespan
    let a := if elapsed < t / 4 then t / 4 else elapsed
    (if a > t * 4 then t * 4 else a) = (clampTimespan params.nPowTargetTimespan elapsed : Int) := by
  unfold clampTimespan
  dsimp only
  split <;> split <;> omega

theorem clampTimespan_le (elapsed : Int) :
    params.nPowTargetTimespan / 4 ≤ clampTimespan params.nPowTargetTimespan elapsed ∧
      clampTimespan params.nPowTargetTimespan elapsed ≤ params.nPowTargetTimespan * 4 := by
  unfold clampTimespan
  omega

/-- **The retarget in numbers**: the block that the old target is read from is the last one of the
period, or the first one under BIP94. -/
theorem calculateNextWorkRequired_eq (hretarget : params.fPowNoRetargeting = false)
    (chain : Nat → PowBlock) {pindexLast : Nat}
    (hlast : params.difficultyAdjustmentInterval ≤ pindexLast + 1) (nFirstBlockTime : Int) :
    calculateNextWorkRequired params chain pindexLast nFirstBlockTime =
      .ok (compact (wrappedTarget params.limit params.nPowTargetTimespan
        (setCompact (chain (if params.enforce_BIP94 then
          pindexLast + 1 - params.difficultyAdjustmentInterval else pindexLast)).nBits).1.val
        (clampTimespan params.nPowTargetTimespan ((chain pindexLast).nTime - nFirstBlockTime)))) := by
  have hclamp := clamp_eq hpos hbound ((chain pindexLast).nTime - nFirstBlockTime)
  unfold calculateNextWorkRequired
  dsimp only at hclamp ⊢
  rw [hclamp, if_neg (by rw [hretarget]; exact Bool.false_ne_true)]
  have hscale : ∀ nBits, ∃ b, scaleTarget params nBits
      (clampTimespan params.nPowTargetTimespan ((chain pindexLast).nTime - nFirstBlockTime)) = .ok b ∧
      b.val = wrappedTarget params.limit params.nPowTargetTimespan (setCompact nBits).1.val
        (clampTimespan params.nPowTargetTimespan ((chain pindexLast).nTime - nFirstBlockTime)) :=
    fun nBits => scaleTarget_ok hpos hbound nBits (Int.natCast_nonneg _) (by omega)
  by_cases hbip : params.enforce_BIP94 = true
  · have hfirst : ((pindexLast : Int) - (params.difficultyAdjustmentInterval - 1)).toNat =
        pindexLast + 1 - params.difficultyAdjustmentInterval := by omega
    rw [if_pos hbip, if_pos hbip, hfirst, if_neg (by omega)]
    obtain ⟨b, hb, hval⟩ := hscale (chain (pindexLast + 1 - params.difficultyAdjustmentInterval)).nBits
    rw [hb, ← hval]
    exact b.getCompact_eq
  · rw [if_neg hbip, if_neg hbip]
    obtain ⟨b, hb, hval⟩ := hscale (chain pindexLast).nBits
    rw [hb, ← hval]
    exact b.getCompact_eq

theorem wrappedTarget_lt (nBits timespan : Nat) : wrappedTarget params.limit params.nPowTargetTimespan
    (setCompact nBits).1.val timespan < 2 ^ 256 :=
  (min_le_left _ _).trans_lt (val_lt _)

theorem permittedDifficultyTransition_boundary {height : Nat}
    (hactive : params.allowMinDifficulty height = false)
    (hboundary : height % params.difficultyAdjustmentInterval = 0) (old_nbits new_nbits : Nat) :
    permittedDifficultyTransition params height old_nbits new_nbits = .ok (decide
      ((setCompact new_nbits).1.val ≤ rounded (wrappedTarget params.limit params.nPowTargetTimespan
          (setCompact old_nbits).1.val (params.nPowTargetTimespan * 4)) ∧
        rounded (wrappedTarget params.limit params.nPowTargetTimespan
          (setCompact old_nbits).1.val (params.nPowTargetTimespan / 4)) ≤
            (setCompact new_nbits).1.val)) := by
  obtain ⟨l, hl, hlval⟩ := scaleTarget_ok hpos hbound old_nbits
    (show 0 ≤ (params.nPowTargetTimespan : Int) * 4 by omega) (by omega)
  obtain ⟨s, hs, hsval⟩ := scaleTarget_ok hpos hbound old_nbits
    (show 0 ≤ (params.nPowTargetTimespan : Int) / 4 by omega) (by omega)
  have hmax : (setCompact (compact l.val)).1.val = rounded l.val := setCompact_compact l.val_lt
  have hmin : (setCompact (compact s.val)).1.val = rounded s.val := setCompact_compact s.val_lt
  have h4 : ((params.nPowTargetTimespan : Int) * 4).toNat = params.nPowTargetTimespan * 4 := by omega
  have hq : ((params.nPowTargetTimespan : Int) / 4).toNat = params.nPowTargetTimespan / 4 := by omega
  rw [h4] at hlval
  rw [hq] at hsval
  unfold permittedDifficultyTransition
  rw [if_neg (by rw [hactive]; exact Bool.false_ne_true), if_pos hboundary, hl, hs, ← hlval, ← hsval]
  show (l.getCompact >>= fun c => _) = _
  rw [getCompact_eq]
  show (if (setCompact (compact l.val)).1.lt (setCompact new_nbits).1 = true then _ else _) = _
  rw [lt_eq, hmax]
  by_cases hup : rounded l.val < (setCompact new_nbits).1.val
  · rw [if_pos (decide_eq_true hup), decide_eq_false (fun h => absurd h.1 (Nat.not_le_of_lt hup))]
    rfl
  · rw [if_neg (by simpa using hup)]
    show (s.getCompact >>= fun c => _) = _
    rw [getCompact_eq]
    show (if (setCompact (compact s.val)).1.gt (setCompact new_nbits).1 = true then _ else _) = _
    rw [gt_eq, hmin]
    by_cases hlow : (setCompact new_nbits).1.val < rounded s.val
    · rw [if_pos (decide_eq_true hlow), decide_eq_false (fun h => absurd h.2 (Nat.not_le_of_lt hlow))]
      rfl
    · rw [if_neg (by simpa using hlow), decide_eq_true ⟨Nat.not_lt.mp hup, Nat.not_lt.mp hlow⟩]
      rfl

end Numbers

end ElektronNet
