import Mathlib.Algebra.BigOperators.Group.Finset.Basic
import Mathlib.Algebra.BigOperators.Intervals
import Mathlib.Algebra.Order.BigOperators.Group.Finset
import Mathlib.Tactic.Ring
import Mathlib.Tactic.Linarith
import Mathlib.Tactic.NormNum
import ElektronNet.ConsensusParams

/-!
# The block subsidy and the total issuance

`getBlockSubsidy` is `GetBlockSubsidy` of `validation.cpp`: five coins, halved by a right shift
in every halving epoch and nothing from epoch 64 on.  The issuance up to a height is summed epoch
by epoch: `k` whole epochs and `r` blocks of the next one give `epochSum k + r * epochSubsidy k`
(`issuance_epoch`), and the issuance never falls (`issuance_mono`), so the last height with a
given property of it is found by evaluating two heights.
-/

namespace ElektronNet

open Finset

def getBlockSubsidy (nHeight : Nat) (consensusParams : ConsensusParams) : CAmount :=
  let halvings := nHeight / consensusParams.nSubsidyHalvingInterval
  -- a right shift by 64 or more is undefined
  if halvings ≥ 64 then 0 else (5 * COIN) >>> halvings

def epochSubsidy (k : Nat) : CAmount := if k ≥ 64 then 0 else (5 * COIN) >>> k

def issuance (consensusParams : ConsensusParams) (n : Nat) : CAmount :=
  ∑ h ∈ range (n + 1), getBlockSubsidy h consensusParams

def epochSum (consensusParams : ConsensusParams) (k : Nat) : CAmount :=
  ∑ j ∈ range k, consensusParams.nSubsidyHalvingInterval * epochSubsidy j

section
variable {p : ConsensusParams}

theorem getBlockSubsidy_eq (h : Nat) :
    getBlockSubsidy h p = epochSubsidy (h / p.nSubsidyHalvingInterval) := rfl

theorem epochSubsidy_nonneg (k : Nat) : 0 ≤ epochSubsidy k := by
  unfold epochSubsidy
  split
  · exact le_rfl
  · rw [Int.shiftRight_eq_div_pow]
    exact Int.ediv_nonneg (by decide) (by positivity)

theorem getBlockSubsidy_nonneg (h : Nat) : 0 ≤ getBlockSubsidy h p := epochSubsidy_nonneg _

theorem sum_in_epoch (hI : 0 < p.nSubsidyHalvingInterval) (k : Nat) {r : Nat}
    (hr : r ≤ p.nSubsidyHalvingInterval) :
    ∑ x ∈ range r, getBlockSubsidy (k * p.nSubsidyHalvingInterval + x) p = r * epochSubsidy k := by
  have hconst : ∀ x ∈ range r,
      getBlockSubsidy (k * p.nSubsidyHalvingInterval + x) p = epochSubsidy k := by
    intro x hx
    have hx' : x < p.nSubsidyHalvingInterval := lt_of_lt_of_le (mem_range.mp hx) hr
    have hdiv : (k * p.nSubsidyHalvingInterval + x) / p.nSubsidyHalvingInterval = k := by
      rw [Nat.add_comm, Nat.add_mul_div_right _ _ hI, Nat.div_eq_of_lt hx', Nat.zero_add]
    rw [getBlockSubsidy_eq, hdiv]
  rw [sum_congr rfl hconst, sum_const, card_range, nsmul_eq_mul]

theorem sum_whole_epochs (hI : 0 < p.nSubsidyHalvingInterval) (k : Nat) :
    ∑ h ∈ range (k * p.nSubsidyHalvingInterval), getBlockSubsidy h p = epochSum p k := by
  induction k with
  | zero => simp [epochSum]
  | succ k ih =>
    rw [Nat.succ_mul, sum_range_add, ih, sum_in_epoch hI k le_rfl, epochSum, epochSum,
      sum_range_succ]

theorem issuance_epoch (hI : 0 < p.nSubsidyHalvingInterval) {n k r : Nat}
    (hn : n + 1 = k * p.nSubsidyHalvingInterval + r) (hr : r ≤ p.nSubsidyHalvingInterval) :
    issuance p n = epochSum p k + r * epochSubsidy k := by
  rw [issuance, hn, sum_range_add, sum_whole_epochs hI, sum_in_epoch hI k hr]

theorem issuance_mono {m n : Nat} (h : m ≤ n) : issuance p m ≤ issuance p n :=
  sum_le_sum_of_subset_of_nonneg (range_subset_range.mpr (by omega))
    fun h _ _ => getBlockSubsidy_nonneg h

end

/-! ## the main network -/

theorem mainParams_epochSum_nine : epochSum mainParams 9 = 2098293750000000 := by decide

theorem mainParams_issuance_tenth {n r : Nat} (hn : n + 1 = 9 * 2102400 + r) (hr : r ≤ 2102400) :
    issuance mainParams n = 2098293750000000 + r * 976562 := by
  have hs : epochSubsidy 9 = 976562 := by decide
  rw [issuance_epoch (p := mainParams) (by decide) hn hr, mainParams_epochSum_nine, hs]

theorem mainParams_maxMoney_lt : MAX_MONEY < issuance mainParams 20668800 := by
  rw [mainParams_issuance_tenth (r := 1747201) (by norm_num) (by norm_num)]
  decide

/-- the first height whose issuance leaves the money range -/
theorem mainParams_issuance_exceeds : ¬ issuance mainParams 20668800 ≤ MAX_MONEY :=
  not_le.mpr mainParams_maxMoney_lt

/-- **the issuance stays in the money range up to the height 20668799 and no further** -/
theorem mainParams_issuance_moneyRange_iff (n : Nat) :
    issuance mainParams n ≤ MAX_MONEY ∧ moneyRange (issuance mainParams n) = true ↔
      n ≤ 20668799 := by
  have hlast : issuance mainParams 20668799 ≤ MAX_MONEY := by
    rw [mainParams_issuance_tenth (r := 1747200) (by norm_num) (by norm_num)]
    decide
  constructor
  · rintro ⟨hle, -⟩
    by_contra hn
    have hmono : issuance mainParams 20668800 ≤ issuance mainParams n :=
      issuance_mono (by omega)
    exact absurd (lt_of_lt_of_le mainParams_maxMoney_lt hmono) (not_lt.mpr hle)
  · intro hn
    have hle : issuance mainParams n ≤ MAX_MONEY := le_trans (issuance_mono hn) hlast
    have hpos : 0 ≤ issuance mainParams n := sum_nonneg fun h _ => getBlockSubsidy_nonneg h
    exact ⟨hle, (moneyRange_iff _).mpr ⟨hpos, hle⟩⟩

end ElektronNet
