import ElektronNet.Retarget

/-!
# The Stoic Awakening

Until `StoicAwakeningEndHeight` a block that comes late may claim the limit, and the blocks behind it go
back to the target of the period.  From the end height on a block copies its parent, whatever it is.

* `period_bits`      below the end height a block of a period has the bits of the first one, or the
                     limit where it escapes
* `active_period_bits`   the same in every period in which the escape is active
* `copied_bits`      from the end height on the bits of a period stay
* `getNextWorkRequired_firstBits_iff`   so the last block below the end height decides

and the check that the presync of headers makes from the end height on:

* `permittedDifficultyTransition_of_small`   it holds along every chain in which four times the timespan
                                             never wraps
* `escapeChain_refused`                      and fails at the first retarget behind an escape block
-/

namespace ElektronNet

open ArithUint256

section
variable (params : PowParams) (chain : Nat → PowBlock)

def ObeysWork (n : Nat) : Prop :=
  ∀ h, h < n → getNextWorkRequired params chain h (chain (h + 1)).nTime = .ok (chain (h + 1)).nBits

/-- every target up to `n` is one that a header may claim -/
def ClaimsTargets (n : Nat) : Prop :=
  ∀ h, h ≤ n → ∃ t, deriveTarget (chain h).nBits params.powLimit = some t

/-- the block comes more than two spacings behind its parent while that makes it easy -/
def Escapes (h : Nat) : Prop :=
  h % params.difficultyAdjustmentInterval ≠ 0 ∧ params.allowMinDifficulty h = true ∧
    (chain h).nTime > (chain (h - 1)).nTime + params.nPowTargetSpacing * 2

end

instance (params : PowParams) (chain : Nat → PowBlock) (h : Nat) : Decidable (Escapes params chain h) :=
  inferInstanceAs (Decidable (_ ∧ _ ∧ _))

/-! ## one block -/

section Block

variable {params : PowParams} {chain : Nat → PowBlock} {h : Nat}

theorem getNextWorkRequired_off (hoff : (h + 1) % params.difficultyAdjustmentInterval ≠ 0) (nTime : Nat) :
    getNextWorkRequired params chain h nTime = .ok (
      if params.allowMinDifficulty (h + 1) then
        if nTime > (chain h).nTime + params.nPowTargetSpacing * 2 then compact params.limit
        else (chain (lastNonSpecial params chain (compact params.limit) h)).nBits
      else (chain h).nBits) := by
  unfold getNextWorkRequired
  rw [getCompact_eq]
  show (if _ then _ else _) = _
  rw [if_pos hoff]
  split
  · show (if _ then _ else _) = _
    split <;> rfl
  · rfl

theorem getNextWorkRequired_at (hat : (h + 1) % params.difficultyAdjustmentInterval = 0) (nTime : Nat) :
    getNextWorkRequired params chain h nTime = calculateNextWorkRequired params chain h
      (chain (h + 1 - params.difficultyAdjustmentInterval)).nTime := by
  have hle : params.difficultyAdjustmentInterval ≤ h + 1 :=
    Nat.le_of_dvd (Nat.succ_pos _) (Nat.dvd_of_mod_eq_zero hat)
  have hfirst : ((h : Int) - (params.difficultyAdjustmentInterval - 1)).toNat =
      h + 1 - params.difficultyAdjustmentInterval := by omega
  unfold getNextWorkRequired
  rw [getCompact_eq]
  show (if _ then _ else _) = _
  rw [if_neg (not_not_intro hat)]
  show (if _ then _ else _) = _
  rw [if_neg (by omega), hfirst]

theorem lastNonSpecial_of_ne {L : Nat} (hne : (chain h).nBits ≠ L) :
    lastNonSpecial params chain L h = h := by
  cases h with
  | zero => rfl
  | succ n => exact if_neg fun hand => hne hand.2

end Block

/-! ## one period -/

def PowParams.periodStart (params : PowParams) (h : Nat) : Nat := h - h % params.difficultyAdjustmentInterval

section Period

variable {params : PowParams} {chain : Nat → PowBlock} {h : Nat}

theorem periodStart_eq (h : Nat) : params.periodStart h =
    params.difficultyAdjustmentInterval * (h / params.difficultyAdjustmentInterval) := by
  have := Nat.div_add_mod h params.difficultyAdjustmentInterval
  unfold PowParams.periodStart
  omega

theorem periodStart_boundary (h : Nat) :
    params.periodStart h % params.difficultyAdjustmentInterval = 0 := by
  rw [periodStart_eq, Nat.mul_mod_right]

theorem off_boundary {k : Nat} (hlo : params.periodStart h < k) (hhi : k ≤ h) :
    k % params.difficultyAdjustmentInterval ≠ 0 := by
  obtain ⟨i, rfl⟩ := Nat.exists_eq_add_of_lt hlo
  have hi : i + 1 ≤ h % params.difficultyAdjustmentInterval := by
    unfold PowParams.periodStart at hhi
    omega
  rw [periodStart_eq, Nat.add_assoc, Nat.mul_add_mod]
  rcases Nat.eq_zero_or_pos params.difficultyAdjustmentInterval with hzero | hpos
  · rw [hzero, Nat.mod_zero]
    exact Nat.succ_ne_zero i
  · have hlt := Nat.mod_lt h hpos
    rw [Nat.mod_eq_of_lt (by omega)]
    exact Nat.succ_ne_zero i

theorem lastNonSpecial_bits {L k : Nat} (hle : params.periodStart h ≤ k) (hkh : k ≤ h)
    (hbits : ∀ j, params.periodStart h < j → j ≤ k →
      (chain j).nBits = L ∨ (chain j).nBits = (chain (params.periodStart h)).nBits) :
    (chain (lastNonSpecial params chain L k)).nBits = (chain (params.periodStart h)).nBits := by
  induction k with
  | zero =>
    rw [Nat.le_zero.mp hle]
    rfl
  | succ n ih =>
    rw [lastNonSpecial]
    rcases hle.eq_or_lt with heq | hlt
    · have hboundary := @periodStart_boundary params h
      rw [heq] at hboundary ⊢
      rw [if_neg fun hand => hand.1 hboundary]
    · by_cases hL : (chain (n + 1)).nBits = L
      · rw [if_pos ⟨off_boundary hlt hkh, hL⟩]
        exact ih (by omega) (by omega) fun j hj hjn => hbits j hj (by omega)
      · rw [if_neg fun hand => hL hand.2]
        exact (hbits (n + 1) hlt le_rfl).resolve_left hL

theorem allowMinDifficulty_pred {k : Nat} (hallow : params.fPowAllowMinDifficultyBlocks = false)
    (hend : ((k + 1 : Nat) : Int) < params.StoicAwakeningEndHeight)
    (h : params.allowMinDifficulty (k + 1) = false) : params.allowMinDifficulty k = false := by
  unfold PowParams.allowMinDifficulty at h ⊢
  rw [hallow, Bool.false_or, decide_eq_true hend, Bool.or_true, Bool.and_true] at h
  rw [hallow, Bool.false_or]
  by_cases hmin : params.MinDifficultyActivationHeight = -1
  · rw [decide_eq_false (not_not_intro hmin), Bool.false_and, Bool.false_and]
  · rw [decide_eq_true hmin, Bool.true_and, decide_eq_false_iff_not] at h
    rw [decide_eq_false (show ¬ (k : Int) ≥ params.MinDifficultyActivationHeight by omega),
      Bool.and_false, Bool.false_and]

theorem bits_of_stays {k : Nat} (hobeys : ObeysWork params chain k) (hlo : params.periodStart h < k)
    (hhi : k ≤ h) (hstays : ∀ j, params.periodStart h < j → j < k → params.allowMinDifficulty j = true →
      params.allowMinDifficulty (j + 1) = true) :
    (chain k).nBits = if Escapes params chain k then compact params.limit
      else (chain (params.periodStart h)).nBits := by
  -- the loop may go back over the whole period
  induction k using Nat.strong_induction_on with
  | h k ih =>
    obtain ⟨n, rfl⟩ := Nat.exists_eq_succ_of_ne_zero (Nat.ne_zero_of_lt hlo)
    have hoff := off_boundary hlo hhi
    have hprev : ∀ j, params.periodStart h < j → j ≤ n → (chain j).nBits =
        if Escapes params chain j then compact params.limit else (chain (params.periodStart h)).nBits := by
      intro j hj hjn
      exact ih j (by omega) (fun i hi => hobeys i (by omega)) hj (by omega)
        fun i hi hij => hstays i hi (by omega)
    have hbits := hobeys n (Nat.lt_succ_self n)
    rw [getNextWorkRequired_off hoff] at hbits
    rw [← Except.ok.inj hbits]
    by_cases hactive : params.allowMinDifficulty (n + 1) = true
    · rw [if_pos hactive]
      by_cases hlate : (chain (n + 1)).nTime > (chain n).nTime + params.nPowTargetSpacing * 2
      · rw [if_pos hlate, if_pos ⟨hoff, hactive, hlate⟩]
      · rw [if_neg hlate, if_neg fun hesc => hlate hesc.2.2]
        apply lastNonSpecial_bits (by omega) (by omega)
        intro j hj hjn
        rw [hprev j hj hjn]
        split
        · exact Or.inl rfl
        · exact Or.inr rfl
    · rw [if_neg hactive, if_neg fun hesc => hactive hesc.2.1]
      rcases (Nat.lt_succ_iff.mp hlo).eq_or_lt with heq | hlt
      · rw [heq]
      · rw [hprev n hlt le_rfl, if_neg fun hesc => hactive (hstays n hlt (Nat.lt_succ_self n) hesc.2.1)]

theorem period_bits (hallow : params.fPowAllowMinDifficultyBlocks = false) {k : Nat}
    (hobeys : ObeysWork params chain k) (hlo : params.periodStart h < k) (hhi : k ≤ h)
    (hend : (k : Int) < params.StoicAwakeningEndHeight) :
    (chain k).nBits = if Escapes params chain k then compact params.limit
      else (chain (params.periodStart h)).nBits := by
  apply bits_of_stays hobeys hlo hhi
  intro j hj hjk hactive
  by_contra hquiet
  have hpred := allowMinDifficulty_pred hallow (by omega) (Bool.eq_false_iff.mpr hquiet)
  rw [hactive] at hpred
  cases hpred

/-- **While the escape is active a late block claims the limit, and every other block what the first block
of its period claims**, whatever stands between the two. -/
theorem active_period_bits {k : Nat} (hobeys : ObeysWork params chain k)
    (hoff : k % params.difficultyAdjustmentInterval ≠ 0)
    (hactive : ∀ j, params.periodStart k < j → j ≤ k → params.allowMinDifficulty j = true) :
    ((chain k).nTime > (chain (k - 1)).nTime + params.nPowTargetSpacing * 2 →
      (uintToArith256 params.powLimit).getCompact = .ok (chain k).nBits) ∧
    (¬ (chain k).nTime > (chain (k - 1)).nTime + params.nPowTargetSpacing * 2 →
      (chain k).nBits = (chain (params.periodStart k)).nBits) := by
  have hlo : params.periodStart k < k := by
    have := Nat.mod_le k params.difficultyAdjustmentInterval
    unfold PowParams.periodStart
    omega
  have hbits := bits_of_stays (h := k) hobeys hlo le_rfl fun j hj hjk _ => hactive (j + 1) (by omega) hjk
  constructor
  · intro hlate
    rw [getCompact_eq, hbits, if_pos ⟨hoff, hactive k hlo le_rfl, hlate⟩]
    rfl
  · intro hsoon
    rw [hbits, if_neg fun hesc => hsoon hesc.2.2]

theorem copied_bits (hallow : params.fPowAllowMinDifficultyBlocks = false)
    (hend : params.StoicAwakeningEndHeight ≠ -1) {e k : Nat} (hobeys : ObeysWork params chain k)
    (hlo : params.periodStart h ≤ e) (he : params.StoicAwakeningEndHeight ≤ e + 1) (hek : e ≤ k)
    (hhi : k ≤ h) : (chain k).nBits = (chain e).nBits := by
  induction k, hek using Nat.le_induction with
  | base => rfl
  | succ k hek ih =>
    have hbits := hobeys k (Nat.lt_succ_self k)
    rw [getNextWorkRequired_off (off_boundary (by omega) hhi),
      PowParams.allowMinDifficulty_of_end hallow hend (by omega)] at hbits
    rw [← Except.ok.inj hbits]
    exact ih (fun i hi => hobeys i (by omega)) (by omega)

/-- **The last block below the end height decides**: behind it a period keeps the bits of its first block
iff that block did not escape, or the period is at the limit anyway. -/
theorem getNextWorkRequired_firstBits_iff (hallow : params.fPowAllowMinDifficultyBlocks = false)
    (hend : params.StoicAwakeningEndHeight ≠ -1) (hobeys : ObeysWork params chain h)
    (hover : params.StoicAwakeningEndHeight ≤ (h + 1 : Nat))
    (hoff : (h + 1) % params.difficultyAdjustmentInterval ≠ 0) (nTime : Nat) :
    getNextWorkRequired params chain h nTime = .ok (chain (params.periodStart (h + 1))).nBits ↔
      params.StoicAwakeningEndHeight ≤ params.periodStart (h + 1) ∨
        ¬ Escapes params chain (params.StoicAwakeningEndHeight.toNat - 1) ∨
        (chain (params.periodStart (h + 1))).nBits = compact params.limit := by
  have hstart : params.periodStart (h + 1) ≤ h := by
    unfold PowParams.periodStart
    omega
  rw [getNextWorkRequired_off hoff, PowParams.allowMinDifficulty_of_end hallow hend hover,
    if_neg Bool.false_ne_true]
  by_cases hafter : params.StoicAwakeningEndHeight ≤ params.periodStart (h + 1)
  · have hcopied := copied_bits (h := h + 1) hallow hend hobeys le_rfl (by omega) hstart (Nat.le_succ h)
    exact iff_of_true (congrArg Except.ok hcopied) (Or.inl hafter)
  · obtain ⟨e, he⟩ : ∃ e : Nat, params.StoicAwakeningEndHeight = e + 1 :=
      ⟨params.StoicAwakeningEndHeight.toNat - 1, by omega⟩
    have hsub : params.StoicAwakeningEndHeight.toNat - 1 = e := by omega
    have hcopied := copied_bits (h := h + 1) (e := e) hallow hend hobeys (by omega) he.le (by omega)
      (Nat.le_succ h)
    rw [hcopied, hsub]
    rcases (show params.periodStart (h + 1) ≤ e by omega).eq_or_lt with heq | hlt
    · have hboundary := @periodStart_boundary params (h + 1)
      rw [heq] at hboundary ⊢
      exact iff_of_true rfl (Or.inr (Or.inl fun hesc => hesc.1 hboundary))
    · rw [period_bits hallow (fun i hi => hobeys i (by omega)) hlt (by omega) (by omega)]
      by_cases hesc : Escapes params chain e
      · rw [if_pos hesc]
        constructor
        · intro heq
          exact Or.inr (Or.inr (Except.ok.inj heq).symm)
        · rintro (hle | hnot | heq)
          · exact absurd hle hafter
          · exact absurd hesc hnot
          · rw [heq]
      · rw [if_neg hesc]
        exact iff_of_true rfl (Or.inr (Or.inl hesc))

end Period

/-! ## the presync of headers -/

theorem permittedDifficultyTransition_of_retarget {params : PowParams} {chain : Nat → PowBlock} {h : Nat}
    (hpos : 0 < params.nPowTargetTimespan) (hbound : 4 * params.nPowTargetTimespan < 2 ^ 32)
    (hretarget : params.fPowNoRetargeting = false) (hbip : params.enforce_BIP94 = false)
    (hinactive : params.allowMinDifficulty (h + 1) = false)
    (hboundary : (h + 1) % params.difficultyAdjustmentInterval = 0) {nTime nBits : Nat}
    (hrequired : getNextWorkRequired params chain h nTime = .ok nBits)
    (hfits : (setCompact (chain h).nBits).1.val * (params.nPowTargetTimespan * 4) < 2 ^ 256) :
    permittedDifficultyTransition params (h + 1) (chain h).nBits nBits = .ok true := by
  have hle := Nat.le_of_dvd (Nat.succ_pos h) (Nat.dvd_of_mod_eq_zero hboundary)
  rw [getNextWorkRequired_at hboundary, calculateNextWorkRequired_eq hpos hbound hretarget chain hle,
    hbip, if_neg Bool.false_ne_true] at hrequired
  have hspan := clampTimespan_le hpos hbound ((chain h).nTime -
    (chain (h + 1 - params.difficultyAdjustmentInterval)).nTime)
  rw [permittedDifficultyTransition_boundary hpos hbound hinactive hboundary,
    ← Except.ok.inj hrequired, setCompact_compact (wrappedTarget_lt hpos hbound _ _),
    wrappedTarget_eq hfits, wrappedTarget_eq ((Nat.mul_le_mul_left _ hspan.2).trans_lt hfits),
    wrappedTarget_eq ((Nat.mul_le_mul_left _ (hspan.1.trans hspan.2)).trans_lt hfits)]
  exact congrArg Except.ok (decide_eq_true
    ⟨rounded_mono (exactTarget_mono hspan.2), rounded_mono (exactTarget_mono hspan.1)⟩)

theorem mainPow_over {h : Nat} (hactive : mainPow.allowMinDifficulty (h + 1) = false) :
    mainPow.StoicAwakeningEndHeight ≤ (h + 1 : Nat) := by
  by_contra hnot
  have hlt : ((h + 1 : Nat) : Int) < 150000 := Int.not_le.mp hnot
  change (false || (true && decide (((h + 1 : Nat) : Int) ≥ 1) &&
    (false || decide (((h + 1 : Nat) : Int) < 150000)))) = false at hactive
  rw [decide_eq_true hlt, decide_eq_true (show ((h + 1 : Nat) : Int) ≥ 1 by omega)] at hactive
  cases hactive

/-- **The presync takes every chain whose retargets from the end height on are within 256 bits**: there
the largest product that the check forms, and so every product, is exact. -/
theorem permittedDifficultyTransition_of_small {chain : Nat → PowBlock} {n : Nat}
    (hobeys : ObeysWork mainPow chain n) (htargets : ClaimsTargets mainPow chain n)
    (hsmall : ∀ h t, h < n → mainPow.StoicAwakeningEndHeight ≤ (h + 1 : Nat) →
      (h + 1) % mainPow.difficultyAdjustmentInterval = 0 →
      deriveTarget (chain h).nBits mainPow.powLimit = some t →
      t.val * (mainPow.nPowTargetTimespan * 4) < 2 ^ 256) {h : Nat} (hn : h < n) :
    permittedDifficultyTransition mainPow (h + 1) (chain h).nBits (chain (h + 1)).nBits = .ok true := by
  have hrequired := hobeys h hn
  by_cases hactive : mainPow.allowMinDifficulty (h + 1) = true
  · unfold permittedDifficultyTransition
    rw [if_pos hactive]
    rfl
  · have hinactive := Bool.eq_false_iff.mpr hactive
    by_cases hboundary : (h + 1) % mainPow.difficultyAdjustmentInterval = 0
    · obtain ⟨t, ht⟩ := htargets h hn.le
      have hfits := hsmall h t hn (mainPow_over hinactive) hboundary ht
      rw [← (deriveTarget_eq_some ht).1] at hfits
      exact permittedDifficultyTransition_of_retarget (by decide) (by decide) rfl rfl hinactive hboundary
        hrequired hfits
    · rw [getNextWorkRequired_off hboundary, hinactive, if_neg Bool.false_ne_true] at hrequired
      unfold permittedDifficultyTransition
      rw [if_neg hactive, if_neg hboundary, if_neg (not_not_intro (Except.ok.inj hrequired))]
      rfl

/-! ## a chain with one late block -/

/-- a quarter of the target, period by period -/
def quarteredTarget : Nat → Nat
  | 0 => 0x7fffff * 2 ^ 208
  | k + 1 => exactTarget (0x7fffff * 2 ^ 224) 120960 (rounded (quarteredTarget k)) 30240

theorem quarteredTarget_le (k : Nat) : quarteredTarget k ≤ 0x7fffff * 2 ^ 208 := by
  induction k with
  | zero => exact le_rfl
  | succ k ih =>
    have hrounded := rounded_le (quarteredTarget k)
    have hle : quarteredTarget (k + 1) ≤ rounded (quarteredTarget k) * 30240 / 120960 := min_le_right _ _
    omega

theorem le_quarteredTarget {k : Nat} (hk : k ≤ 76) : 2 ^ (230 - 3 * k) ≤ quarteredTarget k := by
  induction k with
  | zero => norm_num [quarteredTarget]
  | succ k ih =>
    have hhalf := le_two_mul_rounded (quarteredTarget k)
    have hle := quarteredTarget_le k
    have hpow : 2 ^ (230 - 3 * k) = 2 ^ (230 - 3 * (k + 1)) * 8 := by
      rw [show 230 - 3 * k = 230 - 3 * (k + 1) + 3 by omega, pow_add]
      norm_num
    show _ ≤ min (0x7fffff * 2 ^ 224) (rounded (quarteredTarget k) * 30240 / 120960)
    omega

def quietBlock (h : Nat) : PowBlock := ⟨compact (quarteredTarget (h / 2016)), 1781164284 + h⟩

theorem quarteredTarget_ne_limit (k : Nat) : compact (quarteredTarget k) ≠ compact mainPow.limit := by
  intro heq
  have hlimit := mainPow_limit
  have hrounded : rounded (quarteredTarget k) = rounded mainPow.limit := congrArg expand heq
  have hle := rounded_le (quarteredTarget k)
  have hsmall := quarteredTarget_le k
  have hhalf := le_two_mul_rounded mainPow.limit
  omega

theorem quarteredTarget_accepted {k : Nat} (hk : k ≤ 76) :
    ∃ t, deriveTarget (compact (quarteredTarget k)) mainPow.powLimit = some t ∧
      t.val = rounded (quarteredTarget k) := by
  have hle := quarteredTarget_le k
  have hpos := (Nat.two_pow_pos _).trans_le (le_quarteredTarget hk)
  have hlimit := mainPow_limit
  exact deriveTarget_compact hpos (by omega) (hle.trans (by
    show _ ≤ mainPow.limit
    omega))

theorem quiet_required {chain : Nat → PowBlock} {h : Nat} (hk : h + 1 < 77 * 2016)
    (hquiet : ∀ k, k ≤ h → chain k = quietBlock k) :
    getNextWorkRequired mainPow chain h (quietBlock (h + 1)).nTime = .ok (quietBlock (h + 1)).nBits := by
  have hinterval : mainPow.difficultyAdjustmentInterval = 2016 := rfl
  have hlast := hquiet h le_rfl
  by_cases hboundary : (h + 1) % 2016 = 0
  · have hle : mainPow.difficultyAdjustmentInterval ≤ h + 1 := by omega
    have hlimit := mainPow_limit
    have hT : mainPow.nPowTargetTimespan = 120960 := rfl
    have hfirst := hquiet (h + 1 - 2016) (by omega)
    have hspan : clampTimespan 120960 (((quietBlock h).nTime : Int) - (quietBlock (h + 1 - 2016)).nTime) =
        30240 := by
      show clampTimespan 120960 (((1781164284 + h : Nat) : Int) -
        ((1781164284 + (h + 1 - 2016) : Nat) : Int)) = _
      unfold clampTimespan
      omega
    have hnext : (h + 1) / 2016 = h / 2016 + 1 := by omega
    have hsmall := quarteredTarget_le (h / 2016)
    have hrounded := rounded_le (quarteredTarget (h / 2016))
    have hset : (setCompact (quietBlock h).nBits).1.val = rounded (quarteredTarget (h / 2016)) :=
      setCompact_compact (by omega)
    rw [getNextWorkRequired_at (by rw [hinterval]; exact hboundary),
      calculateNextWorkRequired_eq (by decide) (by decide) rfl chain hle, hinterval, hfirst,
      show mainPow.enforce_BIP94 = false from rfl, if_neg Bool.false_ne_true, hlast, hT, hspan,
      hset, wrappedTarget_eq (by omega)]
    show _ = Except.ok (compact (quarteredTarget ((h + 1) / 2016)))
    rw [hnext]
    rfl
  · have hsame : (h + 1) / 2016 = h / 2016 := by omega
    have hbits : (quietBlock h).nBits = (quietBlock (h + 1)).nBits := by
      show compact (quarteredTarget (h / 2016)) = compact (quarteredTarget ((h + 1) / 2016))
      rw [hsame]
    have hne : (chain h).nBits ≠ compact mainPow.limit := hlast ▸ quarteredTarget_ne_limit (h / 2016)
    rw [getNextWorkRequired_off (by rw [hinterval]; exact hboundary), lastNonSpecial_of_ne hne, hlast, hbits]
    rw [if_neg (show ¬ (quietBlock (h + 1)).nTime > (quietBlock h).nTime + mainPow.nPowTargetSpacing * 2 by
      show ¬ 1781164284 + (h + 1) > 1781164284 + h + 60 * 2
      omega)]
    split <;> rfl

theorem quietBlock_obeys : ObeysWork mainPow quietBlock 151200 := by
  intro h hh
  exact quiet_required (by omega) fun k _ => rfl

theorem quietBlock_claims : ClaimsTargets mainPow quietBlock 151200 := by
  intro h hh
  obtain ⟨t, ht, -⟩ := quarteredTarget_accepted (show h / 2016 ≤ 76 by omega)
  exact ⟨t, ht⟩

theorem compact_mainPow_limit : compact mainPow.limit = 0x1f7fffff := by
  show compact (uintToArith256 easyPowLimit).val = _
  rw [easyPowLimit_val, compact_limit]

/-- two late blocks behind the genesis block of the main chain, and one that is not late -/
def lateChain : Nat → PowBlock
  | 0 => ⟨0x1d7fffff, 1781164284⟩
  | 1 => ⟨0x1f7fffff, 1781164284 + 121⟩
  | 2 => ⟨0x1f7fffff, 1781164284 + 242⟩
  | _ => ⟨0x1d7fffff, 1781164284 + 243⟩

theorem lateChain_obeys : ObeysWork mainPow lateChain 3 := by
  intro h hh
  interval_cases h
  · rw [getNextWorkRequired_off (by decide), compact_mainPow_limit]
    rfl
  · rw [getNextWorkRequired_off (by decide), compact_mainPow_limit]
    rfl
  · rw [getNextWorkRequired_off (by decide), compact_mainPow_limit]
    rfl

/-- behind both late blocks the bits of the genesis block come back -/
theorem active_period_bits_late :
    ObeysWork mainPow lateChain 3 ∧ mainPow.periodStart 3 = 0 ∧
      (lateChain 3).nBits = (lateChain 0).nBits := by
  refine ⟨lateChain_obeys, by decide, (active_period_bits lateChain_obeys (by decide) ?_).2 (by decide)⟩
  intro j hj hj3
  rw [show mainPow.periodStart 3 = 0 by decide] at hj
  interval_cases j <;> decide

/-- the first retarget behind the end height, in a chain without a late block -/
theorem permittedDifficultyTransition_of_small_quiet :
    permittedDifficultyTransition mainPow 151200 (quietBlock 151199).nBits (quietBlock 151200).nBits =
      .ok true := by
  apply permittedDifficultyTransition_of_small quietBlock_obeys quietBlock_claims _ (Nat.lt_succ_self 151199)
  intro h t hh hover hboundary ht
  have hset : (setCompact (quietBlock h).nBits).1.val = rounded (quarteredTarget (h / 2016)) :=
    setCompact_compact ((quarteredTarget_le _).trans_lt (by norm_num))
  have hle := (rounded_le _).trans (quarteredTarget_le (h / 2016))
  rw [← (deriveTarget_eq_some ht).1]
  show _ * (120960 * 4) < _
  omega

/-- the last block below the end height is late, the period takes 30721 seconds in all -/
def escapeChain (h : Nat) : PowBlock :=
  if h < 149999 then quietBlock h
  else ⟨if h < 151200 then 0x1f7fffff else 0x1d4518a6, 1781164284 + h + 28706⟩

theorem escapeChain_zero : escapeChain 0 = ⟨0x1d7fffff, 1781164284⟩ := by
  rw [escapeChain, if_pos (by decide), quietBlock, quarteredTarget, compact_genesis]

theorem escapeChain_late {h : Nat} (hlo : 149999 ≤ h) (hhi : h < 151200) :
    escapeChain h = ⟨0x1f7fffff, 1781164284 + h + 28706⟩ := by
  unfold escapeChain
  rw [if_neg (by omega), if_pos hhi]

theorem escapeChain_obeys : ObeysWork mainPow escapeChain 151200 := by
  intro h hh
  have hinterval : mainPow.difficultyAdjustmentInterval = 2016 := rfl
  rcases Nat.lt_or_ge (h + 1) 149999 with hquiet | hlate
  · have hnext : escapeChain (h + 1) = quietBlock (h + 1) := if_pos hquiet
    rw [hnext]
    exact quiet_required (by omega) fun k hk => if_pos (by omega)
  · rcases hlate.eq_or_lt with heq | hlt
    · -- the late block itself
      obtain rfl : h = 149998 := by omega
      rfl
    · rcases (Nat.lt_or_ge (h + 1) 151200) with hperiod | hend
      · -- the blocks behind it copy it
        rw [getNextWorkRequired_off (by rw [hinterval]; omega),
          PowParams.allowMinDifficulty_of_end rfl (by decide) (show (150000 : Int) ≤ (h + 1 : Nat) by omega),
          if_neg Bool.false_ne_true, escapeChain_late (by omega) (by omega),
          escapeChain_late (by omega) hperiod]
      · obtain rfl : h = 151199 := by omega
        have hlast : escapeChain 151199 = ⟨0x1f7fffff, 1781164284 + 151199 + 28706⟩ :=
          escapeChain_late (by omega) (by omega)
        have hspan : clampTimespan mainPow.nPowTargetTimespan (((escapeChain 151199).nTime : Int) -
            (escapeChain (151199 + 1 - mainPow.difficultyAdjustmentInterval)).nTime) = 30721 := by
          show clampTimespan 120960 (((1781164284 + 151199 + 28706 : Nat) : Int) -
            ((1781164284 + 149184 : Nat) : Int)) = _
          decide
        have hlimit := mainPow_limit
        rw [getNextWorkRequired_at (by rw [hinterval]),
          calculateNextWorkRequired_eq (by decide) (by decide) rfl escapeChain (by rw [hinterval]; decide)]
        show Except.ok (compact (wrappedTarget _ _ (setCompact 0x1f7fffff).1.val _)) = .ok 0x1d4518a6
        exact congrArg Except.ok (compact_eq (k := 28) (by decide +kernel) (by decide +kernel))

theorem escapeChain_claims : ClaimsTargets mainPow escapeChain 151200 := by
  intro h hh
  rcases Nat.lt_or_ge h 149999 with hquiet | hlate
  · obtain ⟨t, ht, -⟩ := quarteredTarget_accepted (show h / 2016 ≤ 76 by omega)
    rw [show escapeChain h = quietBlock h from if_pos hquiet]
    exact ⟨t, ht⟩
  · rcases Nat.lt_or_ge h 151200 with hlt | hge
    · obtain ⟨t, ht, -⟩ := limit_accepted
      rw [escapeChain_late hlate hlt]
      exact ⟨t, ht⟩
    · obtain rfl : h = 151200 := by omega
      have hcompact : compact (0x4518a6 * 2 ^ 208) = 0x1d4518a6 :=
        compact_eq (k := 28) (by norm_num) (by norm_num)
      obtain ⟨t, ht, -⟩ := easy_accepted hcompact (by decide +kernel) (by norm_num) (by norm_num)
      exact ⟨t, ht⟩

/-- **The presync refuses a chain that every other check takes**: at the first retarget behind the end
height both products wrap. -/
theorem escapeChain_refused :
    ObeysWork mainPow escapeChain 151200 ∧ ClaimsTargets mainPow escapeChain 151200 ∧
      escapeChain 0 = ⟨0x1d7fffff, 1781164284⟩ ∧
      permittedDifficultyTransition mainPow 151200 (escapeChain 151199).nBits (escapeChain 151200).nBits =
        .ok false := by
  have hlimit : mainPow.limit = 0x7fffff * 2 ^ 224 := easyPowLimit_val
  refine ⟨escapeChain_obeys, escapeChain_claims, escapeChain_zero, ?_⟩
  rw [permittedDifficultyTransition_boundary (by decide) (by decide) (by decide) (by decide)]
  apply congrArg Except.ok
  apply decide_eq_false
  rintro ⟨-, hlow⟩
  revert hlow
  decide +kernel

/-- the block behind the end height has to claim the limit, its period began with another target -/
theorem escapeChain_copied :
    ObeysWork mainPow escapeChain 149999 ∧ mainPow.periodStart 150000 = 149184 ∧
      getNextWorkRequired mainPow escapeChain 149999 (escapeChain 150000).nTime = .ok 0x1f7fffff ∧
      (escapeChain 149184).nBits ≠ 0x1f7fffff := by
  refine ⟨fun h hh => escapeChain_obeys h (hh.trans (by norm_num)), by decide, ?_, ?_⟩
  · rw [getNextWorkRequired_off (by decide)]
    rfl
  · rw [← compact_mainPow_limit]
    exact quarteredTarget_ne_limit _

/-- in the period that begins behind the end height the rule holds again -/
theorem getNextWorkRequired_firstBits_next :
    getNextWorkRequired mainPow escapeChain 151200 (escapeChain 151201).nTime = .ok 0x1d4518a6 :=
  (getNextWorkRequired_firstBits_iff rfl (by decide) escapeChain_obeys (by decide) (by decide) _).mpr
    (Or.inl (by decide))

end ElektronNet
