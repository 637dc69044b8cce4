import ElektronNet.Miner
import ElektronNet.StoicAwakening

/-!
# Keeping a template fresh

`GetMinimumTime`, `UpdateTime` and `WaitAndCreateNewBlock` of `node/miner.cpp`.

* `updateTime`            moves the time of a header up to the clock; the bits are chosen again where a late
                          block may be an easy one
* `updateTime_keeps`      the bits stay the required ones, and the time does not go back as long as it fits
                          into the 32 bits of a header
* `waitLoop`              the rounds of the wait; a round may ask for a template that cannot be made
* `Supplied`              the rounds that are reached get the templates that they cannot do without
* `wait_copes`            the wait ends as it should iff they do

The condition of `UpdateTime` lacks the end of the Stoic Awakening.  It is wider than that of
`GetNextWorkRequired`, so the bits are at worst chosen again where the time does not matter.
-/

namespace ElektronNet

open ArithUint256

/-! ## the time of a template -/

def nMedianTimeSpan : Nat := 11

/-- of the block at a height and the ten before it, as far as they exist -/
def getMedianTimePast (chain : Nat → PowBlock) (pindex : Nat) : Nat :=
  let times := (List.range (min nMedianTimeSpan (pindex + 1))).map fun i => (chain (pindex - i)).nTime
  (times.mergeSort (fun a b => decide (a ≤ b))).getD (times.length / 2) 0

def MAX_TIMEWARP : Int := 60

def getMinimumTime (chain : Nat → PowBlock) (pindexPrev difficulty_adjustment_interval : Nat) : Int :=
  let min_time : Int := getMedianTimePast chain pindexPrev + 1
  if (pindexPrev + 1) % difficulty_adjustment_interval = 0 then
    max min_time ((chain pindexPrev).nTime - MAX_TIMEWARP)
  else min_time

/-- `now` is the clock; `nTime` has 32 bits -/
def updateTime (params : PowParams) (chain : Nat → PowBlock) (pindexPrev : Nat) (now : Int)
    (block : PowBlock) : Except Fault PowBlock := do
  let nNewTime := max (getMinimumTime chain pindexPrev params.difficultyAdjustmentInterval) now
  let nTime := if (block.nTime : Int) < nNewTime then toUint32 nNewTime else block.nTime
  let allowMinDifficulty := params.fPowAllowMinDifficultyBlocks ||
    (decide (params.MinDifficultyActivationHeight ≠ -1) &&
      decide ((pindexPrev : Int) + 1 ≥ params.MinDifficultyActivationHeight))
  if allowMinDifficulty then
    return ⟨← getNextWorkRequired params chain pindexPrev nTime, nTime⟩
  return ⟨block.nBits, nTime⟩

section

variable {params : PowParams} {chain : Nat → PowBlock} {pindexPrev : Nat}

theorem getNextWorkRequired_ok {nTime nBits : Nat}
    (h : getNextWorkRequired params chain pindexPrev nTime = .ok nBits) (nTime' : Nat) :
    ∃ nBits', getNextWorkRequired params chain pindexPrev nTime' = .ok nBits' := by
  by_cases hat : (pindexPrev + 1) % params.difficultyAdjustmentInterval = 0
  · rw [getNextWorkRequired_at hat] at h
    exact ⟨nBits, (getNextWorkRequired_at hat nTime').trans h⟩
  · exact ⟨_, getNextWorkRequired_off hat nTime'⟩

theorem getNextWorkRequired_timeless (h : params.allowMinDifficulty (pindexPrev + 1) = false)
    (nTime nTime' : Nat) : getNextWorkRequired params chain pindexPrev nTime =
      getNextWorkRequired params chain pindexPrev nTime' := by
  by_cases hat : (pindexPrev + 1) % params.difficultyAdjustmentInterval = 0
  · rw [getNextWorkRequired_at hat, getNextWorkRequired_at hat]
  · rw [getNextWorkRequired_off hat, getNextWorkRequired_off hat, h]
    rfl

/-- **A template keeps the required bits when its time is moved**, for every clock.  The time goes up, and
not below the least one, unless the new time does not fit into a header. -/
theorem updateTime_keeps (params : PowParams) (chain : Nat → PowBlock) (pindexPrev : Nat) (now : Int)
    (block : PowBlock)
    (hbits : getNextWorkRequired params chain pindexPrev block.nTime = .ok block.nBits) :
    ∃ block', updateTime params chain pindexPrev now block = .ok block' ∧
      getNextWorkRequired params chain pindexPrev block'.nTime = .ok block'.nBits ∧
      (now < 2 ^ 32 →
        getMinimumTime chain pindexPrev params.difficultyAdjustmentInterval < 2 ^ 32 →
        block.nTime ≤ block'.nTime ∧
          getMinimumTime chain pindexPrev params.difficultyAdjustmentInterval ≤ block'.nTime) := by
  let least := getMinimumTime chain pindexPrev params.difficultyAdjustmentInterval
  let nTime := if (block.nTime : Int) < max least now then toUint32 (max least now) else block.nTime
  have htime : now < 2 ^ 32 → least < 2 ^ 32 → block.nTime ≤ nTime ∧ least ≤ nTime := by
    intro hnow hleast
    show block.nTime ≤ (if _ then _ else _) ∧ least ≤ ((if _ then _ else _ : Nat) : Int)
    split
    · rw [toUint32_eq (by omega) (by omega)]
      omega
    · omega
  unfold updateTime
  dsimp only
  split
  · obtain ⟨nBits, hnew⟩ := getNextWorkRequired_ok hbits nTime
    refine ⟨⟨nBits, nTime⟩, ?_, hnew, htime⟩
    show getNextWorkRequired params chain pindexPrev nTime >>= _ = _
    rw [hnew]
    rfl
  · -- the condition is implied by that of `GetNextWorkRequired`
    rename_i hskip
    refine ⟨⟨block.nBits, nTime⟩, rfl, ?_, htime⟩
    rw [getNextWorkRequired_timeless _ nTime block.nTime, hbits]
    unfold PowParams.allowMinDifficulty
    simp only [Bool.or_eq_true, Bool.and_eq_true, not_or, not_and, decide_eq_true_eq,
      Bool.not_eq_true] at hskip
    simp only [Bool.or_eq_false_iff, Bool.and_eq_false_iff, hskip.1, true_and]
    by_cases hmin : params.MinDifficultyActivationHeight = -1
    · simp [hmin]
    · have := hskip.2 hmin
      left; right
      simpa using this

end

theorem getMinimumTime_zero (chain : Nat → PowBlock) {interval : Nat} (h : interval ≠ 1) :
    getMinimumTime chain 0 interval = (chain 0).nTime + 1 := by
  have hoff : ¬ 1 % interval = 0 := by
    rw [Nat.one_mod_eq_zero_iff]
    exact h
  rw [getMinimumTime, if_neg hoff]
  simp [getMedianTimePast, nMedianTimeSpan]

/-- the clock is an hour behind the genesis block of the main chain, so the block becomes an easy one -/
theorem updateTime_keeps_late : ∃ block', updateTime mainPow lateChain 0 (1781164284 + 3600)
    ⟨0x1d7fffff, 1781164285⟩ = .ok block' ∧ 1781164285 ≤ block'.nTime := by
  obtain ⟨block', h, -, htime⟩ := updateTime_keeps mainPow lateChain 0 (1781164284 + 3600)
    ⟨0x1d7fffff, 1781164285⟩ (by rw [getNextWorkRequired_off (by decide)]; rfl)
  exact ⟨block', h, (htime (by norm_num) (by rw [getMinimumTime_zero _ (by decide)]; decide)).1⟩

/-- **A clock past the 32 bits of a header sets the time back**, here to zero. -/
theorem updateTime_wraps : getNextWorkRequired sigNetPow lateChain 0 1781164285 = .ok 0x1d7fffff ∧
    updateTime sigNetPow lateChain 0 (2 ^ 32) ⟨0x1d7fffff, 1781164285⟩ = .ok ⟨0x1d7fffff, 0⟩ := by
  constructor
  · rw [getNextWorkRequired_off (by decide)]
    rfl
  · have hnew : max (((lateChain 0).nTime : Int) + 1) (2 ^ 32) = 2 ^ 32 := max_eq_right (by decide)
    rw [updateTime, getMinimumTime_zero _ (by decide), hnew]
    rfl

/-! ## waiting for a better template -/

structure BlockWaitOptions where
  timeout : Int
  fee_threshold : CAmount

/-- what one round of the wait meets; times in milliseconds -/
structure WaitRound where
  /-- `interrupt_wait`, or the node shuts down -/
  interrupted : Bool
  /-- the tip changed before the tick or the deadline -/
  tip_changed : Bool
  tip_time : Int
  /-- `CreateNewBlock`, if the round calls it; `none` is the null pointer -/
  new_tmpl : Option CBlockTemplate
  /-- the clock at the end of the round -/
  now : Int

inductive WaitResult where
  /-- with the clock that was read last -/
  | returned (tmpl : Option CBlockTemplate) (now : Int)
  /-- null, because of an interrupt -/
  | interrupted
  | nullDereferenced
  /-- the rounds are used up -/
  | waiting

/-- the end of a round that returns nothing -/
def WaitRound.again (r : WaitRound) (deadline : Int) (next : WaitResult) : WaitResult :=
  if r.now < deadline then next else .returned none r.now

/-- a new tip, or one that is old enough for an easy block -/
def WaitRound.tipChanged (r : WaitRound) (allow_min_difficulty : Bool) (now : Int) : Bool :=
  r.tip_changed || (allow_min_difficulty && decide (now > r.tip_time + 20 * 60 * 1000))

/-- at each round `now` is the clock read before it; `current_fees` is -1 until it is needed -/
def waitLoop (block_template : CBlockTemplate) (options : BlockWaitOptions) (allow_min_difficulty : Bool)
    (deadline : Int) : List WaitRound → Int → CAmount → WaitResult
  | [], _, _ => .waiting
  | r :: rounds, now, current_fees =>
    let loop := waitLoop block_template options allow_min_difficulty deadline rounds r.now
    if r.interrupted then .interrupted
    else if r.tipChanged allow_min_difficulty now then .returned r.new_tmpl now
    else if options.fee_threshold < MAX_MONEY then
      let current_fees := if current_fees = -1 then block_template.vTxFees.sum else current_fees
      match r.new_tmpl with
      | none => .nullDereferenced
      | some new_tmpl =>
        if new_tmpl.vTxFees.sum ≥ current_fees + options.fee_threshold then .returned new_tmpl now
        else r.again deadline (loop current_fees)
    else r.again deadline (loop current_fees)

def waitAndCreateNewBlock (block_template : CBlockTemplate) (options : BlockWaitOptions)
    (allow_min_difficulty : Bool) (now : Int) (rounds : List WaitRound) : WaitResult :=
  waitLoop block_template options allow_min_difficulty (now + options.timeout) rounds now (-1)

def WaitResult.Copes (deadline : Int) : WaitResult → Prop
  | .returned none now => deadline ≤ now
  | .returned (some _) _ => True
  | .interrupted => True
  | .nullDereferenced => False
  | .waiting => True

section

variable (block_template : CBlockTemplate) (options : BlockWaitOptions) (allow_min_difficulty : Bool)
  (deadline : Int)

/-- the round cannot do without a template: it compares the fees, or returns before the deadline -/
def WaitRound.Needs (now : Int) (r : WaitRound) : Prop :=
  r.interrupted = false ∧
    if r.tipChanged allow_min_difficulty now then now < deadline else options.fee_threshold < MAX_MONEY

/-- another round follows: the tip is the same, the fees have not risen enough, and there is time left -/
def WaitRound.GoesOn (now : Int) (r : WaitRound) : Prop :=
  r.interrupted = false ∧ r.tipChanged allow_min_difficulty now = false ∧
    (options.fee_threshold < MAX_MONEY → ∀ new_tmpl ∈ r.new_tmpl,
      new_tmpl.vTxFees.sum < block_template.vTxFees.sum + options.fee_threshold) ∧
    r.now < deadline

/-- a round that is reached gets the template that it cannot do without; `now` is the first clock -/
def Supplied (rounds : List WaitRound) (now : Int) : Prop :=
  ∀ l r l', rounds = l ++ r :: l' →
    (∀ p ∈ (now :: l.map WaitRound.now).zip l,
      WaitRound.GoesOn block_template options allow_min_difficulty deadline p.1 p.2) →
    WaitRound.Needs options allow_min_difficulty deadline ((l.map WaitRound.now).getLastD now) r →
      r.new_tmpl.isSome = true

variable {block_template options allow_min_difficulty deadline}

theorem supplied_cons {r : WaitRound} {rounds : List WaitRound} {now : Int} :
    Supplied block_template options allow_min_difficulty deadline (r :: rounds) now ↔
      (r.Needs options allow_min_difficulty deadline now → r.new_tmpl.isSome = true) ∧
      (r.GoesOn block_template options allow_min_difficulty deadline now →
        Supplied block_template options allow_min_difficulty deadline rounds r.now) := by
  constructor
  · intro h
    refine ⟨h [] r rounds rfl (by simp), fun hgo l x l' heq hl => ?_⟩
    have := h (r :: l) x l' (by rw [heq]; rfl) fun p hp => ?_
    · rwa [List.map_cons, List.getLastD_cons] at this
    · rw [List.zip_cons_cons, List.mem_cons] at hp
      rcases hp with rfl | hp
      · exact hgo
      · exact hl p hp
  · rintro ⟨hfirst, hrest⟩ l x l' heq hl
    cases l with
    | nil =>
      obtain ⟨rfl, -⟩ := List.cons.inj heq
      exact hfirst
    | cons y l =>
      obtain ⟨rfl, htail⟩ := List.cons.inj heq
      rw [List.zip_cons_cons, List.forall_mem_cons] at hl
      rw [List.map_cons, List.getLastD_cons]
      exact hrest hl.1 l x l' htail hl.2

theorem waitLoop_ends {rounds : List WaitRound} (h : ∃ r ∈ rounds, deadline ≤ r.now) (now : Int)
    (current_fees : CAmount) :
    waitLoop block_template options allow_min_difficulty deadline rounds now current_fees ≠ .waiting := by
  induction rounds generalizing now current_fees with
  | nil => simp at h
  | cons r rounds ih =>
    have hagain : ∀ fees, r.again deadline
        (waitLoop block_template options allow_min_difficulty deadline rounds r.now fees) ≠ .waiting := by
      intro fees
      rw [WaitRound.again]
      split
      · apply ih
        obtain ⟨x, hx, hdue⟩ := h
        rcases List.mem_cons.mp hx with rfl | hx
        · omega
        · exact ⟨x, hx, hdue⟩
      · exact WaitResult.noConfusion
    rw [waitLoop]
    split
    · exact WaitResult.noConfusion
    split
    · exact WaitResult.noConfusion
    split
    · dsimp only
      generalize (if current_fees = -1 then block_template.vTxFees.sum else current_fees) = fees
      split
      · exact WaitResult.noConfusion
      · split
        · exact WaitResult.noConfusion
        · exact hagain fees
    · exact hagain _

section
variable {r : WaitRound} {now : Int}

/-- the end of a round that does not return -/
theorem WaitRound.again_copes {next : WaitResult} {Q : Prop} (hnext : next.Copes deadline ↔ Q)
    (hneeds : r.Needs options allow_min_difficulty deadline now → r.new_tmpl.isSome = true)
    (hgo : r.now < deadline → r.GoesOn block_template options allow_min_difficulty deadline now) :
    (r.again deadline next).Copes deadline ↔
      (r.Needs options allow_min_difficulty deadline now → r.new_tmpl.isSome = true) ∧
      (r.GoesOn block_template options allow_min_difficulty deadline now → Q) := by
  rw [WaitRound.again]
  split
  · rename_i hlt
    rw [hnext, and_iff_right hneeds, forall_prop_of_true (hgo hlt)]
  · rename_i hge
    exact iff_of_true (Int.not_lt.mp hge) ⟨hneeds, fun hc => absurd hc.2.2.2 hge⟩

/-- a round that returns for the tip -/
theorem WaitRound.tip_copes {Q : Prop} (hint : r.interrupted = false)
    (htip : r.tipChanged allow_min_difficulty now = true) :
    (WaitResult.returned r.new_tmpl now).Copes deadline ↔
      (r.Needs options allow_min_difficulty deadline now → r.new_tmpl.isSome = true) ∧
      (r.GoesOn block_template options allow_min_difficulty deadline now → Q) := by
  have hno : ¬ r.GoesOn block_template options allow_min_difficulty deadline now :=
    fun hg => absurd (htip.symm.trans hg.2.1) (by decide)
  rw [and_iff_left fun hg => absurd hg hno, WaitRound.Needs, htip, and_iff_right hint]
  cases r.new_tmpl with
  | some tmpl => exact iff_of_true trivial fun _ => rfl
  | none =>
    show deadline ≤ now ↔ (now < deadline → false = true)
    simp

end

theorem waitLoop_copes {current_fees : CAmount}
    (hfees : current_fees = -1 ∨ current_fees = block_template.vTxFees.sum) (rounds : List WaitRound)
    (now : Int) :
    (waitLoop block_template options allow_min_difficulty deadline rounds now current_fees).Copes deadline ↔
      Supplied block_template options allow_min_difficulty deadline rounds now := by
  induction rounds generalizing now current_fees with
  | nil => exact iff_of_true trivial fun l r l' heq => by simp at heq
  | cons r rounds ih =>
    have hsum : (if current_fees = -1 then block_template.vTxFees.sum else current_fees) =
        block_template.vTxFees.sum := by
      rcases hfees with h | h
      · rw [if_pos h]
      · rw [h, ite_self]
    rw [supplied_cons, waitLoop, hsum]
    cases hint : r.interrupted with
    | true =>
      refine iff_of_true trivial ⟨fun hn => ?_, fun hg => ?_⟩
      · exact absurd (hint.symm.trans hn.1) (by decide)
      · exact absurd (hint.symm.trans hg.1) (by decide)
    | false =>
      rw [if_neg Bool.false_ne_true]
      cases htip : r.tipChanged allow_min_difficulty now with
      | true => exact WaitRound.tip_copes hint htip
      | false =>
        rw [if_neg Bool.false_ne_true]
        by_cases hthreshold : options.fee_threshold < MAX_MONEY
        · rw [if_pos hthreshold]
          cases htmpl : r.new_tmpl with
          | none =>
            have hneeds : r.Needs options allow_min_difficulty deadline now :=
              ⟨hint, by rw [htip]; exact hthreshold⟩
            exact iff_of_false id fun hc => absurd (hc.1 hneeds) Bool.false_ne_true
          | some new_tmpl =>
            dsimp only
            split
            · rename_i hrisen
              refine iff_of_true trivial ⟨fun _ => rfl, fun hg => ?_⟩
              exact absurd (hg.2.2.1 hthreshold new_tmpl htmpl) (Int.not_lt.mpr hrisen)
            · rename_i hsame
              rw [← htmpl]
              refine WaitRound.again_copes (ih (.inr rfl) r.now) (fun _ => by rw [htmpl]; rfl) fun hlt =>
                ⟨hint, htip, fun _ x hx => ?_, hlt⟩
              rw [htmpl] at hx
              cases hx
              exact Int.not_le.mp hsame
        · rw [if_neg hthreshold]
          refine WaitRound.again_copes (ih hfees r.now) (fun hn => ?_) fun hlt =>
            ⟨hint, htip, fun hc => absurd hc hthreshold, hlt⟩
          rw [WaitRound.Needs, htip] at hn
          exact absurd hn.2 hthreshold

end

/-- **The wait copes iff every round that is reached and cannot do without a template gets one**: then it
never looks into a null pointer, and returns a template or, after the deadline or an interrupt, null.  It
returns once the clock is there in any case. -/
theorem wait_copes (block_template : CBlockTemplate) (options : BlockWaitOptions)
    (allow_min_difficulty : Bool) (now : Int) (rounds : List WaitRound) :
    ((waitAndCreateNewBlock block_template options allow_min_difficulty now rounds).Copes
        (now + options.timeout) ↔
      Supplied block_template options allow_min_difficulty (now + options.timeout) rounds now) ∧
    ((∃ r ∈ rounds, now + options.timeout ≤ r.now) →
      waitAndCreateNewBlock block_template options allow_min_difficulty now rounds ≠ .waiting) :=
  ⟨waitLoop_copes (.inl rfl) rounds now, fun h => waitLoop_ends h now (-1)⟩

def sampleTemplate (vTxFees : List CAmount) : CBlockTemplate :=
  ⟨⟨⟨4, Uint256.zero, Uint256.zero, 0, 0, 0⟩, []⟩, vTxFees, ⟨2, MAX_SEQUENCE_NONFINAL, [], none, 0, [], 0⟩⟩

/-- **The wait looks into a null pointer**: the tip is the same, and the template whose fees are to be
compared could not be made. -/
theorem wait_dereferences_null : waitAndCreateNewBlock (sampleTemplate [5]) ⟨1000, 1⟩ false 0
    [⟨false, false, 0, none, 1000⟩] = .nullDereferenced := by
  rfl

/-- nothing is asked for where the fees do not matter -/
example : waitAndCreateNewBlock (sampleTemplate [5]) ⟨1000, MAX_MONEY⟩ false 0
    [⟨false, false, 0, none, 999⟩, ⟨false, false, 0, none, 1000⟩] = .returned none 1000 := by
  rfl

end ElektronNet
