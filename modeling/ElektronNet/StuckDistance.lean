import ElektronNet.HeadersSync
import ElektronNet.StoicAwakening
import ElektronNet.StuckChain

/-!
# How far ahead a rejected chain has to be

`HasSustainedInvalidChainWithMoreWork` asks for the work of about an hour of blocks, and takes the tip for
such a block.  The difficulty of a period is that of its first block; a late block of the Stoic Awakening has
the least one there is.

* `DistanceKept`      whatever chain is rejected, it has to be an hour of the period's blocks ahead
* `PeriodCovered`     the sum that the detector takes reaches as far
* `stuck_distance`    the two are the same; without a wrap the proof of the tip has to be that of the period's
                      first block or more
* `stuck_after_escape`   if the tip is a late block, one block of the period is enough
-/

namespace ElektronNet

open BlockMap

/-- the active chain of `s`: the tip `t` at height `n`, and its blocks by height; the works are those of an
`arith_uint256` -/
structure ActiveChain (s : ChainSelection) (pow : PowParams) (chain : Nat → PowBlock) (t : Uint256)
    (n : Nat) : Prop where
  tip : s.chainstate.tip = some t
  known : (s.m_block_index.entries.get t).isSome = true
  height : s.m_block_index.nHeight t = n
  obeys : ObeysWork pow chain n
  proof : s.m_block_index.getBlockProof t = bitsProof (chain n).nBits
  works : ∀ h, s.m_block_index.nChainWork h < 2 ^ 256

section

variable (pow : PowParams) (chain : Nat → PowBlock) (t : Uint256) (n : Nat)

/-- the work of the blocks of an hour, each like the first one of the period of block `n` -/
def hourOfPeriod : Nat :=
  bitsProof (chain (pow.periodStart n)).nBits * blocksThreshold pow.nPowTargetSpacing

def FarAhead (s : ChainSelection) : Prop :=
  ∃ best ∈ s.m_best_invalid,
    s.m_block_index.nChainWork best > s.m_block_index.nChainWork t + hourOfPeriod pow chain n

/-- on the active chain of `s`, a rejected chain that starts the recovery is far ahead -/
def DistanceKept (params : ConsensusParams) (s : ChainSelection) : Prop :=
  ∀ s', ActiveChain s' pow chain t n → s'.m_block_index.nChainWork t = s.m_block_index.nChainWork t →
    (∀ best ∈ s'.m_best_invalid, s'.m_block_index.failed best = true) →
    s'.hasSustainedInvalidChainWithMoreWork params pow.nPowTargetSpacing = true →
      FarAhead pow chain t n s'

/-- an hour of blocks like the tip is as much as one of the period's blocks -/
def PeriodCovered (s : ChainSelection) : Prop :=
  s.m_block_index.nChainWork t + hourOfPeriod pow chain n ≤
    (s.m_block_index.nChainWork t +
      bitsProof (chain n).nBits * blocksThreshold pow.nPowTargetSpacing) % 2 ^ 256

end

/-- a header on top of `t` was rejected -/
def ChainSelection.rejectedOn (s : ChainSelection) (t new : Uint256) (proof : Nat) : ChainSelection :=
  { s with
    m_block_index := (s.m_block_index.addToBlockIndex new t proof 0).modify new fun e =>
      { e with nStatus := { e.nStatus with failedValid := true } }
    m_best_invalid := some new }

section

variable {s : ChainSelection} {pow : PowParams} {chain : Nat → PowBlock} {t : Uint256} {n : Nat}

theorem periodBits_of_quiet (hobeys : ObeysWork pow chain n)
    (hallow : pow.fPowAllowMinDifficultyBlocks = false) (hend : (n : Int) < pow.StoicAwakeningEndHeight)
    (hquiet : ¬ Escapes pow chain n) : (chain n).nBits = (chain (pow.periodStart n)).nBits := by
  by_cases hfirst : pow.periodStart n = n
  · rw [hfirst]
  · have hlo : pow.periodStart n < n := Nat.lt_of_le_of_ne (Nat.sub_le ..) hfirst
    rw [period_bits hallow hobeys hlo le_rfl hend, if_neg hquiet]

theorem blocksThreshold_pos (nPowTargetSpacing : Int) : 0 < blocksThreshold nPowTargetSpacing :=
  Nat.lt_of_lt_of_le (by decide) (Nat.le_max_left ..)

theorem ActiveChain.workAhead (hchain : ActiveChain s pow chain t n) :
    s.m_block_index.workAhead t (blocksThreshold pow.nPowTargetSpacing) =
      (s.m_block_index.nChainWork t +
        bitsProof (chain n).nBits * blocksThreshold pow.nPowTargetSpacing) % 2 ^ 256 := by
  rw [BlockMap.workAhead, hchain.proof]

theorem PeriodCovered.kept (hcovered : PeriodCovered pow chain t n s) (params : ConsensusParams) :
    DistanceKept pow chain t n params s := by
  intro s' hchain hwork _ hstuck
  obtain ⟨t', best, ht', hbest⟩ := ChainSelection.best_of_stuck hstuck
  refine ⟨best, hbest, ?_⟩
  obtain ⟨-, -, hahead⟩ := (ChainSelection.stuck_iff hchain.tip hbest).mp hstuck
  rw [hchain.workAhead, hwork] at hahead
  rw [hwork]
  exact Nat.lt_of_le_of_lt hcovered hahead

/-! ## a chain that is rejected on top of the tip -/

section
variable {new : Uint256} (hnew : s.m_block_index.entries.get new = none)
include hnew

theorem rejectedOn_get {y : Uint256} (hy : y ≠ new) (proof : Nat) :
    (s.rejectedOn t new proof).m_block_index.entries.get y = s.m_block_index.entries.get y := by
  rw [ChainSelection.rejectedOn, modify_get, addToBlockIndex_get hnew, if_neg hy]
  cases s.m_block_index.entries.get y with
  | none => rfl
  | some e => simp only [Option.map_some, if_neg hy]

theorem rejectedOn_new {e : CBlockIndex} (ht : s.m_block_index.entries.get t = some e) (proof : Nat) :
    ∃ e', (s.rejectedOn t new proof).m_block_index.entries.get new = some e' ∧
      e'.nStatus.failedValid = true ∧ e'.nHeight = e.nHeight + 1 ∧
      e'.nChainWork = e.nChainWork + proof := by
  rw [ChainSelection.rejectedOn, modify_get, addToBlockIndex_get hnew, if_pos rfl, newEntry, ht]
  exact ⟨_, rfl, by simp⟩

theorem ActiveChain.rejectedOn (hchain : ActiveChain s pow chain t n) {proof : Nat}
    (hproof : s.m_block_index.nChainWork t + proof < 2 ^ 256) :
    ActiveChain (s.rejectedOn t new proof) pow chain t n := by
  obtain ⟨e, he⟩ := Option.isSome_iff_exists.mp hchain.known
  have hother : ∀ y, (s.m_block_index.entries.get y).isSome = true → y ≠ new := by
    rintro y hy rfl
    rw [hnew] at hy
    cases hy
  have htip := rejectedOn_get (t := t) hnew (hother t hchain.known) proof
  refine ⟨hchain.tip, by rw [htip]; exact hchain.known, ?_, hchain.obeys, ?_, fun h => ?_⟩
  · rw [nHeight, htip]
    exact hchain.height
  · rw [← hchain.proof, BlockMap.getBlockProof, BlockMap.getBlockProof, nChainWork, pprev, htip]
    cases hp : s.m_block_index.pprev t with
    | none =>
      rw [BlockMap.pprev] at hp
      rw [hp]
      rfl
    | some p =>
      have hget := rejectedOn_get (t := t) hnew (hother p (isSome_of_pprev hp).2) proof
      rw [BlockMap.pprev] at hp
      rw [hp, Option.elim, nChainWork, hget]
      rfl
  · by_cases hh : h = new
    · obtain ⟨e', he', -, -, hwork⟩ := rejectedOn_new hnew he proof
      rw [hh, nChainWork, he', Option.elim, hwork]
      rw [nChainWork, he] at hproof
      exact hproof
    · rw [nChainWork, rejectedOn_get hnew hh]
      exact hchain.works h

/-- a header that is just heavy enough starts the recovery -/
theorem DistanceKept.covered {params : ConsensusParams} (hchain : ActiveChain s pow chain t n)
    (hpos : 0 < bitsProof (chain (pow.periodStart n)).nBits)
    (hfits : s.m_block_index.nChainWork t + hourOfPeriod pow chain n < 2 ^ 256)
    (h₀ : 0 ≤ params.MuhashAttestationActivationHeight)
    (hlast : params.MuhashAttestationActivationHeight ≤ n + 1)
    (hkept : DistanceKept pow chain t n params s) : PeriodCovered pow chain t n s := by
  by_contra hnear
  obtain ⟨e, he⟩ := Option.isSome_iff_exists.mp hchain.known
  have hhour : 0 < hourOfPeriod pow chain n := Nat.mul_pos hpos (blocksThreshold_pos _)
  have hwork : s.m_block_index.nChainWork t = e.nChainWork := by
    rw [nChainWork, he]
    rfl
  rw [PeriodCovered, ← hchain.workAhead] at hnear
  -- the work of the header is one more than that of the tip and than the sum
  obtain ⟨proof, hproof, hahead, hle⟩ : ∃ proof, 0 < proof ∧
      s.m_block_index.workAhead t (blocksThreshold pow.nPowTargetSpacing) < e.nChainWork + proof ∧
      proof ≤ hourOfPeriod pow chain n := by
    refine ⟨max 1 (s.m_block_index.workAhead t (blocksThreshold pow.nPowTargetSpacing) + 1 - e.nChainWork),
      ?_, ?_, ?_⟩ <;> omega
  have hroom : s.m_block_index.nChainWork t + proof < 2 ^ 256 := by omega
  have hchain' := hchain.rejectedOn hnew hroom
  obtain ⟨e', he', hfailed, hheight, hwork'⟩ := rejectedOn_new hnew he proof
  have hsame : (s.rejectedOn t new proof).m_block_index.nChainWork t = s.m_block_index.nChainWork t := by
    rw [nChainWork, rejectedOn_get hnew, nChainWork]
    rintro rfl
    rw [hnew] at he
    cases he
  have hbest : (s.rejectedOn t new proof).m_block_index.nChainWork new = e.nChainWork + proof := by
    rw [nChainWork, he', Option.elim, hwork']
  have hstuck : (s.rejectedOn t new proof).hasSustainedInvalidChainWithMoreWork params
      pow.nPowTargetSpacing = true := by
    refine (ChainSelection.stuck_iff hchain'.tip rfl).mpr ⟨h₀, ?_, ?_⟩
    · have := hchain.height
      rw [nHeight, he] at this
      rw [nHeight, he', Option.elim]
      simp only [Option.elim] at this
      omega
    · rw [hbest, hchain'.workAhead, hsame, ← hchain.workAhead]
      exact hahead
  obtain ⟨best, hmem, hfar⟩ := hkept _ hchain' hsame
    (by rintro best ⟨⟩; rw [failed_of_get he', hfailed]) hstuck
  cases hmem
  omega

end

/-- **The recovery needs an hour of the period's own work, whatever chain is rejected, iff an hour of blocks
like the tip is as much**: without a wrap, iff the proof of the tip is that of the period's first block or
more; and below the end of the Stoic Awakening a tip that does not escape has that proof. -/
theorem stuck_distance (hchain : ActiveChain s pow chain t n) (params : ConsensusParams)
    (hpos : 0 < bitsProof (chain (pow.periodStart n)).nBits)
    (hfits : s.m_block_index.nChainWork t + hourOfPeriod pow chain n < 2 ^ 256)
    {new : Uint256} (hnew : s.m_block_index.entries.get new = none) :
    (PeriodCovered pow chain t n s → DistanceKept pow chain t n params s) ∧
    (0 ≤ params.MuhashAttestationActivationHeight → params.MuhashAttestationActivationHeight ≤ n + 1 →
      DistanceKept pow chain t n params s → PeriodCovered pow chain t n s) ∧
    (s.m_block_index.nChainWork t +
        bitsProof (chain n).nBits * blocksThreshold pow.nPowTargetSpacing < 2 ^ 256 →
      (PeriodCovered pow chain t n s ↔
        bitsProof (chain (pow.periodStart n)).nBits ≤ bitsProof (chain n).nBits)) ∧
    (pow.fPowAllowMinDifficultyBlocks = false → (n : Int) < pow.StoicAwakeningEndHeight →
      ¬ Escapes pow chain n → PeriodCovered pow chain t n s) := by
  refine ⟨fun h => h.kept params, fun h₀ hlast h => h.covered hnew hchain hpos hfits h₀ hlast,
    fun hsum => ?_, fun hallow hend hquiet => ?_⟩
  · rw [PeriodCovered, Nat.mod_eq_of_lt hsum, Nat.add_le_add_iff_left]
    exact Nat.mul_le_mul_right_iff (blocksThreshold_pos _)
  · have hbits := periodBits_of_quiet hchain.obeys hallow hend hquiet
    rw [PeriodCovered, hbits, ← hourOfPeriod, Nat.mod_eq_of_lt hfits]

end

/-! ## a late tip -/

theorem bitsProof_main : bitsProof 0x1d7fffff = 33554436 ∧ bitsProof 0x1f7fffff = 512 := by
  decide +kernel

/-- block 2 on top of the genesis block is as in `lateChain`; `late` says whether it is the late one or
one of the period's difficulty, and block 3 beside it was rejected -/
def sampleEscaped (late : Bool) : ChainSelection :=
  let m := BlockMap.empty.addToBlockIndex (sampleId 1) (sampleId 0) 33554436 1
  let m := m.addToBlockIndex (sampleId 2) (sampleId 1) (if late then 512 else 33554436) 2
  { m_block_index := m.addToBlockIndex (sampleId 3) (sampleId 1) (if late then 33554436 else 33554436 * 62) 3
    m_blocks_unlinked := []
    nBlockSequenceId := 1
    m_best_header := some (sampleId 2)
    m_best_invalid := some (sampleId 3)
    chainstate := ⟨none, .VALIDATED, none, none, some (sampleId 2), [sampleId 2]⟩ }

def sampleEscapedParams : ConsensusParams := { mainParams with MuhashAttestationActivationHeight := 1 }

def soonChain (h : Nat) : PowBlock := ⟨0x1d7fffff, 1781164284 + h⟩

theorem sampleEscaped_works (late : Bool) (h : Uint256) :
    (sampleEscaped late).m_block_index.nChainWork h < 2 ^ 256 := by
  have hall : ∀ late, (sampleEscaped late).m_block_index.entries.toList.all
      (fun e => decide (e.2.nChainWork < 2 ^ 256)) = true := by
    decide +kernel
  cases he : (sampleEscaped late).m_block_index.entries.get h with
  | none =>
    rw [nChainWork, he]
    decide
  | some e =>
    rw [nChainWork, he]
    exact of_decide_eq_true (List.all_eq_true.mp (hall late) (h, e) ((FMap.mem_toList _ _ _).mpr he))

theorem stuck_distance_soon :
    DistanceKept mainPow soonChain (sampleId 2) 1 sampleEscapedParams (sampleEscaped false) ∧
    (sampleEscaped false).hasSustainedInvalidChainWithMoreWork sampleEscapedParams 60 = true := by
  have hbits : ∀ h, bitsProof (soonChain h).nBits = 33554436 := fun h => bitsProof_main.1
  have hchain : ActiveChain (sampleEscaped false) mainPow soonChain (sampleId 2) 1 := by
    refine ⟨rfl, rfl, by decide +kernel, fun h hh => ?_, ?_, sampleEscaped_works false⟩
    · obtain rfl : h = 0 := by omega
      rfl
    · rw [hbits]
      decide +kernel
  have hfits : (sampleEscaped false).m_block_index.nChainWork (sampleId 2) +
      hourOfPeriod mainPow soonChain 1 < 2 ^ 256 := by
    decide +kernel
  have hunused : (sampleEscaped false).m_block_index.entries.get (sampleId 9) = none := by decide +kernel
  have hdistance := stuck_distance hchain sampleEscapedParams (by rw [hbits]; decide) hfits hunused
  refine ⟨hdistance.1 ((hdistance.2.2.1 ?_).mpr (by rw [hbits, hbits])), by decide +kernel⟩
  exact hfits

/-- **One block of the period's difficulty is enough behind a late tip**: the chain obeys, and the rejected
chain is not even two such blocks ahead. -/
theorem stuck_after_escape : ActiveChain (sampleEscaped true) mainPow lateChain (sampleId 2) 1 ∧
    (sampleEscaped true).hasSustainedInvalidChainWithMoreWork sampleEscapedParams 60 = true ∧
    (sampleEscaped true).m_block_index.nChainWork (sampleId 3) <
      (sampleEscaped true).m_block_index.nChainWork (sampleId 2) + 2 * bitsProof (lateChain 0).nBits := by
  refine ⟨⟨rfl, rfl, by decide +kernel, fun h hh => lateChain_obeys h (by omega), ?_,
    sampleEscaped_works true⟩, by decide +kernel, ?_⟩
  · rw [show (lateChain 1).nBits = 0x1f7fffff from rfl]
    decide +kernel
  · rw [show (lateChain 0).nBits = 0x1d7fffff from rfl]
    decide +kernel

end ElektronNet
