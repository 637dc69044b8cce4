import ElektronNet.CheckBlockIndex
import ElektronNet.SnapshotBase
import ElektronNet.SnapshotSpelled

/-!
# The block index across the replacement of a snapshot

A replacing `ActivateSnapshot` takes the count of the old base away and gives one to the new base;
`CheckBlockIndex` then reads the tree with the new base.

* `rebase`        the index after a replacement
* `Replaceable`   the trees on which no assertion can fail afterwards
* `rebased_allOk_iff`   the assertions hold afterwards exactly on those
* `replaced_check_iff`  the same for the whole call
-/

set_option linter.unusedSectionVars false

namespace ElektronNet

open List Outcome BlockMap Forest

/-! ## the marks -/

namespace BlockMap

def rebase (m : BlockMap) (old_base base : Uint256) (count : Nat) (witness : Uint256 → Bool) :
    BlockMap :=
  m.update fun h e =>
    { e.toBlockIndexState with
      m_chain_tx_count :=
        if h = base then count else if h = old_base then 0 else e.m_chain_tx_count
      nStatus := { e.nStatus with optWitness := witness h } }

section
variable (m : BlockMap) (old_base base : Uint256) (count : Nat) (witness : Uint256 → Bool)

@[simp] theorem rebase_forest : (m.rebase old_base base count witness).forest = m.forest :=
  update_forest m _

@[simp] theorem rebase_pprev (h : Uint256) :
    (m.rebase old_base base count witness).pprev h = m.pprev h := update_pprev m _ h

@[simp] theorem rebase_nHeight (h : Uint256) :
    (m.rebase old_base base count witness).nHeight h = m.nHeight h := update_nHeight m _ h

@[simp] theorem rebase_dom :
    (m.rebase old_base base count witness).entries.dom = m.entries.dom := rfl

@[simp] theorem rebase_getAncestor (h : Uint256) (height : Nat) :
    (m.rebase old_base base count witness).getAncestor h height = m.getAncestor h height := by
  rw [getAncestor, getAncestor, rebase_forest]
  simp only [rebase_nHeight]

@[simp] theorem rebase_nChainWork (h : Uint256) :
    (m.rebase old_base base count witness).nChainWork h = m.nChainWork h := by
  rw [nChainWork, nChainWork, rebase, update_get]
  cases m.entries.get h <;> rfl

@[simp] theorem rebase_before (a b : Uint256) :
    (m.rebase old_base base count witness).before a b = m.before a b := by
  apply ChainstateManager.update_before
  intro h e
  rfl

theorem index_update (f : Uint256 → CBlockIndex → BlockIndexState) (h : Uint256) :
    (m.update f).index h = (m.entries.get h).elim BlockIndexState.header (f h) := by
  rw [index, update_get]
  cases m.entries.get h <;> rfl

theorem rebase_index (h : Uint256) :
    let r := m.rebase old_base base count witness
    (r.index h).nTx = (m.index h).nTx ∧ (r.index h).nSequenceId = (m.index h).nSequenceId ∧
      (r.index h).nStatus.valid = (m.index h).nStatus.valid ∧
      (r.index h).nStatus.haveData = (m.index h).nStatus.haveData ∧
      (r.index h).nStatus.haveUndo = (m.index h).nStatus.haveUndo ∧
      (r.index h).nStatus.failedValid = (m.index h).nStatus.failedValid := by
  dsimp only
  rw [rebase, index_update, index]
  cases m.entries.get h with
  | none => exact ⟨rfl, rfl, rfl, rfl, rfl, rfl⟩
  | some e => exact ⟨rfl, rfl, rfl, rfl, rfl, rfl⟩

theorem rebase_count {h : Uint256} (hh : h ∈ m.entries.dom) :
    ((m.rebase old_base base count witness).index h).m_chain_tx_count =
      if h = base then count else if h = old_base then 0 else (m.index h).m_chain_tx_count := by
  obtain ⟨e, he⟩ := FMap.exists_get_of_mem hh
  rw [rebase, index_update, index, he]
  rfl

end

end BlockMap

theorem markBase_rebase (P : CChainParams) (env : LoadEnv) (m : BlockMap) (old_base base : Uint256)
    (base_height : Nat) : ∃ witness,
    markBase P env (m.modify old_base fun e => { e with m_chain_tx_count := 0 }) base base_height =
      m.rebase old_base base (baseTxCount P base_height) witness := by
  refine ⟨fun h => (m.entries.get h).any fun e =>
    decide (h ∈ m.forest.path base ∧ 1 ≤ e.nHeight ∧ env.segwitActive h = true) ||
      e.nStatus.optWitness, ?_⟩
  rw [BlockMap.mk.injEq]
  apply FMap.ext_get
  intro h
  rw [markBase, modify_get, fakeWitness, update_get, modify_get,
    modify_forest, BlockMap.rebase, update_get]
  cases m.entries.get h with
  | none => rfl
  | some e =>
    simp only [Option.map_some, Option.some.injEq, Option.any_some]
    -- whether the flag is set does not depend on the count that was taken away
    have hheight : (if h = old_base then
        { e with toBlockIndexState := { e.toBlockIndexState with m_chain_tx_count := 0 } }
        else e).nHeight = e.nHeight := by split <;> rfl
    rw [hheight]
    by_cases hw : h ∈ m.forest.path base ∧ 1 ≤ e.nHeight ∧ env.segwitActive h = true
    · rw [decide_eq_true hw, Bool.true_or]
      split_ifs <;> rfl
    · rw [decide_eq_false hw]
      split_ifs <;> rfl

theorem markBase_modify_base (P : CChainParams) (env : LoadEnv) (m : BlockMap) (base : Uint256)
    (base_height count : Nat) :
    markBase P env (m.modify base fun e => { e with m_chain_tx_count := count }) base base_height =
      markBase P env m base base_height := by
  rw [BlockMap.mk.injEq]
  apply FMap.ext_get
  intro h
  rw [markBase, modify_get, fakeWitness, update_get, modify_get,
    modify_forest, markBase, modify_get, fakeWitness, update_get]
  cases m.entries.get h with
  | none => rfl
  | some e =>
    simp only [Option.map_some, Option.some.injEq]
    by_cases hh : h = base
    · simp only [if_pos hh]
      split_ifs <;> rfl
    · simp only [if_neg hh]

/-! ## the assertions under a new base -/

namespace IndexState

def based (I : IndexState) (base : Uint256) : IndexState := { I with snap_base := some base }

def rebased (I : IndexState) (old_base base : Uint256) (count : Nat) (witness : Uint256 → Bool)
    (chainstates : List ChainstateCore) : IndexState :=
  { I with
    m_block_index := I.m_block_index.rebase old_base base count witness
    m_chainstates := chainstates
    snap_base := some base
    activeTip := some base }

/-- the blocks up to `b` were processed, and have their data, from `base` on -/
def ProcessedFrom (I : IndexState) (base b : Uint256) : Prop :=
  ∀ a ∈ I.m_block_index.forest.since (some base) b, (I.index a).nTx ≠ 0

def DataFrom (I : IndexState) (base b : Uint256) : Prop :=
  ∀ a ∈ I.m_block_index.forest.since (some base) b, (I.index a).nStatus.haveData = true

/-- what a chainstate with the tip `t` holds of the block `b`: a block that may be its next tip is a
candidate, a candidate is not behind the tip and was processed, and a block that lacks data below it
waits -/
structure Holds (I : IndexState) (base : Uint256) (c : ChainstateCore) (t b : Uint256) : Prop where
  genesis : I.m_block_index.pprev b = none → ∀ g ∈ I.m_block_index.getAncestor t 0, g = b
  offered : I.m_block_index.before b t = false → I.ProcessedFrom base b ∨ b = base →
    (I.index b).nStatus.failedValid = false →
    (I.DataFrom base b ∨ b = t ∨ c.m_from_snapshot_blockhash = some b) → I.Targets c b →
    b ∈ c.setBlockIndexCandidates
  held : b ∈ c.setBlockIndexCandidates →
    I.m_block_index.before b t = false ∧ (I.ProcessedFrom base b ∨ b = base)
  waiting : (I.m_block_index.pprev b).isSome = true → (I.index b).nStatus.haveData = true →
    I.ProcessedFrom base b → ¬ I.DataFrom base b → I.m_block_index.before b t = false →
    b ∉ c.setBlockIndexCandidates → (I.index b).nStatus.failedValid = false → I.Targets c b →
    I.foundInUnlinked b = true

/-- **the trees that a replacement leaves consistent** -/
structure Replaceable (I : IndexState) (old_base base : Uint256) (count : Nat)
    (others : List ChainstateCore) : Prop where
  /-- the new base gets a count -/
  counted : count ≠ 0
  /-- the old base was not numbered on arrival -/
  sequence : base ≠ old_base → (I.index old_base).nSequenceId ≤ SEQ_ID_INIT_FROM_DISK
  /-- it stays behind without a count, so some block up to it has to lack its transactions -/
  unprocessed : base ≠ old_base →
    ∃ a ∈ I.m_block_index.forest.since (some base) old_base, (I.index a).nTx = 0
  /-- no block was received on top of it, the new base apart -/
  after : base ≠ old_base → ∀ c ∈ I.m_block_index.entries.dom,
    I.m_block_index.pprev c = some old_base → c ≠ base → (I.index c).nTx = 0
  /-- the count of the new base continues the one below it -/
  below : ∀ p, I.m_block_index.pprev base = some p → p ≠ old_base →
    0 < (I.index p).m_chain_tx_count → 0 < (I.index base).nTx →
    count = (I.index base).nTx + (I.index p).m_chain_tx_count
  /-- and the counts above it continue its own -/
  above : ∀ c ∈ I.m_block_index.entries.dom, I.m_block_index.pprev c = some base → c ≠ old_base →
    0 < (I.index c).nTx → (I.index base).m_chain_tx_count = count
  /-- a new base on top of the old one was not connected -/
  unconnected : I.m_block_index.forest.Under old_base base →
    (I.index base).nStatus.valid < BLOCK_VALID_CHAIN
  /-- its data waits for the blocks below -/
  waiting : (I.index base).nStatus.haveData = true →
    (∀ a ∈ I.m_block_index.forest.path base, (I.index a).nTx ≠ 0) ∨ I.foundInUnlinked base = true
  /-- nothing above it waits for data from below it -/
  complete : ∀ b ∈ I.m_block_index.entries.dom, I.m_block_index.forest.Under base b →
    I.DataFrom base b → I.foundInUnlinked b = false
  /-- the other chainstates have the candidates that the new base asks for -/
  others : ∀ c ∈ others, ∀ t ∈ c.tip, ∀ b ∈ I.m_block_index.entries.dom, I.Holds base c t b

section
variable {I : IndexState} {hashGenesisBlock old_base base : Uint256} {count : Nat}
  {witness : Uint256 → Bool} {chainstates others : List ChainstateCore} {J : IndexState}
  {b : Uint256}

section
variable (hJ : J = I.rebased old_base base count witness chainstates)
include hJ

theorem rebased_index (a : Uint256) :
    (J.index a).nTx = (I.index a).nTx ∧ (J.index a).nSequenceId = (I.index a).nSequenceId ∧
      (J.index a).nStatus.valid = (I.index a).nStatus.valid ∧
      (J.index a).nStatus.haveData = (I.index a).nStatus.haveData ∧
      (J.index a).nStatus.haveUndo = (I.index a).nStatus.haveUndo ∧
      (J.index a).nStatus.failedValid = (I.index a).nStatus.failedValid := by
  subst hJ
  exact rebase_index I.m_block_index old_base base count witness a

theorem rebased_tree : J.m_block_index = I.m_block_index.rebase old_base base count witness := hJ ▸ rfl

theorem rebased_snapBase : J.snap_base = some base := hJ ▸ rfl

theorem rebased_reaches (level : Nat) : J.reaches level = I.reaches level := by
  funext a
  simp only [reaches, rebased_index hJ, rebased_tree hJ, rebase_pprev]

theorem rebased_firstInvalid (b : Uint256) : J.pindexFirstInvalid b = I.pindexFirstInvalid b := by
  simp only [pindexFirstInvalid, rebased_index hJ, rebased_tree hJ, rebase_forest]

theorem rebased_firstNotTreeValid (b : Uint256) :
    J.pindexFirstNotTreeValid b = I.pindexFirstNotTreeValid b := by
  simp only [pindexFirstNotTreeValid, rebased_reaches hJ, rebased_tree hJ, rebase_forest]

theorem rebased_firstMissing (b : Uint256) :
    J.pindexFirstMissing b = (I.based base).pindexFirstMissing b := by
  simp only [pindexFirstMissing, rebased_index hJ, rebased_tree hJ, rebase_forest]
  rw [hJ]
  rfl

theorem rebased_firstNeverProcessed (b : Uint256) :
    J.pindexFirstNeverProcessed b = (I.based base).pindexFirstNeverProcessed b := by
  simp only [pindexFirstNeverProcessed, rebased_index hJ, rebased_tree hJ, rebase_forest]
  rw [hJ]
  rfl

theorem rebased_firstNotValid (level : Nat) (b : Uint256) :
    J.pindexFirstNotValid level b = (I.based base).pindexFirstNotValid level b := by
  simp only [pindexFirstNotValid, rebased_reaches hJ, rebased_tree hJ, rebase_forest]
  rw [hJ]
  rfl

theorem rebased_foundInUnlinked (b : Uint256) : J.foundInUnlinked b = I.foundInUnlinked b := by
  rw [foundInUnlinked, rebased_tree hJ, rebase_pprev]
  subst hJ
  rfl

/-! ### what the marks do not touch -/

theorem rebased_treeOk (hbase : base ∈ I.m_block_index.entries.dom) (h : I.TreeOk) : J.TreeOk := by
  rw [treeOk_iff] at h ⊢
  simp only [rebased_tree hJ, rebase_pprev, rebase_forest, rebase_nHeight,
    rebase_getAncestor, rebased_index hJ]
  subst hJ
  exact ⟨fun b hb => Option.some.inj hb ▸ hbase, h.2⟩

theorem rebased_entryOk (h : I.EntryOk hashGenesisBlock b) : J.EntryOk hashGenesisBlock b := by
  rw [entryOk_iff] at h ⊢
  simp only [rebased_tree hJ, rebase_pprev, rebase_forest, rebase_nHeight,
    rebase_nChainWork, rebased_index hJ, rebased_firstInvalid hJ, rebased_firstNotTreeValid hJ,
    rebased_foundInUnlinked hJ]
  subst hJ
  exact h

theorem rebased_stranded (b : Uint256) : J.Stranded b ↔ (I.based base).Stranded b := by
  simp only [Stranded, rebased_index hJ, rebased_firstNeverProcessed hJ, rebased_firstMissing hJ,
    rebased_tree hJ, rebase_pprev]
  subst hJ
  rfl

theorem rebased_pathOk_iff : J.PathOk b ↔ (I.based base).PathOk b := by
  rw [pathOk_iff, pathOk_iff]
  simp only [rebased_tree hJ, rebase_pprev, rebase_getAncestor, rebase_nHeight,
    rebased_index hJ, rebased_firstMissing hJ, rebased_firstNeverProcessed hJ,
    rebased_firstNotValid hJ, rebased_firstInvalid hJ, rebased_foundInUnlinked hJ, rebased_stranded hJ]
  subst hJ
  rfl

theorem rebased_contends (t b : Uint256) : J.Contends t b ↔ (I.based base).Contends t b := by
  rw [Contends, rebased_firstNeverProcessed hJ, rebased_tree hJ, rebase_before]
  subst hJ
  rfl

theorem rebased_targets (c : ChainstateCore) (b : Uint256) :
    J.Targets c b ↔ (I.based base).Targets c b := by
  simp only [Targets, rebased_tree hJ, rebase_getAncestor, rebase_nHeight]
  subst hJ
  rfl

theorem rebased_chainstateOk_iff {c : ChainstateCore} :
    J.ChainstateOk c b ↔ (I.based base).ChainstateOk c b := by
  rw [chainstateOk_iff, chainstateOk_iff]
  simp only [rebased_tree hJ, rebase_pprev, rebase_getAncestor, rebase_before,
    rebased_contends hJ, rebased_firstInvalid hJ, rebased_firstMissing hJ, rebased_targets hJ,
    rebased_stranded hJ, rebased_foundInUnlinked hJ]
  subst hJ
  rfl

/-! ### the counts -/

theorem rebased_count (hb : b ∈ I.m_block_index.entries.dom) : (J.index b).m_chain_tx_count =
      if b = base then count else if b = old_base then 0 else (I.index b).m_chain_tx_count := by
  subst hJ
  exact rebase_count I.m_block_index old_base base count witness hb

theorem rebased_count_base (hbase : base ∈ I.m_block_index.entries.dom) :
    (J.index base).m_chain_tx_count = count := by
  rw [rebased_count hJ hbase, if_pos rfl]

theorem rebased_count_old (hold : old_base ∈ I.m_block_index.entries.dom) (hne : base ≠ old_base) :
    (J.index old_base).m_chain_tx_count = 0 := by
  rw [rebased_count hJ hold, if_neg fun h => hne h.symm, if_pos rfl]

theorem rebased_count_other (hb : b ∈ I.m_block_index.entries.dom) (hbn : b ≠ base)
    (hbo : b ≠ old_base) : (J.index b).m_chain_tx_count = (I.index b).m_chain_tx_count := by
  rw [rebased_count hJ hb, if_neg hbn, if_neg hbo]

theorem rebased_haveNum (hb : b ∈ I.m_block_index.entries.dom) : (J.index b).haveNumChainTxs = true ↔
      (if b = base then count else if b = old_base then 0 else (I.index b).m_chain_tx_count) ≠ 0 := by
  rw [haveNumChainTxs_iff, rebased_count hJ hb]

end

theorem based_processed : (I.based base).pindexFirstNeverProcessed b = none ↔ I.ProcessedFrom base b :=
  neverProcessed_eq_none

theorem based_contends {t : Uint256} : (I.based base).Contends t b ↔
    I.m_block_index.before b t = false ∧ (I.ProcessedFrom base b ∨ b = base) := by
  rw [Contends, based_processed]
  exact and_congr_right fun _ => or_congr_right ⟨fun h => (Option.some.inj h).symm, fun h => h ▸ rfl⟩

theorem based_chainstateOk_iff {c : ChainstateCore} (hentry : I.EntryOk hashGenesisBlock b) :
    (I.based base).ChainstateOk c b ↔ ∀ t ∈ c.tip, I.Holds base c t b := by
  have hvalid : (I.based base).pindexFirstInvalid b = none ↔
      (I.index b).nStatus.failedValid = false := hentry.invalid
  have hdata : (I.based base).pindexFirstMissing b = none ↔ I.DataFrom base b := missing_eq_none
  rw [chainstateOk_iff]
  simp only [Stranded, based_contends, hvalid, hdata, based_processed, ne_eq]
  constructor
  · rintro ⟨hgenesis, hcandidate, hno, hwaiting⟩ t ht
    exact ⟨fun hb => hgenesis hb t ht, fun hbefore hp => hcandidate t ht ⟨hbefore, hp⟩,
      fun hb => by_contra fun h => hno t ht h hb,
      fun hpar hd hp hm => hwaiting ⟨hpar, hd, hp, hm⟩ t ht⟩
  · intro h
    exact ⟨fun hb t ht => (h t ht).genesis hb,
      fun t ht hc => (h t ht).offered hc.1 hc.2,
      fun t ht hn hb => hn ((h t ht).held hb),
      fun hs t ht => (h t ht).waiting hs.1 hs.2.1 hs.2.2.1 hs.2.2.2⟩

theorem AllOk.base_mem (h : I.AllOk hashGenesisBlock) (hold : I.snap_base = some old_base) :
    old_base ∈ I.m_block_index.entries.dom := h.tree.base old_base hold

theorem AllOk.based_transactions (hall : I.AllOk hashGenesisBlock)
    (hb : b ∈ I.m_block_index.entries.dom) :
    (I.based base).pindexFirstNotValid BLOCK_VALID_TRANSACTIONS b =
      (I.based base).pindexFirstNeverProcessed b := hall.oldest_transactions hb (some base)

theorem AllOk.not_reaches (hall : I.AllOk hashGenesisBlock) {p : Uint256} {level : Nat}
    (hb : b ∈ I.m_block_index.entries.dom) (hp : I.m_block_index.pprev b = some p)
    (hlevel : BLOCK_VALID_TRANSACTIONS ≤ level) (hzero : (I.index b).nTx = 0) :
    I.reaches level b = false := by
  rw [Bool.eq_false_iff, ne_eq, reaches_of_parent hp]
  have := hall.valid_lt_of_unprocessed hb hzero
  omega

theorem Replaceable.unprocessed_after (hr : I.Replaceable old_base base count others)
    (hne : base ≠ old_base) (hb : b ∈ I.m_block_index.entries.dom)
    (habove : I.m_block_index.forest.Under old_base b)
    (hway : I.m_block_index.forest.Under old_base base → base ∉ I.m_block_index.forest.path b) :
    ∃ c ∈ I.m_block_index.forest.since (some old_base) b, (I.index c).nTx = 0 ∧
      I.m_block_index.pprev c = some old_base ∧ c ∈ I.m_block_index.entries.dom := by
  obtain ⟨c, hc, hcb, hcs⟩ := habove.exists_child
  have hcd := mem_dom_of_path hb hcb
  refine ⟨c, hcs, hr.after hne c hcd hc ?_, hc, hcd⟩
  rintro rfl
  exact hway (under_parent hc) hcb

/-! ### the new chainstate -/

/-- a chainstate whose candidates were chosen after the replacement -/
structure Repopulated (I : IndexState) (base : Uint256) (c : ChainstateCore) : Prop where
  tip : c.tip = some base
  from_base : c.m_from_snapshot_blockhash = some base
  target : c.m_target_blockhash = none
  candidates : ∀ b, b ∈ c.setBlockIndexCandidates ↔
    b ∈ I.m_block_index.entries.dom ∧ I.m_block_index.before b base = false ∧
      (b = base ∨ (I.index b).nStatus.failedValid = false ∧
        BLOCK_VALID_TRANSACTIONS ≤ (I.index b).nStatus.valid ∧
        ((I.index b).haveNumChainTxs = true ∨ I.m_block_index.pprev b = none))

theorem root_of_height_zero {g : Uint256} (h : I.EntryOk hashGenesisBlock g)
    (hz : I.m_block_index.nHeight g = 0) : g = hashGenesisBlock := by
  apply h.genesis
  cases hp : I.m_block_index.pprev g with
  | none => rfl
  | some p =>
    have hlen := h.height
    obtain ⟨rest, hrest⟩ := I.m_block_index.forest.path_cons p
    rw [hz, I.m_block_index.forest.path_parent hp, hrest] at hlen
    simp at hlen

theorem Repopulated.chainstateOk {c : ChainstateCore} (hc : I.Repopulated base c)
    (hsnap : I.snap_base = some base) (hbase : base ∈ I.m_block_index.entries.dom)
    (hentry : ∀ b ∈ I.m_block_index.entries.dom, I.EntryOk hashGenesisBlock b)
    (hcount : ∀ b ∈ I.m_block_index.entries.dom, I.CountOk b)
    (hb : b ∈ I.m_block_index.entries.dom) : I.ChainstateOk c b := by
  have htip : ∀ t ∈ c.tip, t = base := by
    intro t ht
    rw [hc.tip] at ht
    exact (Option.some.inj ht).symm
  have hcontender : I.Contends base b → I.pindexFirstInvalid b = none →
      b ∈ c.setBlockIndexCandidates := by
    rintro ⟨hbefore, hknown⟩ hinvalid
    refine (hc.candidates b).mpr ⟨hb, hbefore, ?_⟩
    by_cases hbn : b = base
    · exact .inl hbn
    have hnone : I.pindexFirstNeverProcessed b = none := by
      rcases hknown with h | h
      · exact h
      · rw [hsnap] at h
        exact absurd (Option.some.inj h).symm hbn
    have htx := neverProcessed_eq_none.mp hnone b (self_mem_since _)
    exact .inr ⟨(hentry b hb).invalid.mp hinvalid,
      (hentry b hb).transactions.mpr (Nat.pos_of_ne_zero htx),
      .inl ((hcount b hb).processed.mp (.inl hnone))⟩
  refine ⟨fun hroot t ht g hg => ?_, fun t ht hcon hinvalid _ _ => ?_, fun t ht hcon hmem => ?_,
    fun hstranded t ht hbefore hnot hinvalid _ => ?_⟩
  · rw [htip t ht] at hg
    have hgpath := mem_of_find?_eq_some hg
    have hheight : I.m_block_index.nHeight g = 0 := by simpa using find?_some hg
    have hgmem := mem_dom_of_path hbase hgpath
    rw [root_of_height_zero (hentry g hgmem) hheight, (hentry b hb).genesis hroot]
  · rw [htip t ht] at hcon
    exact hcontender hcon hinvalid
  · rw [htip t ht] at hcon
    obtain ⟨-, hbefore, hwhy⟩ := (hc.candidates b).mp hmem
    refine hcon ⟨hbefore, ?_⟩
    rcases hwhy with rfl | ⟨-, hvalid, hknown | hroot⟩
    · exact .inr hsnap
    · exact (hcount b hb).processed.mpr hknown
    · have htx := (hentry b hb).transactions.mp hvalid
      left
      rw [neverProcessed_eq_none]
      intro a ha
      have hmem := mem_path_of_since ha
      rw [I.m_block_index.forest.path_root hroot, mem_singleton] at hmem
      rw [hmem]
      exact Nat.pos_iff_ne_zero.mp htx
  · rw [htip t ht] at hbefore
    exact absurd (hcontender ⟨hbefore, .inl hstranded.2.2.1⟩ hinvalid) hnot

/-! ### the tree under the new base -/

variable (hall : I.AllOk hashGenesisBlock) (hold : I.snap_base = some old_base)
  (hbase : base ∈ I.m_block_index.entries.dom)
include hall hold hbase

section
variable (hr : I.Replaceable old_base base count others) (hb : b ∈ I.m_block_index.entries.dom)
include hr

theorem Replaceable.old_unprocessed (hne : base ≠ old_base) {p : Uint256}
    (hp : I.m_block_index.pprev old_base = some p)
    (hcount : p = base ∨ 0 < (I.index p).m_chain_tx_count) : (I.index old_base).nTx = 0 := by
  have hmem : old_base ∈ I.m_block_index.entries.dom := hall.base_mem hold
  obtain ⟨a, ha, hazero⟩ := hr.unprocessed hne
  obtain ⟨hapath, hunder⟩ := mem_since.mp ha
  rcases (I.m_block_index.forest.mem_path_iff a old_base).mp hapath with rfl | ⟨q, hq, haq⟩
  · exact hazero
  obtain rfl := Option.some.inj (hp.symm.trans hq)
  have hpunder : I.m_block_index.forest.Under p old_base := under_parent hp
  rcases hcount with rfl | hcount
  · have hpa := hunder hpunder
    exact absurd (I.m_block_index.forest.eq_of_mem_of_mem hpa.1 haq) hpa.2
  · have hknown : (I.index p).m_chain_tx_count ≠ 0 := Nat.pos_iff_ne_zero.mp hcount
    have hpmem := mem_dom_of_path hmem hpunder.mem
    rw [hall.count_ne_zero_iff hpmem, hold] at hknown
    rcases hknown with hk | hk
    · refine absurd hazero (hk a (mem_since.mpr ⟨haq, fun ho => ?_⟩))
      exact absurd (I.m_block_index.forest.eq_of_mem_of_mem ho.mem hpunder.mem) ho.2
    · exact absurd (Option.some.inj hk).symm hpunder.2

include hb

theorem Replaceable.since_old_of_since_base (hne : base ≠ old_base)
    (habove : I.m_block_index.forest.Under base b) (hway : old_base ∈ I.m_block_index.forest.path b →
      ¬ I.m_block_index.forest.Under base old_base)
    (h : I.ProcessedFrom base b) : I.ProcessedFrom old_base b := by
  obtain ⟨c, hc, hcb, hcs⟩ := habove.exists_child
  have hco : c ≠ old_base := by
    rintro rfl
    exact hway hcb (under_parent hc)
  have hcount := hr.above c (mem_dom_of_path hb hcb) hc hco (Nat.pos_of_ne_zero (h c hcs))
  have hknown : (I.index base).m_chain_tx_count ≠ 0 := by
    rw [hcount]
    exact hr.counted
  rw [hall.count_ne_zero_iff hbase, hold] at hknown
  have hbelow : I.ProcessedFrom old_base base := by
    rcases hknown with hk | hk
    · exact hk
    · exact absurd (Option.some.inj hk).symm hne
  intro a ha
  obtain ⟨hab, hunder⟩ := mem_since.mp ha
  rcases I.m_block_index.forest.mem_total hab habove.mem with ham | hma
  · refine hbelow a (mem_since.mpr ⟨ham, fun ho => hunder ?_⟩)
    exact Forest.Under.trans_mem ho habove.mem
  · by_cases hab' : a = base
    · rw [hab']
      exact hbelow base (self_mem_since _)
    · exact h a ((mem_since_of_under habove).mpr ⟨hab, hma, fun h => hab' h.symm⟩)

/-- **the two bases agree on the blocks besides them** -/
theorem Replaceable.processed_iff (hbo : b ≠ old_base) (hbn : b ≠ base) :
    I.ProcessedFrom base b ↔ I.ProcessedFrom old_base b := by
  by_cases hne : base = old_base
  · rw [hne]
  by_cases habove : I.m_block_index.forest.Under base b
  · by_cases hway : I.m_block_index.forest.Under base old_base ∧
        I.m_block_index.forest.Under old_base b
    · -- base, old base, block: neither side holds
      obtain ⟨hbelow, hunder⟩ := hway
      obtain ⟨c, hcs, hzero, -⟩ := hr.unprocessed_after hne hb hunder fun ho =>
        absurd (I.m_block_index.forest.eq_of_mem_of_mem hbelow.mem ho.mem) hne
      obtain ⟨a, ha, hazero⟩ := hr.unprocessed hne
      rw [mem_since_of_under hbelow] at ha
      have hab : a ∈ I.m_block_index.forest.since (some base) b :=
        (mem_since_of_under habove).mpr
          ⟨I.m_block_index.forest.mem_trans ha.1 hunder.mem, ha.2⟩
      exact iff_of_false (fun h => h a hab hazero) fun h => h c hcs hzero
    · constructor
      · apply hr.since_old_of_since_base hall hold hbase hb hne habove
        intro ho hbelow
        exact hway ⟨hbelow, ho, fun h => hbo h.symm⟩
      · intro h a ha
        obtain ⟨hab, hunder⟩ := (mem_since_of_under habove).mp ha
        refine h a (mem_since.mpr ⟨hab, fun ho => ?_⟩)
        rcases I.m_block_index.forest.mem_total ho.mem habove.mem with hob | hbo'
        · exact Forest.Under.of_mem hob hunder
        · exact absurd ⟨⟨hbo', hne⟩, ho⟩ hway
  · by_cases hunder : I.m_block_index.forest.Under old_base b
    · have hoff : base ∉ I.m_block_index.forest.path b := fun h => habove ⟨h, fun he => hbn he.symm⟩
      obtain ⟨c, hcs, hzero, -⟩ := hr.unprocessed_after hne hb hunder fun _ => hoff
      obtain ⟨a, ha, hazero⟩ := hr.unprocessed hne
      have hab : a ∈ I.m_block_index.forest.since (some base) b :=
        (mem_since_of_not_under habove).mpr
          (I.m_block_index.forest.mem_trans (mem_path_of_since ha) hunder.mem)
      exact iff_of_false (fun h => h a hab hazero) fun h => h c hcs hzero
    · simp only [ProcessedFrom, mem_since_of_not_under habove, mem_since_of_not_under hunder]

section
variable (hJ : J = I.rebased old_base base count witness chainstates)
include hJ

theorem Replaceable.sumOk (hparent : (I.m_block_index.pprev base).isSome = true) : J.SumOk b := by
  have hmem : old_base ∈ I.m_block_index.entries.dom := hall.base_mem hold
  have hsum := (hall.count b hb).sum
  cases hp : I.m_block_index.pprev b with
  | none =>
    have hbn : b ≠ base := by
      rintro rfl
      rw [hp] at hparent
      cases hparent
    rw [SumOk, rebased_tree hJ, rebase_pprev, hp]
    simp only [rebased_index hJ]
    by_cases hbo : b = old_base
    · subst hbo
      obtain ⟨a, ha, hzero⟩ := hr.unprocessed fun h => hbn h.symm
      have hroot := mem_path_of_since ha
      rw [I.m_block_index.forest.path_root hp, mem_singleton] at hroot
      rw [rebased_count_old hJ hmem fun h => hbn h.symm, ← hroot, hzero]
    · rw [rebased_count_other hJ hb hbn hbo]
      rw [SumOk, hp] at hsum
      exact hsum
  | some p =>
    have hpu : I.m_block_index.forest.Under p b := under_parent hp
    have hpmem := mem_dom_of_path hb hpu.mem
    have hp' : J.m_block_index.pprev b = some p := by rw [rebased_tree hJ, rebase_pprev, hp]
    refine SumOk.of_parent hp' ?_ ?_ <;> rw [(rebased_index hJ b).1]
    · intro hcount htx
      by_cases hbn : b = base
      · subst hbn
        by_cases hpo : p = old_base
        · subst hpo
          rw [rebased_count_old hJ hpmem fun h => hpu.2 h.symm] at hcount
          cases hcount
        · rw [rebased_count_other hJ hpmem hpu.2 hpo] at hcount ⊢
          rw [rebased_count_base hJ hbase]
          exact hr.below p hp hpo hcount htx
      · by_cases hbo : b = old_base
        · subst hbo
          have hne : base ≠ b := fun h => hbn h.symm
          have hcount' : p = base ∨ 0 < (I.index p).m_chain_tx_count := by
            by_cases hpn : p = base
            · exact .inl hpn
            · rw [rebased_count_other hJ hpmem hpn hpu.2] at hcount
              exact .inr hcount
          rw [hr.old_unprocessed hall hold hbase hne hp hcount'] at htx
          cases htx
        · rw [rebased_count_other hJ hb hbn hbo]
          by_cases hpn : p = base
          · subst hpn
            have habove := hr.above b hb hp hbo htx
            rw [rebased_count_base hJ hpmem] at hcount ⊢
            rw [← habove] at hcount ⊢
            exact hsum.sum hp hcount htx
          · by_cases hpo : p = old_base
            · subst hpo
              rw [rebased_count_old hJ hpmem fun h => hpn h.symm] at hcount
              cases hcount
            · rw [rebased_count_other hJ hpmem hpn hpo] at hcount ⊢
              exact hsum.sum hp hcount htx
    · intro hnot
      by_cases hbn : b = base
      · subst hbn
        rw [rebased_count_base hJ hbase]
        exact iff_of_true hr.counted (rebased_snapBase hJ)
      · have hother : ¬ J.snap_base = some b := by
          rw [rebased_snapBase hJ]
          exact fun h => hbn (Option.some.inj h).symm
        refine iff_of_false (fun hcount => ?_) hother
        by_cases hbo : b = old_base
        · subst hbo
          exact hcount (rebased_count_old hJ hmem fun h => hbn h.symm)
        rw [rebased_count_other hJ hb hbn hbo] at hcount
        -- the count of a block comes from its parent, if it is not the old base
        have hboth : 0 < (I.index p).m_chain_tx_count ∧ 0 < (I.index b).nTx := by
          by_contra hneg
          rw [hsum.only_base hp hneg, hold] at hcount
          exact hbo (Option.some.inj hcount).symm
        by_cases hpn : p = base
        · subst hpn
          refine hnot ⟨?_, hboth.2⟩
          rw [rebased_count_base hJ hpmem]
          exact Nat.pos_of_ne_zero hr.counted
        · by_cases hpo : p = old_base
          · subst hpo
            rw [hr.after (fun h => hpn h.symm) b hb hp hbn] at hboth
            exact Nat.lt_irrefl 0 hboth.2
          · refine hnot ⟨?_, hboth.2⟩
            rw [rebased_count_other hJ hpmem hpn hpo]
            exact hboth.1

theorem Replaceable.haveNum_iff :
    ((I.based base).pindexFirstNeverProcessed b = none ∨ some base = some b) ↔
      (J.index b).haveNumChainTxs = true := by
  rw [rebased_haveNum hJ hb, based_processed]
  by_cases hbn : b = base
  · rw [if_pos hbn, hbn]
    exact iff_of_true (.inr rfl) hr.counted
  have hnb : ¬ some base = some b := fun h => hbn (Option.some.inj h).symm
  rw [if_neg hbn]
  by_cases hbo : b = old_base
  · subst hbo
    obtain ⟨a, ha, hzero⟩ := hr.unprocessed fun h => hbn h.symm
    rw [if_pos rfl]
    refine iff_of_false ?_ fun h => h rfl
    rintro (h | h)
    · exact h a ha hzero
    · exact hnb h
  · rw [if_neg hbo, hall.count_ne_zero_iff hb, hold, hr.processed_iff hall hold hbase hb hbo hbn]
    constructor
    · rintro (h | h)
      · exact .inl h
      · exact absurd h hnb
    · rintro (h | h)
      · exact .inl h
      · exact absurd (Option.some.inj h).symm hbo

theorem Replaceable.countOk (hparent : (I.m_block_index.pprev base).isSome = true) : J.CountOk b := by
  have hhave := hr.haveNum_iff hall hold hbase hb hJ
  rw [← rebased_snapBase hJ] at hhave
  refine ⟨?_, ?_, ?_, hr.sumOk hall hold hbase hb hJ hparent⟩
  · intro hnone
    rw [(rebased_index hJ b).2.1]
    have hzero : ¬ (if b = base then count else if b = old_base then 0
        else (I.index b).m_chain_tx_count) ≠ 0 := by
      rw [← rebased_haveNum hJ hb, hnone]
      exact Bool.false_ne_true
    by_cases hbn : b = base
    · rw [if_pos hbn] at hzero
      exact absurd hr.counted hzero
    · rw [if_neg hbn] at hzero
      by_cases hbo : b = old_base
      · rw [hbo]
        refine hr.sequence fun h => hbn ?_
        rw [hbo, h]
      · rw [if_neg hbo, ← haveNumChainTxs_iff, Bool.not_eq_true] at hzero
        exact (hall.count b hb).sequence hzero
  · rw [rebased_firstNeverProcessed hJ]
    exact hhave
  · rw [rebased_firstNotValid hJ, hall.based_transactions hb]
    exact hhave

end

/-! ### the paths -/

theorem Replaceable.valid {level : Nat} (hlevel : level ∈ [BLOCK_VALID_CHAIN, BLOCK_VALID_SCRIPTS])
    (hvalid : level ≤ (I.index b).nStatus.valid) :
    (I.based base).pindexFirstNotValid level b = none := by
  have hchain : BLOCK_VALID_CHAIN ≤ level := by
    rcases mem_cons.mp hlevel with rfl | h
    · exact Nat.le_refl _
    · rw [mem_singleton.mp h]
      decide
  have hpast : ∀ a ∈ I.m_block_index.forest.since (some old_base) b, I.reaches level a = true := by
    rw [← hold, ← notValid_eq_none]
    exact (hall.path b hb).valid level hlevel hvalid
  apply notValid_eq_none.mpr
  show ∀ a ∈ I.m_block_index.forest.since (some base) b, I.reaches level a = true
  intro a ha
  refine hpast a (mem_since.mpr ⟨mem_path_of_since ha, fun hunder => ?_⟩)
  by_cases hne : base = old_base
  · rw [← hne] at hunder ⊢
    exact (mem_since.mp ha).2 hunder
  by_cases hway : I.m_block_index.forest.Under old_base base ∧ base ∈ I.m_block_index.forest.path b
  · by_cases hbn : b = base
    · -- the new base itself would have to be connected
      have := hr.unconnected hway.1
      rw [hbn] at hvalid
      omega
    · have hab := (mem_since.mp ha).2 ⟨hway.2, fun h => hbn h.symm⟩
      exact Forest.Under.of_mem hway.1.mem hab
  · obtain ⟨c, hcs, hzero, hcp, hcd⟩ :=
      hr.unprocessed_after hne hb hunder fun ho hon => hway ⟨ho, hon⟩
    have hreach := hpast c hcs
    rw [hall.not_reaches hcd hcp (Nat.le_trans (by decide) hchain) hzero] at hreach
    cases hreach

theorem Replaceable.pathOk : (I.based base).PathOk b := by
  have hpath := hall.path b hb
  have hprocessed : b ≠ base → (I.based base).pindexFirstNeverProcessed b ≠ none →
      I.pindexFirstNeverProcessed b ≠ none := by
    intro hbn hnone hsome
    rw [neverProcessed_eq_none, hold] at hsome
    apply hnone
    rw [based_processed]
    by_cases hbo : b = old_base
    · subst hbo
      intro a ha
      exact hsome a ((mem_since_of_not_under not_under_self).mpr
        (mem_path_of_since ha))
    · exact (hr.processed_iff hall hold hbase hb hbo hbn).mpr hsome
  refine ⟨fun hpruned => ?_, fun t ht hanc => ?_, fun level hlevel hvalid =>
    hr.valid hall hold hbase hb hlevel hvalid, fun hp hdata hnone hinvalid => ?_, fun hmissing => ?_,
    fun hstranded => ?_⟩
  · exact hall.oldest_missing hb hpruned (some base)
  · -- every block is `VALID_TREE`; for genesis the old base has it
    cases hp : I.m_block_index.pprev b with
    | some p =>
      have htree := (hall.entry b hb).tree
      rw [pindexFirstNotTreeValid, oldest_eq_none] at htree
      exact (reaches_of_parent hp).mp (htree b (self_mem_since none))
    | none =>
      have htx := hall.root_processed hb hp
      have := (hall.entry b hb).transactions.mpr (Nat.pos_of_ne_zero htx)
      exact Nat.le_trans (by decide) this
  · by_cases hbn : b = base
    · subst hbn
      rcases hr.waiting hdata with hall' | hfound
      · refine absurd ?_ hnone
        rw [based_processed]
        intro a ha
        exact hall' a (mem_path_of_since ha)
      · exact hfound
    · exact hpath.waiting hp hdata (hprocessed hbn hnone) hinvalid
  · have hdata := missing_eq_none.mp hmissing
    by_cases habove : I.m_block_index.forest.Under base b
    · exact hr.complete b hb habove hdata
    · apply hpath.complete
      rw [missing_eq_none]
      intro a ha
      exact hdata a ((mem_since_of_not_under habove).mpr (mem_path_of_since ha))
  · cases hpruned : I.m_have_pruned with
    | true => exact hpruned
    | false =>
      have hsame := hall.oldest_missing hb hpruned (some base)
      refine absurd ?_ hstranded.2.2.2
      exact hsame.trans hstranded.2.2.1

end

/-! ### the characterisation -/

theorem AllOk.replaceable (hJ : J = I.rebased old_base base count witness chainstates)
    (hparent : (I.m_block_index.pprev base).isSome = true)
    (hfailed : (I.index base).nStatus.failedValid = false) (hothers : ∀ c ∈ others, c ∈ chainstates)
    (h : J.AllOk hashGenesisBlock) : I.Replaceable old_base base count others := by
  have hmem : old_base ∈ I.m_block_index.entries.dom := hall.base_mem hold
  have holdcount : (I.index old_base).m_chain_tx_count ≠ 0 :=
    (hall.count_ne_zero_iff hmem).mpr (.inr hold)
  have hcounted : count ≠ 0 := by
    have := haveNumChainTxs_iff.mp ((h.count base (hJ ▸ hbase)).processed.mp (.inr (rebased_snapBase hJ)))
    rwa [rebased_count_base hJ hbase] at this
  have hlost : base ≠ old_base → (J.index old_base).haveNumChainTxs = false := by
    intro hne
    rw [← Bool.not_eq_true, haveNumChainTxs_iff, rebased_count_old hJ hmem hne]
    exact fun h => h rfl
  have hunprocessed : base ≠ old_base →
      ∃ a ∈ I.m_block_index.forest.since (some base) old_base, (I.index a).nTx = 0 := by
    intro hne
    by_contra hno
    have hknown := (h.count old_base (hJ ▸ hmem)).processed.mp (.inl ?_)
    · rw [hlost hne] at hknown
      cases hknown
    · rw [rebased_firstNeverProcessed hJ, based_processed]
      intro a ha hzero
      exact hno ⟨a, ha, hzero⟩
  refine ⟨hcounted, fun hne => ?_, hunprocessed, fun hne c hc hp hcn => ?_,
    fun p hp hpo hcount htx => ?_, fun c hc hp hco htx => ?_, fun hunder => ?_, fun hdata => ?_,
    fun b hb habove hdata => ?_, fun c hc => ?_⟩
  · have := (h.count old_base (hJ ▸ hmem)).sequence (hlost hne)
    rwa [(rebased_index hJ old_base).2.1] at this
  · -- a block on top of the old base would keep a count that comes from nowhere
    by_contra htx
    have hcu : I.m_block_index.forest.Under old_base c := under_parent hp
    have hco : c ≠ old_base := hcu.2.symm
    have hsum := (hall.count c hc).sum.sum hp (Nat.pos_of_ne_zero holdcount) (Nat.pos_of_ne_zero htx)
    have hp' : J.m_block_index.pprev c = some old_base := by rw [rebased_tree hJ, rebase_pprev, hp]
    have honly := (h.count c (hJ ▸ hc)).sum.only_base hp' ?_
    · rw [rebased_count_other hJ hc hcn hco, rebased_snapBase hJ] at honly
      exact hcn (Option.some.inj (honly.mp (by omega))).symm
    · rw [rebased_count_old hJ hmem hne]
      exact fun h => Nat.lt_irrefl 0 h.1
  · have hpu : I.m_block_index.forest.Under p base := under_parent hp
    have hpmem := mem_dom_of_path hbase hpu.mem
    have hp' : J.m_block_index.pprev base = some p := by rw [rebased_tree hJ, rebase_pprev, hp]
    have hsum := (h.count base (hJ ▸ hbase)).sum.sum hp'
    rw [rebased_count_base hJ hbase, rebased_count_other hJ hpmem hpu.2 hpo,
      (rebased_index hJ base).1] at hsum
    exact hsum hcount htx
  · have hcu : I.m_block_index.forest.Under base c := under_parent hp
    have hcn : c ≠ base := hcu.2.symm
    have hp' : J.m_block_index.pprev c = some base := by rw [rebased_tree hJ, rebase_pprev, hp]
    have hsum := (h.count c (hJ ▸ hc)).sum.sum hp'
    rw [rebased_count_base hJ hbase, rebased_count_other hJ hc hcn hco, (rebased_index hJ c).1] at hsum
    have hpast : 0 < (I.index base).m_chain_tx_count := by
      by_contra hzero
      have honly := (hall.count c hc).sum.only_base hp fun h => hzero h.1
      rw [hold] at honly
      exact hco (Option.some.inj (honly.mp (by omega))).symm
    have := (hall.count c hc).sum.sum hp hpast htx
    omega
  · by_contra hge
    have hne : base ≠ old_base := hunder.2.symm
    obtain ⟨a, ha, hzero⟩ := hunprocessed hne
    have hapath := mem_path_of_since ha
    have hamem := mem_dom_of_path hmem hapath
    have hchain := ((rebased_pathOk_iff hJ).mp (h.path base (hJ ▸ hbase))).valid BLOCK_VALID_CHAIN
      mem_cons_self (Nat.le_of_not_lt hge)
    have hreach := notValid_eq_none.mp hchain a ((mem_since_of_not_under
      not_under_self).mpr (I.m_block_index.forest.mem_trans hapath hunder.mem))
    cases hp : I.m_block_index.pprev a with
    | none => exact hall.root_processed hamem hp hzero
    | some p =>
      have hnot := hall.not_reaches hamem hp (show BLOCK_VALID_TRANSACTIONS ≤ BLOCK_VALID_CHAIN by
        decide) hzero
      exact Bool.false_ne_true (hnot.symm.trans hreach)
  · have hinvalid := (hall.entry base hbase).invalid.mpr hfailed
    by_cases hall' : ∀ a ∈ I.m_block_index.forest.path base, (I.index a).nTx ≠ 0
    · exact .inl hall'
    · right
      apply ((rebased_pathOk_iff hJ).mp (h.path base (hJ ▸ hbase))).waiting hparent hdata _ hinvalid
      rw [ne_eq, based_processed]
      intro hnone
      exact hall' fun a ha => hnone a ((mem_since_of_not_under
        not_under_self).mpr ha)
  · exact ((rebased_pathOk_iff hJ).mp (h.path b (hJ ▸ hb))).complete (missing_eq_none.mpr hdata)
  · exact fun t ht b hb => (based_chainstateOk_iff (hall.entry b hb)).mp
      ((rebased_chainstateOk_iff hJ).mp (h.chainstates c (hJ ▸ hothers c hc) b (hJ ▸ hb))) t ht

theorem rebased_allOk_iff {new : ChainstateCore}
    (hJ : J = I.rebased old_base base count witness (others ++ [new]))
    (hparent : (I.m_block_index.pprev base).isSome = true)
    (hfailed : (I.index base).nStatus.failedValid = false) (hnew : J.Repopulated base new) :
    J.AllOk hashGenesisBlock ↔ I.Replaceable old_base base count others := by
  constructor
  · apply hall.replaceable hold hbase hJ hparent hfailed
    intro c hc
    exact mem_append_left _ hc
  · intro hr
    have hentry := fun b hb => rebased_entryOk (b := b) hJ (hall.entry b hb)
    have hcount := fun b hb => hr.countOk hall hold hbase (b := b) hb hJ hparent
    subst hJ
    refine ⟨rebased_treeOk rfl hbase hall.tree, hentry, hcount,
      fun b hb => (rebased_pathOk_iff rfl).mpr (hr.pathOk hall hold hbase hb), fun c hc b hb => ?_⟩
    rcases mem_append.mp hc with hc | hc
    · exact (rebased_chainstateOk_iff rfl).mpr ((based_chainstateOk_iff (hall.entry b hb)).mpr fun t ht =>
        hr.others c hc t ht b hb)
    · rw [mem_singleton.mp hc]
      exact hnew.chainstateOk rfl hbase hentry hcount hb

end

end IndexState

/-! ## the whole call -/

theorem IndexState.repopulated_of_populate {I : IndexState} {base : Uint256} {cs : ChainstateCore}
    (htip : cs.tip = some base) (hfrom : cs.m_from_snapshot_blockhash = some base)
    (htarget : cs.m_target_blockhash = none) (hassume : cs.m_assumeutxo ≠ .INVALID)
    (hnone : cs.setBlockIndexCandidates = []) :
    I.Repopulated base (cs.populateBlockIndexCandidates I.m_block_index) := by
  obtain ⟨hfrom', -, htarget', -⟩ := ChainstateCore.role_eq
    (ChainstateCore.populateBlockIndexCandidates_role cs I.m_block_index)
  refine ⟨((ChainstateCore.foldl_offer hassume htarget _ base).1).trans htip, hfrom'.trans hfrom,
    htarget'.trans htarget, fun b => ?_⟩
  rw [ChainstateCore.mem_populateBlockIndexCandidates hassume htarget, hnone]
  have hworse : cs.worseThanTip I.m_block_index b = I.m_block_index.before b base := by
    rw [ChainstateCore.worseThanTip, htip]
  have hoffered : ∀ e, I.m_block_index.entries.get b = some e → (cs.offered b e = true ↔
      b = base ∨ (I.index b).nStatus.failedValid = false ∧
        BLOCK_VALID_TRANSACTIONS ≤ (I.index b).nStatus.valid ∧
        ((I.index b).haveNumChainTxs = true ∨ I.m_block_index.pprev b = none)) := by
    intro e he
    have hindex : I.index b = e.toBlockIndexState := index_of_get he
    have hpprev : I.m_block_index.pprev b = e.pprev := by
      rw [BlockMap.pprev, he]
      rfl
    rw [hindex, hpprev, ChainstateCore.offered, hfrom, BlockStatus.isValid]
    simp only [Bool.or_eq_true, Bool.and_eq_true, Bool.not_eq_true', decide_eq_true_eq,
      beq_iff_eq, Option.some.injEq, Option.isNone_iff_eq_none, and_assoc]
    rw [eq_comm]
  rw [hworse]
  constructor
  · rintro (h | ⟨e, he, ho, hw⟩)
    · cases h
    · exact ⟨FMap.mem_dom_of_get he, hw, (hoffered e he).mp ho⟩
  · rintro ⟨hb, hw, ho⟩
    obtain ⟨e, he⟩ := FMap.exists_get_of_mem hb
    exact .inr ⟨e, he, (hoffered e he).mpr ho, hw⟩

namespace ChainstateManager

section
variable {G : Type} [CommGroup G]

/-- the chainstates are told apart by their numbers -/
structure Numbered (s : ChainstateManager G) : Prop where
  fresh : s.FreshIds
  distinct : (s.m_chainstates.map (·.id)).Nodup

def otherChainstates (s : ChainstateManager G) : List ChainstateCore :=
  (s.m_chainstates.eraseP Chainstate.isCurrent).map (·.toChainstateCore)

/-- the same chainstates, as far as the check reads them -/
structure SameCores (s s' : ChainstateManager G) : Prop where
  cores : s'.m_chainstates.map (·.toChainstateCore) = s.m_chainstates.map (·.toChainstateCore)
  ids : s'.m_chainstates.map (·.id) = s.m_chainstates.map (·.id)
  nextId : s'.nextId = s.nextId

variable {s s' : ChainstateManager G} {new : Chainstate G}

theorem SameCores.trans {s'' : ChainstateManager G} (h : SameCores s s') (h' : SameCores s' s'') :
    SameCores s s'' :=
  ⟨h'.cores.trans h.cores, h'.ids.trans h.ids, h'.nextId.trans h.nextId⟩

theorem Resized.sameCores (h : Resized s s') : SameCores s s' :=
  ⟨First.map_eq_of_forall₂ (h.chainstates.imp fun _ _ hr => hr.core),
    First.map_eq_of_forall₂ (h.chainstates.imp fun _ _ hr => hr.id), h.nextId⟩

theorem SameCores.freshIds (h : SameCores s s') (hs : s.FreshIds) : s'.FreshIds := by
  intro cs hcs
  have hmem : cs.id ∈ s'.m_chainstates.map (·.id) := mem_map_of_mem hcs
  rw [h.ids] at hmem
  obtain ⟨old, hold, hid⟩ := mem_map.mp hmem
  rw [← hid, h.nextId]
  exact hs old hold

theorem SameCores.numbered (h : SameCores s s') (hs : s.Numbered) : s'.Numbered :=
  ⟨h.freshIds hs.fresh, by rw [h.ids]; exact hs.distinct⟩

def coreIsCurrent (cs : ChainstateCore) : Bool :=
  decide (cs.m_assumeutxo ≠ .INVALID) && cs.m_target_blockhash.isNone

theorem otherChainstates_eq (s : ChainstateManager G) :
    s.otherChainstates = (s.m_chainstates.map (·.toChainstateCore)).eraseP coreIsCurrent := by
  rw [eraseP_map]
  rfl

theorem SameCores.others (h : SameCores s s') : s'.otherChainstates = s.otherChainstates := by
  rw [otherChainstates_eq, otherChainstates_eq, h.cores]

theorem SameCores.activeTip (h : SameCores s s') : s'.activeTip = s.activeTip := by
  have hcore : ∀ t : ChainstateManager G, t.activeTip =
      ((t.m_chainstates.map (·.toChainstateCore)).find? coreIsCurrent).bind (·.tip) := by
    intro t
    rw [find?_map, Option.bind_map]
    rfl
  rw [hcore, hcore, h.cores]

theorem closeOldSnapshot_spec {cs : Chainstate G} {old_base : Uint256}
    (hcur : s.currentChainstate = some cs) (hfrom : cs.m_from_snapshot_blockhash = some old_base) :
    SameCores s s.closeOldSnapshot ∧ s.closeOldSnapshot.toBlockTree =
      { s.toBlockTree with
        m_block_index := s.m_block_index.modify old_base fun e =>
          { e with m_chain_tx_count := 0 } } ∧
      s.closeOldSnapshot.currentChainstate = some { cs with m_coins_views := none } := by
  have hone : ({ cs with m_coins_views := none } : Chainstate G).toChainstateCore =
      cs.toChainstateCore := rfl
  have hid : ({ cs with m_coins_views := none } : Chainstate G).id = cs.id := rfl
  have hiscur : ({ cs with m_coins_views := none } : Chainstate G).isCurrent = true := by
    show cs.isCurrent = true
    exact find?_some hcur
  simp only [closeOldSnapshot, hcur, hfrom]
  refine ⟨⟨?_, ?_, rfl⟩, rfl, First.find?_replace hiscur hcur⟩
  · exact First.map_replace hone hcur
  · exact First.map_replace hid hcur

theorem addChainstate_spec (h : s.addChainstate new = .ok s') :
    ∃ prev curr, s.currentChainstate = some prev ∧
      ((s.setCurrent { prev with
        m_target_blockhash := new.m_from_snapshot_blockhash }).m_chainstates ++ [new]).find?
          Chainstate.isCurrent = some curr ∧ curr.id = new.id ∧
      s'.m_chainstates = First.replace Chainstate.isCurrent
        { prev with m_target_blockhash := new.m_from_snapshot_blockhash, m_mempool := none }
        s.m_chainstates ++ [{ new with m_mempool := prev.m_mempool }] ∧
      s'.toBlockTree = s.toBlockTree := by
  unfold addChainstate at h
  split at h
  · cases h
  rename_i prev hprev
  split at h
  · cases h
  split at h
  · cases h
  dsimp only at h
  split at h
  · cases h
  rename_i curr hcurr
  split at h
  · cases h
  rename_i hid
  split at h
  · cases h
  split at h
  · cases h
  cases h
  exact ⟨prev, curr, hprev, hcurr, not_not.mp hid, rfl, rfl⟩

theorem Numbered.current_of_id {prev x : Chainstate G} (hs : s.Numbered)
    (hprev : s.currentChainstate = some prev) (hx : x ∈ s.m_chainstates)
    (hid : (x.id == prev.id) = true) : x.isCurrent = true := by
  have hmem := mem_of_find?_eq_some hprev
  rw [inj_on_of_nodup_map hs.distinct hx hmem (by simpa using hid)]
  exact find?_some hprev

/-- the first current one of the list is the appended one: the rest carry smaller numbers -/
theorem replaced_not_current {prev curr : Chainstate G} (hs : s.FreshIds) (hnew : new.id = s.nextId)
    (hprev : s.currentChainstate = some prev) (hcurr : ((s.setCurrent { prev with
      m_target_blockhash := new.m_from_snapshot_blockhash }).m_chainstates ++ [new]).find?
        Chainstate.isCurrent = some curr) (hid : curr.id = new.id) :
    (s.setCurrent { prev with
      m_target_blockhash := new.m_from_snapshot_blockhash }).m_chainstates.find?
        Chainstate.isCurrent = none := by
  have hids : (s.setCurrent { prev with
      m_target_blockhash := new.m_from_snapshot_blockhash }).m_chainstates.map (·.id) =
        s.m_chainstates.map (·.id) := by
    apply First.map_replace _ hprev
    rfl
  cases hfind : (s.setCurrent { prev with
      m_target_blockhash := new.m_from_snapshot_blockhash }).m_chainstates.find?
        Chainstate.isCurrent with
  | none => rfl
  | some cs =>
    rw [find?_append, hfind] at hcurr
    cases hcurr
    have hmem : curr.id ∈ s.m_chainstates.map (·.id) := by
      rw [← hids]
      exact mem_map_of_mem (mem_of_find?_eq_some hfind)
    obtain ⟨old, hold, holdid⟩ := mem_map.mp hmem
    have hlt := hs old hold
    rw [holdid, hid, hnew] at hlt
    exact absurd hlt (Nat.lt_irrefl _)

theorem current_last {l : List (Chainstate G)} (hlist : s.m_chainstates = l ++ [new])
    (hl : ∀ cs ∈ l, cs.isCurrent = false) (hnew : new.isCurrent = true) :
    s.currentChainstate = some new := by
  rw [currentChainstate, hlist, find?_append, find?_eq_none.mpr (by simpa using hl),
    Option.none_or, find?_cons, hnew]

theorem populateCurrent_last {l : List (Chainstate G)} (hlist : s.m_chainstates = l ++ [new])
    (hl : ∀ cs ∈ l, cs.isCurrent = false) (hnew : new.isCurrent = true) :
    s.populateCurrent.toBlockTree = s.toBlockTree ∧
      s.populateCurrent.m_chainstates = l ++ [{ new with
        toChainstateCore := new.toChainstateCore.populateBlockIndexCandidates s.m_block_index }] := by
  rw [populateCurrent, current_last hlist hl hnew]
  refine ⟨rfl, ?_⟩
  show First.replace _ _ s.m_chainstates = _
  rw [hlist, First.replace_append hl, First.replace, if_pos hnew]

theorem populated_current {id : Nat} {base_blockhash : Uint256} (h : Added new id base_blockhash)
    (m : BlockMap) (mempool : Option CTxMemPool) :
    ({ new with
      toChainstateCore := new.toChainstateCore.populateBlockIndexCandidates m,
      m_mempool := mempool } : Chainstate G).isCurrent = true := by
  have hrole := ChainstateCore.role_eq
    (ChainstateCore.populateBlockIndexCandidates_role new.toChainstateCore m)
  rw [Chainstate.isCurrent, hrole.2.1, hrole.2.2.1]
  exact h.isCurrent

def dropped (old : Option Nat) (l : List (Chainstate G)) : List (Chainstate G) :=
  old.elim l fun id => l.eraseP fun cs => cs.id == id

theorem mem_of_dropped {old : Option Nat} {l : List (Chainstate G)} {cs : Chainstate G}
    (h : cs ∈ dropped old l) : cs ∈ l := by
  cases old with
  | none => exact h
  | some id => exact mem_of_mem_eraseP h

theorem dropped_append {old : Option Nat} {c : Chainstate G} (h : ∀ id ∈ old, c.id ≠ id)
    (l : List (Chainstate G)) : dropped old (l ++ [c]) = dropped old l ++ [c] := by
  cases old with
  | none => rfl
  | some id =>
    refine First.eraseP_append_last (p := fun cs => cs.id == id) ?_ l
    exact beq_eq_false_iff_ne.mpr (h id rfl)

theorem Numbered.dropped_replace {prev cs : Chainstate G} (hs : s.Numbered)
    (hprev : s.currentChainstate = some prev) (hid : cs.id = prev.id) :
    dropped (some prev.id) (First.replace Chainstate.isCurrent cs s.m_chainstates) =
      s.m_chainstates.eraseP Chainstate.isCurrent :=
  First.eraseP_replace (fun cs : Chainstate G => cs.id == prev.id) (by simpa using hid)
    (fun _ hx hxid => hs.current_of_id hprev hx hxid) hprev

/-- **a registration**: the new chainstate stands behind the others and is the only current one -/
theorem registerSnapshot_spec {env : ActivationEnv G} {base_blockhash r : Uint256} {old : Option Nat}
    (hs : s.FreshIds) (hold : ∀ id ∈ old, id < s.nextId) (hadded : Added new s.nextId base_blockhash)
    (h : s.registerSnapshot env new base_blockhash old = .ok (.ok r, s')) :
    ∃ prev cs, s.currentChainstate = some prev ∧ cs.id = prev.id ∧ s'.toBlockTree = s.toBlockTree ∧
      s'.m_chainstates.map (·.toChainstateCore) =
        (dropped old (First.replace Chainstate.isCurrent cs s.m_chainstates)).map (·.toChainstateCore) ++
          [new.toChainstateCore.populateBlockIndexCandidates s.m_block_index] ∧
      s'.currentChainstate.map (·.toChainstateCore) =
        some (new.toChainstateCore.populateBlockIndexCandidates s.m_block_index) := by
  obtain ⟨s₁, hadd, hrest⟩ := bind_eq_ok.mp h
  obtain ⟨s₂, hreb, hdone⟩ := bind_eq_ok.mp hrest
  cases hdone
  obtain ⟨prev, curr, hprev, hcurr, hid, hlist, htree⟩ := addChainstate_spec hadd
  have hnone := First.find?_replace_none (p := Chainstate.isCurrent) (b := { prev with
    m_target_blockhash := new.m_from_snapshot_blockhash, m_mempool := none }) (by rfl)
    (replaced_not_current hs hadded.id hprev hcurr hid)
  have hne : ∀ id ∈ old, new.id ≠ id := by
    intro id hmem
    have := hold id hmem
    rw [hadded.id]
    omega
  obtain ⟨t, ht, htlist, hpop⟩ : ∃ t : ChainstateManager G, t.toBlockTree = s₁.toBlockTree ∧
      t.m_chainstates = dropped old s₁.m_chainstates ∧
      t.populateCurrent.maybeRebalanceCaches env.rebalance = .ok s' := by
    cases old <;> exact ⟨_, by rfl, by rfl, hreb⟩
  rw [hlist, dropped_append (c := { new with m_mempool := prev.m_mempool }) hne] at htlist
  have hothers := fun cs (hcs : cs ∈ dropped old _) => by
    simpa using find?_eq_none.mp hnone cs (mem_of_dropped hcs)
  obtain ⟨hpoptree, hpoplist⟩ := populateCurrent_last htlist hothers hadded.isCurrent
  have hindex : t.m_block_index = s.m_block_index := congrArg BlockTree.m_block_index (ht.trans htree)
  have hres := maybeRebalanceCaches_spec hpop
  rw [hindex] at hpoplist
  obtain ⟨cs', hcs', hr⟩ :=
    hres.current (current_last hpoplist hothers (populated_current hadded _ _))
  refine ⟨prev, { prev with
    m_target_blockhash := new.m_from_snapshot_blockhash, m_mempool := none }, hprev, rfl,
    hres.tree.trans (hpoptree.trans (ht.trans htree)), ?_, ?_⟩
  · rw [hres.sameCores.cores, hpoplist, map_append]
    rfl
  · rw [hcs', Option.map_some, hr.core]

section
variable {M : MuHash G} {codec : CoinCodec} {P : CChainParams} {env : ActivationEnv G}

theorem closeOldSnapshot_rebase {cs : Chainstate G} (hcur : s.currentChainstate = some cs)
    (P : CChainParams) (load : LoadEnv) (base : Uint256) :
    SameCores s s.closeOldSnapshot ∧
      s.closeOldSnapshot.toBlockTree =
        { s.toBlockTree with m_block_index := s.closeOldSnapshot.m_block_index } ∧
      (∃ cs', s.closeOldSnapshot.currentChainstate = some cs' ∧ cs'.id = cs.id) ∧
      (∀ e', s.closeOldSnapshot.m_block_index.entries.get base = some e' →
        ∃ e, s.m_block_index.entries.get base = some e ∧ e'.nHeight = e.nHeight) ∧
      ∀ base_height, ∃ witness,
        markBase P load s.closeOldSnapshot.m_block_index base base_height =
          s.m_block_index.rebase (cs.m_from_snapshot_blockhash.getD base) base
            (baseTxCount P base_height) witness := by
  cases hfrom : cs.m_from_snapshot_blockhash with
  | none =>
    rw [closeOldSnapshot_eq hcur hfrom]
    refine ⟨⟨rfl, rfl, rfl⟩, rfl, ⟨cs, hcur, rfl⟩, fun e he => ⟨e, he, rfl⟩, fun base_height => ?_⟩
    obtain ⟨witness, hw⟩ := markBase_rebase P load s.m_block_index base base base_height
    rw [markBase_modify_base] at hw
    exact ⟨witness, hw⟩
  | some old_base =>
    obtain ⟨hsame, htree, hclosed⟩ := closeOldSnapshot_spec hcur hfrom
    rw [htree]
    refine ⟨hsame, rfl, ⟨_, hclosed, rfl⟩, fun e' he' => ?_, fun base_height =>
      markBase_rebase P load s.m_block_index old_base base base_height⟩
    rw [modify_get] at he'
    obtain ⟨e, he, rfl⟩ := Option.map_eq_some_iff.mp he'
    exact ⟨e, he, by split <;> rfl⟩

/-- **what a successful activation leaves**: the count of the base, no count at the old one, and a
chainstate that chose its candidates, in the place of the old snapshot if there was one -/
theorem activateSnapshot_spec {r : Uint256} {coins_file : Bytes}
    {metadata : SnapshotMetadata} {in_memory verify : Bool} {expected_utxo_hash : Option Uint256}
    (hs : s.FreshIds)
    (h : activateSnapshot M codec P env s coins_file metadata in_memory verify expected_utxo_hash =
      .ok (.ok r, s')) (m_have_pruned : Bool) :
    ∃ current start witness others new, s.currentChainstate = some current ∧
      s.m_block_index.entries.get metadata.m_base_blockhash = some start ∧ start.nHeight ≠ 0 ∧
      s.activeTip.isSome = true ∧
      (current.m_from_snapshot_blockhash.isSome = true → start.nStatus.failedValid = false ∧
        (s.Numbered → others = s.otherChainstates)) ∧
      s'.toBlockTree = { s.toBlockTree with
        m_block_index := s.m_block_index.rebase
          (current.m_from_snapshot_blockhash.getD metadata.m_base_blockhash) metadata.m_base_blockhash
          (baseTxCount P start.nHeight) witness } ∧
      s'.m_chainstates.map (·.toChainstateCore) = others ++ [new] ∧
      s'.currentChainstate.map (·.toChainstateCore) = some new ∧
      (s'.indexState m_have_pruned).Repopulated metadata.m_base_blockhash new := by
  unfold activateSnapshot at h
  split at h
  · cases h
  rename_i current hcur
  split at h
  · cases h
  rename_i haccepted
  obtain ⟨s₁, hresize, hpop⟩ := bind_eq_ok.mp h
  have hres := resizeCurrent_spec hresize
  obtain ⟨cs₁, hcs₁, hr⟩ := hres.current hcur
  obtain ⟨hclose, hclosetree, ⟨cs₂, hcs₂, hid₂⟩, hget, hmarks⟩ :=
    closeOldSnapshot_rebase hcs₁ P env.load metadata.m_base_blockhash
  obtain ⟨s₂, new, populated, hl, hid, hadded, hpopulate, -, hreg, htree, htip, hcands⟩ :=
    populateSnapshot_ok hpop
  obtain ⟨start', hcheck, -, -, hheight, hmark⟩ := populate_cases M codec P _ _ hpopulate
  obtain ⟨hstart', t, tip, hactive, -, -⟩ := checkStart_ok P _ hcheck
  obtain ⟨start, hstart, hheights⟩ := hget start' hstart'
  obtain ⟨witness, hrebase⟩ := hmarks start'.nHeight
  rw [hrebase, hheights, hr.core, hres.tree] at hmark
  rw [hres.tree] at hstart hclosetree
  have hsame₁ : SameCores s s₁.closeOldSnapshot := hres.sameCores.trans hclose
  have hsame : SameCores s s₂ := by
    refine hsame₁.trans ⟨?_, ?_, hid⟩ <;> rw [hl]
  rw [hsame₁.activeTip] at hactive
  have hold : ∀ id ∈ (if current.m_from_snapshot_blockhash.isSome then some current.id else none),
      id < s₂.nextId := by
    intro id hif
    rw [hsame.nextId]
    split at hif
    · exact Option.some.inj hif ▸ hs current (mem_of_find?_eq_some hcur)
    · cases hif
  rw [← hid] at hadded
  obtain ⟨prev, cs, hprev, hcsid, htree', hcores, hcurrent⟩ :=
    registerSnapshot_spec (hsame.freshIds hs) hold hadded hreg
  rw [currentChainstate, hl] at hprev
  have hpid : prev.id = current.id :=
    (congrArg Chainstate.id (Option.some.inj (hprev.symm.trans hcs₂))).trans (hid₂.trans hr.id)
  have hrole := hadded.role
  simp only [ChainstateCore.role, Prod.mk.injEq] at hrole
  obtain ⟨hbase, hassume, htarget, -⟩ := hrole
  have hindex : s₂.m_block_index = s'.m_block_index := (congrArg BlockTree.m_block_index htree').symm
  rw [hindex] at hcores hcurrent
  refine ⟨current, start, witness, _, _, hcur, hstart, hheights ▸ hheight, by rw [hactive]; rfl,
    fun hsome => ⟨?_, fun hnum => ?_⟩, ?_, hcores, hcurrent, ?_⟩
  · cases verify with
    | true =>
      rw [activationError, hsome] at haccepted
      cases haccepted
    | false =>
      obtain ⟨e, he, hfailed, -⟩ := activationError_eq_none_iff.mp haccepted
      obtain rfl := Option.some.inj (hstart.symm.trans he)
      exact hfailed
  · rw [if_pos hsome, ← hpid, (hsame.numbered hnum).dropped_replace _ hcsid]
    · exact hsame.others
    · rw [currentChainstate, hl]
      exact hprev
  · rw [htree', htree, hmark, hclosetree]
  · exact IndexState.repopulated_of_populate htip hbase htarget (by rw [hassume]; decide) hcands

/-- **the check across a replacement**: it passes afterwards exactly if the tree was replaceable -/
theorem replaced_check_iff {s s' : ChainstateManager G} {current : Chainstate G}
    {old_base r hashGenesisBlock : Uint256} {coins_file : Bytes} {metadata : SnapshotMetadata}
    {in_memory verify m_have_pruned : Bool} {expected_utxo_hash : Option Uint256} (hs : s.Numbered)
    (hcur : s.currentChainstate = some current)
    (hfrom : current.m_from_snapshot_blockhash = some old_base)
    (hcheck : (s.indexState m_have_pruned).CheckBlockIndex hashGenesisBlock)
    (h : activateSnapshot M codec P env s coins_file metadata in_memory verify expected_utxo_hash =
      .ok (.ok r, s')) :
    (s'.indexState m_have_pruned).snap_base = some metadata.m_base_blockhash ∧
    ((s'.indexState m_have_pruned).CheckBlockIndex hashGenesisBlock ↔
      (s.indexState m_have_pruned).Replaceable old_base metadata.m_base_blockhash
        (baseTxCount P (s.m_block_index.nHeight metadata.m_base_blockhash)) s.otherChainstates) := by
  obtain ⟨cs, start, witness, others, new, hcs, hstart, hheight, hactive, hsome, htree, hcores, hnow, hnew⟩ :=
    activateSnapshot_spec hs.fresh h m_have_pruned
  obtain rfl : cs = current := Option.some.inj (hcs.symm.trans hcur)
  rw [hfrom] at hsome htree
  obtain ⟨hfailed, hothers⟩ := hsome rfl
  rw [hothers hs] at hcores
  have hindex : s'.indexState m_have_pruned =
      (s.indexState m_have_pruned).rebased old_base metadata.m_base_blockhash
        (baseTxCount P start.nHeight) witness (s.otherChainstates ++ [new]) := by
    obtain ⟨cs', hcs', hcore⟩ := Option.map_eq_some_iff.mp hnow
    rw [indexState, htree, hcores, ChainstateManager.activeTip, hcs', Option.bind_some,
      Option.bind_some, hcore, hnew.tip, hnew.from_base]
    rfl
  obtain ⟨t, ht⟩ := Option.isSome_iff_exists.mp hactive
  have hall : (s.indexState m_have_pruned).AllOk hashGenesisBlock := by
    have ht' : (s.indexState m_have_pruned).activeTip = some t := ht
    rw [IndexState.CheckBlockIndex, ht'] at hcheck
    exact hcheck
  have hold : (s.indexState m_have_pruned).snap_base = some old_base := by
    show s.currentChainstate.bind _ = _
    rw [hcur, Option.bind_some, hfrom]
  have hbase := FMap.mem_dom_of_get hstart
  have hparent : ((s.indexState m_have_pruned).m_block_index.pprev
      metadata.m_base_blockhash).isSome = true := by
    cases hp : (s.indexState m_have_pruned).m_block_index.pprev metadata.m_base_blockhash with
    | some p => rfl
    | none =>
      have hlen := (hall.entry _ hbase).height
      have hheight' : (s.indexState m_have_pruned).m_block_index.nHeight
        metadata.m_base_blockhash = start.nHeight := nHeight_of_get hstart
      rw [(s.indexState m_have_pruned).m_block_index.forest.path_root hp,
        length_singleton] at hlen
      omega
  have hvalid : ((s.indexState m_have_pruned).index metadata.m_base_blockhash).nStatus.failedValid =
      false := by
    show (s.m_block_index.index metadata.m_base_blockhash).nStatus.failedValid = false
    rw [index_of_get hstart]
    exact hfailed
  have hiff := IndexState.rebased_allOk_iff hall hold hbase hindex hparent hvalid hnew
  rw [nHeight_of_get hstart]
  rw [hindex] at hiff ⊢
  exact ⟨rfl, hiff⟩

end

end

/-! ## a block connected on top of the old base -/

def sampleGrown (received : Bool) : ChainstateManager (Multiplicative ℤ) :=
  { sampleManager (some (sampleId 2)) with
    m_block_index := (headerLine 5 (by decide)).update fun h e =>
      if h = sampleId 2 then { e.toBlockIndexState with m_chain_tx_count := 3 }
      else if h = sampleId 3 ∧ received = true then
        ⟨1, 4, 2, ⟨BLOCK_VALID_SCRIPTS, true, true, false, true⟩⟩
      else e.toBlockIndexState
    m_best_header := some (sampleId 4)
    m_chainstates := [{ sampleCurrent (some (sampleId 2)) with
      tip := some (sampleId (if received then 3 else 2))
      setBlockIndexCandidates := [sampleId (if received then 3 else 2)] }] }

def sampleReplace (received : Bool) :
    Except Fault (Except String Uint256 × ChainstateManager (Multiplicative ℤ)) :=
  activateSnapshot sampleCountHash sampleCodec ⟨mainParams, []⟩ sampleActivationEnv
    (sampleGrown received) [] ⟨sampleId 4, 0⟩ false false (some (sampleId 1))

/-- **the block 3 keeps a count that no longer has a parent**: the check passes before the
replacement and fails after it -/
theorem connected_block_breaks_check :
    ((sampleGrown true).indexState false).CheckBlockIndex (sampleId 0) ∧
      ∃ s', sampleReplace true = .ok (.ok (sampleId 4), s') ∧
        (s'.indexState false).snap_base = some (sampleId 4) ∧
        ¬ (s'.indexState false).CheckBlockIndex (sampleId 0) :=
  ⟨by decide +kernel, by decide +kernel⟩

theorem sampleGrown_numbered (received : Bool) : (sampleGrown received).Numbered := by
  refine ⟨fun cs hcs => ?_, nodup_singleton 0⟩
  rw [mem_singleton.mp hcs]
  exact Nat.zero_lt_one

/-- without a block on top of the old base the check passes before and after -/
theorem replaced_check_iff_headers :
    ((sampleGrown false).indexState false).Replaceable (sampleId 2) (sampleId 4) 5 [] ∧
      ∃ s', sampleReplace false = .ok (.ok (sampleId 4), s') ∧
        (s'.indexState false).CheckBlockIndex (sampleId 0) := by
  obtain ⟨s', hrun, hpass⟩ : ∃ s', sampleReplace false = .ok (.ok (sampleId 4), s') ∧
      (s'.indexState false).CheckBlockIndex (sampleId 0) := by decide +kernel
  have hbefore : ((sampleGrown false).indexState false).CheckBlockIndex (sampleId 0) := by
    decide +kernel
  have hiff := (replaced_check_iff (sampleGrown_numbered false) rfl rfl hbefore hrun).2
  exact ⟨hiff.mp hpass, s', hrun, hpass⟩

end ChainstateManager

end ElektronNet
