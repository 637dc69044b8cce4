import ElektronNet.Lib.Since
import ElektronNet.ChainstateManager

/-!
# The assertions of `CheckBlockIndex`

`ChainstateManager::CheckBlockIndex` of `validation.cpp`.  The source walks the tree depth first
and keeps the oldest block with each property on the way from genesis; behind the base of the
snapshot it starts afresh for most of them.  Here these pointers are read off the path of a block
(`Forest.oldest`).

* `EntryOk`        what is asserted of an entry and its place in the tree
* `CountOk`        what ties `m_chain_tx_count` to the path
* `PathOk`         what ties the entry to the blocks before it, back to genesis or the base
* `ChainstateOk`   what is asserted of the candidates of one chainstate
* `CheckBlockIndex`   everything, for every entry

Left out is the assertion on the skip pointers, which are not modelled.
-/

namespace ElektronNet

open Forest

def BLOCK_VALID_CHAIN : Nat := 4

namespace BlockMap

/-- `*pindex`; outside the index, the state of a bare header -/
def index (m : BlockMap) (pindex : Uint256) : BlockIndexState :=
  (m.entries.get pindex).elim BlockIndexState.header (·.toBlockIndexState)

theorem index_of_get {m : BlockMap} {pindex : Uint256} {e : CBlockIndex}
    (h : m.entries.get pindex = some e) : m.index pindex = e.toBlockIndexState := by
  rw [index, h]
  rfl

theorem mem_dom_of_path {m : BlockMap} {a b : Uint256} (hb : b ∈ m.entries.dom)
    (ha : a ∈ m.forest.path b) : a ∈ m.entries.dom := by
  induction b using m.forest.path_induction with
  | root b hp =>
    rw [m.forest.path_root hp, List.mem_singleton] at ha
    rwa [ha]
  | child b p hp ih =>
    rcases (m.forest.mem_path_iff a b).mp ha with rfl | ⟨q, hq, hmem⟩
    · exact hb
    · obtain rfl := Option.some.inj (hp.symm.trans hq)
      refine ih ?_ hmem
      obtain ⟨e, he, hep⟩ := pprev_eq_some.mp hp
      obtain ⟨e', he', -⟩ := m.height_pprev b e p he hep
      exact FMap.mem_dom_of_get he'

end BlockMap

/-- what the check reads -/
structure IndexState extends BlockTree where
  m_have_pruned : Bool
  m_chainstates : List ChainstateCore
  /-- `CurrentChainstate().SnapshotBase()` -/
  snap_base : Option Uint256
  activeTip : Option Uint256

namespace IndexState

section
variable (I : IndexState)

def index (pindex : Uint256) : BlockIndexState := I.m_block_index.index pindex

def reaches (level : Nat) (pindex : Uint256) : Bool :=
  (I.m_block_index.pprev pindex).isNone || decide (level ≤ (I.index pindex).nStatus.valid)

/-! ## the pointers of the search -/

def pindexFirstInvalid (pindex : Uint256) : Option Uint256 :=
  I.m_block_index.forest.oldest (fun a => !(I.index a).nStatus.failedValid) none pindex

def pindexFirstMissing (pindex : Uint256) : Option Uint256 :=
  I.m_block_index.forest.oldest (fun a => (I.index a).nStatus.haveData) I.snap_base pindex

def pindexFirstNeverProcessed (pindex : Uint256) : Option Uint256 :=
  I.m_block_index.forest.oldest (fun a => decide ((I.index a).nTx ≠ 0)) I.snap_base pindex

def pindexFirstNotTreeValid (pindex : Uint256) : Option Uint256 :=
  I.m_block_index.forest.oldest (I.reaches BLOCK_VALID_TREE) none pindex

/-- `pindexFirstNotTransactionsValid` and the like -/
def pindexFirstNotValid (level : Nat) (pindex : Uint256) : Option Uint256 :=
  I.m_block_index.forest.oldest (I.reaches level) I.snap_base pindex

def foundInUnlinked (pindex : Uint256) : Bool :=
  (I.m_block_index.pprev pindex).any fun p => decide ((p, pindex) ∈ I.m_blocks_unlinked)

/-- the target of a chainstate, if it has one, descends from the block -/
def Targets (c : ChainstateCore) (pindex : Uint256) : Prop :=
  ∀ target ∈ c.m_target_blockhash,
    I.m_block_index.getAncestor target (I.m_block_index.nHeight pindex) = some pindex

instance (c : ChainstateCore) (pindex : Uint256) : Decidable (I.Targets c pindex) :=
  inferInstanceAs (Decidable (∀ target ∈ c.m_target_blockhash, _))

/-! ## the assertions -/

@[mk_iff]
structure EntryOk (hashGenesisBlock pindex : Uint256) : Prop where
  genesis : I.m_block_index.pprev pindex = none → pindex = hashGenesisBlock
  data : I.m_have_pruned = false →
    ((I.index pindex).nStatus.haveData = false ↔ (I.index pindex).nTx = 0)
  data_pruned : I.m_have_pruned = true → (I.index pindex).nStatus.haveData = true →
    0 < (I.index pindex).nTx
  undo : (I.index pindex).nStatus.haveUndo = true → (I.index pindex).nStatus.haveData = true
  transactions : BLOCK_VALID_TRANSACTIONS ≤ (I.index pindex).nStatus.valid ↔
    0 < (I.index pindex).nTx
  height : I.m_block_index.nHeight pindex + 1 = (I.m_block_index.forest.path pindex).length
  work : ∀ p ∈ I.m_block_index.pprev pindex,
    I.m_block_index.nChainWork p ≤ I.m_block_index.nChainWork pindex
  tree : I.pindexFirstNotTreeValid pindex = none
  invalid : I.pindexFirstInvalid pindex = none ↔ (I.index pindex).nStatus.failedValid = false
  best : (I.index pindex).nStatus.failedValid = true ∨ ∀ best ∈ I.m_best_header,
    I.m_block_index.nChainWork pindex ≤ I.m_block_index.nChainWork best
  no_data : (I.index pindex).nStatus.haveData = false → I.foundInUnlinked pindex = false

/-- the count of a block and of its parent; only the base may have one of its own -/
def SumOk (pindex : Uint256) : Prop :=
  match I.m_block_index.pprev pindex with
  | none => (I.index pindex).m_chain_tx_count = (I.index pindex).nTx
  | some p =>
    if 0 < (I.index p).m_chain_tx_count ∧ 0 < (I.index pindex).nTx then
      (I.index pindex).m_chain_tx_count =
        (I.index pindex).nTx + (I.index p).m_chain_tx_count
    else (I.index pindex).m_chain_tx_count ≠ 0 ↔ I.snap_base = some pindex

@[mk_iff]
structure CountOk (pindex : Uint256) : Prop where
  sequence : (I.index pindex).haveNumChainTxs = false →
    (I.index pindex).nSequenceId ≤ SEQ_ID_INIT_FROM_DISK
  processed : (I.pindexFirstNeverProcessed pindex = none ∨ I.snap_base = some pindex) ↔
    (I.index pindex).haveNumChainTxs = true
  transactions : (I.pindexFirstNotValid BLOCK_VALID_TRANSACTIONS pindex = none ∨
    I.snap_base = some pindex) ↔ (I.index pindex).haveNumChainTxs = true
  sum : I.SumOk pindex

/-- the data of the block is there, the data of all its parents was, and of some it is gone -/
def Stranded (pindex : Uint256) : Prop :=
  (I.m_block_index.pprev pindex).isSome = true ∧ (I.index pindex).nStatus.haveData = true ∧
    I.pindexFirstNeverProcessed pindex = none ∧ I.pindexFirstMissing pindex ≠ none

instance (pindex : Uint256) : Decidable (I.Stranded pindex) :=
  inferInstanceAs (Decidable (_ ∧ _ ∧ _ ∧ _))

@[mk_iff]
structure PathOk (pindex : Uint256) : Prop where
  missing : I.m_have_pruned = false →
    I.pindexFirstMissing pindex = I.pindexFirstNeverProcessed pindex
  assumed : ∀ base ∈ I.snap_base,
    I.m_block_index.getAncestor base (I.m_block_index.nHeight pindex) = some pindex →
      BLOCK_VALID_TREE ≤ (I.index pindex).nStatus.valid
  valid : ∀ level ∈ [BLOCK_VALID_CHAIN, BLOCK_VALID_SCRIPTS],
    level ≤ (I.index pindex).nStatus.valid → I.pindexFirstNotValid level pindex = none
  waiting : (I.m_block_index.pprev pindex).isSome = true →
    (I.index pindex).nStatus.haveData = true → I.pindexFirstNeverProcessed pindex ≠ none →
    I.pindexFirstInvalid pindex = none → I.foundInUnlinked pindex = true
  complete : I.pindexFirstMissing pindex = none → I.foundInUnlinked pindex = false
  pruned : I.Stranded pindex → I.m_have_pruned = true

/-- `pindex` may become the tip of a chainstate with the tip `t`, for all that is known here -/
def Contends (t pindex : Uint256) : Prop :=
  I.m_block_index.before pindex t = false ∧
    (I.pindexFirstNeverProcessed pindex = none ∨ I.snap_base = some pindex)

instance (t pindex : Uint256) : Decidable (I.Contends t pindex) :=
  inferInstanceAs (Decidable (_ ∧ _))

@[mk_iff]
structure ChainstateOk (c : ChainstateCore) (pindex : Uint256) : Prop where
  genesis : I.m_block_index.pprev pindex = none →
    ∀ t ∈ c.tip, ∀ g ∈ I.m_block_index.getAncestor t 0, g = pindex
  candidate : ∀ t ∈ c.tip, I.Contends t pindex → I.pindexFirstInvalid pindex = none →
    (I.pindexFirstMissing pindex = none ∨ pindex = t ∨ c.m_from_snapshot_blockhash = some pindex) →
    I.Targets c pindex → pindex ∈ c.setBlockIndexCandidates
  no_candidate : ∀ t ∈ c.tip, ¬ I.Contends t pindex → pindex ∉ c.setBlockIndexCandidates
  waiting : I.Stranded pindex → ∀ t ∈ c.tip, I.m_block_index.before pindex t = false →
    pindex ∉ c.setBlockIndexCandidates → I.pindexFirstInvalid pindex = none →
    I.Targets c pindex → I.foundInUnlinked pindex = true

/-- the tree is one: all entries off the best chain of headers hang on it -/
@[mk_iff]
structure TreeOk : Prop where
  base : ∀ base ∈ I.snap_base, base ∈ I.m_block_index.entries.dom
  best_header : I.m_best_header.isSome = true
  best_header_valid : ∀ best ∈ I.m_best_header, (I.index best).nStatus.failedValid = false
  parents : ∀ best ∈ I.m_best_header, ∀ b ∈ I.m_block_index.entries.dom,
    b ∉ I.m_block_index.forest.path best → (I.m_block_index.pprev b).isSome = true
  size : ∀ best ∈ I.m_best_header,
    (I.m_block_index.entries.dom.filter fun b => b ∉ I.m_block_index.forest.path best).card +
      I.m_block_index.nHeight best + 1 = I.m_block_index.entries.dom.card
  genesis : ∀ best ∈ I.m_best_header, (I.m_block_index.getAncestor best 0).isSome = true
  /-- `nNodes`: the search starts at the genesis block of the best chain of headers -/
  nodes : ∀ best ∈ I.m_best_header, ∀ g ∈ I.m_block_index.getAncestor best 0,
    (I.m_block_index.entries.dom.filter fun b => g ∈ I.m_block_index.forest.path b).card =
      I.m_block_index.entries.dom.card

@[mk_iff]
structure AllOk (hashGenesisBlock : Uint256) : Prop where
  tree : I.TreeOk
  entry : ∀ b ∈ I.m_block_index.entries.dom, I.EntryOk hashGenesisBlock b
  count : ∀ b ∈ I.m_block_index.entries.dom, I.CountOk b
  path : ∀ b ∈ I.m_block_index.entries.dom, I.PathOk b
  chainstates : ∀ c ∈ I.m_chainstates, ∀ b ∈ I.m_block_index.entries.dom, I.ChainstateOk c b

def CheckBlockIndex (hashGenesisBlock : Uint256) : Prop :=
  match I.activeTip with
  | none => I.m_block_index.entries.dom.card ≤ 1
  | some _ => I.AllOk hashGenesisBlock

end

/-! ## the check can be run -/

section
variable (I : IndexState) (hashGenesisBlock pindex : Uint256) (c : ChainstateCore)

instance : Decidable (I.EntryOk hashGenesisBlock pindex) := decidable_of_iff' _ (entryOk_iff ..)

instance : Decidable (I.SumOk pindex) := by
  unfold SumOk
  split <;> infer_instance

instance : Decidable (I.CountOk pindex) := decidable_of_iff' _ (countOk_iff ..)

instance : Decidable (I.PathOk pindex) := decidable_of_iff' _ (pathOk_iff ..)

instance : Decidable (I.ChainstateOk c pindex) :=
  @decidable_of_iff' _ _ (chainstateOk_iff ..) (@instDecidableAnd _ _ inferInstance
    (@instDecidableAnd _ _ inferInstance (@instDecidableAnd _ _ inferInstance inferInstance)))

instance : Decidable I.TreeOk := decidable_of_iff' _ (treeOk_iff ..)

instance : Decidable (I.AllOk hashGenesisBlock) := decidable_of_iff' _ (allOk_iff ..)

instance : Decidable (I.CheckBlockIndex hashGenesisBlock) :=
  match h : I.activeTip with
  | none => decidable_of_iff (I.m_block_index.entries.dom.card ≤ 1) (by rw [CheckBlockIndex, h])
  | some _ => decidable_of_iff (I.AllOk hashGenesisBlock) (by rw [CheckBlockIndex, h])

end

/-! ## what the assertions say together -/

section
variable {I : IndexState} {hashGenesisBlock b : Uint256}

theorem neverProcessed_eq_none : I.pindexFirstNeverProcessed b = none ↔
    ∀ a ∈ I.m_block_index.forest.since I.snap_base b, (I.index a).nTx ≠ 0 := by
  rw [pindexFirstNeverProcessed, oldest_eq_none]
  simp only [decide_eq_true_eq]

theorem missing_eq_none : I.pindexFirstMissing b = none ↔
    ∀ a ∈ I.m_block_index.forest.since I.snap_base b, (I.index a).nStatus.haveData = true := by
  rw [pindexFirstMissing, oldest_eq_none]

theorem notValid_eq_none {level : Nat} : I.pindexFirstNotValid level b = none ↔
    ∀ a ∈ I.m_block_index.forest.since I.snap_base b, I.reaches level a = true := by
  rw [pindexFirstNotValid, oldest_eq_none]

theorem reaches_of_parent {level : Nat} {p : Uint256} (h : I.m_block_index.pprev b = some p) :
    I.reaches level b = true ↔ level ≤ (I.index b).nStatus.valid := by
  rw [reaches, h, Option.isNone_some, Bool.false_or, decide_eq_true_eq]

theorem reaches_root {level : Nat} (h : I.m_block_index.pprev b = none) : I.reaches level b = true := by
  rw [reaches, h, Option.isNone_none, Bool.true_or]

theorem haveNumChainTxs_iff {e : BlockIndexState} : e.haveNumChainTxs = true ↔ e.m_chain_tx_count ≠ 0 := by
  rw [BlockIndexState.haveNumChainTxs, bne_iff_ne]

theorem SumOk.sum {p : Uint256} (h : I.SumOk b) (hp : I.m_block_index.pprev b = some p)
    (hcount : 0 < (I.index p).m_chain_tx_count) (htx : 0 < (I.index b).nTx) :
    (I.index b).m_chain_tx_count = (I.index b).nTx + (I.index p).m_chain_tx_count := by
  rw [SumOk, hp] at h
  simp only [if_pos (And.intro hcount htx)] at h
  exact h

theorem SumOk.only_base {p : Uint256} (h : I.SumOk b) (hp : I.m_block_index.pprev b = some p)
    (hnot : ¬ (0 < (I.index p).m_chain_tx_count ∧ 0 < (I.index b).nTx)) :
    (I.index b).m_chain_tx_count ≠ 0 ↔ I.snap_base = some b := by
  rw [SumOk, hp] at h
  simp only [if_neg hnot] at h
  exact h

theorem SumOk.of_parent {p : Uint256} (hp : I.m_block_index.pprev b = some p)
    (hsum : 0 < (I.index p).m_chain_tx_count → 0 < (I.index b).nTx →
      (I.index b).m_chain_tx_count = (I.index b).nTx + (I.index p).m_chain_tx_count)
    (hbase : ¬ (0 < (I.index p).m_chain_tx_count ∧ 0 < (I.index b).nTx) →
      ((I.index b).m_chain_tx_count ≠ 0 ↔ I.snap_base = some b)) : I.SumOk b := by
  rw [SumOk, hp]
  dsimp only
  split
  · rename_i h
    exact hsum h.1 h.2
  · rename_i h
    exact hbase h

namespace AllOk

section
variable (h : I.AllOk hashGenesisBlock) (hb : b ∈ I.m_block_index.entries.dom)
include h hb

theorem root_processed (hroot : I.m_block_index.pprev b = none) : (I.index b).nTx ≠ 0 := by
  have hcount := h.count b hb
  have hsum := hcount.sum
  rw [SumOk, hroot] at hsum
  have hvalid : I.pindexFirstNotValid BLOCK_VALID_TRANSACTIONS b = none := by
    rw [notValid_eq_none]
    intro a ha
    have hmem := mem_path_of_since ha
    rw [I.m_block_index.forest.path_root hroot, List.mem_singleton] at hmem
    rw [hmem]
    exact reaches_root hroot
  rw [← hsum]
  exact haveNumChainTxs_iff.mp (hcount.transactions.mp (.inl hvalid))

theorem reaches_transactions_iff :
    I.reaches BLOCK_VALID_TRANSACTIONS b = true ↔ (I.index b).nTx ≠ 0 := by
  cases hp : I.m_block_index.pprev b with
  | none => exact iff_of_true (reaches_root hp) (h.root_processed hb hp)
  | some p => rw [reaches_of_parent hp, (h.entry b hb).transactions, Nat.pos_iff_ne_zero]

theorem oldest_transactions (mark : Option Uint256) :
    I.m_block_index.forest.oldest (I.reaches BLOCK_VALID_TRANSACTIONS) mark b =
      I.m_block_index.forest.oldest (fun a => decide ((I.index a).nTx ≠ 0)) mark b := by
  apply oldest_congr
  intro a ha
  rw [Bool.eq_iff_iff, decide_eq_true_eq]
  exact h.reaches_transactions_iff (BlockMap.mem_dom_of_path hb ha)

theorem oldest_missing (hpruned : I.m_have_pruned = false) (mark : Option Uint256) :
    I.m_block_index.forest.oldest (fun a => (I.index a).nStatus.haveData) mark b =
      I.m_block_index.forest.oldest (fun a => decide ((I.index a).nTx ≠ 0)) mark b := by
  apply oldest_congr
  intro a ha
  have hdata := (h.entry a (BlockMap.mem_dom_of_path hb ha)).data hpruned
  rw [Bool.eq_iff_iff, decide_eq_true_eq, ne_eq, ← hdata, Bool.not_eq_false]

theorem valid_lt_of_unprocessed (hzero : (I.index b).nTx = 0) :
    (I.index b).nStatus.valid < BLOCK_VALID_TRANSACTIONS := by
  have htx := (h.entry b hb).transactions
  rw [hzero] at htx
  exact Nat.lt_of_not_le fun hle => Nat.lt_irrefl 0 (htx.mp hle)

theorem count_ne_zero_iff :
    (I.index b).m_chain_tx_count ≠ 0 ↔
      (∀ a ∈ I.m_block_index.forest.since I.snap_base b, (I.index a).nTx ≠ 0) ∨
        I.snap_base = some b := by
  rw [← haveNumChainTxs_iff, ← (h.count b hb).processed, neverProcessed_eq_none]

end

end AllOk

end

end IndexState

namespace ChainstateManager

section
variable {G : Type} [CommGroup G]

def indexState (s : ChainstateManager G) (m_have_pruned : Bool) : IndexState where
  toBlockTree := s.toBlockTree
  m_have_pruned := m_have_pruned
  m_chainstates := s.m_chainstates.map (·.toChainstateCore)
  snap_base := s.currentChainstate.bind (·.m_from_snapshot_blockhash)
  activeTip := s.activeTip

end

end ChainstateManager

end ElektronNet
