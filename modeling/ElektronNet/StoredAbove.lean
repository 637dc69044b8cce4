import ElektronNet.SnapshotReplace

/-!
# Blocks stored above a base before it was activated

`PopulateAndValidateSnapshot` writes `m_chain_tx_count` of the base and of no other block, and
`ActivateSnapshot` then lets the new chainstate choose its candidates.  A block above the base that
had arrived before it is still in `m_blocks_unlinked`: its parent had no count when it was stored,
and nothing walks the queue when the base gets one.  It keeps the count 0, and a block with that
count is not offered to the candidates.

* `StoredAbove`   a block above the base with all the data between the two
* `Usable`        it has its count and, with enough work, is a candidate
* `Linked`        what it had to be before the activation

`stored_above_iff`: a successful activation makes all of them usable exactly if they were linked
already.
-/

namespace ElektronNet

/-! ## the index -/

namespace BlockMap

/-- `b` is above the base; it and all blocks between have their data and are not marked failed -/
structure StoredAbove (m : BlockMap) (base b : Uint256) : Prop where
  under : m.forest.Under base b
  stored : ∀ a ∈ m.forest.since (some base) b,
    (m.index a).nStatus.haveData = true ∧ (m.index a).nStatus.failedValid = false

theorem StoredAbove.not_failed {m : BlockMap} {base b : Uint256} (h : m.StoredAbove base b) :
    (m.index b).nStatus.failedValid = false :=
  (h.stored b List.mem_cons_self).2

theorem StoredAbove.known {m : BlockMap} {base b : Uint256} (h : m.StoredAbove base b) :
    b ∈ m.entries.dom := by
  have hdata := (h.stored b List.mem_cons_self).1
  cases hb : m.entries.get b with
  | none =>
    rw [index, hb] at hdata
    cases hdata
  | some e => exact FMap.mem_dom_of_get hb

section
variable {m : BlockMap} {base b : Uint256} (h : m.StoredAbove base b) (old_base : Option Uint256)
  (count : Nat) (witness : Uint256 → Bool)
include h

theorem StoredAbove.counted_iff :
    0 < ((m.rebase (old_base.getD base) base count witness).index b).m_chain_tx_count ↔
      (m.index b).m_chain_tx_count ≠ 0 ∧ old_base ≠ some b := by
  have hne : b ≠ base := fun heq => h.under.2 heq.symm
  rw [m.rebase_count _ base count witness h.known, if_neg hne, Nat.pos_iff_ne_zero]
  cases old_base with
  | none =>
    rw [Option.getD_none, if_neg hne]
    simp
  | some old =>
    rw [Option.getD_some]
    by_cases hold : b = old
    · rw [hold]
      simp
    · rw [if_neg hold]
      have hkept : some old ≠ some b := fun heq => hold (Option.some.inj heq).symm
      exact ⟨fun hcount => ⟨hcount, hkept⟩, And.left⟩

theorem StoredAbove.candidate_iff {I : IndexState} {c : ChainstateCore}
    (hI : I.m_block_index = m.rebase (old_base.getD base) base count witness)
    (hnew : I.Repopulated base c) (hcount : 0 < (I.m_block_index.index b).m_chain_tx_count) :
    b ∈ c.setBlockIndexCandidates ↔
      BLOCK_VALID_TRANSACTIONS ≤ (m.index b).nStatus.valid ∧ m.before b base = false := by
  have hcounted : (I.index b).haveNumChainTxs = true := by
    rw [BlockIndexState.haveNumChainTxs, bne_iff_ne]
    exact Nat.pos_iff_ne_zero.mp hcount
  obtain ⟨-, -, hvalid, -, -, hfailed⟩ := m.rebase_index (old_base.getD base) base count witness b
  rw [← hI] at hvalid hfailed
  rw [h.not_failed] at hfailed
  rw [hnew.candidates]
  constructor
  · rintro ⟨-, hbefore, rfl | ⟨-, hlevel, -⟩⟩
    · exact absurd rfl h.under.2
    · refine ⟨hvalid ▸ hlevel, ?_⟩
      rw [hI, rebase_before] at hbefore
      exact hbefore
  · rintro ⟨hlevel, hbefore⟩
    refine ⟨?_, ?_, .inr ⟨hfailed, ?_, .inl hcounted⟩⟩
    · rw [hI]
      exact h.known
    · rw [hI, rebase_before]
      exact hbefore
    · show _ ≤ (I.m_block_index.index b).nStatus.valid
      rw [hvalid]
      exact hlevel

end

end BlockMap

namespace ChainstateManager

section
variable {G : Type} [CommGroup G]

def currentBase (s : ChainstateManager G) : Option Uint256 :=
  s.currentChainstate.bind (·.m_from_snapshot_blockhash)

structure Usable (s : ChainstateManager G) (b : Uint256) : Prop where
  counted : 0 < (s.m_block_index.index b).m_chain_tx_count
  candidate : ∃ cs t, s.currentChainstate = some cs ∧ cs.tip = some t ∧
    (s.m_block_index.nChainWork t ≤ s.m_block_index.nChainWork b → b ∈ cs.setBlockIndexCandidates)

/-- `b` has its count already and does not lose it as the base of the chainstate that is replaced;
with the work of the new base, it has its transactions and does not sort before the base -/
structure Linked (s : ChainstateManager G) (base b : Uint256) : Prop where
  counted : (s.m_block_index.index b).m_chain_tx_count ≠ 0
  kept : s.currentBase ≠ some b
  sorted : s.m_block_index.nChainWork base ≤ s.m_block_index.nChainWork b →
    BLOCK_VALID_TRANSACTIONS ≤ (s.m_block_index.index b).nStatus.valid ∧
      s.m_block_index.before b base = false

section
variable {M : MuHash G} {codec : CoinCodec} {P : CChainParams} {env : ActivationEnv G}

/-- **the stored blocks above a base can be used after its activation exactly if they were linked
before it**: the activation links none of them -/
theorem stored_above_iff {s s' : ChainstateManager G} {r : Uint256} {coins_file : Bytes}
    {metadata : SnapshotMetadata} {in_memory verify : Bool} {expected_utxo_hash : Option Uint256}
    (hs : s.FreshIds)
    (h : activateSnapshot M codec P env s coins_file metadata in_memory verify expected_utxo_hash =
      .ok (.ok r, s')) :
    (∀ b, s.m_block_index.StoredAbove metadata.m_base_blockhash b → s'.Usable b) ↔
      ∀ b, s.m_block_index.StoredAbove metadata.m_base_blockhash b →
        s.Linked metadata.m_base_blockhash b := by
  apply forall₂_congr
  intro b hb
  obtain ⟨current, start, witness, others, new, hcur, -, -, -, -, htree, -, hnow, hnew⟩ :=
    activateSnapshot_spec hs h false
  obtain ⟨cs, hcs, rfl⟩ := Option.map_eq_some_iff.mp hnow
  generalize baseTxCount P start.nHeight = count at htree
  have hindex : s'.m_block_index = s.m_block_index.rebase
      (s.currentBase.getD metadata.m_base_blockhash) metadata.m_base_blockhash count witness := by
    rw [htree, currentBase, hcur]
    rfl
  have hkept := hb.counted_iff s.currentBase count witness
  rw [← hindex] at hkept
  have hwork : ∀ a, s'.m_block_index.nChainWork a = s.m_block_index.nChainWork a := by
    intro a
    rw [hindex, BlockMap.rebase_nChainWork]
  constructor
  · rintro ⟨hcounted, cs', t, hcs', ht, hmem⟩
    obtain rfl : cs = cs' := Option.some.inj (hcs.symm.trans hcs')
    obtain rfl : metadata.m_base_blockhash = t := Option.some.inj (hnew.tip.symm.trans ht)
    obtain ⟨hbefore, hbase⟩ := hkept.mp hcounted
    refine ⟨hbefore, hbase, fun hle => ?_⟩
    rw [← hwork, ← hwork] at hle
    exact (hb.candidate_iff _ count witness hindex hnew hcounted).mp (hmem hle)
  · rintro ⟨hbefore, hbase, hsorted⟩
    have hcounted := hkept.mpr ⟨hbefore, hbase⟩
    refine ⟨hcounted, cs, _, hcs, hnew.tip, fun hle => ?_⟩
    rw [hwork, hwork] at hle
    exact (hb.candidate_iff _ count witness hindex hnew hcounted).mpr (hsorted hle)

end

end

/-! ## a block that arrived before its parent -/

def sampleHeaders : BlockMap :=
  let m := BlockMap.empty.addToBlockIndex (sampleId 1) (sampleId 0) 1 1
  let m := m.addToBlockIndex (sampleId 2) (sampleId 1) 1 2
  let m := m.addToBlockIndex (sampleId 3) (sampleId 2) 1 3
  m.modify (sampleId 1) fun _ => ⟨1, 1, 0, ⟨BLOCK_VALID_SCRIPTS, true, true, false, true⟩⟩

def sampleReceived (arrivals : List Nat) : ChainstateManager (Multiplicative ℤ) :=
  let selection : ChainSelection :=
    { sampleFresh.toBlockTree with
      m_block_index := sampleHeaders
      chainstate := { (sampleCurrent none).toChainstateCore with tip := some (sampleId 1) } }
  { sampleFresh with
    toBlockTree := (arrivals.foldl (fun s n => s.receivedBlockTransactions (sampleId n) 1 false)
      selection).toBlockTree }

theorem sampleReceived_fresh (arrivals : List Nat) : (sampleReceived arrivals).FreshIds := by
  show ∀ cs ∈ sampleFresh.m_chainstates, cs.id < sampleFresh.nextId
  decide

/-- **block 3 arrived, then a snapshot of block 2 is activated**: the block has no count and is no
candidate -/
theorem stored_above_unlinked :
    (sampleReceived [3]).FreshIds ∧
    (sampleReceived [3]).m_block_index.StoredAbove (sampleId 2) (sampleId 3) ∧
    ∃ s', activateSnapshot sampleCountHash sampleCodec ⟨mainParams, []⟩ sampleActivationEnv
        (sampleReceived [3]) [] ⟨sampleId 2, 0⟩ false false (some (sampleId 1)) =
      .ok (.ok (sampleId 2), s') ∧
    (s'.m_block_index.index (sampleId 3)).m_chain_tx_count = 0 ∧
    s'.currentChainstate.map (·.setBlockIndexCandidates) = some [sampleId 2] ∧
    ¬ s'.Usable (sampleId 3) := by
  refine ⟨sampleReceived_fresh [3], ⟨by decide, by decide⟩, _, rfl, rfl, rfl, fun h => ?_⟩
  exact absurd h.counted (by decide)

/-- in the order of the chain, both blocks have their count -/
theorem stored_above_iff_linked :
    ∃ s', activateSnapshot sampleCountHash sampleCodec ⟨mainParams, []⟩ sampleActivationEnv
        (sampleReceived [2, 3]) [] ⟨sampleId 2, 0⟩ false false (some (sampleId 1)) =
      .ok (.ok (sampleId 2), s') ∧
    (sampleReceived [2, 3]).m_block_index.StoredAbove (sampleId 2) (sampleId 3) ∧
    ∀ b, (sampleReceived [2, 3]).m_block_index.StoredAbove (sampleId 2) b → s'.Usable b := by
  refine Exists.imp (fun s' hs' => ⟨hs', ⟨by decide, by decide⟩, ?_⟩) ⟨_, rfl⟩
  rw [stored_above_iff (sampleReceived_fresh [2, 3]) hs']
  intro b hb
  have honly : ∀ b ∈ (sampleReceived [2, 3]).m_block_index.entries.dom,
      (sampleReceived [2, 3]).m_block_index.forest.Under (sampleId 2) b → b = sampleId 3 := by
    decide
  obtain rfl := honly b hb.known hb.under
  exact ⟨by decide, by decide, by decide⟩

end ChainstateManager

end ElektronNet
