import ElektronNet.ChainstateManager

/-!
# Failed activations

What an `ActivateSnapshot` that returns an error leaves behind.

* `Atomic`                       the current chainstate, its coins and all counts are as before
* `activateSnapshot_atomic_iff`  a failed call with `verify_assumeutxo_hash = false` is atomic
                                 exactly when it is refused under the first lock, or it replaces
                                 no snapshot and does not fail after the base was marked
* `replacement_not_atomic`       a replacement that fails for lack of work closes the old views

A replacement closes the views of the old chainstate and clears the count of its base before the
new snapshot is read; `cleanup_bad_snapshot` restores neither.
-/

set_option linter.unusedSectionVars false

namespace ElektronNet

namespace ChainstateManager

section
variable {G : Type} [CommGroup G]

/-- a chainstate with its views open and a database that holds the set of its tip -/
structure Settled (cs : Chainstate G) (c : CoinsState G) : Prop where
  views : cs.m_coins_views = some c
  ok : c.coinsTip.Ok
  utxos : c.coinsTip.utxos = c.coinsDB.coins
  best : c.coinsTip.getBestBlock = c.coinsDB.bestBlock
  tip : cs.tip = some c.coinsDB.bestBlock

structure Atomic (s s' : ChainstateManager G) (cs : Chainstate G) (c : CoinsState G) : Prop where
  current : ∃ cs' c', s'.currentChainstate = some cs' ∧ cs'.id = cs.id ∧
    cs'.m_coins_views = some c' ∧ c'.coinsDB.coins = c.coinsDB.coins ∧
    c'.coinsDB.bestBlock = c.coinsDB.bestBlock
  counts : ∀ h, s'.m_block_index.chainTxCount h = s.m_block_index.chainTxCount h

/-- the base passes the checks under the first lock -/
def Activatable (s : ChainstateManager G) (cs : Chainstate G) (base_blockhash : Uint256) : Prop :=
  ∃ start, s.m_block_index.entries.get base_blockhash = some start ∧
    start.nStatus.failedValid = false ∧ s.bestHeaderContains base_blockhash start.nHeight = true ∧
    mempoolNotEmpty cs = false

variable {s s' : ChainstateManager G} {cs : Chainstate G} {env : ActivationEnv G}
  {r : Except String Uint256}

variable {base_blockhash : Uint256} {coins_file : Bytes} {metadata : SnapshotMetadata}
  {expected_utxo_hash : Option Uint256} {reason : String} {old : Option Nat}

theorem activationError_eq_none_iff {P : CChainParams} :
    s.activationError P cs base_blockhash false = none ↔ s.Activatable cs base_blockhash := by
  rw [activationError, Activatable, BlockMap.lookupBlockIndex]
  cases s.m_block_index.entries.get base_blockhash with
  | none => simp
  | some start =>
    cases hf : start.nStatus.failedValid <;>
      cases hb : s.bestHeaderContains base_blockhash start.nHeight <;>
      cases hm : mempoolNotEmpty cs <;> simp [hf, hb]

/-! ## the steps of a call -/

theorem cleanupBadSnapshot_spec (h : s.cleanupBadSnapshot env reason = .ok (r, s')) :
    ∃ s₁, s.maybeRebalanceCaches env.rebalance = .ok s₁ ∧
      s'.m_chainstates = s₁.m_chainstates ∧ s'.m_block_index = s₁.m_block_index := by
  obtain ⟨s₁, h₁, h₂⟩ := Outcome.bind_eq_ok.mp h
  cases h₂
  exact ⟨s₁, h₁, rfl, rfl⟩

theorem cleanup_current {s₁ : ChainstateManager G} {c : CoinsState G}
    (hcur : s.currentChainstate = some cs) (hc : Settled cs c) (hres : Resized s s₁) {m : BlockMap}
    {dir : Option (SnapshotDir G)}
    (h : ({ s₁ with m_block_index := m, snapshotDir := dir } : ChainstateManager G).cleanupBadSnapshot
      env reason = .ok (r, s')) :
    (∃ cs' c', s'.currentChainstate = some cs' ∧ cs'.id = cs.id ∧ cs'.m_coins_views = some c' ∧
      c'.coinsDB.coins = c.coinsDB.coins ∧ c'.coinsDB.bestBlock = c.coinsDB.bestBlock) ∧
    s'.m_block_index = m := by
  obtain ⟨s₂, hreb, hlist, hindex⟩ := cleanupBadSnapshot_spec h
  have hres₂ := maybeRebalanceCaches_spec hreb
  obtain ⟨cs₁, hcs₁, hr₁⟩ := hres.current hcur
  obtain ⟨cs₂, hcs₂, hr₂⟩ := hres₂.current hcs₁
  have hr := hr₁.trans hr₂
  obtain ⟨c', hc', hf⟩ := hr.views c hc.views hc.ok
  refine ⟨⟨cs₂, c', ?_, hr.id, hc', ?_, ?_⟩, ?_⟩
  · rw [currentChainstate, hlist]
    exact hcs₂
  · rcases hf.database with ⟨hdb, -⟩ | ⟨hcoins, -⟩
    · rw [hdb]
    · rw [hcoins, hc.utxos]
  · rcases hf.database with ⟨hdb, -⟩ | ⟨-, hbest, -⟩
    · rw [hdb]
    · rw [hbest, hc.best]
  · rw [hindex]
    exact congrArg BlockTree.m_block_index hres₂.tree

theorem registerSnapshot_ok
    (h : s.registerSnapshot env cs base_blockhash old = .ok (r, s')) : r = .ok base_blockhash := by
  obtain ⟨s₁, -, h₂⟩ := Outcome.bind_eq_ok.mp h
  obtain ⟨s₃, -, h₄⟩ := Outcome.bind_eq_ok.mp h₂
  cases h₄
  rfl

theorem update_before {m : BlockMap} {f : Uint256 → CBlockIndex → BlockIndexState}
    (hf : ∀ h e, (f h e).nSequenceId = e.nSequenceId) (a b : Uint256) :
    (m.update f).before a b = m.before a b := by
  rw [BlockMap.before, BlockMap.before, BlockMap.update_get, BlockMap.update_get]
  cases m.entries.get a with
  | none => rfl
  | some ea =>
    cases m.entries.get b with
    | none => rfl
    | some eb =>
      show CBlockIndexWorkComparator _ _ = CBlockIndexWorkComparator _ _
      simp only [CBlockIndexWorkComparator, hf]

theorem markBase_before (P : CChainParams) (env : LoadEnv) (m : BlockMap) (base : Uint256)
    (base_height : Nat) (a b : Uint256) :
    (markBase P env m base base_height).before a b = m.before a b := by
  rw [markBase, BlockMap.modify, update_before, fakeWitness, update_before]
  · intro h e
    split <;> rfl
  · intro h e
    split <;> rfl

section
variable (M : MuHash G) (codec : CoinCodec) (P : CChainParams) (env : ActivationEnv G)

/-- the new snapshot passes the checks of `PopulateAndValidateSnapshot`, on the database that
`InitCoinsDB` opens when nothing is replaced -/
def Loads (s : ChainstateManager G) (coins_file : Bytes) (metadata : SnapshotMetadata)
    (expected_utxo_hash : Option Uint256) : Prop :=
  SnapshotLoads M codec P env.load s.m_block_index s.activeTip
    (openViews (s.openedDir false false)).coinsTip coins_file metadata false expected_utxo_hash

/-- the base has the count already that an accepted snapshot gives it -/
def BaseMarked (s : ChainstateManager G) (base_blockhash : Uint256) : Prop :=
  s.m_block_index.chainTxCount base_blockhash =
    some (baseTxCount P (s.m_block_index.nHeight base_blockhash))

variable {M codec P env}

variable {s s' : ChainstateManager G} {verify in_memory : Bool} {cs : Chainstate G}
  {reason : String}

theorem checkStart_before {start : CBlockIndex}
    (h : checkStart P s.m_block_index s.activeTip base_blockhash verify = .ok start) :
    s.activeTip.any (fun t => s.m_block_index.before t base_blockhash) = true := by
  obtain ⟨hstart, t, tip, htip, ht, hwork⟩ := checkStart_ok P s.m_block_index h
  rw [htip, Option.any_some, BlockMap.before, ht, hstart]
  exact hwork

theorem finishActivation_error {dir : SnapshotDir G}
    (hwork : s.activeTip.any (fun t => s.m_block_index.before t base_blockhash) = true)
    (h : finishActivation env s cs dir base_blockhash in_memory old = .ok (.error reason, s')) :
    env.writeBaseBlockhash = false ∧
      s.cleanupBadSnapshot env "could not write base blockhash" = .ok (.error reason, s') := by
  unfold finishActivation at h
  rw [hwork] at h
  simp only [Bool.not_true, Bool.false_eq_true, if_false] at h
  split at h
  · rename_i hwrite
    simp only [Bool.and_eq_true, Bool.not_eq_true'] at hwrite
    exact ⟨hwrite.2, h⟩
  · cases registerSnapshot_ok h

/-- **where an error comes from**: the snapshot is not accepted, or the file with its base cannot
be written -/
theorem populateSnapshot_error {current : Chainstate G}
    (h : populateSnapshot M codec P env s current coins_file metadata in_memory verify
      expected_utxo_hash = .ok (.error reason, s')) :
    let loads := SnapshotLoads M codec P env.load s.m_block_index s.activeTip
      (openViews (s.openedDir in_memory current.m_from_snapshot_blockhash.isSome)).coinsTip
      coins_file metadata verify expected_utxo_hash
    ∃ m dir reason', ({ s with m_block_index := m, snapshotDir := dir } :
        ChainstateManager G).cleanupBadSnapshot env reason' = .ok (.error reason, s') ∧
      ((¬ loads ∧ m = s.m_block_index) ∨
        (loads ∧ env.writeBaseBlockhash = false ∧ ∃ start,
          s.m_block_index.entries.get metadata.m_base_blockhash = some start ∧
          m = markBase P env.load s.m_block_index metadata.m_base_blockhash start.nHeight)) := by
  intro loads
  unfold populateSnapshot at h
  simp only at h
  split at h
  · cases h
  · rename_i why hpop
    exact ⟨_, _, _, h, .inl ⟨populate_error M codec P env.load s.m_block_index hpop, rfl⟩⟩
  · rename_i populated hpop
    obtain ⟨hloads, start, hstart, hmark⟩ := populate_ok M codec P env.load s.m_block_index hpop
    -- the second comparison of the work repeats the first
    have hwork : s.activeTip.any
        (fun t => populated.m_block_index.before t metadata.m_base_blockhash) = true := by
      rw [hmark]
      simp only [markBase_before]
      exact checkStart_before hstart
    obtain ⟨hwrite, hclean⟩ := finishActivation_error hwork h
    exact ⟨_, _, _, hclean, .inr ⟨hloads, hwrite, start,
      (checkStart_ok P s.m_block_index hstart).1, hmark⟩⟩

/-- after a replacement has begun, a failure leaves the current chainstate without its views -/
theorem replacing_closed {old_base : Uint256} {current : Chainstate G}
    (hcur : s.currentChainstate = some cs) (hfrom : cs.m_from_snapshot_blockhash = some old_base)
    (h : populateSnapshot M codec P env s.closeOldSnapshot current coins_file metadata in_memory
      verify expected_utxo_hash = .ok (.error reason, s')) :
    ∃ cs', s'.currentChainstate = some cs' ∧ cs'.m_coins_views = none := by
  obtain ⟨m, dir, reason', hclean, -⟩ := populateSnapshot_error h
  obtain ⟨s₂, hreb, hlist, -⟩ := cleanupBadSnapshot_spec hclean
  have hclosed : s.closeOldSnapshot.currentChainstate = some { cs with m_coins_views := none } := by
    have hiscur : ({ cs with m_coins_views := none } : Chainstate G).isCurrent = true := by
      show cs.isCurrent = true
      exact List.find?_some hcur
    simp only [closeOldSnapshot, hcur, hfrom]
    exact First.find?_replace hiscur hcur
  obtain ⟨cs₂, hcs₂, hr⟩ := (maybeRebalanceCaches_spec hreb).current hclosed
  refine ⟨cs₂, ?_, hr.closed rfl⟩
  rw [currentChainstate, hlist]
  exact hcs₂

theorem closeOldSnapshot_eq (hcur : s.currentChainstate = some cs)
    (hfrom : cs.m_from_snapshot_blockhash = none) : s.closeOldSnapshot = s := by
  simp only [closeOldSnapshot, hcur, hfrom]

theorem openedDir_congr (h : s'.snapshotDir = s.snapshotDir) (in_memory should_wipe : Bool) :
    s'.openedDir in_memory should_wipe = s.openedDir in_memory should_wipe := by
  rw [openedDir, openedDir, h]

theorem markBase_counts_iff {base : Uint256} {start : CBlockIndex}
    (hstart : s.m_block_index.entries.get base = some start) (env : LoadEnv) :
    (∀ h, (markBase P env s.m_block_index base start.nHeight).chainTxCount h =
      s.m_block_index.chainTxCount h) ↔ s.BaseMarked P base := by
  rw [BaseMarked, BlockMap.nHeight_of_get hstart]
  constructor
  · intro hall
    rw [← hall base, markBase_chainTxCount, if_pos rfl, hstart]
    rfl
  · intro hmarked h
    rw [markBase_chainTxCount]
    split
    · rename_i hh
      rw [hh, hmarked, hstart]
      rfl
    · rfl

/-- **a failed activation is atomic exactly when** it is refused under the first lock, or it
replaces no snapshot and, where the snapshot itself is accepted, the file with the base can be
written or the base carries its count already -/
theorem activateSnapshot_atomic_iff {s s' : ChainstateManager G} {cs : Chainstate G}
    {c : CoinsState G} {coins_file : Bytes} {metadata : SnapshotMetadata}
    {expected_utxo_hash : Option Uint256} {reason : String}
    (hcur : s.currentChainstate = some cs) (hc : Settled cs c)
    (h : activateSnapshot M codec P env s coins_file metadata false false expected_utxo_hash =
      .ok (.error reason, s')) :
    Atomic s s' cs c ↔
      ¬ s.Activatable cs metadata.m_base_blockhash ∨
      (cs.m_from_snapshot_blockhash = none ∧
        (Loads M codec P env s coins_file metadata expected_utxo_hash →
          env.writeBaseBlockhash = true ∨ s.BaseMarked P metadata.m_base_blockhash)) := by
  unfold activateSnapshot at h
  simp only [hcur] at h
  split at h
  · rename_i why hrefused
    cases h
    have hno : ¬ s.Activatable cs metadata.m_base_blockhash := by
      rw [← activationError_eq_none_iff, hrefused]
      simp
    exact ⟨fun _ => .inl hno, fun _ => ⟨⟨cs, c, hcur, rfl, hc.views, rfl, rfl⟩, fun _ => rfl⟩⟩
  · rename_i haccepted
    have hyes := activationError_eq_none_iff.mp haccepted
    obtain ⟨s₁, hresize, hpop⟩ := Outcome.bind_eq_ok.mp h
    have hres := resizeCurrent_spec hresize
    obtain ⟨cs₁, hcs₁, hr⟩ := hres.current hcur
    have hfrom₁ : cs₁.m_from_snapshot_blockhash = cs.m_from_snapshot_blockhash := by rw [hr.core]
    cases hfrom : cs.m_from_snapshot_blockhash with
    | some old_base =>
      obtain ⟨cs', hcs', hclosed⟩ := replacing_closed hcs₁ (hfrom₁.trans hfrom) hpop
      constructor
      · rintro ⟨⟨cs'', c', hcs'', -, hviews, -⟩, -⟩
        obtain rfl : cs' = cs'' := Option.some.inj (hcs'.symm.trans hcs'')
        rw [hclosed] at hviews
        cases hviews
      · rintro (hno | ⟨hnone, -⟩)
        · exact absurd hyes hno
        · cases hnone
    | none =>
      rw [closeOldSnapshot_eq hcs₁ (hfrom₁.trans hfrom)] at hpop
      obtain ⟨m, dir, reason', hclean, hwhy⟩ := populateSnapshot_error hpop
      obtain ⟨hcurrent, hindex⟩ := cleanup_current hcur hc hres hclean
      have htree : s₁.m_block_index = s.m_block_index := congrArg BlockTree.m_block_index hres.tree
      rw [htree, hres.activeTip hcur, openedDir_congr hres.snapshotDir, hfrom] at hwhy
      rcases hwhy with ⟨hnot, rfl⟩ | ⟨hloads, hwrite, start, hstart, rfl⟩
      · refine ⟨fun _ => .inr ⟨rfl, fun hl => absurd hl hnot⟩, fun _ => ⟨hcurrent, fun k => ?_⟩⟩
        rw [hindex]
      · have hcounts := markBase_counts_iff (P := P) hstart env.load
        rw [← hindex] at hcounts
        constructor
        · intro hatomic
          exact .inr ⟨rfl, fun _ => .inr (hcounts.mp hatomic.counts)⟩
        · rintro (hno | ⟨-, hcond⟩)
          · exact absurd hyes hno
          · refine ⟨hcurrent, hcounts.mpr ?_⟩
            rcases hcond hloads with hw | hm
            · rw [hwrite] at hw
              cases hw
            · exact hm

end

end

/-! ## a replacement without more work -/

def sampleViews : CoinsState (Multiplicative ℤ) :=
  openViews ⟨none, { CCoinsViewDB.empty with bestBlock := sampleId 3 }, none⟩

def sampleCurrent (base : Option Uint256) : Chainstate (Multiplicative ℤ) where
  m_from_snapshot_blockhash := base
  m_assumeutxo := .VALIDATED
  m_target_blockhash := none
  m_target_utxohash := none
  tip := some (sampleId 3)
  setBlockIndexCandidates := [sampleId 3]
  id := 0
  m_mempool := some ⟨0⟩
  m_coins_views := some sampleViews
  m_coinsdb_cache_size_bytes := 100
  m_coinstip_cache_size_bytes := 100

def sampleManager (base : Option Uint256) : ChainstateManager (Multiplicative ℤ) where
  m_block_index := sampleForkIndex
  m_blocks_unlinked := []
  nBlockSequenceId := 4
  m_best_header := some (sampleId 3)
  m_best_invalid := none
  m_chainstates := [sampleCurrent base]
  m_total_coinstip_cache := 100
  m_total_coinsdb_cache := 100
  m_snapshot_height := none
  snapshotDir := base.map fun h => ⟨some h, sampleViews.coinsDB, none⟩
  nextId := 1

def sampleFlushEnv : FlushEnv := ⟨.OK, false, false, true, true⟩

def sampleActivationEnv : ActivationEnv (Multiplicative ℤ) where
  load := ⟨fun _ => false, fun _ => false, fun _ => sampleId 9, false, fun _ => true⟩
  resize := sampleFlushEnv
  rebalance := ⟨true, sampleFlushEnv, sampleFlushEnv⟩
  writeBaseBlockhash := true
  dirLeft := none

def sampleCodec : CoinCodec := ⟨fun _ => none, fun _ _ _ h => by cases h⟩

theorem sampleCurrent_settled (base : Option Uint256) : Settled (sampleCurrent base) sampleViews :=
  ⟨rfl, CCoinsViewCache.new_ok trivial, CCoinsViewCache.new_utxos _, rfl, rfl⟩

/-- **the chainstate that was built on block 2 and stands at block 3 loses its views when a
snapshot of block 3 is refused for lack of work** -/
theorem replacement_not_atomic :
    (sampleManager (some (sampleId 2))).currentChainstate =
        some (sampleCurrent (some (sampleId 2))) ∧
      Settled (sampleCurrent (some (sampleId 2))) sampleViews ∧
      ∃ s', activateSnapshot sampleMuHash sampleCodec ⟨mainParams, []⟩ sampleActivationEnv
          (sampleManager (some (sampleId 2))) [] ⟨sampleId 3, 0⟩ false false none =
        .ok (.error "Population failed: Work does not exceed active chainstate", s') ∧
      ¬ Atomic (sampleManager (some (sampleId 2))) s' (sampleCurrent (some (sampleId 2)))
        sampleViews := by
  refine ⟨rfl, sampleCurrent_settled _, _, rfl, ?_⟩
  rintro ⟨⟨cs', c', hcs', -, hviews, -⟩, -⟩
  cases hcs'
  cases hviews

/-- the same snapshot leaves a chainstate alone that was not built on a snapshot -/
theorem activateSnapshot_atomic_iff_ordinary :
    ∃ s', activateSnapshot sampleMuHash sampleCodec ⟨mainParams, []⟩ sampleActivationEnv
        (sampleManager none) [] ⟨sampleId 3, 0⟩ false false none =
      .ok (.error "Population failed: Work does not exceed active chainstate", s') ∧
    Atomic (sampleManager none) s' (sampleCurrent none) sampleViews := by
  refine Exists.imp (fun s' hs' => ⟨hs', ?_⟩) ⟨_, rfl⟩
  rw [activateSnapshot_atomic_iff rfl (sampleCurrent_settled none) hs']
  exact .inr ⟨rfl, fun _ => .inl rfl⟩

end ChainstateManager

end ElektronNet
