import ElektronNet.SnapshotFiles
import ElektronNet.StuckChain

/-!
# A recovery that fails

`MaybeActivateAutomaticSnapshot` of a stuck node clears the failure flags around the base of the selected
snapshot and chooses `m_best_header` again, and calls `ActivateSnapshot` then.

* `SameValidity`               the flags, the best header and the candidates are as before
* `activateSnapshot_refused`   a refused `ActivateSnapshot` leaves all of that alone
* `Unblemished`                no failed block lies below or above the base
* `unstick_validity_iff`       what the clearing leaves alone
* `failed_recovery_iff`        the two together
* `recovery_forgets`           with transactions in the mempool every snapshot is refused, and the flags go

Nothing is put back after a refusal.
-/

set_option linter.unusedSectionVars false

namespace ElektronNet

open List Outcome Option BlockMap

/-! ## updates that change nothing -/

namespace BlockMap

variable {m : BlockMap}

theorem update_of_same {f : Uint256 → CBlockIndex → BlockIndexState}
    (h : ∀ x e, m.entries.get x = some e → f x e = e.toBlockIndexState) : m.update f = m := by
  obtain ⟨entries, hentries⟩ := m
  rw [update, mk.injEq]
  refine FMap.ext_get fun x => ?_
  rw [FMap.map_get]
  cases hx : entries.get x with
  | none => rfl
  | some e =>
    rw [map_some, h x e hx]

theorem failed_update_of_same {f : Uint256 → CBlockIndex → BlockIndexState}
    (h : ∀ x e, (f x e).nStatus.failedValid = e.nStatus.failedValid) (x : Uint256) :
    (m.update f).failed x = m.failed x := by
  rw [failed_update]
  exact congrArg (Option.elim _ _) (funext fun e => h x e)

def Unblemished (m : BlockMap) (base : Uint256) : Prop :=
  ∀ x, m.failed x = true → base ∉ m.forest.path x ∧ x ∉ m.forest.path base

end BlockMap

theorem markBase_failed (P : CChainParams) (env : LoadEnv) (m : BlockMap) (base : Uint256)
    (base_height : Nat) (x : Uint256) :
    (markBase P env m base base_height).failed x = m.failed x := by
  rw [markBase, BlockMap.modify, failed_update_of_same, fakeWitness,
    failed_update_of_same]
  · intro y e
    split <;> rfl
  · intro y e
    split <;> rfl

/-! ## the flags that are cleared -/

namespace ChainSelection

variable {s : ChainSelection}

theorem reset_keeps_flags_iff (s : ChainSelection) (base : Uint256) :
    (∀ x, (s.resetBlockFailureFlags base).m_block_index.failed x = s.m_block_index.failed x) ↔
      s.m_block_index.Unblemished base := by
  constructor
  · intro hsame x hx
    have hkept : (s.resetBlockFailureFlags base).m_block_index.failed x = true := by rw [hsame, hx]
    exact ((failed_resetBlockFailureFlags s base x).mp hkept).2
  · intro hclean x
    rw [Bool.eq_iff_iff, failed_resetBlockFailureFlags]
    exact ⟨fun h => h.1, fun h => ⟨h, hclean x h⟩⟩

theorem blames_unblemished {base x : Uint256} {e : CBlockIndex}
    (hclean : s.m_block_index.Unblemished base) (hx : s.m_block_index.entries.get x = some e) :
    s.blames base x e = false := by
  rw [Bool.eq_false_iff]
  intro hb
  obtain ⟨hf, hrelated⟩ := (blames_iff hx).mp hb
  have hno := hclean x hf
  tauto

theorem resetBlockFailureFlags_unblemished {base : Uint256} (hclean : s.m_block_index.Unblemished base) :
    (s.resetBlockFailureFlags base).m_block_index = s.m_block_index ∧
      (s.resetBlockFailureFlags base).chainstate = s.chainstate := by
  constructor
  · refine update_of_same fun x e hx => ?_
    rw [blames_unblemished hclean hx]
    rfl
  · have hfold : ∀ (l : List (Uint256 × CBlockIndex)) (cs : ChainstateCore),
        (∀ e ∈ l, s.blames base e.1 e.2 = false) →
        l.foldl (fun cs e => if s.blames base e.1 e.2 && s.rehabilitated e.1 e.2 then
          cs.addCandidate e.1 else cs) cs = cs := by
      intro l cs hl
      induction l with
      | nil => rfl
      | cons e l ih =>
        rw [foldl_cons, hl e mem_cons_self]
        exact ih fun e' he' => hl e' (mem_cons_of_mem _ he')
    apply hfold
    intro e he
    exact blames_unblemished hclean ((FMap.mem_toList _ e.1 e.2).mp he)

theorem recalculateBestHeader_eq {t : Uint256} (ht : s.chainstate.tip = some t) :
    s.recalculateBestHeader.m_best_header =
      some (First.leader (fun x => !s.m_block_index.failed x) s.m_block_index.nChainWork t
        (s.order s.m_block_index.entries.dom)) := by
  have hfold : ∀ (l : List Uint256) (b : Uint256),
      l.foldl (betterHeader s.m_block_index) (some b) =
        some (First.leader (fun x => !s.m_block_index.failed x) s.m_block_index.nChainWork b l) := by
    intro l
    induction l with
    | nil => exact fun b => rfl
    | cons h l ih =>
      intro b
      rw [foldl_cons, betterHeader, map_some, ih, First.leader, First.leader, foldl_cons]
      simp only [Bool.not_eq_true']
  rw [recalculateBestHeader, ht]
  exact hfold _ t

end ChainSelection

/-! ## a refused activation -/

namespace ChainstateManager

section
variable {G : Type} [CommGroup G]

def hasSustainedInvalidChainWithMoreWork (s : ChainstateManager G) (params : ConsensusParams)
    (nPowTargetSpacing : Int) : Bool :=
  s.currentChainstate.any fun cs =>
    ChainSelection.hasSustainedInvalidChainWithMoreWork ⟨s.toBlockTree, cs.toChainstateCore⟩ params
      nPowTargetSpacing

/-- what the node thinks of its blocks -/
structure SameValidity (s s' : ChainstateManager G) : Prop where
  failed : ∀ x, s'.m_block_index.failed x = s.m_block_index.failed x
  header : s'.m_best_header = s.m_best_header
  candidates : s'.m_chainstates.map (·.setBlockIndexCandidates) =
    s.m_chainstates.map (·.setBlockIndexCandidates)

namespace SameValidity

variable {s s' s'' : ChainstateManager G}

theorem refl (s : ChainstateManager G) : SameValidity s s := ⟨fun _ => rfl, rfl, rfl⟩

theorem symm (h : SameValidity s s') : SameValidity s' s :=
  ⟨fun x => (h.failed x).symm, h.header.symm, h.candidates.symm⟩

theorem trans (h : SameValidity s s') (h' : SameValidity s' s'') : SameValidity s s'' :=
  ⟨fun x => (h'.failed x).trans (h.failed x), h'.header.trans h.header,
    h'.candidates.trans h.candidates⟩

end SameValidity

variable {s : ChainstateManager G}

theorem Resized.sameValidity {s' : ChainstateManager G} (h : Resized s s') : SameValidity s s' where
  failed x := by rw [show s'.m_block_index = s.m_block_index from congrArg BlockTree.m_block_index h.tree]
  header := congrArg BlockTree.m_best_header h.tree
  candidates := First.map_eq_of_forall₂ (h.chainstates.imp fun _ _ hr => by rw [hr.core])

theorem closeOldSnapshot_validity (s : ChainstateManager G) : SameValidity s s.closeOldSnapshot := by
  unfold closeOldSnapshot
  split
  · exact SameValidity.refl s
  rename_i old hold
  split
  · exact SameValidity.refl s
  have hlist : (First.replace Chainstate.isCurrent { old with m_coins_views := none }
      s.m_chainstates).map (·.setBlockIndexCandidates) = s.m_chainstates.map (·.setBlockIndexCandidates) := by
    apply First.map_replace ?_ hold
    rfl
  refine ⟨fun x => ?_, rfl, hlist⟩
  refine failed_update_of_same (fun y e => ?_) x
  split <;> rfl

theorem cleanupBadSnapshot_validity {s' : ChainstateManager G} {env : ActivationEnv G}
    {reason : String} {r : Except String Uint256}
    (h : s.cleanupBadSnapshot env reason = .ok (r, s')) : SameValidity s s' := by
  obtain ⟨s₁, h₁, h₂⟩ := bind_eq_ok.mp h
  cases h₂
  have hres := (maybeRebalanceCaches_spec h₁).sameValidity
  exact ⟨hres.failed, hres.header, hres.candidates⟩

section
variable {M : MuHash G} {codec : CoinCodec} {P : CChainParams}

theorem activateSnapshot_refused {env : ActivationEnv G} {s s' : ChainstateManager G} {coins_file : Bytes}
    {metadata : SnapshotMetadata} {in_memory verify : Bool} {expected_utxo_hash : Option Uint256}
    {reason : String}
    (h : activateSnapshot M codec P env s coins_file metadata in_memory verify expected_utxo_hash =
      .ok (.error reason, s')) : SameValidity s s' := by
  unfold activateSnapshot at h
  split at h
  · cases h
  split at h
  · cases h
    exact SameValidity.refl s
  obtain ⟨s₁, hresize, hpop⟩ := bind_eq_ok.mp h
  have hclosed := (resizeCurrent_spec hresize).sameValidity.trans (closeOldSnapshot_validity s₁)
  obtain ⟨m, dir, reason', hclean, hwhy⟩ := populateSnapshot_error hpop
  have hmarks : ∀ x, m.failed x = s₁.closeOldSnapshot.m_block_index.failed x := by
    intro x
    rcases hwhy with ⟨-, rfl⟩ | ⟨-, -, start, -, rfl⟩
    · rfl
    · exact markBase_failed P env.load _ _ _ x
  refine hclosed.trans (SameValidity.trans ?_ (cleanupBadSnapshot_validity hclean))
  exact ⟨hmarks, rfl, rfl⟩

end

/-! ## the recovery -/

/-- the best header is the first of the heaviest blocks without a flag that the loop meets, or the tip -/
def HeaderLeads (s : ChainstateManager G) : Prop :=
  ∃ t b, s.activeTip = some t ∧ s.m_best_header = some b ∧
    First.Leads (fun x => !s.m_block_index.failed x) s.m_block_index.nChainWork t
      (s.order s.m_block_index.entries.dom) b

/-- the recovery has nothing to clear: the base is not known; or no failed block lies around it, and the
best header is where it belongs -/
def NothingToClear (s : ChainstateManager G) (base : Uint256) : Prop :=
  s.m_block_index.lookupBlockIndex base = none ∨ (s.m_block_index.Unblemished base ∧ s.HeaderLeads)

/-- the current chainstate with the block index, after the flags around the base were cleared -/
def cleared (s : ChainstateManager G) (cs : Chainstate G) (base : Uint256) : ChainSelection :=
  ChainSelection.resetBlockFailureFlags ⟨s.toBlockTree, cs.toChainstateCore⟩ base

theorem unstick_eq {cs : Chainstate G} {base : Uint256} (hcs : s.currentChainstate = some cs)
    (hknown : (s.m_block_index.lookupBlockIndex base).isSome = true) :
    s.unstick base =
      { s.setCurrent { cs with toChainstateCore := (s.cleared cs base).chainstate } with
        toBlockTree := (s.cleared cs base).recalculateBestHeader.toBlockTree } := by
  obtain ⟨e, he⟩ := isSome_iff_exists.mp hknown
  unfold unstick currentSelection
  rw [he, hcs]
  rfl

theorem unstick_validity_iff {t : Uint256} (ht : s.activeTip = some t) (base : Uint256) :
    SameValidity s (s.unstick base) ↔ s.NothingToClear base := by
  obtain ⟨cs, hcs, hcstip⟩ := bind_eq_some_iff.mp ht
  cases hbase : s.m_block_index.lookupBlockIndex base with
  | none =>
    rw [unstick, hbase]
    exact ⟨fun _ => .inl hbase, fun _ => SameValidity.refl s⟩
  | some e =>
    rw [unstick_eq hcs (by rw [hbase]; rfl)]
    -- without a failed block around the base only the header is left to look at
    have hheader : s.m_block_index.Unblemished base →
        (s.cleared cs base).recalculateBestHeader.m_best_header =
          some (First.leader (fun x => !s.m_block_index.failed x) s.m_block_index.nChainWork t
            (s.order s.m_block_index.entries.dom)) := by
      intro hclean
      obtain ⟨hindex, hchain⟩ := ChainSelection.resetBlockFailureFlags_unblemished
        (s := ⟨s.toBlockTree, cs.toChainstateCore⟩) hclean
      have htip : (s.cleared cs base).chainstate.tip = some t := by
        rw [cleared, hchain]
        exact hcstip
      rw [ChainSelection.recalculateBestHeader_eq htip, cleared, hindex]
      rfl
    constructor
    · intro hsame
      have hclean : s.m_block_index.Unblemished base :=
        (ChainSelection.reset_keeps_flags_iff ⟨s.toBlockTree, cs.toChainstateCore⟩ base).mp hsame.failed
      have hbest := hsame.header.symm.trans (hheader hclean)
      exact .inr ⟨hclean, t, _, ht, hbest, (First.leader_eq_iff _ _ _).mp rfl⟩
    · rintro (hnone | ⟨hclean, t', b, ht', hb, hleads⟩)
      · rw [hbase] at hnone
        cases hnone
      obtain rfl : t = t' := Option.some.inj (ht.symm.trans ht')
      obtain ⟨-, hchain⟩ := ChainSelection.resetBlockFailureFlags_unblemished
        (s := ⟨s.toBlockTree, cs.toChainstateCore⟩) hclean
      refine ⟨(ChainSelection.reset_keeps_flags_iff ⟨s.toBlockTree, cs.toChainstateCore⟩ base).mpr hclean,
        ?_, ?_⟩
      · show (s.cleared cs base).recalculateBestHeader.m_best_header = s.m_best_header
        rw [hheader hclean, hb, (First.leader_eq_iff _ _ _).mpr hleads]
      · apply First.map_replace ?_ hcs
        show (s.cleared cs base).chainstate.setBlockIndexCandidates = _
        rw [cleared, hchain]

theorem tip_of_stuck {params : ConsensusParams} {nPowTargetSpacing : Int}
    (h : s.hasSustainedInvalidChainWithMoreWork params nPowTargetSpacing = true) :
    ∃ t, s.activeTip = some t := by
  unfold hasSustainedInvalidChainWithMoreWork at h
  rw [activeTip]
  cases hcs : s.currentChainstate with
  | none =>
    rw [hcs] at h
    cases h
  | some cs =>
    rw [hcs, any_some] at h
    unfold ChainSelection.hasSustainedInvalidChainWithMoreWork at h
    split at h
    · rename_i tip best htip hbest
      exact ⟨tip, htip⟩
    · cases h

end

end ChainstateManager

namespace SnapshotNode

open ChainstateManager

section
variable {G : Type} [CommGroup G] {network_magic : MessageStart} {env : SnapshotEnv G}
  {M : MuHash G} {codec : CoinCodec} {P : CChainParams}

theorem call_refused_iff {node node' : SnapshotNode G} {best_height : Int} {path : FileName}
    {snapshot : AutomaticSnapshot G} (hflag : env.stuck_on_invalid_chain = true)
    (hnewest : node.snapshots.newest network_magic = (best_height, some path))
    (hjudge : node.judge network_magic env path = .tried snapshot) :
    node.maybeActivateAutomaticSnapshot network_magic env M codec P = .ok (false, node') ↔
      ∃ reason s', ChainstateManager.activateSnapshot M codec P snapshot.activation
          (node.chainman.unstick snapshot.metadata.m_base_blockhash) snapshot.coins_file snapshot.metadata
          false false snapshot.expected_hash = .ok (.error reason, s') ∧
        node' = { node with chainman := s', snapshots := node.snapshots.moveAside path } := by
  have hgate : env.gate = true := by rw [SnapshotEnv.gate, hflag, Bool.or_true, Bool.true_or]
  obtain ⟨-, -, hnewer, -, hhash, hsnapshot⟩ := judge_tried hjudge
  obtain ⟨expected_hash, hexpected⟩ := isSome_iff_exists.mp hhash
  unfold maybeActivateAutomaticSnapshot
  rw [hgate, hnewest]
  simp only [Bool.not_true, Bool.false_eq_true, if_false, hjudge]
  unfold tryActivate ChainstateManager.maybeActivateAutomaticSnapshot
  simp only [hnewer, hexpected, hsnapshot, hflag, Bool.not_true, Bool.false_eq_true, if_false, if_true]
  cases hact : ChainstateManager.activateSnapshot M codec P snapshot.activation
      (node.chainman.unstick snapshot.metadata.m_base_blockhash) snapshot.coins_file snapshot.metadata
      false false (some expected_hash) with
  | error f => simp
  | ok r =>
    obtain ⟨r, s'⟩ := r
    cases r with
    | error reason =>
      constructor
      · intro h
        cases h
        exact ⟨reason, s', rfl, rfl⟩
      · rintro ⟨reason', s'', h, rfl⟩
        cases h
        rfl
    | ok base =>
      constructor
      · intro h
        split at h
        · cases h
        · rename_i chainman hdone
          obtain ⟨s₁, -, hpair⟩ := bind_eq_ok.mp hdone
          cases hpair
        · cases h
      · rintro ⟨reason', s'', h, -⟩
        cases h

/-- **A failed recovery leaves the validity of the blocks alone iff it had nothing to clear**: for every
stuck node and every file that it hands to `ActivateSnapshot` and that is refused -/
theorem failed_recovery_iff {node node' : SnapshotNode G} {nPowTargetSpacing best_height : Int}
    {path : FileName} {snapshot : AutomaticSnapshot G}
    (hstuck : node.chainman.hasSustainedInvalidChainWithMoreWork P.consensus nPowTargetSpacing = true)
    (henv : env.stuck_on_invalid_chain =
      node.chainman.hasSustainedInvalidChainWithMoreWork P.consensus nPowTargetSpacing)
    (hnewest : node.snapshots.newest network_magic = (best_height, some path))
    (hjudge : node.judge network_magic env path = .tried snapshot)
    (h : node.maybeActivateAutomaticSnapshot network_magic env M codec P = .ok (false, node')) :
    node.chainman.SameValidity node'.chainman ↔
      node.chainman.NothingToClear snapshot.metadata.m_base_blockhash := by
  obtain ⟨reason, s', hactivate, rfl⟩ := (call_refused_iff (henv.trans hstuck) hnewest hjudge).mp h
  have hrefused : (node.chainman.unstick snapshot.metadata.m_base_blockhash).SameValidity s' :=
    ChainstateManager.activateSnapshot_refused hactivate
  obtain ⟨t, ht⟩ := ChainstateManager.tip_of_stuck hstuck
  rw [← ChainstateManager.unstick_validity_iff ht]
  exact ⟨fun hsame => hsame.trans hrefused.symm, fun hsame => hsame.trans hrefused⟩

/-! ## a node with transactions in its mempool -/

section
variable (M codec P)

theorem refused_of_mempool {s : ChainstateManager G} {cs : Chainstate G} (hcs : s.currentChainstate = some cs)
    (hmempool : mempoolNotEmpty cs = true) (env : ActivationEnv G) (coins_file : Bytes)
    (metadata : SnapshotMetadata) (expected_utxo_hash : Option Uint256) :
    ∃ reason, activateSnapshot M codec P env s coins_file metadata false false expected_utxo_hash =
      .ok (.error reason, s) := by
  unfold activateSnapshot
  simp only [hcs]
  cases herror : s.activationError P cs metadata.m_base_blockhash false with
  | some reason => exact ⟨reason, rfl⟩
  | none =>
    obtain ⟨start, -, -, -, hempty⟩ := activationError_eq_none_iff.mp herror
    rw [hmempool] at hempty
    cases hempty

theorem cleared_of_mempool {node : SnapshotNode G} {cs : Chainstate G} {path : FileName} {best_height : Int}
    {snapshot : AutomaticSnapshot G} (hflag : env.stuck_on_invalid_chain = true)
    (hnewest : node.snapshots.newest network_magic = (best_height, some path))
    (hjudge : node.judge network_magic env path = .tried snapshot)
    (hcs : node.chainman.currentChainstate = some cs) (hmempool : mempoolNotEmpty cs = true)
    (hknown : (node.chainman.m_block_index.lookupBlockIndex snapshot.metadata.m_base_blockhash).isSome =
      true) :
    ∃ node', node.maybeActivateAutomaticSnapshot network_magic env M codec P = .ok (false, node') ∧
      node'.chainman.m_block_index.failed snapshot.metadata.m_base_blockhash = false := by
  have hunstick := unstick_eq hcs hknown
  have hcurrent : (node.chainman.unstick snapshot.metadata.m_base_blockhash).currentChainstate =
      some { cs with toChainstateCore :=
        (node.chainman.cleared cs snapshot.metadata.m_base_blockhash).chainstate } := by
    rw [hunstick]
    refine First.find?_replace ?_ hcs
    obtain ⟨-, hvalid, htarget, -⟩ := ChainstateCore.role_eq
      (ChainSelection.resetBlockFailureFlags_role ⟨node.chainman.toBlockTree, cs.toChainstateCore⟩
        snapshot.metadata.m_base_blockhash)
    have hiscur : cs.isCurrent = true := find?_some hcs
    rw [← hiscur]
    exact congrArg₂ (fun (a : Assumeutxo) (t : Option Uint256) => decide (a ≠ .INVALID) && t.isNone) hvalid
      htarget
  obtain ⟨reason, hrefused⟩ := refused_of_mempool M codec P hcurrent hmempool snapshot.activation
    snapshot.coins_file snapshot.metadata snapshot.expected_hash
  refine ⟨_, (call_refused_iff hflag hnewest hjudge).mpr ⟨reason, _, hrefused, rfl⟩, ?_⟩
  rw [Bool.eq_false_iff]
  intro hf
  rw [hunstick] at hf
  obtain ⟨-, hbelow, -⟩ := (ChainSelection.failed_resetBlockFailureFlags _ _ _).mp hf
  exact hbelow (Forest.self_mem_path _ _)

end

end

/-- 100 headers above the genesis block, all rejected; or, `aside`, none of them and a heavy one beside
them -/
def sampleStuckTree (aside : Bool) : BlockTree where
  m_block_index :=
    if aside then
      (sampleHundred.addToBlockIndex (sampleId 101) (sampleId 0) 124 101).modify
        (sampleId 101) fun e => { e with nStatus := { e.nStatus with failedValid := true } }
    else
      sampleHundred.update fun h e =>
        { e.toBlockIndexState with nStatus := { e.nStatus with failedValid := !decide (h = sampleId 0) } }
  m_blocks_unlinked := []
  nBlockSequenceId := 1
  m_best_header := some (if aside then sampleId 100 else sampleId 0)
  m_best_invalid := some (if aside then sampleId 101 else sampleId 100)

/-- a regtest node at its genesis block with a transaction in its mempool and a snapshot of block 100 -/
def sampleStuck (aside : Bool) : SnapshotNode (Multiplicative ℤ) where
  chainman :=
    { sampleFresh with
      toBlockTree := sampleStuckTree aside
      m_chainstates := [{ sampleCurrent none with
        tip := some (sampleId 0)
        setBlockIndexCandidates := [sampleId 0]
        m_mempool := some ⟨1⟩ }] }
  snapshots := sampleUsable
  s_activated_snapshot_hash := Uint256.zero

def sampleStuckEnv : SnapshotEnv (Multiplicative ℤ) :=
  { sampleSnapshotEnv with isInitialBlockDownload := false, stuck_on_invalid_chain := true }

theorem sampleStuck_newest (aside : Bool) :
    (sampleStuck aside).snapshots.newest sampleMagic = (100, some (samplePath 100)) := by
  show sampleUsable.newest sampleMagic = _
  decide +kernel

theorem sampleStuck_judge (aside : Bool) : ∃ snapshot,
    (sampleStuck aside).judge sampleMagic sampleStuckEnv (samplePath 100) = .tried snapshot ∧
      snapshot.metadata.m_base_blockhash = sampleId 100 := by
  have hjudge : (match (sampleStuck aside).judge sampleMagic sampleStuckEnv (samplePath 100) with
      | .tried snapshot => decide (snapshot.metadata.m_base_blockhash = sampleId 100)
      | _ => false) = true := by
    cases aside <;> rfl
  split at hjudge
  · rename_i snapshot htried
    exact ⟨snapshot, htried, of_decide_eq_true hjudge⟩
  · cases hjudge

/-- **a refused snapshot clears flags**: block 100 was rejected, and is not any more -/
theorem recovery_forgets :
    (sampleStuck false).chainman.hasSustainedInvalidChainWithMoreWork regTestParams 60 = true ∧
    ∃ node', (sampleStuck false).maybeActivateAutomaticSnapshot sampleMagic sampleStuckEnv
        sampleMuHash (coinCodec samplePubKeys) ⟨regTestParams, []⟩ = .ok (false, node') ∧
      (sampleStuck false).chainman.m_block_index.failed (sampleId 100) = true ∧
      node'.chainman.m_block_index.failed (sampleId 100) = false := by
  obtain ⟨snapshot, htried, hbase⟩ := sampleStuck_judge false
  obtain ⟨node', hcall, hcleared⟩ := cleared_of_mempool sampleMuHash (coinCodec samplePubKeys)
    ⟨regTestParams, []⟩ rfl (sampleStuck_newest _) htried rfl rfl (by rw [hbase]; decide +kernel)
  rw [hbase] at hcleared
  exact ⟨by decide +kernel, node', hcall, by decide +kernel, hcleared⟩

/-- the rejected block stands beside the base of the snapshot, and the best header on it -/
theorem sampleStuck_clean :
    (sampleStuck true).chainman.m_block_index.Unblemished (sampleId 100) ∧
      (sampleStuck true).chainman.HeaderLeads := by
  constructor
  · intro x hx
    have honly : ∀ h ∈ ChainSelection.keys (sampleStuckTree true).m_block_index,
        (sampleStuckTree true).m_block_index.failed h = true → h = sampleId 101 := by
      decide +kernel
    obtain rfl := honly x ((ChainSelection.mem_keys _ x).mpr (isSome_of_failed hx)) hx
    decide +kernel
  · refine ⟨sampleId 0, sampleId 100, rfl, rfl, (First.leader_eq_iff _ _ _).mp ?_⟩
    decide +kernel

def sampleEarlyAttested : CChainParams :=
  ⟨{ regTestParams with MuhashAttestationActivationHeight := 1 }, []⟩

theorem failed_recovery_iff_beside :
    ∃ node', (sampleStuck true).maybeActivateAutomaticSnapshot sampleMagic sampleStuckEnv sampleMuHash
        (coinCodec samplePubKeys) sampleEarlyAttested = .ok (false, node') ∧
      (sampleStuck true).chainman.SameValidity node'.chainman := by
  have hstuck : (sampleStuck true).chainman.hasSustainedInvalidChainWithMoreWork
      sampleEarlyAttested.consensus 60 = true := by
    decide +kernel
  obtain ⟨snapshot, htried, hbase⟩ := sampleStuck_judge true
  obtain ⟨node', hcall, -⟩ := cleared_of_mempool sampleMuHash (coinCodec samplePubKeys) sampleEarlyAttested
    rfl (sampleStuck_newest _) htried rfl rfl (by rw [hbase]; decide +kernel)
  refine ⟨node', hcall, ?_⟩
  refine (failed_recovery_iff hstuck hstuck.symm (sampleStuck_newest _) htried hcall).mpr (.inr ?_)
  rw [hbase]
  exact sampleStuck_clean

end SnapshotNode

end ElektronNet
