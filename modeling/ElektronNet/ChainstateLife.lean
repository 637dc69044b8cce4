import ElektronNet.ChainstateManager

/-!
# The life of the chainstates

How the list of chainstates changes outside `ActivateSnapshot`: the tail of
`MaybeActivateAutomaticSnapshot` of `init.cpp`, and `LoadChainstate` of `node/chainstate.cpp`
with `MaybeValidateSnapshot`.

* `deleteChainstate`                 the directory goes first, then the object; its mempool is
                                     handed to the current chainstate
* `maybeActivateAutomaticSnapshot`   from the metadata of the chosen file on
* `loadChainstate`                   a restart, over what was left on disk

What the disk holds at a restart is answered by `RestartEnv`: the block index, the views and the tip
that each chainstate is initialised with.  The choice of the snapshot file and the work on files
and peers after an activation have no part in the roles.
-/

namespace ElektronNet

namespace ChainSelection

/-- the flag of the block, of its ancestors and of its descendants -/
def blames (s : ChainSelection) (pindex h : Uint256) (e : CBlockIndex) : Bool :=
  e.nStatus.failedValid &&
    (decide (s.m_block_index.getAncestor h (s.m_block_index.nHeight pindex) = some pindex) ||
      decide (s.m_block_index.getAncestor pindex e.nHeight = some h))

/-- a block whose flag was cleared and that is better than the tip -/
def rehabilitated (s : ChainSelection) (h : Uint256) (e : CBlockIndex) : Bool :=
  decide (BLOCK_VALID_TRANSACTIONS ≤ e.nStatus.valid) && e.haveNumChainTxs &&
    s.chainstate.tip.any fun t => s.m_block_index.before t h

def resetBlockFailureFlags (s : ChainSelection) (pindex : Uint256) : ChainSelection :=
  { s with
    m_block_index := s.m_block_index.update fun h e =>
      if s.blames pindex h e then
        { e.toBlockIndexState with nStatus := { e.nStatus with failedValid := false } }
      else e.toBlockIndexState
    m_best_invalid := s.m_best_invalid.filter fun h =>
      !(s.m_block_index.entries.get h).any (s.blames pindex h)
    chainstate := s.m_block_index.entries.toList.foldl
      (fun cs e => if s.blames pindex e.1 e.2 && s.rehabilitated e.1 e.2 then cs.addCandidate e.1
        else cs) s.chainstate }

end ChainSelection

inductive ChainstateLoadStatus where
  | SUCCESS
  | FAILURE
  | FAILURE_FATAL
deriving DecidableEq

inductive SnapshotCompletionResult where
  | SUCCESS
  | SKIPPED
  | MISSING_CHAINPARAMS
  | STATS_FAILED
  | HASH_MISMATCH
deriving DecidableEq

/-- one run of `MaybeActivateAutomaticSnapshot` that has chosen its file -/
structure AutomaticSnapshot (G : Type) where
  coins_file : Bytes
  metadata : SnapshotMetadata
  /-- the hash in the sidecar, if it could be read and is not null -/
  expected_hash : Option Uint256
  stuck_on_invalid_chain : Bool
  activation : ActivationEnv G
  /-- `DeleteCoinsDBFromDisk` on the old chainstate succeeds -/
  historicalRemoved : Bool

structure RestartEnv (G : Type) where
  wipe_chainstate_db : Bool
  /-- the block index that is read from disk -/
  tree : BlockTree
  /-- the views and the tip of a chainstate; `none`: its initialisation fails -/
  loadViews : Chainstate G → Option (CoinsState G × Option Uint256)
  rebalance : RebalanceEnv
  /-- `DeleteCoinsDBFromDisk` succeeds, on the snapshot and on the old chainstate -/
  snapshotRemoved : Bool
  historicalRemoved : Bool
  dirLeft : Option (SnapshotDir G)
  /-- of the validation of the snapshot by the old chainstate -/
  flush : FlushEnv
  hashInterrupt : Bool

namespace ChainstateManager

section
variable {G : Type} [CommGroup G]

section
variable (s : ChainstateManager G)

def find (id : Nat) : Option (Chainstate G) :=
  s.m_chainstates.find? fun cs => cs.id == id

def modify (id : Nat) (f : Chainstate G → Chainstate G) : ChainstateManager G :=
  { s with m_chainstates := s.m_chainstates.map fun cs => if cs.id = id then f cs else cs }

/-- the mempool of a removed chainstate goes to the current one -/
def handOver (mempool : Option CTxMemPool) : Except Fault (ChainstateManager G) :=
  match mempool with
  | none => .ok s
  | some mempool =>
    match s.currentChainstate with
    | none => .error noCurrentChainstate
    | some curr =>
      if mempool.size ≠ 0 then .error (.assertion "prev_chainstate->m_mempool->size() == 0")
      else if curr.m_mempool.isSome then .error (.assertion "!curr_chainstate.m_mempool")
      else .ok (s.setCurrent { curr with m_mempool := some mempool })

/-- `removed`: the directory could be deleted; `dirLeft`: what is left of a snapshot's otherwise -/
def deleteChainstate (id : Nat) (removed : Bool)
    (dirLeft : Option (SnapshotDir G)) : Except Fault (Bool × ChainstateManager G) :=
  match s.find id with
  | none => .error (.assertion "RemoveChainstate(chainstate)")
  | some cs =>
    let left := fun dir => if cs.m_from_snapshot_blockhash.isSome then dir else s.snapshotDir
    if cs.m_coins_views.isSome then .error (.assertion "!chainstate.m_coins_views")
    else if !removed then .ok (false, { s with snapshotDir := left dirLeft })
    else do
      let s ← ({ s with snapshotDir := left none }.removeChainstate id).handOver cs.m_mempool
      pure (true, s)

/-! ## automatic activation -/

def currentSelection (f : ChainSelection → ChainSelection) : ChainstateManager G :=
  match s.currentChainstate with
  | none => s
  | some cs =>
    let r := f ⟨s.toBlockTree, cs.toChainstateCore⟩
    { s.setCurrent { cs with toChainstateCore := r.chainstate } with toBlockTree := r.toBlockTree }

/-- stale flags are cleared before a stuck node activates -/
def unstick (base_blockhash : Uint256) : ChainstateManager G :=
  match s.m_block_index.lookupBlockIndex base_blockhash with
  | none => s
  | some _ => s.currentSelection fun sel =>
      (sel.resetBlockFailureFlags base_blockhash).recalculateBestHeader

/-- the height of a block, `0` if it is not known -/
def heightOr0 (hash : Option Uint256) : Nat :=
  (hash.bind s.m_block_index.lookupBlockIndex).elim 0 (·.nHeight)

/-- a snapshot in use is replaced by a newer one only -/
def newerThanCurrent (base_blockhash : Uint256) : Bool :=
  match s.currentChainstate.bind (·.m_from_snapshot_blockhash) with
  | none => true
  | some existing => decide (s.heightOr0 (some existing) < s.heightOr0 (some base_blockhash))

/-- the chainstate behind the snapshot is given up, and the snapshot counts as validated -/
def discardHistorical (removed : Bool) : Except Fault (ChainstateManager G) :=
  match s.historicalChainstate with
  | none => .ok s
  | some historical =>
    match (s.setHistorical { historical with m_coins_views := none }).deleteChainstate historical.id
        removed none with
    | .error f => .error f
    | .ok (false, s) => .ok s
    | .ok (true, s) =>
      match s.currentChainstate with
      | none => .error noCurrentChainstate
      | some cs => .ok (s.setCurrent { cs with m_assumeutxo := .VALIDATED })

end

section
variable (M : MuHash G) (codec : CoinCodec) (P : CChainParams)

section
variable (s : ChainstateManager G)

/-- `true`: a snapshot was activated -/
def maybeActivateAutomaticSnapshot (snapshot : AutomaticSnapshot G) :
    Except Fault (Bool × ChainstateManager G) :=
  if !s.newerThanCurrent snapshot.metadata.m_base_blockhash then .ok (false, s)
  else
    match snapshot.expected_hash with
    | none => .ok (false, s)
    | some expected_hash =>
      let s := if snapshot.stuck_on_invalid_chain then s.unstick snapshot.metadata.m_base_blockhash
        else s
      match activateSnapshot M codec P snapshot.activation s snapshot.coins_file snapshot.metadata
          false false (some expected_hash) with
      | .error f => .error f
      | .ok (.error _, s) => .ok (false, s)
      | .ok (.ok _, s) => do
        let s ← s.discardHistorical snapshot.historicalRemoved
        pure (true, s)

/-! ## restart -/

def loadAssumeutxoChainstate : Except Fault (Option Nat × ChainstateManager G) :=
  match s.currentChainstate with
  | none => .error noCurrentChainstate
  | some cs =>
    if cs.m_from_snapshot_blockhash.isSome then
      .error (.assertion "!CurrentChainstate().m_from_snapshot_blockhash")
    else
      match s.snapshotDir.bind (·.base_blockhash) with
      | none => .ok (none, s)
      | some base_blockhash => do
        let s' ← s.addChainstate (Chainstate.new s.nextId none (some base_blockhash))
        pure (some s.nextId, { s' with nextId := s.nextId + 1 })

/-- the views, the tip and the candidates of one chainstate; with two chainstates each starts with
a fifth of the cache -/
def initChainstate (env : RestartEnv G) (cs : Chainstate G) : Option (Chainstate G) :=
  let fraction := if s.historicalChainstate.isSome then 20 else 100
  (env.loadViews cs).map fun loaded =>
    let cs : Chainstate G :=
      { cs with
        tip := loaded.2
        m_coins_views := some loaded.1
        m_coinsdb_cache_size_bytes := percent fraction s.m_total_coinsdb_cache
        m_coinstip_cache_size_bytes := percent fraction s.m_total_coinstip_cache }
    { cs with
      toChainstateCore := cs.toChainstateCore.populateBlockIndexCandidates env.tree.m_block_index }

/-- `none`: a failure is reported -/
def completeChainstateInitialization (env : RestartEnv G) :
    Except Fault (Option (ChainstateManager G)) :=
  match s.m_chainstates.mapM (s.initChainstate env) with
  | none => .ok none
  | some chainstates => do
    let s ← ({ s with toBlockTree := env.tree, m_chainstates := chainstates }).maybeRebalanceCaches
      env.rebalance
    pure (some s)

/-- the chainstate stands at its target, which must lie on its way -/
def reachedTarget (cs : Chainstate G) : Except Fault Bool :=
  match cs.m_target_blockhash with
  | none => .ok false
  | some target =>
    match s.m_block_index.lookupBlockIndex target with
    | none => .ok false
    | some _ =>
      if cs.tip.any (fun t => s.m_block_index.getAncestor target (s.m_block_index.nHeight t) ≠ some t)
      then .error (.assertion "target_block->GetAncestor(m_chain.Height()) == m_chain.Tip()")
      else .ok (decide (cs.tip = some target))

def handleInvalidSnapshot (validated unvalidated : Nat) : ChainstateManager G :=
  { ((s.modify validated fun cs => { cs with m_target_blockhash := none }).modify unvalidated
      fun cs => { cs with m_assumeutxo := .INVALID, m_coins_views := none }) with
    snapshotDir := none }

end

/-- the two chainstates fit together, apart from how far the validated one has come -/
def canValidate (validated unvalidated : Chainstate G) : Bool :=
  decide (unvalidated.m_assumeutxo = .UNVALIDATED) && unvalidated.m_from_snapshot_blockhash.isSome &&
    decide (validated.m_assumeutxo = .VALIDATED) && validated.tip.isSome &&
    validated.m_target_blockhash.isSome &&
    decide (validated.m_target_blockhash = unvalidated.m_from_snapshot_blockhash)

section
variable (s : ChainstateManager G) (env : RestartEnv G)

/-- the coins of the validated chainstate against the hash of the parameters -/
def compareSnapshot (validated unvalidated : Nat)
    (height : Nat) (views : CoinsState G) :
    Except Fault (SnapshotCompletionResult × ChainstateManager G) :=
  match P.assumeutxoForHeight height with
  | none => .ok (.MISSING_CHAINPARAMS, s.handleInvalidSnapshot validated unvalidated)
  | some au_data =>
    if env.hashInterrupt then .ok (.STATS_FAILED, s)
    else
      match computeUTXOStats M .HASH_SERIALIZED (.db views.coinsDB)
          (fun h => (s.m_block_index.lookupBlockIndex h).isSome) with
      | none => .ok (.STATS_FAILED, s.handleInvalidSnapshot validated unvalidated)
      | some stats =>
        if stats.hashSerialized ≠ au_data.hash_serialized then
          .ok (.HASH_MISMATCH, s.handleInvalidSnapshot validated unvalidated)
        else do
          let s ← ((s.modify unvalidated fun cs => { cs with m_assumeutxo := .VALIDATED }).modify
            validated fun cs =>
              { cs with m_target_utxohash := some stats.hashSerialized }).maybeRebalanceCaches
            env.rebalance
          pure (.SUCCESS, s)

def maybeValidateSnapshot (validated unvalidated : Chainstate G) :
    Except Fault (SnapshotCompletionResult × ChainstateManager G) :=
  if !canValidate validated unvalidated then .ok (.SKIPPED, s)
  else
    match s.reachedTarget validated with
    | .error f => .error f
    | .ok false => .ok (.SKIPPED, s)
    | .ok true =>
      match validated.m_coins_views with
      | none => .error (.assertion "m_coins_views")
      | some views =>
        match views.flushStateToDisk .FORCE_FLUSH env.flush with
        | .error f => .error f
        | .ok (_, views) =>
          (s.modify validated.id fun cs => { cs with m_coins_views := some views }).compareSnapshot
            M P env validated.id unvalidated.id (s.heightOr0 validated.tip) views

abbrev Loaded (G : Type) := ChainstateLoadStatus × ChainstateManager G

/-- a validated snapshot moves to the place of the old chainstate, and all is loaded again -/
def adoptSnapshot : Except Fault (Loaded G) :=
  let s := { s with
    m_chainstates := [Chainstate.new s.nextId (some ⟨0⟩) none]
    nextId := s.nextId + 1
    snapshotDir := none }
  match s.completeChainstateInitialization env with
  | .error f => .error f
  | .ok none => .ok (.FAILURE, s)
  | .ok (some s) => .ok (.SUCCESS, s)

/-- the snapshot is validated, if the old chainstate got that far -/
def validateLoaded (validated assumeutxo : Chainstate G) : Except Fault (Loaded G) :=
  match s.maybeValidateSnapshot M P env validated assumeutxo with
  | .error f => .error f
  | .ok (.SKIPPED, s) => .ok (.SUCCESS, s)
  | .ok (.SUCCESS, s) => s.adoptSnapshot env
  | .ok (_, s) => .ok (.FAILURE_FATAL, s)

/-- the old chainstate is discarded, and the snapshot counts as validated -/
def discardValidated (validated assumeutxo : Nat) : Except Fault (Loaded G) :=
  match (s.modify validated fun cs => { cs with m_coins_views := none }).deleteChainstate validated
      env.historicalRemoved none with
  | .error f => .error f
  | .ok (false, s) => .ok (.FAILURE_FATAL, s)
  | .ok (true, s) =>
    .ok (.SUCCESS, s.modify assumeutxo fun cs => { cs with m_assumeutxo := .VALIDATED })

/-- a snapshot whose base the parameters do not know could never be validated -/
def settleSnapshot (validated assumeutxo : Chainstate G) : Except Fault (Loaded G) :=
  match assumeutxo.m_from_snapshot_blockhash with
  | none => s.validateLoaded M P env validated assumeutxo
  | some hash =>
    match s.m_block_index.lookupBlockIndex hash with
    | none => .error (.assertion "LookupBlockIndex(*m_from_snapshot_blockhash)")
    | some base =>
      if (P.assumeutxoForHeight base.nHeight).isNone then
        s.discardValidated env validated.id assumeutxo.id
      else s.validateLoaded M P env validated assumeutxo

/-- the initialisation and what follows; `assumeutxo`: the chainstate of a snapshot, if one is
loaded -/
def finishLoad (validated : Nat) (assumeutxo : Option Nat) : Except Fault (Loaded G) :=
  match s.completeChainstateInitialization env with
  | .error f => .error f
  | .ok none => .ok (.FAILURE, s)
  | .ok (some s) =>
    match s.find validated, assumeutxo.bind s.find with
    | some v, some a => s.settleSnapshot M P env v a
    | _, _ => .ok (.SUCCESS, s)

/-- a snapshot that was found is dropped when the databases are wiped -/
def loadSnapshotChainstate (validated : Nat) (assumeutxo : Option Nat) : Except Fault (Loaded G) :=
  match assumeutxo, env.wipe_chainstate_db with
  | some id, true =>
    match (s.modify validated fun cs => { cs with m_target_blockhash := none }).deleteChainstate id
        env.snapshotRemoved env.dirLeft with
    | .error f => .error f
    | .ok (false, s) => .ok (.FAILURE_FATAL, s)
    | .ok (true, s) => s.finishLoad M P env validated none
  | _, _ => s.finishLoad M P env validated assumeutxo

/-- a new manager over the directories that are there; its mempool is empty -/
def loadChainstate :
    Except Fault (Loaded G) := do
  let validated := s.nextId
  let (assumeutxo, s) ← loadAssumeutxoChainstate
    { s with
      m_chainstates := [Chainstate.new validated (some ⟨0⟩) none]
      nextId := validated + 1 }
  s.loadSnapshotChainstate M P env validated assumeutxo

end

end

end

end ChainstateManager

end ElektronNet
