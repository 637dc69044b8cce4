import ElektronNet.Lib.First
import ElektronNet.ChainSelection
import ElektronNet.CoinsState
import ElektronNet.SnapshotLoad

/-!
# Chainstates and the activation of a snapshot

`ChainstateManager` of `validation.h` and `validation.cpp`: the list of chainstates with the roles
that are read off it, the sizes of the coin caches, and `ActivateSnapshot`.

* `currentChainstate`, `historicalChainstate`, `validatedChainstate`   the roles
* `addChainstate`        a new chainstate takes over from the current one, with its mempool
* `activateSnapshot`     the checks, the new chainstate, `PopulateAndValidateSnapshot`, and either
                         the registration or the cleanup
* `Atomic`               what a failed call may not touch

A pointer to a chainstate is its `id`.  A chainstate that is looked up and changed is put back
where it stood (`setCurrent`, `setHistorical`).  `ActivationEnv` answers for memory, time and
disk; `cs_main` is released while the coins are read, and nothing else happens then.  The shares
of the caches are computed in whole numbers.
-/

set_option linter.unusedSectionVars false

namespace ElektronNet

structure CTxMemPool where
  size : Nat
deriving DecidableEq

structure Chainstate (G : Type) extends ChainstateCore where
  id : Nat
  m_mempool : Option CTxMemPool
  m_coins_views : Option (CoinsState G)
  m_coinsdb_cache_size_bytes : Nat
  m_coinstip_cache_size_bytes : Nat

/-- the directory `chainstate_snapshot` -/
structure SnapshotDir (G : Type) where
  /-- the file with the base block, if it is there -/
  base_blockhash : Option Uint256
  coinsDB : CCoinsViewDB
  muhashRecord : Option (UTXOMuHashState G × Uint256)

def SnapshotDir.empty {G : Type} : SnapshotDir G := ⟨none, CCoinsViewDB.empty, none⟩

structure ChainstateManager (G : Type) extends BlockTree where
  m_chainstates : List (Chainstate G)
  m_total_coinstip_cache : Nat
  m_total_coinsdb_cache : Nat
  m_snapshot_height : Option Nat
  snapshotDir : Option (SnapshotDir G)
  /-- the `id` of the next chainstate -/
  nextId : Nat

/-! ## one chainstate -/

namespace Chainstate

section
variable {G : Type} [CommGroup G]

def new (id : Nat) (mempool : Option CTxMemPool) (from_snapshot_blockhash : Option Uint256) :
    Chainstate G where
  m_from_snapshot_blockhash := from_snapshot_blockhash
  m_assumeutxo := if from_snapshot_blockhash.isSome then .UNVALIDATED else .VALIDATED
  m_target_blockhash := none
  m_target_utxohash := none
  tip := none
  setBlockIndexCandidates := []
  id := id
  m_mempool := mempool
  m_coins_views := none
  m_coinsdb_cache_size_bytes := 0
  m_coinstip_cache_size_bytes := 0

def isCurrent (cs : Chainstate G) : Bool :=
  decide (cs.m_assumeutxo ≠ .INVALID) && cs.m_target_blockhash.isNone

def isHistorical (cs : Chainstate G) : Bool :=
  decide (cs.m_assumeutxo ≠ .INVALID) && cs.m_target_blockhash.isSome && cs.m_target_utxohash.isNone

def isValidated (cs : Chainstate G) : Bool := decide (cs.m_assumeutxo = .VALIDATED)

/-- a grown cache is flushed only if it has to be -/
def resizeCoinsCaches (cs : Chainstate G) (coinstip_size coinsdb_size : Nat) (env : FlushEnv) :
    Except Fault (Chainstate G) :=
  if coinstip_size = cs.m_coinstip_cache_size_bytes ∧
      coinsdb_size = cs.m_coinsdb_cache_size_bytes then .ok cs
  else
    match cs.m_coins_views with
    | none => .error (.assertion "m_coins_views")
    | some views =>
      match views.flushStateToDisk
          (if coinstip_size > cs.m_coinstip_cache_size_bytes then .IF_NEEDED else .FORCE_FLUSH)
          env with
      | .error f => .error f
      | .ok (_, views) => .ok
        { cs with
          m_coinstip_cache_size_bytes := coinstip_size
          m_coinsdb_cache_size_bytes := coinsdb_size
          m_coins_views := some views }

end

end Chainstate

def percent (p size : Nat) : Nat := size * p / 100

/-- one call of `MaybeRebalanceCaches` -/
structure RebalanceEnv where
  isInitialBlockDownload : Bool
  current : FlushEnv
  historical : FlushEnv

structure ActivationEnv (G : Type) where
  load : LoadEnv
  /-- of the flush that makes room for the new caches -/
  resize : FlushEnv
  /-- of the rebalancing at the end, after a failure and after a success -/
  rebalance : RebalanceEnv
  /-- `WriteSnapshotBaseBlockhash` succeeds -/
  writeBaseBlockhash : Bool
  /-- what is left of the snapshot directory after its removal -/
  dirLeft : Option (SnapshotDir G)

namespace ChainstateManager

section
variable {G : Type} [CommGroup G]

/-! ## roles -/

section
variable (s : ChainstateManager G)

/-- `none`: the node aborts -/
def currentChainstate : Option (Chainstate G) :=
  s.m_chainstates.find? Chainstate.isCurrent

def historicalChainstate : Option (Chainstate G) :=
  s.m_chainstates.find? Chainstate.isHistorical

/-- `none`: the node aborts -/
def validatedChainstate : Option (Chainstate G) :=
  (s.currentChainstate.filter Chainstate.isValidated).or
    (s.historicalChainstate.filter Chainstate.isValidated)

def noCurrentChainstate : Fault := .assertion "CurrentChainstate()"

def setCurrent (cs : Chainstate G) : ChainstateManager G :=
  { s with m_chainstates := First.replace Chainstate.isCurrent cs s.m_chainstates }

def setHistorical (cs : Chainstate G) : ChainstateManager G :=
  { s with m_chainstates := First.replace Chainstate.isHistorical cs s.m_chainstates }

def activeTip : Option Uint256 := s.currentChainstate.bind (·.tip)

/-- the chainstate is appended and must be the current one then; the mempools are swapped -/
def addChainstate (chainstate : Chainstate G) : Except Fault (ChainstateManager G) :=
  match s.currentChainstate with
  | none => .error noCurrentChainstate
  | some prev =>
    if prev.m_assumeutxo ≠ .VALIDATED then
      .error (.assertion "prev_chainstate.m_assumeutxo == Assumeutxo::VALIDATED")
    else if prev.m_target_blockhash.isSome then
      .error (.assertion "!prev_chainstate.m_target_blockhash")
    else
      let prev' := { prev with m_target_blockhash := chainstate.m_from_snapshot_blockhash }
      match ((s.setCurrent prev').m_chainstates ++ [chainstate]).find? Chainstate.isCurrent with
      | none => .error noCurrentChainstate
      | some curr =>
        if curr.id ≠ chainstate.id then
          .error (.assertion "&curr_chainstate == m_chainstates.back().get()")
        else if prev.m_mempool.any (fun mempool => mempool.size ≠ 0) then
          .error (.assertion
            "!prev_chainstate.m_mempool || prev_chainstate.m_mempool->size() == 0")
        else if curr.m_mempool.isSome then .error (.assertion "!curr_chainstate.m_mempool")
        else
          let s := s.setCurrent { prev' with m_mempool := none }
          .ok { s with
            m_chainstates := s.m_chainstates ++ [{ chainstate with m_mempool := prev.m_mempool }] }

def removeChainstate (id : Nat) : ChainstateManager G :=
  { s with m_chainstates := s.m_chainstates.eraseP fun cs => cs.id == id }

/-! ## cache sizes -/

def resizeCurrent (coinstip_size coinsdb_size : Nat) (env : FlushEnv) :
    Except Fault (ChainstateManager G) :=
  match s.currentChainstate with
  | none => .error noCurrentChainstate
  | some cs => do
    let cs ← cs.resizeCoinsCaches coinstip_size coinsdb_size env
    pure (s.setCurrent cs)

def resizeHistorical (coinstip_size coinsdb_size : Nat) (env : FlushEnv) :
    Except Fault (ChainstateManager G) :=
  match s.historicalChainstate with
  | none => .ok s
  | some cs => do
    let cs ← cs.resizeCoinsCaches coinstip_size coinsdb_size env
    pure (s.setHistorical cs)

def maybeRebalanceCaches (env : RebalanceEnv) : Except Fault (ChainstateManager G) :=
  match s.currentChainstate with
  | none => .error noCurrentChainstate
  | some current =>
    let tip := fun p => percent p s.m_total_coinstip_cache
    let db := fun p => percent p s.m_total_coinsdb_cache
    if current.m_coins_views.isNone then .ok s
    else if s.historicalChainstate.isNone then
      s.resizeCurrent s.m_total_coinstip_cache s.m_total_coinsdb_cache env.current
    else if env.isInitialBlockDownload then do
      let s ← s.resizeHistorical (tip 5) (db 5) env.historical
      s.resizeCurrent (tip 95) (db 95) env.current
    else do
      let s ← s.resizeCurrent (tip 5) (db 5) env.current
      s.resizeHistorical (tip 95) (db 95) env.historical

/-! ## activation -/

def joinHeights : List Nat → String
  | [] => ""
  | [h] => toString h
  | h :: hs => toString h ++ ", " ++ joinHeights hs

/-- the mempool that stands in the way -/
def mempoolNotEmpty (cs : Chainstate G) : Bool := cs.m_mempool.any fun mempool => mempool.size > 0

def bestHeaderContains (hash : Uint256) (height : Nat) : Bool :=
  match s.m_best_header with
  | none => false
  | some best => decide (s.m_block_index.getAncestor best height = some hash)

/-- the checks under the first lock, in their order -/
def activationError (P : CChainParams) (current : Chainstate G)
    (base_blockhash : Uint256) (verify_assumeutxo_hash : Bool) : Option String :=
  if current.m_from_snapshot_blockhash.isSome && verify_assumeutxo_hash then
    some "Can't activate a snapshot-based chainstate more than once"
  else if verify_assumeutxo_hash && (P.assumeutxoForBlockhash base_blockhash).isNone then
    some ("assumeutxo block hash in snapshot metadata not recognized (hash: " ++
      base_blockhash.toString ++ "). The following snapshot heights are available: " ++
      joinHeights P.getAvailableSnapshotHeights)
  else
    match s.m_block_index.lookupBlockIndex base_blockhash with
    | none => some ("The base block header (" ++ base_blockhash.toString ++
        ") must appear in the headers chain. Make sure all headers are syncing, " ++
        "and call loadtxoutset again")
    | some start =>
      if start.nStatus.failedValid then
        some ("The base block header (" ++ base_blockhash.toString ++
          ") is part of an invalid chain")
      else if !s.bestHeaderContains base_blockhash start.nHeight then
        some ("A forked headers-chain with more work than the chain with the snapshot base " ++
          "block header exists. Please proceed to sync without AssumeUtxo.")
      else if mempoolNotEmpty current then
        some "Can't activate a snapshot when mempool not empty"
      else none

/-- on replacement the old base loses its count and the old chainstate its views -/
def closeOldSnapshot : ChainstateManager G :=
  match s.currentChainstate with
  | none => s
  | some old =>
    match old.m_from_snapshot_blockhash with
    | none => s
    | some old_base =>
      { s.setCurrent { old with m_coins_views := none } with
        m_block_index := s.m_block_index.modify old_base fun e => { e with m_chain_tx_count := 0 } }

/-- what `InitCoinsDB` finds on disk for the new chainstate -/
def openedDir (in_memory should_wipe : Bool) : SnapshotDir G :=
  if in_memory then SnapshotDir.empty
  else
    match s.snapshotDir with
    | none => SnapshotDir.empty
    | some dir => if should_wipe then { SnapshotDir.empty with base_blockhash := dir.base_blockhash }
      else dir

def openViews (dir : SnapshotDir G) : CoinsState G where
  cache := CacheLayer.empty false
  coinsDB := dir.coinsDB
  m_utxo_muhash := UTXOMuHashState.empty
  m_utxo_muhash_loaded := false
  muhashRecord := dir.muhashRecord

/-- the chainstate after `InitCoinsDB` and `InitCoinsCache` -/
def snapshotChainstate (current : Chainstate G) (base_blockhash : Uint256)
    (dir : SnapshotDir G) : Chainstate G :=
  { (Chainstate.new s.nextId none (some base_blockhash) : Chainstate G) with
    m_coins_views := some (openViews dir)
    m_coinsdb_cache_size_bytes := percent 99 current.m_coinsdb_cache_size_bytes
    m_coinstip_cache_size_bytes := percent 99 current.m_coinstip_cache_size_bytes }

abbrev Activation (G : Type) := Except String Uint256 × ChainstateManager G

def cleanupBadSnapshot (env : ActivationEnv G) (reason : String) :
    Except Fault (Activation G) := do
  let s ← s.maybeRebalanceCaches env.rebalance
  pure (.error reason,
    { s with snapshotDir := if s.snapshotDir.isSome then env.dirLeft else none })

def populateCurrent : ChainstateManager G :=
  match s.currentChainstate with
  | none => s
  | some cs => s.setCurrent
      { cs with toChainstateCore := cs.toChainstateCore.populateBlockIndexCandidates s.m_block_index }

/-- from `AddChainstate` on; `old`: the chainstate that is replaced -/
def registerSnapshot (env : ActivationEnv G) (cs : Chainstate G)
    (base_blockhash : Uint256) (old : Option Nat) :
    Except Fault (Activation G) := do
  let s ← s.addChainstate cs
  let s := { s with
    m_snapshot_height := some (s.m_block_index.nHeight base_blockhash)
    nextId := s.nextId + 1 }
  let s := old.elim s s.removeChainstate
  let s ← s.populateCurrent.maybeRebalanceCaches env.rebalance
  pure (.ok base_blockhash, s)

end

section
variable (M : MuHash G) (codec : CoinCodec) (P : CChainParams) (env : ActivationEnv G)

/-- after `PopulateAndValidateSnapshot` accepted the coins -/
def finishActivation (s : ChainstateManager G) (cs : Chainstate G) (dir : SnapshotDir G)
    (base_blockhash : Uint256) (in_memory : Bool) (old : Option Nat) :
    Except Fault (Activation G) :=
  if !s.activeTip.any (fun t => s.m_block_index.before t base_blockhash) then
    s.cleanupBadSnapshot env "work does not exceed active chainstate"
  else if !in_memory && !env.writeBaseBlockhash then
    s.cleanupBadSnapshot env "could not write base blockhash"
  else
    registerSnapshot
      { s with snapshotDir := if in_memory then s.snapshotDir
          else some { dir with base_blockhash := some base_blockhash } }
      env cs base_blockhash old

/-- the new chainstate is filled, and registered or thrown away -/
def populateSnapshot (s : ChainstateManager G) (current : Chainstate G) (coins_file : Bytes)
    (metadata : SnapshotMetadata) (in_memory verify_assumeutxo_hash : Bool)
    (expected_utxo_hash : Option Uint256) :
    Except Fault (Activation G) :=
  let replacing_snapshot := current.m_from_snapshot_blockhash.isSome
  let dir := s.openedDir in_memory replacing_snapshot
  let cs := s.snapshotChainstate current metadata.m_base_blockhash dir
  let s := { s with snapshotDir := if in_memory then s.snapshotDir else some dir }
  match populateAndValidateSnapshot M codec P env.load s.m_block_index s.activeTip
      (openViews dir).coinsTip coins_file metadata verify_assumeutxo_hash expected_utxo_hash with
  | .error (.inl f) => .error f
  | .error (.inr reason) => s.cleanupBadSnapshot env ("Population failed: " ++ reason)
  | .ok populated =>
    finishActivation env { s with m_block_index := populated.m_block_index }
      { cs with
        tip := some metadata.m_base_blockhash
        m_coins_views := some ((openViews dir).withCoinsTip populated.coins_cache.toView) }
      dir metadata.m_base_blockhash in_memory (if replacing_snapshot then some current.id else none)

def activateSnapshot (s : ChainstateManager G) (coins_file : Bytes) (metadata : SnapshotMetadata)
    (in_memory verify_assumeutxo_hash : Bool) (expected_utxo_hash : Option Uint256) :
    Except Fault (Activation G) :=
  match s.currentChainstate with
  | none => .error noCurrentChainstate
  | some current =>
    match s.activationError P current metadata.m_base_blockhash verify_assumeutxo_hash with
    | some reason => .ok (.error reason, s)
    | none => do
      let s ← s.resizeCurrent (percent 1 current.m_coinstip_cache_size_bytes)
        (percent 1 current.m_coinsdb_cache_size_bytes) env.resize
      populateSnapshot M codec P env s.closeOldSnapshot current coins_file metadata in_memory
        verify_assumeutxo_hash expected_utxo_hash

end

end

end ChainstateManager

/-! ## resizing keeps the roles -/

section
variable {G : Type} [CommGroup G]

/-- a chainstate whose caches were resized, perhaps with a flush -/
structure Chainstate.Resized (cs cs' : Chainstate G) : Prop where
  core : cs'.toChainstateCore = cs.toChainstateCore
  id : cs'.id = cs.id
  mempool : cs'.m_mempool = cs.m_mempool
  closed : cs.m_coins_views = none → cs'.m_coins_views = none
  views : ∀ c, cs.m_coins_views = some c → c.coinsTip.Ok →
    ∃ c', cs'.m_coins_views = some c' ∧ CoinsState.Flushed c c'

namespace Chainstate

theorem Resized.refl (cs : Chainstate G) : Resized cs cs :=
  ⟨rfl, rfl, rfl, fun hn => hn, fun c hc hok => ⟨c, hc, CoinsState.Flushed.refl hok⟩⟩

variable {cs cs' : Chainstate G} {coinstip_size coinsdb_size : Nat}

theorem Resized.trans {cs'' : Chainstate G} (h : Resized cs cs') (h' : Resized cs' cs'') :
    Resized cs cs'' := by
  refine ⟨h'.core.trans h.core, h'.id.trans h.id, h'.mempool.trans h.mempool,
    fun hn => h'.closed (h.closed hn), fun c hc hok => ?_⟩
  obtain ⟨c', hc', hf⟩ := h.views c hc hok
  obtain ⟨c'', hc'', hf'⟩ := h'.views c' hc' hf.ok
  exact ⟨c'', hc'', hf.trans hf'⟩

theorem Resized.isCurrent (h : Resized cs cs') : cs'.isCurrent = cs.isCurrent := by
  rw [Chainstate.isCurrent, Chainstate.isCurrent, h.core]

theorem resizeCoinsCaches_spec
    {env : FlushEnv} (h : cs.resizeCoinsCaches coinstip_size coinsdb_size env = .ok cs') :
    Resized cs cs' := by
  unfold resizeCoinsCaches at h
  split at h
  · cases h
    exact Resized.refl cs
  · split at h
    · cases h
    · rename_i views hviews
      split at h
      · cases h
      · rename_i r views' hflush
        cases h
        refine ⟨rfl, rfl, rfl, fun hn => ?_, fun c hc hok => ⟨views', rfl, ?_⟩⟩
        · rw [hviews] at hn
          cases hn
        · obtain rfl : views = c := Option.some.inj (hviews.symm.trans hc)
          exact CoinsState.flushStateToDisk_spec hok hflush

end Chainstate

namespace ChainstateManager

structure Resized (s s' : ChainstateManager G) : Prop where
  tree : s'.toBlockTree = s.toBlockTree
  chainstates : List.Forall₂ Chainstate.Resized s.m_chainstates s'.m_chainstates
  nextId : s'.nextId = s.nextId
  snapshotDir : s'.snapshotDir = s.snapshotDir

theorem Resized.refl (s : ChainstateManager G) : Resized s s :=
  ⟨rfl, List.forall₂_same.mpr fun cs _ => Chainstate.Resized.refl cs, rfl, rfl⟩

variable {s s' : ChainstateManager G}

theorem Resized.trans {s'' : ChainstateManager G} (h : Resized s s') (h' : Resized s' s'') :
    Resized s s'' where
  tree := h'.tree.trans h.tree
  chainstates :=
    First.forall₂_trans (fun _ _ _ hab hbc => hab.trans hbc) h.chainstates h'.chainstates
  nextId := h'.nextId.trans h.nextId
  snapshotDir := h'.snapshotDir.trans h.snapshotDir

theorem Resized.current (h : Resized s s') (hcs : s.currentChainstate = some cs) :
    ∃ cs', s'.currentChainstate = some cs' ∧ Chainstate.Resized cs cs' := by
  obtain ⟨hn, -⟩ | ⟨a, b, ha, hb, hab⟩ :=
    First.find?_forall₂ (fun a b hab => Chainstate.Resized.isCurrent hab) h.chainstates
  · rw [currentChainstate, hn] at hcs
    cases hcs
  · obtain rfl : a = cs := Option.some.inj (ha.symm.trans hcs)
    exact ⟨b, hb, hab⟩

theorem Resized.activeTip (h : Resized s s')
    (hcs : s.currentChainstate = some cs) : s'.activeTip = s.activeTip := by
  obtain ⟨cs', hcs', hr⟩ := h.current hcs
  rw [ChainstateManager.activeTip, ChainstateManager.activeTip, hcs, hcs', Option.bind_some,
    Option.bind_some, hr.core]

theorem resizeCurrent_spec {env : FlushEnv}
    (h : s.resizeCurrent coinstip_size coinsdb_size env = .ok s') : Resized s s' := by
  unfold resizeCurrent at h
  split at h
  · cases h
  · rename_i cs hcs
    obtain ⟨cs', hcs', hs'⟩ := Outcome.bind_eq_ok.mp h
    cases hs'
    exact ⟨rfl, First.forall₂_replace Chainstate.Resized.refl
      (Chainstate.resizeCoinsCaches_spec hcs') hcs, rfl, rfl⟩

theorem resizeHistorical_spec {env : FlushEnv}
    (h : s.resizeHistorical coinstip_size coinsdb_size env = .ok s') : Resized s s' := by
  unfold resizeHistorical at h
  split at h
  · cases h
    exact Resized.refl s
  · rename_i cs hcs
    obtain ⟨cs', hcs', hs'⟩ := Outcome.bind_eq_ok.mp h
    cases hs'
    exact ⟨rfl, First.forall₂_replace Chainstate.Resized.refl
      (Chainstate.resizeCoinsCaches_spec hcs') hcs, rfl, rfl⟩

theorem maybeRebalanceCaches_spec {env : RebalanceEnv} (h : s.maybeRebalanceCaches env = .ok s') :
    Resized s s' := by
  unfold maybeRebalanceCaches at h
  split at h
  · cases h
  · simp only at h
    split at h
    · cases h
      exact Resized.refl s
    · split at h
      · exact resizeCurrent_spec h
      · split at h
        · obtain ⟨s₁, h₁, h₂⟩ := Outcome.bind_eq_ok.mp h
          exact (resizeHistorical_spec h₁).trans (resizeCurrent_spec h₂)
        · obtain ⟨s₁, h₁, h₂⟩ := Outcome.bind_eq_ok.mp h
          exact (resizeCurrent_spec h₁).trans (resizeHistorical_spec h₂)

end ChainstateManager

end

end ElektronNet
