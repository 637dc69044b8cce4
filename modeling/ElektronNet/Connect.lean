import ElektronNet.Attestation
import ElektronNet.BlockIndex
import ElektronNet.CoinsState
import ElektronNet.Subsidy
import ElektronNet.TxVerify

/-!
# Connecting and disconnecting a block

`CheckBlock`, `ConnectBlock`, `DisconnectBlock`, `ConnectTip` and `DisconnectTip` of
`validation.cpp`, with what they do to the coins, the accumulator and the undo records.

* `connectTxs`        the transaction loop: check, count, then `UpdateCoins`
* `connectBlock`      on a cache over `CoinsTip`; the accumulator moves only when the block is
                      valid, is not a dry run and its undo record is written
* `undoTxs`           the transactions backwards: outputs are spent, inputs are put back
* `disconnectBlock`   the accumulator moves with every coin that is spent or put back
* `connectTip`, `disconnectTip`   the cache is flushed into `CoinsTip`, and that to disk if needed

The verdicts of the header, script, signature and lock time checks are parameters (`BlockRules`).
An undo record is named by its block; one that cannot be read is one that is not there.  Left out
are the members `fChecked` and `m_checked_merkle_root` that remember a passed check, the mempool,
the notifications and the validity level that `ConnectBlock` raises; what `MaybeValidateSnapshot`
does to these coins at the end of `ConnectTip` is a flush.
-/

namespace ElektronNet

def MAX_BLOCK_SIGOPS_COST : Nat := 80000
def BIP34_IMPLIES_BIP30_LIMIT : Nat := 1983702

/-- `MAX_BLOCK_WEIGHT / MIN_TRANSACTION_OUTPUT_WEIGHT`; an empty `CTxOut` has nine bytes -/
def MAX_OUTPUTS_PER_BLOCK : Nat := MAX_BLOCK_WEIGHT / (WITNESS_SCALE_FACTOR * 9)

/-! ## data -/

structure CBlockUndo where
  vtxundo : List CTxUndo
deriving DecidableEq

abbrev UndoStore := FMap Uint256 CBlockUndo

/-- what is read of the `CBlockIndex` of a block; in a dry run that is a dummy -/
structure BlockPlace where
  hash : Uint256
  pprev : Option Uint256
  nHeight : Nat
deriving DecidableEq

def BlockMap.place (m : BlockMap) (hash : Uint256) : Option BlockPlace :=
  (m.lookupBlockIndex hash).map fun e => ⟨hash, e.pprev, e.nHeight⟩

/-- the verdicts of the code around `ConnectBlock`, and the parameters of the network -/
structure BlockRules where
  params : ConsensusParams
  hashGenesisBlock : Uint256
  BIP34Height : Nat
  BIP34Hash : Uint256
  /-- `CheckBlockHeader`, and the signet solution where there is one; the flag is `fCheckPOW` -/
  checkBlockHeader : CBlock → Bool → Option Invalid
  /-- the second result of `BlockMerkleRoot` -/
  merkleMutated : CBlock → Bool
  getLegacySigOpCount : CTransaction → Nat
  /-- the p2sh and witness part of `GetTransactionSigOpCost` -/
  inputSigOpCost : BlockPlace → CTransaction → List Coin → Nat
  /-- `SequenceLocks` for the heights of the spent coins -/
  sequenceLocks : BlockPlace → CTransaction → List Nat → Bool
  fScriptChecks : BlockPlace → Bool
  checkInputScripts : BlockPlace → CTransaction → List Coin → Option Invalid
  /-- what the script check queue has found at its end -/
  queuedScripts : BlockPlace → CBlock → Option Invalid

/-- the state after a block was checked: valid, invalid, or a fatal error -/
inductive BlockVerdict where
  | valid
  | invalid (e : Invalid)
  | error (what : String)
deriving DecidableEq

/-! ## CheckBlock -/

section
variable (H : Hashes) (rules : BlockRules)

def CBlock.sizeNoWitness (block : CBlock) : Nat :=
  80 + getSizeOfCompactSize block.vtx.length + (block.vtx.map CTransaction.sizeNoWitness).sum

def checkMerkleRoot (block : CBlock) : Option Invalid :=
  if block.hashMerkleRoot ≠ H.blockMerkleRoot block then
    some ⟨"bad-txnmrklroot", "hashMerkleRoot mismatch"⟩
  else if rules.merkleMutated block then some ⟨"bad-txns-duplicate", "duplicate transaction"⟩
  else none

def checkTransactions : List CTransaction → Except Invalid Unit
  | [] => .ok ()
  | tx :: txs =>
    match checkTransaction tx with
    | .error e =>
      .error ⟨e.reason,
        "Transaction check failed (tx hash " ++ (H.txid tx).toString ++ ") " ++ e.debug⟩
    | .ok _ => checkTransactions txs

/-- the checks of `CheckBlock` behind the merkle root -/
def checkContents (block : CBlock) : Except Invalid Unit :=
  match block.vtx with
  | [] => .error ⟨"bad-blk-length", "size limits failed"⟩
  | coinbase :: txs =>
    if block.vtx.length * WITNESS_SCALE_FACTOR > MAX_BLOCK_WEIGHT ∨
        block.sizeNoWitness * WITNESS_SCALE_FACTOR > MAX_BLOCK_WEIGHT then
      .error ⟨"bad-blk-length", "size limits failed"⟩
    else if !coinbase.isCoinBase then .error ⟨"bad-cb-missing", "first tx is not coinbase"⟩
    else if txs.any CTransaction.isCoinBase then
      .error ⟨"bad-cb-multiple", "more than one coinbase"⟩
    else
      match checkTransactions H block.vtx with
      | .error e => .error e
      | .ok _ =>
        if (block.vtx.map rules.getLegacySigOpCount).sum * WITNESS_SCALE_FACTOR >
            MAX_BLOCK_SIGOPS_COST then
          .error ⟨"bad-blk-sigops", "out-of-bounds SigOpCount"⟩
        else .ok ()

/-- `CheckBlock`; the flag of a failure says `BLOCK_MUTATED` -/
def checkBlock (block : CBlock) (fCheckPOW fCheckMerkleRoot : Bool) : Except (Bool × Invalid) Unit :=
  match rules.checkBlockHeader block fCheckPOW with
  | some e => .error (false, e)
  | none =>
    match (if fCheckMerkleRoot then checkMerkleRoot H rules block else none) with
    | some e => .error (true, e)
    | none =>
      match checkContents H rules block with
      | .error e => .error (false, e)
      | .ok _ => .ok ()

end

/-! ## ConnectBlock: the transactions -/

def isBIP30Repeat (pos : BlockPlace) : Bool :=
  (pos.nHeight == 91842 && pos.hash.getHex ==
      "00000000000a4d0a398161ffc163c503763b1f4360639393e0e4c8e300e0caec".toList) ||
    (pos.nHeight == 91880 && pos.hash.getHex ==
      "00000000000743f190a18c5577a3c2d2a1f610ae9601ac046a38084ccb7cd721".toList)

/-- the blocks of which `DisconnectBlock` excuses a coinbase that was overwritten -/
def isBIP30Unspendable (pos : BlockPlace) : Bool :=
  (pos.nHeight == 91722 && pos.hash.getHex ==
      "00000000000271a2dc26e7667f8419f2e15416dc6955e5a6c6cdf3f2574dd08e".toList) ||
    (pos.nHeight == 91812 && pos.hash.getHex ==
      "00000000000af0aed4792b1acee3d966af36cf5def14935db8de83d6f9306f2f".toList)

/-- no output of the block may stand at an unspent outpoint -/
def enforceBIP30 (rules : BlockRules) (m : BlockMap) (pos : BlockPlace) (pprev : Uint256) : Bool :=
  (!isBIP30Repeat pos && m.getAncestor pprev rules.BIP34Height != some rules.BIP34Hash) ||
    decide (BIP34_IMPLIES_BIP30_LIMIT ≤ pos.nHeight)

def haveOutputs (txid : Uint256) : Nat → List CTxOut → CCoinsViewCache → Bool × CCoinsViewCache
  | _, [], view => (false, view)
  | o, _ :: outs, view =>
    let r := haveOutputs txid (o + 1) outs (view.fetchCoin ⟨txid, o⟩)
    (view.haveCoin ⟨txid, o⟩ || r.1, r.2)

def haveAnyOutput (H : Hashes) : List CTransaction → CCoinsViewCache → Bool × CCoinsViewCache
  | [], view => (false, view)
  | tx :: txs, view =>
    let r := haveOutputs (H.txid tx) 0 tx.vout view
    let r' := haveAnyOutput H txs r.2
    (r.1 || r'.1, r'.2)

/-- the variables of the transaction loop -/
structure BlockProgress where
  view : CCoinsViewCache
  nFees : CAmount
  nSigOpsCost : Nat
  vtxundo : List CTxUndo

section
variable (H : Hashes) (rules : BlockRules)

/-- the coins that a transaction spends; `CheckTxInputs` has looked them up already -/
def inputCoins (view : CCoinsViewCache) (tx : CTransaction) : List Coin :=
  tx.vin.map fun txin => view.accessCoin txin.prevout

def checkSpends (pos : BlockPlace) (tx : CTransaction) (st : BlockProgress) :
    Except Fault (Option Invalid × BlockProgress) :=
  if tx.isCoinBase then pure (none, st)
  else do
    let r ← checkTxInputs tx st.view pos.nHeight
    match r.1 with
    | .error e =>
      pure (some ⟨e.reason, e.debug ++ " in transaction " ++ (H.txid tx).toString⟩,
        { st with view := r.2 })
    | .ok txfee =>
      let st := { st with view := r.2, nFees := st.nFees + txfee }
      if !moneyRange st.nFees then
        pure (some ⟨"bad-txns-accumulated-fee-outofrange",
          "accumulated fee in the block out of range"⟩, st)
      else if !rules.sequenceLocks pos tx ((inputCoins st.view tx).map (·.nHeight)) then
        pure (some ⟨"bad-txns-nonfinal",
          "contains a non-BIP68-final transaction " ++ (H.txid tx).toString⟩, st)
      else pure (none, st)

def getTransactionSigOpCost (pos : BlockPlace) (tx : CTransaction) (view : CCoinsViewCache) : Nat :=
  rules.getLegacySigOpCount tx * WITNESS_SCALE_FACTOR +
    if tx.isCoinBase then 0 else rules.inputSigOpCost pos tx (inputCoins view tx)

def checkScripts (pos : BlockPlace) (tx : CTransaction) (st : BlockProgress) :
    Option Invalid × BlockProgress :=
  let st := { st with
    nSigOpsCost := st.nSigOpsCost + getTransactionSigOpCost rules pos tx st.view }
  if st.nSigOpsCost > MAX_BLOCK_SIGOPS_COST then (some ⟨"bad-blk-sigops", "too many sigops"⟩, st)
  else if !tx.isCoinBase && rules.fScriptChecks pos then
    (rules.checkInputScripts pos tx (inputCoins st.view tx), st)
  else (none, st)

/-- one round of the loop; only the first transaction leaves no undo record -/
def connectTx (pos : BlockPlace) (i : Nat) (tx : CTransaction) (st : BlockProgress) :
    Except Fault (Option Invalid × BlockProgress) := do
  let r ← checkSpends H rules pos tx st
  match r with
  | (some e, st) => pure (some e, st)
  | (none, st) =>
    match checkScripts rules pos tx st with
    | (some e, st) => pure (some e, st)
    | (none, st) => do
      let u ← updateCoins H tx st.view pos.nHeight
      pure (none, { st with
        view := u.2
        vtxundo := if i = 0 then st.vtxundo else st.vtxundo ++ [u.1] })

def connectTxs (pos : BlockPlace) : Nat → List CTransaction → BlockProgress →
    Except Fault (Option Invalid × BlockProgress)
  | _, [], st => pure (none, st)
  | i, tx :: txs, st => do
    let r ← connectTx H rules pos i tx st
    match r with
    | (some e, st) => pure (some e, st)
    | (none, st) => connectTxs pos (i + 1) txs st

/-- the outputs are looked up first, and one that is unspent ends the loop before it begins -/
def connectTransactions (m : BlockMap) (pos : BlockPlace) (pprev : Uint256) (block : CBlock)
    (view : CCoinsViewCache) : Except Fault (Option Invalid × BlockProgress) :=
  if enforceBIP30 rules m pos pprev then
    match haveAnyOutput H block.vtx view with
    | (true, view) =>
      pure (some ⟨"bad-txns-BIP30", "tried to overwrite transaction"⟩, ⟨view, 0, 0, []⟩)
    | (false, view) => connectTxs H rules pos 0 block.vtx ⟨view, 0, 0, []⟩
  else connectTxs H rules pos 0 block.vtx ⟨view, 0, 0, []⟩

/-- the reward, and the scripts that were queued; an earlier failure stands -/
def checkReward (pos : BlockPlace) (block : CBlock) (r : Option Invalid × BlockProgress) :
    Except Fault (Option Invalid × BlockProgress) :=
  match block.vtx with
  | [] => throw (.assertion "block.vtx[0]")
  | coinbase :: _ => do
    let value_out ← coinbase.getValueOut
    let blockReward := r.2.nFees + getBlockSubsidy pos.nHeight rules.params
    match r.1 with
    | some e => pure (some e, r.2)
    | none =>
      if value_out > blockReward then
        pure (some ⟨"bad-cb-amount", "coinbase pays too much (actual=" ++ toString value_out ++
          " vs limit=" ++ toString blockReward ++ ")"⟩, r.2)
      else pure (rules.queuedScripts pos block, r.2)

end

/-! ## ConnectBlock: the block -/

section
variable {G : Type} [CommGroup G] (M : MuHash G) (H : Hashes) (rules : BlockRules)

/-- what `ConnectBlock` leaves; the base of `view` is `CoinsTip` after the lookups -/
structure Connected (G : Type) where
  verdict : BlockVerdict
  coins : CoinsState G
  view : CCoinsViewCache
  undo : UndoStore

/-- the accumulator after the transactions of a block, with the undo records of all but the first -/
def commitTxs (nHeight : Nat) : List CTransaction → List CTxUndo → UTXOMuHashState G →
    UTXOMuHashState G
  | [], _, acc => acc
  | tx :: txs, vtxundo, acc =>
    if tx.isCoinBase then
      commitTxs nHeight txs vtxundo
        (addAllFrom M (H.txid tx) nHeight true 0 tx.vout acc)
    else
      match vtxundo with
      | [] => acc
      | txundo :: vtxundo =>
        commitTxs nHeight txs vtxundo
          (addAllFrom M (H.txid tx) nHeight false 0 tx.vout (removeAll M tx.vin txundo.vprevout acc))

/-- an undo record that is there already is not written again; `none`: it cannot be written -/
def writeBlockUndo (undo : UndoStore) (hash : Uint256) (blockundo : CBlockUndo) (writable : Bool) :
    Option UndoStore :=
  match undo.get hash with
  | some _ => some undo
  | none => if writable then some (undo.insert hash blockundo) else none

/-- the end of `ConnectBlock`, once all checks have passed -/
def commitBlock (s : CoinsState G) (undo : UndoStore) (block : CBlock) (pos : BlockPlace)
    (view : CCoinsViewCache) (vtxundo : List CTxUndo) (undoWritable fJustCheck update_muhash : Bool) :
    Connected G :=
  if fJustCheck then ⟨.valid, s, view, undo⟩
  else
    match writeBlockUndo undo pos.hash ⟨vtxundo⟩ undoWritable with
    | none => ⟨.error "Failed to write undo data.", s, view, undo⟩
    | some undo =>
      { verdict := .valid
        coins := if update_muhash
          then { s with
            m_utxo_muhash := commitTxs M H pos.nHeight block.vtx vtxundo s.m_utxo_muhash }
          else s
        view := view.setBestBlock pos.hash
        undo := undo }

/-- `ConnectBlock` behind the genesis block -/
def connectContents (s : CoinsState G) (undo : UndoStore) (m : BlockMap) (block : CBlock)
    (pos : BlockPlace) (pprev : Uint256) (view : CCoinsViewCache)
    (undoWritable fJustCheck update_muhash : Bool) : Except Fault (Connected G) := do
  let r ← connectTransactions H rules m pos pprev block view
  let r ← checkReward rules pos block r
  match r with
  | (some e, st) => pure ⟨.invalid e, s, st.view, undo⟩
  | (none, st) => do
    let v ← validateUTXOCheckpoint M H block pos.nHeight st.view.toView
      (fun h => (m.lookupBlockIndex h).isSome) rules.params (some s.m_utxo_muhash)
    let view : CCoinsViewCache := { st.view with base := backend v.2 }
    match v.1 with
    | .error e => pure ⟨.invalid e, s, view, undo⟩
    | .ok _ =>
      pure (commitBlock M H s undo block pos view st.vtxundo undoWritable fJustCheck update_muhash)

/-- `view` is a cache over `CoinsTip` of `s` -/
def connectBlock (s : CoinsState G) (undo : UndoStore) (m : BlockMap) (block : CBlock)
    (pos : BlockPlace) (view : CCoinsViewCache) (undoWritable fJustCheck update_muhash : Bool) :
    Except Fault (Connected G) :=
  if pos.hash ≠ H.blockHash block.toCBlockHeader then
    throw (.assertion "*pindex->phashBlock == block_hash")
  else
    let s := s.ensureUTXOMuHashLoaded M
    match checkBlock H rules block (!fJustCheck) (!fJustCheck) with
    | .error (true, _) =>
      pure ⟨.error "Corrupt block found indicating potential hardware failure.", s, view, undo⟩
    | .error (false, e) => pure ⟨.invalid e, s, view, undo⟩
    | .ok _ =>
      if pos.pprev.getD Uint256.zero ≠ view.getBestBlock then
        throw (.assertion "hashPrevBlock == view.GetBestBlock()")
      else
        let view := view.loadBestBlock
        if pos.hash = rules.hashGenesisBlock then
          pure ⟨.valid, s, if fJustCheck then view else view.setBestBlock pos.hash, undo⟩
        else
          match pos.pprev with
          | none => throw (.assertion "pindex->pprev")
          | some pprev =>
            connectContents M H rules s undo m block pos pprev view undoWritable fJustCheck
              update_muhash

end

/-! ## DisconnectBlock -/

inductive DisconnectResult where
  | DISCONNECT_OK
  | DISCONNECT_UNCLEAN
  | DISCONNECT_FAILED
deriving DecidableEq

/-- some unspent output of a transaction, from the index `n` on -/
def accessByTxid (txid : Uint256) : Nat → Nat → CCoinsViewCache → Coin × CCoinsViewCache
  | 0, _, view => (Coin.empty, view)
  | left + 1, n, view =>
    let alternate := view.accessCoin ⟨txid, n⟩
    let view := view.fetchCoin ⟨txid, n⟩
    if !alternate.isSpent then (alternate, view) else accessByTxid txid left (n + 1) view

/-- old undo records lack the height; another output of the transaction may know it -/
def undoMetadata (undo : Coin) (view : CCoinsViewCache) (txid : Uint256) :
    Option Coin × CCoinsViewCache :=
  if undo.nHeight = 0 then
    let r := accessByTxid txid MAX_OUTPUTS_PER_BLOCK 0 view
    (if !r.1.isSpent then some { undo with nHeight := r.1.nHeight, fCoinBase := r.1.fCoinBase }
      else none, r.2)
  else (some undo, view)

def applyTxInUndo (undo : Coin) (view : CCoinsViewCache) (out : COutPoint) :
    Except Fault (DisconnectResult × CCoinsViewCache) :=
  let fClean := !view.haveCoin out
  match undoMetadata undo (view.fetchCoin out) out.hash with
  | (none, view) => pure (.DISCONNECT_FAILED, view)
  | (some undo, view) => do
    let view ← view.addCoin out undo (!fClean)
    pure (if fClean then .DISCONNECT_OK else .DISCONNECT_UNCLEAN, view)

section
variable {G : Type} [CommGroup G] (M : MuHash G) (H : Hashes)

/-- the variables of `DisconnectBlock` -/
structure Unwind (G : Type) where
  view : CCoinsViewCache
  acc : UTXOMuHashState G
  fClean : Bool

def outputMatches (out : CTxOut) (nHeight : Nat) (is_coinbase : Bool) (spent : Option Coin) : Bool :=
  match spent with
  | none => false
  | some coin => out == coin.out && nHeight == coin.nHeight && is_coinbase == coin.fCoinBase

def undoOutput (pos : BlockPlace) (update_muhash is_coinbase : Bool) (o : COutPoint) (out : CTxOut)
    (st : Unwind G) : Unwind G :=
  let r := st.view.spendCoin o
  { view := r.2
    acc := match r.1 with
      | some coin => if update_muhash then st.acc.removeCoin M o coin else st.acc
      | none => st.acc
    fClean := st.fClean && (outputMatches out pos.nHeight is_coinbase r.1 ||
      (is_coinbase && isBIP30Unspendable pos)) }

def undoOutputs (pos : BlockPlace) (update_muhash is_coinbase : Bool) (txid : Uint256) :
    Nat → List CTxOut → Unwind G → Unwind G
  | _, [], st => st
  | o, out :: outs, st =>
    undoOutputs pos update_muhash is_coinbase txid (o + 1) outs
      (if isUnspendable out.scriptPubKey then st
        else undoOutput M pos update_muhash is_coinbase ⟨txid, o⟩ out st)

/-- the accumulator takes the coin that the view shows after it was put back -/
def restored (update_muhash : Bool) (o : COutPoint) (view : CCoinsViewCache) (res : DisconnectResult)
    (st : Unwind G) : Unwind G where
  view := if update_muhash then view.fetchCoin o else view
  acc := if update_muhash then st.acc.addCoin M o (view.accessCoin o) else st.acc
  fClean := st.fClean && res != .DISCONNECT_UNCLEAN

/-- the inputs of one transaction, last first; `false`: `DISCONNECT_FAILED` -/
def undoInputs (update_muhash : Bool) : List (CTxIn × Coin) → Unwind G → Except Fault (Bool × Unwind G)
  | [], st => pure (true, st)
  | (txin, undo) :: inputs, st => do
    let r ← applyTxInUndo undo st.view txin.prevout
    match r with
    | (.DISCONNECT_FAILED, view) => pure (false, { st with view := view })
    | (res, view) =>
      undoInputs update_muhash inputs (restored M update_muhash txin.prevout view res st)

/-- the first transaction has no undo record -/
def undoTx (pos : BlockPlace) (update_muhash : Bool) (tx : CTransaction) (txundo : Option CTxUndo)
    (st : Unwind G) : Except Fault (Bool × Unwind G) :=
  let st := undoOutputs M pos update_muhash tx.isCoinBase (H.txid tx) 0 tx.vout st
  match txundo with
  | none => pure (true, st)
  | some txundo =>
    if txundo.vprevout.length ≠ tx.vin.length then pure (false, st)
    else undoInputs M update_muhash (tx.vin.zip txundo.vprevout).reverse st

def undoTxs (pos : BlockPlace) (update_muhash : Bool) : List UndoneTx →
    Unwind G → Except Fault (Bool × Unwind G)
  | [], st => pure (true, st)
  | (tx, txundo) :: txs, st => do
    let r ← undoTx M H pos update_muhash tx txundo st
    match r with
    | (false, st) => pure (false, st)
    | (true, st) => undoTxs pos update_muhash txs st

/-- what `DisconnectBlock` leaves -/
structure Disconnected (G : Type) where
  result : DisconnectResult
  coins : CoinsState G
  view : CCoinsViewCache

/-- the transactions of a block with their undo records, last first -/
def unwindOrder (block : CBlock) (blockUndo : CBlockUndo) : List UndoneTx :=
  (block.vtx.zip (none :: blockUndo.vtxundo.map some)).reverse

def finishDisconnect (s : CoinsState G) (pos : BlockPlace) (r : Bool × Unwind G) :
    Except Fault (Disconnected G) :=
  let s := { s with m_utxo_muhash := r.2.acc }
  if !r.1 then pure ⟨.DISCONNECT_FAILED, s, r.2.view⟩
  else
    match pos.pprev with
    | none => throw (.assertion "pindex->pprev")
    | some pprev =>
      pure ⟨if r.2.fClean then .DISCONNECT_OK else .DISCONNECT_UNCLEAN, s,
        r.2.view.setBestBlock pprev⟩

/-- the accumulator is loaded only if it is to follow -/
def loadForUpdate (s : CoinsState G) (update_muhash : Bool) : CoinsState G :=
  if update_muhash then s.ensureUTXOMuHashLoaded M else s

def disconnectBlock (s : CoinsState G) (undo : UndoStore) (block : CBlock) (pos : BlockPlace)
    (view : CCoinsViewCache) (update_muhash : Bool) : Except Fault (Disconnected G) :=
  let s := loadForUpdate M s update_muhash
  match undo.get pos.hash with
  | none => pure ⟨.DISCONNECT_FAILED, s, view⟩
  | some blockUndo =>
    if blockUndo.vtxundo.length + 1 ≠ block.vtx.length then pure ⟨.DISCONNECT_FAILED, s, view⟩
    else do
      let r ← undoTxs M H pos update_muhash (unwindOrder block blockUndo)
        ⟨view, s.m_utxo_muhash, true⟩
      finishDisconnect s pos r

end

/-! ## the tip -/

/-- the coins of a chainstate with its chain and the undo files -/
structure ChainCoins (G : Type) where
  coins : CoinsState G
  tip : Option Uint256
  undo : UndoStore

structure ConnectEnv where
  /-- the undo file can be written -/
  undoWritable : Bool
  /-- the snapshot file of the height is not there and can be opened -/
  snapshotFile : Bool
  snapshotFlush : FlushEnv
  flush : FlushEnv

section
variable {G : Type} [CommGroup G] (M : MuHash G) (H : Hashes) (rules : BlockRules)

/-- what `WriteAutomaticSnapshot` does to the coins; the result of its flush is only logged -/
def writeAutomaticSnapshot (s : CoinsState G) (nHeight : Nat) (env : ConnectEnv) :
    Except Fault (CoinsState G) :=
  if nHeight = 0 ∨ nHeight % rules.params.MandatoryPruneDepth ≠ 0 ∨ env.snapshotFile = false then
    pure s
  else do
    let r ← s.flushStateToDisk .FORCE_SYNC env.snapshotFlush
    pure (if isMuhashAttestationActive nHeight rules.params then r.2.ensureUTXOMuHashLoaded M
      else r.2)

/-- the new tip, once the disk took what it had to -/
def setTip (r : Bool × CoinsState G) (s : ChainCoins G) (tip : Option Uint256) (undo : UndoStore) :
    Bool × ChainCoins G :=
  if r.1 then (true, ⟨r.2, tip, undo⟩) else (false, ⟨r.2, s.tip, undo⟩)

/-- `m_connect_block_view` is a `CoinsViewOverlay` over `CoinsTip` that is empty before and after -/
def connectTip (env : ConnectEnv) (m : BlockMap) (s : ChainCoins G) (pos : BlockPlace)
    (block : CBlock) : Except Fault (Bool × ChainCoins G) :=
  if pos.pprev ≠ s.tip then throw (.assertion "pindexNew->pprev == m_chain.Tip()")
  else do
    let out ← connectBlock M H rules s.coins s.undo m block pos
      ⟨CacheLayer.empty true, s.coins.coinsTip.toView⟩ env.undoWritable false true
    if out.verdict ≠ .valid then
      pure (false, ⟨out.coins.withCoinsTip out.view.base, s.tip, out.undo⟩)
    else do
      let view ← out.view.flush
      let coins ← writeAutomaticSnapshot M rules (out.coins.withCoinsTip view.base) pos.nHeight env
      let r ← coins.flushStateToDisk .IF_NEEDED env.flush
      pure (setTip r s (some pos.hash) out.undo)

/-- `block` is what `ReadBlock` finds for the tip `pos` -/
def disconnectTip (flush : FlushEnv) (s : ChainCoins G) (pos : BlockPlace) (block : Option CBlock) :
    Except Fault (Bool × ChainCoins G) :=
  if s.tip ≠ some pos.hash then throw (.assertion "pindexDelete")
  else
    match pos.pprev, block with
    | none, _ => throw (.assertion "pindexDelete->pprev")
    | some _, none => pure (false, s)
    | some pprev, some block =>
      let view := CCoinsViewCache.new s.coins.coinsTip.toView
      if view.getBestBlock ≠ pos.hash then
        throw (.assertion "view.GetBestBlock() == pindexDelete->GetBlockHash()")
      else do
        let out ← disconnectBlock M H s.coins s.undo block pos view.loadBestBlock true
        if out.result ≠ .DISCONNECT_OK then
          pure (false, { s with coins := out.coins.withCoinsTip out.view.base })
        else do
          let view ← out.view.flush
          let r ← (out.coins.withCoinsTip view.base).flushStateToDisk .IF_NEEDED flush
          pure (setTip r s (some pprev) s.undo)

end

end ElektronNet
