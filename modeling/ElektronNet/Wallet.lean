import ElektronNet.Coins.Refine

/-!
# Filling a wallet from the UTXO set

`CWallet::ScanUTXOSet` and what it calls: `CreditUTXOFromChain`, `AddToWallet`,
`RefreshTXOsFromTx` and `RefreshAllTXOs` of `wallet/wallet.cpp`, with the states of
`wallet/transaction.h`.

A coin does not come with its transaction, so a transaction is made up for it: no inputs, and the
coin's output at its index.  Its id is the hash of what was made up (`creditUTXOFromChain`).

* `CWallet.confirmedUnspent`   what the wallet holds as confirmed and unspent, by outpoint
* `Recovers`                   a scan of the coins leaves exactly the wallet's own ones, and a
                               second scan changes nothing
* `scanUTXOSet_exact_iff`      it does so only where there is nothing to recover

A `WalletTXO` keeps references: here the key of its wallet transaction and the output.  Left out:
times, the marking of reused addresses, metadata and `mempool_conflicts`, which nothing here reads
or sets, and the abandoning of inactive coinbases in `AddToWallet`, since the state handed in here
is always a confirmed one.
-/

namespace ElektronNet

open List Outcome

/-! ## wallet transactions -/

inductive TxState where
  | confirmed (confirmed_block_hash : Uint256) (confirmed_block_height position_in_block : Int)
  | inMempool
  | blockConflicted (conflicting_block_hash : Uint256) (conflicting_block_height : Int)
  | inactive (abandoned : Bool)
  | unrecognized (block_hash : Uint256) (index : Int)
deriving DecidableEq

namespace TxState

def index : TxState → Nat
  | confirmed .. => 0
  | inMempool => 1
  | blockConflicted .. => 2
  | inactive _ => 3
  | unrecognized .. => 4

def serializedBlockHash : TxState → Uint256
  | confirmed hash _ _ => hash
  | inMempool => Uint256.zero
  | blockConflicted hash _ => hash
  | inactive abandoned => if abandoned then Uint256.ofByte 1 else Uint256.zero
  | unrecognized hash _ => hash

def serializedIndex : TxState → Int
  | confirmed _ _ position => position
  | inMempool => 0
  | blockConflicted .. => -1
  | inactive abandoned => if abandoned then -1 else 0
  | unrecognized _ index => index

end TxState

structure CWalletTx where
  tx : CTransaction
  m_state : TxState
  nOrderPos : Int
deriving DecidableEq

structure WalletTXO where
  /-- the key in `mapWallet` of the transaction it refers to -/
  wtx : Uint256
  output : CTxOut
deriving DecidableEq

structure CWallet where
  mapWallet : FMap Uint256 CWalletTx
  m_txos : FMap COutPoint WalletTXO
  mapTxSpends : List (COutPoint × Uint256)
  nOrderPosNext : Int

namespace CWallet

/-- a spender that is neither abandoned nor conflicted -/
def isSpent (w : CWallet) (outpoint : COutPoint) : Bool :=
  w.mapTxSpends.any fun e => e.1 == outpoint &&
    match w.mapWallet.get e.2 with
    | none => false
    | some wtx =>
      match wtx.m_state with
      | .inactive true => false
      | .blockConflicted .. => false
      | _ => true

def confirmedUnspent (w : CWallet) (outpoint : COutPoint) : Option Coin :=
  match w.m_txos.get outpoint with
  | none => none
  | some txo =>
    match w.mapWallet.get txo.wtx with
    | none => none
    | some wtx =>
      match wtx.m_state with
      | .confirmed _ height _ =>
        if w.isSpent outpoint then none else some ⟨txo.output, wtx.tx.isCoinBase, height.toNat⟩
      | _ => none

end CWallet

/-! ## the scan -/

section
variable (H : Hashes) (isMine : CScript → Bool)

/-- the loop of `RefreshTXOsFromTx`, from output `i` on -/
def refreshTXOsFrom (key hash : Uint256) : Nat → List CTxOut → FMap COutPoint WalletTXO →
    FMap COutPoint WalletTXO
  | _, [], m_txos => m_txos
  | i, txout :: vout, m_txos =>
    refreshTXOsFrom key hash (i + 1) vout
      (if isMine txout.scriptPubKey then m_txos.insert ⟨hash, i⟩ ⟨key, txout⟩ else m_txos)

/-- `key` is the place of `wtx` in `mapWallet`; the outpoints are made from the hash it has now -/
def refreshTXOsFromTx (w : CWallet) (key : Uint256) (wtx : CWalletTx) : CWallet :=
  { w with m_txos := refreshTXOsFrom isMine key (H.txid wtx.tx) 0 wtx.tx.vout w.m_txos }

def refreshAllTXOs (w : CWallet) : CWallet :=
  w.mapWallet.toList.foldl (fun w e => refreshTXOsFromTx H isMine w e.1 e.2) w

/-- the state and the update flag of a transaction that is already there -/
def mergeState (old state : TxState) : Except Fault (TxState × Bool) :=
  if state.index ≠ old.index then pure (state, true)
  else if old.serializedIndex ≠ state.serializedIndex then
    throw (.assertion "TxStateSerializedIndex(wtx.m_state) == TxStateSerializedIndex(state)")
  else if old.serializedBlockHash ≠ state.serializedBlockHash then
    throw (.assertion "TxStateSerializedBlockHash(wtx.m_state) == TxStateSerializedBlockHash(state)")
  else pure (old, false)

/-- a version with a witness replaces one without -/
def mergeTx (old tx : CTransaction) : CTransaction × Bool :=
  if tx.hasWitness && !old.hasWitness then (tx, true) else (old, false)

/-- true: a wallet transaction is returned; false: `WriteTx` failed -/
def addToWallet (writeTx : CWalletTx → Bool) (w : CWallet) (tx : CTransaction) (state : TxState) :
    Except Fault (Bool × CWallet) :=
  let hash := H.txid tx
  match w.mapWallet.get hash with
  | none =>
    let wtx : CWalletTx := ⟨tx, state, w.nOrderPosNext⟩
    let w : CWallet :=
      { w with
        mapWallet := w.mapWallet.insert hash wtx
        nOrderPosNext := w.nOrderPosNext + 1
        mapTxSpends := w.mapTxSpends ++
          if tx.isCoinBase then [] else tx.vin.map fun txin => (txin.prevout, hash) }
    if writeTx wtx then pure (true, refreshTXOsFromTx H isMine w hash wtx) else pure (false, w)
  | some wtx => do
    let r ← mergeState wtx.m_state state
    let t := mergeTx wtx.tx tx
    let wtx : CWalletTx := { wtx with m_state := r.1, tx := t.1 }
    let w : CWallet := { w with mapWallet := w.mapWallet.insert hash wtx }
    if (r.2 || t.2) && !writeTx wtx then pure (false, w)
    else pure (true, refreshTXOsFromTx H isMine w hash wtx)

/-- `vout.resize(n + 1)` if it is shorter, then `vout[n] = out` -/
def placeOutput (vout : List CTxOut) (n : Nat) (out : CTxOut) : List CTxOut :=
  (vout ++ List.replicate (n + 1 - vout.length) CTxOut.null).set n out

/-- `getBlockHash h` is the hash of block `h` of the active chain -/
def creditUTXOFromChain (getBlockHash : Nat → Option Uint256) (writeTx : CWalletTx → Bool)
    (w : CWallet) (outpoint : COutPoint) (coin : Coin) : Except Fault (Bool × CWallet) :=
  if !isMine coin.out.scriptPubKey then pure (false, w)
  else
    match getBlockHash coin.nHeight with
    | none => throw (.assertion "chainman().ActiveChain()[height]")
    | some block_hash =>
      let state := TxState.confirmed block_hash coin.nHeight (-1)
      match w.mapWallet.get outpoint.hash with
      | some wtx =>
        let wtx : CWalletTx :=
          { wtx with
            tx := { wtx.tx with vout := placeOutput wtx.tx.vout outpoint.n coin.out }
            m_state := state }
        pure (true, refreshTXOsFromTx H isMine
          { w with mapWallet := w.mapWallet.insert outpoint.hash wtx } outpoint.hash wtx)
      | none =>
        addToWallet H isMine writeTx w
          ⟨[], placeOutput [] outpoint.n coin.out, CTransaction.CURRENT_VERSION, 0⟩ state

/-- the callback over the coins; it asks for the next one unless a shutdown is requested -/
def creditAll (getBlockHash : Nat → Option Uint256) (writeTx : CWalletTx → Bool)
    (shutdownRequested : Bool) : List CoinEntry → CWallet → Except Fault CWallet
  | [], w => pure w
  | (outpoint, coin) :: coins, w => do
    let r ← creditUTXOFromChain H isMine getBlockHash writeTx w outpoint coin
    if shutdownRequested then pure r.2
    else creditAll getBlockHash writeTx shutdownRequested coins r.2

/-- `U` are the coins that the active chainstate shows -/
def scanUTXOSet (haveChain : Bool) (getBlockHash : Nat → Option Uint256) (writeTx : CWalletTx → Bool)
    (shutdownRequested : Bool) (U : Utxos) (w : CWallet) : Except Fault (Except String Unit × CWallet) :=
  if !haveChain then pure (.error "No chain connection", w)
  else do
    let w ← creditAll H isMine getBlockHash writeTx shutdownRequested U.toList w
    pure (.ok (), refreshAllTXOs H isMine w)

end

/-! ## what a scan leaves -/

section
variable {H : Hashes} {isMine : CScript → Bool} {getBlockHash : Nat → Option Uint256}
  {writeTx : CWalletTx → Bool}

/-- the transaction that is made up for a coin -/
def madeUpTx (outpoint : COutPoint) (coin : Coin) : CTransaction :=
  ⟨[], placeOutput [] outpoint.n coin.out, CTransaction.CURRENT_VERSION, 0⟩

/-- a wallet of made-up transactions, all from `T`: every key and every outpoint carries the id of one -/
structure MadeUp (H : Hashes) (T : CTransaction → Prop) (w : CWallet) : Prop where
  made : ∀ key wtx, w.mapWallet.get key = some wtx → T wtx.tx ∧ ∃ tx, T tx ∧ key = H.txid tx
  txos : ∀ o txo, w.m_txos.get o = some txo → ∃ tx, T tx ∧ o.hash = H.txid tx

variable {T : CTransaction → Prop} {key : Uint256} {w w' : CWallet}

theorem refreshTXOsFrom_txos {tx : CTransaction} (htx : T tx) {i : Nat} {vout : List CTxOut}
    {m_txos : FMap COutPoint WalletTXO}
    (h : ∀ o txo, m_txos.get o = some txo → ∃ tx, T tx ∧ o.hash = H.txid tx) :
    ∀ o txo, (refreshTXOsFrom isMine key (H.txid tx) i vout m_txos).get o = some txo →
      ∃ tx, T tx ∧ o.hash = H.txid tx := by
  induction vout generalizing i m_txos with
  | nil => exact h
  | cons txout vout ih =>
    apply ih
    intro o txo ho
    split at ho
    · rw [FMap.insert_get] at ho
      split at ho
      · rename_i he
        exact ⟨tx, htx, by rw [he]⟩
      · exact h o txo ho
    · exact h o txo ho

theorem MadeUp.refreshTXOsFromTx (h : MadeUp H T w) {wtx : CWalletTx} (htx : T wtx.tx) :
    MadeUp H T (refreshTXOsFromTx H isMine w key wtx) :=
  ⟨h.made, refreshTXOsFrom_txos htx h.txos⟩

theorem MadeUp.insert (h : MadeUp H T w) (wtx : CWalletTx) (htx : T wtx.tx) {tx : CTransaction} (hkey : T tx)
    (hmap : w'.mapWallet = w.mapWallet.insert (H.txid tx) wtx) (htxos : w'.m_txos = w.m_txos) :
    MadeUp H T w' := by
  refine ⟨fun k wtx' hk => ?_, fun o txo ho => h.txos o txo (htxos ▸ ho)⟩
  rw [hmap, FMap.insert_get] at hk
  split at hk
  · rename_i hkey'
    cases hk
    exact ⟨htx, tx, hkey, hkey'⟩
  · exact h.made k wtx' hk

theorem mergeTx_made {old tx : CTransaction} (hold : T old) (htx : T tx) : T (mergeTx old tx).1 := by
  unfold mergeTx
  split
  · exact htx
  · exact hold

theorem MadeUp.addToWallet (h : MadeUp H T w) {tx : CTransaction} (htx : T tx)
    {state : TxState} {r : Bool} (hadd : addToWallet H isMine writeTx w tx state = .ok (r, w')) :
    MadeUp H T w' := by
  unfold ElektronNet.addToWallet at hadd
  simp only at hadd
  cases hg : w.mapWallet.get (H.txid tx) with
  | none =>
    rw [hg] at hadd
    simp only at hadd
    split at hadd
    · obtain ⟨-, rfl⟩ := Prod.mk.inj (pure_eq_ok.mp hadd)
      refine MadeUp.refreshTXOsFromTx ?_ htx
      exact h.insert ⟨tx, state, w.nOrderPosNext⟩ htx htx rfl rfl
    · obtain ⟨-, rfl⟩ := Prod.mk.inj (pure_eq_ok.mp hadd)
      exact h.insert ⟨tx, state, w.nOrderPosNext⟩ htx htx rfl rfl
  | some wtx =>
    rw [hg] at hadd
    obtain ⟨r', -, hadd⟩ := bind_eq_ok.mp hadd
    have hmerged := mergeTx_made (h.made _ _ hg).1 htx
    split at hadd
    · obtain ⟨-, rfl⟩ := Prod.mk.inj (pure_eq_ok.mp hadd)
      exact h.insert ⟨(mergeTx wtx.tx tx).1, r'.1, wtx.nOrderPos⟩ hmerged htx rfl rfl
    · obtain ⟨-, rfl⟩ := Prod.mk.inj (pure_eq_ok.mp hadd)
      refine MadeUp.refreshTXOsFromTx ?_ hmerged
      exact h.insert ⟨(mergeTx wtx.tx tx).1, r'.1, wtx.nOrderPos⟩ hmerged htx rfl rfl

theorem MadeUp.creditUTXOFromChain (h : MadeUp H T w) {outpoint : COutPoint} {coin : Coin} {r : Bool}
    (htx : T (madeUpTx outpoint coin)) (hid : ∀ tx, T tx → H.txid tx ≠ outpoint.hash)
    (hc : creditUTXOFromChain H isMine getBlockHash writeTx w outpoint coin = .ok (r, w')) :
    MadeUp H T w' := by
  unfold ElektronNet.creditUTXOFromChain at hc
  split at hc
  · obtain ⟨-, rfl⟩ := Prod.mk.inj (pure_eq_ok.mp hc)
    exact h
  · split at hc
    · cases hc
    · simp only at hc
      split at hc
      · rename_i wtx hg
        obtain ⟨-, tx, htx', hkey⟩ := h.made _ _ hg
        exact absurd hkey.symm (hid tx htx')
      · exact h.addToWallet htx hc

theorem MadeUp.creditAll {shutdownRequested : Bool} {coins : List CoinEntry}
    (h : MadeUp H T w) (htx : ∀ e ∈ coins, T (madeUpTx e.1 e.2))
    (hid : ∀ e ∈ coins, ∀ tx, T tx → H.txid tx ≠ e.1.hash)
    (hc : creditAll H isMine getBlockHash writeTx shutdownRequested coins w = .ok w') :
    MadeUp H T w' := by
  induction coins generalizing w with
  | nil =>
    obtain rfl := pure_eq_ok.mp hc
    exact h
  | cons e coins ih =>
    obtain ⟨⟨r, w₁⟩, h₁, h₂⟩ := bind_eq_ok.mp hc
    have hw₁ := h.creditUTXOFromChain (htx _ mem_cons_self) (hid _ mem_cons_self) h₁
    split at h₂
    · obtain rfl := pure_eq_ok.mp h₂
      exact hw₁
    · exact ih hw₁ (fun e he => htx e (mem_cons_of_mem _ he)) (fun e he => hid e (mem_cons_of_mem _ he)) h₂

theorem MadeUp.refreshAllTXOs (h : MadeUp H T w) (isMine : CScript → Bool) :
    MadeUp H T (refreshAllTXOs H isMine w) := by
  have hall : ∀ e ∈ w.mapWallet.toList, T e.2.tx := fun e he =>
    (h.made e.1 e.2 ((FMap.mem_toList _ _ _).mp he)).1
  unfold ElektronNet.refreshAllTXOs
  generalize w.mapWallet.toList = l at hall
  induction l generalizing w with
  | nil => exact h
  | cons e l ih =>
    exact ih (h.refreshTXOsFromTx (hall e mem_cons_self))
      fun e' he' => hall e' (mem_cons_of_mem _ he')

theorem creditAll_not_mine {coins : List CoinEntry} (h : ∀ e ∈ coins, isMine e.2.out.scriptPubKey = false) :
    creditAll H isMine getBlockHash writeTx false coins w = .ok w := by
  induction coins with
  | nil => rfl
  | cons e coins ih =>
    obtain ⟨outpoint, coin⟩ := e
    have hc : creditUTXOFromChain H isMine getBlockHash writeTx w outpoint coin = .ok (false, w) := by
      rw [creditUTXOFromChain, h _ mem_cons_self]
      rfl
    refine bind_eq_ok.mpr ⟨_, hc, ?_⟩
    exact ih fun e' he' => h e' (mem_cons_of_mem _ he')

end

/-- a scan of `U` into `w` ends, leaves as confirmed and unspent exactly the coins of `U` that are
the wallet's, and a second one changes nothing -/
def Recovers (H : Hashes) (isMine : CScript → Bool) (getBlockHash : Nat → Option Uint256)
    (writeTx : CWalletTx → Bool) (U : Utxos) (w : CWallet) : Prop :=
  ∃ w', scanUTXOSet H isMine true getBlockHash writeTx false U w = .ok (.ok (), w') ∧
    (∀ o coin, w'.confirmedUnspent o = some coin ↔
      U.get o = some coin ∧ isMine coin.out.scriptPubKey = true) ∧
    scanUTXOSet H isMine true getBlockHash writeTx false U w' = .ok (.ok (), w')

/-- **a wallet without transactions is recovered from `U` exactly if `U` holds nothing of it.**
The coins of `U` come from transactions with inputs, so their ids are not those of the made-up ones. -/
theorem scanUTXOSet_exact_iff (H : Hashes) (isMine : CScript → Bool)
    (getBlockHash : Nat → Option Uint256) (writeTx : CWalletTx → Bool) (U : Utxos)
    (w : CWallet) (hempty : w.mapWallet = FMap.empty) (htxos : w.m_txos = FMap.empty)
    (hids : ∀ o coin, U.get o = some coin → ∀ p made, U.get p = some made →
      H.txid (madeUpTx p made) ≠ o.hash) :
    Recovers H isMine getBlockHash writeTx U w ↔
      ∀ o coin, U.get o = some coin → isMine coin.out.scriptPubKey = false := by
  have hmade : MadeUp H (fun tx => ∃ p made, U.get p = some made ∧ tx = madeUpTx p made) w := by
    refine ⟨fun key wtx h => ?_, fun o txo h => ?_⟩
    · rw [hempty] at h
      cases h
    · rw [htxos] at h
      cases h
  constructor
  · rintro ⟨w', hscan, hexact, -⟩ o coin hcoin
    by_contra hmine
    have hheld := (hexact o coin).mpr ⟨hcoin, by simpa using hmine⟩
    obtain ⟨w₁, hcredit, hw'⟩ := bind_eq_ok.mp hscan
    obtain ⟨-, rfl⟩ := Prod.mk.inj (pure_eq_ok.mp hw')
    have hmem : ∀ e ∈ U.toList, U.get e.1 = some e.2 := fun e he => (FMap.mem_toList _ _ _).mp he
    have hmade' := (hmade.creditAll (fun e he => ⟨e.1, e.2, hmem e he, rfl⟩)
      (fun e he tx ⟨p, made, hp, htx⟩ => htx ▸ hids e.1 e.2 (hmem e he) p made hp)
      hcredit).refreshAllTXOs isMine
    unfold CWallet.confirmedUnspent at hheld
    split at hheld
    · cases hheld
    · rename_i txo htxo
      obtain ⟨-, ⟨p, made, hp, rfl⟩, hid⟩ := hmade'.txos o txo htxo
      exact hids o coin hcoin p made hp hid.symm
  · intro hnone
    have hcredit : creditAll H isMine getBlockHash writeTx false U.toList w = .ok w :=
      creditAll_not_mine fun e he => hnone e.1 e.2 ((FMap.mem_toList _ _ _).mp he)
    have hrefresh : refreshAllTXOs H isMine w = w := by
      rw [refreshAllTXOs, FMap.toList_eq_nil fun k => by rw [hempty, FMap.empty_get]]
      rfl
    have hscan : scanUTXOSet H isMine true getBlockHash writeTx false U w = .ok (.ok (), w) :=
      bind_eq_ok.mpr ⟨w, hcredit, by rw [hrefresh]; rfl⟩
    refine ⟨w, hscan, fun o coin => ⟨fun h => ?_, fun h => ?_⟩, hscan⟩
    · rw [CWallet.confirmedUnspent, htxos] at h
      cases h
    · rw [hnone o coin h.1] at h
      cases h.2

/-! ## two rewards to one address -/

/-- the rewards of blocks 1 and 2, of equal value and to the same script -/
def sampleRewards : Utxos :=
  (FMap.empty.insert ⟨Uint256.ofByte 2, 0⟩ ⟨⟨5, [OP_1]⟩, true, 2⟩).insert
    ⟨Uint256.ofByte 1, 0⟩ ⟨⟨5, [OP_1]⟩, true, 1⟩

theorem sampleRewards_toList : sampleRewards.toList =
    [(⟨Uint256.ofByte 1, 0⟩, ⟨⟨5, [OP_1]⟩, true, 1⟩), (⟨Uint256.ofByte 2, 0⟩, ⟨⟨5, [OP_1]⟩, true, 2⟩)] := by
  decide

def emptyWallet : CWallet := ⟨FMap.empty, FMap.empty, [], 0⟩

theorem scanUTXOSet_rewards_assertion :
    scanUTXOSet sampleHashes (· == [OP_1]) true (fun h => some (Uint256.ofByte (UInt8.ofNat h)))
      (fun _ => true) false sampleRewards emptyWallet = .error (.assertion
        "TxStateSerializedBlockHash(wtx.m_state) == TxStateSerializedBlockHash(state)") := by
  rfl

theorem scanUTXOSet_exact_nothing :
    Recovers sampleHashes (· == [OP_0]) (fun h => some (Uint256.ofByte (UInt8.ofNat h)))
      (fun _ => true) sampleRewards emptyWallet := by
  refine (scanUTXOSet_exact_iff sampleHashes _ _ _ sampleRewards emptyWallet rfl rfl ?_).mpr ?_
  · intro o coin h p made _
    rw [← FMap.mem_toList] at h
    rw [show sampleHashes.txid (madeUpTx p made) = Uint256.zero by simp [sampleHashes, madeUpTx]; rfl]
    rcases mem_pair.mp h with e | e <;> cases e <;> decide
  · intro o coin h
    rw [← FMap.mem_toList] at h
    rcases mem_pair.mp h with e | e <;> cases e <;> rfl

end ElektronNet
