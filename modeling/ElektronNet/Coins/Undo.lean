import ElektronNet.Coins.Update

/-!
# Undoing transactions on the shown map

`applyTx` erases the inputs of a transaction and inserts its spendable outputs; `unapplyTx` erases
the outputs again and inserts the coins of an undo record.  With the record that `UpdateCoins`
left, the second takes back the first.

* `undoRecords`         the undo records of a list of transactions
* `unapplyTxs_applyTxs`   the transactions, taken back last first, leave the map they began with
* `Regular`             every coin of a map is as a block above the genesis creates it
-/

namespace ElektronNet

open List

/-! ## regular coins -/

/-- `AddCoin` takes the coin, and its undo record has a height -/
structure Coin.Regular (coin : Coin) : Prop where
  spendable : isUnspendable coin.out.scriptPubKey = false
  height : coin.nHeight ≠ 0

def Regular (m : Utxos) : Prop := ∀ o coin, m.get o = some coin → coin.Regular

section
variable {Q : COutPoint → Coin → Prop} {m : Utxos}

theorem all_spendAll (hm : m.All Q) (vin : List CTxIn) : (spendAll vin m).All Q := by
  induction vin generalizing m with
  | nil => exact hm
  | cons txin vin ih => exact ih (hm.erase _)

variable {nHeight : Nat}

theorem all_createFrom {txid : Uint256} {cb : Bool} {i : Nat} {outs : List CTxOut} (hm : m.All Q)
    (hQ : ∀ k out, outs[k]? = some out → isUnspendable out.scriptPubKey = false →
      Q ⟨txid, i + k⟩ ⟨out, cb, nHeight⟩) : (createFrom txid nHeight cb i outs m).All Q := by
  induction outs generalizing i m with
  | nil => exact hm
  | cons out outs ih =>
    refine ih ?_ fun k out' hk hu => ?_
    · split
      · exact hm
      · rename_i hu
        exact hm.insert (hQ 0 out rfl (by simpa using hu))
    · have := hQ (k + 1) out' (by simpa using hk) hu
      rwa [show i + (k + 1) = i + 1 + k by omega] at this

theorem all_applyTx {H : Hashes} {tx : CTransaction} (hm : m.All Q)
    (hQ : ∀ k out, tx.vout[k]? = some out → isUnspendable out.scriptPubKey = false →
      Q ⟨H.txid tx, k⟩ ⟨out, tx.isCoinBase, nHeight⟩) : (applyTx H nHeight m tx).All Q := by
  refine all_createFrom ?_ (by simpa using hQ)
  split
  · exact hm
  · exact all_spendAll hm _

variable {txs : List CTransaction} {tx : CTransaction}

theorem all_applyTxs {H : Hashes} (hm : m.All Q)
    (hQ : ∀ tx ∈ txs, ∀ k out, tx.vout[k]? = some out → isUnspendable out.scriptPubKey = false →
      Q ⟨H.txid tx, k⟩ ⟨out, tx.isCoinBase, nHeight⟩) : (applyTxs H nHeight txs m).All Q := by
  induction txs generalizing m with
  | nil => exact hm
  | cons tx txs ih =>
    exact ih (all_applyTx hm (hQ tx mem_cons_self))
      fun t ht => hQ t (mem_cons_of_mem _ ht)

end

theorem regular_empty : Regular FMap.empty := FMap.all_empty _

variable {m : Utxos} {nHeight : Nat}

theorem regular_insert (hm : Regular m) {coin : Coin} (hcoin : coin.Regular) (o : COutPoint) :
    Regular (m.insert o coin) := FMap.All.insert hm hcoin

theorem regular_erase (hm : Regular m) (o : COutPoint) :
    Regular (m.erase o) := FMap.All.erase hm o

theorem regular_applyTx (hm : Regular m) (H : Hashes) (hh : nHeight ≠ 0) (tx : CTransaction) :
    Regular (applyTx H nHeight m tx) :=
  all_applyTx hm fun _ _ _ hu => ⟨hu, hh⟩

theorem regular_applyTxs (hm : Regular m) (H : Hashes) (hh : nHeight ≠ 0)
    (txs : List CTransaction) : Regular (applyTxs H nHeight txs m) :=
  all_applyTxs hm fun _ _ _ _ _ hu => ⟨hu, hh⟩

theorem spentCoins_regular (hm : Regular m) {vin : List CTxIn} (hin : InputsPresent vin m) :
    ∀ coin ∈ spentCoins vin m, coin.Regular := by
  induction vin generalizing m with
  | nil => simp [spentCoins]
  | cons txin vin ih =>
    obtain ⟨coin, hcoin⟩ := Option.isSome_iff_exists.mp hin.1
    intro c hc
    rw [spentCoins, hcoin] at hc
    rcases mem_cons.mp hc with rfl | hmem
    · exact hm _ _ hcoin
    · exact ih (regular_erase hm _) hin.2 c hmem

/-! ## undo records -/

theorem spentCoins_length (vin : List CTxIn) (m : Utxos) : (spentCoins vin m).length = vin.length := by
  induction vin generalizing m with
  | nil => rfl
  | cons txin vin ih => rw [spentCoins, length_cons, length_cons, ih]

section
variable (H : Hashes)

def undoRecords (nHeight : Nat) : List CTransaction → Utxos → List CTxUndo
  | [], _ => []
  | tx :: txs, m =>
    ⟨if tx.isCoinBase then [] else spentCoins tx.vin m⟩ ::
      undoRecords nHeight txs (applyTx H nHeight m tx)

theorem undoRecords_length (nHeight : Nat) (txs : List CTransaction) (m : Utxos) :
    (undoRecords H nHeight txs m).length = txs.length := by
  induction txs generalizing m with
  | nil => rfl
  | cons tx txs ih => rw [undoRecords, length_cons, length_cons, ih]

theorem undoRecords_regular (hh : nHeight ≠ 0) (hm : Regular m) (hspend : BlockSpends H nHeight txs m) :
    ∀ u ∈ undoRecords H nHeight txs m, ∀ coin ∈ u.vprevout, coin.Regular := by
  induction txs generalizing m with
  | nil => simp [undoRecords]
  | cons tx txs ih =>
    intro u hu
    rcases mem_cons.mp hu with rfl | hmem
    · intro coin hcoin
      cases hcb : tx.isCoinBase with
      | true =>
        rw [hcb] at hcoin
        cases hcoin
      | false =>
        rw [hcb] at hcoin
        exact spentCoins_regular hm (hspend.1 hcb) coin hcoin
    · exact ih (regular_applyTx hm H hh tx) hspend.2.2 u hmem

end

/-! ## taking back -/

/-- the map without the spendable outputs of a transaction from the index `i` on -/
def uncreateFrom (txid : Uint256) : Nat → List CTxOut → Utxos → Utxos
  | _, [], m => m
  | i, out :: outs, m =>
    uncreateFrom txid (i + 1) outs (if isUnspendable out.scriptPubKey then m else m.erase ⟨txid, i⟩)

def unspendAll : List (CTxIn × Coin) → Utxos → Utxos
  | [], m => m
  | (txin, coin) :: inputs, m => unspendAll inputs (m.insert txin.prevout coin)

theorem unspendAll_append (l l' : List (CTxIn × Coin)) (m : Utxos) :
    unspendAll (l ++ l') m = unspendAll l' (unspendAll l m) := by
  induction l generalizing m with
  | nil => rfl
  | cons e l ih => exact ih _

theorem unspendAll_spendAll {vin : List CTxIn} (h : InputsPresent vin m) :
    unspendAll (vin.zip (spentCoins vin m)).reverse (spendAll vin m) = m := by
  induction vin generalizing m with
  | nil => rfl
  | cons txin vin ih =>
    obtain ⟨coin, hcoin⟩ := Option.isSome_iff_exists.mp h.1
    rw [spentCoins, spendAll, hcoin, zip_cons_cons, reverse_cons,
      unspendAll_append, ih h.2]
    exact FMap.insert_erase hcoin

theorem createFrom_erase {txid : Uint256} {cb : Bool} {i j : Nat} (hij : j < i) (outs : List CTxOut)
    (m : Utxos) : (createFrom txid nHeight cb i outs m).erase ⟨txid, j⟩ =
      createFrom txid nHeight cb i outs (m.erase ⟨txid, j⟩) := by
  induction outs generalizing i m with
  | nil => rfl
  | cons out outs ih =>
    rw [createFrom, createFrom, ih (by omega)]
    congr 1
    split
    · rfl
    · refine FMap.ext_get fun k => ?_
      rw [FMap.erase_get, FMap.insert_get, FMap.insert_get, FMap.erase_get]
      by_cases hk : k = ⟨txid, j⟩
      · have hne : (⟨txid, j⟩ : COutPoint) ≠ ⟨txid, i⟩ := by
          intro e
          injection e with _ e
          omega
        rw [if_pos hk, hk, if_neg hne, if_pos rfl]
      · rw [if_neg hk, if_neg hk]

theorem uncreateFrom_createFrom {txid : Uint256} {cb : Bool} {i : Nat} {outs : List CTxOut}
    (h : OutputsFresh m txid i outs) :
    uncreateFrom txid i outs (createFrom txid nHeight cb i outs m) = m := by
  induction outs generalizing i m with
  | nil => rfl
  | cons out outs ih =>
    rw [uncreateFrom, createFrom]
    cases hu : isUnspendable out.scriptPubKey with
    | true =>
      have htail := outputsFresh_tail h Coin.empty
      rw [hu] at htail
      exact ih htail
    | false =>
      have hnone := outputsFresh_head h hu
      have htail := outputsFresh_tail h ⟨out, cb, nHeight⟩
      simp only [Bool.false_eq_true, if_false] at htail ⊢
      rw [createFrom_erase (by omega), FMap.erase_insert hnone]
      refine ih fun j out' hj hu' => ?_
      have := h (j + 1) out' (by simpa using hj) hu'
      rwa [← Nat.add_assoc, Nat.add_right_comm] at this

section
variable (H : Hashes)

/-- a transaction taken back; without an undo record its inputs stay spent -/
def unapplyTx (m : Utxos) (tx : CTransaction) (txundo : Option CTxUndo) : Utxos :=
  match txundo with
  | none => uncreateFrom (H.txid tx) 0 tx.vout m
  | some u => unspendAll (tx.vin.zip u.vprevout).reverse (uncreateFrom (H.txid tx) 0 tx.vout m)

def unapplyTxs : List UndoneTx → Utxos → Utxos
  | [], m => m
  | (tx, txundo) :: txs, m => unapplyTxs txs (unapplyTx H m tx txundo)

theorem unapplyTxs_append (l l' : List UndoneTx) (m : Utxos) :
    unapplyTxs H (l ++ l') m = unapplyTxs H l' (unapplyTxs H l m) := by
  induction l generalizing m with
  | nil => rfl
  | cons e l ih => exact ih _

variable {nHeight : Nat} {m : Utxos}

theorem unapplyTx_coinBase (hcb : tx.isCoinBase = true) (hfresh : OutputsFresh m (H.txid tx) 0 tx.vout) :
    unapplyTx H (applyTx H nHeight m tx) tx none = m := by
  rw [applyTx, hcb]
  exact uncreateFrom_createFrom hfresh

theorem unapplyTx_applyTx (hcb : tx.isCoinBase = false) (hin : InputsPresent tx.vin m)
    (hfresh : OutputsFresh (spendAll tx.vin m) (H.txid tx) 0 tx.vout) :
    unapplyTx H (applyTx H nHeight m tx) tx (some ⟨spentCoins tx.vin m⟩) = m := by
  rw [unapplyTx, applyTx, hcb]
  simp only [Bool.false_eq_true, if_false]
  rw [uncreateFrom_createFrom hfresh, unspendAll_spendAll hin]

theorem unapplyTxs_undoRecords (hcb : ∀ tx ∈ txs, tx.isCoinBase = false)
    (hspend : BlockSpends H nHeight txs m) (hfresh : BlockFresh H nHeight txs m) :
    unapplyTxs H (txs.zip ((undoRecords H nHeight txs m).map some)).reverse
      (applyTxs H nHeight txs m) = m := by
  induction txs generalizing m with
  | nil => rfl
  | cons tx txs ih =>
    have htx := hcb tx mem_cons_self
    have hf := hfresh.1
    rw [htx] at hf
    rw [undoRecords, map_cons, zip_cons_cons, reverse_cons, unapplyTxs_append, applyTxs,
      ih (fun t ht => hcb t (mem_cons_of_mem _ ht)) hspend.2.2 hfresh.2, htx]
    exact unapplyTx_applyTx H htx (hspend.1 htx) hf

/-- **the transactions of a block, taken back last first, leave the map they began with** -/
theorem unapplyTxs_applyTxs {coinbase : CTransaction}
    (hcoinbase : coinbase.isCoinBase = true) (hcb : ∀ tx ∈ txs, tx.isCoinBase = false)
    (hspend : BlockSpends H nHeight (coinbase :: txs) m)
    (hfresh : BlockFresh H nHeight (coinbase :: txs) m) :
    unapplyTxs H ((coinbase :: txs).zip
        (none :: ((undoRecords H nHeight (coinbase :: txs) m).tail.map some))).reverse
      (applyTxs H nHeight (coinbase :: txs) m) = m := by
  have hf := hfresh.1
  rw [hcoinbase] at hf
  rw [undoRecords, tail_cons, zip_cons_cons, reverse_cons, unapplyTxs_append, applyTxs,
    unapplyTxs_undoRecords H hcb hspend.2.2 hfresh.2]
  exact unapplyTx_coinBase H hcoinbase hf

end

end ElektronNet
