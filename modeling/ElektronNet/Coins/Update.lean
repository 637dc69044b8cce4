import ElektronNet.CoinStats

/-!
# Applying a transaction to a coins view

`UpdateCoins` and `AddCoins`, and what they do to the shown map.  On the map a transaction is
`applyTx`: its inputs are erased, then its spendable outputs are inserted.

* `InputsPresent m vin`     each input is unspent when its turn comes (so none occurs twice)
* `OutputsFresh m txid i outs`   no spendable output stands at an unspent outpoint
* `updateCoins_spec`        `UpdateCoins` is `applyTx` and records the erased coins
* `updateCoins_ok`          and it does end
* `ofSet_applyTxs`          the accumulator follows by one removal per input and one addition per
                            spendable output
-/

namespace ElektronNet

open List Outcome CCoinsViewCache

/-- undo information of one transaction: the coins its inputs spent -/
structure CTxUndo where
  vprevout : List Coin
deriving DecidableEq

/-- a transaction with its record, which a coinbase has not -/
abbrev UndoneTx := CTransaction × Option CTxUndo

/-! ## the code -/

def addCoinsFrom (txid : Uint256) (nHeight : Nat) (fCoinbase check_for_overwrite : Bool) :
    Nat → List CTxOut → CCoinsViewCache → Except Fault CCoinsViewCache
  | _, [], cache => pure cache
  | i, out :: outs, cache => do
    let overwrite := if check_for_overwrite then cache.haveCoin ⟨txid, i⟩ else fCoinbase
    let cache := if check_for_overwrite then cache.fetchCoin ⟨txid, i⟩ else cache
    let cache ← cache.addCoin ⟨txid, i⟩ ⟨out, fCoinbase, nHeight⟩ overwrite
    addCoinsFrom txid nHeight fCoinbase check_for_overwrite (i + 1) outs cache

def spendInputs : List CTxIn → CCoinsViewCache → Except Fault (List Coin × CCoinsViewCache)
  | [], inputs => pure ([], inputs)
  | txin :: vin, inputs =>
    match inputs.spendCoin txin.prevout with
    | (none, _) => throw (.assertion "is_spent")
    | (some coin, inputs) => do
      let (coins, inputs) ← spendInputs vin inputs
      pure (coin :: coins, inputs)

/-- a coinbase spends nothing -/
def spendTxInputs (tx : CTransaction) (inputs : CCoinsViewCache) :
    Except Fault (List Coin × CCoinsViewCache) :=
  if tx.isCoinBase then pure ([], inputs) else spendInputs tx.vin inputs

section
variable (H : Hashes)

def addCoins (cache : CCoinsViewCache) (tx : CTransaction) (nHeight : Nat)
    (check_for_overwrite : Bool) : Except Fault CCoinsViewCache :=
  addCoinsFrom (H.txid tx) nHeight tx.isCoinBase check_for_overwrite 0 tx.vout cache

def updateCoins (tx : CTransaction) (inputs : CCoinsViewCache) (nHeight : Nat) :
    Except Fault (CTxUndo × CCoinsViewCache) := do
  let spent ← spendTxInputs tx inputs
  let inputs ← addCoins H spent.2 tx nHeight false
  pure (⟨spent.1⟩, inputs)

end

/-! ## the shown map -/

def spendAll : List CTxIn → Utxos → Utxos
  | [], m => m
  | txin :: vin, m => spendAll vin (m.erase txin.prevout)

/-- the map with the spendable outputs of a transaction from the index `i` on -/
def createFrom (txid : Uint256) (nHeight : Nat) (fCoinbase : Bool) : Nat → List CTxOut → Utxos → Utxos
  | _, [], m => m
  | i, out :: outs, m =>
    createFrom txid nHeight fCoinbase (i + 1) outs
      (if isUnspendable out.scriptPubKey then m else m.insert ⟨txid, i⟩ ⟨out, fCoinbase, nHeight⟩)

def applyTx (H : Hashes) (nHeight : Nat) (m : Utxos) (tx : CTransaction) : Utxos :=
  createFrom (H.txid tx) nHeight tx.isCoinBase 0 tx.vout
    (if tx.isCoinBase then m else spendAll tx.vin m)

def InputsPresent : List CTxIn → Utxos → Prop
  | [], _ => True
  | txin :: vin, m => (m.get txin.prevout).isSome = true ∧ InputsPresent vin (m.erase txin.prevout)

def spentCoins : List CTxIn → Utxos → List Coin
  | [], _ => []
  | txin :: vin, m => (m.get txin.prevout).getD Coin.empty :: spentCoins vin (m.erase txin.prevout)

def OutputsFresh (m : Utxos) (txid : Uint256) (i : Nat) (outs : List CTxOut) : Prop :=
  ∀ j out, outs[j]? = some out → isUnspendable out.scriptPubKey = false →
    m.get ⟨txid, i + j⟩ = none

variable {m : Utxos} {txid : Uint256} {i : Nat} {outs : List CTxOut}
  {c c' : CCoinsViewCache}

theorem outputsFresh_head {out : CTxOut} (h : OutputsFresh m txid i (out :: outs))
    (hu : isUnspendable out.scriptPubKey = false) : m.get ⟨txid, i⟩ = none :=
  h 0 out rfl hu

theorem outputsFresh_tail {out : CTxOut} (h : OutputsFresh m txid i (out :: outs)) (coin : Coin) :
    OutputsFresh (if isUnspendable out.scriptPubKey then m else m.insert ⟨txid, i⟩ coin)
      txid (i + 1) outs := by
  intro j out' hj hu
  have hm : m.get ⟨txid, i + 1 + j⟩ = none := by
    have := h (j + 1) out' (by simpa using hj) hu
    rwa [← Nat.add_assoc, Nat.add_right_comm] at this
  split
  · exact hm
  · rw [FMap.insert_get_ne _ _ _, hm]
    intro e
    injection e with _ e
    omega

theorem outputsFresh_singleton (out : CTxOut) (h : m.get ⟨txid, i⟩ = none) :
    OutputsFresh m txid i [out] := by
  intro j out' hj _
  cases j with
  | zero => exact h
  | succ j => simp at hj

/-! ## the code acts on the shown map -/

/-- what a step that only touches the top cache leaves: the promise of the flags, the best block
and the stack under it -/
structure Steps (c c' : CCoinsViewCache) (m' : Utxos) : Prop where
  ok : c'.Ok
  utxos : c'.utxos = m'
  block_hash : c'.m_block_hash = c.m_block_hash
  base : SameStack c.base c'.base

theorem Steps.refl (h : c.Ok) : Steps c c c.utxos :=
  ⟨h, rfl, rfl, SameStack.refl _⟩

theorem Steps.trans {c'' : CCoinsViewCache} {m' m'' : Utxos} (h : Steps c c' m')
    (h' : Steps c' c'' m'') : Steps c c'' m'' :=
  ⟨h'.ok, h'.utxos, h'.block_hash.trans h.block_hash, h.base.trans h'.base⟩

theorem steps_fetchCoin (h : c.Ok) (o : COutPoint) : Steps c (c.fetchCoin o) c.utxos :=
  ⟨fetchCoin_ok h o, fetchCoin_utxos c o, fetchCoin_block_hash c o, sameStack_fetchCoin c o⟩

/-- an unspendable coin is dropped before anything is looked up, so nothing is owed for it -/
theorem steps_addCoin (hc : c.Ok) {o : COutPoint} {coin : Coin} {ow : Bool}
    (h : c.addCoin o coin ow = .ok c')
    (hnew : ow = false → isUnspendable coin.out.scriptPubKey = false → c.peek o = none) :
    Steps c c' (if isUnspendable coin.out.scriptPubKey then c.utxos else c.utxos.insert o coin) := by
  cases hu : isUnspendable coin.out.scriptPubKey with
  | true =>
    obtain ⟨-, ⟨-, rfl⟩ | ⟨hu', -⟩⟩ := addCoin_eq_ok h
    · exact Steps.refl hc
    · rw [hu] at hu'
      cases hu'
  | false =>
    obtain ⟨hok, hut, hh, hb⟩ := addCoin_spec hc h fun how => hnew how hu
    rw [hu] at hut
    exact ⟨hok, hut, hh, by rw [hb]; exact SameStack.refl _⟩

theorem addCoin_ok {o : COutPoint} (coin : Coin) {ow : Bool} (hs : coin.isSpent = false)
    (hnew : ow = false → isUnspendable coin.out.scriptPubKey = false → c.peek o = none) :
    ∃ c', c.addCoin o coin ow = .ok c' := by
  unfold addCoin
  rw [hs]
  simp only [Bool.false_eq_true, if_false]
  cases hu : isUnspendable coin.out.scriptPubKey with
  | true => exact ⟨_, rfl⟩
  | false =>
    have hno : (!ow && !((c.cacheCoins.get o).getD CCoinsCacheEntry.new).coin.isSpent) = false := by
      cases ow with
      | true => rfl
      | false =>
        have h := hnew rfl hu
        cases hg : c.cacheCoins.get o with
        | none => rfl
        | some e =>
          rw [peek_of_entry hg, CCoinsView.entryCoin] at h
          cases hsp : e.coin.isSpent with
          | true => simp [hsp]
          | false => rw [hsp] at h; cases h
    rw [hno]
    exact ⟨_, rfl⟩

theorem addCoinsFrom_spec {nHeight : Nat} {cb check : Bool} (hc : c.Ok)
    (h : addCoinsFrom txid nHeight cb check i outs c = .ok c')
    (hfresh : check = false → cb = false → OutputsFresh c.utxos txid i outs) :
    Steps c c' (createFrom txid nHeight cb i outs c.utxos) := by
  induction outs generalizing i c with
  | nil =>
    cases h
    exact Steps.refl hc
  | cons out outs ih =>
    obtain ⟨c₁, h₁, h₂⟩ := bind_eq_ok.mp h
    have hstep : Steps c c₁ (if isUnspendable out.scriptPubKey then c.utxos
        else c.utxos.insert ⟨txid, i⟩ ⟨out, cb, nHeight⟩) := by
      cases check with
      | false =>
        refine steps_addCoin hc h₁ fun hcb hu => ?_
        rw [← utxos_get]
        exact outputsFresh_head (hfresh rfl hcb) hu
      | true =>
        have hf := steps_fetchCoin hc ⟨txid, i⟩
        have ha := steps_addCoin hf.ok h₁ fun hno _ => by
          rw [haveCoin_eq] at hno
          simpa using hno
        rw [hf.utxos] at ha
        exact hf.trans ha
    have hrest := ih hstep.ok h₂ fun hch hcb => by
      rw [hstep.utxos]
      exact outputsFresh_tail (hfresh hch hcb) _
    rw [hstep.utxos] at hrest
    exact hstep.trans hrest

theorem addCoinsFrom_ok (txid : Uint256) (nHeight : Nat) (cb : Bool) (i : Nat) (hc : c.Ok)
    (hnull : ∀ out ∈ outs, out.isNull = false) (hfresh : cb = false → OutputsFresh c.utxos txid i outs) :
    ∃ c', addCoinsFrom txid nHeight cb false i outs c = .ok c' := by
  induction outs generalizing i c with
  | nil => exact ⟨c, rfl⟩
  | cons out outs ih =>
    have hnew : cb = false → isUnspendable out.scriptPubKey = false → c.peek ⟨txid, i⟩ = none := by
      intro hcb hu
      rw [← utxos_get]
      exact outputsFresh_head (hfresh hcb) hu
    obtain ⟨c₁, h₁⟩ := addCoin_ok ⟨out, cb, nHeight⟩ (hnull out mem_cons_self) hnew
    have hstep := steps_addCoin hc h₁ hnew
    obtain ⟨c', h'⟩ := ih (i + 1) hstep.ok (fun o ho => hnull o (mem_cons_of_mem _ ho))
      fun hcb => by
        rw [hstep.utxos]
        exact outputsFresh_tail (hfresh hcb) _
    exact ⟨c', bind_eq_ok.mpr ⟨c₁, h₁, h'⟩⟩

theorem spendInputs_spec {vin : List CTxIn} (hc : c.Ok) (hin : InputsPresent vin c.utxos) :
    ∃ c', spendInputs vin c = .ok (spentCoins vin c.utxos, c') ∧
      Steps c c' (spendAll vin c.utxos) := by
  induction vin generalizing c with
  | nil => exact ⟨c, rfl, Steps.refl hc⟩
  | cons txin vin ih =>
    obtain ⟨hhead, htail⟩ := hin
    obtain ⟨coin, hcoin⟩ := Option.isSome_iff_exists.mp hhead
    rw [utxos_get] at hcoin
    cases hsp : c.spendCoin txin.prevout with
    | mk r c₁ =>
      obtain ⟨hok, hut, hh, hb, hsome, -⟩ := spendCoin_spec hc hsp
      obtain rfl := hsome coin hcoin
      have hstep : Steps c c₁ (c.utxos.erase txin.prevout) := ⟨hok, hut, hh, hb⟩
      obtain ⟨c', h', hrest⟩ := ih hok (hut ▸ htail)
      rw [hut] at h' hrest
      refine ⟨c', ?_, hstep.trans hrest⟩
      rw [spendInputs, hsp]
      simp only
      rw [h', spentCoins, utxos_get, hcoin]
      rfl

section
variable (H : Hashes)

/-- **`UpdateCoins` applies the transaction to the shown map** and hands back the coins it spent -/
theorem updateCoins_spec {tx : CTransaction} {undo : CTxUndo} {nHeight : Nat}
    (hc : c.Ok) (h : updateCoins H tx c nHeight = .ok (undo, c'))
    (hin : tx.isCoinBase = false → InputsPresent tx.vin c.utxos)
    (hfresh : tx.isCoinBase = false → OutputsFresh (spendAll tx.vin c.utxos) (H.txid tx) 0 tx.vout) :
    Steps c c' (applyTx H nHeight c.utxos tx) ∧
      undo = ⟨if tx.isCoinBase then [] else spentCoins tx.vin c.utxos⟩ := by
  obtain ⟨⟨coins, c₁⟩, h₁, h₂⟩ := bind_eq_ok.mp h
  obtain ⟨c₂, h₃, h₄⟩ := bind_eq_ok.mp h₂
  obtain ⟨rfl, rfl⟩ := Prod.mk.inj (pure_eq_ok.mp h₄)
  cases hcb : tx.isCoinBase with
  | true =>
    rw [spendTxInputs, hcb] at h₁
    obtain ⟨rfl, rfl⟩ := Prod.mk.inj (pure_eq_ok.mp h₁)
    refine ⟨?_, rfl⟩
    rw [applyTx, hcb]
    rw [addCoins, hcb] at h₃
    exact addCoinsFrom_spec hc h₃ fun _ hf => absurd hf (by simp)
  | false =>
    obtain ⟨c₃, hs, hstep⟩ := spendInputs_spec hc (hin hcb)
    rw [spendTxInputs, hcb, hs] at h₁
    obtain ⟨rfl, rfl⟩ := Prod.mk.inj (Except.ok.inj h₁)
    refine ⟨?_, rfl⟩
    rw [applyTx, hcb]
    rw [addCoins, hcb] at h₃
    have hadd := addCoinsFrom_spec hstep.ok h₃ fun _ _ => hstep.utxos ▸ hfresh hcb
    rw [hstep.utxos] at hadd
    exact hstep.trans hadd

theorem updateCoins_ok {tx : CTransaction} (nHeight : Nat) (hc : c.Ok)
    (hin : tx.isCoinBase = false → InputsPresent tx.vin c.utxos)
    (hfresh : tx.isCoinBase = false → OutputsFresh (spendAll tx.vin c.utxos) (H.txid tx) 0 tx.vout)
    (hnull : ∀ out ∈ tx.vout, out.isNull = false) :
    ∃ r, updateCoins H tx c nHeight = .ok r := by
  cases hcb : tx.isCoinBase with
  | true =>
    obtain ⟨c', h'⟩ := addCoinsFrom_ok (H.txid tx) nHeight true 0
      hc hnull (by simp)
    refine ⟨_, bind_eq_ok.mpr ⟨([], c), by rw [spendTxInputs, hcb]; rfl,
      bind_eq_ok.mpr ⟨c', ?_, rfl⟩⟩⟩
    rw [addCoins, hcb]
    exact h'
  | false =>
    obtain ⟨c₁, hs, hstep⟩ := spendInputs_spec hc (hin hcb)
    obtain ⟨c', h'⟩ := addCoinsFrom_ok (H.txid tx) nHeight false 0
      hstep.ok hnull fun _ => hstep.utxos ▸ hfresh hcb
    refine ⟨_, bind_eq_ok.mpr ⟨(_, c₁), by rw [spendTxInputs, hcb]; exact hs,
      bind_eq_ok.mpr ⟨c', ?_, rfl⟩⟩⟩
    rw [addCoins, hcb]
    exact h'

end

/-! ## the accumulator follows -/

section
variable {G : Type} [CommGroup G] (M : MuHash G)

def removeAll : List CTxIn → List Coin → UTXOMuHashState G → UTXOMuHashState G
  | txin :: vin, coin :: coins, s => removeAll vin coins (s.removeCoin M txin.prevout coin)
  | _, _, s => s

/-- one addition per spendable output, from the index `i` on -/
def addAllFrom (txid : Uint256) (nHeight : Nat) (fCoinbase : Bool) :
    Nat → List CTxOut → UTXOMuHashState G → UTXOMuHashState G
  | _, [], s => s
  | i, out :: outs, s =>
    addAllFrom txid nHeight fCoinbase (i + 1) outs
      (if isUnspendable out.scriptPubKey then s
        else s.addCoin M ⟨txid, i⟩ ⟨out, fCoinbase, nHeight⟩)

variable {m : Utxos}

theorem ofSet_spendAll {vin : List CTxIn} (h : InputsPresent vin m) :
    UTXOMuHashState.ofSet M (spendAll vin m) =
      removeAll M vin (spentCoins vin m) (UTXOMuHashState.ofSet M m) := by
  induction vin generalizing m with
  | nil => rfl
  | cons txin vin ih =>
    obtain ⟨coin, hcoin⟩ := Option.isSome_iff_exists.mp h.1
    rw [spendAll, ih h.2, UTXOMuHashState.ofSet_erase M hcoin, spentCoins, hcoin]
    rfl

theorem ofSet_createFrom {nHeight : Nat} {cb : Bool} (h : OutputsFresh m txid i outs) :
    UTXOMuHashState.ofSet M (createFrom txid nHeight cb i outs m) =
      addAllFrom M txid nHeight cb i outs (UTXOMuHashState.ofSet M m) := by
  induction outs generalizing i m with
  | nil => rfl
  | cons out outs ih =>
    rw [createFrom, ih (outputsFresh_tail h _), addAllFrom]
    congr 1
    cases hu : isUnspendable out.scriptPubKey with
    | true => rfl
    | false => exact UTXOMuHashState.ofSet_insert M (outputsFresh_head h hu) _

/-- the steps of the accumulator for one transaction that is applied to `m` -/
def accTx (H : Hashes) (nHeight : Nat) (m : Utxos) (tx : CTransaction)
    (s : UTXOMuHashState G) : UTXOMuHashState G :=
  addAllFrom M (H.txid tx) nHeight tx.isCoinBase 0 tx.vout
    (if tx.isCoinBase then s else removeAll M tx.vin (spentCoins tx.vin m) s)

theorem ofSet_applyTx {H : Hashes} {nHeight : Nat} {tx : CTransaction}
    (hin : tx.isCoinBase = false → InputsPresent tx.vin m)
    (hfresh : OutputsFresh (if tx.isCoinBase then m else spendAll tx.vin m) (H.txid tx) 0 tx.vout) :
    UTXOMuHashState.ofSet M (applyTx H nHeight m tx) =
      accTx M H nHeight m tx (UTXOMuHashState.ofSet M m) := by
  rw [applyTx, ofSet_createFrom M hfresh]
  congr 1
  cases hcb : tx.isCoinBase with
  | true => rfl
  | false => exact ofSet_spendAll M (hin hcb)

end

/-! ## a list of transactions -/

section
variable (H : Hashes)

def applyTxs (nHeight : Nat) : List CTransaction → Utxos → Utxos
  | [], m => m
  | tx :: txs, m => applyTxs nHeight txs (applyTx H nHeight m tx)

/-- no spendable output is created at an outpoint that is unspent at that moment -/
def BlockFresh (nHeight : Nat) : List CTransaction → Utxos → Prop
  | [], _ => True
  | tx :: txs, m =>
    OutputsFresh (if tx.isCoinBase then m else spendAll tx.vin m) (H.txid tx) 0 tx.vout ∧
      BlockFresh nHeight txs (applyTx H nHeight m tx)

/-- each transaction finds its inputs when its turn comes and creates proper outputs -/
def BlockSpends (nHeight : Nat) : List CTransaction → Utxos → Prop
  | [], _ => True
  | tx :: txs, m =>
    (tx.isCoinBase = false → InputsPresent tx.vin m) ∧ (∀ out ∈ tx.vout, out.isNull = false) ∧
      BlockSpends nHeight txs (applyTx H nHeight m tx)

variable {G : Type} [CommGroup G] (M : MuHash G)

def accTxs (nHeight : Nat) : List CTransaction → Utxos → UTXOMuHashState G → UTXOMuHashState G
  | [], _, s => s
  | tx :: txs, m, s => accTxs nHeight txs (applyTx H nHeight m tx) (accTx M H nHeight m tx s)

variable {nHeight : Nat} {s t : UTXOMuHashState G}

/-- **the accumulator of a set follows the transactions that are applied to the set** -/
theorem ofSet_applyTxs {txs : List CTransaction}
    (hspend : BlockSpends H nHeight txs m) (hfresh : BlockFresh H nHeight txs m) :
    UTXOMuHashState.ofSet M (applyTxs H nHeight txs m) =
      accTxs H M nHeight txs m (UTXOMuHashState.ofSet M m) := by
  induction txs generalizing m with
  | nil => rfl
  | cons tx txs ih =>
    rw [applyTxs, ih hspend.2.2 hfresh.2, ofSet_applyTx M hspend.1 hfresh.1]
    rfl

theorem removeAll_muhash {vin : List CTxIn} {coins : List Coin} (h : s.m_muhash = t.m_muhash) :
    (removeAll M vin coins s).m_muhash = (removeAll M vin coins t).m_muhash := by
  induction vin generalizing coins s t with
  | nil => cases coins <;> exact h
  | cons txin vin ih =>
    cases coins with
    | nil => exact h
    | cons coin coins =>
      apply ih
      show s.m_muhash / _ = t.m_muhash / _
      rw [h]

theorem addAllFrom_muhash {cb : Bool} (h : s.m_muhash = t.m_muhash) :
    (addAllFrom M txid nHeight cb i outs s).m_muhash =
      (addAllFrom M txid nHeight cb i outs t).m_muhash := by
  induction outs generalizing i s t with
  | nil => exact h
  | cons out outs ih =>
    apply ih
    split
    · exact h
    · show s.m_muhash * _ = t.m_muhash * _
      rw [h]

theorem accTxs_muhash {txs : List CTransaction} (h : s.m_muhash = t.m_muhash) :
    (accTxs H M nHeight txs m s).m_muhash = (accTxs H M nHeight txs m t).m_muhash := by
  induction txs generalizing m s t with
  | nil => exact h
  | cons tx txs ih =>
    apply ih
    apply addAllFrom_muhash
    split
    · exact h
    · exact removeAll_muhash M h

end

end ElektronNet
