import ElektronNet.Accumulator

/-!
# A block taken back and connected again

What `VerifyDB` relies on.  A block that was connected to the set `m` is taken back on any view that
shows the set it left (`disconnectBlock_clean`), and then it passes all checks of `ConnectBlock` again
on any view that shows `m` (`connectTransactions_again`), except for the attestation, which looks
under the view.

* `Unwound`       a part of `DisconnectBlock` without the accumulator that finds everything in place
* `Alongside`     two states of the transaction loop over views that show the same set
* `connectBlock_again`   what is left to decide is the attestation
-/

set_option linter.unusedSectionVars false

namespace ElektronNet

open List Outcome CCoinsViewCache

/-! ## taking a block back -/

variable {nHeight : Nat} {view : CCoinsViewCache} {tx : CTransaction} {vin : List CTxIn}

theorem createFrom_get {txid : Uint256} {cb : Bool} {i j : Nat} {outs : List CTxOut}
    {out : CTxOut} (m : Utxos) (hj : outs[j]? = some out) (hu : isUnspendable out.scriptPubKey = false) :
    (createFrom txid nHeight cb i outs m).get ⟨txid, i + j⟩ = some ⟨out, cb, nHeight⟩ := by
  induction outs generalizing i j m with
  | nil => cases hj
  | cons out' outs ih =>
    cases j with
    | zero =>
      obtain rfl : out' = out := by simpa using hj
      rw [createFrom, hu]
      simp only [Bool.false_eq_true, if_false, Nat.add_zero]
      -- the outputs behind it stand at other indices
      have hlow : ∀ (outs : List CTxOut) (k : Nat) (m : Utxos), i < k →
          (createFrom txid nHeight cb k outs m).get ⟨txid, i⟩ = m.get ⟨txid, i⟩ := by
        intro outs
        induction outs with
        | nil => exact fun _ _ _ => rfl
        | cons o os ih' =>
          intro k m hk
          rw [createFrom, ih' (k + 1) _ (by omega)]
          split
          · rfl
          · rw [FMap.insert_get_ne]
            intro e
            injection e with _ e
            omega
      rw [hlow outs (i + 1) _ (by omega), FMap.insert_get_self]
    | succ j =>
      rw [← Nat.add_assoc, Nat.add_right_comm]
      exact ih _ (by simpa using hj)

variable {m : Utxos} {c c' : CCoinsViewCache}

section
variable {G : Type} [CommGroup G] (M : MuHash G) (H : Hashes) {pos : BlockPlace}

structure Unwound (st st' : Unwind G) (m' : Utxos) : Prop where
  steps : Steps st.view st'.view m'
  fClean : st'.fClean = st.fClean
  acc : st'.acc = st.acc

variable {st : Unwind G} {m : Utxos} {tx : CTransaction}

theorem Unwound.refl (h : st.view.Ok) : Unwound st st st.view.utxos :=
  ⟨Steps.refl h, rfl, rfl⟩

theorem Unwound.trans {st' st'' : Unwind G} {m' m'' : Utxos} (h : Unwound st st' m')
    (h' : Unwound st' st'' m'') : Unwound st st'' m'' :=
  ⟨h.steps.trans h'.steps, h'.fClean.trans h.fClean, h'.acc.trans h.acc⟩

theorem undoOutput_clean {cb : Bool} {o : COutPoint} {out : CTxOut} (hv : st.view.Ok)
    (hget : st.view.utxos.get o = some ⟨out, cb, pos.nHeight⟩) :
    Unwound st (undoOutput M pos false cb o out st) (st.view.utxos.erase o) := by
  rw [utxos_get] at hget
  unfold undoOutput
  cases hsp : st.view.spendCoin o with
  | mk r c =>
    obtain ⟨hok, hut, hhash, hb, hsome, -⟩ := spendCoin_spec hv hsp
    obtain rfl := hsome _ hget
    refine ⟨⟨hok, hut, hhash, hb⟩, ?_, rfl⟩
    show (st.fClean && (outputMatches out pos.nHeight cb (some ⟨out, cb, pos.nHeight⟩) || _)) = _
    simp [outputMatches]

theorem undoOutputs_clean (cb : Bool) (txid : Uint256) (o : Nat) (outs : List CTxOut) (hv : st.view.Ok)
    (hget : ∀ j out, outs[j]? = some out → isUnspendable out.scriptPubKey = false →
      st.view.utxos.get ⟨txid, o + j⟩ = some ⟨out, cb, pos.nHeight⟩) :
    Unwound st (undoOutputs M pos false cb txid o outs st) (uncreateFrom txid o outs st.view.utxos) := by
  induction outs generalizing o st with
  | nil => exact Unwound.refl hv
  | cons out outs ih =>
    have hstep : Unwound st (if isUnspendable out.scriptPubKey then st
        else undoOutput M pos false cb ⟨txid, o⟩ out st)
        (if isUnspendable out.scriptPubKey then st.view.utxos
          else st.view.utxos.erase ⟨txid, o⟩) := by
      cases hu : isUnspendable out.scriptPubKey with
      | true => exact Unwound.refl hv
      | false => exact undoOutput_clean M hv (hget 0 out rfl hu)
    have hrest := ih (o + 1) hstep.steps.ok fun j out' hj hu' => by
      have h' := hget (j + 1) out' (by simpa using hj) hu'
      rw [← Nat.add_assoc, Nat.add_right_comm] at h'
      rw [hstep.steps.utxos]
      split
      · exact h'
      · rw [FMap.erase_get_ne, h']
        intro e
        injection e with _ e
        omega
    rw [hstep.steps.utxos] at hrest
    exact hstep.trans hrest

theorem applyTxInUndo_clean {undo : Coin} {o : COutPoint} (hc : c.Ok)
    (hreg : undo.Regular) (hunspent : undo.isSpent = false) (hnone : c.peek o = none) :
    ∃ c', applyTxInUndo undo c o = .ok (.DISCONNECT_OK, c') ∧ Steps c c' (c.utxos.insert o undo) := by
  have hhave : c.haveCoin o = false := by
    rw [haveCoin_eq, hnone]
    rfl
  obtain ⟨c', hadd⟩ : ∃ c', (c.fetchCoin o).addCoin o undo false = .ok c' :=
    addCoin_ok undo hunspent fun _ _ => by rw [fetchCoin_peek, hnone]
  have h : applyTxInUndo undo c o = .ok (.DISCONNECT_OK, c') := by
    unfold applyTxInUndo undoMetadata
    rw [if_neg hreg.height, hhave]
    exact bind_eq_ok.mpr ⟨c', hadd, rfl⟩
  exact ⟨c', h, (applyTxInUndo_spec hc hreg h).1⟩

theorem undoInputs_append {inputs inputs' : List (CTxIn × Coin)} {st₁ : Unwind G}
    (h : undoInputs M false inputs st = .ok (true, st₁)) :
    undoInputs M false (inputs ++ inputs') st = undoInputs M false inputs' st₁ := by
  induction inputs generalizing st with
  | nil =>
    cases h
    rfl
  | cons e inputs ih =>
    obtain ⟨⟨res, c⟩, hundo, h⟩ := bind_eq_ok.mp h
    rw [cons_append, undoInputs, hundo]
    cases res with
    | DISCONNECT_FAILED => cases h
    | DISCONNECT_OK => exact ih h
    | DISCONNECT_UNCLEAN => exact ih h

theorem undoInputs_clean (hv : st.view.Ok) (hm : Regular m)
    (hunspent : ∀ o coin, m.get o = some coin → coin.isSpent = false) (hin : InputsPresent vin m)
    (hut : st.view.utxos = spendAll vin m) :
    ∃ st', undoInputs M false (vin.zip (spentCoins vin m)).reverse st = .ok (true, st') ∧
      Unwound st st' m := by
  induction vin generalizing m st with
  | nil => exact ⟨st, rfl, by rw [show m = st.view.utxos from hut.symm]; exact Unwound.refl hv⟩
  | cons txin vin ih =>
    obtain ⟨coin, hcoin⟩ := Option.isSome_iff_exists.mp hin.1
    obtain ⟨st₁, h₁, hu₁⟩ := ih hv (regular_erase hm _) (unspent_erase hunspent _) hin.2 hut
    have hnone : st₁.view.peek txin.prevout = none := by
      rw [← utxos_get, hu₁.steps.utxos, FMap.erase_get_self]
    obtain ⟨c', hc', hs'⟩ := applyTxInUndo_clean hu₁.steps.ok (hm _ _ hcoin) (hunspent _ _ hcoin) hnone
    rw [hu₁.steps.utxos, FMap.insert_erase hcoin] at hs'
    refine ⟨⟨c', st₁.acc, st₁.fClean⟩, ?_, hu₁.trans ⟨hs', rfl, rfl⟩⟩
    rw [spentCoins, hcoin, zip_cons_cons, reverse_cons,
      undoInputs_append M h₁]
    refine bind_eq_ok.mpr ⟨_, hc', ?_⟩
    show Except.ok (true, restored M false txin.prevout c' .DISCONNECT_OK st₁) = _
    simp [restored]

theorem undoOutputs_createFrom (hv : st.view.Ok) (hfresh : OutputsFresh m (H.txid tx) 0 tx.vout)
    (hut : st.view.utxos = createFrom (H.txid tx) pos.nHeight tx.isCoinBase 0 tx.vout m) :
    Unwound st (undoOutputs M pos false tx.isCoinBase (H.txid tx) 0 tx.vout st) m := by
  have hout := undoOutputs_clean M tx.isCoinBase (H.txid tx) 0 tx.vout hv fun j out hj hu => by
    rw [hut]
    exact createFrom_get m hj hu
  rwa [hut, uncreateFrom_createFrom hfresh] at hout

theorem undoTx_coinBase_clean (hv : st.view.Ok) (hcb : tx.isCoinBase = true)
    (hfresh : OutputsFresh m (H.txid tx) 0 tx.vout) (hut : st.view.utxos = applyTx H pos.nHeight m tx) :
    ∃ st', undoTx M H pos false tx none st = .ok (true, st') ∧ Unwound st st' m := by
  rw [applyTx, if_pos hcb] at hut
  exact ⟨_, rfl, undoOutputs_createFrom M H hv hfresh hut⟩

theorem undoTx_clean (hv : st.view.Ok) (hm : Regular m)
    (hunspent : ∀ o coin, m.get o = some coin → coin.isSpent = false) (hcb : tx.isCoinBase = false)
    (hin : InputsPresent tx.vin m) (hfresh : OutputsFresh (spendAll tx.vin m) (H.txid tx) 0 tx.vout)
    (hut : st.view.utxos = applyTx H pos.nHeight m tx) :
    ∃ st', undoTx M H pos false tx (some ⟨spentCoins tx.vin m⟩) st = .ok (true, st') ∧
      Unwound st st' m := by
  rw [applyTx, if_neg (by simp [hcb])] at hut
  have hout := undoOutputs_createFrom M H hv hfresh hut
  obtain ⟨st', h', hu'⟩ := undoInputs_clean M hout.steps.ok hm hunspent hin hout.steps.utxos
  refine ⟨st', ?_, hout.trans hu'⟩
  unfold undoTx
  simp only [spentCoins_length, ne_eq, not_true, if_false]
  exact h'

theorem undoTxs_append {txs txs' : List UndoneTx} {st₁ : Unwind G}
    (h : undoTxs M H pos false txs st = .ok (true, st₁)) :
    undoTxs M H pos false (txs ++ txs') st = undoTxs M H pos false txs' st₁ := by
  induction txs generalizing st with
  | nil =>
    cases h
    rfl
  | cons e txs ih =>
    obtain ⟨⟨done, st₂⟩, hundo, h⟩ := bind_eq_ok.mp h
    rw [cons_append, undoTxs, hundo]
    cases done with
    | false => cases h
    | true => exact ih h

/-- a set is as `AddCoin` makes it -/
structure Stored (m : Utxos) : Prop where
  regular : Regular m
  unspent : ∀ o coin, m.get o = some coin → coin.isSpent = false

theorem Stored.applyTx (hm : Stored m) (hh : nHeight ≠ 0)
    (hnull : ∀ out ∈ tx.vout, out.isNull = false) : Stored (applyTx H nHeight m tx) := by
  refine ⟨regular_applyTx hm.regular H hh tx, ?_⟩
  refine all_applyTx (Q := fun _ coin => coin.isSpent = false) hm.unspent fun k out hk _ => ?_
  exact hnull out (mem_of_getElem? hk)

theorem undoTxs_clean {txs : List CTransaction} (hv : st.view.Ok) (hh : pos.nHeight ≠ 0)
    (hm : Stored m) (hcb : ∀ tx ∈ txs, tx.isCoinBase = false)
    (hspend : BlockSpends H pos.nHeight txs m) (hfresh : BlockFresh H pos.nHeight txs m)
    (hut : st.view.utxos = applyTxs H pos.nHeight txs m) :
    ∃ st', undoTxs M H pos false
        (txs.zip ((undoRecords H pos.nHeight txs m).map some)).reverse st = .ok (true, st') ∧
      Unwound st st' m := by
  induction txs generalizing m st with
  | nil => exact ⟨st, rfl, by rw [show m = st.view.utxos from hut.symm]; exact Unwound.refl hv⟩
  | cons tx txs ih =>
    have htx := hcb tx mem_cons_self
    have hf := hfresh.1
    rw [htx] at hf
    obtain ⟨st₁, h₁, hu₁⟩ := ih hv (hm.applyTx H hh hspend.2.1)
      (fun t ht => hcb t (mem_cons_of_mem _ ht)) hspend.2.2 hfresh.2 hut
    obtain ⟨st', h', hu'⟩ := undoTx_clean M H hu₁.steps.ok hm.regular hm.unspent htx (hspend.1 htx) hf
      hu₁.steps.utxos
    refine ⟨st', ?_, hu₁.trans hu'⟩
    rw [undoRecords, map_cons, zip_cons_cons, reverse_cons, undoTxs_append M H h₁, htx]
    exact bind_eq_ok.mpr ⟨_, h', rfl⟩

/-- **a block is taken back on any view that shows the set it left** -/
theorem disconnectBlock_clean {s : CoinsState G} {undo : UndoStore} {block : CBlock}
    {pprev : Uint256} (hv : view.Ok) (hh : pos.nHeight ≠ 0)
    (hp : pos.pprev = some pprev) (hm : Stored m) (happ : Applies H pos.nHeight block m)
    (hundo : undo.get pos.hash = some (blockUndo H pos.nHeight block m))
    (hut : view.utxos = applyTxs H pos.nHeight block.vtx m) :
    ∃ view', disconnectBlock M H s undo block pos view false = .ok ⟨.DISCONNECT_OK, s, view'⟩ ∧
      view'.Ok ∧ view'.utxos = m ∧ view'.m_block_hash = pprev ∧ SameStack view.base view'.base := by
  obtain ⟨coinbase, txs, hvtx, hcoinbase, hcb⟩ := happ.coinbase
  have hspend := happ.spends
  have hfresh := happ.fresh
  rw [hvtx] at hspend hfresh hut
  have hf := hfresh.1
  rw [hcoinbase] at hf
  have hst : (⟨view, s.m_utxo_muhash, true⟩ : Unwind G).view.utxos = _ := hut
  obtain ⟨st₁, h₁, hu₁⟩ := undoTxs_clean M H hv hh (hm.applyTx H hh hspend.2.1) hcb hspend.2.2
    hfresh.2 hst
  obtain ⟨st', h', hu'⟩ := undoTx_coinBase_clean M H hu₁.steps.ok hcoinbase hf hu₁.steps.utxos
  have hu := hu₁.trans hu'
  obtain ⟨hok, hset⟩ := setBestBlock_spec hu.steps.ok pprev
  refine ⟨st'.view.setBestBlock pprev, ?_, hok, hset.trans hu.steps.utxos, rfl, hu.steps.base⟩
  have hlen : (blockUndo H pos.nHeight block m).vtxundo.length + 1 = block.vtx.length := by
    rw [blockUndo, hvtx, length_tail, undoRecords_length, length_cons]
    omega
  have hrun : undoTxs M H pos false (unwindOrder block (blockUndo H pos.nHeight block m))
      ⟨view, s.m_utxo_muhash, true⟩ = .ok (true, st') := by
    rw [unwindOrder, blockUndo, hvtx, undoRecords, tail_cons, zip_cons_cons,
      reverse_cons, undoTxs_append M H h₁]
    exact bind_eq_ok.mpr ⟨_, h', rfl⟩
  unfold disconnectBlock
  simp only [loadForUpdate, Bool.false_eq_true, if_false, hundo, hlen, ne_eq, not_true]
  refine bind_eq_ok.mpr ⟨_, hrun, ?_⟩
  unfold finishDisconnect
  rw [hp]
  have hclean : st'.fClean = true := hu.fClean
  have hacc : st'.acc = s.m_utxo_muhash := hu.acc
  simp only [Bool.not_true, Bool.false_eq_true, if_false, hclean, hacc, if_true]
  rfl

end

/-! ## connecting it again -/

/-- the caches show the same set -/
structure ShowSame (c c' : CCoinsViewCache) : Prop where
  ok : c.Ok
  ok' : c'.Ok
  utxos : c'.utxos = c.utxos

theorem ShowSame.peek (h : ShowSame c c') (o : COutPoint) : c'.peek o = c.peek o := by
  rw [← utxos_get, ← utxos_get, h.utxos]

theorem ShowSame.haveCoin (h : ShowSame c c') (o : COutPoint) : c'.haveCoin o = c.haveCoin o := by
  rw [haveCoin_eq, haveCoin_eq, h.peek]

theorem ShowSame.accessCoin (h : ShowSame c c') (o : COutPoint) : c'.accessCoin o = c.accessCoin o := by
  rw [accessCoin_eq h.ok', accessCoin_eq h.ok, h.peek]

theorem ShowSame.steps {d d' : CCoinsViewCache} (h : Steps c d m) (h' : Steps c' d' m) :
    ShowSame d d' :=
  ⟨h.ok, h'.ok, h'.utxos.trans h.utxos.symm⟩

section
variable (h : ShowSame c c')
include h

theorem ShowSame.lookups {d d' : CCoinsViewCache} (hd : Lookups c d) (hd' : Lookups c' d') :
    ShowSame d d' :=
  .steps (hd.steps h.ok) (h.utxos ▸ hd'.steps h.ok')

theorem ShowSame.fetchCoin (o : COutPoint) : ShowSame (c.fetchCoin o) (c'.fetchCoin o) :=
  h.lookups (lookups_fetchCoin c o) (lookups_fetchCoin c' o)

theorem haveAll_again : (haveAll vin c').1 = (haveAll vin c).1 := by
  induction vin generalizing c c' with
  | nil => rfl
  | cons txin vin ih =>
    rw [haveAll, haveAll, h.haveCoin]
    split
    · exact ih (h.fetchCoin _)
    · rfl

theorem haveInputs_again (tx : CTransaction) : (haveInputs tx c').1 = (haveInputs tx c).1 := by
  unfold haveInputs
  split
  · rfl
  · exact haveAll_again h

theorem sumInputs_again {nSpendHeight : Nat} {n : CAmount} {d : CCoinsViewCache}
    {r : Except Invalid CAmount} (hsum : sumInputs nSpendHeight vin n c = .ok (r, d)) :
    ∃ d', sumInputs nSpendHeight vin n c' = .ok (r, d') := by
  induction vin generalizing n c c' with
  | nil =>
    cases hsum
    exact ⟨c', rfl⟩
  | cons txin vin ih =>
    rw [sumInputs] at hsum ⊢
    rw [h.accessCoin]
    split at hsum
    · cases hsum
    · rename_i hspent
      rw [if_neg hspent]
      split at hsum
      · rename_i himm
        rw [if_pos himm]
        cases hsum
        exact ⟨_, rfl⟩
      · rename_i himm
        rw [if_neg himm]
        split at hsum
        · rename_i hrange
          rw [if_pos hrange]
          cases hsum
          exact ⟨_, rfl⟩
        · rename_i hrange
          rw [if_neg hrange]
          exact ih (h.fetchCoin _) hsum

theorem checkTxInputs_again {nSpendHeight : Nat} {d : CCoinsViewCache}
    {r : Except Invalid CAmount} (hcheck : checkTxInputs tx c nSpendHeight = .ok (r, d)) :
    ∃ d', checkTxInputs tx c' nSpendHeight = .ok (r, d') := by
  have hhave := haveInputs_again h tx
  have hsame := h.lookups (haveInputs_lookups tx c) (haveInputs_lookups tx c')
  unfold checkTxInputs at hcheck ⊢
  generalize haveInputs tx c = a at hcheck hhave hsame
  generalize haveInputs tx c' = a' at hhave hsame ⊢
  obtain ⟨present, c₁⟩ := a
  obtain ⟨present', c₁'⟩ := a'
  obtain rfl : present' = present := hhave
  cases present' with
  | false =>
    cases hcheck
    exact ⟨c₁', rfl⟩
  | true =>
    obtain ⟨⟨value, c₂⟩, hsum, hcheck⟩ := bind_eq_ok.mp hcheck
    obtain ⟨c₂', hsum'⟩ := sumInputs_again hsame hsum
    cases value with
    | error e =>
      cases hcheck
      exact ⟨c₂', bind_eq_ok.mpr ⟨_, hsum', rfl⟩⟩
    | ok nValueIn =>
      obtain ⟨value_out, hvalue, hcheck⟩ := bind_eq_ok.mp hcheck
      cases hcheck
      exact ⟨c₂', bind_eq_ok.mpr ⟨_, hsum', bind_eq_ok.mpr ⟨_, hvalue, rfl⟩⟩⟩

theorem haveOutputs_again (txid : Uint256) (o : Nat) (outs : List CTxOut) :
    (haveOutputs txid o outs c').1 = (haveOutputs txid o outs c).1 := by
  induction outs generalizing o c c' with
  | nil => rfl
  | cons out outs ih =>
    show (c'.haveCoin _ || _) = (c.haveCoin _ || _)
    rw [h.haveCoin, ih (h.fetchCoin _) (o + 1)]

theorem haveAnyOutput_again (H : Hashes) (txs : List CTransaction) :
    (haveAnyOutput H txs c').1 = (haveAnyOutput H txs c).1 := by
  induction txs generalizing c c' with
  | nil => rfl
  | cons tx txs ih =>
    have hsame := h.lookups (haveOutputs_spec (H.txid tx) 0 tx.vout c).1
      (haveOutputs_spec (H.txid tx) 0 tx.vout c').1
    show ((haveOutputs _ _ _ c').1 || _) = ((haveOutputs _ _ _ c).1 || _)
    rw [haveOutputs_again h, ih hsame]

theorem inputCoins_again (tx : CTransaction) : inputCoins c' tx = inputCoins c tx :=
  map_congr_left fun txin _ => h.accessCoin txin.prevout

end

structure Alongside (st st' : BlockProgress) : Prop where
  view : ShowSame st.view st'.view
  nFees : st'.nFees = st.nFees
  nSigOpsCost : st'.nSigOpsCost = st.nSigOpsCost
  vtxundo : st'.vtxundo = st.vtxundo

section
variable {H : Hashes} {rules : BlockRules} {pos : BlockPlace}

variable {st st' st₁ : BlockProgress}

theorem checkSpends_again (h : Alongside st st') (hs : checkSpends H rules pos tx st = .ok (none, st₁)) :
    ∃ st₁', checkSpends H rules pos tx st' = .ok (none, st₁') ∧ Alongside st₁ st₁' := by
  unfold checkSpends at hs ⊢
  split at hs
  · rename_i hcb
    rw [if_pos hcb]
    cases hs
    exact ⟨st', rfl, h⟩
  · rename_i hcb
    rw [if_neg hcb]
    obtain ⟨⟨r, c⟩, hcheck, hs⟩ := bind_eq_ok.mp hs
    obtain ⟨c', hcheck'⟩ := checkTxInputs_again h.view hcheck
    have hsame := h.view.lookups (checkTxInputs_spec hcheck).1 (checkTxInputs_spec hcheck').1
    cases r with
    | error e => cases hs
    | ok txfee =>
      simp only at hs
      split at hs
      · cases hs
      · rename_i hfees
        split at hs
        · cases hs
        · rename_i hlocks
          cases hs
          refine ⟨{ st' with view := c', nFees := st'.nFees + txfee },
            bind_eq_ok.mpr ⟨_, hcheck', ?_⟩, ⟨hsame, ?_, h.nSigOpsCost, h.vtxundo⟩⟩
          · simp only
            rw [h.nFees, if_neg hfees, inputCoins_again hsame tx, if_neg hlocks]
            rfl
          · show st'.nFees + txfee = st.nFees + txfee
            rw [h.nFees]

theorem checkScripts_again (rules : BlockRules) (pos : BlockPlace) (tx : CTransaction)
    (h : Alongside st st') :
    (checkScripts rules pos tx st').1 = (checkScripts rules pos tx st).1 ∧
      Alongside (checkScripts rules pos tx st).2 (checkScripts rules pos tx st').2 := by
  have hcost : st'.nSigOpsCost + getTransactionSigOpCost rules pos tx st'.view =
      st.nSigOpsCost + getTransactionSigOpCost rules pos tx st.view := by
    rw [h.nSigOpsCost, getTransactionSigOpCost, getTransactionSigOpCost, inputCoins_again h.view]
  unfold checkScripts
  simp only [hcost, inputCoins_again h.view]
  split
  · exact ⟨rfl, h.view, h.nFees, rfl, h.vtxundo⟩
  · split <;> exact ⟨rfl, h.view, h.nFees, rfl, h.vtxundo⟩

theorem connectTx_again {i : Nat} (h : Alongside st st')
    (hin : tx.isCoinBase = false → InputsPresent tx.vin st.view.utxos) (hfresh : tx.isCoinBase = false →
      OutputsFresh (spendAll tx.vin st.view.utxos) (H.txid tx) 0 tx.vout)
    (hnull : ∀ out ∈ tx.vout, out.isNull = false)
    (hc : connectTx H rules pos i tx st = .ok (none, st₁)) :
    ∃ st₁', connectTx H rules pos i tx st' = .ok (none, st₁') ∧ Alongside st₁ st₁' ∧
      Steps st'.view st₁'.view (applyTx H pos.nHeight st.view.utxos tx) := by
  obtain ⟨⟨e, st₂⟩, hspends, hc⟩ := bind_eq_ok.mp hc
  cases e with
  | some e => cases hc
  | none =>
    obtain ⟨st₂', hspends', h₂⟩ := checkSpends_again h hspends
    have hsteps := (checkSpends_spec hspends).1.steps h.view.ok
    have hsteps' := (checkSpends_spec hspends').1.steps h.view.ok'
    obtain ⟨hfirst, h₃⟩ := checkScripts_again rules pos tx h₂
    have hview := (checkScripts_view rules pos tx st₂).1
    have hview' := (checkScripts_view rules pos tx st₂').1
    simp only at hc
    generalize checkScripts rules pos tx st₂ = a at hc hfirst h₃ hview
    generalize hb : checkScripts rules pos tx st₂' = a' at hfirst h₃ hview'
    obtain ⟨e, st₃⟩ := a
    obtain ⟨e', st₃'⟩ := a'
    obtain rfl : e' = e := hfirst
    cases e' with
    | some e => cases hc
    | none =>
      have hut₃ : st₃.view.utxos = st.view.utxos := by
        rw [show st₃.view = st₂.view from hview, hsteps.utxos]
      have hut₃' : st₃'.view.utxos = st.view.utxos := h₃.view.utxos.trans hut₃
      obtain ⟨⟨undo, c⟩, hu, hc⟩ := bind_eq_ok.mp hc
      obtain ⟨⟨undo', c'⟩, hu'⟩ := updateCoins_ok H pos.nHeight h₃.view.ok'
        (hut₃'.symm ▸ hin) (hut₃'.symm ▸ hfresh) hnull
      obtain ⟨hs, hundo⟩ := updateCoins_spec H h₃.view.ok hu (hut₃.symm ▸ hin) (hut₃.symm ▸ hfresh)
      obtain ⟨hs', hundo'⟩ := updateCoins_spec H h₃.view.ok' hu' (hut₃'.symm ▸ hin)
        (hut₃'.symm ▸ hfresh)
      rw [hut₃] at hs hundo
      rw [hut₃'] at hs' hundo'
      cases hc
      have hback : Steps st'.view st₃'.view st.view.utxos := by
        rw [show st₃'.view = st₂'.view from hview']
        rw [h.view.utxos] at hsteps'
        exact hsteps'
      refine ⟨{ st₃' with
          view := c'
          vtxundo := if i = 0 then st₃'.vtxundo else st₃'.vtxundo ++ [undo'] },
        bind_eq_ok.mpr ⟨_, hspends', ?_⟩,
        ⟨.steps hs hs', h₃.nFees, h₃.nSigOpsCost, ?_⟩, hback.trans hs'⟩
      · simp only [hb]
        exact bind_eq_ok.mpr ⟨_, hu', rfl⟩
      · show (if i = 0 then st₃'.vtxundo else st₃'.vtxundo ++ [undo']) = _
        rw [h₃.vtxundo, hundo', hundo]

theorem connectTxs_again {i : Nat} {txs : List CTransaction} (h : Alongside st st')
    (hspend : BlockSpends H pos.nHeight txs st.view.utxos)
    (hfresh : BlockFresh H pos.nHeight txs st.view.utxos)
    (hc : connectTxs H rules pos i txs st = .ok (none, st₁)) :
    ∃ st₁', connectTxs H rules pos i txs st' = .ok (none, st₁') ∧ Alongside st₁ st₁' ∧
      Steps st'.view st₁'.view (applyTxs H pos.nHeight txs st.view.utxos) := by
  induction txs generalizing i st st' with
  | nil =>
    cases hc
    exact ⟨st', rfl, h, by rw [← h.view.utxos]; exact Steps.refl h.view.ok'⟩
  | cons tx txs ih =>
    obtain ⟨⟨e, st₂⟩, htx, hc⟩ := bind_eq_ok.mp hc
    cases e with
    | some e => cases hc
    | none =>
      have hf : tx.isCoinBase = false →
          OutputsFresh (spendAll tx.vin st.view.utxos) (H.txid tx) 0 tx.vout := by
        intro hcb
        have := hfresh.1
        rwa [hcb] at this
      obtain ⟨st₂', htx', h₂, hs₂⟩ := connectTx_again h hspend.1 hf hspend.2.1 htx
      have hut : st₂.view.utxos = applyTx H pos.nHeight st.view.utxos tx := by
        rw [← h₂.view.utxos, hs₂.utxos]
      obtain ⟨st₁', hrest, h₁, hs₁⟩ := ih h₂ (hut.symm ▸ hspend.2.2) (hut.symm ▸ hfresh.2) hc
      rw [hut] at hs₁
      exact ⟨st₁', bind_eq_ok.mpr ⟨_, htx', hrest⟩, h₁, hs₂.trans hs₁⟩

/-- **the transactions of a block pass again on any view that shows the same set** -/
theorem connectTransactions_again {m m' : BlockMap} {pprev : Uint256} {block : CBlock}
    {view' : CCoinsViewCache} (h : ShowSame view view')
    (happ : Applies H pos.nHeight block view.utxos) (hbip : enforceBIP30 rules m pos pprev = true)
    (hbip' : enforceBIP30 rules m' pos pprev = true)
    (hc : connectTransactions H rules m pos pprev block view = .ok (none, st)) :
    ∃ st', connectTransactions H rules m' pos pprev block view' = .ok (none, st') ∧
      Alongside st st' ∧ Steps view' st'.view (applyTxs H pos.nHeight block.vtx view.utxos) := by
  have hfound := haveAnyOutput_again h H block.vtx
  have hs := (haveAnyOutput_spec H block.vtx view).1.steps h.ok
  have hs' := (haveAnyOutput_spec H block.vtx view').1.steps h.ok'
  rw [h.utxos] at hs'
  rw [connectTransactions, if_pos hbip] at hc
  rw [connectTransactions, if_pos hbip']
  generalize haveAnyOutput H block.vtx view = a at hc hfound hs
  generalize haveAnyOutput H block.vtx view' = a' at hfound hs' ⊢
  obtain ⟨found, c⟩ := a
  obtain ⟨found', c'⟩ := a'
  obtain rfl : found' = found := hfound
  cases found' with
  | true => cases hc
  | false =>
    have halong : Alongside ⟨c, 0, 0, []⟩ ⟨c', 0, 0, []⟩ := ⟨.steps hs hs', rfl, rfl, rfl⟩
    have hut : c.utxos = view.utxos := hs.utxos
    obtain ⟨st', hc', h', hsteps⟩ := connectTxs_again halong (hut.symm ▸ happ.spends)
      (hut.symm ▸ happ.fresh) hc
    refine ⟨st', hc', h', ?_⟩
    have hsteps' : Steps c' st'.view (applyTxs H pos.nHeight block.vtx view.utxos) := by
      rw [← hut]
      exact hsteps
    exact hs'.trans hsteps'

end

/-! ## the attestation -/

section
variable {G : Type} [CommGroup G] {M : MuHash G} {H : Hashes} {rules : BlockRules} {pos : BlockPlace}

/-- the coinbase attests what the block makes of the coins that `v` shows and of the accumulator -/
def AttestsOver (M : MuHash G) (H : Hashes) (params : ConsensusParams) (known : Uint256 → Bool)
    (acc : UTXOMuHashState G) (v : CCoinsView) (block : CBlock) (nHeight : Nat) : Prop :=
  ∃ coinbase txs hash w, block.vtx = coinbase :: txs ∧
    extractCoinbaseUTXOAttestation coinbase nHeight = some hash ∧
    computeBlockUTXOAttestationHash M H block nHeight v known params (some acc) = .ok (some hash, w)

variable {block : CBlock} {pprev : Uint256} {index : BlockMap}

theorem AttestsOver.same {params : ConsensusParams} {known : Uint256 → Bool}
    {acc : UTXOMuHashState G} {v v' : CCoinsView}
    (h : AttestsOver M H params known acc v block nHeight) (hv : SameView v v') :
    AttestsOver M H params known acc v' block nHeight := by
  obtain ⟨coinbase, txs, hash, w, hvtx, hextract, hcompute⟩ := h
  obtain ⟨w', hcompute'⟩ := computeBlockUTXOAttestationHash_same hv rfl hcompute
  exact ⟨coinbase, txs, hash, w', hvtx, hextract, hcompute'⟩

theorem validateUTXOCheckpoint_iff {params : ConsensusParams} {known : Uint256 → Bool}
    {acc : UTXOMuHashState G} {v : CCoinsView} (hh : nHeight ≠ 0) :
    (∃ w, validateUTXOCheckpoint M H block nHeight v known params (some acc) = .ok (.ok (), w)) ↔
      AttestsOver M H params known acc (backend v) block nHeight := by
  constructor
  · rintro ⟨w, h⟩
    unfold validateUTXOCheckpoint at h
    rw [if_neg hh] at h
    split at h
    · cases h
    · rename_i coinbase txs hvtx
      split at h
      · cases h
      · rename_i hash hextract
        obtain ⟨⟨computed, w'⟩, hcompute, h⟩ := bind_eq_ok.mp h
        cases computed with
        | none => cases h
        | some computed =>
          simp only at h
          split at h
          · cases h
          · rename_i he
            obtain rfl := not_not.mp he
            exact ⟨coinbase, txs, computed, w', hvtx, hextract, hcompute⟩
  · rintro ⟨coinbase, txs, hash, w', hvtx, hextract, hcompute⟩
    unfold validateUTXOCheckpoint
    rw [if_neg hh, hvtx]
    simp only [hextract]
    refine ⟨withBackend v w', bind_eq_ok.mpr ⟨_, hcompute, ?_⟩⟩
    simp only [ne_eq, not_true, if_false]
    rfl

/-- the block passed every check of `ConnectBlock` on a view that shows `m`, whatever it attests -/
structure Accepted (H : Hashes) (rules : BlockRules) (pos : BlockPlace) (pprev : Uint256)
    (block : CBlock) (m : Utxos) : Prop where
  hash : pos.hash = H.blockHash block.toCBlockHeader
  parent : pos.pprev = some pprev
  checked : checkBlock H rules block true true = .ok ()
  ordinary : pos.hash ≠ rules.hashGenesisBlock
  applies : Applies H pos.nHeight block m
  transactions : ∃ index view st, view.Ok ∧ view.utxos = m ∧
    enforceBIP30 rules index pos pprev = true ∧
    connectTransactions H rules index pos pprev block view = .ok (none, st) ∧
    checkReward rules pos block (none, st) = .ok (none, st)

theorem checkReward_again {st st' : BlockProgress} (h : st'.nFees = st.nFees)
    (hr : checkReward rules pos block (none, st) = .ok (none, st)) :
    checkReward rules pos block (none, st') = .ok (none, st') := by
  unfold checkReward at hr ⊢
  split at hr
  · cases hr
  · rename_i coinbase txs hvtx
    obtain ⟨value_out, hvalue, hr⟩ := bind_eq_ok.mp hr
    refine bind_eq_ok.mpr ⟨value_out, hvalue, ?_⟩
    simp only [h] at hr ⊢
    split at hr
    · cases hr
    · rename_i hpays
      rw [if_neg hpays]
      have hq := (Prod.mk.inj (Except.ok.inj hr)).1
      rw [hq]
      rfl

section
variable (hbip : enforceBIP30 rules index pos pprev = true)
include hbip

theorem Accepted.again (h : Accepted H rules pos pprev block m) (hv : view.Ok) (hut : view.utxos = m) :
    ∃ st, connectTransactions H rules index pos pprev block view = .ok (none, st) ∧
      checkReward rules pos block (none, st) = .ok (none, st) ∧
      Steps view st.view (applyTxs H pos.nHeight block.vtx m) := by
  obtain ⟨index₀, view₀, st₀, hv₀, hut₀, hbip₀, htxs, hreward⟩ := h.transactions
  obtain ⟨st, htxs', halong, hsteps⟩ := connectTransactions_again
    ⟨hv₀, hv, hut.trans hut₀.symm⟩ (hut₀.symm ▸ h.applies) hbip₀ hbip htxs
  rw [hut₀] at hsteps
  exact ⟨st, htxs', checkReward_again halong.nFees hreward, hsteps⟩

theorem accepted_of_connectBlock {s : CoinsState G} {undo : UndoStore}
    {writable : Bool} {out : Connected G} (hv : view.Ok) (hempty : view.cacheCoins = FMap.empty)
    (hp : pos.pprev = some pprev) (hg : pos.hash ≠ rules.hashGenesisBlock)
    (h : connectBlock M H rules s undo index block pos view writable false true = .ok out)
    (hvalid : out.verdict = .valid) : Accepted H rules pos pprev block view.utxos := by
  obtain ⟨hok, hut, hcache⟩ := loadBestBlock_spec hv
  obtain ⟨hnot, -⟩ | ⟨hhash, hcheck, -, ⟨hgenesis, -⟩ | ⟨-, p, hp', hcontents⟩⟩ := connectBlock_cases h
  · exact absurd hvalid hnot
  · exact absurd hgenesis hg
  obtain rfl : p = pprev := Option.some.inj (hp'.symm.trans hp)
  obtain ⟨⟨e, st⟩, htxs, ⟨hnot, -⟩ | ⟨he, hreward, -⟩⟩ := connectContents_cases hcontents
  · exact absurd hvalid hnot
  obtain rfl : e = none := he
  obtain ⟨-, happ, -⟩ := connectTransactions_spec hok (hcache.trans hempty) hbip
    (checkBlock_ok hcheck) htxs
  rw [hut] at happ
  exact ⟨hhash, hp, hcheck, hg, happ, index, view.loadBestBlock, st, hok, hut, hbip, htxs, hreward⟩

theorem accepted_of_connectTip {env : ConnectEnv} {s s' : ChainCoins G} (hok : s.coins.coinsTip.Ok)
    (hp : pos.pprev = some pprev) (hg : pos.hash ≠ rules.hashGenesisBlock)
    (h : connectTip M H rules env index s pos block = .ok (true, s')) :
    Accepted H rules pos pprev block s.coins.coinsTip.utxos := by
  unfold connectTip at h
  rw [ite_throw_eq_ok] at h
  obtain ⟨out, hconnect, h⟩ := bind_eq_ok.mp h.2
  split at h
  · cases h
  rename_i hvalid
  obtain ⟨hempty, hshows⟩ := empty_spec hok true
  have := accepted_of_connectBlock hbip hempty rfl hp hg hconnect (not_not.mp hvalid)
  rwa [show CCoinsViewCache.utxos ⟨CacheLayer.empty true, s.coins.coinsTip.toView⟩ =
    s.coins.coinsTip.utxos from hshows] at this

end

section
variable {s : CoinsState G} {undo : UndoStore} {index : BlockMap} {block : CBlock}
  {pprev : Uint256} {view : CCoinsViewCache} {m : Utxos} {writable : Bool}
  (h : Accepted H rules pos pprev block m) (hbip : enforceBIP30 rules index pos pprev = true)
  (hv : view.Ok) (hut : view.utxos = m) (hbest : view.getBestBlock = pprev)
  (hundo : (undo.get pos.hash).isSome = true)
include h hbip hv hut hbest hundo

/-- what is left of `ConnectBlock` for a block that was accepted once: the attestation decides; the
accumulator is only loaded and the undo record is there already -/
theorem connectBlock_accepted (s : CoinsState G) (writable : Bool) :
    ∃ st : BlockProgress, st.view.Ok ∧ st.view.utxos = applyTxs H pos.nHeight block.vtx m ∧
      SameStack view.base st.view.base ∧
      connectBlock M H rules s undo index block pos view writable false false = (do
        let v ← validateUTXOCheckpoint M H block pos.nHeight st.view.toView
          (fun h => (index.lookupBlockIndex h).isSome) rules.params (some (s.utxoMuHash M))
        let view : CCoinsViewCache := { st.view with base := backend v.2 }
        match v.1 with
        | .error e => pure ⟨.invalid e, s.ensureUTXOMuHashLoaded M, view, undo⟩
        | .ok _ =>
          pure ⟨.valid, s.ensureUTXOMuHashLoaded M, view.setBestBlock pos.hash, undo⟩) := by
  obtain ⟨hload, hloadut, -⟩ := loadBestBlock_spec hv
  obtain ⟨st, htxs, hreward, hsteps⟩ := h.again hbip hload (hloadut.trans hut)
  refine ⟨st, hsteps.ok, hsteps.utxos, (loadBestBlock_base view).trans hsteps.base, ?_⟩
  have hwrite : writeBlockUndo undo pos.hash ⟨st.vtxundo⟩ writable = some undo := by
    obtain ⟨u, hu⟩ := Option.isSome_iff_exists.mp hundo
    rw [writeBlockUndo, hu]
  have hcommit : ∀ c : CCoinsViewCache, commitBlock M H (s.ensureUTXOMuHashLoaded M) undo block pos c
      st.vtxundo writable false false =
        ⟨.valid, s.ensureUTXOMuHashLoaded M, c.setBestBlock pos.hash, undo⟩ := by
    intro c
    unfold commitBlock
    rw [hwrite]
    rfl
  unfold connectBlock
  rw [if_neg (not_not.mpr h.hash)]
  simp only [Bool.not_false, h.checked, h.parent, Option.getD_some, hbest, ne_eq, not_true,
    if_false, if_neg h.ordinary]
  unfold connectContents
  rw [htxs]
  show (do
    let r ← checkReward rules pos block (none, st)
    _) = _
  rw [hreward]
  show (validateUTXOCheckpoint M H block pos.nHeight st.view.toView _ rules.params _ >>= _) =
    (validateUTXOCheckpoint M H block pos.nHeight st.view.toView _ rules.params _ >>= _)
  refine congrArg _ (funext fun v => ?_)
  obtain ⟨v, w⟩ := v
  cases v with
  | error e => rfl
  | ok u => exact congrArg Except.ok (hcommit _)

/-- **it connects again if it attests the view under the cache** -/
theorem connectBlock_again (writable : Bool) (hh : pos.nHeight ≠ 0)
    (hattest : AttestsOver M H rules.params (fun h => (index.lookupBlockIndex h).isSome)
      (s.utxoMuHash M) view.base block pos.nHeight) :
    ∃ view', connectBlock M H rules s undo index block pos view writable false false =
        .ok ⟨.valid, s.ensureUTXOMuHashLoaded M, view', undo⟩ ∧
      view'.Ok ∧ view'.utxos = applyTxs H pos.nHeight block.vtx m ∧
      view'.m_block_hash = pos.hash ∧ SameStack view.base view'.base := by
  obtain ⟨st, hst, hstut, hbase, heq⟩ := connectBlock_accepted (M := M) h hbip hv hut hbest hundo
    s writable
  obtain ⟨w, hvalid⟩ := (validateUTXOCheckpoint_iff (v := st.view.toView) hh).mpr
    (hattest.same hbase.toSameView)
  have hb := validateUTXOCheckpoint_base hvalid
  have hswap := steps_withBase hst hb
  obtain ⟨hok, hset⟩ := setBestBlock_spec hswap.ok pos.hash
  refine ⟨_, heq.trans (bind_eq_ok.mpr ⟨_, hvalid, rfl⟩), hok, ?_, rfl, hbase.trans hb⟩
  rw [hset, hswap.utxos, hstut]

theorem attestsOver_of_connectBlock (hh : pos.nHeight ≠ 0) {out : Connected G}
    (hc : connectBlock M H rules s undo index block pos view writable false false = .ok out)
    (hvalid : out.verdict = .valid) :
    AttestsOver M H rules.params (fun h => (index.lookupBlockIndex h).isSome) (s.utxoMuHash M)
      view.base block pos.nHeight := by
  obtain ⟨st, -, -, hbase, heq⟩ := connectBlock_accepted (M := M) h hbip hv hut hbest hundo s writable
  rw [heq] at hc
  obtain ⟨⟨v, w⟩, hvalidate, hc⟩ := bind_eq_ok.mp hc
  cases v with
  | error e =>
    cases hc
    cases hvalid
  | ok u =>
    have := (validateUTXOCheckpoint_iff hh).mp ⟨w, hvalidate⟩
    exact this.same hbase.toSameView.symm

end

end

end ElektronNet
