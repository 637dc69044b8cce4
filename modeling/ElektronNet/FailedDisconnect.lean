import ElektronNet.Accumulator

/-!
# A disconnection that fails

`DisconnectBlock` moves the accumulator while it goes through the transactions of a block, and the coins in a
view that `DisconnectTip` drops if the block cannot be taken back.  Here the loop runs over the plain set of
coins instead:

* `Unwinding`       the set, the coins that were taken out of it and those that were put back
* `unwoundOver`     the loop, up to the first undo record that does not fit
* `DroppedView`     the view of `DisconnectTip`: a cache that began empty, so an entry is FRESH exactly where
                    `CoinsTip` has no coin
* `undoTxs_tracks`  the accumulator follows the coins taken out and put back, in every run of the loop

so a failed disconnection leaves the accumulator alone iff those coins cancel out
(`disconnectTip_cancels_iff`), and leaves the coins alone always.
-/

set_option linter.unusedSectionVars false

namespace ElektronNet

open List Outcome CCoinsViewCache

/-! ## taking a block back on a set -/

structure Unwinding where
  utxos : Utxos
  taken : List CoinEntry
  restored : List CoinEntry

def Unwinding.begin (utxos : Utxos) : Unwinding := ⟨utxos, [], []⟩

/-- an output of the block; where a coin of `tip` was taken before, `SpendCoin` hands out an empty one -/
def Unwinding.take (tip : Utxos) (u : Unwinding) (o : COutPoint) : Unwinding :=
  match u.utxos.get o with
  | some coin => ⟨u.utxos.erase o, u.taken ++ [(o, coin)], u.restored⟩
  | none => if (tip.get o).isSome then { u with taken := u.taken ++ [(o, Coin.empty)] } else u

def Unwinding.takeOutputs (tip : Utxos) (txid : Uint256) : Nat → List CTxOut → Unwinding → Unwinding
  | _, [], u => u
  | o, out :: outs, u =>
    Unwinding.takeOutputs tip txid (o + 1) outs
      (if isUnspendable out.scriptPubKey then u else u.take tip ⟨txid, o⟩)

def otherOutput (m : Utxos) (txid : Uint256) : Nat → Nat → Option Coin
  | 0, _ => none
  | left + 1, n =>
    match m.get ⟨txid, n⟩ with
    | some coin => some coin
    | none => otherOutput m txid left (n + 1)

/-- the coin of an undo record, with the height that an old record lacks -/
def withMetadata (m : Utxos) (txid : Uint256) (undo : Coin) : Option Coin :=
  if undo.nHeight = 0 then
    (otherOutput m txid MAX_OUTPUTS_PER_BLOCK 0).map fun alternate =>
      { undo with nHeight := alternate.nHeight, fCoinBase := alternate.fCoinBase }
  else some undo

/-- the set after `AddCoin`, which drops what nobody can spend -/
def putCoin (m : Utxos) (o : COutPoint) (coin : Coin) : Utxos :=
  if isUnspendable coin.out.scriptPubKey then m else m.insert o coin

/-- the accumulator takes the coin that is found there afterwards -/
def Unwinding.put (u : Unwinding) (o : COutPoint) (coin : Coin) : Unwinding where
  utxos := putCoin u.utxos o coin
  taken := u.taken
  restored := u.restored ++ [(o, ((putCoin u.utxos o coin).get o).getD Coin.empty)]

/-- `false`: a coin whose height nobody knows -/
def Unwinding.putInputs : List (CTxIn × Coin) → Unwinding → Bool × Unwinding
  | [], u => (true, u)
  | (txin, undo) :: inputs, u =>
    match withMetadata u.utxos txin.prevout.hash undo with
    | none => (false, u)
    | some coin => putInputs inputs (u.put txin.prevout coin)

section
variable (H : Hashes) (tip : Utxos)

def Unwinding.takeBack (tx : CTransaction) (txundo : Option CTxUndo) (u : Unwinding) : Bool × Unwinding :=
  let u := Unwinding.takeOutputs tip (H.txid tx) 0 tx.vout u
  match txundo with
  | none => (true, u)
  | some txundo =>
    if txundo.vprevout.length ≠ tx.vin.length then (false, u)
    else Unwinding.putInputs (tx.vin.zip txundo.vprevout).reverse u

def Unwinding.takeBackAll : List UndoneTx → Unwinding → Bool × Unwinding
  | [], u => (true, u)
  | (tx, txundo) :: txs, u =>
    match Unwinding.takeBack H tip tx txundo u with
    | (false, u) => (false, u)
    | (true, u) => takeBackAll txs u

/-- how far the block is taken back from the set `tip`: not at all if the block or its undo data cannot be
read or they differ in length, else to the end or to the first record that does not fit -/
def unwoundOver (block : Option CBlock) (blockUndo : Option CBlockUndo) : Unwinding :=
  match block, blockUndo with
  | some block, some blockUndo =>
    if blockUndo.vtxundo.length + 1 ≠ block.vtx.length then Unwinding.begin tip
    else (Unwinding.takeBackAll H tip (unwindOrder block blockUndo) (Unwinding.begin tip)).2
  | _, _ => Unwinding.begin tip

end

/-! ## the view that is dropped -/

/-- a cache over `v` that began empty and shows the set `m` -/
structure DroppedView (v : CCoinsView) (c : CCoinsViewCache) (m : Utxos) : Prop where
  ok : c.Ok
  stack : SameStack v c.base
  utxos : c.utxos = m
  fresh : ∀ o e, c.cacheCoins.get o = some e → v.peekCoin o = none → e.fresh = true

section
variable {v : CCoinsView} {c c' : CCoinsViewCache} {m : Utxos}

section
variable (h : DroppedView v c m)
include h

theorem DroppedView.peek (o : COutPoint) : c.peek o = m.get o := by
  rw [← h.utxos, utxos_get]

theorem DroppedView.base_peek (o : COutPoint) : c.base.peekCoin o = v.peekCoin o :=
  (h.stack.peek o).symm

theorem DroppedView.fetchCoin (o : COutPoint) : DroppedView v (c.fetchCoin o) m := by
  refine ⟨fetchCoin_ok h.ok o, h.stack.trans (sameStack_fetchCoin c o), ?_, fun k e hk hnone => ?_⟩
  · rw [fetchCoin_utxos]
    exact h.utxos
  · have hget : (c.fetchCoin o).cacheCoins.get k = _ := filled_get c.toCacheLayer o (c.base.peekCoin o) k
    rw [hget] at hk
    by_cases hko : k = o
    · subst hko
      rw [if_pos rfl, h.base_peek, hnone] at hk
      cases hentry : c.cacheCoins.get k with
      | none => rw [hentry] at hk; cases hk
      | some e' =>
        rw [hentry] at hk
        obtain rfl := Option.some.inj hk
        exact h.fresh k e' hentry hnone
    · rw [if_neg hko] at hk
      exact h.fresh k e hk hnone

/-- **what `SpendCoin` hands out**: the coin that is shown, or an empty one where a coin of the base was
spent before -/
theorem DroppedView.spendCoin {o : COutPoint} {r : Option Coin} (hspend : c.spendCoin o = (r, c')) :
    DroppedView v c' (m.erase o) ∧ r = match m.get o with
      | some coin => some coin
      | none => if (v.peekCoin o).isSome then some Coin.empty else none := by
  obtain ⟨hok, hut, -, hbase, hsome, hnone⟩ := spendCoin_spec h.ok hspend
  have hf := h.fetchCoin o
  unfold CCoinsViewCache.spendCoin at hspend
  dsimp only at hspend
  cases hentry : (c.fetchCoin o).cacheCoins.get o with
  | none =>
    rw [hentry] at hspend
    cases hspend
    have hpeek := peek_of_fetchCoin_none hentry
    have hbelow : v.peekCoin o = none := by
      rw [← hf.base_peek, ← peek_of_no_entry hentry, fetchCoin_peek]
      exact hpeek
    refine ⟨⟨hok, h.stack.trans hbase, hut.trans (by rw [h.utxos]), hf.fresh⟩, ?_⟩
    rw [← h.peek, hpeek, hbelow]
    rfl
  | some it =>
    rw [hentry] at hspend
    obtain ⟨hr, hc'⟩ := Prod.mk.inj hspend
    refine ⟨⟨hok, h.stack.trans hbase, hut.trans (by rw [h.utxos]), fun k e hk hk' => ?_⟩, ?_⟩
    · rw [← hc'] at hk
      cases hfresh : it.fresh with
      | true =>
        rw [hfresh, if_pos rfl] at hk
        rw [FMap.erase_get] at hk
        split at hk
        · cases hk
        · exact hf.fresh k e hk hk'
      | false =>
        rw [hfresh, if_neg Bool.false_ne_true] at hk
        rw [FMap.insert_get] at hk
        split at hk
        · rename_i hko
          have htrue := hf.fresh o it hentry (hko ▸ hk')
          rw [hfresh] at htrue
          cases htrue
        · exact hf.fresh k e hk hk'
    · cases hget : m.get o with
      | some coin => exact hsome coin ((h.peek o).trans hget)
      | none =>
        -- the entry is a spent one, so the base has a coin
        have hpeek := (h.peek o).trans hget
        have hempty : r = some Coin.empty := by
          rcases hnone hpeek with hnil | hempty
          · rw [hnil] at hr
            cases hr
          · exact hempty
        have hspent : it.coin.isSpent = true := by
          have hcoin : it.coin = Coin.empty := Option.some.inj (hr.trans hempty)
          rw [hcoin]
          rfl
        have hbelow : (v.peekCoin o).isSome = true := by
          cases hv : v.peekCoin o with
          | some _ => rfl
          | none =>
            have htrue := hf.fresh o it hentry hv
            rw [((entry_ok hf.ok hentry).spent hspent).2.2] at htrue
            cases htrue
        rw [hempty, hbelow]
        rfl

theorem DroppedView.addCoin {o : COutPoint} {coin : Coin} {ow : Bool}
    (how : ow = (m.get o).isSome) (hadd : c.addCoin o coin ow = .ok c') :
    DroppedView v c' (putCoin m o coin) := by
  have hnew : ow = false → c.peek o = none := by
    intro hfalse
    rw [h.peek, ← Option.not_isSome_iff_eq_none, ← how, hfalse]
    exact Bool.false_ne_true
  obtain ⟨hok, hut, -, hbase⟩ := addCoin_spec h.ok hadd hnew
  refine ⟨hok, hbase ▸ h.stack, ?_, fun k e hk hk' => ?_⟩
  · rw [hut, h.utxos]
    rfl
  · obtain ⟨-, ⟨-, rfl⟩ | ⟨-, it, hit, -, rfl⟩⟩ := addCoin_eq_ok hadd
    · exact h.fresh k e hk hk'
    · change (c.cacheCoins.insert o _).get k = some e at hk
      rw [FMap.insert_get] at hk
      split at hk
      · rename_i hko
        subst hko
        obtain rfl := Option.some.inj hk
        show (it.fresh || (!ow && !it.dirty)) = true
        cases hentry : c.cacheCoins.get k with
        | some e' =>
          rw [hentry] at hit
          obtain rfl : it = e' := hit
          rw [h.fresh k it hentry hk']
          rfl
        | none =>
          rw [hentry] at hit
          have hfalse : ow = false := by
            rw [how, ← h.peek, peek_of_no_entry hentry, h.base_peek, hk']
            rfl
          rw [hit, hfalse]
          rfl
      · exact h.fresh k e hk hk'

theorem DroppedView.accessByTxid (txid : Uint256) (left n : Nat) :
    DroppedView v (accessByTxid txid left n c).2 m ∧
      otherOutput m txid left n = (if (accessByTxid txid left n c).1.isSpent then none
        else some (accessByTxid txid left n c).1) := by
  induction left generalizing n c with
  | zero => exact ⟨h, rfl⟩
  | succ left ih =>
    have haccess := accessCoin_eq h.ok (⟨txid, n⟩ : COutPoint)
    rw [h.peek] at haccess
    cases hget : m.get ⟨txid, n⟩ with
    | some coin =>
      rw [hget, Option.getD_some] at haccess
      have hunspent : coin.isSpent = false := peekCoin_unspent ((h.peek _).trans hget)
      have hfound : ElektronNet.accessByTxid txid (left + 1) n c = (coin, c.fetchCoin ⟨txid, n⟩) := by
        unfold ElektronNet.accessByTxid
        dsimp only
        rw [haccess, hunspent]
        rfl
      rw [hfound, otherOutput, hget]
      refine ⟨h.fetchCoin _, ?_⟩
      show some coin = if coin.isSpent = true then none else some coin
      rw [hunspent]
      rfl
    | none =>
      rw [hget] at haccess
      have hnext : ElektronNet.accessByTxid txid (left + 1) n c =
          ElektronNet.accessByTxid txid left (n + 1) (c.fetchCoin ⟨txid, n⟩) := by
        conv_lhs => unfold ElektronNet.accessByTxid
        rw [haccess]
        rfl
      rw [hnext, otherOutput, hget]
      exact ih (h.fetchCoin _) (n + 1)

theorem DroppedView.applyTxInUndo {undo : Coin} {o : COutPoint}
    {res : DisconnectResult} (happly : applyTxInUndo undo c o = .ok (res, c')) :
    match withMetadata m o.hash undo with
    | none => res = .DISCONNECT_FAILED ∧ DroppedView v c' m
    | some coin => res ≠ .DISCONNECT_FAILED ∧ DroppedView v c' (putCoin m o coin) := by
  have hf := h.fetchCoin o
  have hhave : c.haveCoin o = (m.get o).isSome := by rw [haveCoin_eq, h.peek]
  have hput : ∀ {c₁ : CCoinsViewCache} {coin : Coin}, DroppedView v c₁ m →
      (c₁.addCoin o coin (!!c.haveCoin o) >>= fun view =>
        pure (if (!c.haveCoin o) = true then DisconnectResult.DISCONNECT_OK else .DISCONNECT_UNCLEAN, view)) =
        Except.ok (res, c') → res ≠ .DISCONNECT_FAILED ∧ DroppedView v c' (putCoin m o coin) := by
    intro c₁ coin h₁ hbind
    obtain ⟨c₂, hadd, hend⟩ := bind_eq_ok.mp hbind
    cases hend
    refine ⟨?_, h₁.addCoin (by rw [Bool.not_not, hhave]) hadd⟩
    split <;> exact fun heq => by cases heq
  unfold ElektronNet.applyTxInUndo undoMetadata at happly
  unfold withMetadata
  dsimp only at happly
  by_cases hheight : undo.nHeight = 0
  · obtain ⟨h₁, hother⟩ := hf.accessByTxid o.hash MAX_OUTPUTS_PER_BLOCK 0
    rw [if_pos hheight] at happly ⊢
    rw [hother]
    generalize ElektronNet.accessByTxid o.hash MAX_OUTPUTS_PER_BLOCK 0 (c.fetchCoin o) = r at happly h₁ ⊢
    cases hspent : r.1.isSpent with
    | true =>
      rw [hspent] at happly
      cases happly
      exact ⟨rfl, h₁⟩
    | false =>
      rw [hspent] at happly
      exact hput h₁ happly
  · rw [if_neg hheight] at happly ⊢
    exact hput hf happly

end

end

/-! ## the accumulator beside it -/

section
variable {G : Type} [CommGroup G] (M : MuHash G)

def coinsProduct (coins : List CoinEntry) : G := (coins.map fun e => M.elem e.1 e.2).prod

/-- the accumulator `acc` after the coins of `u` -/
def Unwinding.accumulate (u : Unwinding) (acc : UTXOMuHashState G) : UTXOMuHashState G where
  m_muhash := acc.m_muhash * coinsProduct M u.restored / coinsProduct M u.taken
  m_coin_count := acc.m_coin_count + UInt64.ofNat u.restored.length - UInt64.ofNat u.taken.length

/-- what was taken out and what was put back have one product and one number -/
def Unwinding.Cancels (u : Unwinding) : Prop :=
  coinsProduct M u.restored = coinsProduct M u.taken ∧
    UInt64.ofNat u.restored.length = UInt64.ofNat u.taken.length

theorem coinsProduct_concat (coins : List CoinEntry) (o : COutPoint) (coin : Coin) :
    coinsProduct M (coins ++ [(o, coin)]) = coinsProduct M coins * M.elem o coin := by
  simp [coinsProduct]

theorem accumulate_begin (utxos : Utxos) (acc : UTXOMuHashState G) :
    (Unwinding.begin utxos).accumulate M acc = acc := by
  simp [Unwinding.accumulate, Unwinding.begin, coinsProduct]

theorem accumulate_taken (u : Unwinding) (m : Utxos) (acc : UTXOMuHashState G)
    (o : COutPoint) (coin : Coin) :
    Unwinding.accumulate M ⟨m, u.taken ++ [(o, coin)], u.restored⟩ acc =
      (u.accumulate M acc).removeCoin M o coin := by
  unfold Unwinding.accumulate UTXOMuHashState.removeCoin
  rw [coinsProduct_concat, div_mul_eq_div_div, length_append, UInt64.ofNat_add]
  congr 1
  show acc.m_coin_count + UInt64.ofNat u.restored.length - (UInt64.ofNat u.taken.length + 1) = _
  grind

theorem accumulate_restored (u : Unwinding) (m : Utxos) (acc : UTXOMuHashState G)
    (o : COutPoint) (coin : Coin) :
    Unwinding.accumulate M ⟨m, u.taken, u.restored ++ [(o, coin)]⟩ acc =
      (u.accumulate M acc).addCoin M o coin := by
  unfold Unwinding.accumulate UTXOMuHashState.addCoin
  rw [coinsProduct_concat, ← mul_assoc, mul_div_right_comm, length_append, UInt64.ofNat_add]
  congr 1
  show acc.m_coin_count + (UInt64.ofNat u.restored.length + 1) - _ = acc.m_coin_count + _ - _ + 1
  grind

/-- **the accumulator is back where it was iff the coins cancel out** -/
theorem accumulate_eq_iff (u : Unwinding) (acc : UTXOMuHashState G) :
    u.accumulate M acc = acc ↔ u.Cancels M := by
  unfold Unwinding.accumulate Unwinding.Cancels
  constructor
  · intro h
    obtain ⟨hprod, hcount⟩ := (UTXOMuHashState.mk.injEq ..).mp h
    refine ⟨?_, ?_⟩
    · rw [div_eq_iff_eq_mul] at hprod
      exact mul_left_cancel hprod
    · grind
  · rintro ⟨hprod, hcount⟩
    rw [hprod, hcount, mul_div_cancel_right, UInt64.add_sub_cancel]

/-- the loop with its view and its accumulator has come as far as `u` -/
structure Tracks (v : CCoinsView) (acc : UTXOMuHashState G) (st : Unwind G) (u : Unwinding) : Prop where
  scratch : DroppedView v st.view u.utxos
  acc : st.acc = u.accumulate M acc

variable {v : CCoinsView} {acc : UTXOMuHashState G} {st : Unwind G} {u : Unwinding} (H : Hashes)
  (pos : BlockPlace)

section
variable (h : Tracks M v acc st u)
include h

theorem undoOutput_tracks (is_coinbase : Bool) (o : COutPoint) (out : CTxOut) :
    Tracks M v acc (undoOutput M pos true is_coinbase o out st) (u.take v.fetchEffectiveUTXOs o) := by
  cases hspend : st.view.spendCoin o with
  | mk r c =>
    obtain ⟨hscratch, hr⟩ := h.scratch.spendCoin hspend
    unfold undoOutput Unwinding.take
    rw [hspend, fetchEffectiveUTXOs_get]
    cases hget : u.utxos.get o with
    | some coin =>
      rw [hget] at hr
      refine ⟨hscratch, ?_⟩
      rw [hr, accumulate_taken, ← h.acc]
      rfl
    | none =>
      rw [hget] at hr
      rw [FMap.erase_of_get_none hget] at hscratch
      cases hbelow : (v.peekCoin o).isSome with
      | true =>
        rw [hbelow, if_pos rfl] at hr
        refine ⟨hscratch, ?_⟩
        rw [hr, if_pos rfl, accumulate_taken, ← h.acc]
        rfl
      | false =>
        rw [hbelow] at hr
        rw [hr]
        exact ⟨hscratch, h.acc⟩

theorem undoOutputs_tracks (is_coinbase : Bool) (txid : Uint256) (o : Nat) (outs : List CTxOut) :
    Tracks M v acc (undoOutputs M pos true is_coinbase txid o outs st)
      (Unwinding.takeOutputs v.fetchEffectiveUTXOs txid o outs u) := by
  induction outs generalizing o st u with
  | nil => exact h
  | cons out outs ih =>
    refine ih ?_ (o + 1)
    cases isUnspendable out.scriptPubKey with
    | true => exact h
    | false => exact undoOutput_tracks M pos h is_coinbase ⟨txid, o⟩ out

theorem undoInputs_tracks {inputs : List (CTxIn × Coin)} {r : Bool × Unwind G}
    (hrun : undoInputs M true inputs st = .ok r) :
    r.1 = (Unwinding.putInputs inputs u).1 ∧ Tracks M v acc r.2 (Unwinding.putInputs inputs u).2 := by
  induction inputs generalizing st u with
  | nil =>
    cases hrun
    exact ⟨rfl, h⟩
  | cons e inputs ih =>
    obtain ⟨txin, undo⟩ := e
    obtain ⟨⟨res, c⟩, happly, hrun⟩ := bind_eq_ok.mp hrun
    have hspec := h.scratch.applyTxInUndo happly
    unfold Unwinding.putInputs
    cases hmeta : withMetadata u.utxos txin.prevout.hash undo with
    | none =>
      rw [hmeta] at hspec
      obtain ⟨rfl, hscratch⟩ := hspec
      cases hrun
      exact ⟨rfl, hscratch, h.acc⟩
    | some coin =>
      rw [hmeta] at hspec
      obtain ⟨hres, hscratch⟩ := hspec
      have hstep : Tracks M v acc (restored M true txin.prevout c res st) (u.put txin.prevout coin) := by
        refine ⟨hscratch.fetchCoin _, ?_⟩
        show st.acc.addCoin M txin.prevout (c.accessCoin txin.prevout) = _
        unfold Unwinding.put
        rw [accumulate_restored, ← h.acc, accessCoin_eq hscratch.ok, hscratch.peek]
      cases res with
      | DISCONNECT_FAILED => exact absurd rfl hres
      | DISCONNECT_OK => exact ih hstep hrun
      | DISCONNECT_UNCLEAN => exact ih hstep hrun

theorem undoTx_tracks {tx : CTransaction} {txundo : Option CTxUndo} {r : Bool × Unwind G}
    (hrun : undoTx M H pos true tx txundo st = .ok r) :
    r.1 = (Unwinding.takeBack H v.fetchEffectiveUTXOs tx txundo u).1 ∧
      Tracks M v acc r.2 (Unwinding.takeBack H v.fetchEffectiveUTXOs tx txundo u).2 := by
  have houts := undoOutputs_tracks M pos h tx.isCoinBase (H.txid tx) 0 tx.vout
  unfold undoTx at hrun
  unfold Unwinding.takeBack
  cases txundo with
  | none =>
    cases hrun
    exact ⟨rfl, houts⟩
  | some txundo =>
    dsimp only at hrun ⊢
    by_cases hlength : txundo.vprevout.length ≠ tx.vin.length
    · rw [if_pos hlength] at hrun ⊢
      cases hrun
      exact ⟨rfl, houts⟩
    · rw [if_neg hlength] at hrun ⊢
      exact undoInputs_tracks M houts hrun

theorem undoTxs_tracks {txs : List UndoneTx} {r : Bool × Unwind G}
    (hrun : undoTxs M H pos true txs st = .ok r) :
    Tracks M v acc r.2 (Unwinding.takeBackAll H v.fetchEffectiveUTXOs txs u).2 := by
  induction txs generalizing st u with
  | nil =>
    cases hrun
    exact h
  | cons e txs ih =>
    obtain ⟨tx, txundo⟩ := e
    obtain ⟨⟨done, st₁⟩, htx, hrun⟩ := bind_eq_ok.mp hrun
    obtain ⟨hdone, hstep⟩ := undoTx_tracks M H pos h htx
    unfold Unwinding.takeBackAll
    cases hback : Unwinding.takeBack H v.fetchEffectiveUTXOs tx txundo u with
    | mk done' u₁ =>
      rw [hback] at hdone hstep
      obtain rfl : done = done' := hdone
      cases done with
      | false =>
        cases hrun
        exact hstep
      | true => exact ih hstep hrun

end

theorem disconnectBlock_tracks {s : CoinsState G} {undo : UndoStore} {block : CBlock}
    {view : CCoinsViewCache} {out : Disconnected G} (hview : DroppedView v view v.fetchEffectiveUTXOs)
    (h : disconnectBlock M H s undo block pos view true = .ok out) :
    SameStack v out.view.base ∧ out.coins = { s.ensureUTXOMuHashLoaded M with
      m_utxo_muhash := (unwoundOver H v.fetchEffectiveUTXOs (some block) (undo.get pos.hash)).accumulate M
        (s.ensureUTXOMuHashLoaded M).m_utxo_muhash } := by
  unfold disconnectBlock at h
  simp only [loadForUpdate, if_true] at h
  unfold unwoundOver
  cases hundo : undo.get pos.hash with
  | none =>
    rw [hundo] at h
    cases h
    refine ⟨hview.stack, ?_⟩
    rw [accumulate_begin]
  | some blockUndo =>
    rw [hundo] at h
    dsimp only at h ⊢
    by_cases hlength : blockUndo.vtxundo.length + 1 ≠ block.vtx.length
    · rw [if_pos hlength] at h ⊢
      cases h
      refine ⟨hview.stack, ?_⟩
      rw [accumulate_begin]
    · rw [if_neg hlength] at h ⊢
      obtain ⟨r, htxs, hend⟩ := bind_eq_ok.mp h
      have hbegin : Tracks M v (s.ensureUTXOMuHashLoaded M).m_utxo_muhash
          ⟨view, (s.ensureUTXOMuHashLoaded M).m_utxo_muhash, true⟩
          (Unwinding.begin v.fetchEffectiveUTXOs) := ⟨hview, (accumulate_begin M _ _).symm⟩
      obtain ⟨hscratch, hacc⟩ := undoTxs_tracks M H pos hbegin htxs
      unfold finishDisconnect at hend
      split at hend
      · cases hend
        exact ⟨hscratch.stack, by rw [hacc]⟩
      · split at hend
        · cases hend
        · cases hend
          exact ⟨hscratch.stack, by rw [hacc]⟩

/-! ## DisconnectTip -/

/-- `DisconnectTip` returns false before it flushes its view, and leaves `s'` -/
def FailsEarly (flush : FlushEnv) (s : ChainCoins G) (pos : BlockPlace) (block : Option CBlock)
    (s' : ChainCoins G) : Prop :=
  disconnectTip M H flush s pos block = .ok (false, s') ∧
    ∀ b, block = some b → ∃ out, disconnectBlock M H s.coins s.undo b pos
      (CCoinsViewCache.new s.coins.coinsTip.toView).loadBestBlock true = .ok out ∧
        out.result ≠ .DISCONNECT_OK

theorem scratch_new {s : CoinsState G} (hok : s.coinsTip.Ok) :
    DroppedView s.coinsTip.toView (CCoinsViewCache.new s.coinsTip.toView).loadBestBlock
      s.coinsTip.toView.fetchEffectiveUTXOs := by
  obtain ⟨hload, hut, hcache⟩ := loadBestBlock_spec (new_ok (v := s.coinsTip.toView) hok)
  refine ⟨hload, loadBestBlock_base (CCoinsViewCache.new s.coinsTip.toView), hut.trans (new_utxos _),
    fun o e he => ?_⟩
  cases he

/-- **A disconnection that fails leaves the coins alone, and the accumulator iff what it had taken out by
then and what it had put back cancel out.** -/
theorem disconnectTip_cancels_iff {flush : FlushEnv} {s s' : ChainCoins G} {block : Option CBlock}
    (hok : s.coins.coinsTip.Ok) (h : FailsEarly M H flush s pos block s') :
    s'.coins.coinsTip.utxos = s.coins.coinsTip.utxos ∧
      (s'.coins.utxoMuHash M = s.coins.utxoMuHash M ↔
        (unwoundOver H s.coins.coinsTip.utxos block (s.undo.get pos.hash)).Cancels M) := by
  obtain ⟨hrun, hearly⟩ := h
  unfold disconnectTip at hrun
  rw [ite_throw_eq_ok] at hrun
  obtain ⟨-, hrun⟩ := hrun
  split at hrun
  · cases hrun
  · -- the block cannot be read
    cases hrun
    exact ⟨rfl, iff_of_true rfl ⟨rfl, rfl⟩⟩
  · rename_i pprev b hpprev
    rw [ite_throw_eq_ok] at hrun
    obtain ⟨-, hrun⟩ := hrun
    obtain ⟨out, hout, hrun⟩ := bind_eq_ok.mp hrun
    obtain ⟨out', hout', hresult⟩ := hearly b rfl
    obtain rfl : out = out' := Except.ok.inj (hout.symm.trans hout')
    rw [if_pos hresult] at hrun
    cases hrun
    obtain ⟨hstack, hcoins⟩ := disconnectBlock_tracks M H pos (scratch_new hok) hout
    have htip : out.coins.coinsTip = s.coins.coinsTip := by
      rw [hcoins]
      exact CoinsState.ensureUTXOMuHashLoaded_coinsTip M s.coins
    obtain ⟨hview, -⟩ := withCoinsTip_same (s := out.coins) (by rw [htip]; exact hstack)
    refine ⟨?_, ?_⟩
    · refine utxos_congr fun o => ?_
      show (out.coins.withCoinsTip out.view.base).coinsTip.toView.peekCoin o = _
      rw [hview, ← hstack.peek]
      rfl
    · have hloaded : (out.coins.withCoinsTip out.view.base).m_utxo_muhash_loaded = true := by
        show out.coins.m_utxo_muhash_loaded = true
        rw [hcoins]
        exact CoinsState.ensureUTXOMuHashLoaded_loaded M s.coins
      have hacc : (out.coins.withCoinsTip out.view.base).utxoMuHash M =
          (unwoundOver H s.coins.coinsTip.utxos (some b) (s.undo.get pos.hash)).accumulate M
            (s.coins.utxoMuHash M) := by
        unfold CoinsState.utxoMuHash
        rw [ensureUTXOMuHashLoaded_of_loaded hloaded]
        show out.coins.m_utxo_muhash = _
        rw [hcoins]
        rfl
      show (out.coins.withCoinsTip out.view.base).utxoMuHash M = _ ↔ _
      rw [hacc]
      exact accumulate_eq_iff M _ _

end

/-! ## a tip whose undo record does not fit -/

/-- a coinbase and a payment at height 2 -/
def brokenBlock : CBlock :=
  { sampleMined 3 with vtx := [sampleTx COutPoint.null 5 2, sampleTx ⟨sampleId 7, 0⟩ 5 1] }

def brokenPlace : BlockPlace := ⟨sampleId 3, some (sampleId 1), 2⟩

def brokenCoins : Utxos :=
  (FMap.empty.insert ⟨Uint256.ofByte 2, 0⟩ ⟨⟨5, [OP_1]⟩, true, 2⟩).insert ⟨Uint256.ofByte 1, 0⟩
    ⟨⟨5, [OP_1]⟩, false, 2⟩

def brokenTip : ChainCoins (Multiplicative ℤ) where
  coins := ⟨CacheLayer.empty false,
    ⟨brokenCoins, sampleId 3, [], unspent_insert (unspent_insert (by simp) _ rfl) _ rfl⟩,
    UTXOMuHashState.ofSet sampleMuHash brokenCoins, true, none⟩
  tip := some (sampleId 3)
  undo := FMap.empty.insert (sampleId 3) ⟨[⟨[]⟩]⟩

/-- **A failed disconnection moves the accumulator**: the payment is taken out of it before its record is
looked at, and the coin stays in `CoinsTip`. -/
theorem disconnectTip_forgets_coin : ∃ s' : ChainCoins (Multiplicative ℤ),
    FailsEarly sampleMuHash sampleHashes sampleDisk brokenTip brokenPlace (some brokenBlock) s' ∧
      brokenTip.coins.utxoMuHash sampleMuHash =
        UTXOMuHashState.ofSet sampleMuHash brokenTip.coins.coinsTip.utxos ∧
      s'.coins.coinsTip.utxos.card = 2 ∧ (s'.coins.utxoMuHash sampleMuHash).m_coin_count = 1 :=
  ⟨_, ⟨rfl, fun b hb => by cases hb; exact ⟨_, rfl, by decide⟩⟩, rfl, rfl, by decide⟩

end ElektronNet
