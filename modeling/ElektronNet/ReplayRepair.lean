import ElektronNet.Crash

/-!
# Replay after a flush across two branches

`ReplayBlocks` on a database between the set of an old tip and the set of a new one, when the two are on
different branches.  Disconnecting a block writes blindly as connecting does, so it does not matter
which of its coins were written: on the shown map the roll back is a change that `Overwrites`, it takes
the set of the old tip to the set of the fork, and what it keeps is a coin of the fork or of the new tip.

* `disconnectBlock_any`   on any view: not a failure, and the map without the block
* `rollBack_spec`         from a block down to one below it
* `replayBlocks_repairs`  the replay ends with the set of the new tip
* `replays_repair`        so does the last of several, the others cut short
-/

namespace ElektronNet

open List Outcome Option CCoinsViewCache Redo

/-! ## blind writes -/

theorem overwrites_uncreateFrom (txid : Uint256) (i : Nat) (outs : List CTxOut) :
    Overwrites (uncreateFrom txid i outs) := by
  induction outs generalizing i with
  | nil => exact overwrites_id
  | cons out outs ih =>
    refine (ih (i + 1)).comp ?_
    cases isUnspendable out.scriptPubKey with
    | true => exact overwrites_id
    | false => exact overwrites_erase _

theorem overwrites_unspendAll (inputs : List (CTxIn × Coin)) : Overwrites (unspendAll inputs) := by
  induction inputs with
  | nil => exact overwrites_id
  | cons e inputs ih => exact ih.comp (overwrites_insert e.1.prevout e.2)

theorem overwrites_unapplyTxs (H : Hashes) (txs : List UndoneTx) : Overwrites (unapplyTxs H txs) := by
  induction txs with
  | nil => exact overwrites_id
  | cons e txs ih =>
    obtain ⟨tx, txundo⟩ := e
    refine ih.comp ?_
    cases txundo with
    | none => exact overwrites_uncreateFrom _ _ _
    | some u => exact (overwrites_unspendAll _).comp (overwrites_uncreateFrom _ _ _)

/-! ## taking a block back on any view -/

section
variable {G : Type} [CommGroup G] (M : MuHash G) (H : Hashes) (pos : BlockPlace)

/-- a coin that can be put back -/
structure Coin.Restorable (coin : Coin) : Prop extends coin.Regular where
  unspent : coin.isSpent = false

theorem applyTxInUndo_any {undo : Coin} {c : CCoinsViewCache} (o : COutPoint) (hundo : undo.Restorable) :
    ∃ r, applyTxInUndo undo c o = .ok r ∧ r.1 ≠ .DISCONNECT_FAILED := by
  obtain ⟨c', hadd⟩ : ∃ c', (c.fetchCoin o).addCoin o undo (!!c.haveCoin o) = .ok c' := by
    refine addCoin_ok undo hundo.unspent fun how _ => ?_
    rw [haveCoin_eq] at how
    simpa using how
  unfold applyTxInUndo undoMetadata
  rw [if_neg hundo.height]
  refine ⟨_, bind_eq_ok.mpr ⟨c', hadd, rfl⟩, ?_⟩
  split <;> simp

theorem undoInputs_any {inputs : List (CTxIn × Coin)} (hundo : ∀ e ∈ inputs, e.2.Restorable)
    (st : Unwind G) : ∃ st', undoInputs M true inputs st = .ok (true, st') := by
  induction inputs generalizing st with
  | nil => exact ⟨st, rfl⟩
  | cons e inputs ih =>
    obtain ⟨⟨res, c⟩, hr, hnot⟩ := applyTxInUndo_any (c := st.view) e.1.prevout (hundo e mem_cons_self)
    obtain ⟨st', hst'⟩ := ih (fun e he => hundo e (mem_cons_of_mem _ he))
      (restored M true e.1.prevout c res st)
    refine ⟨st', bind_eq_ok.mpr ⟨(res, c), hr, ?_⟩⟩
    cases res with
    | DISCONNECT_FAILED => exact absurd rfl hnot
    | DISCONNECT_OK => exact hst'
    | DISCONNECT_UNCLEAN => exact hst'

def FitsUndo (tx : CTransaction) (txundo : Option CTxUndo) : Prop :=
  ∀ u, txundo = some u → u.vprevout.length = tx.vin.length ∧ ∀ coin ∈ u.vprevout, coin.Restorable

theorem undoTx_any {tx : CTransaction} {txundo : Option CTxUndo} (hfits : FitsUndo tx txundo)
    (st : Unwind G) : ∃ st', undoTx M H pos true tx txundo st = .ok (true, st') := by
  unfold undoTx
  cases txundo with
  | none => exact ⟨_, rfl⟩
  | some u =>
    obtain ⟨hlength, hcoins⟩ := hfits u rfl
    dsimp only
    rw [if_neg (not_not_intro hlength)]
    exact undoInputs_any M (fun e he =>
      hcoins e.2 (of_mem_zip (Prod.mk.eta (p := e) ▸ mem_reverse.mp he)).2) _

theorem undoTxs_any {txs : List UndoneTx} (hfits : ∀ e ∈ txs, FitsUndo e.1 e.2)
    (st : Unwind G) : ∃ st', undoTxs M H pos true txs st = .ok (true, st') := by
  induction txs generalizing st with
  | nil => exact ⟨st, rfl⟩
  | cons e txs ih =>
    obtain ⟨st₁, h₁⟩ := undoTx_any M H pos (hfits e mem_cons_self) st
    obtain ⟨st', h'⟩ := ih (fun e he => hfits e (mem_cons_of_mem _ he)) st₁
    exact ⟨st', bind_eq_ok.mpr ⟨(true, st₁), h₁, h'⟩⟩

/-- **Disconnecting a block on any view** is not a failure if its undo record is there and fits. -/
theorem disconnectBlock_any {s : CoinsState G} {undo : UndoStore} {block : CBlock} {bu : CBlockUndo}
    {pprev : Uint256} {view : CCoinsViewCache} (hv : view.Ok) (hbu : undo.get pos.hash = some bu)
    (hpprev : pos.pprev = some pprev) (hlength : bu.vtxundo.length + 1 = block.vtx.length)
    (hfits : ∀ e ∈ unwindOrder block bu, FitsUndo e.1 e.2) :
    ∃ out, disconnectBlock M H s undo block pos view true = .ok out ∧
      out.result ≠ .DISCONNECT_FAILED ∧ out.coins.coinsDB = s.coinsDB ∧ out.view.Ok ∧
      SameStack view.base out.view.base ∧
      out.view.utxos = unapplyTxs H (unwindOrder block bu) view.utxos := by
  obtain ⟨st, hst⟩ := undoTxs_any M H pos hfits
    ⟨view, (s.ensureUTXOMuHashLoaded M).m_utxo_muhash, true⟩
  have hu := undoTxs_spec M H hv (fun e he u hu coin hcoin =>
    ((hfits e he u hu).2 coin hcoin).toRegular) hst
  obtain ⟨hok, hut⟩ := setBestBlock_spec hu.ok pprev
  refine ⟨⟨if st.fClean then .DISCONNECT_OK else .DISCONNECT_UNCLEAN,
    { s.ensureUTXOMuHashLoaded M with m_utxo_muhash := st.acc }, st.view.setBestBlock pprev⟩, ?_, ?_,
    ensureUTXOMuHashLoaded_coinsDB s, hok, hu.base, hut.trans hu.utxos⟩
  · unfold disconnectBlock
    rw [hbu]
    show (if bu.vtxundo.length + 1 ≠ block.vtx.length then _ else _) = _
    rw [if_neg (not_not_intro hlength)]
    refine bind_eq_ok.mpr ⟨(true, st), hst, ?_⟩
    unfold finishDisconnect
    rw [hpprev]
    rfl
  · show (if _ then _ else _) ≠ _
    split <;> exact fun h => by cases h

end

/-! ## undo records that fit -/

theorem spentCoins_unspent {m : Utxos} (hm : m.All fun _ coin => coin.isSpent = false)
    {vin : List CTxIn} (hin : InputsPresent vin m) : ∀ coin ∈ spentCoins vin m, coin.isSpent = false := by
  induction vin generalizing m with
  | nil =>
    intro coin hcoin
    cases hcoin
  | cons txin vin ih =>
    obtain ⟨coin, hcoin⟩ := isSome_iff_exists.mp hin.1
    intro c hc
    rw [spentCoins, hcoin] at hc
    rcases mem_cons.mp hc with rfl | hmem
    · exact hm _ _ hcoin
    · exact ih (hm.erase _) hin.2 c hmem

theorem undoRecords_fit {H : Hashes} {nHeight : Nat} (hh : nHeight ≠ 0) {txs : List CTransaction}
    {m : Utxos} (hm : Regular m) (hu : m.All fun _ coin => coin.isSpent = false)
    (hcb : ∀ tx ∈ txs, tx.isCoinBase = false) (hspend : BlockSpends H nHeight txs m) :
    ∀ e ∈ txs.zip ((undoRecords H nHeight txs m).map some), FitsUndo e.1 e.2 := by
  induction txs generalizing m with
  | nil =>
    intro e he
    cases he
  | cons tx txs ih =>
    intro e he
    have htx := hcb tx mem_cons_self
    rw [undoRecords, htx] at he
    rcases mem_cons.mp he with rfl | hmem
    · intro u hsome
      cases hsome
      exact ⟨spentCoins_length _ _, fun coin hcoin =>
        ⟨spentCoins_regular hm (hspend.1 htx) coin hcoin, spentCoins_unspent hu (hspend.1 htx) coin hcoin⟩⟩
    · refine ih (regular_applyTx hm H hh tx) ?_ (fun t ht => hcb t (mem_cons_of_mem _ ht))
        hspend.2.2 e hmem
      exact all_applyTx hu fun k out hk _ => hspend.2.1 out (mem_of_getElem? hk)

theorem blockUndo_fits {H : Hashes} {nHeight : Nat} (hh : nHeight ≠ 0) {block : CBlock}
    {m : Utxos} (hm : Regular m) (hu : m.All fun _ coin => coin.isSpent = false)
    (happ : Applies H nHeight block m) : (blockUndo H nHeight block m).vtxundo.length + 1 = block.vtx.length ∧
      ∀ e ∈ unwindOrder block (blockUndo H nHeight block m), FitsUndo e.1 e.2 := by
  obtain ⟨coinbase, txs, hvtx, hcoinbase, hcb⟩ := happ.coinbase
  have hspends := happ.spends
  rw [hvtx] at hspends
  unfold blockUndo unwindOrder
  rw [hvtx, undoRecords, tail_cons]
  refine ⟨by rw [undoRecords_length, length_cons], fun e he => ?_⟩
  have hmem := mem_reverse.mp he
  rcases mem_cons.mp hmem with rfl | hmem
  · intro u hsome
    cases hsome
  · refine undoRecords_fit hh (regular_applyTx hm H hh coinbase) ?_ hcb hspends.2.2 e hmem
    exact all_applyTx hu fun k out hk _ => hspends.2.1 out (mem_of_getElem? hk)

/-! ## the old branch -/

section
variable {H : Hashes} {rules : BlockRules} {m : BlockMap} {blocks : BlockData}
  {S : Uint256 → Utxos} {undo : UndoStore} {G : Type} [CommGroup G] {M : MuHash G}

def UnspentSets (S : Uint256 → Utxos) : Prop :=
  ∀ b, (S b).All fun _ coin => coin.isSpent = false

/-- block and undo data of the old branch are there -/
def RewindableFrom (m : BlockMap) (blocks : BlockData) (undo : UndoStore) (old new : Uint256) : Prop :=
  ∀ b ∈ m.forest.path old, b ∉ m.forest.path new →
    (blocks b).isSome = true ∧ (undo.get b).isSome = true

theorem disconnect_old {b p : Uint256} (hS : Ledger H rules m blocks S) (hunspent : UnspentSets S)
    (hundo : UndoOf H m blocks S undo) (hp : m.pprev b = some p) {block : CBlock}
    (hblock : blocks b = some block) (hrecord : (undo.get b).isSome = true) (s : CoinsState G)
    {view : CCoinsViewCache} (hv : view.Ok) :
    ∃ out, disconnectBlock M H s undo block ⟨b, m.pprev b, m.nHeight b⟩ view true = .ok out ∧
      out.result ≠ .DISCONNECT_FAILED ∧ out.coins.coinsDB = s.coinsDB ∧ out.view.Ok ∧
      SameStack view.base out.view.base ∧
      ∃ f, Overwrites f ∧ f (S b) = S p ∧ out.view.utxos = f view.utxos := by
  obtain ⟨bu, hbu⟩ := isSome_iff_exists.mp hrecord
  obtain ⟨hbu', happ⟩ := hundo b bu p block hbu hp hblock
  have hheight : m.nHeight b = m.nHeight p + 1 := m.forest.height_parent b p hp
  obtain ⟨hlength, hfits⟩ := blockUndo_fits (by omega) (hS.regular p) (hunspent p) happ
  rw [← hbu'] at hlength hfits
  obtain ⟨out, hout, hnot, hdb, hok, hbase, hut⟩ := @disconnectBlock_any G _ M H
    ⟨b, m.pprev b, m.nHeight b⟩ s undo block bu p view hv hbu hp hlength hfits
  refine ⟨out, hout, hnot, hdb, hok, hbase, unapplyTxs H (unwindOrder block bu),
    overwrites_unapplyTxs H _, ?_, hut⟩
  obtain ⟨coinbase, txs, hvtx, hcoinbase, hcb⟩ := happ.coinbase
  rw [hS.child b p block hp hblock, hbu', unwindOrder, blockUndo, hvtx]
  exact unapplyTxs_applyTxs H hcoinbase hcb (hvtx ▸ happ.spends) (hvtx ▸ happ.fresh)

theorem rollBack_spec {fork old : Uint256} (hS : Ledger H rules m blocks S) (hunspent : UnspentSets S)
    (hundo : UndoOf H m blocks S undo) (hfork : fork ∈ m.forest.path old)
    (habove : ∀ b ∈ m.forest.path old, m.nHeight fork < m.nHeight b →
      (blocks b).isSome = true ∧ (undo.get b).isSome = true)
    (s : CoinsState G) {view : CCoinsViewCache} (hv : view.Ok) :
    ∃ s' view', rollBack H m blocks M undo (oldBranch m old (some fork)) s view =
        .ok (some (s', view')) ∧ s'.coinsDB = s.coinsDB ∧ view'.Ok ∧ SameStack view.base view'.base ∧
      ∃ f, Overwrites f ∧ f (S old) = S fork ∧ view'.utxos = f view.utxos := by
  by_cases heq : old = fork
  · obtain ⟨rest, hrest⟩ := m.forest.path_cons old
    refine ⟨s, view, ?_, rfl, hv, SameStack.refl _, id, overwrites_id, by rw [heq]; rfl, rfl⟩
    rw [oldBranch, hrest, takeWhile_cons_of_neg (by simpa using heq)]
    rfl
  · induction old using m.forest.path_induction generalizing s view with
    | root b hroot =>
      rw [m.forest.path_root hroot, mem_singleton] at hfork
      exact absurd hfork.symm heq
    | child b p hp ih =>
      have hheight : m.nHeight b = m.nHeight p + 1 := m.forest.height_parent b p hp
      have hpath : m.forest.path b = b :: m.forest.path p := m.forest.path_parent hp
      have hforkp : fork ∈ m.forest.path p := by
        rw [hpath] at hfork
        exact (mem_cons.mp hfork).resolve_left fun h => heq h.symm
      have hlow : m.nHeight fork ≤ m.nHeight p := m.forest.height_le_of_mem hforkp
      obtain ⟨hread, hrecord⟩ := habove b (m.forest.self_mem_path b) (by omega)
      obtain ⟨block, hblock⟩ := isSome_iff_exists.mp hread
      obtain ⟨out, hout, hnot, hdb, hok, hbase, f, hf, hSf, hut⟩ :=
        disconnect_old (M := M) hS hunspent hundo hp hblock hrecord s hv
      have hbranch : oldBranch m b (some fork) = b :: oldBranch m p (some fork) := by
        rw [oldBranch, hpath, takeWhile_cons_of_pos (by simpa using heq)]
        rfl
      have hstep : ∀ r, rollBack H m blocks M undo (oldBranch m p (some fork)) out.coins out.view = .ok r →
          rollBack H m blocks M undo (oldBranch m b (some fork)) s view = .ok r := by
        intro r hr
        rw [hbranch, rollBack, if_neg (by omega), hblock]
        refine bind_eq_ok.mpr ⟨out, hout, ?_⟩
        rw [if_neg hnot]
        exact hr
      by_cases hpf : p = fork
      · obtain ⟨rest, hrest⟩ := m.forest.path_cons p
        refine ⟨out.coins, out.view, hstep _ ?_, hdb, hok, hbase, f, hf, by rw [hSf, hpf], hut⟩
        rw [oldBranch, hrest, takeWhile_cons_of_neg (by simpa using hpf)]
        rfl
      · obtain ⟨s', view', hr, hdb', hok', hbase', g, hg, hSg, hut'⟩ := ih hforkp
          (fun x hx hlt => habove x (m.forest.mem_path_of_parent hp hx) hlt) out.coins hok hpf
        refine ⟨s', view', hstep _ hr, hdb'.trans hdb, hok', hbase.trans hbase', g ∘ f, hg.comp hf, ?_, ?_⟩
        · show g (f (S b)) = S fork
          rw [hSf, hSg]
        · rw [hut', hut]
          rfl

end

/-! ## the replay -/

section
variable {H : Hashes} {rules : BlockRules} {m : BlockMap} {blocks : BlockData}
  {S : Uint256 → Utxos} {undo : UndoStore} {G : Type} [CommGroup G] {M : MuHash G}

theorem not_mem_of_fork_lt {old new fork b : Uint256} (hfork : m.forest.fork old new = some fork)
    (hb : b ∈ m.forest.path old) (hlt : m.nHeight fork < m.nHeight b) : b ∉ m.forest.path new := by
  intro hnew
  obtain ⟨f, hf, hbf⟩ := m.forest.mem_path_fork hb hnew
  obtain rfl := Option.some.inj (hf.symm.trans hfork)
  have hle : m.nHeight b ≤ m.nHeight f := m.forest.height_le_of_mem hbf
  omega

theorem base_of_sameStack {d : CCoinsViewDB} {v : CCoinsView} (h : SameStack (.db d) v) : v = .db d := by
  obtain ⟨-, halike, -⟩ := h
  cases v with
  | db d' => exact congrArg _ (Eq.symm halike)
  | cache l b => exact halike.elim

/-- **the replay up to its flush finds the set of the new tip**, also across branches -/
theorem replayCache_repairs {s : CoinsState G} {new old : Uint256} (hS : Ledger H rules m blocks S)
    (hunspent : UnspentSets S) (hundo : UndoOf H m blocks S undo) (h : Torn m blocks S s.coinsDB new old)
    (hold : old.isNull = false) (hcommon : (m.forest.fork old new).isSome = true)
    (hback : RewindableFrom m blocks undo old new) :
    ∃ s' cache, replayCache H m blocks M s undo new old = .ok (some (s', cache)) ∧ cache.Ok ∧
      cache.utxos = S new ∧ cache.m_block_hash = new ∧ cache.base = .db s.coinsDB := by
  obtain ⟨fork, hfork⟩ := isSome_iff_exists.mp hcommon
  obtain ⟨hforkOld, hforkNew⟩ := m.forest.fork_mem hfork
  have hok : (CCoinsViewCache.new (.db s.coinsDB)).Ok := new_ok trivial
  obtain ⟨s', c₁, hback', hdb, hok₁, hbase₁, f, hf, hSf, hut₁⟩ := rollBack_spec (M := M) hS hunspent hundo
    hforkOld (fun b hb hlt => hback b hb (not_mem_of_fork_lt hfork hb hlt)) s hok
  have habove : ∀ b ∈ m.forest.path new, m.nHeight fork < m.nHeight b → Replayable blocks b := by
    intro b hb hlt
    have hparent := hS.height_zero (known_of_mem h.new_known hb) (by omega)
    rcases h.above b hb hparent with hrep | ⟨-, hbo⟩
    · exact hrep
    · exact absurd hb (not_mem_of_fork_lt hfork hbo hlt)
  have hle : m.nHeight fork ≤ m.nHeight new := m.forest.height_le_of_mem hforkNew
  obtain ⟨c₂, hforward, g, hg, hSg, hsteps⟩ :=
    rollForward_spec hS (m.nHeight new - m.nHeight fork) hforkNew (by omega) habove hok₁
  obtain ⟨hok₂, hut₂⟩ := setBestBlock_spec hsteps.ok new
  refine ⟨s', c₂.setBestBlock new, ?_, hok₂, ?_, rfl, ?_⟩
  · have hnew : (m.lookupBlockIndex new).isNone = false := by
      rw [← not_isSome, h.new_known]
      rfl
    have hknown : (m.lookupBlockIndex old).isNone = false := by
      rw [← not_isSome, h.old_known hold]
      rfl
    rw [replayCache, hnew]
    refine bind_eq_ok.mpr ⟨some (some fork), ?_, ?_⟩
    · rw [replayFork, hold, hknown, hfork]
      rfl
    · refine bind_eq_ok.mpr ⟨some (s', c₁), hback', ?_⟩
      exact bind_eq_ok.mpr ⟨some c₂, hforward, rfl⟩
  · -- between the fork and the new tip, and so the roll forward ends at the new tip
    have hmixed : ∀ o, c₁.utxos.get o = (S fork).get o ∨ c₁.utxos.get o = (S new).get o := by
      intro o
      rw [hut₁, new_utxos]
      apply hf.meet hSf
      intro o
      have hcoins := h.coins o
      rwa [setAt_of_not_null hold] at hcoins
    rw [hut₂, hsteps.utxos, hSg]
    apply hg.redo
    intro o
    rw [← hSg]
    exact hmixed o
  · exact base_of_sameStack (hbase₁.trans hsteps.base)

/-- **Replay repairs every interrupted flush.**  The database is anywhere between the sets of the two
tips, and block and undo data of both branches can be read. -/
theorem replayBlocks_repairs {s : CoinsState G} {new old : Uint256} (hS : Ledger H rules m blocks S)
    (hunspent : UnspentSets S) (hundo : UndoOf H m blocks S undo) (h : Torn m blocks S s.coinsDB new old)
    (hcommon : old.isNull = false → (m.forest.fork old new).isSome = true)
    (hback : old.isNull = false → RewindableFrom m blocks undo old new) :
    ∃ s', replayBlocks H m blocks M s undo = .ok (true, s') ∧ s'.coinsDB.coins = S new ∧
      s'.coinsDB.bestBlock = new ∧ s'.coinsDB.headBlocks = [] := by
  obtain ⟨s', cache, hcache, hok, hut, hhash, hbase⟩ : ∃ s' cache,
      replayCache H m blocks M s undo new old = .ok (some (s', cache)) ∧ cache.Ok ∧
        cache.utxos = S new ∧ cache.m_block_hash = new ∧ cache.base = .db s.coinsDB := by
    cases hnull : old.isNull with
    | true =>
      obtain ⟨cache, hcache, hrest⟩ := replayCache_forward (M := M) undo hS h (Or.inl hnull)
      exact ⟨s, cache, hcache, hrest⟩
    | false => exact replayCache_repairs hS hunspent hundo h hnull (hcommon hnull) (hback hnull)
  obtain ⟨d, hd, hcoins, hbest, hheads⟩ := replayBlocks_of_cache hS h hcache hok hut hhash hbase
  exact ⟨{ s' with coinsDB := d }, hd, hcoins, hbest, hheads⟩

end

/-! ## two branches -/

theorem setOf_unspent (H : Hashes) (m : BlockMap) {blocks : BlockData}
    (hnull : ∀ b block, blocks b = some block → ∀ tx ∈ block.vtx, ∀ out ∈ tx.vout, out.isNull = false) :
    UnspentSets (setOf H m blocks) := by
  intro b
  refine setOf_rule (FMap.all_empty _) (fun a p block coins _ hblock ih => ?_) b
  exact all_applyTxs ih fun tx htx k out hk _ => hnull a block hblock tx htx out (mem_of_getElem? hk)

theorem sampleBlocks_eq_some {b : Uint256} {block : CBlock} (h : sampleBlocks b = some block) :
    (b = sampleId 1 ∧ block = sampleMined 1) ∨ (b = sampleId 2 ∧ block = sampleMined 2) := by
  unfold sampleBlocks at h
  split at h
  · rename_i hb
    exact Or.inl ⟨hb, (Option.some.inj h).symm⟩
  · split at h
    · rename_i hb
      exact Or.inr ⟨hb, (Option.some.inj h).symm⟩
    · cases h

theorem sampleMined_notNull (n : Nat) : ∀ tx ∈ (sampleMined n).vtx, ∀ out ∈ tx.vout, out.isNull = false := by
  intro tx htx out hout
  obtain rfl := mem_singleton.mp htx
  rcases mem_cons.mp hout with rfl | hout
  · rfl
  · obtain rfl := mem_singleton.mp hout
    rfl

def sampleUndo : UndoStore := FMap.empty.insert (sampleId 1) ⟨[]⟩

theorem sampleUndo_undoOf : UndoOf sampleHashes sampleFork sampleBlocks
    (setOf sampleHashes sampleFork sampleBlocks) sampleUndo := by
  intro b bu p block hbu hp hblock
  unfold sampleUndo at hbu
  rw [FMap.insert_get] at hbu
  split at hbu
  · rename_i hb
    subst hb
    cases hbu
    obtain rfl : sampleMined 1 = block := Option.some.inj hblock
    obtain rfl : sampleId 100 = p := Option.some.inj hp
    refine ⟨rfl, ⟨_, [], rfl, rfl, fun tx htx => absurd htx not_mem_nil⟩, ⟨?_, ?_, trivial⟩, ?_, trivial⟩
    · intro hcb
      exact absurd hcb (by decide)
    · exact sampleMined_notNull 1 _ (mem_singleton.mpr rfl)
    · intro j out hj hu
      rfl
  · cases hbu

/-- the flush from block 1 to block 2 has erased the coin of block 1 and not yet written that of block 2 -/
def sampleTorn : CCoinsViewDB := { CCoinsViewDB.empty with headBlocks := [sampleId 2, sampleId 1] }

theorem sampleTorn_torn : Torn sampleFork sampleBlocks (setOf sampleHashes sampleFork sampleBlocks)
    sampleTorn (sampleId 2) (sampleId 1) where
  heads := rfl
  best := rfl
  new_known := rfl
  old_known _ := rfl
  coins := by
    intro o
    by_cases ho : (setOf sampleHashes sampleFork sampleBlocks (sampleId 1)).get o = none
    · exact Or.inl ho.symm
    · have hall : ∀ o ∈ (setOf sampleHashes sampleFork sampleBlocks (sampleId 1)).dom,
          sampleTorn.coins.get o = (setOf sampleHashes sampleFork sampleBlocks (sampleId 2)).get o := by
        decide
      exact Or.inr (hall o ((FMap.mem_dom _ o).mpr (isSome_iff_ne_none.mpr ho)))
  above := by
    intro b hb hp
    rcases mem_cons.mp hb with rfl | hb
    · exact Or.inl ⟨sampleMined 2, rfl, sampleMined_notNull 2⟩
    · obtain rfl := mem_singleton.mp hb
      exact absurd rfl hp

/-- the replay takes block 1 back, whose coin is gone already, and brings block 2 in -/
theorem replayBlocks_repairs_branches :
    ∃ s, replayBlocks sampleHashes sampleFork sampleBlocks sampleMuHash
        (CoinsState.opened sampleTorn none) sampleUndo = .ok (true, s) ∧
      s.coinsDB.coins = setOf sampleHashes sampleFork sampleBlocks (sampleId 2) ∧
      s.coinsDB.bestBlock = sampleId 2 ∧ s.coinsDB.headBlocks = [] := by
  refine replayBlocks_repairs sampleFork_ledger (setOf_unspent _ _ ?_) sampleUndo_undoOf sampleTorn_torn
    (fun _ => rfl) fun _ => ?_
  · intro b block hblock
    rcases sampleBlocks_eq_some hblock with ⟨-, rfl⟩ | ⟨-, rfl⟩
    · exact sampleMined_notNull 1
    · exact sampleMined_notNull 2
  · intro b hb hnot
    rcases mem_cons.mp hb with rfl | hb
    · exact ⟨rfl, rfl⟩
    · obtain rfl := mem_singleton.mp hb
      exact absurd hnot (by decide)

/-! ## replays that are cut short -/

/-- a replay is cut short in its own flush -/
def ReplayCrash {G : Type} [CommGroup G] (M : MuHash G) (H : Hashes) (m : BlockMap)
    (blocks : BlockData) (undo : UndoStore) (d d' : CCoinsViewDB) : Prop :=
  ∃ new old record c cache, d.headBlocks = [new, old] ∧
    replayCache H m blocks M (CoinsState.opened d record) undo new old = .ok (some (c, cache)) ∧
    Interrupted d cache.toCacheLayer d'

section
variable {G : Type} [CommGroup G] {M : MuHash G} {H : Hashes} {rules : BlockRules} {m : BlockMap}
  {blocks : BlockData} {S : Uint256 → Utxos} {undo : UndoStore}
  {new old : Uint256} {d d' : CCoinsViewDB} (hS : Ledger H rules m blocks S) (hunspent : UnspentSets S)
  (hundo : UndoOf H m blocks S undo) (hback : old.isNull = false →
    (m.forest.fork old new).isSome = true ∧ RewindableFrom m blocks undo old new)
  (record : Option (UTXOMuHashState G × Uint256)) (h : Torn m blocks S d new old)
include hS hunspent hundo hback h

theorem replayCache_torn :
    ∃ s cache, replayCache H m blocks M (CoinsState.opened d record) undo new old = .ok (some (s, cache)) ∧
      cache.Ok ∧ cache.utxos = S new ∧ cache.m_block_hash = new ∧ cache.base = .db d := by
  cases hnull : old.isNull with
  | true =>
    obtain ⟨cache, hcache⟩ := replayCache_forward (M := M) (s := CoinsState.opened d record) undo hS h
      (Or.inl hnull)
    exact ⟨_, cache, hcache⟩
  | false => exact replayCache_repairs hS hunspent hundo h hnull (hback hnull).1 (hback hnull).2

/-- the database is torn as before, or had all its coins -/
theorem ReplayCrash.torn (hcrash : ReplayCrash M H m blocks undo d d') :
    Torn m blocks S d' new old ∨ (d'.coins = S new ∧ d'.bestBlock = new ∧ d'.headBlocks = []) := by
  obtain ⟨new', old', record, c, cache, hheads, hreplay, hcut⟩ := hcrash
  obtain ⟨rfl, rfl⟩ : new = new' ∧ old = old' := by simpa using h.heads.symm.trans hheads
  obtain ⟨s, cache', hcache', hok, hut, hhash, hbase⟩ :=
    replayCache_torn (M := M) hS hunspent hundo hback record h
  rw [hreplay] at hcache'
  cases hcache'
  cases hcut with
  | unwritten => exact .inl h
  | unrecorded hn hold => exact .inr ⟨(finalBatch_coins hok hbase _).trans hut, hhash, rfl⟩
  | torn w hn hold =>
    rw [hhash, CCoinsViewDB.oldTip, h.best, h.heads] at hold
    simp only [if_true] at hold
    obtain rfl := Except.ok.inj hold
    refine .inl ⟨by rw [hhash]; rfl, rfl, h.new_known, h.old_known, fun o => ?_, h.above⟩
    have hw := writeCoins_shown hok hbase w o
    rw [hut] at hw
    split at hw
    · exact .inr hw
    · exact (h.coins o).imp hw.trans hw.trans

/-- **a replay may be cut short any number of times**: the one that comes to its end finds the set of the
new tip, also across branches -/
theorem replays_repair (hcrashes : Relation.ReflTransGen (ReplayCrash M H m blocks undo) d d') :
    ∃ s, replayBlocks H m blocks M (CoinsState.opened d' record) undo = .ok (true, s) ∧
      s.coinsDB.coins = S new ∧ s.coinsDB.bestBlock = new ∧ s.coinsDB.headBlocks = [] := by
  have hkept : Torn m blocks S d' new old ∨
      (d'.coins = S new ∧ d'.bestBlock = new ∧ d'.headBlocks = []) := by
    induction hcrashes with
    | refl => exact .inl h
    | tail _ hcrash ih =>
      rcases ih with ht | ⟨-, -, hnone⟩
      · exact hcrash.torn hS hunspent hundo hback ht
      · obtain ⟨new', old', -, -, -, hheads, -⟩ := hcrash
        cases hnone.symm.trans hheads
  rcases hkept with ht | hdone
  · obtain ⟨s, cache, hreplay, hok, hut, hhash, hbase⟩ :=
      replayCache_torn (M := M) hS hunspent hundo hback record ht
    obtain ⟨d₁, hd₁, hrest⟩ := replayBlocks_of_cache (s := CoinsState.opened d' record) hS ht hreplay hok
      hut hhash hbase
    exact ⟨_, hd₁, hrest⟩
  · refine ⟨CoinsState.opened d' record, ?_, hdone⟩
    rw [replayBlocks, show (CoinsState.opened d' record).coinsDB.headBlocks = [] from hdone.2.2]
    rfl

end

theorem replays_repair_branches :
    ∃ d s, ReplayCrash sampleMuHash sampleHashes sampleFork sampleBlocks sampleUndo sampleTorn d ∧
      replayBlocks sampleHashes sampleFork sampleBlocks sampleMuHash (CoinsState.opened d none) sampleUndo =
        .ok (true, s) ∧ s.coinsDB.coins = setOf sampleHashes sampleFork sampleBlocks (sampleId 2) := by
  have hunspent : UnspentSets (setOf sampleHashes sampleFork sampleBlocks) := setOf_unspent _ _ <| by
    intro b block hblock
    rcases sampleBlocks_eq_some hblock with ⟨-, rfl⟩ | ⟨-, rfl⟩ <;> exact sampleMined_notNull _
  have hback : RewindableFrom sampleFork sampleBlocks sampleUndo (sampleId 1) (sampleId 2) := by
    unfold RewindableFrom
    decide
  obtain ⟨_, _, hreplay, -, -, hhash, -⟩ := replayCache_torn (M := sampleMuHash) sampleFork_ledger hunspent
    sampleUndo_undoOf (fun _ => ⟨rfl, hback⟩) none sampleTorn_torn
  have hcrash : ReplayCrash sampleMuHash sampleHashes sampleFork sampleBlocks sampleUndo sampleTorn _ :=
    ⟨_, _, _, _, _, rfl, hreplay, .torn ∅ (by rw [hhash]; rfl) (by rw [hhash]; rfl)⟩
  obtain ⟨s, hs, hcoins, -⟩ := replays_repair sampleFork_ledger hunspent sampleUndo_undoOf
    (fun _ => ⟨rfl, hback⟩) none sampleTorn_torn (.single hcrash)
  exact ⟨_, s, hcrash, hs, hcoins⟩

end ElektronNet
