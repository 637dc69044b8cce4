import Mathlib.Logic.Relation
import ElektronNet.AttestationRefine
import ElektronNet.ConnectRefine

/-!
# The accumulator over the life of a chainstate

`m_utxo_muhash` is loaded late, moved by `ConnectBlock` and `DisconnectBlock`, written beside the
coins by `FlushStateToDisk` and read again after a restart.  `Sound` is what all of these keep:
the accumulator commits to what `CoinsTip` shows (`Faithful`), and every coin and every undo record
is regular, so that what a disconnection puts back is what was spent.

* `Moved`                 what `ConnectBlock` or `DisconnectBlock` with the flush of its view does
* `connectTip_spec`, `disconnectTip_spec`   that, and then a flush to disk
* `CoinsStep`             the steps: tips, flushes, dry runs, restarts
* `disconnect_connect`    disconnecting the block just connected restores the set
* `accumulator_commits`   the accumulator commits to the shown set in every reached state
-/

set_option linter.unusedSectionVars false

namespace ElektronNet

open List Outcome CCoinsViewCache

section
variable {G : Type} [CommGroup G] {M : MuHash G} {H : Hashes} {rules : BlockRules}

/-! ## views over CoinsTip -/

section
variable {s : CoinsState G} {v : CCoinsView} {c c' : CCoinsViewCache}

theorem alike_tip {l : CacheLayer} {d : CCoinsViewDB}
    (h : (CCoinsView.cache l (.db d)).Alike v) : ∃ l', v = .cache l' (.db d) := by
  cases v with
  | db d' => exact h.elim
  | cache l' base =>
    cases base with
    | cache l'' base' => exact h.elim
    | db d' =>
      obtain rfl : d = d' := h
      exact ⟨l', rfl⟩

theorem withCoinsTip_same (h : SameStack s.coinsTip.toView v) :
    (s.withCoinsTip v).coinsTip.toView = v ∧ (s.withCoinsTip v).coinsDB = s.coinsDB := by
  obtain ⟨l, rfl⟩ := alike_tip h.alike
  exact ⟨rfl, rfl⟩

theorem CoinsState.Faithful.looked (h : s.Faithful M) (hv : SameStack s.coinsTip.toView v) :
    (s.withCoinsTip v).Faithful M ∧ (s.withCoinsTip v).coinsTip.utxos = s.coinsTip.utxos ∧
      (s.withCoinsTip v).coinsDB = s.coinsDB := by
  obtain ⟨hview, hdb⟩ := withCoinsTip_same hv
  have hut : (s.withCoinsTip v).coinsTip.utxos = s.coinsTip.utxos := by
    refine utxos_congr fun o => ?_
    show (s.withCoinsTip v).coinsTip.toView.peekCoin o = s.coinsTip.toView.peekCoin o
    rw [hview, ← hv.peek]
  refine ⟨⟨?_, fun hl => ?_, fun hl => ?_, ?_⟩, hut, hdb⟩
  · show (s.withCoinsTip v).coinsTip.toView.Ok
    rw [hview]
    exact hv.ok h.ok
  · rw [hut]
    exact h.loaded hl
  · rw [hut, hdb]
    refine ⟨(h.unloaded hl).1, ?_⟩
    show (s.withCoinsTip v).coinsTip.toView.getBestBlock = _
    rw [hview, ← hv.best]
    exact (h.unloaded hl).2
  · rw [hdb]
    exact h.record

theorem batchWrite_alike {v' : CCoinsView} {l : CacheLayer} {base : CCoinsView}
    {entries : CCoinsMap} {h : Uint256} (hv : v = .cache l base)
    (hw : v.batchWrite entries h = .ok v') : ∃ l', v' = .cache l' base := by
  subst hv
  rw [CCoinsView.batchWrite] at hw
  split at hw
  · cases hw
  · rename_i l' _
    cases hw
    exact ⟨l', rfl⟩

theorem flush_coinsTip (hc : c.Ok) (hbase : SameStack s.coinsTip.toView c.base) (h : c.flush = .ok c') :
    (s.withCoinsTip c'.base).coinsTip.Ok ∧ (s.withCoinsTip c'.base).coinsTip.utxos = c.utxos ∧
      (s.withCoinsTip c'.base).coinsDB = s.coinsDB ∧
      (c.m_block_hash.isNull = false →
        (s.withCoinsTip c'.base).coinsTip.getBestBlock = c.m_block_hash) := by
  obtain ⟨hok, -, -, -, hpeek, hbest⟩ := flush_spec hc h
  obtain ⟨l, hl⟩ := alike_tip hbase.alike
  have hshape : ∃ l', c'.base = .cache l' (.db s.coinsDB) := by
    unfold flush at h
    split at h
    · cases h
    · rename_i b hw
      cases h
      exact batchWrite_alike hl hw
  obtain ⟨l', hl'⟩ := hshape
  have hview : (s.withCoinsTip c'.base).coinsTip.toView = c'.base := by
    rw [hl']
    rfl
  refine ⟨?_, FMap.ext_get fun o => ?_, ?_, fun hn => ?_⟩
  · show (s.withCoinsTip c'.base).coinsTip.toView.Ok
    rw [hview]
    exact hok.1
  · rw [utxos_get, utxos_get, ← hpeek o]
    show (s.withCoinsTip c'.base).coinsTip.toView.peekCoin o = _
    rw [hview]
  · rw [hl']
    rfl
  · show (s.withCoinsTip c'.base).coinsTip.toView.getBestBlock = _
    rw [hview, hbest hn]

theorem empty_spec (hv : v.Ok) (overlay : Bool) :
    CCoinsViewCache.Ok ⟨CacheLayer.empty overlay, v⟩ ∧
      CCoinsViewCache.utxos ⟨CacheLayer.empty overlay, v⟩ = v.fetchEffectiveUTXOs := by
  refine ⟨⟨hv, layerOk_empty rfl _⟩, FMap.ext_get fun o => ?_⟩
  rw [utxos_get, peek_of_no_entry (FMap.empty_get o), fetchEffectiveUTXOs_get]

/-! ## the tip moves -/

/-- `CoinsTip` has taken the set `m` with the best block `best`, the accumulator has gone with it,
and the database is as it was -/
structure Moved (M : MuHash G) (s t : CoinsState G) (m : Utxos) (best : Uint256) : Prop where
  ok : t.coinsTip.Ok
  utxos : t.coinsTip.utxos = m
  best : best.isNull = false → t.coinsTip.getBestBlock = best
  loaded : t.m_utxo_muhash_loaded = true
  muhash : t.m_utxo_muhash = UTXOMuHashState.ofSet M m
  database : t.coinsDB = s.coinsDB
  record : t.muhashRecord = (s.ensureUTXOMuHashLoaded M).muhashRecord

theorem ensureUTXOMuHashLoaded_coinsDB (s : CoinsState G) :
    (s.ensureUTXOMuHashLoaded M).coinsDB = s.coinsDB := by
  obtain ⟨-, h⟩ | ⟨-, acc, -, h⟩ | ⟨-, h⟩ := s.ensureUTXOMuHashLoaded_cases M <;> rw [h]

theorem ensureUTXOMuHashLoaded_of_loaded (h : s.m_utxo_muhash_loaded = true) :
    s.ensureUTXOMuHashLoaded M = s := by
  obtain ⟨-, he⟩ | ⟨hl, -⟩ | ⟨hl, -⟩ := s.ensureUTXOMuHashLoaded_cases M
  · exact he
  · rw [h] at hl
    cases hl
  · rw [h] at hl
    cases hl

theorem Moved.faithful {t : CoinsState G} {m : Utxos} {best : Uint256}
    (h : Moved M s t m best) (hs : s.Faithful M) : t.Faithful M := by
  refine ⟨h.ok, fun _ => by rw [h.muhash, h.utxos], fun hl => ?_, ?_⟩
  · rw [h.loaded] at hl
    cases hl
  · rw [h.database, h.record, ← ensureUTXOMuHashLoaded_coinsDB s]
    exact (hs.ensure M).record

theorem moved_of_flush {acc : UTXOMuHashState G}
    (hc : c.Ok) (hbase : SameStack s.coinsTip.toView c.base) (hf : c.flush = .ok c')
    (hacc : acc = UTXOMuHashState.ofSet M c.utxos) :
    Moved M s (CoinsState.withCoinsTip
      { s.ensureUTXOMuHashLoaded M with m_utxo_muhash := acc } c'.base) c.utxos c.m_block_hash := by
  have htip : CoinsState.coinsTip { s.ensureUTXOMuHashLoaded M with m_utxo_muhash := acc } =
      s.coinsTip := CoinsState.ensureUTXOMuHashLoaded_coinsTip M s
  have hdb : CoinsState.coinsDB { s.ensureUTXOMuHashLoaded M with m_utxo_muhash := acc } =
      s.coinsDB := ensureUTXOMuHashLoaded_coinsDB s
  rw [← htip] at hbase
  obtain ⟨hok, hut, hcoins, hbest⟩ := flush_coinsTip hc hbase hf
  exact ⟨hok, hut, hbest, CoinsState.ensureUTXOMuHashLoaded_loaded M s, hacc, hcoins.trans hdb, rfl⟩

theorem writeAutomaticSnapshot_spec {s' : CoinsState G} {nHeight : Nat} {env : ConnectEnv}
    (hok : s.coinsTip.Ok) (hl : s.m_utxo_muhash_loaded = true)
    (h : writeAutomaticSnapshot M rules s nHeight env = .ok s') : CoinsState.Flushed s s' := by
  unfold writeAutomaticSnapshot at h
  split at h
  · cases h
    exact CoinsState.Flushed.refl hok
  · obtain ⟨⟨r, s₁⟩, hflush, h⟩ := bind_eq_ok.mp h
    have hf := CoinsState.flushStateToDisk_spec hok hflush
    cases h
    split
    · rw [ensureUTXOMuHashLoaded_of_loaded (hf.loaded.trans hl)]
      exact hf
    · exact hf

end

def connectedSet (H : Hashes) (rules : BlockRules) (pos : BlockPlace) (block : CBlock)
    (m : Utxos) : Utxos :=
  if pos.hash = rules.hashGenesisBlock then m else applyTxs H pos.nHeight block.vtx m

def connectedUndo (H : Hashes) (rules : BlockRules) (pos : BlockPlace) (block : CBlock)
    (m : Utxos) (undo : UndoStore) : UndoStore :=
  if pos.hash = rules.hashGenesisBlock then undo
  else undo.record pos.hash (blockUndo H pos.nHeight block m)

section
variable {s s' : ChainCoins G} {m : BlockMap} {pos : BlockPlace} {flush : FlushEnv}
  {env : ConnectEnv} {block : CBlock}

theorem connectTip_spec (hs : s.coins.Faithful M)
    (hbip : ∀ pprev, pos.pprev = some pprev → enforceBIP30 rules m pos pprev = true)
    (h : connectTip M H rules env m s pos block = .ok (true, s')) :
    pos.pprev = s.tip ∧ s'.tip = some pos.hash ∧
      s'.undo = connectedUndo H rules pos block s.coins.coinsTip.utxos s.undo ∧
      (pos.hash ≠ rules.hashGenesisBlock →
        (∃ pprev, pos.pprev = some pprev) ∧ Applies H pos.nHeight block s.coins.coinsTip.utxos) ∧
      ∃ t, Moved M s.coins t (connectedSet H rules pos block s.coins.coinsTip.utxos) pos.hash ∧
        CoinsState.Flushed t s'.coins := by
  unfold connectTip at h
  rw [ite_throw_eq_ok] at h
  obtain ⟨hprev, h⟩ := h
  obtain ⟨out, hconnect, h⟩ := bind_eq_ok.mp h
  split at h
  · cases h
  rename_i hvalid
  obtain ⟨view, hflush, h⟩ := bind_eq_ok.mp h
  obtain ⟨coins, hsnap, h⟩ := bind_eq_ok.mp h
  obtain ⟨r, hdisk, h⟩ := bind_eq_ok.mp h
  obtain ⟨hempty, hshows⟩ := empty_spec hs.ok true
  have hto := connectBlock_valid hempty rfl hbip hconnect (not_not.mp hvalid)
  have hbase : SameStack s.coins.coinsTip.toView out.view.base := connectBlock_base hconnect
  have hset : CCoinsViewCache.utxos ⟨CacheLayer.empty true, s.coins.coinsTip.toView⟩ =
      s.coins.coinsTip.utxos := hshows
  rw [hset] at hto
  have hacc₀ := hs.utxoMuHash_eq M
  -- what the block has done, whether it is the genesis block or not
  have heffect : out.view.utxos = connectedSet H rules pos block s.coins.coinsTip.utxos ∧
      out.undo = connectedUndo H rules pos block s.coins.coinsTip.utxos s.undo ∧
      (pos.hash ≠ rules.hashGenesisBlock →
        (∃ pprev, pos.pprev = some pprev) ∧ Applies H pos.nHeight block s.coins.coinsTip.utxos) ∧
      ∃ acc, acc = UTXOMuHashState.ofSet M out.view.utxos ∧
        out.coins = { s.coins.ensureUTXOMuHashLoaded M with m_utxo_muhash := acc } := by
    unfold connectedSet connectedUndo
    rcases hto.effect with ⟨hg, hut, hcoins, hundo⟩ | ⟨hg, hpp, happ, hut, hcoins, hundo⟩
    · rw [if_pos hg, if_pos hg]
      refine ⟨hut, hundo, fun hn => absurd hg hn, _, ?_, hcoins⟩
      rw [hut]
      exact hacc₀
    · rw [if_neg hg, if_neg hg]
      refine ⟨hut, hundo, fun _ => ⟨hpp, happ⟩, _, ?_, hcoins⟩
      rw [hut, ← commitTxs_ofSet happ]
      congr 1
  obtain ⟨hut, hundo, happ, acc, hacc, hcoins⟩ := heffect
  have hmoved := moved_of_flush hto.ok hbase hflush hacc
  rw [← hcoins, hut, hto.block_hash] at hmoved
  have hf₁ := writeAutomaticSnapshot_spec hmoved.ok hmoved.loaded hsnap
  have hf₂ := CoinsState.flushStateToDisk_spec hf₁.ok hdisk
  have hend : r.1 = true ∧ s' = ⟨r.2, some pos.hash, out.undo⟩ := by
    unfold setTip at h
    cases hr : r.1 with
    | false =>
      rw [hr] at h
      cases h
    | true =>
      rw [hr] at h
      cases h
      exact ⟨rfl, rfl⟩
  obtain ⟨-, rfl⟩ := hend
  exact ⟨not_not.mp hprev, rfl, hundo, happ, _, hmoved, hf₁.trans hf₂⟩

theorem disconnectTip_spec {block : Option CBlock} (hs : s.coins.Faithful M) (hh : pos.nHeight ≠ 0)
    (hbip : isBIP30Unspendable pos = false) (hreg : s.undo.Regular)
    (h : disconnectTip M H flush s pos block = .ok (true, s')) :
    ∃ b bu pprev, block = some b ∧ s.undo.get pos.hash = some bu ∧ pos.pprev = some pprev ∧
      s.tip = some pos.hash ∧ s.coins.coinsTip.getBestBlock = pos.hash ∧
      s'.tip = some pprev ∧ s'.undo = s.undo ∧
      ∃ t, Moved M s.coins t (unapplyTxs H (unwindOrder b bu) s.coins.coinsTip.utxos) pprev ∧
        CoinsState.Flushed t s'.coins := by
  unfold disconnectTip at h
  rw [ite_throw_eq_ok] at h
  obtain ⟨htip, h⟩ := h
  split at h
  · cases h
  · cases h
  · rename_i pprev b hpprev
    rw [ite_throw_eq_ok] at h
    obtain ⟨hbest, h⟩ := h
    obtain ⟨out, hdisc, h⟩ := bind_eq_ok.mp h
    split at h
    · cases h
    rename_i hok
    obtain ⟨view, hflush, h⟩ := bind_eq_ok.mp h
    obtain ⟨r, hdisk, h⟩ := bind_eq_ok.mp h
    obtain ⟨hload, hloadut, -⟩ := loadBestBlock_spec (new_ok (v := s.coins.coinsTip.toView) hs.ok)
    have hset : (CCoinsViewCache.new s.coins.coinsTip.toView).loadBestBlock.utxos =
        s.coins.coinsTip.utxos := hloadut.trans (new_utxos _)
    obtain ⟨bu, p, acc, hbu, hp, hcoins, hview, hhash, hb, hut, hacc⟩ :=
      disconnectBlock_ok M H hload hh hbip hreg hdisc (not_not.mp hok)
    obtain rfl : pprev = p := Option.some.inj (hpprev.symm.trans hp)
    rw [hset] at hut hacc
    have hbase : SameStack s.coins.coinsTip.toView out.view.base :=
      (loadBestBlock_base (CCoinsViewCache.new s.coins.coinsTip.toView)).trans hb
    have hmoved := moved_of_flush hview hbase hflush (hacc (hs.utxoMuHash_eq M))
    rw [← hcoins, hut, hhash] at hmoved
    have hf := CoinsState.flushStateToDisk_spec hmoved.ok hdisk
    unfold setTip at h
    cases hr : r.1 with
    | false =>
      rw [hr] at h
      cases h
    | true =>
      rw [hr] at h
      cases h
      refine ⟨b, bu, pprev, rfl, hbu, hp, not_not.mp htip, ?_, rfl, rfl, _, hmoved, hf⟩
      have := not_not.mp hbest
      show s.coins.coinsTip.toView.getBestBlock = _
      rw [← this]
      rfl

/-! ## what every step keeps -/

structure Sound (M : MuHash G) (s : ChainCoins G) : Prop where
  faithful : s.coins.Faithful M
  regular : Regular s.coins.coinsTip.utxos
  database : Regular s.coins.coinsDB.coins
  undo : s.undo.Regular

theorem BlockMap.place_nHeight {hash : Uint256}
    (h : m.place hash = some pos) {pprev : Uint256} (hp : pos.pprev = some pprev) :
    pos.nHeight ≠ 0 := by
  obtain ⟨e, he, rfl⟩ := Option.map_eq_some_iff.mp h
  obtain ⟨e', -, hh⟩ := m.height_pprev hash e pprev he hp
  show e.nHeight ≠ 0
  omega

theorem UndoStore.Regular.record {undo : UndoStore} (h : undo.Regular) (hash : Uint256)
    {bu : CBlockUndo} (hbu : ∀ u ∈ bu.vtxundo, ∀ coin ∈ u.vprevout, coin.Regular) :
    (undo.record hash bu).Regular := by
  intro k bu' hk
  unfold UndoStore.record at hk
  split at hk
  · exact h k bu' hk
  · rw [FMap.insert_get] at hk
    split at hk
    · cases hk
      exact hbu
    · exact h k bu' hk

theorem CoinsState.Flushed.regular {s s' : CoinsState G} (h : CoinsState.Flushed s s')
    (htip : Regular s.coinsTip.utxos) (hdb : Regular s.coinsDB.coins) :
    Regular s'.coinsTip.utxos ∧ Regular s'.coinsDB.coins := by
  refine ⟨h.utxos ▸ htip, ?_⟩
  rcases h.database with ⟨he, -⟩ | ⟨he, -⟩
  · rw [he]
    exact hdb
  · rw [he]
    exact htip

theorem Sound.moved (hs : Sound M s) {t : CoinsState G}
    {m : Utxos} {best : Uint256} (ht : Moved M s.coins t m best)
    (hf : CoinsState.Flushed t s'.coins) (hm : Regular m) (hundo : s'.undo.Regular) : Sound M s' := by
  obtain ⟨htip, hdb⟩ := hf.regular (ht.utxos ▸ hm) (ht.database ▸ hs.database)
  exact ⟨hf.faithful M (ht.faithful hs.faithful), htip, hdb, hundo⟩

theorem Sound.connectTip (hs : Sound M s) (hplace : m.place pos.hash = some pos)
    (hbip : ∀ pprev, pos.pprev = some pprev → enforceBIP30 rules m pos pprev = true)
    (h : connectTip M H rules env m s pos block = .ok (true, s')) : Sound M s' := by
  obtain ⟨-, -, hundo, happ, t, hmoved, hflushed⟩ := connectTip_spec hs.faithful hbip h
  unfold connectedSet connectedUndo at *
  by_cases hg : pos.hash = rules.hashGenesisBlock
  · rw [if_pos hg] at hundo hmoved
    exact hs.moved hmoved hflushed hs.regular (hundo ▸ hs.undo)
  · rw [if_neg hg] at hundo hmoved
    obtain ⟨⟨pprev, hpprev⟩, happ⟩ := happ hg
    have hh := BlockMap.place_nHeight hplace hpprev
    refine hs.moved hmoved hflushed (regular_applyTxs hs.regular H hh _) ?_
    rw [hundo]
    refine hs.undo.record _ fun u hu => ?_
    exact undoRecords_regular H hh hs.regular happ.spends u (mem_of_mem_tail hu)

theorem regular_uncreateFrom {m : Utxos} (hm : Regular m) (txid : Uint256) (i : Nat)
    (outs : List CTxOut) : Regular (uncreateFrom txid i outs m) := by
  induction outs generalizing i m with
  | nil => exact hm
  | cons out outs ih =>
    apply ih
    split
    · exact hm
    · exact regular_erase hm _

theorem regular_unspendAll {m : Utxos} (hm : Regular m) {l : List (CTxIn × Coin)}
    (hl : ∀ e ∈ l, e.2.Regular) : Regular (unspendAll l m) := by
  induction l generalizing m with
  | nil => exact hm
  | cons e l ih =>
    exact ih (regular_insert hm (hl e mem_cons_self) _)
      fun e' he' => hl e' (mem_cons_of_mem _ he')

theorem regular_unapplyTxs {m : Utxos} (hm : Regular m)
    {l : List UndoneTx} (hl : ∀ e ∈ l, RegularUndo e.2) : Regular (unapplyTxs H l m) := by
  induction l generalizing m with
  | nil => exact hm
  | cons e l ih =>
    obtain ⟨tx, txundo⟩ := e
    refine ih ?_ fun e' he' => hl e' (mem_cons_of_mem _ he')
    have hout := regular_uncreateFrom hm (H.txid tx) 0 tx.vout
    cases txundo with
    | none => exact hout
    | some u =>
      refine regular_unspendAll hout fun e he => ?_
      have hmem := (of_mem_zip (a := e.1) (b := e.2) (mem_reverse.mp he)).2
      exact hl _ mem_cons_self u rfl e.2 hmem

theorem disconnectTip_nHeight {block : Option CBlock} {r : Bool} (hplace : m.place pos.hash = some pos)
    (h : disconnectTip M H flush s pos block = .ok (r, s')) : pos.nHeight ≠ 0 := by
  cases hp : pos.pprev with
  | some pprev => exact BlockMap.place_nHeight hplace hp
  | none =>
    unfold disconnectTip at h
    rw [ite_throw_eq_ok, hp] at h
    cases h.2

variable (hs : Sound M s)
include hs

theorem Sound.disconnectTip {block : Option CBlock} (hplace : m.place pos.hash = some pos)
    (hbip : isBIP30Unspendable pos = false)
    (h : disconnectTip M H flush s pos block = .ok (true, s')) : Sound M s' := by
  have hh := disconnectTip_nHeight hplace h
  obtain ⟨b, bu, pprev, -, hbu, -, -, -, -, hundo, t, hmoved, hflushed⟩ :=
    disconnectTip_spec hs.faithful hh hbip hs.undo h
  refine hs.moved hmoved hflushed ?_ (hundo ▸ hs.undo)
  exact regular_unapplyTxs hs.regular (hs.undo.unwindOrder hbu b)

theorem Sound.flushed {c : CoinsState G} (hf : CoinsState.Flushed s.coins c) :
    Sound M { s with coins := c } := by
  obtain ⟨htip, hdb⟩ := hf.regular hs.regular hs.database
  exact ⟨hf.faithful M hs.faithful, htip, hdb, hs.undo⟩

theorem Sound.ensure : Sound M { s with coins := s.coins.ensureUTXOMuHashLoaded M } := by
  refine ⟨hs.faithful.ensure M, ?_, ?_, hs.undo⟩
  · show Regular (s.coins.ensureUTXOMuHashLoaded M).coinsTip.utxos
    rw [CoinsState.ensureUTXOMuHashLoaded_coinsTip]
    exact hs.regular
  · show Regular (s.coins.ensureUTXOMuHashLoaded M).coinsDB.coins
    rw [ensureUTXOMuHashLoaded_coinsDB]
    exact hs.database

theorem Sound.dryRun {overlay writable update : Bool} {out : Connected G}
    (h : connectBlock M H rules s.coins s.undo m block pos
      ⟨CacheLayer.empty overlay, s.coins.coinsTip.toView⟩ writable true update = .ok out) :
    Sound M { s with coins := out.coins.withCoinsTip out.view.base } := by
  have hbase : SameStack s.coins.coinsTip.toView out.view.base := connectBlock_base h
  obtain ⟨hcoins, -⟩ := connectBlock_idle h (.inr rfl)
  have he := hs.ensure
  have hbase' : SameStack (s.coins.ensureUTXOMuHashLoaded M).coinsTip.toView out.view.base := by
    rw [CoinsState.ensureUTXOMuHashLoaded_coinsTip]
    exact hbase
  obtain ⟨hf, hut, hdb⟩ := he.faithful.looked hbase'
  rw [hcoins]
  exact ⟨hf, hut.symm ▸ he.regular, hdb.symm ▸ he.database, hs.undo⟩

def CoinsState.reopen (s : CoinsState G) : CoinsState G where
  cache := CacheLayer.empty false
  coinsDB := s.coinsDB
  m_utxo_muhash := UTXOMuHashState.empty
  m_utxo_muhash_loaded := false
  muhashRecord := s.muhashRecord

/-- the tip that `LoadChainTip` finds -/
def CCoinsViewDB.loadedTip (d : CCoinsViewDB) : Option Uint256 :=
  if d.bestBlock.isNull then none else some d.bestBlock

theorem Sound.reopen (tip : Option Uint256) : Sound M ⟨s.coins.reopen, tip, s.undo⟩ := by
  have hut : s.coins.reopen.coinsTip.utxos = s.coins.coinsDB.coins := new_utxos _
  refine ⟨⟨new_ok trivial, fun hl => ?_, fun _ => ⟨hut, rfl⟩, hs.faithful.record⟩, ?_, hs.database,
    hs.undo⟩
  · cases hl
  · show Regular s.coins.reopen.coinsTip.utxos
    rw [hut]
    exact hs.database

end

/-! ## runs -/

inductive CoinsAction where
  | connectTip (m : BlockMap) (env : ConnectEnv) (pos : BlockPlace) (block : CBlock)
  | disconnectTip (m : BlockMap) (flush : FlushEnv) (pos : BlockPlace) (block : Option CBlock)
  | flushStateToDisk (mode : FlushStateMode) (env : FlushEnv)
  /-- `ConnectBlock` with `fJustCheck`, on a cache over `CoinsTip` that is then dropped -/
  | dryRun (m : BlockMap) (overlay undoWritable update_muhash : Bool) (pos : BlockPlace)
      (block : CBlock)
  | utxoMuHash
  /-- a shutdown, which flushes, and a start that finds no interrupted flush -/
  | restart (env : FlushEnv)

inductive CoinsStep (M : MuHash G) (H : Hashes) (rules : BlockRules) :
    CoinsAction → ChainCoins G → ChainCoins G → Prop where
  | connectTip {m env pos block s s'} (hplace : m.place pos.hash = some pos)
      (h : connectTip M H rules env m s pos block = .ok (true, s')) :
      CoinsStep M H rules (.connectTip m env pos block) s s'
  | disconnectTip {m flush pos block s s'} (hplace : m.place pos.hash = some pos)
      (h : disconnectTip M H flush s pos block = .ok (true, s')) :
      CoinsStep M H rules (.disconnectTip m flush pos block) s s'
  | flushStateToDisk {mode env s r c} (h : s.coins.flushStateToDisk mode env = .ok (r, c)) :
      CoinsStep M H rules (.flushStateToDisk mode env) s { s with coins := c }
  | dryRun {m overlay writable update pos block s out}
      (h : connectBlock M H rules s.coins s.undo m block pos
        ⟨CacheLayer.empty overlay, s.coins.coinsTip.toView⟩ writable true update = .ok out) :
      CoinsStep M H rules (.dryRun m overlay writable update pos block) s
        { s with coins := out.coins.withCoinsTip out.view.base }
  | utxoMuHash {s} : CoinsStep M H rules .utxoMuHash s
      { s with coins := s.coins.ensureUTXOMuHashLoaded M }
  | restart {env s r c} (h : s.coins.flushStateToDisk .FORCE_FLUSH env = .ok (r, c))
      (hclean : c.coinsDB.headBlocks = []) :
      CoinsStep M H rules (.restart env) s ⟨c.reopen, c.coinsDB.loadedTip, s.undo⟩

/-- the block is none of those that are excused from the rule of BIP30 -/
def CoinsAction.Ordinary (rules : BlockRules) : CoinsAction → Prop
  | .connectTip m _ pos _ => ∀ pprev, pos.pprev = some pprev → enforceBIP30 rules m pos pprev = true
  | .disconnectTip _ _ pos _ => isBIP30Unspendable pos = false
  | _ => True

theorem Sound.step {a : CoinsAction} {s s' : ChainCoins G} (hs : Sound M s) (ha : a.Ordinary rules)
    (h : CoinsStep M H rules a s s') : Sound M s' := by
  cases h with
  | connectTip hplace h => exact hs.connectTip hplace ha h
  | disconnectTip hplace h => exact hs.disconnectTip hplace ha h
  | flushStateToDisk h => exact hs.flushed (CoinsState.flushStateToDisk_spec hs.faithful.ok h)
  | dryRun h => exact hs.dryRun h
  | utxoMuHash => exact hs.ensure
  | restart h _ =>
    exact (hs.flushed (CoinsState.flushStateToDisk_spec hs.faithful.ok h)).reopen _

/-- finitely many steps, each of them ordinary -/
def CoinsRun (M : MuHash G) (H : Hashes) (rules : BlockRules) : ChainCoins G → ChainCoins G → Prop :=
  Relation.ReflTransGen fun s s' => ∃ a, a.Ordinary rules ∧ CoinsStep M H rules a s s'

theorem Sound.run {s s' : ChainCoins G} (hs : Sound M s) (h : CoinsRun M H rules s s') :
    Sound M s' := by
  induction h with
  | refl => exact hs
  | tail _ hstep ih =>
    obtain ⟨a, ha, hstep⟩ := hstep
    exact ih.step ha hstep

/-- the accumulator is not loaded, and `CoinsTip` only holds copies of what is in `CoinsDB` -/
structure CoinsState.Unchanged (s : CoinsState G) : Prop where
  unloaded : s.m_utxo_muhash_loaded = false
  entries : ∀ o e, s.cache.cacheCoins.get o = some e →
    e.dirty = false ∧ e.fresh = false ∧ s.coinsDB.coins.get o = some e.coin
  best : s.cache.m_block_hash.isNull = true ∨ s.cache.m_block_hash = s.coinsDB.bestBlock

/-- the records on disk are sound: that of the accumulator, if it belongs to the best block, commits
to the coins, and every coin there and in the undo files is regular -/
structure ChainCoins.Intact (M : MuHash G) (s : ChainCoins G) : Prop where
  record : ∀ acc, s.coins.muhashRecord = some (acc, s.coins.coinsDB.bestBlock) →
    acc = UTXOMuHashState.ofSet M s.coins.coinsDB.coins
  database : Regular s.coins.coinsDB.coins
  undo : s.undo.Regular

theorem CoinsState.Unchanged.peek {s : CoinsState G} (h : s.Unchanged) (o : COutPoint) :
    s.coinsTip.peek o = s.coinsDB.coins.get o := by
  cases hg : s.cache.cacheCoins.get o with
  | none => exact peek_of_no_entry hg
  | some e =>
    obtain ⟨-, -, hcoin⟩ := h.entries o e hg
    have hp : s.coinsTip.peek o = CCoinsView.entryCoin e := peek_of_entry hg
    rw [hp, hcoin, CCoinsView.entryCoin, s.coinsDB.unspent o e.coin hcoin]
    rfl

theorem CoinsState.Unchanged.utxos {s : CoinsState G} (h : s.Unchanged) :
    s.coinsTip.utxos = s.coinsDB.coins :=
  FMap.ext_get fun o => by rw [utxos_get, h.peek]

theorem CoinsState.Unchanged.getBestBlock {s : CoinsState G} (h : s.Unchanged) :
    s.coinsTip.getBestBlock = s.coinsDB.bestBlock := by
  show (if _ then _ else _) = _
  split
  · rfl
  · rename_i hn
    exact h.best.resolve_left hn

theorem Sound.start {s : ChainCoins G} (h : s.coins.Unchanged) (hi : s.Intact M) : Sound M s := by
  have hok : s.coins.coinsTip.Ok := by
    refine ⟨trivial, fun o e he => ?_⟩
    obtain ⟨hd, hf, hcoin⟩ := h.entries o e he
    have hu := s.coins.coinsDB.unspent o e.coin hcoin
    refine ⟨fun hs => ?_, fun hf' => ?_, fun _ => hcoin⟩
    · rw [hu] at hs
      cases hs
    · rw [hf] at hf'
      cases hf'
  refine ⟨⟨hok, fun hl => ?_, fun _ => ⟨h.utxos, h.getBestBlock⟩, ?_⟩,
    h.utxos.symm ▸ hi.database, hi.database, hi.undo⟩
  · rw [h.unloaded] at hl
    cases hl
  · rintro acc hash hrec rfl
    exact hi.record acc hrec

theorem disconnect_connect {m : BlockMap} {env : ConnectEnv} {flush : FlushEnv} {pos : BlockPlace}
    {block : CBlock} {s s₁ s₂ : ChainCoins G} (hs : Sound M s)
    (hplace : m.place pos.hash = some pos) (hgenesis : pos.hash ≠ rules.hashGenesisBlock)
    (hbip : (CoinsAction.connectTip m env pos block).Ordinary rules)
    (hbip' : isBIP30Unspendable pos = false) (hundo : ∀ bu, s.undo.get pos.hash = some bu →
      bu = blockUndo H pos.nHeight block s.coins.coinsTip.utxos)
    (h₁ : connectTip M H rules env m s pos block = .ok (true, s₁))
    (h₂ : disconnectTip M H flush s₁ pos (some block) = .ok (true, s₂)) :
    s₂.coins.coinsTip.utxos = s.coins.coinsTip.utxos ∧
      s₂.coins.utxoMuHash M = s.coins.utxoMuHash M := by
  have hs₁ := hs.connectTip hplace hbip h₁
  have hs₂ := hs₁.disconnectTip hplace hbip' h₂
  obtain ⟨-, -, hundo₁, happ, t, hmoved, hflushed⟩ := connectTip_spec hs.faithful hbip h₁
  obtain ⟨⟨pprev, hpprev⟩, happ⟩ := happ hgenesis
  have hh := BlockMap.place_nHeight hplace hpprev
  obtain ⟨b, bu, p, hb, hbu, -, -, -, -, -, t', hmoved', hflushed'⟩ :=
    disconnectTip_spec hs₁.faithful hh hbip' hs₁.undo h₂
  obtain rfl := Option.some.inj hb
  have hset₁ : s₁.coins.coinsTip.utxos = applyTxs H pos.nHeight block.vtx s.coins.coinsTip.utxos := by
    rw [hflushed.utxos, hmoved.utxos, connectedSet, if_neg hgenesis]
  have hrecord : bu = blockUndo H pos.nHeight block s.coins.coinsTip.utxos := by
    rw [hundo₁, connectedUndo, if_neg hgenesis, UndoStore.record] at hbu
    split at hbu
    · exact hundo bu hbu
    · rw [FMap.insert_get_self] at hbu
      exact (Option.some.inj hbu).symm
  obtain ⟨coinbase, txs, hvtx, hcoinbase, hcb⟩ := happ.coinbase
  have hset : s₂.coins.coinsTip.utxos = s.coins.coinsTip.utxos := by
    rw [hflushed'.utxos, hmoved'.utxos, hset₁, hrecord, unwindOrder, blockUndo, hvtx]
    exact unapplyTxs_applyTxs H hcoinbase hcb (hvtx ▸ happ.spends) (hvtx ▸ happ.fresh)
  refine ⟨hset, ?_⟩
  rw [hs₂.faithful.utxoMuHash_eq M, hs.faithful.utxoMuHash_eq M, hset]

/-- **the accumulator commits to the real UTXO set**: from a chainstate as it is after its views are
opened, with sound records on disk, over any steps, the count and the hash of `UTXOMuHash()` are
those of the set that `CoinsTip` shows, as `ComputeUTXOStats` gives them; and disconnecting the
block just connected restores them -/
theorem accumulator_commits (M : MuHash G) (H : Hashes) (rules : BlockRules) (s₀ s : ChainCoins G)
    (hstart : s₀.coins.Unchanged) (hintact : s₀.Intact M) (hrun : CoinsRun M H rules s₀ s) :
    s.coins.utxoMuHash M = UTXOMuHashState.ofSet M s.coins.coinsTip.utxos ∧
      (s.coins.utxoMuHash M).m_coin_count = UInt64.ofNat s.coins.coinsTip.utxos.card ∧
      (∀ known stats, computeUTXOStats M .MUHASH s.coins.coinsTip.toView known = some stats →
        stats = ⟨(s.coins.utxoMuHash M).getHash M, (s.coins.utxoMuHash M).m_coin_count⟩) ∧
      ∀ m env flush pos block s₁ s₂, m.place pos.hash = some pos →
        pos.hash ≠ rules.hashGenesisBlock →
        (CoinsAction.connectTip m env pos block).Ordinary rules → isBIP30Unspendable pos = false →
        (∀ bu, s.undo.get pos.hash = some bu →
          bu = blockUndo H pos.nHeight block s.coins.coinsTip.utxos) →
        connectTip M H rules env m s pos block = .ok (true, s₁) →
        disconnectTip M H flush s₁ pos (some block) = .ok (true, s₂) →
        s₂.coins.coinsTip.utxos = s.coins.coinsTip.utxos ∧
          s₂.coins.utxoMuHash M = s.coins.utxoMuHash M := by
  have hs := (Sound.start hstart hintact).run hrun
  have hacc := hs.faithful.utxoMuHash_eq M
  refine ⟨hacc, by rw [hacc]; rfl, fun known stats hstats => ?_, ?_⟩
  · unfold computeUTXOStats at hstats
    split at hstats
    · cases hstats
      rw [hacc, FMap.length_toList]
      show CCoinsStats.mk ((UTXOMuHashState.rebuild M _).getHash M) _ = _
      rw [UTXOMuHashState.rebuild_eq_ofSet]
      rfl
    · cases hstats
  · intro m env flush pos block s₁ s₂ hplace hgenesis hbip hbip' hundo h₁ h₂
    exact disconnect_connect hs hplace hgenesis hbip hbip' hundo h₁ h₂

end

/-! ## a short chain of mined blocks -/

/-- rules under which every block passes that has the right form -/
def sampleRules : BlockRules where
  params := regTestParams
  hashGenesisBlock := sampleId 100
  BIP34Height := 1
  BIP34Hash := Uint256.zero
  checkBlockHeader _ _ := none
  merkleMutated _ := false
  getLegacySigOpCount _ := 0
  inputSigOpCost _ _ _ := 0
  sequenceLocks _ _ _ := true
  fScriptChecks _ := false
  checkInputScripts _ _ _ := none
  queuedScripts _ _ := none

/-- the block `n` at height 1: a coinbase with one coin, which attests the one coin it leaves -/
def sampleMined (n : Nat) : CBlock where
  nVersion := 1
  hashPrevBlock := sampleId 100
  hashMerkleRoot := Uint256.ofByte 1
  nTime := 0
  nBits := 0
  nNonce := n
  vtx := [{ sampleTx COutPoint.null 5 n with
    vout := [⟨5, [OP_1]⟩, attestationOutput 1 (Uint256.ofByte 1)] }]

def samplePlace (n : Nat) : BlockPlace := ⟨sampleId n, some (sampleId 100), 1⟩

/-- the genesis block 100 with the blocks 1 and 2 on top of it -/
def sampleFork : BlockMap :=
  let m := BlockMap.empty.addToBlockIndex (sampleId 100) (sampleId 0) 1 1
  let m := m.addToBlockIndex (sampleId 1) (sampleId 100) 1 2
  m.addToBlockIndex (sampleId 2) (sampleId 100) 1 3

def sampleDisk : FlushEnv := ⟨.OK, false, false, true, true⟩

def sampleConnectEnv : ConnectEnv := ⟨true, false, sampleDisk, sampleDisk⟩

/-- a chainstate at the genesis block, with `record` beside its coins -/
def sampleAtGenesis (record : Option (UTXOMuHashState (Multiplicative ℤ) × Uint256)) :
    ChainCoins (Multiplicative ℤ) where
  coins := ⟨CacheLayer.empty false, { CCoinsViewDB.empty with bestBlock := sampleId 100 },
    UTXOMuHashState.empty, false, record⟩
  tip := some (sampleId 100)
  undo := FMap.empty

theorem sampleAtGenesis_unchanged (record : Option (UTXOMuHashState (Multiplicative ℤ) × Uint256)) :
    (sampleAtGenesis record).coins.Unchanged :=
  ⟨rfl, fun o e he => (by cases he), .inl rfl⟩

/-- a block is connected, the node is restarted, and the accumulator is read back -/
theorem accumulator_commits_restarted :
    ∃ s₁ s₂ : ChainCoins (Multiplicative ℤ),
      CoinsStep sampleMuHash sampleHashes sampleRules
        (.connectTip sampleFork sampleConnectEnv (samplePlace 1) (sampleMined 1))
        (sampleAtGenesis none) s₁ ∧
      CoinsStep sampleMuHash sampleHashes sampleRules (.restart sampleDisk) s₁ s₂ ∧
      s₂.coins.utxoMuHash sampleMuHash =
        UTXOMuHashState.ofSet sampleMuHash s₂.coins.coinsTip.utxos ∧
      s₂.coins.coinsTip.utxos.card = 1 := by
  obtain ⟨s₁, r, c, h₁, h₂, hclean, hcard⟩ : ∃ s₁ r c,
      connectTip sampleMuHash sampleHashes sampleRules sampleConnectEnv sampleFork
        (sampleAtGenesis none) (samplePlace 1) (sampleMined 1) = .ok (true, s₁) ∧
      s₁.coins.flushStateToDisk .FORCE_FLUSH sampleDisk = .ok (r, c) ∧
      c.coinsDB.headBlocks = [] ∧ c.reopen.coinsTip.utxos.card = 1 := ⟨_, _, _, rfl, rfl, rfl, rfl⟩
  have hstep₁ : CoinsStep sampleMuHash sampleHashes sampleRules
      (.connectTip sampleFork sampleConnectEnv (samplePlace 1) (sampleMined 1))
      (sampleAtGenesis none) s₁ := .connectTip rfl h₁
  have hstep₂ : CoinsStep sampleMuHash sampleHashes sampleRules (.restart sampleDisk) s₁
      ⟨c.reopen, c.coinsDB.loadedTip, s₁.undo⟩ := .restart h₂ hclean
  refine ⟨s₁, _, hstep₁, hstep₂, ?_, hcard⟩
  have hordinary : (CoinsAction.connectTip sampleFork sampleConnectEnv (samplePlace 1)
      (sampleMined 1)).Ordinary sampleRules := by
    intro pprev hpprev
    obtain rfl := Option.some.inj hpprev
    decide
  refine (accumulator_commits sampleMuHash sampleHashes sampleRules (sampleAtGenesis none) _
    (sampleAtGenesis_unchanged none) ⟨?_, regular_empty, ?_⟩
    ((Relation.ReflTransGen.single ⟨_, hordinary, hstep₁⟩).tail
      ⟨.restart sampleDisk, trivial, hstep₂⟩)).1
  · intro acc hacc
    cases hacc
  · intro h bu hbu
    cases hbu

/-- the record is trusted: one that belongs to the best block and commits to something else is what
`UTXOMuHash()` returns -/
theorem wrong_record_returned :
    ∃ s : ChainCoins (Multiplicative ℤ),
      (sampleAtGenesis (some (⟨1, 5⟩, sampleId 100))).coins.Unchanged ∧
      CoinsStep sampleMuHash sampleHashes sampleRules (.flushStateToDisk .NONE sampleDisk)
        (sampleAtGenesis (some (⟨1, 5⟩, sampleId 100))) s ∧
      (s.coins.utxoMuHash sampleMuHash).m_coin_count ≠ UInt64.ofNat s.coins.coinsTip.utxos.card :=
  ⟨_, sampleAtGenesis_unchanged _, .flushStateToDisk (r := true) rfl, by decide⟩

end ElektronNet
