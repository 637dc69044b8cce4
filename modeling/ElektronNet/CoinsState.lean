import ElektronNet.CoinStats

/-!
# The coins of a chainstate

What a `Chainstate` keeps about coins while its views are open: the cache `CoinsTip` over the
database `CoinsDB`, the accumulator `m_utxo_muhash` and the record of it in the database.

* `ensureUTXOMuHashLoaded`, `utxoMuHash`   the accumulator is read from its record when that
                           belongs to the best block of the database, and built afresh otherwise
* `flushStateToDisk`       when the cache is written, and with it the record
* `flushStateToDisk_spec`  a flush keeps what `CoinsTip` shows; what it writes is just that
* `Faithful`               the invariant under which the accumulator commits to the shown set

The environment of a flush (`FlushEnv`) answers what depends on memory, time and disk.  Left out
are the block files and the block index, which are written first, and exceptions of the database,
after which the node shuts down.
-/

set_option linter.unusedSectionVars false

namespace ElektronNet

structure CoinsState (G : Type) where
  /-- the entries of `CoinsTip` -/
  cache : CacheLayer
  coinsDB : CCoinsViewDB
  m_utxo_muhash : UTXOMuHashState G
  m_utxo_muhash_loaded : Bool
  /-- what `WriteUTXOMuHashState` wrote last, with the block it belongs to -/
  muhashRecord : Option (UTXOMuHashState G × Uint256)

inductive FlushStateMode where
  | NONE
  | IF_NEEDED
  | PERIODIC
  | FORCE_FLUSH
  | FORCE_SYNC
deriving DecidableEq

inductive CoinsCacheSizeState where
  | OK
  | LARGE
  | CRITICAL
deriving DecidableEq

structure FlushEnv where
  cache_state : CoinsCacheSizeState
  /-- the time of the next periodic write has come -/
  writeDue : Bool
  /-- there are block files to prune -/
  fFlushForPrune : Bool
  /-- the disk has room for the block index, and for the coins -/
  indexSpace : Bool
  coinsSpace : Bool

def emptyCache (mode : FlushStateMode) (env : FlushEnv) : Bool :=
  match mode with
  | .FORCE_FLUSH => true
  | .PERIODIC => env.cache_state ≠ .OK
  | .IF_NEEDED => env.cache_state = .CRITICAL
  | _ => false

def shouldWrite (mode : FlushStateMode) (env : FlushEnv) : Bool :=
  mode = .FORCE_SYNC || emptyCache mode env || (mode = .PERIODIC && env.writeDue) ||
    env.fFlushForPrune

namespace CCoinsView

def layer : CCoinsView → CacheLayer
  | .db _ => CacheLayer.empty false
  | .cache l _ => l

def database : CCoinsView → CCoinsViewDB
  | .db d => d
  | .cache _ base => base.database

end CCoinsView

namespace CoinsState

section
variable {G : Type} [CommGroup G] (M : MuHash G)

section
variable (s : CoinsState G)

def coinsTip : CCoinsViewCache := ⟨s.cache, .db s.coinsDB⟩

def withCoinsTip (v : CCoinsView) : CoinsState G :=
  { s with cache := v.layer, coinsDB := v.database }

def ensureUTXOMuHashLoaded : CoinsState G :=
  if s.m_utxo_muhash_loaded then s
  else
    let best_block := s.coinsDB.bestBlock
    let fresh := UTXOMuHashState.rebuild M s.coinsDB.coins
    let rebuilt : CoinsState G :=
      { s with
        m_utxo_muhash := fresh
        m_utxo_muhash_loaded := true
        muhashRecord := if best_block.isNull then s.muhashRecord else some (fresh, best_block) }
    match s.muhashRecord with
    | some (loaded, loaded_tip_hash) =>
      if loaded_tip_hash = best_block then
        { s with m_utxo_muhash := loaded, m_utxo_muhash_loaded := true }
      else rebuilt
    | none => rebuilt

def utxoMuHash : UTXOMuHashState G := (s.ensureUTXOMuHashLoaded M).m_utxo_muhash

def writeTip (tip : CCoinsViewCache) (empty_cache : Bool) : Except Fault CCoinsViewCache :=
  if empty_cache then tip.flush else tip.sync

/-- a loaded accumulator is written beside the coins -/
def recordMuHash : CoinsState G :=
  { s with muhashRecord :=
      if s.m_utxo_muhash_loaded then some (s.m_utxo_muhash, s.coinsTip.getBestBlock)
      else s.muhashRecord }

def writeCoins (empty_cache : Bool) : Except Fault (CoinsState G) :=
  match writeTip s.coinsTip empty_cache with
  | .error f => .error f
  | .ok tip => .ok (s.withCoinsTip tip.toView).recordMuHash

/-- `false`: a fatal error, for lack of disk space -/
def flushStateToDisk (mode : FlushStateMode) (env : FlushEnv) : Except Fault (Bool × CoinsState G) :=
  if !shouldWrite mode env then .ok (true, s)
  else if !env.indexSpace then .ok (false, s)
  else
    let s := s.withCoinsTip s.coinsTip.loadBestBlock.toView
    if s.coinsTip.getBestBlock.isNull then .ok (true, s)
    else if !env.coinsSpace then .ok (false, s)
    else
      match s.writeCoins (emptyCache mode env) with
      | .error f => .error f
      | .ok s => .ok (true, s)

/-! ## loading -/

theorem ensureUTXOMuHashLoaded_cases :
    (s.m_utxo_muhash_loaded = true ∧ s.ensureUTXOMuHashLoaded M = s) ∨
    (s.m_utxo_muhash_loaded = false ∧ ∃ acc, s.muhashRecord = some (acc, s.coinsDB.bestBlock) ∧
      s.ensureUTXOMuHashLoaded M = { s with m_utxo_muhash := acc, m_utxo_muhash_loaded := true }) ∨
    (s.m_utxo_muhash_loaded = false ∧ s.ensureUTXOMuHashLoaded M =
      { s with
        m_utxo_muhash := UTXOMuHashState.ofSet M s.coinsDB.coins
        m_utxo_muhash_loaded := true
        muhashRecord :=
          if s.coinsDB.bestBlock.isNull then s.muhashRecord
          else some (UTXOMuHashState.ofSet M s.coinsDB.coins, s.coinsDB.bestBlock) }) := by
  unfold ensureUTXOMuHashLoaded
  cases hl : s.m_utxo_muhash_loaded with
  | true => exact .inl ⟨rfl, rfl⟩
  | false =>
    right
    simp only [Bool.false_eq_true, if_false, UTXOMuHashState.rebuild_eq_ofSet]
    split
    · rename_i acc tip hrec
      split
      · rename_i htip
        exact .inl ⟨trivial, acc, htip ▸ hrec, rfl⟩
      · exact .inr ⟨trivial, by rw [hrec]⟩
    · rename_i hrec
      exact .inr ⟨trivial, by rw [hrec]⟩

@[simp] theorem ensureUTXOMuHashLoaded_coinsTip :
    (s.ensureUTXOMuHashLoaded M).coinsTip = s.coinsTip := by
  obtain ⟨-, h⟩ | ⟨-, acc, -, h⟩ | ⟨-, h⟩ := ensureUTXOMuHashLoaded_cases M s <;> rw [h] <;> rfl

theorem ensureUTXOMuHashLoaded_loaded : (s.ensureUTXOMuHashLoaded M).m_utxo_muhash_loaded = true := by
  obtain ⟨hl, h⟩ | ⟨-, acc, -, h⟩ | ⟨-, h⟩ := ensureUTXOMuHashLoaded_cases M s
  · rw [h, hl]
  · rw [h]
  · rw [h]

end

/-- what the accumulator rests on: once loaded it commits to the set that `CoinsTip` shows, before
that `CoinsTip` shows the database; the record of the best block commits to the database -/
structure Faithful (s : CoinsState G) : Prop where
  ok : s.coinsTip.Ok
  loaded : s.m_utxo_muhash_loaded = true →
    s.m_utxo_muhash = UTXOMuHashState.ofSet M s.coinsTip.utxos
  unloaded : s.m_utxo_muhash_loaded = false →
    s.coinsTip.utxos = s.coinsDB.coins ∧ s.coinsTip.getBestBlock = s.coinsDB.bestBlock
  record : ∀ acc h, s.muhashRecord = some (acc, h) → h = s.coinsDB.bestBlock →
    acc = UTXOMuHashState.ofSet M s.coinsDB.coins

variable {s s' : CoinsState G} {d : CCoinsViewDB} {c c' : CCoinsViewCache}

theorem Faithful.ensure (h : s.Faithful M) : (s.ensureUTXOMuHashLoaded M).Faithful M := by
  obtain ⟨-, he⟩ | ⟨hl, acc, hrec, he⟩ | ⟨hl, he⟩ := ensureUTXOMuHashLoaded_cases M s <;> rw [he]
  · exact h
  · refine ⟨h.ok, fun _ => ?_, fun hf => absurd hf (by simp), h.record⟩
    show acc = UTXOMuHashState.ofSet M s.coinsTip.utxos
    rw [(h.unloaded hl).1]
    exact h.record acc _ hrec rfl
  · refine ⟨h.ok, fun _ => ?_, fun hf => absurd hf (by simp), fun acc tip hrec htip => ?_⟩
    · show UTXOMuHashState.ofSet M s.coinsDB.coins = UTXOMuHashState.ofSet M s.coinsTip.utxos
      rw [(h.unloaded hl).1]
    · simp only at hrec
      split at hrec
      · exact h.record acc tip hrec htip
      · cases hrec
        rfl

/-- **the accumulator commits to the set that `CoinsTip` shows** -/
theorem Faithful.utxoMuHash_eq (h : s.Faithful M) :
    s.utxoMuHash M = UTXOMuHashState.ofSet M s.coinsTip.utxos := by
  have := (h.ensure M).loaded (ensureUTXOMuHashLoaded_loaded M s)
  rwa [ensureUTXOMuHashLoaded_coinsTip] at this

/-! ## flushing -/

theorem batchWrite_db {entries : CCoinsMap} {h : Uint256} {v' : CCoinsView}
    (hw : (CCoinsView.db d).batchWrite entries h = .ok v') :
    h.isNull = false ∧ v' = .db (d.finalBatch entries h) := by
  rw [CCoinsView.batchWrite] at hw
  split at hw
  · cases hw
  · rename_i d' hd
    cases hw
    unfold CCoinsViewDB.batchWrite at hd
    split at hd
    · cases hd
    · rename_i hnull
      split at hd
      · cases hd
      · cases hd
        exact ⟨by simpa using hnull, rfl⟩

/-- a cache over a database that was flushed or synced: the database holds what the cache shows -/
structure Written (c c' : CCoinsViewCache) : Prop where
  ok : c'.Ok
  utxos : c'.utxos = c.utxos
  block_hash : c'.m_block_hash = c.m_block_hash
  not_null : c.m_block_hash.isNull = false
  database : ∃ d', c'.base = .db d' ∧ d'.coins = c.utxos ∧ d'.bestBlock = c.m_block_hash ∧
    d'.headBlocks = []

theorem written_flush (hc : c.Ok) (hb : c.base = .db d) (h : c.flush = .ok c') : Written c c' := by
  obtain ⟨hok, hut, -, hh, hpeek, -⟩ := CCoinsViewCache.flush_spec hc h
  unfold CCoinsViewCache.flush at h
  rw [hb] at h
  split at h
  · cases h
  · rename_i v' hw
    obtain ⟨hnull, rfl⟩ := batchWrite_db hw
    cases h
    refine ⟨hok, hut, hh, hnull, _, rfl, FMap.ext_get fun o => ?_, rfl, rfl⟩
    rw [CCoinsViewCache.utxos_get]
    exact hpeek o

theorem written_sync (hc : c.Ok) (hb : c.base = .db d) (h : c.sync = .ok c') : Written c c' := by
  obtain ⟨hok, hut, hh, hpeek, -⟩ := CCoinsViewCache.sync_spec hc h
  unfold CCoinsViewCache.sync at h
  rw [hb] at h
  split at h
  · cases h
  · rename_i v' hw
    obtain ⟨hnull, rfl⟩ := batchWrite_db hw
    cases h
    refine ⟨hok, hut, hh, hnull, _, rfl, FMap.ext_get fun o => ?_, rfl, rfl⟩
    rw [CCoinsViewCache.utxos_get]
    exact hpeek o

theorem withCoinsTip_coinsTip (hb : c.base = .db d) : (s.withCoinsTip c.toView).coinsTip = c := by
  obtain ⟨l, base⟩ := c
  obtain rfl : base = .db d := hb
  rfl

/-- what a flush may do to the coins: `CoinsTip` shows the same, and the database is as before or
holds just that, with the accumulator beside it if it is loaded -/
structure Flushed (s s' : CoinsState G) : Prop where
  ok : s'.coinsTip.Ok
  utxos : s'.coinsTip.utxos = s.coinsTip.utxos
  best : s'.coinsTip.getBestBlock = s.coinsTip.getBestBlock
  muhash : s'.m_utxo_muhash = s.m_utxo_muhash
  loaded : s'.m_utxo_muhash_loaded = s.m_utxo_muhash_loaded
  database : (s'.coinsDB = s.coinsDB ∧ s'.muhashRecord = s.muhashRecord) ∨
    (s'.coinsDB.coins = s.coinsTip.utxos ∧ s'.coinsDB.bestBlock = s.coinsTip.getBestBlock ∧
      s.coinsTip.getBestBlock.isNull = false ∧ s'.coinsDB.headBlocks = [] ∧
      s'.muhashRecord = if s.m_utxo_muhash_loaded
        then some (s.m_utxo_muhash, s.coinsTip.getBestBlock) else s.muhashRecord)

theorem Flushed.refl (h : s.coinsTip.Ok) : Flushed s s :=
  ⟨h, rfl, rfl, rfl, rfl, .inl ⟨rfl, rfl⟩⟩

theorem getBestBlock_of_block_hash (h : c.m_block_hash.isNull = false) :
    c.getBestBlock = c.m_block_hash := by
  show (if c.m_block_hash.isNull then _ else _) = _
  rw [h]
  rfl

theorem writeTip_spec {empty_cache : Bool} (hc : c.Ok) (hb : c.base = .db d)
    (h : writeTip c empty_cache = .ok c') : Written c c' := by
  unfold writeTip at h
  split at h
  · exact written_flush hc hb h
  · exact written_sync hc hb h

theorem writeCoins_spec {empty_cache : Bool} (hok : s.coinsTip.Ok)
    (h : s.writeCoins empty_cache = .ok s') :
    Flushed s s' ∧ s'.coinsDB.coins = s.coinsTip.utxos ∧
      s'.coinsDB.bestBlock = s.coinsTip.getBestBlock := by
  unfold writeCoins at h
  split at h
  · cases h
  · rename_i c hc
    cases h
    have hw := writeTip_spec hok rfl hc
    obtain ⟨d', hb, hcoins, hbest, hheads⟩ := hw.database
    have htip : (s.withCoinsTip c.toView).coinsTip = c := withCoinsTip_coinsTip hb
    have hdb : (s.withCoinsTip c.toView).coinsDB = d' := by
      show c.base.database = d'
      rw [hb]
      rfl
    have hh : s.coinsTip.getBestBlock = s.coinsTip.m_block_hash :=
      getBestBlock_of_block_hash hw.not_null
    have hh' : c.getBestBlock = s.coinsTip.getBestBlock := by
      rw [hh, ← hw.block_hash]
      exact getBestBlock_of_block_hash (by rw [hw.block_hash]; exact hw.not_null)
    have hcoins' : (s.withCoinsTip c.toView).coinsDB.coins = s.coinsTip.utxos := by
      rw [hdb, hcoins]
    have hbest' : (s.withCoinsTip c.toView).coinsDB.bestBlock = s.coinsTip.getBestBlock := by
      rw [hdb, hbest, hh]
    refine ⟨⟨?_, ?_, ?_, rfl, rfl, .inr ⟨hcoins', hbest', ?_, ?_, ?_⟩⟩, hcoins', hbest'⟩
    · show (s.withCoinsTip c.toView).coinsTip.Ok
      rw [htip]
      exact hw.ok
    · show (s.withCoinsTip c.toView).coinsTip.utxos = _
      rw [htip]
      exact hw.utxos
    · show (s.withCoinsTip c.toView).coinsTip.getBestBlock = _
      rw [htip]
      exact hh'
    · rw [hh]
      exact hw.not_null
    · show (s.withCoinsTip c.toView).coinsDB.headBlocks = []
      rw [hdb]
      exact hheads
    · show (if _ then some (_, (s.withCoinsTip c.toView).coinsTip.getBestBlock) else _) = _
      rw [htip, hh']
      rfl

theorem loadBestBlock_spec (hok : s.coinsTip.Ok) :
    Flushed s (s.withCoinsTip s.coinsTip.loadBestBlock.toView) := by
  have hbase : s.coinsTip.loadBestBlock.base = .db s.coinsDB := by
    rw [CCoinsViewCache.loadBestBlock]
    split <;> rfl
  have htip : (s.withCoinsTip s.coinsTip.loadBestBlock.toView).coinsTip = s.coinsTip.loadBestBlock :=
    withCoinsTip_coinsTip hbase
  have hsame := sameView_loadBestBlock s.coinsTip.toView
  rw [← CCoinsViewCache.loadBestBlock_toView] at hsame
  refine ⟨?_, ?_, ?_, rfl, rfl, .inl ⟨?_, rfl⟩⟩
  · rw [htip, CCoinsViewCache.Ok, CCoinsViewCache.loadBestBlock_toView]
    exact loadBestBlock_ok hok
  · rw [htip]
    exact CCoinsViewCache.utxos_congr fun o => (hsame.peek o).symm
  · rw [htip]
    exact hsame.best.symm
  · show s.coinsTip.loadBestBlock.base.database = s.coinsDB
    rw [hbase]
    rfl

theorem Flushed.trans {s'' : CoinsState G} (h : Flushed s s') (h' : Flushed s' s'') :
    Flushed s s'' := by
  refine ⟨h'.ok, h'.utxos.trans h.utxos, h'.best.trans h.best, h'.muhash.trans h.muhash,
    h'.loaded.trans h.loaded, ?_⟩
  rcases h'.database with ⟨hdb, hrec⟩ | hwritten
  · rw [hdb, hrec]
    exact h.database
  · right
    rw [h.utxos, h.best, h.muhash, h.loaded] at hwritten
    obtain ⟨h₁, h₂, h₃, h₄, h₅⟩ := hwritten
    refine ⟨h₁, h₂, h₃, h₄, ?_⟩
    rw [h₅]
    split
    · rfl
    · rename_i hl
      rcases h.database with ⟨-, hrec⟩ | ⟨-, -, -, -, hrec⟩
      · exact hrec
      · rw [hrec, if_neg hl]

theorem flushStateToDisk_spec {mode : FlushStateMode} {env : FlushEnv} {r : Bool}
    (hok : s.coinsTip.Ok) (h : s.flushStateToDisk mode env = .ok (r, s')) : Flushed s s' := by
  unfold flushStateToDisk at h
  split at h
  · cases h
    exact Flushed.refl hok
  · split at h
    · cases h
      exact Flushed.refl hok
    · have hload := loadBestBlock_spec hok
      simp only at h
      split at h
      · cases h
        exact hload
      · split at h
        · cases h
          exact hload
        · split at h
          · cases h
          · rename_i s₁ hw
            cases h
            exact hload.trans (writeCoins_spec hload.ok hw).1

theorem Flushed.faithful (hf : Flushed s s') (h : s.Faithful M) : s'.Faithful M := by
  refine ⟨hf.ok, fun hl => ?_, fun hl => ?_, fun acc tip hrec htip => ?_⟩
  · rw [hf.muhash, hf.utxos]
    exact h.loaded (hf.loaded ▸ hl)
  · rw [hf.loaded] at hl
    rw [hf.utxos, hf.best]
    rcases hf.database with ⟨hdb, -⟩ | ⟨hcoins, hbest, -⟩
    · rw [hdb]
      exact h.unloaded hl
    · rw [hcoins, hbest]
      exact ⟨rfl, rfl⟩
  · rcases hf.database with ⟨hdb, hrec'⟩ | ⟨hcoins, hbest, -, -, hrec'⟩
    · rw [hdb] at htip ⊢
      exact h.record acc tip (hrec' ▸ hrec) htip
    · rw [hrec'] at hrec
      rw [hcoins]
      split at hrec
      · rename_i hl
        cases hrec
        exact h.loaded hl
      · -- without a loaded accumulator the database did not move
        rename_i hl
        obtain ⟨hut, hb⟩ := h.unloaded (by simpa using hl)
        rw [hut]
        exact h.record acc tip hrec (by rw [htip, hbest, hb])

end

end CoinsState

end ElektronNet
