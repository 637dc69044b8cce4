import ElektronNet.Replay

/-!
# The accumulator over crashes

A flush writes the coins in batches and then the record of the accumulator; it may stop anywhere
between them (`Interrupted`).  `CrashStep` is the life of a chainstate with such crashes: the steps
of a running chainstate, a crash, the replay at the next start, and a crash in that.

* `Live`             what a running chainstate keeps: both the cache and the database hold the set of
                     their best block, and so does the record of the accumulator
* `Fallen`           what a crash leaves: that, or a database between two such sets
* `accumulator_crash_safe`   as long as no replay has to roll back, the accumulator commits to the
                     coins after every restart
* `coins_of_tip`     in these runs the coins are those of the tip
* `rollback_replay_miscounts`   with a roll back it does not: `DisconnectBlock` loads it from the
                     half-written database, and the roll forward does not move it
-/

namespace ElektronNet

open CCoinsViewCache

/-! ## crashes -/

/-- a chainstate that runs, or what a crash has left of it on disk -/
inductive CoinsNode (G : Type) where
  | up (s : ChainCoins G)
  | down (d : CCoinsViewDB) (record : Option (UTXOMuHashState G × Uint256)) (undo : UndoStore)

def CoinsState.opened {G : Type} [CommGroup G] (d : CCoinsViewDB)
    (record : Option (UTXOMuHashState G × Uint256)) : CoinsState G where
  cache := CacheLayer.empty false
  coinsDB := d
  m_utxo_muhash := UTXOMuHashState.empty
  m_utxo_muhash_loaded := false
  muhashRecord := record

/-- what is in the database `d` when the flush of the cache `c` over it is cut short -/
inductive Interrupted (d : CCoinsViewDB) (c : CacheLayer) : CCoinsViewDB → Prop where
  | unwritten : Interrupted d c d
  /-- the entries of `w` are written -/
  | torn (w : Finset COutPoint) {old_tip : Uint256} (hbest : c.m_block_hash.isNull = false)
      (hold : d.oldTip c.m_block_hash = .ok old_tip) :
      Interrupted d c (d.partialBatch w c.cacheCoins c.m_block_hash old_tip)
  /-- all batches are written; the record of the accumulator would be next -/
  | unrecorded {old_tip : Uint256} (hbest : c.m_block_hash.isNull = false)
      (hold : d.oldTip c.m_block_hash = .ok old_tip) :
      Interrupted d c (d.finalBatch c.cacheCoins c.m_block_hash)

/-- the index and the blocks that an action of the node uses are these -/
def CoinsAction.Reads (m : BlockMap) (blocks : BlockData) : CoinsAction → Prop
  | .connectTip m' _ pos block => m' = m ∧ blocks pos.hash = some block
  | .disconnectTip m' _ pos block => m' = m ∧ (block = none ∨ block = blocks pos.hash)
  | _ => True

section
variable {G : Type} [CommGroup G]

/-- the flushes inside `ConnectTip` and `DisconnectTip` come last there, so a crash in one of them
is one after a step that does not flush -/
inductive CrashStep (M : MuHash G) (H : Hashes) (rules : BlockRules) (m : BlockMap)
    (blocks : BlockData) : Option CoinsAction → CoinsNode G → CoinsNode G → Prop where
  | live {a s s'} (hreads : a.Reads m blocks) (h : CoinsStep M H rules a s s') :
      CrashStep M H rules m blocks (some a) (.up s) (.up s')
  | crash {s d} (h : Interrupted s.coins.coinsDB s.coins.coinsTip.loadBestBlock.toCacheLayer d) :
      CrashStep M H rules m blocks none (.up s) (.down d s.coins.muhashRecord s.undo)
  /-- `ReplayBlocks`, then `CoinsTip` is made and `LoadChainTip` called -/
  | recover {d record undo c}
      (h : replayBlocks H m blocks M (CoinsState.opened d record) undo = .ok (true, c)) :
      CrashStep M H rules m blocks none (.down d record undo)
        (.up ⟨{ c with cache := CacheLayer.empty false }, c.coinsDB.loadedTip, undo⟩)
  | crashAgain {d record undo hashNew hashOld c cache d'} (hheads : d.headBlocks = [hashNew, hashOld])
      (h : replayCache H m blocks M (CoinsState.opened d record) undo hashNew hashOld =
        .ok (some (c, cache)))
      (hd : Interrupted c.coinsDB cache.toCacheLayer d') :
      CrashStep M H rules m blocks none (.down d record undo) (.down d' c.muhashRecord undo)

section
variable {M : MuHash G} {H : Hashes} {rules : BlockRules} {m : BlockMap}
  {blocks : BlockData} {s s' : ChainCoins G} {pos : BlockPlace} {block : CBlock}

theorem CrashStep.connect {env : ConnectEnv} (hplace : m.place pos.hash = some pos)
    (hb : blocks pos.hash = some block) (h : connectTip M H rules env m s pos block = .ok (true, s')) :
    CrashStep M H rules m blocks (some (.connectTip m env pos block)) (.up s) (.up s') :=
  .live ⟨rfl, hb⟩ (.connectTip hplace h)

theorem CrashStep.disconnect {env : FlushEnv} (hplace : m.place pos.hash = some pos)
    (hb : blocks pos.hash = some block) (h : disconnectTip M H env s pos (some block) = .ok (true, s')) :
    CrashStep M H rules m blocks (some (.disconnectTip m env pos (some block))) (.up s) (.up s') :=
  .live ⟨rfl, .inr hb.symm⟩ (.disconnectTip hplace h)

theorem CrashStep.flush {mode : FlushStateMode} {env : FlushEnv} {r : Bool} {c : CoinsState G}
    (h : s.coins.flushStateToDisk mode env = .ok (r, c)) :
    CrashStep M H rules m blocks (some (.flushStateToDisk mode env)) (.up s)
      (.up { s with coins := c }) :=
  .live trivial (.flushStateToDisk h)

end

variable (M : MuHash G) (H : Hashes) (rules : BlockRules) (m : BlockMap) (blocks : BlockData)

/-- what the next start finds does not have to be rolled back: the old head of an interrupted flush,
if there is one, is an ancestor of the new one -/
def CoinsNode.Forward : CoinsNode G → Prop
  | .up _ => True
  | .down d _ _ => ∀ new old, d.headBlocks = [new, old] →
      old.isNull = true ∨ old ∈ m.forest.path new

/-- finitely many steps, on blocks that are not excused from BIP30, without a need to roll back -/
def CrashRun : CoinsNode G → CoinsNode G → Prop :=
  Relation.ReflTransGen fun n n' => ∃ l, (∀ a, l = some a → a.Ordinary rules) ∧ n'.Forward m ∧
    CrashStep M H rules m blocks l n n'

/-- the accumulator commits to the coins: to those of `CoinsTip` while the node runs, and otherwise
the next start succeeds and its first use of the accumulator commits to those in the database -/
def CoinsNode.Committed : CoinsNode G → Prop
  | .up s => s.coins.utxoMuHash M = UTXOMuHashState.ofSet M s.coins.coinsTip.utxos
  | .down d record undo => ∃ c,
      replayBlocks H m blocks M (CoinsState.opened d record) undo = .ok (true, c) ∧
        c.coinsDB.headBlocks = [] ∧ c.utxoMuHash M = UTXOMuHashState.ofSet M c.coinsDB.coins

/-! ## what is kept -/

variable (S : Uint256 → Utxos)

/-- the coins are the set of the best block -/
structure Settled (coins : Utxos) (best : Uint256) : Prop where
  coins : coins = setAt S best
  known : best.isNull = false → (m.lookupBlockIndex best).isSome = true

/-- the record of the accumulator belongs to the set of its block -/
def RecordOf (record : Option (UTXOMuHashState G × Uint256)) : Prop :=
  ∀ acc h, record = some (acc, h) → h.isNull = false ∧ acc = UTXOMuHashState.ofSet M (S h)

def UndoOf (undo : UndoStore) : Prop :=
  ∀ b bu p block, undo.get b = some bu → m.pprev b = some p → blocks b = some block →
    bu = blockUndo H (m.nHeight b) block (S p) ∧ Applies H (m.nHeight b) block (S p)

structure Live (s : ChainCoins G) : Prop extends Sound M s where
  tip : s.tip = if s.coins.coinsTip.getBestBlock.isNull then none
    else some s.coins.coinsTip.getBestBlock
  settled : Settled m S s.coins.coinsTip.utxos s.coins.coinsTip.getBestBlock
  heads : s.coins.coinsDB.headBlocks = []
  stored : Settled m S s.coins.coinsDB.coins s.coins.coinsDB.bestBlock
  record : RecordOf M S s.coins.muhashRecord
  undoOf : UndoOf H m blocks S s.undo
  above : ReplayableFrom m blocks s.coins.coinsDB.bestBlock s.coins.coinsTip.getBestBlock

structure Fallen (d : CCoinsViewDB) (record : Option (UTXOMuHashState G × Uint256)) (undo : UndoStore) :
    Prop where
  database : (d.headBlocks = [] ∧ Settled m S d.coins d.bestBlock) ∨
    ∃ new old, Torn m blocks S d new old
  record : RecordOf M S record
  regular : undo.Regular
  undoOf : UndoOf H m blocks S undo

variable {M H rules m blocks S} {s s' : ChainCoins G} {pos : BlockPlace} {block : CBlock}
  {undo : UndoStore} {d : CCoinsViewDB} {c : CCoinsViewCache}

theorem RecordOf.ensure {s : CoinsState G} (h : RecordOf M S s.muhashRecord)
    (hdb : Settled m S s.coinsDB.coins s.coinsDB.bestBlock) :
    RecordOf M S (s.ensureUTXOMuHashLoaded M).muhashRecord := by
  obtain ⟨-, he⟩ | ⟨-, acc, hrec, he⟩ | ⟨-, he⟩ := s.ensureUTXOMuHashLoaded_cases M
  · rw [he]
    exact h
  · rw [he]
    exact h
  · rw [he]
    intro acc k hrec
    cases hn : s.coinsDB.bestBlock.isNull with
    | true =>
      rw [hn] at hrec
      exact h acc k hrec
    | false =>
      rw [hn] at hrec
      cases hrec
      exact ⟨hn, by rw [hdb.coins, setAt_of_not_null hn]⟩

theorem replayableFrom_self (m : BlockMap) (blocks : BlockData) {best : Uint256}
    (hS : ∀ b, (m.lookupBlockIndex b).isSome = true → b.isNull = false) :
    ReplayableFrom m blocks best best := by
  intro b hb hp
  cases hn : best.isNull with
  | false => exact .inr ⟨rfl, hb⟩
  | true =>
    -- the null hash is in no index, so it is its own path
    have hpp : m.pprev best = none := by
      cases he : m.pprev best with
      | none => rfl
      | some p =>
        obtain ⟨e, hlook, -⟩ := BlockMap.pprev_eq_some.mp he
        have := hS best (Option.isSome_iff_exists.mpr ⟨e, hlook⟩)
        rw [hn] at this
        cases this
    rw [m.forest.path_root hpp, List.mem_singleton] at hb
    rw [hb] at hp
    exact absurd hpp hp

/-! ## steps of a running chainstate -/

theorem Live.flushed (hS : Ledger H rules m blocks S)
    (h : Live M H m blocks S s) {c : CoinsState G} (hf : CoinsState.Flushed s.coins c) :
    Live M H m blocks S { s with coins := c } := by
  have hsound := h.toSound.flushed hf
  have hset : Settled m S c.coinsTip.utxos c.coinsTip.getBestBlock := by
    rw [hf.utxos, hf.best]
    exact h.settled
  have htip : s.tip = if c.coinsTip.getBestBlock.isNull then none
      else some c.coinsTip.getBestBlock := by
    rw [hf.best]
    exact h.tip
  rcases hf.database with ⟨hdb, hrec⟩ | ⟨hcoins, hbest, hn, hheads, hrec⟩
  · refine ⟨hsound, htip, hset, ?_, ?_, ?_, h.undoOf, ?_⟩
    · rw [hdb]
      exact h.heads
    · rw [hdb]
      exact h.stored
    · rw [hrec]
      exact h.record
    · show ReplayableFrom m blocks c.coinsDB.bestBlock c.coinsTip.getBestBlock
      rw [hdb, hf.best]
      exact h.above
  · refine ⟨hsound, htip, hset, hheads, ?_, ?_, h.undoOf, ?_⟩
    · rw [hcoins, hbest]
      exact h.settled
    · rw [hrec]
      split
      · rename_i hl
        intro acc k hk
        cases hk
        refine ⟨hn, ?_⟩
        rw [h.faithful.loaded hl, h.settled.coins, setAt_of_not_null hn]
      · exact h.record
    · show ReplayableFrom m blocks c.coinsDB.bestBlock c.coinsTip.getBestBlock
      rw [hbest, hf.best]
      exact replayableFrom_self m blocks hS.known

theorem Live.moved (h : Live M H m blocks S s) {t : CoinsState G}
    {best : Uint256} (hS : Ledger H rules m blocks S)
    (ht : Moved M s.coins t (S best) best) (hknown : (m.lookupBlockIndex best).isSome = true)
    (hreg : undo.Regular) (hundo : UndoOf H m blocks S undo)
    (habove : ReplayableFrom m blocks s.coins.coinsDB.bestBlock best) :
    Live M H m blocks S ⟨t, some best, undo⟩ := by
  have hn := hS.known best hknown
  have hb := ht.best hn
  have hset : Settled m S t.coinsTip.utxos t.coinsTip.getBestBlock := by
    rw [hb, ht.utxos]
    exact ⟨(setAt_of_not_null hn).symm, fun _ => hknown⟩
  have hdbreg : Regular t.coinsDB.coins := by
    rw [ht.database]
    exact h.database
  refine ⟨⟨ht.faithful h.faithful, ?_, hdbreg, hreg⟩, ?_, hset, ?_, ?_, ?_, hundo, ?_⟩
  · show Regular t.coinsTip.utxos
    rw [ht.utxos]
    exact hS.regular best
  · show some best = if t.coinsTip.getBestBlock.isNull then none else some t.coinsTip.getBestBlock
    rw [hb, hn]
    rfl
  · show t.coinsDB.headBlocks = []
    rw [ht.database]
    exact h.heads
  · show Settled m S t.coinsDB.coins t.coinsDB.bestBlock
    rw [ht.database]
    exact h.stored
  · show RecordOf M S t.muhashRecord
    rw [ht.record]
    exact h.record.ensure h.stored
  · show ReplayableFrom m blocks t.coinsDB.bestBlock t.coinsTip.getBestBlock
    rw [ht.database, hb]
    exact habove

theorem Live.tip_eq_some (h : Live M H m blocks S s) {t : Uint256}
    (ht : s.tip = some t) : s.coins.coinsTip.getBestBlock = t ∧ t.isNull = false ∧
      s.coins.coinsTip.utxos = S t := by
  have htip := h.tip
  cases hn : s.coins.coinsTip.getBestBlock.isNull with
  | true =>
    rw [hn, ht] at htip
    cases htip
  | false =>
    rw [hn, ht] at htip
    obtain rfl : t = s.coins.coinsTip.getBestBlock := Option.some.inj htip
    exact ⟨rfl, hn, h.settled.coins.trans (setAt_of_not_null hn)⟩

theorem Live.tip_eq_none (h : Live M H m blocks S s) (ht : s.tip = none) :
    s.coins.coinsTip.utxos = FMap.empty := by
  have htip := h.tip
  cases hn : s.coins.coinsTip.getBestBlock.isNull with
  | true =>
    rw [h.settled.coins, setAt, hn]
    rfl
  | false =>
    rw [hn, ht] at htip
    cases htip

theorem place_eq {hash : Uint256} (h : m.place hash = some pos) :
    pos.hash = hash ∧ pos.pprev = m.pprev hash ∧ pos.nHeight = m.nHeight hash ∧
      (m.lookupBlockIndex hash).isSome = true := by
  obtain ⟨e, hlookup, rfl⟩ := Option.map_eq_some_iff.mp h
  have he : m.entries.get hash = some e := hlookup
  refine ⟨rfl, ?_, (BlockMap.nHeight_of_get he).symm, Option.isSome_iff_exists.mpr ⟨e, he⟩⟩
  rw [BlockMap.pprev, he]
  rfl

theorem replayable_of_connectTip {env : ConnectEnv} (hb : blocks pos.hash = some block)
    (h : connectTip M H rules env m s pos block = .ok (true, s')) :
    Replayable blocks pos.hash := by
  unfold connectTip at h
  rw [Outcome.ite_throw_eq_ok] at h
  obtain ⟨out, hconnect, h⟩ := Outcome.bind_eq_ok.mp h.2
  split at h
  · cases h
  rename_i hvalid
  obtain ⟨hnot, -⟩ | ⟨-, hcheck, -⟩ := connectBlock_cases hconnect
  · exact absurd hnot hvalid
  · exact ⟨block, hb, fun tx htx =>
      (checkTransaction_ok ((checkContents_ok (checkBlock_ok hcheck)).2 tx htx)).2⟩

theorem UndoOf.record (h : UndoOf H m blocks S undo) {hash p : Uint256}
    (hp : m.pprev hash = some p) (hb : blocks hash = some block)
    (happ : Applies H (m.nHeight hash) block (S p)) :
    UndoOf H m blocks S (undo.record hash (blockUndo H (m.nHeight hash) block (S p))) := by
  intro b bu p' block' hbu hp' hb'
  unfold UndoStore.record at hbu
  split at hbu
  · exact h b bu p' block' hbu hp' hb'
  · rw [FMap.insert_get] at hbu
    split at hbu
    · rename_i hbh
      subst hbh
      cases hbu
      obtain rfl := Option.some.inj (hp.symm.trans hp')
      obtain rfl := Option.some.inj (hb.symm.trans hb')
      exact ⟨rfl, happ⟩
    · exact h b bu p' block' hbu hp' hb'

theorem ReplayableFrom.child {old p hash : Uint256} (h : ReplayableFrom m blocks old p)
    (hp : m.pprev hash = some p) (hrep : Replayable blocks hash) :
    ReplayableFrom m blocks old hash := by
  intro b hb hbp
  rcases (m.forest.mem_path_iff b hash).mp hb with rfl | ⟨p', hp', hmem⟩
  · exact .inl hrep
  · obtain rfl := Option.some.inj (hp.symm.trans hp')
    exact h b hmem hbp

theorem Live.connectTip {env : ConnectEnv} (hS : Ledger H rules m blocks S) (hs : Live M H m blocks S s)
    (hplace : m.place pos.hash = some pos) (hb : blocks pos.hash = some block)
    (hbip : (CoinsAction.connectTip m env pos block).Ordinary rules)
    (h : connectTip M H rules env m s pos block = .ok (true, s')) : Live M H m blocks S s' := by
  have hsound := hs.toSound.connectTip hplace hbip h
  have hrep := replayable_of_connectTip hb h
  obtain ⟨-, hpprev, hheight, hknown⟩ := place_eq hplace
  obtain ⟨hprev, htip, hundo, happ, t, hmoved, hflushed⟩ := connectTip_spec hs.faithful hbip h
  obtain ⟨coins, tip, undo⟩ := s'
  obtain rfl : tip = some pos.hash := htip
  unfold connectedSet at hmoved
  unfold connectedUndo at hundo
  have hlive : Live M H m blocks S ⟨t, some pos.hash, undo⟩ := by
    by_cases hg : pos.hash = rules.hashGenesisBlock
    · rw [if_pos hg] at hmoved hundo
      have hroot : m.pprev pos.hash = none := by
        rw [hg]
        exact hS.genesis
      have hempty := hs.tip_eq_none (by rw [← hprev, hpprev, hroot])
      rw [hempty, ← (hS.root pos.hash hknown hroot).2] at hmoved
      obtain rfl : undo = s.undo := hundo
      refine hs.moved hS hmoved hknown hsound.undo hs.undoOf fun b hb hbp => ?_
      rw [m.forest.path_root hroot, List.mem_singleton] at hb
      exact absurd hroot (hb ▸ hbp)
    · rw [if_neg hg] at hmoved hundo
      obtain ⟨⟨p, hp⟩, happ⟩ := happ hg
      have hp' : m.pprev pos.hash = some p := by rw [← hpprev, hp]
      obtain ⟨hbest, -, hut⟩ := hs.tip_eq_some (hprev.symm.trans hp)
      rw [hut, hheight, ← hS.child pos.hash p block hp' hb] at hmoved
      rw [hut, hheight] at hundo happ
      obtain rfl : undo = _ := hundo
      refine hs.moved hS hmoved hknown hsound.undo (hs.undoOf.record hp' hb happ) ?_
      exact ReplayableFrom.child (hbest ▸ hs.above) hp' hrep
  exact hlive.flushed hS hflushed

theorem Live.disconnectTip {flush : FlushEnv}
    {block : Option CBlock} (hS : Ledger H rules m blocks S) (hs : Live M H m blocks S s)
    (hplace : m.place pos.hash = some pos) (hb : block = none ∨ block = blocks pos.hash)
    (hbip : isBIP30Unspendable pos = false)
    (h : disconnectTip M H flush s pos block = .ok (true, s')) : Live M H m blocks S s' := by
  obtain ⟨-, hpprev, hheight, hknown⟩ := place_eq hplace
  have hh := disconnectTip_nHeight hplace h
  obtain ⟨b, bu, p, hblock, hbu, hp, htip, -, htip', hundo, t, hmoved, hflushed⟩ :=
    disconnectTip_spec hs.faithful hh hbip hs.undo h
  have hblocks : blocks pos.hash = some b := by
    rcases hb with hb | hb
    · rw [hb] at hblock
      cases hblock
    · rw [← hb, hblock]
  have hp' : m.pprev pos.hash = some p := by rw [← hpprev, hp]
  obtain ⟨hbest, -, hut⟩ := hs.tip_eq_some htip
  obtain ⟨hbu', happ⟩ := hs.undoOf pos.hash bu p b hbu hp' hblocks
  obtain ⟨coinbase, txs, hvtx, hcoinbase, hcb⟩ := happ.coinbase
  have hset : unapplyTxs H (unwindOrder b bu) (S pos.hash) = S p := by
    rw [hS.child pos.hash p b hp' hblocks, hbu', unwindOrder, blockUndo, hvtx]
    exact unapplyTxs_applyTxs H hcoinbase hcb (hvtx ▸ happ.spends) (hvtx ▸ happ.fresh)
  rw [hut, hset] at hmoved
  have hpknown : (m.lookupBlockIndex p).isSome = true :=
    known_of_mem hknown (m.forest.mem_path_of_parent hp' (m.forest.self_mem_path p))
  obtain ⟨coins, tip, undo⟩ := s'
  obtain rfl : tip = some p := htip'
  obtain rfl : undo = s.undo := hundo
  have hlive : Live M H m blocks S ⟨t, some p, s.undo⟩ := by
    refine hs.moved hS hmoved hpknown hs.undo hs.undoOf fun x hx hxp => ?_
    refine hs.above x ?_ hxp
    rw [hbest]
    exact m.forest.mem_path_of_parent hp' hx
  exact hlive.flushed hS hflushed

theorem Live.ensure (h : Live M H m blocks S s) :
    Live M H m blocks S { s with coins := s.coins.ensureUTXOMuHashLoaded M } := by
  have htip := s.coins.ensureUTXOMuHashLoaded_coinsTip M
  have hdb := ensureUTXOMuHashLoaded_coinsDB (M := M) s.coins
  refine ⟨h.toSound.ensure, ?_, ?_, ?_, ?_, h.record.ensure h.stored, h.undoOf, ?_⟩
  · show s.tip = _
    rw [htip]
    exact h.tip
  · rw [htip]
    exact h.settled
  · rw [hdb]
    exact h.heads
  · rw [hdb]
    exact h.stored
  · show ReplayableFrom m blocks (s.coins.ensureUTXOMuHashLoaded M).coinsDB.bestBlock
      (s.coins.ensureUTXOMuHashLoaded M).coinsTip.getBestBlock
    rw [hdb, htip]
    exact h.above

theorem Live.looked (h : Live M H m blocks S s) {v : CCoinsView}
    (hv : SameStack s.coins.coinsTip.toView v) :
    Live M H m blocks S { s with coins := s.coins.withCoinsTip v } := by
  obtain ⟨hf, hut, hdb⟩ := h.faithful.looked hv
  have hbest : (s.coins.withCoinsTip v).coinsTip.getBestBlock = s.coins.coinsTip.getBestBlock := by
    show (s.coins.withCoinsTip v).coinsTip.toView.getBestBlock = _
    rw [(withCoinsTip_same hv).1, ← hv.best]
    rfl
  refine ⟨⟨hf, hut.symm ▸ h.regular, hdb.symm ▸ h.database, h.undo⟩, ?_, ?_, ?_, ?_, h.record,
    h.undoOf, ?_⟩
  · show s.tip = _
    rw [hbest]
    exact h.tip
  · rw [hut, hbest]
    exact h.settled
  · rw [hdb]
    exact h.heads
  · rw [hdb]
    exact h.stored
  · show ReplayableFrom m blocks (s.coins.withCoinsTip v).coinsDB.bestBlock
      (s.coins.withCoinsTip v).coinsTip.getBestBlock
    rw [hdb, hbest]
    exact h.above

theorem Live.dryRun {m' : BlockMap}
    {overlay writable update : Bool} {out : Connected G} (hs : Live M H m blocks S s)
    (h : connectBlock M H rules s.coins s.undo m' block pos
      ⟨CacheLayer.empty overlay, s.coins.coinsTip.toView⟩ writable true update = .ok out) :
    Live M H m blocks S { s with coins := out.coins.withCoinsTip out.view.base } := by
  have hbase : SameStack s.coins.coinsTip.toView out.view.base := connectBlock_base h
  obtain ⟨hcoins, -⟩ := connectBlock_idle h (.inr rfl)
  rw [hcoins]
  refine hs.ensure.looked ?_
  rw [CoinsState.ensureUTXOMuHashLoaded_coinsTip]
  exact hbase

/-! ## starts -/

variable {record : Option (UTXOMuHashState G × Uint256)}

theorem Fallen.opened (hS : Ledger H rules m blocks S) (hheads : d.headBlocks = [])
    (hset : Settled m S d.coins d.bestBlock) (hrec : RecordOf M S record) (hreg : undo.Regular)
    (hundo : UndoOf H m blocks S undo) :
    Live M H m blocks S ⟨CoinsState.opened d record, d.loadedTip, undo⟩ := by
  have hut : (CoinsState.opened d record).coinsTip.utxos = d.coins := new_utxos _
  have hregular : Regular d.coins := by
    rw [hset.coins, setAt]
    split
    · exact regular_empty
    · exact hS.regular _
  refine ⟨⟨⟨new_ok trivial, fun hl => (by cases hl), fun _ => ⟨hut, rfl⟩, ?_⟩, hut.symm ▸ hregular,
    hregular, hreg⟩, rfl, hut.symm ▸ hset, hheads, hset, hrec, hundo,
    replayableFrom_self m blocks hS.known⟩
  intro acc k hacc hk
  obtain ⟨hn, hof⟩ := hrec acc k hacc
  obtain rfl : k = d.bestBlock := hk
  show acc = UTXOMuHashState.ofSet M d.coins
  rw [hof, hset.coins, setAt_of_not_null hn]

theorem Live.step {a : CoinsAction} (hS : Ledger H rules m blocks S)
    (hs : Live M H m blocks S s) (ha : a.Ordinary rules) (hreads : a.Reads m blocks)
    (h : CoinsStep M H rules a s s') : Live M H m blocks S s' := by
  cases h with
  | connectTip hplace h =>
    obtain ⟨rfl, hb⟩ := hreads
    exact hs.connectTip hS hplace hb ha h
  | disconnectTip hplace h =>
    obtain ⟨rfl, hb⟩ := hreads
    exact hs.disconnectTip hS hplace hb ha h
  | flushStateToDisk h => exact hs.flushed hS (CoinsState.flushStateToDisk_spec hs.faithful.ok h)
  | dryRun h => exact hs.dryRun h
  | utxoMuHash => exact hs.ensure
  | restart h _ =>
    have hf := hs.flushed hS (CoinsState.flushStateToDisk_spec hs.faithful.ok h)
    exact Fallen.opened hS hf.heads hf.stored hf.record hf.undo hf.undoOf

/-! ## crashes and replays -/

theorem writeCoins_shown (hc : c.Ok) (hbase : c.base = .db d) (w : Finset COutPoint) (o : COutPoint) :
    (d.writeCoins w c.cacheCoins).get o = if o ∈ w then c.utxos.get o else d.coins.get o := by
  have hok : ∀ e, c.cacheCoins.get o = some e → EntryOk e (d.coins.get o) := by
    intro e he
    have := entry_ok hc he
    rwa [hbase] at this
  rw [CCoinsViewDB.writeCoins_get, written_eq_shown _ hok, utxos_get]
  cases hg : c.cacheCoins.get o with
  | some e =>
    rw [peek_of_entry hg]
    rfl
  | none =>
    rw [peek_of_no_entry hg, hbase]
    rfl

theorem finalBatch_coins (hc : c.Ok)
    (hbase : c.base = .db d) (h : Uint256) : (d.finalBatch c.cacheCoins h).coins = c.utxos := by
  refine FMap.ext_get fun o => ?_
  show (d.writeCoins c.cacheCoins.dom c.cacheCoins).get o = _
  rw [writeCoins_shown hc hbase]
  split
  · rfl
  · rename_i ho
    rw [utxos_get, peek_of_no_entry ((FMap.get_eq_none_iff _ _).mpr ho), hbase]
    rfl

theorem fallen_of_interrupted {d' : CCoinsViewDB} {new old : Uint256}
    (hfallen : Fallen M H m blocks S d record undo) (hc : c.Ok) (hbase : c.base = .db d)
    (hhash : c.m_block_hash = new) (hset : Settled m S c.utxos new)
    (hold : ∀ t, d.oldTip new = .ok t → t = old) (hknown : old.isNull = false →
      (m.lookupBlockIndex old).isSome = true)
    (hcoins : ∀ o, d.coins.get o = (setAt S old).get o ∨ d.coins.get o = (S new).get o)
    (habove : ReplayableFrom m blocks old new) (h : Interrupted d c.toCacheLayer d') :
    Fallen M H m blocks S d' record undo := by
  refine ⟨?_, hfallen.record, hfallen.regular, hfallen.undoOf⟩
  subst hhash
  cases h with
  | unwritten => exact hfallen.database
  | torn w hn ht =>
    obtain rfl := hold _ ht
    refine .inr ⟨_, _, rfl, rfl, hset.known hn, hknown, fun o => ?_, habove⟩
    have hw := writeCoins_shown hc hbase w o
    split at hw
    · rw [hset.coins, setAt_of_not_null hn] at hw
      exact .inr hw
    · rcases hcoins o with hkeep | hnew
      · exact .inl (hw.trans hkeep)
      · exact .inr (hw.trans hnew)
  | unrecorded hn _ =>
    refine .inl ⟨rfl, ?_⟩
    rw [finalBatch_coins hc hbase]
    exact hset

theorem Live.crash (hs : Live M H m blocks S s)
    (h : Interrupted s.coins.coinsDB s.coins.coinsTip.loadBestBlock.toCacheLayer d) :
    Fallen M H m blocks S d s.coins.muhashRecord s.undo := by
  obtain ⟨hok, hut, -⟩ := ElektronNet.loadBestBlock_spec hs.faithful.ok
  have hbase : s.coins.coinsTip.loadBestBlock.base = .db s.coins.coinsDB := by
    rw [loadBestBlock]
    split <;> rfl
  have hhash : s.coins.coinsTip.loadBestBlock.m_block_hash = s.coins.coinsTip.getBestBlock := by
    rw [loadBestBlock]
    show _ = if s.coins.coinsTip.m_block_hash.isNull then _ else _
    split <;> rfl
  refine fallen_of_interrupted ⟨.inl ⟨hs.heads, hs.stored⟩, hs.record, hs.undo, hs.undoOf⟩ hok hbase
    hhash (hut.symm ▸ hs.settled) (fun t ht => ?_) hs.stored.known
    (fun o => .inl (by rw [hs.stored.coins])) hs.above h
  rw [CCoinsViewDB.oldTip, hs.heads] at ht
  split at ht <;> exact (Except.ok.inj ht).symm

section
variable (hS : Ledger H rules m blocks S)
include hS

theorem Torn.fallen {new old : Uint256} {c : CoinsState G} {cache : CCoinsViewCache} {d' : CCoinsViewDB}
    (hfallen : Fallen M H m blocks S d record undo) (ht : Torn m blocks S d new old)
    (hforward : old.isNull = true ∨ old ∈ m.forest.path new)
    (hcache : replayCache H m blocks M (CoinsState.opened d record) undo new old =
      .ok (some (c, cache))) (h : Interrupted c.coinsDB cache.toCacheLayer d') :
    Fallen M H m blocks S d' c.muhashRecord undo := by
  obtain ⟨cache', hcache', hok, hut, hhash, hbase⟩ :=
    replayCache_forward (M := M) (s := CoinsState.opened d record) undo hS ht hforward
  rw [hcache] at hcache'
  cases hcache'
  have hn := hS.known new ht.new_known
  refine fallen_of_interrupted hfallen hok hbase hhash ⟨?_, fun _ => ht.new_known⟩ (fun t htip => ?_)
    ht.old_known ht.coins ht.above h
  · rw [hut, setAt_of_not_null hn]
  · change d.oldTip new = .ok t at htip
    rw [CCoinsViewDB.oldTip, ht.best, ht.heads] at htip
    simp only [if_true] at htip
    exact (Except.ok.inj htip).symm

theorem Fallen.recover (h : Fallen M H m blocks S d record undo)
    (hforward : ∀ new old, d.headBlocks = [new, old] → old.isNull = true ∨ old ∈ m.forest.path new) :
    ∃ d', replayBlocks H m blocks M (CoinsState.opened d record) undo =
        .ok (true, CoinsState.opened d' record) ∧
      Live M H m blocks S ⟨CoinsState.opened d' record, d'.loadedTip, undo⟩ := by
  rcases h.database with ⟨hheads, hset⟩ | ⟨new, old, ht⟩
  · refine ⟨d, ?_, Fallen.opened hS hheads hset h.record h.regular h.undoOf⟩
    have hopen : (CoinsState.opened (G := G) d record).coinsDB.headBlocks = [] := hheads
    rw [replayBlocks, hopen]
    rfl
  · obtain ⟨d', hd', hcoins, hbest, hheads⟩ := replayBlocks_forward (M := M)
      (s := CoinsState.opened d record) undo hS ht (hforward new old ht.heads)
    refine ⟨d', hd', Fallen.opened hS hheads ?_ h.record h.regular h.undoOf⟩
    rw [hbest, hcoins]
    exact ⟨(setAt_of_not_null (hS.known new ht.new_known)).symm, fun _ => ht.new_known⟩

/-! ## runs -/

def CoinsNode.Kept (M : MuHash G) (H : Hashes) (m : BlockMap) (blocks : BlockData)
    (S : Uint256 → Utxos) : CoinsNode G → Prop
  | .up s => Live M H m blocks S s
  | .down d record undo => Fallen M H m blocks S d record undo

theorem CrashStep.kept {l : Option CoinsAction} {n n' : CoinsNode G}
    (hn : n.Kept M H m blocks S) (hforward : n.Forward m)
    (hl : ∀ a, l = some a → a.Ordinary rules) (h : CrashStep M H rules m blocks l n n') :
    n'.Kept M H m blocks S := by
  cases h with
  | live hreads h => exact Live.step hS hn (hl _ rfl) hreads h
  | crash h => exact Live.crash hn h
  | recover h =>
    obtain ⟨d', hd', hlive⟩ := Fallen.recover hS hn hforward
    rw [h] at hd'
    cases hd'
    exact hlive
  | crashAgain hheads h hd =>
    rename_i d record undo new old c cache d'
    obtain ⟨hnone, -⟩ | ⟨new', old', ht⟩ := hn.database
    · rw [hheads] at hnone
      cases hnone
    · obtain ⟨rfl, rfl⟩ : new' = new ∧ old' = old := by
        have := ht.heads.symm.trans hheads
        simpa using this
      exact Torn.fallen hS hn ht (hforward _ _ hheads) h hd

theorem CoinsNode.Kept.run {n n' : CoinsNode G}
    (hn : n.Kept M H m blocks S) (hforward : n.Forward m) (h : CrashRun M H rules m blocks n n') :
    n'.Kept M H m blocks S ∧ n'.Forward m := by
  induction h with
  | refl => exact ⟨hn, hforward⟩
  | tail _ hstep ih =>
    obtain ⟨l, hl, hf, hstep⟩ := hstep
    exact ⟨hstep.kept hS ih.1 ih.2 hl, hf⟩

theorem CoinsNode.Kept.committed {n : CoinsNode G}
    (hn : n.Kept M H m blocks S) (hforward : n.Forward m) : n.Committed M H m blocks := by
  cases n with
  | up s => exact Live.toSound hn |>.faithful.utxoMuHash_eq M
  | down d record undo =>
    obtain ⟨d', hd', hlive⟩ := Fallen.recover hS hn hforward
    refine ⟨_, hd', hlive.heads, ?_⟩
    have hut : (CoinsState.opened d' record).coinsTip.utxos = d'.coins := new_utxos _
    have := hlive.faithful.utxoMuHash_eq M
    rwa [hut] at this

/-- a chainstate as it is after a start, its data on disk those of the chain up to its best block -/
structure ChainCoins.AtRest (M : MuHash G) (H : Hashes) (m : BlockMap)
    (blocks : BlockData) (S : Uint256 → Utxos) (s : ChainCoins G) : Prop where
  unchanged : s.coins.Unchanged
  tip : s.tip = s.coins.coinsDB.loadedTip
  heads : s.coins.coinsDB.headBlocks = []
  stored : Settled m S s.coins.coinsDB.coins s.coins.coinsDB.bestBlock
  record : RecordOf M S s.coins.muhashRecord
  regular : s.undo.Regular
  undoOf : UndoOf H m blocks S s.undo

theorem ChainCoins.AtRest.live (h : s.AtRest M H m blocks S) : Live M H m blocks S s := by
  have hopened := Fallen.opened hS h.heads h.stored h.record h.regular h.undoOf
  have hintact : s.Intact M := ⟨fun acc hacc => hopened.faithful.record acc _ hacc rfl,
    hopened.database, h.regular⟩
  have hut := h.unchanged.utxos
  have hbest := h.unchanged.getBestBlock
  refine ⟨Sound.start h.unchanged hintact, ?_, ?_, h.heads, h.stored, h.record, h.undoOf, ?_⟩
  · rw [hbest]
    exact h.tip
  · rw [hut, hbest]
    exact h.stored
  · rw [hbest]
    exact replayableFrom_self m blocks hS.known

end

/-- **the accumulator is crash safe where no replay has to roll back**: over any steps, crashes and
replays the accumulator of a running chainstate commits to the coins of `CoinsTip`, and after every
crash the next start succeeds and its first use commits to the coins then in the database -/
theorem accumulator_crash_safe (M : MuHash G) (H : Hashes) (rules : BlockRules) (m : BlockMap)
    (blocks : BlockData) (S : Uint256 → Utxos)
    (hS : Ledger H rules m blocks S) (s₀ : ChainCoins G) (hstart : s₀.AtRest M H m blocks S)
    (n : CoinsNode G) (hrun : CrashRun M H rules m blocks (.up s₀) n) :
    n.Committed M H m blocks := by
  have hlive : CoinsNode.Kept M H m blocks S (.up s₀) := hstart.live hS
  obtain ⟨hkept, hforward⟩ := hlive.run hS trivial hrun
  exact hkept.committed hS hforward

/-- **the coins are a function of the tip**: after any connects, disconnects, flushes and crashes of a
`CrashRun`, whose replays only roll forward, `CoinsTip` shows the set of the chain up to it -/
theorem coins_of_tip (hS : Ledger H rules m blocks S) (hstart : s.AtRest M H m blocks S)
    (hrun : CrashRun M H rules m blocks (.up s) (.up s')) :
    s'.coins.coinsTip.utxos = s'.tip.elim FMap.empty S := by
  have hkept : CoinsNode.Kept M H m blocks S (.up s) := hstart.live hS
  have hlive : Live M H m blocks S s' := (hkept.run hS trivial hrun).1
  rw [hlive.settled.coins, hlive.tip, setAt]
  split <;> rfl

end

/-! ## the set of a chain whose blocks are all there -/

/-- the blocks of the path of `b`, applied from the genesis block on -/
def setOf (H : Hashes) (m : BlockMap) (blocks : BlockData) (b : Uint256) : Utxos :=
  (m.forest.path b).foldr (fun a coins =>
    match m.pprev a, blocks a with
    | some _, some block => applyTxs H (m.nHeight a) block.vtx coins
    | _, _ => FMap.empty) FMap.empty

theorem setOf_child {H : Hashes} {m : BlockMap} {blocks : BlockData} {b p : Uint256}
    (hp : m.pprev b = some p) {block : CBlock} (hb : blocks b = some block) :
    setOf H m blocks b = applyTxs H (m.nHeight b) block.vtx (setOf H m blocks p) := by
  rw [setOf, m.forest.path_parent hp, List.foldr_cons, hp, hb]
  rfl

/-- an invariant of the blocks holds of the set after each of them -/
theorem setOf_rule {H : Hashes} {m : BlockMap} {blocks : BlockData}
    {Q : Utxos → Prop} (hempty : Q FMap.empty)
    (hblock : ∀ a p block coins, m.pprev a = some p → blocks a = some block → Q coins →
      Q (applyTxs H (m.nHeight a) block.vtx coins)) (b : Uint256) : Q (setOf H m blocks b) := by
  unfold setOf
  induction m.forest.path b with
  | nil => exact hempty
  | cons a path ih =>
    rw [List.foldr_cons]
    split
    · rename_i p block hp hb
      exact hblock a p block _ hp hb ih
    · exact hempty

theorem setOf_regular (H : Hashes) (m : BlockMap) (blocks : BlockData) (b : Uint256) :
    Regular (setOf H m blocks b) := by
  refine setOf_rule regular_empty (fun a p block coins hp _ ih => ?_) b
  have hh : m.nHeight a = m.nHeight p + 1 := m.forest.height_parent a p hp
  exact regular_applyTxs ih H (by omega) _

theorem ledger_setOf {H : Hashes} {rules : BlockRules} {m : BlockMap}
    (hknown : ∀ b ∈ m.entries.dom, b.isNull = false)
    (hroot : ∀ b ∈ m.entries.dom, m.pprev b = none → m.nHeight b = 0)
    (hgenesis : m.pprev rules.hashGenesisBlock = none) (blocks : BlockData) :
    Ledger H rules m blocks (setOf H m blocks) := by
  have hdom : ∀ b, (m.lookupBlockIndex b).isSome = true → b ∈ m.entries.dom := by
    intro b hb
    exact (m.entries.mem_dom b).mpr hb
  refine ⟨fun b hb => hknown b (hdom b hb), fun b hb hp => ⟨hroot b (hdom b hb) hp, ?_⟩, hgenesis,
    fun b p block hp hb => setOf_child hp hb, setOf_regular H m blocks⟩
  have hpath : m.forest.path b = [b] := m.forest.path_root hp
  rw [setOf, hpath, List.foldr_cons, hp]

/-! ## two branches -/

def sampleBlocks (h : Uint256) : Option CBlock :=
  if h = sampleId 1 then some (sampleMined 1)
  else if h = sampleId 2 then some (sampleMined 2)
  else none

theorem sampleFork_ledger : Ledger sampleHashes sampleRules sampleFork sampleBlocks
    (setOf sampleHashes sampleFork sampleBlocks) :=
  ledger_setOf (by decide) (by decide) rfl _

theorem sampleAtGenesis_atRest : (sampleAtGenesis none).AtRest sampleMuHash sampleHashes sampleFork
    sampleBlocks (setOf sampleHashes sampleFork sampleBlocks) where
  unchanged := sampleAtGenesis_unchanged none
  tip := rfl
  heads := rfl
  stored := ⟨rfl, fun _ => rfl⟩
  record := fun acc h hacc => (by cases hacc)
  regular := fun h bu hbu => (by cases hbu)
  undoOf := fun b bu p block hbu => (by cases hbu)

theorem sampleConnect_ordinary : (CoinsAction.connectTip sampleFork sampleConnectEnv (samplePlace 1)
    (sampleMined 1)).Ordinary sampleRules := by
  intro pprev hpprev
  obtain rfl := Option.some.inj hpprev
  decide

/-- a block is connected, the flush stops before its first coin is written, and the next start
rolls it forward -/
theorem sampleTorn_run : ∃ (s : ChainCoins (Multiplicative ℤ)) (d : CCoinsViewDB)
    (c : CoinsState (Multiplicative ℤ)),
    connectTip sampleMuHash sampleHashes sampleRules sampleConnectEnv sampleFork
      (sampleAtGenesis none) (samplePlace 1) (sampleMined 1) = .ok (true, s) ∧
    d.headBlocks = [sampleId 1, sampleId 100] ∧ d.coins = FMap.empty ∧
    replayBlocks sampleHashes sampleFork sampleBlocks sampleMuHash
      (CoinsState.opened d s.coins.muhashRecord) s.undo = .ok (true, c) ∧
    c.coinsDB.loadedTip = some (sampleId 1) ∧
    CrashRun sampleMuHash sampleHashes sampleRules sampleFork sampleBlocks
      (.up (sampleAtGenesis none)) (.down d s.coins.muhashRecord s.undo) := by
  obtain ⟨s, d, c, hs, hd, hheads, hcoins, hc, htip⟩ : ∃ s d c,
      connectTip sampleMuHash sampleHashes sampleRules sampleConnectEnv sampleFork
        (sampleAtGenesis none) (samplePlace 1) (sampleMined 1) = .ok (true, s) ∧
      Interrupted s.coins.coinsDB s.coins.coinsTip.loadBestBlock.toCacheLayer d ∧
      d.headBlocks = [sampleId 1, sampleId 100] ∧ d.coins = FMap.empty ∧
      replayBlocks sampleHashes sampleFork sampleBlocks sampleMuHash
        (CoinsState.opened d s.coins.muhashRecord) s.undo = .ok (true, c) ∧
      c.coinsDB.loadedTip = some (sampleId 1) :=
    ⟨_, _, _, rfl, .torn ∅ rfl rfl, rfl, rfl, rfl, rfl⟩
  refine ⟨s, d, c, hs, hheads, hcoins, hc, htip, ?_⟩
  have hforward : CoinsNode.Forward sampleFork (.down d s.coins.muhashRecord s.undo) := by
    intro new old hh
    obtain ⟨rfl, rfl⟩ : sampleId 1 = new ∧ sampleId 100 = old := by
      rw [hheads] at hh
      simpa using hh
    decide
  have hordinary : ∀ a, some (CoinsAction.connectTip sampleFork sampleConnectEnv (samplePlace 1)
      (sampleMined 1)) = some a → a.Ordinary sampleRules := by
    intro a ha
    obtain rfl := Option.some.inj ha
    exact sampleConnect_ordinary
  exact (Relation.ReflTransGen.single ⟨_, hordinary, trivial, .connect rfl rfl hs⟩).tail
    ⟨none, fun a ha => (by cases ha), hforward, .crash hd⟩

theorem accumulator_crash_safe_torn :
    ∃ (s : ChainCoins (Multiplicative ℤ)) (d : CCoinsViewDB),
      connectTip sampleMuHash sampleHashes sampleRules sampleConnectEnv sampleFork
        (sampleAtGenesis none) (samplePlace 1) (sampleMined 1) = .ok (true, s) ∧
      d.headBlocks = [sampleId 1, sampleId 100] ∧ d.coins = FMap.empty ∧
      CoinsNode.Committed sampleMuHash sampleHashes sampleFork sampleBlocks
        (.down d s.coins.muhashRecord s.undo) := by
  obtain ⟨s, d, c, hs, hheads, hcoins, -, -, hrun⟩ := sampleTorn_run
  exact ⟨s, d, hs, hheads, hcoins, accumulator_crash_safe sampleMuHash sampleHashes sampleRules sampleFork
    sampleBlocks _ sampleFork_ledger (sampleAtGenesis none) sampleAtGenesis_atRest _ hrun⟩

theorem coins_of_tip_replayed :
    ∃ (s : ChainCoins (Multiplicative ℤ)) (d : CCoinsViewDB) (c : CoinsState (Multiplicative ℤ)),
      d.coins = FMap.empty ∧
      replayBlocks sampleHashes sampleFork sampleBlocks sampleMuHash
        (CoinsState.opened d s.coins.muhashRecord) s.undo = .ok (true, c) ∧
      (CoinsState.coinsTip { c with cache := CacheLayer.empty false }).utxos =
        setOf sampleHashes sampleFork sampleBlocks (sampleId 1) := by
  obtain ⟨s, d, c, -, -, hcoins, hc, htip, hrun⟩ := sampleTorn_run
  have htips := coins_of_tip sampleFork_ledger sampleAtGenesis_atRest
    (hrun.tail ⟨none, fun a ha => (by cases ha), trivial, .recover hc⟩)
  rw [htip] at htips
  exact ⟨s, d, c, hcoins, hc, htips⟩

/-- **the accumulator is not crash safe where a replay rolls back**: block 1 is connected and flushed,
a reorganisation goes to block 2, and the next flush stops before its first coin is written.  The
replay takes block 1 out of the accumulator and does not bring block 2 in. -/
theorem rollback_replay_miscounts :
    ∃ (d : CCoinsViewDB) (record : Option (UTXOMuHashState (Multiplicative ℤ) × Uint256))
      (undo : UndoStore) (c : CoinsState (Multiplicative ℤ)),
      Relation.ReflTransGen (fun n n' => ∃ l,
          CrashStep sampleMuHash sampleHashes sampleRules sampleFork sampleBlocks l n n')
        (.up (sampleAtGenesis none)) (.down d record undo) ∧
      replayBlocks sampleHashes sampleFork sampleBlocks sampleMuHash (CoinsState.opened d record)
        undo = .ok (true, c) ∧
      c.coinsDB.headBlocks = [] ∧ c.coinsDB.coins.card = 1 ∧
      (c.utxoMuHash sampleMuHash).m_coin_count = 0 := by
  obtain ⟨s₁, c₂, s₃, s₄, d, c, h₁, h₂, h₃, h₄, hd, hc, hheads, hcard, hcount⟩ : ∃ s₁ c₂ s₃ s₄ d c,
      connectTip sampleMuHash sampleHashes sampleRules sampleConnectEnv sampleFork
        (sampleAtGenesis none) (samplePlace 1) (sampleMined 1) = .ok (true, s₁) ∧
      s₁.coins.flushStateToDisk .FORCE_FLUSH sampleDisk = .ok (true, c₂) ∧
      disconnectTip sampleMuHash sampleHashes sampleDisk { s₁ with coins := c₂ } (samplePlace 1)
        (some (sampleMined 1)) = .ok (true, s₃) ∧
      connectTip sampleMuHash sampleHashes sampleRules sampleConnectEnv sampleFork s₃ (samplePlace 2)
        (sampleMined 2) = .ok (true, s₄) ∧
      Interrupted s₄.coins.coinsDB s₄.coins.coinsTip.loadBestBlock.toCacheLayer d ∧
      replayBlocks sampleHashes sampleFork sampleBlocks sampleMuHash
        (CoinsState.opened d s₄.coins.muhashRecord) s₄.undo = .ok (true, c) ∧
      c.coinsDB.headBlocks = [] ∧ c.coinsDB.coins.card = 1 ∧
      (c.utxoMuHash sampleMuHash).m_coin_count = 0 :=
    ⟨_, _, _, _, _, _, rfl, rfl, rfl, rfl, .torn ∅ rfl rfl, rfl, rfl, rfl, by decide⟩
  refine ⟨d, _, _, c, ?_, hc, hheads, hcard, hcount⟩
  refine Relation.ReflTransGen.tail (b := .up s₄) ?_ ⟨none, .crash hd⟩
  refine Relation.ReflTransGen.tail (b := .up s₃) ?_ ⟨_, .connect rfl rfl h₄⟩
  refine Relation.ReflTransGen.tail (b := .up { s₁ with coins := c₂ }) ?_
    ⟨_, .disconnect rfl rfl h₃⟩
  refine Relation.ReflTransGen.tail (b := .up s₁) ?_ ⟨_, .flush h₂⟩
  exact Relation.ReflTransGen.single ⟨_, .connect rfl rfl h₁⟩

end ElektronNet
