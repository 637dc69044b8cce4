import ElektronNet.SnapshotWrite
import ElektronNet.ChainstateRoles

/-!
# Loading arbitrary bytes

What `PopulateAndValidateSnapshot` guarantees of the database it fills, whatever the file, the
metadata and the expected hash are.

* `snapshotRecords`   the outpoints and coins that the file spells, read without a cache
* `spelledSet`        the records over a set: the first coin of an outpoint counts until the cache is
                      flushed, then a repeated outpoint overwrites it
* `loadTxs_spec`      what one coin keeps is kept by both loops (`LoadInvariant`), over repeated
                      outpoints and flushes in between
* `loadSnapshot_spelled`   the loader fills the database with the set that the records make of it
* `populate_sound_iff`   the stored set has the expected hash, and it is in bounds exactly if what the
                      database held before is

`ActivateSnapshot` wipes the directory only if it replaces a snapshot, so a database that an earlier
load filled before the node stopped is opened as it is.
-/

namespace ElektronNet

open List CCoinsViewCache

/-! ## what the file spells -/

section
variable (codec : CoinCodec)

/-- the next outputs of one transaction -/
def readOutputs (txid : Uint256) : Nat → Bytes → Option (List CoinEntry × Bytes)
  | 0, file => some ([], file)
  | k + 1, file =>
    match readCompactSize file with
    | none => none
    | some (n, file) =>
      match codec.read file with
      | none => none
      | some (coin, file) =>
        (readOutputs txid k file).map fun r => ((⟨txid, n⟩, coin) :: r.1, r.2)

def readRecords : Nat → Nat → Bytes → Option (List CoinEntry × Bytes)
  | 0, left, file => if left = 0 then some ([], file) else none
  | fuel + 1, left, file =>
    if left = 0 then some ([], file)
    else
      match readUint256 file with
      | none => none
      | some (txid, file) =>
        match readCompactSize file with
        | none => none
        | some (k, file) =>
          if k > left then none
          else
            match readOutputs codec txid k file with
            | none => none
            | some (coins, file) =>
              (readRecords fuel (left - k) file).map fun r => (coins ++ r.1, r.2)

def snapshotRecords (metadata : SnapshotMetadata) (coins_file : Bytes) : Option (List CoinEntry × Bytes) :=
  readRecords codec coins_file.length metadata.m_coins_count coins_file

end

/-- the bounds that the loader checks of every coin -/
structure InBounds (base_height : Nat) (o : COutPoint) (coin : Coin) : Prop where
  height : coin.nHeight ≤ base_height
  value : moneyRange coin.out.nValue = true
  index : o.n < MAX_OUTPOINT_INDEX

/-! ## records over a set -/

structure Spelling where
  coins : Utxos
  /-- the outpoints since the last flush -/
  cached : List COutPoint
  processed : Nat

def spellCoin (critical : Nat → Bool) (st : Spelling) (e : CoinEntry) : Spelling where
  coins := if e.1 ∈ st.cached then st.coins else st.coins.insert e.1 e.2
  cached :=
    if (st.processed + 1) % 120000 = 0 ∧ critical (st.processed + 1) = true then []
    else e.1 :: st.cached
  processed := st.processed + 1

def spell (critical : Nat → Bool) (m : Utxos) (l : List CoinEntry) : Spelling :=
  l.foldl (spellCoin critical) ⟨m, [], 0⟩

/-- the set that the records make of `m` -/
def spelledSet (critical : Nat → Bool) (m : Utxos) (l : List CoinEntry) :
    Utxos := (spell critical m l).coins

section
variable (critical : Nat → Bool) (m : Utxos) {l : List CoinEntry} {o : COutPoint}

theorem spell_snoc (l : List CoinEntry) (e : CoinEntry) :
    spell critical m (l ++ [e]) = spellCoin critical (spell critical m l) e := foldl_append

theorem spell_cached (h : o ∈ (spell critical m l).cached) : o ∈ l.map Prod.fst := by
  induction l using reverseRecOn with
  | nil => cases h
  | append_singleton l e ih =>
    rw [spell_snoc, spellCoin] at h
    rw [map_append, mem_append]
    dsimp only at h
    split at h
    · cases h
    · rcases mem_cons.mp h with rfl | h
      · exact .inr (mem_singleton_self _)
      · exact .inl (ih h)

/-- an outpoint that the file names has one of the coins the file gives for it -/
theorem spelledSet_named (h : o ∈ l.map Prod.fst) :
    ∃ coin, (o, coin) ∈ l ∧ (spelledSet critical m l).get o = some coin := by
  unfold spelledSet
  induction l using reverseRecOn with
  | nil => cases h
  | append_singleton l e ih =>
    rw [spell_snoc, spellCoin]
    by_cases hnew : o = e.1 ∧ e.1 ∉ (spell critical m l).cached
    · obtain ⟨rfl, hnew⟩ := hnew
      refine ⟨e.2, mem_append_right _ (mem_singleton_self _), ?_⟩
      rw [if_neg hnew, FMap.insert_get, if_pos rfl]
    · have hl : o ∈ l.map Prod.fst := by
        rw [map_append, mem_append, map_singleton, mem_singleton] at h
        rcases h with h | rfl
        · exact h
        · exact spell_cached critical m (not_not.mp fun hc => hnew ⟨rfl, hc⟩)
      obtain ⟨coin, hin, hget⟩ := ih hl
      refine ⟨coin, mem_append_left _ hin, ?_⟩
      split
      · exact hget
      · rename_i hc
        rw [FMap.insert_get, if_neg fun ho => hnew ⟨ho, hc⟩, hget]

theorem spelledSet_other (h : o ∉ l.map Prod.fst) : (spelledSet critical m l).get o = m.get o := by
  unfold spelledSet
  induction l using reverseRecOn with
  | nil => rfl
  | append_singleton l e ih =>
    rw [map_append, mem_append, map_singleton, mem_singleton, not_or] at h
    rw [spell_snoc, spellCoin]
    split
    · exact ih h.1
    · rw [FMap.insert_get, if_neg h.2, ih h.1]

end

/-- the cache shows the set, and holds the outpoints since the last flush -/
structure Spells (st : Spelling) (c : CCoinsViewCache) : Prop where
  db : ∃ d, c.base = .db d
  ok : c.Ok
  utxos : c.utxos = st.coins
  cached : ∀ o, (c.cacheCoins.get o).isSome = true ↔ o ∈ st.cached

section
variable {st : Spelling} {c c' : CCoinsViewCache}

theorem flush_db {d : CCoinsViewDB} (hbase : c.base = .db d) (h : c.flush = .ok c') :
    c.m_block_hash.isNull = false ∧ ∃ d', c'.base = .db d' ∧ d'.bestBlock = c.m_block_hash := by
  rw [CCoinsViewCache.flush, hbase, CCoinsView.batchWrite, CCoinsViewDB.batchWrite] at h
  by_cases hnull : c.m_block_hash.isNull = true
  · rw [hnull] at h
    cases h
  · rw [Bool.not_eq_true] at hnull
    rw [hnull] at h
    cases htip : d.oldTip c.m_block_hash with
    | error f =>
      rw [htip] at h
      cases h
    | ok t =>
      rw [htip] at h
      cases h
      exact ⟨hnull, _, rfl, rfl⟩

theorem Spells.setBestBlock (h : Spells st c) (hash : Uint256) : Spells st (c.setBestBlock hash) :=
  ⟨h.db, h.ok, h.utxos, h.cached⟩

theorem Spells.flush (h : Spells st c) (hf : c.flush = .ok c') : Spells { st with cached := [] } c' := by
  obtain ⟨d, hbase⟩ := h.db
  obtain ⟨-, d', hbase', -⟩ := flush_db hbase hf
  obtain ⟨hok, hutxos, hempty, -, -, -⟩ := flush_spec h.ok hf
  refine ⟨⟨d', hbase'⟩, hok, hutxos.trans h.utxos, fun o => ?_⟩
  rw [hempty]
  simp

theorem Spells.emplace (h : Spells st c) (o : COutPoint) {coin : Coin} (hcoin : coin.isSpent = false) :
    Spells ⟨if o ∈ st.cached then st.coins else st.coins.insert o coin, o :: st.cached, st.processed + 1⟩
      (c.emplaceCoinInternalDANGER o coin) := by
  rw [emplaceCoinInternalDANGER]
  cases he : c.cacheCoins.get o with
  | some e =>
    have ho : o ∈ st.cached := (h.cached o).mp (by rw [he]; rfl)
    refine ⟨h.db, h.ok, by rw [if_pos ho]; exact h.utxos, fun k => ?_⟩
    rw [mem_cons, ← h.cached k]
    constructor
    · exact .inr
    · rintro (rfl | hk)
      · exact (h.cached k).mpr ho
      · exact hk
  | none =>
    have ho : o ∉ st.cached := by
      intro ho
      have := (h.cached o).mpr ho
      rw [he] at this
      cases this
    refine ⟨h.db, ok_insert h.ok ⟨fun hs => ?_, fun hf => (by cases hf), fun hd => (by cases hd)⟩, ?_,
      fun k => ?_⟩
    · exact absurd (hcoin.symm.trans hs) (by simp)
    · rw [if_neg ho]
      refine FMap.ext_get fun k => ?_
      rw [utxos_get, peek_insert, FMap.insert_get, ← h.utxos, utxos_get, CCoinsView.entryCoin, hcoin]
      rfl
    · show ((c.cacheCoins.insert o _).get k).isSome = true ↔ _
      rw [FMap.insert_get, mem_cons, ← h.cached k]
      by_cases hk : k = o
      · simp [hk]
      · simp [hk]

end

/-! ## the loops -/

/-- a property of the records that were read, their number and the cache, kept by the next coin and
the pause behind it -/
def LoadInvariant (env : LoadEnv) (base_height : Nat)
    (I : List CoinEntry → Nat → CCoinsViewCache → Prop) : Prop :=
  ∀ l n c o coin file left st', I l n c → InBounds base_height o coin →
    breathe env ⟨file, c.emplaceCoinInternalDANGER o coin, left, n + 1⟩ = .ok st' →
      I (l ++ [(o, coin)]) (n + 1) st'.coins_cache

variable {st st' : LoadState}

theorem breathe_cases {env : LoadEnv} (h : breathe env st = .ok st') :
    st'.coins_file = st.coins_file ∧ st'.coins_left = st.coins_left ∧
      st'.coins_processed = st.coins_processed ∧
      if st.coins_processed % 120000 = 0 ∧ env.critical st.coins_processed = true then
        (st.coins_cache.setBestBlock (env.getRandHash st.coins_processed)).flush = .ok st'.coins_cache
      else st'.coins_cache = st.coins_cache := by
  unfold breathe at h
  split at h
  · rename_i hmod
    cases h
    exact ⟨rfl, rfl, rfl, by rw [if_neg fun hc => hmod hc.1]⟩
  rename_i hmod
  split at h
  · cases h
  split at h
  · rename_i hcritical
    split at h
    · cases h
    · rename_i c hc
      cases h
      exact ⟨rfl, rfl, rfl, by rw [if_pos ⟨not_not.mp hmod, hcritical⟩]; exact hc⟩
  · rename_i hcritical
    cases h
    exact ⟨rfl, rfl, rfl, by rw [if_neg fun hc => hcritical hc.2]⟩

section
variable {codec : CoinCodec} {env : LoadEnv} {base_height coins_count : Nat}
  {I : List CoinEntry → Nat → CCoinsViewCache → Prop} {l : List CoinEntry}

section
variable (hI : LoadInvariant env base_height I)
include hI

theorem loadCoin_spec {txid : Uint256} (ht : I l st.coins_processed st.coins_cache)
    (h : loadCoin codec env base_height coins_count txid st = .ok st') :
    ∃ n coin file, readCompactSize st.coins_file = some (n, file) ∧
      codec.read file = some (coin, st'.coins_file) ∧ InBounds base_height ⟨txid, n⟩ coin ∧
      st'.coins_left = st.coins_left - 1 ∧
      I (l ++ [(⟨txid, n⟩, coin)]) st'.coins_processed st'.coins_cache := by
  unfold loadCoin at h
  split at h
  · cases h
  rename_i n file hn
  split at h
  · cases h
  rename_i coin file' hcoin
  split at h
  · cases h
  split at h
  · cases h
  rename_i hrange
  have hin : InBounds base_height ⟨txid, n⟩ coin := by
    refine ⟨by omega, by simpa using hrange, ?_⟩
    show n < MAX_OUTPOINT_INDEX
    omega
  obtain ⟨hfile, hleft, hprocessed, -⟩ := breathe_cases h
  refine ⟨n, coin, file, hn, hfile ▸ hcoin, hin, hleft, ?_⟩
  rw [hprocessed]
  exact hI _ _ _ _ _ _ _ _ ht hin h

theorem loadCoins_spec {txid : Uint256} {k : Nat} (ht : I l st.coins_processed st.coins_cache)
    (h : loadCoins codec env base_height coins_count txid k st = .ok st') :
    ∃ coins, readOutputs codec txid k st.coins_file = some (coins, st'.coins_file) ∧
      (∀ e ∈ coins, InBounds base_height e.1 e.2) ∧ st'.coins_left = st.coins_left - k ∧
      I (l ++ coins) st'.coins_processed st'.coins_cache := by
  induction k generalizing st l with
  | zero =>
    cases h
    exact ⟨[], rfl, fun e he => (by cases he), rfl, by rwa [append_nil]⟩
  | succ k ih =>
    rw [loadCoins] at h
    split at h
    · cases h
    · rename_i st₁ hst₁
      obtain ⟨n, coin, file, hn, hcoin, hbounds, hleft, ht₁⟩ := loadCoin_spec hI ht hst₁
      obtain ⟨coins, hread, hall, hleft', ht'⟩ := ih ht₁ h
      refine ⟨(⟨txid, n⟩, coin) :: coins, ?_, ?_, by omega, ?_⟩
      · rw [readOutputs, hn]
        simp only [hcoin, hread, Option.map_some]
      · intro e he
        rcases mem_cons.mp he with rfl | he
        · exact hbounds
        · exact hall e he
      · rwa [append_assoc, singleton_append] at ht'

theorem loadTxs_spec {fuel : Nat} (ht : I l st.coins_processed st.coins_cache)
    (h : loadTxs codec env base_height coins_count fuel st = .ok st') :
    ∃ coins, readRecords codec fuel st.coins_left st.coins_file = some (coins, st'.coins_file) ∧
      (∀ e ∈ coins, InBounds base_height e.1 e.2) ∧
      I (l ++ coins) st'.coins_processed st'.coins_cache := by
  induction fuel generalizing st l with
  | zero =>
    rw [loadTxs] at h
    split at h
    · rename_i hleft
      cases h
      exact ⟨[], by rw [readRecords, if_pos hleft], fun e he => (by cases he),
        by rwa [append_nil]⟩
    · cases h
  | succ fuel ih =>
    rw [loadTxs] at h
    split at h
    · rename_i hleft
      cases h
      exact ⟨[], by rw [readRecords, if_pos hleft], fun e he => (by cases he), by rwa [append_nil]⟩
    rename_i hleft
    split at h
    · cases h
    rename_i txid file htxid
    split at h
    · cases h
    rename_i k file' hk
    split at h
    · cases h
    rename_i hle
    split at h
    · cases h
    rename_i st₁ hst₁
    have hst : I l { st with coins_file := file' }.coins_processed
        { st with coins_file := file' }.coins_cache := ht
    obtain ⟨coins, hread, hall, hleft₁, ht₁⟩ := loadCoins_spec hI hst hst₁
    obtain ⟨rest, hrest, hall', ht'⟩ := ih ht₁ h
    rw [hleft₁] at hrest
    refine ⟨coins ++ rest, ?_, ?_, ?_⟩
    · rw [readRecords, if_neg hleft, htxid]
      dsimp only
      rw [hk]
      dsimp only
      rw [if_neg hle, hread]
      dsimp only
      rw [hrest]
      rfl
    · intro e he
      rcases mem_append.mp he with he | he
      · exact hall e he
      · exact hall' e he
    · rwa [append_assoc] at ht'

theorem loadSnapshot_spec {base_blockhash : Uint256}
    {coins_file : Bytes} {c₀ c : CCoinsViewCache} (hstart : I [] 0 c₀)
    (h : loadSnapshot codec env base_height coins_count base_blockhash coins_file c₀ = .ok c) :
    ∃ coins c₁ n, readRecords codec coins_file.length coins_count coins_file = some (coins, []) ∧
      (∀ e ∈ coins, InBounds base_height e.1 e.2) ∧ I coins n c₁ ∧
      (c₁.setBestBlock base_blockhash).flush = .ok c := by
  unfold loadSnapshot at h
  split at h
  · cases h
  rename_i st hst
  obtain ⟨coins, hread, hall, ht⟩ := loadTxs_spec hI hstart hst
  split at h
  · cases h
  rename_i hfile
  split at h
  · cases h
  rename_i c' hflush
  split at h
  · cases h
    refine ⟨coins, st.coins_cache, st.coins_processed, ?_, hall, ht, hflush⟩
    rw [hread, not_not.mp hfile]
  · cases h

end

theorem spells_invariant (env : LoadEnv) (base_height : Nat) (m : Utxos) :
    LoadInvariant env base_height fun l n c =>
      Spells (spell env.critical m l) c ∧ (spell env.critical m l).processed = n := by
  rintro l n c o coin file left st' ⟨hs, rfl⟩ hin h
  rw [spell_snoc]
  refine ⟨?_, rfl⟩
  have hemplace := hs.emplace o (unspent_of_moneyRange hin.value)
  obtain ⟨-, -, -, hcache⟩ := breathe_cases h
  rw [spellCoin]
  split at hcache
  · rename_i hflush
    rw [if_pos hflush]
    exact (hemplace.setBestBlock _).flush hcache
  · rename_i hflush
    rw [if_neg hflush, hcache]
    exact hemplace

theorem loadSnapshot_spelled {base_blockhash : Uint256} {coins_file : Bytes} {d : CCoinsViewDB}
    {c : CCoinsViewCache} (h : loadSnapshot codec env base_height coins_count base_blockhash coins_file
      (CCoinsViewCache.new (.db d)) = .ok c) :
    ∃ coins d', readRecords codec coins_file.length coins_count coins_file = some (coins, []) ∧
      (∀ e ∈ coins, InBounds base_height e.1 e.2) ∧ c.base = .db d' ∧
      d'.bestBlock = base_blockhash ∧ c.Ok ∧ c.utxos = spelledSet env.critical d.coins coins ∧
      d'.coins = spelledSet env.critical d.coins coins := by
  have hstart : Spells (spell env.critical d.coins []) (CCoinsViewCache.new (.db d)) := by
    refine ⟨⟨d, rfl⟩, new_ok trivial, FMap.ext_get fun o => ?_, fun o => ?_⟩
    · rw [utxos_get]
      rfl
    · show ((FMap.empty : FMap COutPoint CCoinsCacheEntry).get o).isSome = true ↔ o ∈ []
      simp
  obtain ⟨coins, c₁, n, hread, hall, ⟨hs, -⟩, hflush⟩ :=
    loadSnapshot_spec (spells_invariant env base_height d.coins) ⟨hstart, rfl⟩ h
  have hbefore := hs.setBestBlock base_blockhash
  obtain ⟨db, hdb⟩ := hbefore.db
  obtain ⟨-, d', hd', hbest⟩ := flush_db hdb hflush
  obtain ⟨hok, hsame, hempty, -, -, -⟩ := flush_spec hbefore.ok hflush
  have hutxos := hsame.trans hbefore.utxos
  refine ⟨coins, d', hread, hall, hd', hbest, hok, hutxos, FMap.ext_get fun o => ?_⟩
  rw [spelledSet, ← hutxos, utxos_get, peek_of_no_entry (by rw [hempty, FMap.empty_get]), hd']
  rfl

end

/-! ## soundness -/

section
variable {G : Type} [CommGroup G] (M : MuHash G) (codec : CoinCodec) (P : CChainParams) (m : BlockMap)

/-- the guarantees of a load: the base is the best block, the coins are in bounds, the file was read
to its end, and the set that is stored has the expected hash -/
structure SnapshotSound (coins_file : Bytes) (metadata : SnapshotMetadata)
    (expected_utxo_hash : Option Uint256) (r : Populated) (d : CCoinsViewDB) : Prop where
  stored : r.coins_cache.base = .db d ∧ r.coins_cache.utxos = d.coins
  best : d.bestBlock = metadata.m_base_blockhash
  bounds : d.coins.All (InBounds (m.nHeight metadata.m_base_blockhash))
  consumed : ∃ coins, snapshotRecords codec metadata coins_file = some (coins, [])
  hash : ∀ e, expected_utxo_hash = some e →
    hashUTXOs M (if isMuhashAttestationActive (m.nHeight metadata.m_base_blockhash) P.consensus
      then .MUHASH else .HASH_SERIALIZED) d.coins = e

/-- what the database held before is in bounds, as far as the file does not name the outpoint -/
def LeftoverInBounds (coins_file : Bytes) (metadata : SnapshotMetadata) (d : CCoinsViewDB) : Prop :=
  ∀ coins rest, snapshotRecords codec metadata coins_file = some (coins, rest) →
    ∀ o coin, d.coins.get o = some coin → o ∉ coins.map Prod.fst →
      InBounds (m.nHeight metadata.m_base_blockhash) o coin

variable {M codec P m} {env : LoadEnv}

theorem checkContent_hash {base_height : Nat} {d : CCoinsViewDB} {verify_assumeutxo_hash : Bool}
    {e : Uint256} (h : checkContent M P env m base_height (.db d) verify_assumeutxo_hash (some e) = .ok ()) :
    hashUTXOs M (if isMuhashAttestationActive base_height P.consensus then .MUHASH
      else .HASH_SERIALIZED) d.coins = e := by
  unfold checkContent at h
  split at h
  · cases h
  split at h
  · cases h
  rename_i stats hstats
  split at h
  · cases h
  rename_i hmissed
  have hhash : stats.hashSerialized = e := by
    rw [missedContentHash, Option.or_eq_none_iff] at hmissed
    simpa using Option.filter_eq_none_iff.mp hmissed.2
  rw [computeUTXOStats] at hstats
  split at hstats
  · cases hstats
    rw [← hhash]
    rfl
  · cases hstats

/-- **a load is sound exactly if what the database held before is in bounds**; in a database that is
opened empty it always is -/
theorem populate_sound_iff {activeTip : Option Uint256} {coins_file : Bytes}
    {metadata : SnapshotMetadata} {verify_assumeutxo_hash : Bool} {expected_utxo_hash : Option Uint256}
    {d : CCoinsViewDB} {r : Populated}
    (h : populateAndValidateSnapshot M codec P env m activeTip (CCoinsViewCache.new (.db d)) coins_file
      metadata verify_assumeutxo_hash expected_utxo_hash = .ok r) :
    (∃ d', SnapshotSound M codec P m coins_file metadata expected_utxo_hash r d') ↔
      LeftoverInBounds codec m coins_file metadata d := by
  obtain ⟨start, hstart, hload, hcontent, -, -⟩ := populate_cases M codec P env m h
  obtain ⟨coins, d', hread, hall, hbase, hbest, -, hutxos, hcoins⟩ := loadSnapshot_spelled hload
  have hheight : m.nHeight metadata.m_base_blockhash = start.nHeight := by
    rw [BlockMap.nHeight, (checkStart_ok P m hstart).1]
    rfl
  constructor
  · rintro ⟨d₁, hsound⟩ coins' rest hread' o coin ho hnew
    obtain ⟨hbase₁, -⟩ := hsound.stored
    obtain rfl : d' = d₁ := by
      rw [hbase] at hbase₁
      exact CCoinsView.db.inj hbase₁
    obtain rfl : coins = coins' := by
      have := hread.symm.trans hread'
      cases this
      rfl
    refine hsound.bounds o coin ?_
    rw [hcoins, spelledSet_other _ _ hnew, ho]
  · intro hleft
    refine ⟨d', ⟨hbase, hutxos.trans hcoins.symm⟩, hbest, fun o coin ho => ?_, ⟨coins, hread⟩, ?_⟩
    · rw [hcoins] at ho
      by_cases hnamed : o ∈ coins.map Prod.fst
      · -- the coin is one that the file gives for the outpoint
        obtain ⟨coin', hin, hget⟩ := spelledSet_named env.critical d.coins hnamed
        obtain rfl : coin' = coin := Option.some.inj (hget.symm.trans ho)
        rw [hheight]
        exact hall _ hin
      · rw [spelledSet_other _ _ hnamed] at ho
        exact hleft coins [] hread o coin ho hnamed
    · rintro e rfl
      rw [hheight]
      rw [hbase] at hcontent
      exact checkContent_hash hcontent

end

/-! ## a load that was cut off -/

def sampleHigh : Coin := ⟨⟨10, [0x51]⟩, false, 2⟩

def sampleHighFile : Bytes := writeGroup samplePubKeys (sampleId 7, [(0, sampleHigh)])

/-- what stays in the directory if the node stops while it hashes the coins of a snapshot of block 3:
the base block is not written yet -/
def sampleCutOff (left : CCoinsViewDB) : ChainstateManager (Multiplicative ℤ) :=
  { ChainstateManager.sampleFresh with snapshotDir := some ⟨none, left, none⟩ }

/-- **the coin of block 3 is taken over into the snapshot of block 2**, which is activated after the
node was started again -/
theorem leftover_above_base :
    ∃ c left r,
      loadSnapshot (coinCodec samplePubKeys) sampleLoadEnv 2 1 (sampleId 3) sampleHighFile
        (CCoinsViewCache.new (.db CCoinsViewDB.empty)) = .ok c ∧
      c.base = .db left ∧
      populateAndValidateSnapshot sampleMuHash (coinCodec samplePubKeys) ⟨mainParams, []⟩ sampleLoadEnv
        sampleForkIndex (some (sampleId 1))
        (ChainstateManager.openViews ((sampleCutOff left).openedDir false false)).coinsTip [] ⟨sampleId 2, 0⟩
        false (some (hashUTXOs sampleMuHash .HASH_SERIALIZED left.coins)) = .ok r ∧
      ¬ ∃ d', SnapshotSound sampleMuHash (coinCodec samplePubKeys) ⟨mainParams, []⟩ sampleForkIndex []
        ⟨sampleId 2, 0⟩ (some (hashUTXOs sampleMuHash .HASH_SERIALIZED left.coins)) r d' := by
  refine ⟨_, _, _, rfl, rfl, rfl, fun ⟨d', hsound⟩ => ?_⟩
  have hcoin : (CCoinsView.db d').peekCoin ⟨sampleId 7, 0⟩ = some sampleHigh := by
    rw [← hsound.stored.1]
    rfl
  have hheight : 2 ≤ 1 := (hsound.bounds _ _ hcoin).height
  omega

/-- the snapshot of block 3 itself, in a directory that is empty -/
theorem populate_sound_iff_empty :
    ∃ r, populateAndValidateSnapshot sampleMuHash (coinCodec samplePubKeys) ⟨mainParams, []⟩
        sampleLoadEnv sampleForkIndex (some (sampleId 1)) (CCoinsViewCache.new (.db CCoinsViewDB.empty))
        sampleHighFile ⟨sampleId 3, 1⟩ false
        (some (hashUTXOs sampleMuHash .HASH_SERIALIZED
          (FMap.empty.insert ⟨sampleId 7, 0⟩ sampleHigh))) = .ok r ∧
      ∃ d', SnapshotSound sampleMuHash (coinCodec samplePubKeys) ⟨mainParams, []⟩ sampleForkIndex
        sampleHighFile ⟨sampleId 3, 1⟩ (some (hashUTXOs sampleMuHash .HASH_SERIALIZED
          (FMap.empty.insert ⟨sampleId 7, 0⟩ sampleHigh))) r d' := by
  refine Exists.imp (fun r hr => ⟨hr, (populate_sound_iff hr).mpr ?_⟩) ⟨_, rfl⟩
  intro coins rest hread o coin ho
  cases ho

end ElektronNet
