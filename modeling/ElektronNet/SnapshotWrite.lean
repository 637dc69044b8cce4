import ElektronNet.CoinCursor
import ElektronNet.Compressor
import ElektronNet.ConnectRefine

/-!
# Writing a snapshot and loading it again

The file that `WriteAutomaticSnapshot` of `validation.cpp` leaves, and what
`PopulateAndValidateSnapshot` makes of it on another node.

* `snapshotGroups`       the calls of `write_coins`, from the order of the cursor
* `writeSnapshot`        the bytes of the `.dat` file and the hash of its `.hash` sidecar
* `loadTxs_groups`       the two loops of the loader read the groups back, flushes included
* `snapshot_round_trip`  the loaded database holds the coins that were written

`ForceFlushStateToDisk` and what is written beside the two files are left out here; a file that
cannot be opened, closed or renamed leaves no snapshot.
-/

namespace ElektronNet

open List LittleEndian CCoinsViewCache

/-! ## numbers and metadata -/

def writeCompactSize (nSize : Nat) : Bytes :=
  if nSize < 253 then [UInt8.ofNat nSize]
  else if nSize ≤ 0xffff then 253 :: fixed 2 nSize
  else if nSize ≤ 0xffffffff then 254 :: fixed 4 nSize
  else 255 :: fixed 8 nSize

def SNAPSHOT_MAGIC_BYTES : Bytes := [0x75, 0x74, 0x78, 0x6f, 0xff]

def SNAPSHOT_VERSION : Nat := 2

/-- the magic of the network: `pchMessageStart` -/
structure MessageStart where
  bytes : Bytes
  size_eq : bytes.length = 4

def SnapshotMetadata.serialize (network_magic : MessageStart) (metadata : SnapshotMetadata) : Bytes :=
  SNAPSHOT_MAGIC_BYTES ++ (fixed 2 SNAPSHOT_VERSION ++ (network_magic.bytes ++
    (metadata.m_base_blockhash.data ++ fixed 8 metadata.m_coins_count)))

/-- `none`: another magic, version or network, or the stream ends -/
def SnapshotMetadata.unserialize (network_magic : MessageStart) : Reader SnapshotMetadata := fun file =>
  match readBytes 5 file with
  | none => none
  | some (snapshot_magic, file) =>
    if snapshot_magic ≠ SNAPSHOT_MAGIC_BYTES then none
    else
      match readNumber 2 file with
      | none => none
      | some (version, file) =>
        if version ≠ SNAPSHOT_VERSION then none
        else
          match readBytes 4 file with
          | none => none
          | some (message, file) =>
            if message ≠ network_magic.bytes then none
            else
              match readUint256 file with
              | none => none
              | some (base_blockhash, file) =>
                match readNumber 8 file with
                | none => none
                | some (coins_count, file) => some (⟨base_blockhash, coins_count⟩, file)

/-! ## the writer -/

/-- the outputs of one transaction, by their numbers -/
abbrev CoinGroup := Uint256 × List (Nat × Coin)

/-- the loop over the cursor: the calls of `write_coins`, with `coins` collected for `last_hash` -/
def groupLoop : Uint256 → List (Nat × Coin) → List CoinEntry → List CoinGroup
  | last_hash, coins, [] => if coins = [] then [] else [(last_hash, coins)]
  | last_hash, coins, (key, coin) :: pcursor =>
    if key.hash ≠ last_hash then (last_hash, coins) :: groupLoop key.hash [(key.n, coin)] pcursor
    else groupLoop last_hash (coins ++ [(key.n, coin)]) pcursor

/-- the first key is the one whose hash is collected first -/
def snapshotGroups (pcursor : List CoinEntry) : List CoinGroup :=
  groupLoop ((pcursor.head?.map fun e => e.1.hash).getD Uint256.zero) [] pcursor

section
variable (K : PubKeys)

def writeIndexedCoin (e : Nat × Coin) : Bytes := writeCompactSize e.1 ++ writeCoin K e.2

def writeGroup (group : Uint256 × List (Nat × Coin)) : Bytes :=
  group.1.data ++ (writeCompactSize group.2.length ++ group.2.flatMap (writeIndexedCoin K))

def writtenCount (groups : List CoinGroup) : Nat :=
  (groups.map fun group => group.2.length).sum

variable {G : Type} [CommGroup G] (M : MuHash G)

/-- the hash and the number of coins: of the accumulator once MuHash is active, of a walk before -/
def snapshotHash (params : ConsensusParams) (nHeight : Nat) (d : CCoinsViewDB)
    (muhash : UTXOMuHashState G) (known : Uint256 → Bool) : Option (Uint256 × UInt64) :=
  if isMuhashAttestationActive nHeight params then some (muhash.getHash M, muhash.m_coin_count)
  else (computeUTXOStatsWalk M .HASH_SERIALIZED d known).map fun stats =>
    (stats.hashSerialized, stats.coins_count)

/-- the two files of a snapshot; `none`: no snapshot is left -/
def writeSnapshot (network_magic : MessageStart) (params : ConsensusParams) (nHeight : Nat)
    (blockHash : Uint256) (d : CCoinsViewDB) (muhash : UTXOMuHashState G) (known : Uint256 → Bool) :
    Option (Bytes × Uint256) :=
  match snapshotHash M params nHeight d muhash known with
  | none => none
  | some (snapshot_hash, coins_count) =>
    let groups := snapshotGroups (cursor d.coins)
    if UInt64.ofNat (writtenCount groups) ≠ coins_count then none
    else
      some (SnapshotMetadata.serialize network_magic ⟨blockHash, coins_count.toNat⟩ ++
        groups.flatMap (writeGroup K), snapshot_hash)

end

/-! ## the groups -/

def ungroup (groups : List CoinGroup) : List CoinEntry :=
  groups.flatMap fun group => group.2.map fun e => (⟨group.1, e.1⟩, e.2)

theorem ungroup_groupLoop (last_hash : Uint256) (coins : List (Nat × Coin)) (pcursor : List CoinEntry) :
    ungroup (groupLoop last_hash coins pcursor) =
      (coins.map fun e => (⟨last_hash, e.1⟩, e.2)) ++ pcursor := by
  induction pcursor generalizing last_hash coins with
  | nil =>
    rw [groupLoop]
    split
    · rename_i hnil
      rw [hnil]
      rfl
    · simp [ungroup]
  | cons e pcursor ih =>
    rw [groupLoop]
    split
    · rw [ungroup]
      exact congrArg _ (ih _ _)
    · rename_i hhash
      obtain rfl := not_not.mp hhash
      rw [ih, map_append, append_assoc]
      rfl

theorem groupLoop_nonempty {last_hash : Uint256} {coins : List (Nat × Coin)} {pcursor : List CoinEntry}
    (h : coins ≠ [] ∨ ∀ e, pcursor.head? = some e → e.1.hash = last_hash) :
    ∀ group ∈ groupLoop last_hash coins pcursor, group.2 ≠ [] := by
  induction pcursor generalizing last_hash coins with
  | nil =>
    intro group hgroup
    rw [groupLoop] at hgroup
    split at hgroup
    · cases hgroup
    · rename_i hne
      obtain rfl := mem_singleton.mp hgroup
      exact hne
  | cons e pcursor ih =>
    intro group hgroup
    rw [groupLoop] at hgroup
    split at hgroup
    · rename_i hhash
      rcases mem_cons.mp hgroup with rfl | hgroup
      · rcases h with hne | hhead
        · exact hne
        · exact absurd (hhead _ rfl) hhash
      · exact ih (.inl (by simp)) group hgroup
    · exact ih (.inl (by simp)) group hgroup

theorem ungroup_snapshotGroups (pcursor : List CoinEntry) :
    ungroup (snapshotGroups pcursor) = pcursor := ungroup_groupLoop _ [] pcursor

theorem snapshotGroups_nonempty (pcursor : List CoinEntry) :
    ∀ group ∈ snapshotGroups pcursor, group.2 ≠ [] := by
  refine groupLoop_nonempty (.inr fun e he => ?_)
  rw [he]
  rfl

theorem writtenCount_eq (groups : List CoinGroup) : writtenCount groups = (ungroup groups).length := by
  rw [writtenCount, ungroup]
  simp

/-! ## reading numbers and metadata back -/

theorem readNumber_fixed {w n : Nat} (rest : Bytes) (h : n < 256 ^ w) :
    readNumber w (fixed w n ++ rest) = some (n, rest) := by
  have hlen := length_fixed w n
  rw [readNumber, if_pos (by rw [length_append]; omega), take_left' hlen,
    drop_left' hlen, value_fixed h]

theorem readUint256_data (h : Uint256) (rest : Bytes) :
    readUint256 (h.data ++ rest) = some (h, rest) := by
  have hlen := h.size_eq
  rw [readUint256, dif_pos (by rw [length_append]; omega)]
  simp only [take_left' hlen, drop_left' hlen]

theorem readCompactSize_write {n : Nat} (rest : Bytes) (h : n ≤ MAX_SIZE) :
    readCompactSize (writeCompactSize n ++ rest) = some (n, rest) := by
  have hmax : MAX_SIZE = 33554432 := rfl
  have hfits : decide (n ≤ MAX_SIZE) = true := decide_eq_true h
  rw [writeCompactSize]
  split
  · rename_i hsmall
    have hbyte : (UInt8.ofNat n).toNat = n := by
      rw [UInt8.toNat_ofNat']
      omega
    have hlt : UInt8.ofNat n < 253 := by
      rw [UInt8.lt_iff_toNat_lt, hbyte]
      exact hsmall
    rw [singleton_append, readCompactSize, if_pos hlt, hbyte]
    simp [hfits]
  · split
    · rw [cons_append, readCompactSize, if_neg (by decide), if_pos rfl,
        readNumber_fixed rest (by omega)]
      simp only [Option.filter_some]
      rw [if_pos (by simp; omega)]
      simp [hfits]
    · rw [if_pos (by omega), cons_append, readCompactSize, if_neg (by decide),
        if_neg (by decide), if_pos rfl, readNumber_fixed rest (by omega)]
      simp only [Option.filter_some]
      rw [if_pos (by simp; omega)]
      simp [hfits]

theorem unserialize_serialize (network_magic : MessageStart) {metadata : SnapshotMetadata} (rest : Bytes)
    (h : metadata.m_coins_count < 2 ^ 64) :
    SnapshotMetadata.unserialize network_magic (metadata.serialize network_magic ++ rest) =
      some (metadata, rest) := by
  rw [SnapshotMetadata.serialize, SnapshotMetadata.unserialize]
  have hmagic : SNAPSHOT_MAGIC_BYTES.length = 5 := rfl
  simp only [append_assoc]
  rw [readBytes_append _ hmagic]
  simp only [ne_eq, not_true_eq_false, if_false]
  rw [readNumber_fixed _ (by decide)]
  simp only [not_true_eq_false, if_false]
  rw [readBytes_append _ network_magic.size_eq]
  simp only [not_true_eq_false, if_false]
  rw [readUint256_data]
  simp only
  rw [readNumber_fixed _ (by rw [show 256 ^ 8 = 2 ^ 64 by norm_num]; exact h)]

/-! ## the loader on written coins -/

/-- a cache that is being filled over a database: every entry is an unspent coin, and the two
together show the set `m` -/
structure Filling (c : CCoinsViewCache) (m : Utxos) : Prop where
  db : ∃ d, c.base = .db d ∧ d.headBlocks = []
  ok : c.Ok
  unspent : ∀ o e, c.cacheCoins.get o = some e → e.coin.isSpent = false
  utxos : c.utxos = m

variable {c : CCoinsViewCache} {m : Utxos}

theorem Filling.setBestBlock (h : Filling c m) (hash : Uint256) : Filling (c.setBestBlock hash) m :=
  ⟨h.db, h.ok, h.unspent, (utxos_congr fun _ => rfl).trans h.utxos⟩

theorem Filling.emplace (h : Filling c m) {o : COutPoint} {coin : Coin} (hnew : m.get o = none)
    (hcoin : coin.isSpent = false) :
    Filling (c.emplaceCoinInternalDANGER o coin) (m.insert o coin) := by
  have hpeek : c.peek o = none := by rw [← utxos_get, h.utxos, hnew]
  have hget : c.cacheCoins.get o = none := by
    cases hg : c.cacheCoins.get o with
    | none => rfl
    | some e =>
      rw [peek_of_entry hg, CCoinsView.entryCoin, h.unspent o e hg] at hpeek
      cases hpeek
  rw [emplaceCoinInternalDANGER, hget]
  refine ⟨h.db, ok_insert h.ok ⟨fun hs => ?_, fun hf => (by cases hf), fun hd => (by cases hd)⟩,
    fun k e hk => ?_, FMap.ext_get fun k => ?_⟩
  · exact absurd (hcoin.symm.trans hs) (by simp)
  · rw [FMap.insert_get] at hk
    split at hk
    · cases hk
      exact hcoin
    · exact h.unspent k e hk
  · rw [utxos_get, FMap.insert_get, ← h.utxos, utxos_get]
    refine (peek_insert c o _ k).trans ?_
    rw [CCoinsView.entryCoin, hcoin]
    rfl

/-- **a flush into the database goes through and shows the same** -/
theorem Filling.flush (h : Filling c m) (hhash : c.m_block_hash.isNull = false) :
    ∃ c', c.flush = .ok c' ∧ Filling c' m ∧ c'.cacheCoins = FMap.empty ∧
      c'.m_block_hash = c.m_block_hash ∧ c'.base.getBestBlock = c.m_block_hash := by
  obtain ⟨d, hbase, hheads⟩ := h.db
  obtain ⟨c', hflush, hd⟩ : ∃ c', c.flush = .ok c' ∧
      c'.base = .db (d.finalBatch c.cacheCoins c.m_block_hash) := by
    have htip : ∃ t, d.oldTip c.m_block_hash = .ok t := by
      rw [CCoinsViewDB.oldTip, hheads]
      split <;> exact ⟨_, rfl⟩
    obtain ⟨t, ht⟩ := htip
    rw [CCoinsViewCache.flush, hbase, CCoinsView.batchWrite, CCoinsViewDB.batchWrite, hhash, ht]
    exact ⟨_, rfl, rfl⟩
  obtain ⟨hok, hutxos, hempty, hhash', -, hbest⟩ := flush_spec h.ok hflush
  refine ⟨c', hflush, ⟨⟨_, hd, rfl⟩, hok, fun o e he => ?_, hutxos.trans h.utxos⟩, hempty, hhash',
    hbest hhash⟩
  rw [hempty] at he
  cases he

/-- a coin that the checks of the loader let pass, and that can be read back -/
structure Loadable (base_height : Nat) (o : COutPoint) (coin : Coin) : Prop extends coin.Storable where
  below : coin.nHeight ≤ base_height
  index : o.n < MAX_SIZE

theorem Loadable.unspent {base_height : Nat} {o : COutPoint} {coin : Coin}
    (h : Loadable base_height o coin) : coin.isSpent = false := unspent_of_moneyRange h.value

/-- the answers of the environment that let a load come to its end -/
structure LoadEnv.Undisturbed (env : LoadEnv) : Prop where
  interrupt : ∀ n, env.m_interrupt n = false
  hashing : env.hashInterrupt = false
  rand : ∀ n, (env.getRandHash n).isNull = false

section
variable {K : PubKeys} {env : LoadEnv} {base_height : Nat}

variable {m : Utxos} {txid : Uint256} {c : CCoinsViewCache}

theorem breathe_filling (henv : env.Undisturbed) {st : LoadState} (h : Filling st.coins_cache m) :
    ∃ c, breathe env st = .ok { st with coins_cache := c } ∧ Filling c m := by
  unfold breathe
  split
  · exact ⟨_, rfl, h⟩
  · rw [henv.interrupt]
    simp only [Bool.false_eq_true, if_false]
    split
    · obtain ⟨c, hflush, hfilling, -⟩ := (h.setBestBlock (env.getRandHash st.coins_processed)).flush
        (henv.rand st.coins_processed)
      rw [hflush]
      exact ⟨c, rfl, hfilling⟩
    · exact ⟨_, rfl, h⟩

theorem loadCoin_written (coins_count left processed : Nat) (henv : env.Undisturbed) {n : Nat}
    {coin : Coin} (rest : Bytes) (hload : Loadable base_height ⟨txid, n⟩ coin)
    (hfilling : Filling c m) (hnew : m.get ⟨txid, n⟩ = none) :
    ∃ c', loadCoin (coinCodec K) env base_height coins_count txid
        ⟨writeIndexedCoin K (n, coin) ++ rest, c, left, processed⟩ =
          .ok ⟨rest, c', left - 1, processed + 1⟩ ∧ Filling c' (m.insert ⟨txid, n⟩ coin) := by
  have hmax : MAX_SIZE = 33554432 := rfl
  have hindex : n < MAX_SIZE := hload.index
  have hread : (coinCodec K).read (writeCoin K coin ++ rest) = some (coin, rest) :=
    readCoin_writeCoin K rest hload.toStorable
  have hbounds : ¬ (coin.nHeight > base_height ∨ n ≥ MAX_OUTPOINT_INDEX) := by
    rw [MAX_OUTPOINT_INDEX]
    have := hload.below
    omega
  have hemplace : Filling (LoadState.mk rest (c.emplaceCoinInternalDANGER ⟨txid, n⟩ coin) (left - 1)
      (processed + 1)).coins_cache (m.insert ⟨txid, n⟩ coin) := hfilling.emplace hnew hload.unspent
  obtain ⟨c', hbreathe, hfilling'⟩ := breathe_filling henv hemplace
  refine ⟨c', ?_, hfilling'⟩
  rw [loadCoin, writeIndexedCoin, append_assoc, readCompactSize_write _ (by omega)]
  simp only [hread, if_neg hbounds, hload.value, Bool.not_true, Bool.false_eq_true, if_false, hbreathe]

def groupCoins (txid : Uint256) (coins : List (Nat × Coin)) : List CoinEntry :=
  coins.map fun e => (⟨txid, e.1⟩, e.2)

theorem loadCoins_written (coins_count left processed : Nat) (henv : env.Undisturbed)
    {coins : List (Nat × Coin)} (rest : Bytes)
    (hload : ∀ e ∈ groupCoins txid coins, Loadable base_height e.1 e.2) (hfilling : Filling c m)
    (hnew : ∀ e ∈ groupCoins txid coins, m.get e.1 = none)
    (hnodup : ((groupCoins txid coins).map Prod.fst).Nodup) :
    ∃ c', loadCoins (coinCodec K) env base_height coins_count txid coins.length
        ⟨coins.flatMap (writeIndexedCoin K) ++ rest, c, left, processed⟩ =
          .ok ⟨rest, c', left - coins.length, processed + coins.length⟩ ∧
      Filling c' (FMap.insertAll (groupCoins txid coins) m) := by
  induction coins generalizing c left processed m with
  | nil => exact ⟨c, rfl, hfilling⟩
  | cons e coins ih =>
    obtain ⟨n, coin⟩ := e
    obtain ⟨hnot, hnodup⟩ := nodup_cons.mp hnodup
    obtain ⟨c₁, hcoin, hfilling₁⟩ := loadCoin_written coins_count left processed henv
      (coins.flatMap (writeIndexedCoin K) ++ rest) (hload _ mem_cons_self) hfilling
      (hnew _ mem_cons_self)
    have hnew₁ : ∀ e ∈ groupCoins txid coins, (m.insert ⟨txid, n⟩ coin).get e.1 = none := by
      intro e he
      have hne : e.1 ≠ ⟨txid, n⟩ := fun heq => hnot (mem_map.mpr ⟨e, he, heq⟩)
      rw [FMap.insert_get_ne hne]
      exact hnew e (mem_cons_of_mem _ he)
    obtain ⟨c₂, hcoins, hfilling₂⟩ := ih (left - 1) (processed + 1)
      (fun e he => hload e (mem_cons_of_mem _ he)) hfilling₁ hnew₁ hnodup
    refine ⟨c₂, ?_, hfilling₂⟩
    rw [length_cons, loadCoins, flatMap_cons, append_assoc, hcoin]
    simp only [hcoins]
    congr 2
    · omega
    · omega

theorem ungroup_cons (txid : Uint256) (coins : List (Nat × Coin)) (groups : List CoinGroup) :
    ungroup ((txid, coins) :: groups) = groupCoins txid coins ++ ungroup groups := rfl

theorem writtenCount_cons (txid : Uint256) (coins : List (Nat × Coin)) (groups : List CoinGroup) :
    writtenCount ((txid, coins) :: groups) = coins.length + writtenCount groups := by
  simp [writtenCount]

theorem groupCoins_length {coins : List (Nat × Coin)}
    (hload : ∀ e ∈ groupCoins txid coins, Loadable base_height e.1 e.2)
    (hnodup : ((groupCoins txid coins).map Prod.fst).Nodup) : coins.length ≤ MAX_SIZE := by
  have hindices : (coins.map Prod.fst).Nodup := by
    rw [groupCoins, map_map] at hnodup
    refine List.Nodup.of_map (fun n => (⟨txid, n⟩ : COutPoint)) ?_
    rw [map_map]
    exact hnodup
  have hsub : (coins.map Prod.fst).toFinset ⊆ Finset.range MAX_SIZE := by
    intro n hn
    obtain ⟨e, he, rfl⟩ := mem_map.mp (mem_toFinset.mp hn)
    exact Finset.mem_range.mpr (hload _ (mem_map_of_mem he)).index
  have hcard := Finset.card_le_card hsub
  rwa [toFinset_card_of_nodup hindices, Finset.card_range, length_map] at hcard

theorem loadTxs_groups (coins_count fuel processed : Nat) (henv : env.Undisturbed)
    {groups : List CoinGroup}
    (hfuel : (groups.flatMap (writeGroup K)).length ≤ fuel) (hne : ∀ group ∈ groups, group.2 ≠ [])
    (hload : ∀ e ∈ ungroup groups, Loadable base_height e.1 e.2) (hfilling : Filling c m)
    (hnew : ∀ e ∈ ungroup groups, m.get e.1 = none) (hnodup : ((ungroup groups).map Prod.fst).Nodup) :
    ∃ c', loadTxs (coinCodec K) env base_height coins_count fuel
        ⟨groups.flatMap (writeGroup K), c, writtenCount groups, processed⟩ =
          .ok ⟨[], c', 0, processed + writtenCount groups⟩ ∧
      Filling c' (FMap.insertAll (ungroup groups) m) := by
  induction groups generalizing fuel processed c m with
  | nil =>
    refine ⟨c, ?_, hfilling⟩
    cases fuel <;> rfl
  | cons group groups ih =>
    obtain ⟨txid, coins⟩ := group
    have hcoins : coins ≠ [] := hne _ mem_cons_self
    have hpos : 0 < coins.length := length_pos_of_ne_nil hcoins
    rw [ungroup_cons] at hload hnew hnodup ⊢
    rw [map_append] at hnodup
    obtain ⟨hnodup₁, hnodup₂, hdisjoint⟩ := nodup_append.mp hnodup
    have hload₁ : ∀ e ∈ groupCoins txid coins, Loadable base_height e.1 e.2 := fun e he =>
      hload e (mem_append_left _ he)
    have hlength := groupCoins_length hload₁ hnodup₁
    obtain ⟨c₁, hloop, hfilling₁⟩ := loadCoins_written (K := K) coins_count
      (writtenCount ((txid, coins) :: groups)) processed henv (groups.flatMap (writeGroup K)) hload₁
      hfilling (fun e he => hnew e (mem_append_left _ he)) hnodup₁
    have hnew₂ : ∀ e ∈ ungroup groups,
        (FMap.insertAll (groupCoins txid coins) m).get e.1 = none := by
      intro e he
      rw [FMap.insertAll_get_of_not_mem fun v hv => ?_]
      · exact hnew e (mem_append_right _ he)
      · exact hdisjoint _ (mem_map_of_mem hv) _ (mem_map_of_mem he) rfl
    have hbytes : ((((txid, coins) :: groups).flatMap (writeGroup K)).length) =
        32 + (writeCompactSize coins.length).length + (coins.flatMap (writeIndexedCoin K)).length +
          (groups.flatMap (writeGroup K)).length := by
      rw [flatMap_cons, length_append, writeGroup, length_append, length_append,
        txid.size_eq]
      dsimp only
      omega
    obtain ⟨fuel, rfl⟩ : ∃ f, fuel = f + 1 := ⟨fuel - 1, by omega⟩
    obtain ⟨c₂, hrest, hfilling₂⟩ := ih fuel (processed + coins.length) (by omega)
      (fun g hg => hne g (mem_cons_of_mem _ hg))
      (fun e he => hload e (mem_append_right _ he)) hfilling₁ hnew₂ hnodup₂
    refine ⟨c₂, ?_, ?_⟩
    · have hleft : writtenCount ((txid, coins) :: groups) - coins.length = writtenCount groups := by
        rw [writtenCount_cons]
        omega
      rw [hleft] at hloop
      rw [loadTxs, if_neg (by simp only [writtenCount_cons]; omega), flatMap_cons, writeGroup,
        append_assoc, readUint256_data]
      simp only [append_assoc, readCompactSize_write _ hlength, hloop, hrest]
      rw [if_neg (by simp only [writtenCount_cons]; omega)]
      rw [writtenCount_cons, Nat.add_assoc]
    · rw [FMap.insertAll, foldl_append]
      exact hfilling₂

end

/-! ## the round trip -/

/-- the set can be written and loaded at a height -/
def LoadableSet (base_height : Nat) (m : Utxos) : Prop := m.All (Loadable base_height)

theorem LoadableSet.mono {h h' : Nat} (hm : LoadableSet h m) (hle : h ≤ h') :
    LoadableSet h' m := fun o coin ho =>
  ⟨(hm o coin ho).toStorable, Nat.le_trans (hm o coin ho).below hle, (hm o coin ho).index⟩

theorem loadable_output {tx : CTransaction} (htx : checkTransaction tx = .ok ()) {nHeight k : Nat}
    (hh : nHeight < 2 ^ 31) {txid : Uint256} {cb : Bool} {out : CTxOut} (hk : tx.vout[k]? = some out)
    (hu : isUnspendable out.scriptPubKey = false) : Loadable nHeight ⟨txid, k⟩ ⟨out, cb, nHeight⟩ := by
  obtain ⟨hlt, -⟩ := List.getElem?_eq_some_iff.mp hk
  have hscript : out.scriptPubKey.length ≤ MAX_SCRIPT_SIZE := by
    rw [isUnspendable, Bool.or_eq_false_iff, decide_eq_false_iff_not] at hu
    exact Nat.not_lt.mp hu.2
  refine ⟨⟨checkTransaction_range htx out (mem_of_getElem? hk), hscript, hh⟩, Nat.le_refl _, ?_⟩
  have hsize : tx.sizeNoWitness * 4 ≤ 4000000 := checkTransaction_size htx
  have hvout := length_vout_le tx
  show k < 33554432
  omega

/-- **every block that is applied leaves a set that can be written and loaded at its height** -/
theorem loadableSet_applyTxs {H : Hashes} {nHeight h : Nat} {txs : List CTransaction}
    (hm : LoadableSet h m) (hle : h ≤ nHeight) (hh : nHeight < 2 ^ 31)
    (htxs : ∀ tx ∈ txs, checkTransaction tx = .ok ()) :
    LoadableSet nHeight (applyTxs H nHeight txs m) :=
  all_applyTxs (hm.mono hle) fun tx htx _ _ hk hu => loadable_output (htxs tx htx) hh hk hu

section
variable {K : PubKeys} {env : LoadEnv}

theorem filling_new : Filling (CCoinsViewCache.new (.db CCoinsViewDB.empty)) FMap.empty :=
  ⟨⟨_, rfl, rfl⟩, new_ok trivial, fun o e he => (by cases he), new_utxos _⟩

/-- **the coins behind the metadata fill a new database with the set that was written** -/
theorem loadSnapshot_written (henv : env.Undisturbed) {base_height : Nat} {blockHash : Uint256}
    (hload : LoadableSet base_height m) (hhash : blockHash.isNull = false) :
    ∃ c d, loadSnapshot (coinCodec K) env base_height m.card blockHash
        ((snapshotGroups (cursor m)).flatMap (writeGroup K))
        (CCoinsViewCache.new (.db CCoinsViewDB.empty)) = .ok c ∧
      c.base = .db d ∧ d.coins = m ∧ d.bestBlock = blockHash := by
  have hcount : writtenCount (snapshotGroups (cursor m)) = m.card := by
    rw [writtenCount_eq, ungroup_snapshotGroups, (cursor_perm m).length_eq, FMap.length_toList]
  have hungroup := ungroup_snapshotGroups (cursor m)
  obtain ⟨c₁, hloop, hfilling⟩ := loadTxs_groups (K := K) m.card
    ((snapshotGroups (cursor m)).flatMap (writeGroup K)).length 0 henv (Nat.le_refl _)
    (snapshotGroups_nonempty _)
    (fun e he => by
      rw [hungroup, (cursor_perm m).mem_iff, FMap.mem_toList] at he
      exact hload _ _ he)
    filling_new (fun e _ => FMap.empty_get _) (by rw [hungroup]; exact cursor_nodup m)
  rw [hungroup, FMap.insertAll_of_perm (cursor_perm m)] at hfilling
  rw [hcount] at hloop
  obtain ⟨c₂, hflush, hfilling₂, hempty, hbest, hdb⟩ := (hfilling.setBestBlock blockHash).flush hhash
  obtain ⟨d, hd, -⟩ := hfilling₂.db
  refine ⟨c₂, d, ?_, hd, ?_, ?_⟩
  · have hget : c₂.getBestBlock = blockHash := by
      have hb : c₂.m_block_hash = blockHash := hbest
      show (if c₂.m_block_hash.isNull then _ else _) = _
      rw [hb, hhash]
      rfl
    rw [loadSnapshot, hloop]
    simp only [ne_eq, not_true_eq_false, if_false, hflush, hget, if_true]
  · rw [← hfilling₂.utxos]
    refine FMap.ext_get fun o => ?_
    rw [utxos_get, peek_of_no_entry (by rw [hempty, FMap.empty_get]), hd]
    rfl
  · rw [hd] at hdb
    exact hdb

variable {G : Type} [CommGroup G] {M : MuHash G}

theorem snapshotHash_eq {params : ConsensusParams} {nHeight : Nat} {d : CCoinsViewDB}
    {known : Uint256 → Bool} (hknown : known d.bestBlock = true) :
    snapshotHash M params nHeight d (UTXOMuHashState.ofSet M d.coins) known =
      some (hashUTXOs M (if isMuhashAttestationActive nHeight params then .MUHASH else .HASH_SERIALIZED)
        d.coins, UInt64.ofNat d.coins.card) := by
  rw [snapshotHash]
  split
  · rw [hashUTXOs, UTXOMuHashState.rebuild_eq_ofSet]
    rfl
  · rw [computeUTXOStatsWalk_eq, computeUTXOStats]
    simp only [CCoinsView.getBestBlock, hknown, if_true, Option.map_some]
    rw [CCoinsView.fetchEffectiveUTXOs, FMap.length_toList]

theorem writeSnapshot_eq {network_magic : MessageStart} {params : ConsensusParams} {nHeight : Nat}
    {blockHash : Uint256} {d : CCoinsViewDB} {known : Uint256 → Bool} (hcount : d.coins.card < 2 ^ 64)
    (hknown : known d.bestBlock = true) :
    writeSnapshot K M network_magic params nHeight blockHash d (UTXOMuHashState.ofSet M d.coins) known =
      some (SnapshotMetadata.serialize network_magic ⟨blockHash, d.coins.card⟩ ++
          (snapshotGroups (cursor d.coins)).flatMap (writeGroup K),
        hashUTXOs M (if isMuhashAttestationActive nHeight params then .MUHASH else .HASH_SERIALIZED)
          d.coins) := by
  have hgroups : UInt64.ofNat (writtenCount (snapshotGroups (cursor d.coins))) =
      UInt64.ofNat d.coins.card := by
    rw [writtenCount_eq, ungroup_snapshotGroups, (cursor_perm d.coins).length_eq, FMap.length_toList]
  rw [writeSnapshot, snapshotHash_eq hknown]
  simp only [hgroups, ne_eq, not_true_eq_false, if_false, UInt64.toNat_ofNat_of_lt' hcount]

/-- **a snapshot that is written and loaded again gives the same coins**: for every height and both
hash types, whatever flushes come in between -/
theorem snapshot_round_trip (K : PubKeys) (M : MuHash G) (P : CChainParams)
    (network_magic : MessageStart) (nHeight : Nat) (blockHash : Uint256) (d : CCoinsViewDB)
    (known : Uint256 → Bool) (env : LoadEnv) (m : BlockMap) (activeTip : Option Uint256)
    (start tip : CBlockIndex) (hset : LoadableSet nHeight d.coins) (hcount : d.coins.card < 2 ^ 64)
    (hknown : known d.bestBlock = true)
    (hhash : blockHash.isNull = false) (hbase : m.lookupBlockIndex blockHash = some start)
    (hheight : start.nHeight = nHeight) (hpos : nHeight ≠ 0)
    (htip : activeTip.bind m.lookupBlockIndex = some tip)
    (hwork : CBlockIndexWorkComparator tip start = true) (henv : env.Undisturbed) :
    ∃ dat hash metadata coins_file r d',
      writeSnapshot K M network_magic P.consensus nHeight blockHash d
        (UTXOMuHashState.ofSet M d.coins) known = some (dat, hash) ∧
      SnapshotMetadata.unserialize network_magic dat = some (metadata, coins_file) ∧
      populateAndValidateSnapshot M (coinCodec K) P env m activeTip
        (CCoinsViewCache.new (.db CCoinsViewDB.empty)) coins_file metadata false (some hash) = .ok r ∧
      r.coins_cache.base = .db d' ∧ d'.coins = d.coins ∧ d'.bestBlock = blockHash := by
  obtain ⟨c, d', hload, hbase', hcoins, hbest⟩ := loadSnapshot_written (K := K) henv hset hhash
  refine ⟨_, _, _, _, ⟨c, markBase P env m blockHash nHeight⟩, d', writeSnapshot_eq hcount hknown,
    unserialize_serialize network_magic _ hcount, ?_, hbase', hcoins, hbest⟩
  · have hstart : checkStart P m activeTip blockHash false = .ok start := by
      rw [checkStart, hbase]
      simp only [htip, hwork, Bool.not_true, Bool.false_eq_true, if_false, Bool.false_and]
    have hcontent : checkContent M P env m nHeight (.db d') false
        (some (hashUTXOs M (if isMuhashAttestationActive nHeight P.consensus then .MUHASH
          else .HASH_SERIALIZED) d.coins)) = .ok () := by
      have hlookup : (m.lookupBlockIndex d'.bestBlock).isSome = true := by
        rw [hbest, hbase]
        rfl
      rw [checkContent, henv.hashing]
      simp only [Bool.false_eq_true, if_false, computeUTXOStats, CCoinsView.getBestBlock, hlookup,
        if_true, CCoinsView.fetchEffectiveUTXOs, hcoins, snapshotHashType, Option.isSome_some,
        Bool.true_and, assumeutxoHash, missedContentHash]
      rw [Option.filter_some_neg (by simp)]
      rfl
    rw [populateAndValidateSnapshot, hstart]
    simp only [hheight, hload, hbase', hcontent, if_neg hpos]

end

/-! ## two coins of one transaction and one of another -/

def sampleMagic : MessageStart := ⟨[0, 0, 0, 0], rfl⟩

def sampleWritten : CCoinsViewDB where
  coins := ((FMap.empty.insert ⟨sampleId 7, 0⟩ ⟨⟨10, [0x51]⟩, true, 1⟩).insert ⟨sampleId 7, 1⟩
    ⟨⟨20, [0x51]⟩, true, 1⟩).insert ⟨sampleId 8, 0⟩ ⟨⟨30, []⟩, false, 2⟩
  bestBlock := sampleId 3
  headBlocks := []
  unspent := unspent_insert (unspent_insert (unspent_insert (by simp) _ rfl) _ rfl) _ rfl

def sampleLoadEnv : LoadEnv := ⟨fun _ => false, fun _ => true, fun _ => sampleId 9, false, fun _ => true⟩

theorem sampleWritten_loadable : LoadableSet 2 sampleWritten.coins := by
  have hcoin : ∀ n v script cb h, moneyRange v = true → List.length script ≤ MAX_SCRIPT_SIZE → h ≤ 2 →
      n < MAX_SIZE → ∀ txid, Loadable 2 ⟨txid, n⟩ ⟨⟨v, script⟩, cb, h⟩ :=
    fun n v script cb h hv hs hh hn txid => ⟨⟨hv, hs, by dsimp only; omega⟩, hh, hn⟩
  refine (((FMap.all_empty _).insert ?_).insert ?_).insert ?_
  · exact hcoin _ _ _ _ _ (by decide) (by decide) (by decide) (by decide) _
  · exact hcoin _ _ _ _ _ (by decide) (by decide) (by decide) (by decide) _
  · exact hcoin _ _ _ _ _ (by decide) (by decide) (by decide) (by decide) _

/-- the three coins go through a snapshot of block 3 to a node that stands at block 2 -/
theorem snapshot_round_trip_flushed :
    ∃ dat hash metadata coins_file r d',
      writeSnapshot samplePubKeys sampleMuHash sampleMagic mainParams 2 (sampleId 3) sampleWritten
        (UTXOMuHashState.ofSet sampleMuHash sampleWritten.coins) (fun _ => true) = some (dat, hash) ∧
      SnapshotMetadata.unserialize sampleMagic dat = some (metadata, coins_file) ∧
      populateAndValidateSnapshot sampleMuHash (coinCodec samplePubKeys) ⟨mainParams, []⟩ sampleLoadEnv
        sampleForkIndex (some (sampleId 2)) (CCoinsViewCache.new (.db CCoinsViewDB.empty)) coins_file
        metadata false (some hash) = .ok r ∧
      r.coins_cache.base = .db d' ∧ d'.coins = sampleWritten.coins ∧ d'.bestBlock = sampleId 3 := by
  obtain ⟨start, hstart⟩ : ∃ start, sampleForkIndex.lookupBlockIndex (sampleId 3) = some start := ⟨_, rfl⟩
  obtain ⟨tip, htip⟩ : ∃ tip, (some (sampleId 2)).bind sampleForkIndex.lookupBlockIndex = some tip :=
    ⟨_, rfl⟩
  have hheight : start.nHeight = 2 := by
    cases hstart
    rfl
  have hwork : CBlockIndexWorkComparator tip start = true := by
    cases hstart
    cases htip
    decide
  exact snapshot_round_trip samplePubKeys sampleMuHash ⟨mainParams, []⟩ sampleMagic 2 (sampleId 3)
    sampleWritten (fun _ => true) sampleLoadEnv sampleForkIndex (some (sampleId 2)) start tip
    sampleWritten_loadable (by decide) rfl (by decide) hstart hheight (by decide) htip hwork
    ⟨fun _ => rfl, rfl, fun _ => rfl⟩

/-- **a node that stands at the base already refuses the same file** -/
theorem snapshot_refused_at_base :
    ∃ dat hash metadata coins_file start,
      writeSnapshot samplePubKeys sampleMuHash sampleMagic mainParams 2 (sampleId 3) sampleWritten
        (UTXOMuHashState.ofSet sampleMuHash sampleWritten.coins) (fun _ => true) = some (dat, hash) ∧
      SnapshotMetadata.unserialize sampleMagic dat = some (metadata, coins_file) ∧
      sampleForkIndex.lookupBlockIndex metadata.m_base_blockhash = some start ∧ start.nHeight = 2 ∧
      populateAndValidateSnapshot sampleMuHash (coinCodec samplePubKeys) ⟨mainParams, []⟩ sampleLoadEnv
        sampleForkIndex (some (sampleId 3)) (CCoinsViewCache.new (.db CCoinsViewDB.empty)) coins_file
        metadata false (some hash) = .error (.inr "Work does not exceed active chainstate") :=
  ⟨_, _, _, _, _, writeSnapshot_eq (by decide) rfl, unserialize_serialize sampleMagic _ (by decide), rfl,
    rfl, rfl⟩

end ElektronNet
