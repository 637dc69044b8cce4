import ElektronNet.BlockIndex
import ElektronNet.CoinStats
import ElektronNet.ConsensusParams

/-!
# Loading a snapshot file

`PopulateAndValidateSnapshot` of `validation.cpp`, with the byte readers it uses.  The file is the
byte string behind the metadata; the reading of one coin is a parameter (`CoinCodec`), every other
byte is read as in `serialize.h`.

* `loadTxs`        the loop over the transactions of the file
* `loadSnapshot`   the loop, the check that nothing is left over, and the last flush
* `populateAndValidateSnapshot`   all checks, then the marks on the block index
* `SnapshotLoads`  what a snapshot has to pass to be accepted (`populate_ok`, `populate_error`)
* `loadTxs_fuel`   the rounds of the loop are bounded by the length of the file

An error message ends the call like an exception does, so both stand on the error side
(`LoadError`).  `coins_processed` is also the number that the interrupt, the size of the cache and
the random hash are asked for.
-/

namespace ElektronNet

open Option BlockMap

structure SnapshotMetadata where
  m_base_blockhash : Uint256
  m_coins_count : Nat
deriving DecidableEq

structure AssumeutxoData where
  height : Nat
  hash_serialized : Uint256
  m_chain_tx_count : Nat
  blockhash : Uint256
deriving DecidableEq

structure CChainParams where
  consensus : ConsensusParams
  m_assumeutxo_data : List AssumeutxoData

namespace CChainParams

def assumeutxoForHeight (P : CChainParams) (height : Nat) : Option AssumeutxoData :=
  P.m_assumeutxo_data.find? fun d => d.height == height

def assumeutxoForBlockhash (P : CChainParams) (blockhash : Uint256) : Option AssumeutxoData :=
  P.m_assumeutxo_data.find? fun d => d.blockhash == blockhash

def getAvailableSnapshotHeights (P : CChainParams) : List Nat := P.m_assumeutxo_data.map (·.height)

end CChainParams

/-! ## reading bytes -/

/-- `none`: the stream ends, or what stands there is refused (`std::ios_base::failure`) -/
abbrev Reader (α : Type) := Bytes → Option (α × Bytes)

def readUint256 : Reader Uint256 := fun file =>
  if h : 32 ≤ file.length then some (⟨file.take 32, by simp [h]⟩, file.drop 32) else none

def readNumber (w : Nat) : Reader Nat := fun file =>
  if w ≤ file.length then some (LittleEndian.value (file.take w), file.drop w) else none

def MAX_SIZE : Nat := 33554432

/-- `serialize.h`; a number has one form only, and no size is above `MAX_SIZE` -/
def readCompactSize : Reader Nat
  | [] => none
  | chSize :: file =>
    (if chSize < 253 then some (chSize.toNat, file)
      else if chSize = 253 then (readNumber 2 file).filter fun p => decide (253 ≤ p.1)
      else if chSize = 254 then (readNumber 4 file).filter fun p => decide (0x10000 ≤ p.1)
      else (readNumber 8 file).filter fun p => decide (0x100000000 ≤ p.1)).filter
    fun p => decide (p.1 ≤ MAX_SIZE)

/-- `Coin::Unserialize`; it never gives bytes back -/
structure CoinCodec where
  read : Reader Coin
  read_length : ∀ file coin rest, read file = some (coin, rest) → rest.length ≤ file.length

/-! ## the loops -/

abbrev LoadError := Fault ⊕ String

structure LoadEnv where
  m_interrupt : Nat → Bool
  /-- `GetCoinsCacheSizeState() >= CRITICAL` -/
  critical : Nat → Bool
  getRandHash : Nat → Uint256
  /-- the interrupt comes while the coins are hashed -/
  hashInterrupt : Bool
  /-- `DEPLOYMENT_SEGWIT` is active at the block -/
  segwitActive : Uint256 → Bool

structure LoadState where
  coins_file : Bytes
  coins_cache : CCoinsViewCache
  coins_left : Nat
  coins_processed : Nat

def interrupted : LoadError := .inr "Aborting after an interrupt was requested"

def LoadState.truncated (st : LoadState) : LoadError :=
  .inr ("Bad snapshot format or truncated snapshot after deserializing " ++
    toString st.coins_processed ++ " coins")

/-- the bound of `outpoint.n` -/
def MAX_OUTPOINT_INDEX : Nat := 4294967295

theorem unspent_of_moneyRange {coin : Coin} (h : moneyRange coin.out.nValue = true) :
    coin.isSpent = false := by
  have hne : coin.out.nValue ≠ -1 := by
    intro he
    rw [he] at h
    cases h
  simpa [Coin.isSpent, CTxOut.isNull] using hne

section
variable (codec : CoinCodec) (env : LoadEnv) (base_height coins_count : Nat)

/-- every 120000 coins the interrupt is looked at, and a cache that is too large is flushed -/
def breathe (st : LoadState) : Except LoadError LoadState :=
  if st.coins_processed % 120000 ≠ 0 then .ok st
  else if env.m_interrupt st.coins_processed then .error interrupted
  else if env.critical st.coins_processed then
    match (st.coins_cache.setBestBlock (env.getRandHash st.coins_processed)).flush with
    | .error f => .error (.inl f)
    | .ok coins_cache => .ok { st with coins_cache := coins_cache }
  else .ok st

def loadCoin (txid : Uint256) (st : LoadState) : Except LoadError LoadState :=
  match readCompactSize st.coins_file with
  | none => .error st.truncated
  | some (n, file) =>
    match codec.read file with
    | none => .error st.truncated
    | some (coin, file) =>
      if coin.nHeight > base_height ∨ n ≥ MAX_OUTPOINT_INDEX then
        .error (.inr ("Bad snapshot data after deserializing " ++
          toString (coins_count - st.coins_left) ++ " coins"))
      else if !moneyRange coin.out.nValue then
        .error (.inr ("Bad snapshot data after deserializing " ++
          toString (coins_count - st.coins_left) ++ " coins - bad tx out value"))
      else
        breathe env
          ⟨file, st.coins_cache.emplaceCoinInternalDANGER ⟨txid, n⟩ coin, st.coins_left - 1,
            st.coins_processed + 1⟩

def loadCoins (txid : Uint256) : Nat → LoadState → Except LoadError LoadState
  | 0, st => .ok st
  | n + 1, st =>
    match loadCoin codec env base_height coins_count txid st with
    | .error e => .error e
    | .ok st => loadCoins txid n st

/-- the loop over the transactions; each of them takes bytes from the file, so that the length of
the file bounds the rounds -/
def loadTxs : Nat → LoadState → Except LoadError LoadState
  | 0, st => if st.coins_left = 0 then .ok st else .error st.truncated
  | fuel + 1, st =>
    if st.coins_left = 0 then .ok st
    else
      match readUint256 st.coins_file with
      | none => .error st.truncated
      | some (txid, file) =>
        match readCompactSize file with
        | none => .error st.truncated
        | some (coins_per_txid, file) =>
          if coins_per_txid > st.coins_left then
            .error (.inr "Mismatch in coins count in snapshot metadata and actual snapshot data")
          else
            match loadCoins codec env base_height coins_count txid coins_per_txid
                { st with coins_file := file } with
            | .error e => .error e
            | .ok st => loadTxs fuel st

def loadSnapshot (base_blockhash : Uint256) (coins_file : Bytes) (coins_cache : CCoinsViewCache) :
    Except LoadError CCoinsViewCache :=
  match loadTxs codec env base_height coins_count coins_file.length
      ⟨coins_file, coins_cache, coins_count, 0⟩ with
  | .error e => .error e
  | .ok st =>
    if st.coins_file ≠ [] then
      .error (.inr ("Bad snapshot - coins left over after deserializing " ++
        toString coins_count ++ " coins"))
    else
      match (st.coins_cache.setBestBlock base_blockhash).flush with
      | .error f => .error (.inl f)
      | .ok coins_cache =>
        if coins_cache.getBestBlock = base_blockhash then .ok coins_cache
        else .error (.inl (.assertion "coins_cache.GetBestBlock() == base_blockhash"))

end

/-! ## the checks around them -/

section
variable {G : Type} [CommGroup G] (M : MuHash G) (P : CChainParams) (env : LoadEnv) (m : BlockMap)

def checkStart (activeTip : Option Uint256) (base_blockhash : Uint256)
    (verify_assumeutxo_hash : Bool) : Except LoadError CBlockIndex :=
  match m.lookupBlockIndex base_blockhash with
  | none => .error (.inr ("Did not find snapshot start blockheader " ++ base_blockhash.toString))
  | some start =>
    match activeTip.bind m.lookupBlockIndex with
    | none => .error (.inl (.assertion "ActiveTip()"))
    | some tip =>
      if !CBlockIndexWorkComparator tip start then
        .error (.inr "Work does not exceed active chainstate")
      else if verify_assumeutxo_hash && (P.assumeutxoForHeight start.nHeight).isNone then
        .error (.inr ("Assumeutxo height in snapshot metadata not recognized (" ++
          toString start.nHeight ++ ") - refusing to load snapshot"))
      else .ok start

def snapshotHashType (base_height : Nat) (expected_utxo_hash : Option Uint256) : CoinStatsHashType :=
  if expected_utxo_hash.isSome && isMuhashAttestationActive base_height P.consensus then .MUHASH
  else .HASH_SERIALIZED

/-- the expected hash that the content misses: the one of the parameters is looked at first -/
def missedContentHash (got : Uint256) (au_hash expected_utxo_hash : Option Uint256) : Option Uint256 :=
  (au_hash.filter fun h => decide (got ≠ h)).or (expected_utxo_hash.filter fun h => decide (got ≠ h))

def assumeutxoHash (base_height : Nat) (verify_assumeutxo_hash : Bool) : Option Uint256 :=
  if verify_assumeutxo_hash then (P.assumeutxoForHeight base_height).map (·.hash_serialized)
  else none

/-- the hash of the loaded coins is compared with what is expected -/
def checkContent (base_height : Nat) (snapshot_coinsdb : CCoinsView)
    (verify_assumeutxo_hash : Bool) (expected_utxo_hash : Option Uint256) : Except LoadError Unit :=
  if env.hashInterrupt then .error interrupted
  else
    match computeUTXOStats M (snapshotHashType P base_height expected_utxo_hash) snapshot_coinsdb
        (fun h => (m.lookupBlockIndex h).isSome) with
    | none => .error (.inr "Failed to generate coins stats")
    | some stats =>
      match missedContentHash stats.hashSerialized (assumeutxoHash P base_height verify_assumeutxo_hash)
          expected_utxo_hash with
      | some expected =>
        .error (.inr ("Bad snapshot content hash: expected " ++ expected.toString ++ ", got " ++
          stats.hashSerialized.toString))
      | none => .ok ()

/-- what `m_chain_tx_count` of the base becomes; without an entry of the parameters one
transaction per block is assumed -/
def baseTxCount (base_height : Nat) : Nat :=
  match P.assumeutxoForHeight base_height with
  | some au_data => au_data.m_chain_tx_count
  | none => base_height + 1

/-- `BLOCK_OPT_WITNESS` on the blocks of the snapshot's chain above genesis -/
def fakeWitness (base_blockhash : Uint256) : BlockMap :=
  m.update fun h e =>
    if h ∈ m.forest.path base_blockhash ∧ 1 ≤ e.nHeight ∧ env.segwitActive h = true then
      { e.toBlockIndexState with nStatus := { e.nStatus with optWitness := true } }
    else e.toBlockIndexState

/-- the marks on the block index after the coins are accepted -/
def markBase (base_blockhash : Uint256) (base_height : Nat) : BlockMap :=
  (fakeWitness env m base_blockhash).modify base_blockhash fun e =>
    { e with m_chain_tx_count := baseTxCount P base_height }

end

/-- what a successful call leaves: the cache over the filled database, and the marked index -/
structure Populated where
  coins_cache : CCoinsViewCache
  m_block_index : BlockMap

section
variable {G : Type} [CommGroup G] (M : MuHash G) (codec : CoinCodec) (P : CChainParams)
  (env : LoadEnv) (m : BlockMap)

def populateAndValidateSnapshot (activeTip : Option Uint256) (coins_cache : CCoinsViewCache)
    (coins_file : Bytes) (metadata : SnapshotMetadata) (verify_assumeutxo_hash : Bool)
    (expected_utxo_hash : Option Uint256) : Except LoadError Populated :=
  match checkStart P m activeTip metadata.m_base_blockhash verify_assumeutxo_hash with
  | .error e => .error e
  | .ok start =>
    match loadSnapshot codec env start.nHeight metadata.m_coins_count metadata.m_base_blockhash
        coins_file coins_cache with
    | .error e => .error e
    | .ok coins_cache =>
      match checkContent M P env m start.nHeight coins_cache.base verify_assumeutxo_hash
          expected_utxo_hash with
      | .error e => .error e
      | .ok () =>
        if start.nHeight = 0 then .error (.inl (.assertion "index"))
        else .ok ⟨coins_cache, markBase P env m metadata.m_base_blockhash start.nHeight⟩

def SnapshotLoads (activeTip : Option Uint256) (coins_cache : CCoinsViewCache) (coins_file : Bytes)
    (metadata : SnapshotMetadata) (verify_assumeutxo_hash : Bool)
    (expected_utxo_hash : Option Uint256) : Prop :=
  ∃ start loaded,
    checkStart P m activeTip metadata.m_base_blockhash verify_assumeutxo_hash = .ok start ∧
    loadSnapshot codec env start.nHeight metadata.m_coins_count metadata.m_base_blockhash
      coins_file coins_cache = .ok loaded ∧
    checkContent M P env m start.nHeight loaded.base verify_assumeutxo_hash expected_utxo_hash
      = .ok () ∧
    start.nHeight ≠ 0

variable {activeTip expected_utxo_hash : Option Uint256} {verify_assumeutxo_hash : Bool}
  {coins_cache : CCoinsViewCache} {coins_file : Bytes} {metadata : SnapshotMetadata}

theorem checkStart_ok {base_blockhash : Uint256} {start : CBlockIndex}
    (h : checkStart P m activeTip base_blockhash verify_assumeutxo_hash = .ok start) :
    m.entries.get base_blockhash = some start ∧ ∃ t tip, activeTip = some t ∧
      m.entries.get t = some tip ∧ CBlockIndexWorkComparator tip start = true := by
  unfold checkStart at h
  split at h
  · cases h
  · rename_i e he
    split at h
    · cases h
    · rename_i tip htip
      obtain ⟨t, ht, hget⟩ := bind_eq_some_iff.mp htip
      split at h
      · cases h
      · rename_i hwork
        split at h
        · cases h
        · cases h
          exact ⟨he, t, tip, ht, hget, by simpa using hwork⟩

theorem populate_cases {r : Populated}
    (h : populateAndValidateSnapshot M codec P env m activeTip coins_cache coins_file metadata
      verify_assumeutxo_hash expected_utxo_hash = .ok r) :
    ∃ start, checkStart P m activeTip metadata.m_base_blockhash verify_assumeutxo_hash = .ok start ∧
      loadSnapshot codec env start.nHeight metadata.m_coins_count metadata.m_base_blockhash
        coins_file coins_cache = .ok r.coins_cache ∧
      checkContent M P env m start.nHeight r.coins_cache.base verify_assumeutxo_hash
        expected_utxo_hash = .ok () ∧
      start.nHeight ≠ 0 ∧
      r.m_block_index = markBase P env m metadata.m_base_blockhash start.nHeight := by
  unfold populateAndValidateSnapshot at h
  split at h
  · cases h
  · rename_i start hstart
    split at h
    · cases h
    · rename_i loaded hload
      split at h
      · cases h
      · rename_i hcontent
        split at h
        · cases h
        · rename_i hheight
          cases h
          exact ⟨start, hstart, hload, hcontent, hheight, rfl⟩

/-- **a call succeeds exactly on what passes the checks, and marks the base** -/
theorem populate_ok {r : Populated}
    (h : populateAndValidateSnapshot M codec P env m activeTip coins_cache coins_file metadata
      verify_assumeutxo_hash expected_utxo_hash = .ok r) :
    SnapshotLoads M codec P env m activeTip coins_cache coins_file metadata verify_assumeutxo_hash
      expected_utxo_hash ∧
    ∃ start, checkStart P m activeTip metadata.m_base_blockhash verify_assumeutxo_hash = .ok start ∧
      r.m_block_index = markBase P env m metadata.m_base_blockhash start.nHeight := by
  obtain ⟨start, hstart, hload, hcontent, hheight, hindex⟩ := populate_cases M codec P env m h
  exact ⟨⟨start, r.coins_cache, hstart, hload, hcontent, hheight⟩, start, hstart, hindex⟩

theorem populate_error {e : LoadError}
    (h : populateAndValidateSnapshot M codec P env m activeTip coins_cache coins_file metadata
      verify_assumeutxo_hash expected_utxo_hash = .error e) :
    ¬ SnapshotLoads M codec P env m activeTip coins_cache coins_file metadata
      verify_assumeutxo_hash expected_utxo_hash := by
  rintro ⟨start, loaded, hstart, hload, hcontent, hheight⟩
  simp only [populateAndValidateSnapshot, hstart, hload, hcontent, if_neg hheight] at h
  cases h

end

/-! ## the marks on the index -/

/-- the number of transactions up to each block -/
def BlockMap.chainTxCount (m : BlockMap) (hash : Uint256) : Option Nat :=
  (m.entries.get hash).map (·.m_chain_tx_count)

theorem modify_chainTxCount (m : BlockMap) (hash : Uint256)
    (f : BlockIndexState → BlockIndexState) (h : Uint256) :
    (m.modify hash f).chainTxCount h =
      if h = hash then (m.entries.get h).map fun e => (f e.toBlockIndexState).m_chain_tx_count
      else m.chainTxCount h := by
  rw [chainTxCount, modify_get, map_map]
  by_cases hh : h = hash
  · rw [if_pos hh]
    congr 1
    funext e
    simp [hh]
  · rw [if_neg hh]
    congr 1
    funext e
    simp [hh]

theorem fakeWitness_chainTxCount (env : LoadEnv) (m : BlockMap) (base h : Uint256) :
    (fakeWitness env m base).chainTxCount h = m.chainTxCount h := by
  rw [BlockMap.chainTxCount, fakeWitness, update_get, map_map]
  refine congrArg (fun f => (m.entries.get h).map f) (funext fun e => ?_)
  simp only [Function.comp_apply]
  split <;> rfl

theorem markBase_chainTxCount (P : CChainParams) (env : LoadEnv) (m : BlockMap) (base : Uint256)
    (base_height : Nat) (h : Uint256) :
    (markBase P env m base base_height).chainTxCount h =
      if h = base then (m.entries.get h).map fun _ => baseTxCount P base_height
      else m.chainTxCount h := by
  rw [markBase, modify_chainTxCount, fakeWitness_chainTxCount]
  by_cases hh : h = base
  · rw [if_pos hh, if_pos hh, fakeWitness, update_get, map_map]
    rfl
  · rw [if_neg hh, if_neg hh]

/-! ## the rounds -/

variable {file rest : Bytes}

theorem readUint256_length {h : Uint256} (hr : readUint256 file = some (h, rest)) :
    rest.length + 32 = file.length := by
  unfold readUint256 at hr
  split at hr
  · rename_i hlen
    cases hr
    rw [List.length_drop]
    omega
  · cases hr

theorem readNumber_length {w n : Nat} (hr : readNumber w file = some (n, rest)) :
    rest.length ≤ file.length := by
  unfold readNumber at hr
  split at hr
  · cases hr
    rw [List.length_drop]
    omega
  · cases hr

theorem readCompactSize_length {n : Nat} (hr : readCompactSize file = some (n, rest)) :
    rest.length ≤ file.length := by
  cases file with
  | nil => cases hr
  | cons chSize file =>
    rw [readCompactSize, filter_eq_some_iff] at hr
    have hsized := hr.1
    have hnumber : ∀ w (q : Nat × Bytes → Bool),
        (readNumber w file).filter q = some (n, rest) → rest.length ≤ (chSize :: file).length := by
      intro w q hq
      have := readNumber_length (filter_eq_some_iff.mp hq).1
      rw [List.length_cons]
      omega
    split at hsized
    · cases hsized
      exact Nat.le_succ _
    · split at hsized
      · exact hnumber _ _ hsized
      · split at hsized
        · exact hnumber _ _ hsized
        · exact hnumber _ _ hsized

section
variable {codec : CoinCodec} {env : LoadEnv} {base_height coins_count : Nat}

variable {st st' : LoadState}

theorem breathe_file (h : breathe env st = .ok st') : st'.coins_file = st.coins_file := by
  unfold breathe at h
  split at h
  · cases h
    rfl
  · split at h
    · cases h
    · split at h
      · split at h
        · cases h
        · cases h
          rfl
      · cases h
        rfl

theorem loadCoin_length {txid : Uint256}
    (h : loadCoin codec env base_height coins_count txid st = .ok st') :
    st'.coins_file.length ≤ st.coins_file.length := by
  unfold loadCoin at h
  split at h
  · cases h
  · rename_i n file hn
    split at h
    · cases h
    · rename_i coin file' hcoin
      split at h
      · cases h
      · split at h
        · cases h
        · rw [breathe_file h]
          exact (codec.read_length _ _ _ hcoin).trans (readCompactSize_length hn)

theorem loadCoins_length {txid : Uint256} {n : Nat}
    (h : loadCoins codec env base_height coins_count txid n st = .ok st') :
    st'.coins_file.length ≤ st.coins_file.length := by
  induction n generalizing st with
  | zero =>
    cases h
    exact Nat.le_refl _
  | succ n ih =>
    unfold loadCoins at h
    split at h
    · cases h
    · rename_i st₁ h₁
      exact (ih h).trans (loadCoin_length h₁)

/-- more rounds than the file has bytes change nothing -/
theorem loadTxs_fuel {fuel : Nat} (hf : st.coins_file.length ≤ fuel) :
    loadTxs codec env base_height coins_count (fuel + 1) st =
      loadTxs codec env base_height coins_count fuel st := by
  induction fuel generalizing st with
  | zero =>
    have hnone : readUint256 st.coins_file = none := dif_neg (by omega)
    simp only [loadTxs, hnone]
  | succ fuel ih =>
    rw [loadTxs]
    conv => rhs; rw [loadTxs]
    split
    · rfl
    · split
      · rfl
      · rename_i txid file htxid
        split
        · rfl
        · rename_i n file' hn
          split
          · rfl
          · split
            · rfl
            · rename_i st' hst'
              apply ih
              have h₁ := readUint256_length htxid
              have h₂ := readCompactSize_length hn
              have h₃ := loadCoins_length hst'
              simp only at h₃
              omega

end

end ElektronNet
