import ElektronNet.SnapshotDownload

/-!
# Whose hash an activated snapshot has

The hash of a `UTXOSNAPSHOT` goes into the sidecar of the file that is downloaded, and
`PopulateAndValidateSnapshot` compares the coins with the sidecar.  Nothing compares either of them with
the blocks of the chain.

* `advertisedHash`      the hash of the last message that began a download of the file
* `sidecar_run`         that is what its sidecar holds, in a directory that was empty before
* `activated_set_iff`   the activated coins are the ones of the chain iff that hash is theirs
* `peers_choose`        two peers that serve different coins for one checkpoint
-/

set_option linter.unusedSectionVars false

namespace ElektronNet

open List

namespace BootstrapNode

section
variable {G : Type} [CommGroup G] (network_magic : MessageStart) (P : CChainParams)

/-- an event of the run: the hash of a message that begins a download of the file is noted -/
def noteHash (path : FileName) (st : BootstrapNode G × Option Uint256) (event : BootstrapEvent G) :
    BootstrapNode G × Option Uint256 :=
  (st.1.handle network_magic P event,
    match event with
    | .message gate _ (.utxosnapshot checkpoint_height checkpoint_hash utxo_hash file_size) =>
      if finalPath checkpoint_height checkpoint_hash = path ∧
          st.1.Begins gate checkpoint_height checkpoint_hash file_size then some utxo_hash
      else st.2
    | _ => st.2)

/-- the hash that the last `UTXOSNAPSHOT` for the file has named -/
def advertisedHash (node : BootstrapNode G) (path : FileName) (events : List (BootstrapEvent G)) :
    Option Uint256 :=
  (events.foldl (noteHash network_magic P path) (node, none)).2

variable {node : BootstrapNode G} {path : FileName}

theorem foldl_noteHash (st : BootstrapNode G × Option Uint256) (events : List (BootstrapEvent G)) :
    (events.foldl (noteHash network_magic P path) st).1 = st.1.run network_magic P events := by
  induction events generalizing st with
  | nil => rfl
  | cons event events ih => exact ih _

/-! ## the sidecars -/

theorem sidecar_ne {path other : FileName} (h : other ≠ path) : path ++ HASH ≠ other ++ HASH :=
  fun heq => h (append_cancel_right heq).symm

theorem sidecar_ne_final (path : FileName) (n : Int) (c : Uint256) : path ++ HASH ≠ finalPath n c := by
  intro h
  have hdat : isDat (finalPath n c) = true := isSuffixOf_iff_suffix.mpr (suffix_append _ DAT)
  rw [← h, isDat_hash] at hdat
  cases hdat

theorem sidecar_begunFiles (d : Directory) (n : Int) (c utxo_hash : Uint256) :
    (begunFiles d n c utxo_hash).read (path ++ HASH) =
      if finalPath n c = path then some utxo_hash.data else d.read (path ++ HASH) := by
  have hwrite : (d.write (finalPath n c ++ HASH) utxo_hash.data).read (path ++ HASH) =
      if finalPath n c = path then some utxo_hash.data else d.read (path ++ HASH) := by
    split
    · rename_i heq
      rw [heq, Directory.write_read_self]
    · rename_i hne
      exact (d.write_same _ (sidecar_ne hne)).1
  unfold begunFiles
  dsimp only
  split
  · exact hwrite
  · rw [(Directory.write_same _ _ (tempPath_ne_hash n c path).symm).1]
    exact hwrite

theorem sidecar_receiveChunk (node : BootstrapNode G) (renames : Bool) (checkpoint_hash : Uint256)
    (offset : Nat) (data : Bytes) : (node.receiveChunk renames checkpoint_hash offset data).snapshots.read
      (path ++ HASH) = node.snapshots.read (path ++ HASH) := by
  rcases node.receiveChunk_cases renames checkpoint_hash offset data with
    ⟨-, hsame⟩ | ⟨-, dl, file, -, hcases⟩
  · rw [hsame]
  have htemp := (tempPath_ne_hash dl.checkpoint_height checkpoint_hash path).symm
  have hwrite := node.snapshots.write_same (writeAt file offset data) htemp
  rcases hcases with ⟨-, heq⟩ | ⟨completed, heq⟩
  · rw [heq]
    exact (Directory.rename_same _ htemp (sidecar_ne_final _ _ _)).1.trans hwrite.1
  · rw [heq]
    exact hwrite.1

theorem sidecar_request (node : BootstrapNode G) (env : SnapshotEnv G) (rateLimited : Bool)
    (stalled : Uint256 → Bool) : (node.request network_magic P env rateLimited stalled).snapshots.read
      (path ++ HASH) = node.snapshots.read (path ++ HASH) := by
  have hswept : (if env.gate && !rateLimited then node.sweep stalled else node).snapshots.read
      (path ++ HASH) = node.snapshots.read (path ++ HASH) := by
    split
    · exact (sweptFiles_same stalled _ _ fun _ _ _ => (tempPath_ne_hash _ _ _).symm).1
    · rfl
  unfold request
  dsimp only
  split
  · exact hswept
  · exact hswept

/-- **a sidecar holds the hash that was advertised last** -/
theorem sidecar_run (hempty : node.snapshots = Directory.empty) (events : List (BootstrapEvent G)) :
    (node.run network_magic P events).snapshots.read (path ++ HASH) =
      (node.advertisedHash network_magic P path events).map (·.data) := by
  induction events using List.reverseRecOn with
  | nil =>
    show node.snapshots.read (path ++ HASH) = _
    rw [hempty]
    rfl
  | append_singleton events event ih =>
    have hlast : node.advertisedHash network_magic P path (events ++ [event]) =
        (noteHash network_magic P path (node.run network_magic P events,
          node.advertisedHash network_magic P path events) event).2 := by
      rw [advertisedHash, foldl_concat,
        show node.run network_magic P events = _ from
          (foldl_noteHash network_magic P (node, none) events).symm]
      rfl
    rw [hlast, run, foldl_concat, ← run]
    cases event with
    | request env rateLimited stalled =>
      exact (sidecar_request network_magic P _ env rateLimited stalled).trans ih
    | message gate renames message =>
      cases message with
      | snapshotdata checkpoint_hash offset data =>
        exact (sidecar_receiveChunk _ renames checkpoint_hash offset data).trans ih
      | utxosnapshot checkpoint_height checkpoint_hash utxo_hash file_size =>
        show (advertise _ gate checkpoint_height checkpoint_hash utxo_hash file_size).snapshots.read _ =
          Option.map _ (if _ then some utxo_hash else _)
        rw [advertise_eq]
        by_cases hb : (node.run network_magic P events).Begins gate checkpoint_height checkpoint_hash
          file_size
        · rw [if_pos hb]
          refine (sidecar_begunFiles _ _ _ _).trans ?_
          by_cases hpath : finalPath checkpoint_height checkpoint_hash = path
          · rw [if_pos hpath, if_pos ⟨hpath, hb⟩]
            rfl
          · rw [if_neg hpath, if_neg fun hc => hpath hc.1]
            exact ih
        · rw [if_neg hb, if_neg fun hc => hb hc.2]
          exact ih

end

end BootstrapNode

/-! ## what is activated -/

def ChainstateManager.coinsOf {G : Type} (s : ChainstateManager G) (id : Nat) : Option Utxos :=
  (s.m_chainstates.find? fun cs => cs.id == id).bind fun cs => cs.m_coins_views.map (·.coinsDB.coins)

theorem ChainstateManager.Registered.coinsOf {G : Type} [CommGroup G] {s : ChainstateManager G} {id : Nat}
    {base : Uint256} {S : Utxos} (h : s.Registered id base S) : s.coinsOf id = some S := by
  obtain ⟨cs, hcs⟩ : ∃ cs, s.m_chainstates.find? (fun cs => cs.id == id) = some cs := by
    obtain ⟨cs, hmem, hid⟩ := h.present
    exact Option.isSome_iff_exists.mp (find?_isSome.mpr ⟨cs, hmem, by simpa using hid⟩)
  obtain ⟨c, hc, -, -, hcoins⟩ :=
    (h.holds cs (mem_of_find?_eq_some hcs) (by simpa using find?_some hcs)).views
  rw [ChainstateManager.coinsOf, hcs, Option.bind_some, hc, Option.map_some, hcoins]

section
variable {G : Type} [CommGroup G] {network_magic : MessageStart} {env : SnapshotEnv G}
  {codec : CoinCodec} {M : MuHash G} {P : CChainParams}

/-- **the activated coins have the hash of the sidecar** -/
theorem SnapshotNode.activated_hash {node node' : SnapshotNode G} (hfresh : node.chainman.FreshIds)
    (h : node.maybeActivateAutomaticSnapshot network_magic env M codec P = .ok (true, node')) :
    ∃ path utxo_hash S, (node.snapshots.newest network_magic).2 = some path ∧
      node.snapshots.expectedHash path = some utxo_hash ∧
      node'.chainman.coinsOf node.chainman.nextId = some S ∧
      ChainstateManager.snapshotHashOf M P node.chainman.m_block_index node'.s_activated_snapshot_hash S =
        utxo_hash := by
  unfold maybeActivateAutomaticSnapshot at h
  split at h
  · cases h
  split at h
  · cases h
  rename_i best path hnewest
  split at h
  · cases h
  · cases h
  · cases h
  rename_i snapshot hjudge
  unfold tryActivate at h
  split at h
  · cases h
  · cases h
  rename_i chainman hact
  cases h
  obtain ⟨-, -, -, hexpected, hhashed, -⟩ := judge_tried hjudge
  obtain ⟨coins, -, hreg, hhash⟩ := ChainstateManager.activated_spelled hfresh hact
  obtain ⟨utxo_hash, hutxo⟩ := Option.isSome_iff_exists.mp hhashed
  exact ⟨path, utxo_hash, _, by rw [hnewest], hexpected.symm.trans hutxo, hreg.coinsOf,
    hhash utxo_hash hutxo⟩

/-- **Whatever the peers send, the activated coins are those of the chain iff the hash that was advertised
for the selected file is the hash of the chain's set**, unless that set and the activated one collide. -/
theorem activated_set_iff (H : Hashes) (block : Uint256 → CBlock) {node : BootstrapNode G}
    (hfresh : node.chainman.FreshIds) (hempty : node.snapshots = Directory.empty)
    (events : List (BootstrapEvent G)) {node' : SnapshotNode G}
    (h : (node.run network_magic P events).toSnapshotNode.maybeActivateAutomaticSnapshot network_magic env
      M codec P = .ok (true, node'))
    (hcollision : ∀ S, node'.chainman.coinsOf node.chainman.nextId = some S →
      ChainstateManager.snapshotHashOf M P node.chainman.m_block_index node'.s_activated_snapshot_hash S =
        ChainstateManager.snapshotHashOf M P node.chainman.m_block_index node'.s_activated_snapshot_hash
          (chainSet H node.chainman.m_block_index block node'.s_activated_snapshot_hash) →
      S = chainSet H node.chainman.m_block_index block node'.s_activated_snapshot_hash) :
    ∃ path utxo_hash,
      ((node.run network_magic P events).snapshots.newest network_magic).2 = some path ∧
      node.advertisedHash network_magic P path events = some utxo_hash ∧
      (node'.chainman.coinsOf node.chainman.nextId =
          some (chainSet H node.chainman.m_block_index block node'.s_activated_snapshot_hash) ↔
        utxo_hash = ChainstateManager.snapshotHashOf M P node.chainman.m_block_index
          node'.s_activated_snapshot_hash
          (chainSet H node.chainman.m_block_index block node'.s_activated_snapshot_hash)) := by
  have hsame := BootstrapNode.run_chainman network_magic P node events
  have hfresh' : (node.run network_magic P events).chainman.FreshIds := by rwa [hsame]
  obtain ⟨path, utxo_hash, S, hnewest, hexpected, hcoins, hhash⟩ := SnapshotNode.activated_hash hfresh' h
  rw [hsame] at hcoins hhash
  refine ⟨path, utxo_hash, hnewest, ?_, ?_⟩
  · rw [Directory.expectedHash, BootstrapNode.sidecar_run network_magic P hempty] at hexpected
    cases hadv : node.advertisedHash network_magic P path events with
    | none =>
      rw [hadv] at hexpected
      cases hexpected
    | some advertised =>
      have hread := readUint256_data advertised []
      rw [append_nil] at hread
      rw [hadv, Option.map_some, Option.bind_some, hread, Option.bind_some] at hexpected
      split at hexpected
      · cases hexpected
      · exact hexpected
  · rw [hcoins, Option.some.injEq, ← hhash]
    exact ⟨fun heq => by rw [heq], hcollision S hcoins⟩

end

/-! ## two peers -/

section
open SnapshotNode

/-- the node asks for block 100, a peer answers and sends a file with one coin -/
def sampleServed (coin : Coin) (utxo_hash : Uint256) : List (BootstrapEvent (Multiplicative ℤ)) :=
  [.request sampleSnapshotEnv false fun _ => false,
    .message true true (.utxosnapshot 100 (sampleId 100) utxo_hash (sampleDat coin).length),
    .message true true (.snapshotdata (sampleId 100) 0 (sampleDat coin))]

/-- block 1 has a coinbase with one output, the blocks above it are empty -/
def sampleMintedBlock (b : Uint256) : CBlock where
  toCBlockHeader := ⟨1, Uint256.zero, Uint256.zero, 0, 0, 0⟩
  vtx := if b = sampleId 1 then [⟨[⟨COutPoint.null, [], 0, []⟩], [⟨10, [0x51]⟩], 1, 0⟩] else []

def sampleNamed : Hashes := { sampleHashes with txid := fun _ => sampleId 7 }

def sampleMinted : Coin := ⟨⟨10, [0x51]⟩, true, 1⟩

def sampleForged : Coin := ⟨⟨1000, [0x51]⟩, true, 3⟩

theorem sampleAsking_freshIds : sampleAsking.chainman.FreshIds := by
  intro cs hcs
  rw [mem_singleton.mp hcs]
  decide

/-- the call that finds the file of one coin for block 100 -/
def sampleServedCall (coin : Coin) (utxo_hash : Uint256) :
    Except Fault (Bool × SnapshotNode (Multiplicative ℤ)) :=
  (sampleAsking.run sampleMagic ⟨regTestParams, []⟩
    (sampleServed coin utxo_hash)).toSnapshotNode.maybeActivateAutomaticSnapshot sampleMagic
    sampleSnapshotEnv sampleMuHash (coinCodec samplePubKeys) ⟨regTestParams, []⟩

theorem sampleServed_minted : ∃ node', sampleServedCall sampleMinted (sampleId 2) = .ok (true, node') ∧
    node'.s_activated_snapshot_hash = sampleId 100 ∧
    node'.chainman.coinsOf 1 = some (FMap.empty.insert ⟨sampleId 7, 0⟩ sampleMinted) := by
  decide +kernel

theorem sampleServed_forged : ∃ node', sampleServedCall sampleForged (sampleId 4) = .ok (true, node') ∧
    node'.s_activated_snapshot_hash = sampleId 100 ∧
    node'.chainman.coinsOf 1 = some (FMap.empty.insert ⟨sampleId 7, 0⟩ sampleForged) := by
  decide +kernel

theorem sampleMinted_chainSet :
    chainSet sampleNamed sampleAsking.chainman.m_block_index sampleMintedBlock (sampleId 100) =
      FMap.empty.insert ⟨sampleId 7, 0⟩ sampleMinted := by
  decide +kernel

/-- **a peer chooses the coins**: two peers answer the same request of the same node for block 100, and
each of the two files is activated; the second one has a coin that no block of the chain has made -/
theorem peers_choose :
    ∃ node₁ node₂,
      (sampleAsking.run sampleMagic ⟨regTestParams, []⟩
        (sampleServed sampleMinted (sampleId 2))).toSnapshotNode.maybeActivateAutomaticSnapshot sampleMagic
        sampleSnapshotEnv sampleMuHash (coinCodec samplePubKeys) ⟨regTestParams, []⟩ = .ok (true, node₁) ∧
      (sampleAsking.run sampleMagic ⟨regTestParams, []⟩
        (sampleServed sampleForged (sampleId 4))).toSnapshotNode.maybeActivateAutomaticSnapshot sampleMagic
        sampleSnapshotEnv sampleMuHash (coinCodec samplePubKeys) ⟨regTestParams, []⟩ = .ok (true, node₂) ∧
      node₁.s_activated_snapshot_hash = node₂.s_activated_snapshot_hash ∧
      node₁.chainman.coinsOf 1 = some (chainSet sampleNamed sampleAsking.chainman.m_block_index
        sampleMintedBlock node₁.s_activated_snapshot_hash) ∧
      node₂.chainman.coinsOf 1 ≠ some (chainSet sampleNamed sampleAsking.chainman.m_block_index
        sampleMintedBlock node₂.s_activated_snapshot_hash) := by
  obtain ⟨node₁, hcall₁, hbase₁, hcoins₁⟩ := sampleServed_minted
  obtain ⟨node₂, hcall₂, hbase₂, hcoins₂⟩ := sampleServed_forged
  have hne : (FMap.empty.insert ⟨sampleId 7, 0⟩ sampleForged : Utxos) ≠
      FMap.empty.insert ⟨sampleId 7, 0⟩ sampleMinted := by decide +kernel
  refine ⟨node₁, node₂, hcall₁, hcall₂, hbase₁.trans hbase₂.symm, ?_, ?_⟩
  · rw [hcoins₁, hbase₁, sampleMinted_chainSet]
  · rw [hcoins₂, hbase₂, sampleMinted_chainSet]
    exact fun h => hne (Option.some.inj h)

/-- the peer that serves the coins of the chain -/
theorem activated_set_iff_honest :
    ∃ node', sampleServedCall sampleMinted (sampleId 2) = .ok (true, node') ∧ ∃ path utxo_hash,
      sampleAsking.advertisedHash sampleMagic ⟨regTestParams, []⟩ path
        (sampleServed sampleMinted (sampleId 2)) = some utxo_hash ∧
      utxo_hash = ChainstateManager.snapshotHashOf sampleMuHash ⟨regTestParams, []⟩
        sampleAsking.chainman.m_block_index (sampleId 100)
        (chainSet sampleNamed sampleAsking.chainman.m_block_index sampleMintedBlock (sampleId 100)) := by
  obtain ⟨node', hcall, hbase, hcoins⟩ := sampleServed_minted
  rw [← sampleMinted_chainSet, ← hbase] at hcoins
  obtain ⟨path, utxo_hash, -, hadvertised, hiff⟩ := activated_set_iff sampleNamed sampleMintedBlock
    sampleAsking_freshIds rfl (sampleServed sampleMinted (sampleId 2)) hcall
    fun S hS _ => Option.some.inj (hS.symm.trans hcoins)
  refine ⟨node', hcall, path, utxo_hash, hadvertised, ?_⟩
  rw [← hbase]
  exact hiff.mp hcoins

end

end ElektronNet
