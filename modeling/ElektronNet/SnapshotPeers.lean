import ElektronNet.SnapshotFiles
import ElektronNet.SnapshotSpelled

/-!
# Snapshots from peers

How the bytes that peers send become a file: the handlers of `UTXOSNAPSHOT` and `SNAPSHOTDATA` of
`net_processing.cpp` and the request that they answer; and the set that such a file should hold.

* `addRange`          the ranges of the file that have arrived
* `processMessage`    one message of a peer
* `chainSet`          the set that the blocks of a chain leave, connected from genesis on
* `chain_snapshot_loads`   it goes through a snapshot unchanged
-/

set_option linter.unusedSectionVars false

namespace ElektronNet

open List

/-! ## ranges -/

/-- the ranges from the insertion point on: those that touch the new one are merged with it -/
def mergeRanges (offset stop : Nat) : List (Nat × Nat) → List (Nat × Nat)
  | [] => [(offset, stop)]
  | r :: ranges => if r.1 ≤ stop then mergeRanges offset (max stop r.2) ranges
      else (offset, stop) :: r :: ranges

/-- `SnapshotDownload::AddRange` on ranges in the order of their starts -/
def addRange (ranges : List (Nat × Nat)) (offset length : Nat) : List (Nat × Nat) :=
  if length = 0 then ranges
  else
    let earlier := ranges.takeWhile fun r => r.1 < offset
    let later := ranges.dropWhile fun r => r.1 < offset
    match earlier.getLast? with
    | none => mergeRanges offset (offset + length) later
    | some prev =>
      if prev.2 ≥ offset then
        earlier.dropLast ++ mergeRanges prev.1 (max (offset + length) prev.2) later
      else earlier ++ mergeRanges offset (offset + length) later

def rangesComplete (file_size : Nat) (ranges : List (Nat × Nat)) : Bool :=
  file_size != 0 && ranges.head?.any fun r => r.1 == 0 && decide (r.2 ≥ file_size)

/-! ## downloads -/

structure DownloadState where
  checkpoint_height : Int
  file_size : Nat
  received_ranges : List (Nat × Nat)
  completed : Bool
  utxo_hash : Uint256

def finalPath (checkpoint_height : Int) (checkpoint_hash : Uint256) : FileName :=
  formatInt checkpoint_height ++ '-' :: checkpoint_hash.getHex ++ DAT

def tempPath (checkpoint_height : Int) (checkpoint_hash : Uint256) : FileName :=
  finalPath checkpoint_height checkpoint_hash ++ DOWNLOAD

/-- 64 GiB -/
def MAX_SNAPSHOT_FILE_SIZE : Nat := 64 * 2 ^ 30

inductive PeerMessage where
  | utxosnapshot (checkpoint_height : Int) (checkpoint_hash utxo_hash : Uint256) (file_size : Nat)
  | snapshotdata (checkpoint_hash : Uint256) (offset : Nat) (data : Bytes)

/-- bytes written at an offset of a file, which is filled with zeros up to there -/
def writeAt (file : Bytes) (offset : Nat) (data : Bytes) : Bytes :=
  file.take offset ++ List.replicate (offset - file.length) 0 ++ data ++ file.drop (offset + data.length)

namespace Directory

def contains (d : Directory) (fname : FileName) : Bool := d.files.any fun f => f.1 == fname

theorem contains_iff (d : Directory) (fname : FileName) :
    d.contains fname = true ↔ fname ∈ d.files.map Prod.fst := by
  rw [contains, any_eq_true, mem_map]
  simp only [beq_iff_eq]

def write (d : Directory) (fname : FileName) (bytes : Bytes) : Directory :=
  if h : d.contains fname = true then
    { files := d.files.map fun f => if f.1 = fname then (fname, some bytes) else f
      nodup := by
        have hnames : (d.files.map fun f => if f.1 = fname then (fname, some bytes) else f).map Prod.fst =
            d.files.map Prod.fst := by
          rw [map_map]
          refine map_congr_left fun f _ => ?_
          rw [Function.comp_apply]
          split
          · rename_i hf
            exact hf.symm
          · rfl
        rw [hnames]
        exact d.nodup }
  else
    { files := d.files ++ [(fname, some bytes)]
      nodup := by
        rw [map_append, map_singleton]
        refine List.Nodup.append d.nodup (nodup_singleton _) ?_
        intro x hx hx'
        rw [mem_singleton] at hx'
        subst hx'
        exact h ((contains_iff d x).mpr hx) }

end Directory

structure BootstrapNode (G : Type) extends SnapshotNode G where
  m_snapshot_bootstrap_target : Uint256
  m_snapshot_downloads : FMap Uint256 DownloadState

namespace BootstrapNode

section
variable {G : Type} [CommGroup G]

/-- `UTXOSNAPSHOT`: a download begins, if this is the checkpoint that was asked for -/
def advertise (node : BootstrapNode G) (gate : Bool) (checkpoint_height : Int)
    (checkpoint_hash utxo_hash : Uint256) (file_size : Nat) : BootstrapNode G :=
  if checkpoint_hash = node.m_snapshot_bootstrap_target ∧ gate = true ∧
      node.m_snapshot_downloads.get checkpoint_hash = none then
    if file_size > MAX_SNAPSHOT_FILE_SIZE then node
    else if node.snapshots.contains (finalPath checkpoint_height checkpoint_hash) then node
    else
      let temp_path := tempPath checkpoint_height checkpoint_hash
      let d := node.snapshots.write (finalPath checkpoint_height checkpoint_hash ++ HASH) utxo_hash.data
      { node with
        snapshots := if d.contains temp_path then d else d.write temp_path []
        m_snapshot_downloads := node.m_snapshot_downloads.insert checkpoint_hash
          ⟨checkpoint_height, file_size, [], false, utxo_hash⟩ }
  else node

/-- the message begins a download -/
def Begins (node : BootstrapNode G) (gate : Bool) (checkpoint_height : Int)
    (checkpoint_hash : Uint256) (file_size : Nat) : Prop :=
  (checkpoint_hash = node.m_snapshot_bootstrap_target ∧ gate = true ∧
      node.m_snapshot_downloads.get checkpoint_hash = none) ∧
    file_size ≤ MAX_SNAPSHOT_FILE_SIZE ∧
    node.snapshots.contains (finalPath checkpoint_height checkpoint_hash) = false

instance (node : BootstrapNode G) (gate : Bool) (checkpoint_height : Int) (checkpoint_hash : Uint256)
    (file_size : Nat) : Decidable (node.Begins gate checkpoint_height checkpoint_hash file_size) :=
  inferInstanceAs (Decidable (_ ∧ _ ∧ _))

/-- `SNAPSHOTDATA`: a chunk goes into the temporary file, which is renamed when it is complete; an entry
whose file cannot be renamed waits for the sweep -/
def receiveChunk (node : BootstrapNode G) (renames : Bool) (checkpoint_hash : Uint256) (offset : Nat)
    (data : Bytes) : BootstrapNode G :=
  match node.m_snapshot_downloads.get checkpoint_hash with
  | none => node
  | some dl =>
    if dl.completed = false ∧ offset < dl.file_size ∧ data ≠ [] ∧
        offset + data.length ≤ dl.file_size then
      let temp_path := tempPath dl.checkpoint_height checkpoint_hash
      let final_path := finalPath dl.checkpoint_height checkpoint_hash
      match node.snapshots.read temp_path with
      | none => node
      | some file =>
        let d := node.snapshots.write temp_path (writeAt file offset data)
        let dl := { dl with received_ranges := addRange dl.received_ranges offset data.length }
        if rangesComplete dl.file_size dl.received_ranges = true ∧
            d.contains (final_path ++ HASH) = true ∧ dl.utxo_hash.isNull = false then
          if renames then
            { node with
              snapshots := d.rename temp_path final_path
              m_snapshot_downloads := node.m_snapshot_downloads.erase checkpoint_hash }
          else
            { node with
              snapshots := d
              m_snapshot_downloads := node.m_snapshot_downloads.insert checkpoint_hash
                { dl with completed := true } }
        else
          { node with
            snapshots := d
            m_snapshot_downloads := node.m_snapshot_downloads.insert checkpoint_hash dl }
    else node

/-- `gate`: the node is in initial block download, stuck on an invalid chain, or far behind; `renames`: a
complete file can be renamed -/
def processMessage (node : BootstrapNode G) (gate renames : Bool) : PeerMessage → BootstrapNode G
  | .utxosnapshot checkpoint_height checkpoint_hash utxo_hash file_size =>
    node.advertise gate checkpoint_height checkpoint_hash utxo_hash file_size
  | .snapshotdata checkpoint_hash offset data => node.receiveChunk renames checkpoint_hash offset data

/-- the downloads that `MaybeRequestSnapshot` gives up -/
def sweep (node : BootstrapNode G) (stalled : Uint256 → Bool) : BootstrapNode G :=
  { node with
    snapshots := node.m_snapshot_downloads.toList.foldl (fun d e =>
      if !e.2.completed && stalled e.1 then d.remove (tempPath e.2.checkpoint_height e.1) else d)
      node.snapshots
    m_snapshot_downloads := node.m_snapshot_downloads.toList.foldl (fun downloads e =>
      if e.2.completed || stalled e.1 then downloads.erase e.1 else downloads)
      node.m_snapshot_downloads }

section
variable (network_magic : MessageStart) (P : CChainParams)

/-- the node as `MaybeRequestSnapshot` sees it -/
def syncState (node : BootstrapNode G) (env : SnapshotEnv G) (rateLimited : Bool)
    (stalled : Uint256 → Bool) : SyncState :=
  { node.toSnapshotNode.sync network_magic env P with
    rateLimited := rateLimited
    m_snapshot_downloads := node.m_snapshot_downloads.toList.map fun e =>
      ⟨e.1, e.2.completed, stalled e.1⟩ }

/-- `MaybeRequestSnapshot`; `GETUTXOSNAPSHOT` goes to the peers for the checkpoint that is set -/
def request (node : BootstrapNode G) (env : SnapshotEnv G) (rateLimited : Bool)
    (stalled : Uint256 → Bool) : BootstrapNode G :=
  let swept := if env.gate && !rateLimited then node.sweep stalled else node
  match (node.syncState network_magic P env rateLimited stalled).maybeRequestSnapshot with
  | none => swept
  | some checkpoint_hash => { swept with m_snapshot_bootstrap_target := checkpoint_hash }

end

end

end BootstrapNode

/-- what happens between two calls of `MaybeActivateAutomaticSnapshot`; what the peers send is up to them -/
inductive BootstrapEvent (G : Type) where
  | message (gate renames : Bool) (message : PeerMessage)
  | request (env : SnapshotEnv G) (rateLimited : Bool) (stalled : Uint256 → Bool)

namespace BootstrapNode

section
variable {G : Type} [CommGroup G] (network_magic : MessageStart) (P : CChainParams)

def handle (node : BootstrapNode G) : BootstrapEvent G → BootstrapNode G
  | .message gate renames message => node.processMessage gate renames message
  | .request env rateLimited stalled => node.request network_magic P env rateLimited stalled

def run (node : BootstrapNode G) (events : List (BootstrapEvent G)) : BootstrapNode G :=
  events.foldl (handle network_magic P) node

theorem handle_chainman (node : BootstrapNode G) (event : BootstrapEvent G) :
    (node.handle network_magic P event).chainman = node.chainman := by
  cases event with
  | message gate renames message =>
    cases message with
    | utxosnapshot checkpoint_height checkpoint_hash utxo_hash file_size =>
      show (node.advertise gate checkpoint_height checkpoint_hash utxo_hash file_size).chainman = _
      unfold advertise
      split
      · split
        · rfl
        · split <;> rfl
      · rfl
    | snapshotdata checkpoint_hash offset data =>
      show (node.receiveChunk renames checkpoint_hash offset data).chainman = _
      unfold receiveChunk
      split
      · rfl
      · split
        · dsimp only
          split
          · rfl
          · split
            · split <;> rfl
            · rfl
        · rfl
  | request env rateLimited stalled =>
    show (node.request network_magic P env rateLimited stalled).chainman = _
    have hswept : (if env.gate && !rateLimited then node.sweep stalled else node).chainman =
        node.chainman := by
      split <;> rfl
    unfold request
    dsimp only
    split
    · exact hswept
    · exact hswept

theorem run_chainman (node : BootstrapNode G) (events : List (BootstrapEvent G)) :
    (node.run network_magic P events).chainman = node.chainman := by
  induction events generalizing node with
  | nil => rfl
  | cons event events ih =>
    show ((node.handle network_magic P event).run network_magic P events).chainman = _
    rw [ih, handle_chainman]

end

end BootstrapNode

/-! ## the set of a chain -/

section
variable (H : Hashes) (m : BlockMap) (block : Uint256 → CBlock)

/-- the blocks of a path down to genesis, whose outputs are not spendable -/
def connectPath : List Uint256 → Utxos
  | [] => FMap.empty
  | b :: path =>
    if (m.pprev b).isSome then applyTxs H (m.nHeight b) (block b).vtx (connectPath path) else FMap.empty

def chainSet (b : Uint256) : Utxos := connectPath H m block (m.forest.path b)

theorem chainSet_child {b p : Uint256} (h : m.pprev b = some p) :
    chainSet H m block b = applyTxs H (m.nHeight b) (block b).vtx (chainSet H m block p) := by
  rw [chainSet, Forest.path_parent _ h, connectPath, h]
  rfl

/-- **`ConnectBlock` goes from the set of the parent to the set of the block** -/
theorem connectBlock_chainSet {G : Type} [CommGroup G] {M : MuHash G} {rules : BlockRules}
    {s : CoinsState G} {undo : UndoStore} {pos : BlockPlace} {view : CCoinsViewCache} {writable : Bool}
    {out : Connected G} {p : Uint256} (hv : view.Ok) (hempty : view.cacheCoins = FMap.empty)
    (hbip : ∀ pprev, pos.pprev = some pprev → enforceBIP30 rules m pos pprev = true)
    (hparent : m.pprev pos.hash = some p) (hheight : pos.nHeight = m.nHeight pos.hash)
    (hgenesis : pos.hash ≠ rules.hashGenesisBlock) (hset : view.utxos = chainSet H m block p)
    (h : connectBlock M H rules s undo m (block pos.hash) pos view writable false true = .ok out)
    (hvalid : out.verdict = .valid) : out.view.utxos = chainSet H m block pos.hash := by
  obtain ⟨hg, -⟩ | ⟨-, -, -, hutxos, -⟩ := (connectBlock_valid hv hempty hbip h hvalid).effect
  · exact absurd hg hgenesis
  · rw [hutxos, hset, hheight, chainSet_child H m block hparent]

end

def sampleAsking : BootstrapNode (Multiplicative ℤ) where
  toSnapshotNode := SnapshotNode.sampleBootstrap Directory.empty
  m_snapshot_bootstrap_target := Uint256.zero
  m_snapshot_downloads := FMap.empty

/-! ## a snapshot of a chain -/

section
variable {H : Hashes} {m : BlockMap} {block : Uint256 → CBlock} {b : Uint256}
  (hheight : m.nHeight b < 2 ^ 31)
  (htxs : ∀ a ∈ m.forest.path b, ∀ tx ∈ (block a).vtx, checkTransaction tx = .ok ())
include hheight htxs

theorem chainSet_loadable : LoadableSet (m.nHeight b) (chainSet H m block b) := by
  induction b using m.forest.path_induction with
  | root b hp =>
    rw [chainSet, m.forest.path_root hp, connectPath, show m.pprev b = none from hp]
    exact FMap.all_empty _
  | child b p hp ih =>
    have hh : m.nHeight b = m.nHeight p + 1 := m.forest.height_parent b p hp
    have hpath := m.forest.path_parent hp
    rw [chainSet_child H m block hp]
    refine loadableSet_applyTxs (ih (by omega) fun a ha => htxs a ?_) (by omega) hheight (htxs b ?_)
    all_goals simp [*]

/-- **the set of a chain goes through a snapshot unchanged**, if the transactions of its blocks were
checked: the loader takes every coin of it -/
theorem chain_snapshot_loads {K : PubKeys} {env : LoadEnv} (henv : env.Undisturbed) (hb : b.isNull = false) :
    ∃ c d, loadSnapshot (coinCodec K) env (m.nHeight b) (chainSet H m block b).card b
        ((snapshotGroups (cursor (chainSet H m block b))).flatMap (writeGroup K))
        (CCoinsViewCache.new (.db CCoinsViewDB.empty)) = .ok c ∧
      c.base = .db d ∧ d.coins = chainSet H m block b ∧ d.bestBlock = b :=
  loadSnapshot_written henv (chainSet_loadable hheight htxs) hb

end

def samplePaying (_ : Uint256) : CBlock :=
  ⟨⟨1, Uint256.zero, Uint256.zero, 0, 0, 0⟩, [⟨[⟨COutPoint.null, [1, 1], 0, []⟩], [⟨10, [0x51]⟩], 1, 0⟩]⟩

theorem chain_snapshot_loads_three :
    let S := chainSet sampleHashes sampleForkIndex samplePaying (sampleId 3)
    ∃ c d, loadSnapshot (coinCodec samplePubKeys) sampleLoadEnv 2 S.card (sampleId 3)
        ((snapshotGroups (cursor S)).flatMap (writeGroup samplePubKeys))
        (CCoinsViewCache.new (.db CCoinsViewDB.empty)) = .ok c ∧
      c.base = .db d ∧ d.coins = S ∧ d.bestBlock = sampleId 3 :=
  chain_snapshot_loads (m := sampleForkIndex) (b := sampleId 3) (by decide) (by decide)
    ⟨fun _ => rfl, rfl, fun _ => rfl⟩ rfl

end ElektronNet
