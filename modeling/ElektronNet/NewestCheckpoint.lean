import ElektronNet.FailedRecovery
import ElektronNet.SnapshotDownload
import ElektronNet.SnapshotReplace

/-!
# The newest checkpoint

`MaybeActivateAutomaticSnapshot` takes the file with the greatest height in its name.  A file that the node
wrote carries the height of its block; one that was downloaded carries the height that a peer advertised.

* `Labelled`            the height in a name is the height of the block in the name, in the block index
* `writeAutomaticSnapshot`   what `WriteAutomaticSnapshot` does to the directory
* `CheckpointStep`      the life of the directory: peers, restarts, new blocks, checkpoints, activations
* `Honest`              an advertisement that begins a download carries the height of its block, and a
                        restart loses no block
* `selects_newest`      along honest steps the selected file is of the highest block
* `older_checkpoint_selected`   one false height, and the older of two checkpoints is selected
-/

set_option linter.unusedSectionVars false

namespace ElektronNet

open List Outcome SyncState

/-! ## names -/

theorem Uint256.hexValue_hexDigit : ∀ n < 16, hexValue (hexDigit n) = some n := by
  decide

theorem Uint256.hexBytes_hexDigits (l : Bytes) :
    hexBytes (l.flatMap fun b => [hexDigit (b.toNat / 16), hexDigit (b.toNat % 16)]) = some l := by
  induction l with
  | nil => rfl
  | cons b l ih =>
    have hb := b.toNat_lt
    have hbyte : UInt8.ofNat (16 * (b.toNat / 16) + b.toNat % 16) = b := by
      rw [Nat.div_add_mod]
      exact UInt8.ofNat_toNat
    show hexBytes (hexDigit (b.toNat / 16) :: hexDigit (b.toNat % 16) ::
      l.flatMap fun b => [hexDigit (b.toNat / 16), hexDigit (b.toNat % 16)]) = _
    rw [hexBytes, hexValue_hexDigit _ (by omega), hexValue_hexDigit _ (by omega), ih]
    dsimp only
    rw [hbyte]

theorem Uint256.fromHex_getHex (a : Uint256) : fromHex a.getHex = some a := by
  unfold fromHex
  rw [getHex, hexBytes_hexDigits]
  dsimp only
  rw [dif_pos (by rw [reverse_reverse]; exact a.size_eq)]
  exact congrArg some (Uint256.data_injective (reverse_reverse _))

theorem splitDash_append {l r : FileName} (h : '-' ∉ l) : splitDash (l ++ '-' :: r) = some (l, r) := by
  induction l with
  | nil => rfl
  | cons c l ih =>
    rw [mem_cons, not_or] at h
    rw [cons_append, splitDash, if_neg (fun hc => h.1 hc.symm), ih h.2]
    rfl

theorem stoi_toDigits {n : Nat} {h : Int} (hs : stoi (Nat.toDigits 10 n) = some h) : h = n := by
  have hdigit : ∀ c ∈ Nat.toDigits 10 n, c.isDigit = true :=
    fun c hc => Nat.isDigit_of_mem_toDigits (by decide) (by decide) hc
  have hsigned : readSign ((Nat.toDigits 10 n).dropWhile isSpace) = (false, Nat.toDigits 10 n) := by
    cases hd : Nat.toDigits 10 n with
    | nil => rfl
    | cons c cs =>
      have hc : c.isDigit = true := hdigit c (by rw [hd]; exact mem_cons_self)
      have hrange : 48 ≤ c.toNat ∧ c.toNat ≤ 57 := by
        simpa [Char.isDigit, UInt32.le_iff_toNat_le] using hc
      have hspace : isSpace c = false := by
        simp only [isSpace, Bool.or_eq_false_iff, Bool.and_eq_false_iff, beq_eq_false_iff_ne,
          decide_eq_false_iff_not]
        omega
      rw [dropWhile_cons, hspace]
      unfold readSign
      split
      · rename_i heq
        obtain ⟨rfl, -⟩ := List.cons.inj heq
        exact absurd hrange (by decide)
      · rename_i heq
        obtain ⟨rfl, -⟩ := List.cons.inj heq
        exact absurd hrange (by decide)
      · rfl
  have hall : (Nat.toDigits 10 n).takeWhile Char.isDigit = Nat.toDigits 10 n :=
    takeWhile_eq_self_iff.mpr hdigit
  have hvalue : (Nat.toDigits 10 n).foldl (fun n c => 10 * n + (c.toNat - 48)) 0 = n :=
    Nat.ofDigitChars_toDigits (by decide) (by decide)
  unfold stoi at hs
  rw [hsigned] at hs
  dsimp only at hs
  rw [hall, hvalue] at hs
  simp only [Bool.false_eq_true, if_false] at hs
  split at hs
  · cases hs
  split at hs
  · cases hs
    rfl
  · cases hs

/-- **the name of a snapshot says what it was made from** -/
theorem snapshotHeight_finalPath {n h : Int} {b : Uint256} (hs : snapshotHeight (finalPath n b) = some h) :
    h = n ∧ (hashPart (finalPath n b)).bind Uint256.fromHex = some b := by
  unfold snapshotHeight at hs
  split at hs
  swap
  · cases hs
  cases n with
  | negSucc n =>
    -- the sign is the first dash
    cases hs
  | ofNat n =>
    have hsplit : splitDash (finalPath (Int.ofNat n) b) = some (Nat.toDigits 10 n, b.getHex ++ DAT) := by
      unfold finalPath formatInt
      rw [append_assoc]
      refine splitDash_append fun hdash => ?_
      exact absurd (Nat.isDigit_of_mem_toDigits (by decide) (by decide) hdash) (by decide)
    rw [hsplit] at hs
    refine ⟨stoi_toDigits hs, ?_⟩
    have htake : (b.getHex ++ DAT).take 64 = b.getHex := by
      rw [← length_getHex b]
      exact take_left
    rw [hashPart, hsplit, Option.map_some, htake]
    exact Uint256.fromHex_getHex b

variable {fname : FileName} {m : BlockMap}

theorem snapshotHeight_of_not_dat (h : isDat fname = false) : snapshotHeight fname = none := by
  unfold snapshotHeight
  rw [show DAT.isSuffixOf fname = false from h]
  rfl

theorem isDat_tempPath (n : Int) (b : Uint256) : isDat (tempPath n b) = false :=
  isDat_append (by decide) (by decide) _

/-! ## heights in the block index -/

namespace BlockMap

def Keeps (m m' : BlockMap) : Prop :=
  ∀ b e, m.entries.get b = some e → ∃ e', m'.entries.get b = some e' ∧ e'.nHeight = e.nHeight

theorem Updated.keeps {m m' : BlockMap} (h : Updated m m') : Keeps m m' := by
  obtain ⟨f, rfl⟩ := h
  intro b e he
  exact ⟨{ e with toBlockIndexState := f b e }, by rw [update_get, he]; rfl, rfl⟩

end BlockMap

def baseHeight (m : BlockMap) (fname : FileName) : Int :=
  (((hashPart fname).bind Uint256.fromHex).bind m.entries.get).elim (-1) fun e => (e.nHeight : Int)

def Labelled (m : BlockMap) (fname : FileName) : Prop :=
  ∀ h, snapshotHeight fname = some h → ∃ b e, (hashPart fname).bind Uint256.fromHex = some b ∧
    m.entries.get b = some e ∧ (e.nHeight : Int) = h

theorem Labelled.of_not_dat (h : isDat fname = false) : Labelled m fname := by
  intro k hk
  rw [snapshotHeight_of_not_dat h] at hk
  cases hk

theorem Labelled.keeps {m' : BlockMap} (h : Labelled m fname) (hm : m.Keeps m') :
    Labelled m' fname := by
  intro k hk
  obtain ⟨b, e, hb, he, hheight⟩ := h k hk
  obtain ⟨e', he', hsame⟩ := hm b e he
  exact ⟨b, e', hb, he', by rw [hsame, hheight]⟩

theorem Labelled.baseHeight (h : Labelled m fname) {k : Int} (hk : snapshotHeight fname = some k) :
    baseHeight m fname = k := by
  obtain ⟨b, e, hb, he, hheight⟩ := h k hk
  rw [ElektronNet.baseHeight, hb, Option.bind_some, he]
  exact hheight

/-- the height is the one that the index has for the block; a negative one is never looked at -/
def TrueHeight (m : BlockMap) (checkpoint_height : Int) (checkpoint_hash : Uint256) : Prop :=
  checkpoint_height < 0 ∨
    ∃ e, m.entries.get checkpoint_hash = some e ∧ checkpoint_height = (e.nHeight : Int)

variable {checkpoint_hash : Uint256} {checkpoint_height : Int}

theorem TrueHeight.labelled (h : TrueHeight m checkpoint_height checkpoint_hash) :
    Labelled m (finalPath checkpoint_height checkpoint_hash) := by
  intro k hk
  obtain ⟨rfl, hhash⟩ := snapshotHeight_finalPath hk
  rcases h with hneg | ⟨e, he, hheight⟩
  · exfalso
    cases k with
    | ofNat n => exact absurd hneg (by simp)
    | negSucc n =>
      unfold snapshotHeight at hk
      split at hk <;> cases hk
  · exact ⟨checkpoint_hash, e, hhash, he, hheight.symm⟩

theorem TrueHeight.keeps {m' : BlockMap}
    (h : TrueHeight m checkpoint_height checkpoint_hash) (hm : m.Keeps m') :
    TrueHeight m' checkpoint_height checkpoint_hash := by
  rcases h with hneg | ⟨e, he, hheight⟩
  · exact .inl hneg
  · obtain ⟨e', he', hsame⟩ := hm _ e he
    exact .inr ⟨e', he', by rw [hsame, hheight]⟩

/-! ## the directory -/

def INCOMPLETE : FileName := ['.', 'i', 'n', 'c', 'o', 'm', 'p', 'l', 'e', 't', 'e']

theorem isDat_incomplete (fname : FileName) : isDat (fname ++ INCOMPLETE) = false :=
  isDat_append (by decide) (by decide) fname

/-- how far `WriteAutomaticSnapshot` comes -/
inductive SnapshotWritten where
  /-- the temporary file cannot be opened -/
  | unopened
  /-- the coins cannot be counted, their number is wrong, or the file cannot be closed or renamed -/
  | incomplete (file : Bytes)
  /-- the sidecar cannot be written -/
  | unhashed (file : Bytes)
  | hashed (file : Bytes) (snapshot_hash : Uint256)

namespace Directory

def writeAutomaticSnapshot (d : Directory) (params : ConsensusParams) (nHeight : Nat) (hash : Uint256)
    (written : SnapshotWritten) : Directory :=
  if nHeight = 0 ∨ nHeight % params.MandatoryPruneDepth ≠ 0 then d
  else
    let snapshot_path := finalPath nHeight hash
    let temppath := snapshot_path ++ INCOMPLETE
    if d.contains snapshot_path then d
    else
      match written with
      | .unopened => d
      | .incomplete file => d.write temppath file
      | .unhashed file => ((d.write temppath file).rename temppath snapshot_path).remove snapshot_path
      | .hashed file snapshot_hash =>
        (((d.write temppath file).rename temppath snapshot_path).write (snapshot_path ++ HASH)
          snapshot_hash.data).cleanup (formatInt nHeight ++ '-' :: hash.getHex)

def Labels (m : BlockMap) (d : Directory) : Prop := ∀ f ∈ d.files, Labelled m f.1

variable {m : BlockMap} {d : Directory}

theorem Labels.keeps {m' : BlockMap} (h : Labels m d) (hm : m.Keeps m') : Labels m' d :=
  fun f hf => (h f hf).keeps hm

theorem Labels.remove (h : Labels m d) (fname : FileName) : Labels m (d.remove fname) :=
  fun f hf => h f (mem_of_mem_filter hf)

theorem Labels.cleanup (h : Labels m d) (activated : FileName) : Labels m (d.cleanup activated) :=
  fun f hf => h f (mem_of_mem_filter hf)

theorem Labels.write (h : Labels m d) (hname : Labelled m fname) (bytes : Bytes) :
    Labels m (d.write fname bytes) := by
  intro f hf
  unfold Directory.write at hf
  split at hf
  · obtain ⟨g, hg, rfl⟩ := mem_map.mp hf
    split
    · exact hname
    · exact h g hg
  · rcases mem_append.mp hf with hf | hf
    · exact h f hf
    · rw [mem_singleton.mp hf]
      exact hname

theorem Labels.rename (h : Labels m d) {target : FileName} (htarget : Labelled m target)
    (path : FileName) : Labels m (d.rename path target) := by
  intro f hf
  obtain ⟨g, hg, rfl⟩ := mem_map.mp hf
  show Labelled m (renamed path target g.1)
  unfold renamed
  split
  · exact htarget
  · exact h.remove target g hg

theorem Labels.begunFiles (h : Labels m d) (checkpoint_height : Int)
    (checkpoint_hash utxo_hash : Uint256) :
    Labels m (begunFiles d checkpoint_height checkpoint_hash utxo_hash) := by
  have hside := h.write (.of_not_dat (isDat_hash (finalPath checkpoint_height checkpoint_hash)))
    utxo_hash.data
  unfold ElektronNet.begunFiles
  dsimp only
  split
  · exact hside
  · exact hside.write (.of_not_dat (isDat_tempPath _ _)) []

theorem Labels.writeAutomaticSnapshot (h : Labels m d) (params : ConsensusParams) {hash : Uint256}
    {e : CBlockIndex} (he : m.entries.get hash = some e) (written : SnapshotWritten) :
    Labels m (d.writeAutomaticSnapshot params e.nHeight hash written) := by
  have hfinal : Labelled m (finalPath e.nHeight hash) :=
    TrueHeight.labelled (.inr ⟨e, he, rfl⟩)
  have htemp : ∀ file, Labels m (d.write (finalPath e.nHeight hash ++ INCOMPLETE) file) := fun file =>
    h.write (.of_not_dat (isDat_incomplete _)) file
  unfold Directory.writeAutomaticSnapshot
  split
  · exact h
  dsimp only
  split
  · exact h
  cases written with
  | unopened => exact h
  | incomplete file => exact htemp file
  | unhashed file => exact ((htemp file).rename hfinal _).remove _
  | hashed file snapshot_hash =>
    exact (((htemp file).rename hfinal _).write (.of_not_dat (isDat_hash _)) _).cleanup _

end Directory

/-! ## what a call does to the block index -/

namespace ChainstateManager

section
variable {G : Type} [CommGroup G]

theorem unstick_updated (s : ChainstateManager G) (base : Uint256) :
    s.m_block_index.Updated (s.unstick base).m_block_index := by
  unfold unstick currentSelection
  split
  · exact .refl _
  · split
    · exact .refl _
    · exact ⟨_, rfl⟩

theorem closeOldSnapshot_updated (s : ChainstateManager G) :
    s.m_block_index.Updated s.closeOldSnapshot.m_block_index := by
  unfold closeOldSnapshot
  split
  · exact .refl _
  · split
    · exact .refl _
    · exact ⟨_, rfl⟩

theorem markBase_updated (P : CChainParams) (env : LoadEnv) (m : BlockMap) (base : Uint256)
    (base_height : Nat) : m.Updated (markBase P env m base base_height) :=
  BlockMap.Updated.trans ⟨_, rfl⟩ ⟨_, rfl⟩

variable {s s' : ChainstateManager G}

theorem registerSnapshot_tree {env : ActivationEnv G} {new : Chainstate G}
    {base_blockhash : Uint256} {old : Option Nat} {r : Except String Uint256}
    (h : s.registerSnapshot env new base_blockhash old = .ok (r, s')) :
    s'.toBlockTree = s.toBlockTree := by
  obtain ⟨s₁, hadd, hrest⟩ := bind_eq_ok.mp h
  obtain ⟨s₂, hreb, hdone⟩ := bind_eq_ok.mp hrest
  cases hdone
  obtain ⟨prev, curr, -, -, -, -, htree⟩ := addChainstate_spec hadd
  rw [(maybeRebalanceCaches_spec hreb).tree, ← htree]
  unfold populateCurrent
  cases old with
  | none => split <;> rfl
  | some i => split <;> rfl

theorem handOver_tree {mempool : Option CTxMemPool} (h : s.handOver mempool = .ok s') :
    s'.toBlockTree = s.toBlockTree := by
  unfold handOver at h
  split at h
  · cases h
    rfl
  split at h
  · cases h
  split at h
  · cases h
  split at h
  · cases h
  · cases h
    rfl

theorem deleteChainstate_tree {id : Nat} {removed ok : Bool} {dirLeft : Option (SnapshotDir G)}
    (h : s.deleteChainstate id removed dirLeft = .ok (ok, s')) :
    s'.toBlockTree = s.toBlockTree := by
  unfold deleteChainstate at h
  split at h
  · cases h
  dsimp only at h
  split at h
  · cases h
  split at h
  · cases h
    rfl
  · obtain ⟨s₁, hhand, hdone⟩ := bind_eq_ok.mp h
    cases hdone
    have htree := handOver_tree hhand
    exact htree

theorem discardHistorical_tree {removed : Bool} (h : s.discardHistorical removed = .ok s') :
    s'.toBlockTree = s.toBlockTree := by
  unfold discardHistorical at h
  split at h
  · cases h
    rfl
  split at h
  · cases h
  · rename_i s₁ hdel
    cases h
    have htree := deleteChainstate_tree hdel
    exact htree
  · rename_i s₁ hdel
    have htree := deleteChainstate_tree hdel
    split at h
    · cases h
    · cases h
      exact htree

section
variable {M : MuHash G} {codec : CoinCodec} {P : CChainParams}

theorem activateSnapshot_updated {env : ActivationEnv G} {coins_file : Bytes}
    {metadata : SnapshotMetadata} {in_memory verify : Bool} {expected_utxo_hash : Option Uint256}
    {r : Except String Uint256}
    (h : activateSnapshot M codec P env s coins_file metadata in_memory verify expected_utxo_hash =
      .ok (r, s')) : s.m_block_index.Updated s'.m_block_index := by
  unfold activateSnapshot at h
  split at h
  · cases h
  split at h
  · cases h
    exact .refl _
  obtain ⟨s₁, hresize, hpop⟩ := bind_eq_ok.mp h
  have htree : s₁.m_block_index = s.m_block_index :=
    congrArg BlockTree.m_block_index (resizeCurrent_spec hresize).tree
  rw [← htree]
  refine (closeOldSnapshot_updated s₁).trans ?_
  cases r with
  | error reason =>
    obtain ⟨m, dir, reason', hclean, hwhy⟩ := populateSnapshot_error hpop
    obtain ⟨s₂, hreb, -, hindex⟩ := cleanupBadSnapshot_spec hclean
    have hm : s'.m_block_index = m :=
      hindex.trans (congrArg BlockTree.m_block_index (maybeRebalanceCaches_spec hreb).tree)
    rw [hm]
    rcases hwhy with ⟨-, rfl⟩ | ⟨-, -, start, -, rfl⟩
    · exact .refl _
    · exact markBase_updated P env.load _ _ _
  | ok base =>
    obtain ⟨s₂, new, populated, -, -, -, hpopulate, -, hreg, hindex, -⟩ := populateSnapshot_ok hpop
    obtain ⟨start, -, -, -, -, hmark⟩ := populate_cases M codec P _ _ hpopulate
    rw [registerSnapshot_tree hreg, hindex, hmark]
    exact markBase_updated P env.load _ _ _

theorem maybeActivateAutomaticSnapshot_updated
    {snapshot : AutomaticSnapshot G} {activated : Bool}
    (h : s.maybeActivateAutomaticSnapshot M codec P snapshot = .ok (activated, s')) :
    s.m_block_index.Updated s'.m_block_index := by
  unfold maybeActivateAutomaticSnapshot at h
  split at h
  · cases h
    exact .refl _
  split at h
  · cases h
    exact .refl _
  dsimp only at h
  have hunstick : s.m_block_index.Updated (if snapshot.stuck_on_invalid_chain
      then s.unstick snapshot.metadata.m_base_blockhash else s).m_block_index := by
    split
    · exact unstick_updated s _
    · exact .refl _
  split at h
  · cases h
  · rename_i reason s₁ hact
    cases h
    exact hunstick.trans (activateSnapshot_updated hact)
  · rename_i base s₁ hact
    obtain ⟨s₂, hdiscard, hdone⟩ := bind_eq_ok.mp h
    cases hdone
    rw [discardHistorical_tree hdiscard]
    exact hunstick.trans (activateSnapshot_updated hact)

end

end

end ChainstateManager

/-! ## the life of the directory -/

/-- what happens to a node with its snapshots -/
inductive CheckpointEvent (G : Type) where
  | peers (event : BootstrapEvent G)
  /-- `chainman` is what the node loads when it comes up -/
  | restart (chainman : ChainstateManager G)
  /-- headers and blocks are processed -/
  | chain (chainman : ChainstateManager G)
  /-- a block is connected, and `WriteAutomaticSnapshot` runs for it -/
  | connected (hash : Uint256) (written : SnapshotWritten)
  | activate (env : SnapshotEnv G)

section
variable {G : Type} [CommGroup G] (network_magic : MessageStart) (M : MuHash G) (codec : CoinCodec)
  (P : CChainParams)

inductive CheckpointStep : BootstrapNode G → CheckpointEvent G → BootstrapNode G → Prop
  | peers (node : BootstrapNode G) (event : BootstrapEvent G) :
    CheckpointStep node (.peers event) (node.handle network_magic P event)
  | restart (node : BootstrapNode G) (chainman : ChainstateManager G) :
    CheckpointStep node (.restart chainman) (node.restart chainman)
  | chain {node : BootstrapNode G} {chainman : ChainstateManager G}
    (h : node.chainman.m_block_index.Keeps chainman.m_block_index) :
    CheckpointStep node (.chain chainman) { node with chainman := chainman }
  | connected {node : BootstrapNode G} {hash : Uint256} {e : CBlockIndex}
    (h : node.chainman.m_block_index.entries.get hash = some e) (written : SnapshotWritten) :
    CheckpointStep node (.connected hash written)
      { node with
        snapshots := node.snapshots.writeAutomaticSnapshot P.consensus e.nHeight hash written }
  | activate {node : BootstrapNode G} {env : SnapshotEnv G} {activated : Bool} {node' : SnapshotNode G}
    (h : node.toSnapshotNode.maybeActivateAutomaticSnapshot network_magic env M codec P =
      .ok (activated, node')) :
    CheckpointStep node (.activate env) { node with toSnapshotNode := node' }

def Honest (node : BootstrapNode G) : CheckpointEvent G → Prop
  | .peers (.message _ _ (.utxosnapshot checkpoint_height checkpoint_hash _ _)) =>
    checkpoint_hash = node.m_snapshot_bootstrap_target →
      TrueHeight node.chainman.m_block_index checkpoint_height checkpoint_hash
  | .restart chainman => node.chainman.m_block_index.Keeps chainman.m_block_index
  | _ => True

/-- no other file that is looked at is of a higher block than the selected one -/
def SelectsNewest (node : SnapshotNode G) : Prop :=
  ∀ best path, node.snapshots.newest network_magic = (best, some path) →
    ∀ f ∈ node.snapshots.files, (snapshotHeight f.1).isSome = true →
      baseHeight node.chainman.m_block_index f.1 ≤ baseHeight node.chainman.m_block_index path

/-- the files and the downloads carry the heights of their blocks -/
structure TrueLabels (node : BootstrapNode G) : Prop where
  files : node.snapshots.Labels node.chainman.m_block_index
  downloads : ∀ hash dl, node.m_snapshot_downloads.get hash = some dl →
    TrueHeight node.chainman.m_block_index dl.checkpoint_height hash

variable {network_magic M codec P} {node node' : BootstrapNode G}

section
variable (h : TrueLabels node)
include h

theorem TrueLabels.selectsNewest : SelectsNewest network_magic node.toSnapshotNode := by
  intro best path hnewest f hf hlooked
  obtain ⟨entry, rfl, pre, post, k, hlist, hk, -, hpre, hpost⟩ := SnapshotNode.newest_eq_some hnewest
  obtain ⟨j, hj⟩ := Option.isSome_iff_exists.mp hlooked
  have hle : ∀ e ∈ node.snapshots.views network_magic, ∀ i, snapshotHeight e.name = some i → i ≤ k := by
    intro e he i hi
    rw [hlist] at he
    rcases mem_append.mp he with he | he
    · have := hpre e he i hi
      omega
    · rcases mem_cons.mp he with rfl | he
      · rw [hk] at hi
        cases hi
        exact le_refl k
      · exact hpost e he i hi
  have hentry : entry ∈ node.snapshots.views network_magic := by
    rw [hlist]
    exact mem_append_right _ mem_cons_self
  obtain ⟨g, hg, hname⟩ := mem_map.mp hentry
  have hlabel : Labelled node.chainman.m_block_index entry.name := by
    rw [← hname]
    exact h.files g hg
  rw [(h.files f hf).baseHeight hj, hlabel.baseHeight hk]
  exact hle _ (mem_map_of_mem hf) j hj

/-! ## one step -/

theorem TrueLabels.advertise (gate : Bool) (utxo_hash : Uint256) (file_size : Nat)
    (hhonest : checkpoint_hash = node.m_snapshot_bootstrap_target →
      TrueHeight node.chainman.m_block_index checkpoint_height checkpoint_hash) :
    TrueLabels (node.advertise gate checkpoint_height checkpoint_hash utxo_hash file_size) := by
  rw [node.advertise_eq]
  split
  · rename_i hb
    refine ⟨h.files.begunFiles _ _ _, fun hash dl hdl => ?_⟩
    rw [FMap.insert_get] at hdl
    split at hdl
    · rename_i hsame
      cases hdl
      rw [hsame]
      exact hhonest hb.1.1
    · exact h.downloads hash dl hdl
  · exact h

theorem TrueLabels.receiveChunk (renames : Bool) (checkpoint_hash : Uint256) (offset : Nat)
    (data : Bytes) : TrueLabels (node.receiveChunk renames checkpoint_hash offset data) := by
  rcases node.receiveChunk_cases renames checkpoint_hash offset data with
    ⟨-, heq⟩ | ⟨-, dl, file, hchunk, hcases⟩
  · rw [heq]
    exact h
  have hheight := h.downloads checkpoint_hash dl hchunk.download
  have htemp : (BootstrapNode.chunkFiles node checkpoint_hash dl file offset data).Labels
      node.chainman.m_block_index :=
    h.files.write (.of_not_dat (isDat_tempPath _ _)) _
  rcases hcases with ⟨-, heq⟩ | ⟨completed, heq⟩
  · rw [heq]
    refine ⟨htemp.rename hheight.labelled _, fun hash dl' hdl => ?_⟩
    by_cases hsame : hash = checkpoint_hash
    · subst hsame
      rw [show (node.m_snapshot_downloads.erase hash).get hash = none from FMap.erase_get_self ..] at hdl
      cases hdl
    · rw [show (node.m_snapshot_downloads.erase checkpoint_hash).get hash = _ from
        FMap.erase_get_ne hsame _] at hdl
      exact h.downloads hash dl' hdl
  · rw [heq]
    refine ⟨htemp, fun hash dl' hdl => ?_⟩
    rw [FMap.insert_get] at hdl
    split at hdl
    · rename_i hsame
      cases hdl
      rw [hsame]
      exact hheight
    · exact h.downloads hash dl' hdl

theorem TrueLabels.sweep (stalled : Uint256 → Bool) : TrueLabels (node.sweep stalled) := by
  refine ⟨?_, fun hash dl hdl => h.downloads hash dl (BootstrapNode.sweptDownloads_get _ _ hdl).1⟩
  have hfold : ∀ (l : List (Uint256 × DownloadState)) (d : Directory),
      d.Labels node.chainman.m_block_index → (l.foldl (fun d e =>
        if !e.2.completed && stalled e.1 then d.remove (tempPath e.2.checkpoint_height e.1) else d)
        d).Labels node.chainman.m_block_index := by
    intro l
    induction l with
    | nil => exact fun d hd => hd
    | cons e l ih =>
      intro d hd
      rw [foldl_cons]
      apply ih
      split
      · exact hd.remove _
      · exact hd
  exact hfold _ _ h.files

theorem TrueLabels.request (env : SnapshotEnv G) (rateLimited : Bool)
    (stalled : Uint256 → Bool) : TrueLabels (node.request network_magic P env rateLimited stalled) := by
  have hswept : TrueLabels (if env.gate && !rateLimited then node.sweep stalled else node) := by
    split
    · exact h.sweep stalled
    · exact h
  unfold BootstrapNode.request
  dsimp only
  split
  · exact hswept
  · exact ⟨hswept.files, hswept.downloads⟩

theorem TrueLabels.activate {env : SnapshotEnv G} {activated : Bool} {after : SnapshotNode G}
    (hcall : node.toSnapshotNode.maybeActivateAutomaticSnapshot network_magic env M codec P =
      .ok (activated, after)) : TrueLabels { node with toSnapshotNode := after } := by
  have hfailed : ∀ path, (node.snapshots.moveAside path).Labels node.chainman.m_block_index :=
    fun path => h.files.rename (.of_not_dat (isDat_failed path)) path
  -- the downloads are not touched, so only the blocks matter
  have hdone : ∀ t : SnapshotNode G, node.chainman.m_block_index.Updated t.chainman.m_block_index →
      t.snapshots.Labels node.chainman.m_block_index → TrueLabels { node with toSnapshotNode := t } :=
    fun t hblocks hfiles => ⟨hfiles.keeps hblocks.keeps,
      fun hash dl hdl => (h.downloads hash dl hdl).keeps hblocks.keeps⟩
  unfold SnapshotNode.maybeActivateAutomaticSnapshot at hcall
  split at hcall
  · cases hcall
    exact h
  split at hcall
  · cases hcall
    exact h
  split at hcall
  · cases hcall
    exact h
  · cases hcall
    exact hdone _ (.refl _) (hfailed _)
  · cases hcall
    exact hdone _ (.refl _) ((h.files.remove _).remove _)
  · unfold SnapshotNode.tryActivate at hcall
    split at hcall
    · cases hcall
    · rename_i chainman hact
      cases hcall
      exact hdone _ (ChainstateManager.maybeActivateAutomaticSnapshot_updated hact) (hfailed _)
    · rename_i chainman hact
      cases hcall
      exact hdone _ (ChainstateManager.maybeActivateAutomaticSnapshot_updated hact) (h.files.cleanup _)

theorem TrueLabels.step {event : CheckpointEvent G} (hhonest : Honest node event)
    (hstep : CheckpointStep network_magic M codec P node event node') : TrueLabels node' := by
  cases hstep with
  | peers event =>
    cases event with
    | message gate renames message =>
      cases message with
      | utxosnapshot checkpoint_height checkpoint_hash utxo_hash file_size =>
        exact h.advertise gate utxo_hash file_size hhonest
      | snapshotdata checkpoint_hash offset data => exact h.receiveChunk renames checkpoint_hash offset data
    | request env rateLimited stalled => exact h.request env rateLimited stalled
  | restart chainman =>
    refine ⟨h.files.keeps hhonest, fun hash dl hdl => ?_⟩
    cases hdl
  | chain hkeeps => exact ⟨h.files.keeps hkeeps, fun hash dl hdl => (h.downloads hash dl hdl).keeps hkeeps⟩
  | connected he written => exact ⟨h.files.writeAutomaticSnapshot P.consensus he written, h.downloads⟩
  | activate hcall => exact h.activate hcall

end

/-! ## whole runs -/

/-- **along honest steps the newest checkpoint is selected**: from an empty directory, in every state that
is reached -/
theorem selects_newest (hfiles : node.snapshots = Directory.empty)
    (hdownloads : node.m_snapshot_downloads = FMap.empty)
    (hrun : Relation.ReflTransGen (fun a b => ∃ event, Honest a event ∧
      CheckpointStep network_magic M codec P a event b) node node') :
    SelectsNewest network_magic node'.toSnapshotNode := by
  have hlabels : TrueLabels node' := by
    induction hrun with
    | refl =>
      refine ⟨fun f hf => ?_, fun hash dl hdl => ?_⟩
      · rw [hfiles] at hf
        cases hf
      · rw [hdownloads] at hdl
        cases hdl
    | tail _ hstep ih =>
      obtain ⟨event, hhonest, hstep⟩ := hstep
      exact ih.step hhonest hstep
  exact hlabels.selectsNewest

end

/-! ## a false height -/

theorem run_steps {G : Type} [CommGroup G] {network_magic : MessageStart} (M : MuHash G) (codec : CoinCodec)
    {P : CChainParams} {Q : BootstrapNode G → CheckpointEvent G → Prop} {node : BootstrapNode G}
    {events : List (BootstrapEvent G)}
    (h : ∀ a : BootstrapNode G, a.chainman = node.chainman → ∀ e ∈ events, Q a (.peers e)) :
    Relation.ReflTransGen (fun a b => ∃ event, Q a event ∧
      CheckpointStep network_magic M codec P a event b) node (node.run network_magic P events) := by
  induction events generalizing node with
  | nil => exact .refl
  | cons e events ih =>
    refine Relation.ReflTransGen.head ⟨.peers e, h node rfl e mem_cons_self, .peers node e⟩ (ih ?_)
    intro a ha e' he'
    exact h a (ha.trans (BootstrapNode.handle_chainman _ _ _ _)) e' (mem_cons_of_mem _ he')

def sampleAhead : BootstrapNode (Multiplicative ℤ) where
  chainman :=
    { ChainstateManager.sampleFresh with
      m_block_index := (headerLine 201 (by decide)).update fun _ e =>
        if e.nHeight ≤ 100 then ⟨1, e.nHeight + 1, 0, ⟨BLOCK_VALID_SCRIPTS, true, true, false, true⟩⟩
        else e.toBlockIndexState
      m_best_header := some (sampleId 200)
      m_chainstates := [{ ChainstateManager.sampleCurrent none with
        tip := some (sampleId 100)
        setBlockIndexCandidates := [sampleId 100] }] }
  snapshots := Directory.empty
  s_activated_snapshot_hash := Uint256.zero
  m_snapshot_bootstrap_target := Uint256.zero
  m_snapshot_downloads := FMap.empty

/-- the snapshot of block 100, which the node wrote itself -/
def sampleCheckpointed : BootstrapNode (Multiplicative ℤ) :=
  { sampleAhead with
    snapshots := sampleAhead.snapshots.writeAutomaticSnapshot regTestParams 100 (sampleId 100)
      (.hashed [] (sampleId 2)) }

/-- the checkpoint 200 is asked for, and a peer serves it with a height of its choice -/
def sampleServedAs (checkpoint_height : Int) : List (BootstrapEvent (Multiplicative ℤ)) :=
  [.request SnapshotNode.sampleSnapshotEnv false fun _ => false,
    .message true true (.utxosnapshot checkpoint_height (sampleId 200) (sampleId 2) 1),
    .message true true (.snapshotdata (sampleId 200) 0 [0])]

def sampleChoice (checkpoint_height : Int) : BootstrapNode (Multiplicative ℤ) :=
  sampleCheckpointed.run sampleMagic ⟨regTestParams, []⟩ (sampleServedAs checkpoint_height)

theorem sampleAhead_connected : CheckpointStep sampleMagic sampleMuHash (coinCodec samplePubKeys)
    ⟨regTestParams, []⟩ sampleAhead (.connected (sampleId 100) (.hashed [] (sampleId 2)))
    sampleCheckpointed := by
  obtain ⟨e, he, hheight⟩ : ∃ e, sampleAhead.chainman.m_block_index.entries.get (sampleId 100) = some e ∧
      e.nHeight = 100 := ⟨_, rfl, rfl⟩
  have hstep : CheckpointStep sampleMagic sampleMuHash (coinCodec samplePubKeys) ⟨regTestParams, []⟩
      sampleAhead _ _ := .connected he (.hashed [] (sampleId 2))
  rw [hheight] at hstep
  exact hstep

/-- **an older checkpoint is selected while a newer one is present**: a peer has served the checkpoint 200
under the height 50 -/
theorem older_checkpoint_selected :
    Relation.ReflTransGen (fun a b => ∃ event, CheckpointStep sampleMagic sampleMuHash
      (coinCodec samplePubKeys) ⟨regTestParams, []⟩ a event b) sampleAhead (sampleChoice 50) ∧
    (sampleChoice 50).snapshots.newest sampleMagic = (100, some (finalPath 100 (sampleId 100))) ∧
    (sampleChoice 50).snapshots.contains (finalPath 50 (sampleId 200)) = true ∧
    ¬ SelectsNewest sampleMagic (sampleChoice 50).toSnapshotNode := by
  have hnewest : (sampleChoice 50).snapshots.newest sampleMagic =
      (100, some (finalPath 100 (sampleId 100))) := by decide +kernel
  have hpresent : (sampleChoice 50).snapshots.contains (finalPath 50 (sampleId 200)) = true := by
    decide +kernel
  refine ⟨?_, hnewest, hpresent, fun hselects => ?_⟩
  · refine (Relation.ReflTransGen.single ⟨_, sampleAhead_connected⟩).trans ?_
    refine Relation.ReflTransGen.mono ?_ _ _ (run_steps sampleMuHash (coinCodec samplePubKeys)
      (Q := fun _ _ => True) fun _ _ _ _ => trivial)
    rintro a b ⟨event, -, hstep⟩
    exact ⟨event, hstep⟩
  · obtain ⟨f, hf, hname⟩ := any_eq_true.mp hpresent
    have hle := hselects 100 _ hnewest f hf
    rw [beq_iff_eq.mp hname] at hle
    exact absurd (hle (by decide +kernel)) (by decide +kernel)

/-- the same, with the height of block 200 -/
theorem selects_newest_served :
    (sampleChoice 200).snapshots.newest sampleMagic = (200, some (finalPath 200 (sampleId 200))) ∧
    SelectsNewest sampleMagic (sampleChoice 200).toSnapshotNode := by
  have hhonest : ∀ a : BootstrapNode (Multiplicative ℤ), a.chainman = sampleCheckpointed.chainman →
      ∀ e ∈ sampleServedAs 200, Honest a (.peers e) := by
    intro a ha e he
    simp only [sampleServedAs, mem_cons, not_mem_nil, or_false] at he
    rcases he with rfl | rfl | rfl
    · trivial
    · intro _
      rw [ha]
      exact .inr ⟨_, rfl, rfl⟩
    · trivial
  refine ⟨by decide +kernel, ?_⟩
  have hfirst : Honest sampleAhead (.connected (sampleId 100) (.hashed [] (sampleId 2))) := trivial
  exact selects_newest rfl rfl (.head ⟨_, hfirst, sampleAhead_connected⟩ (run_steps _ _ hhonest))

end ElektronNet
