import ElektronNet.SnapshotSync
import ElektronNet.SnapshotWrite
import ElektronNet.ChainstateRoles

/-!
# The directory of snapshots

`MaybeActivateAutomaticSnapshot` of `init.cpp` as a whole, over the files it looks at: which file is
selected, what becomes of it, and what repeated calls leave.

* `Directory`              the files with their bytes, in the order in which they are read
* `judge`                  what a call decides about the file it has selected
* `maybeActivateAutomaticSnapshot`   one call: the gate, the selection, the files that are moved
* `Blocks`                 a `.dat` that `SendMessages` or `MaybeRequestSnapshot` takes for a local
                           snapshot, of a block above the tip
* `unusable_file_iff`      when `n + 1` calls activate a snapshot or leave no such file, where `n` is
                           the number of `.dat` files

Five of the early returns leave the selected file where it is: the name carries no hash, the hash was
activated before, the file cannot be opened, its metadata do not parse, its base is not newer than the
snapshot in use.  The next call selects the same file again, so that no file behind it is ever tried.
-/

set_option linter.unusedSectionVars false

namespace ElektronNet

open List SyncState

/-! ## files -/

/-- the files of `snapshots`; one that cannot be opened has no bytes -/
structure Directory where
  files : List (FileName × Option Bytes)
  nodup : (files.map Prod.fst).Nodup

def isDat (fname : FileName) : Bool := DAT.isSuffixOf fname

namespace Directory

def empty : Directory := ⟨[], nodup_nil⟩

section
variable (d : Directory)

def read (fname : FileName) : Option Bytes :=
  (d.files.find? fun f => f.1 == fname).bind Prod.snd

def remove (fname : FileName) : Directory where
  files := d.files.filter fun f => f.1 != fname
  nodup := d.nodup.sublist (filter_sublist.map _)

def renamed (path target fname : FileName) : FileName := if fname = path then target else fname

theorem nodup_renamed {l : List (FileName × Option Bytes)} {path target : FileName}
    (hl : (l.map Prod.fst).Nodup) (htarget : target ∉ l.map Prod.fst) :
    ((l.map fun f => (renamed path target f.1, f.2)).map Prod.fst).Nodup := by
  have hmap : (l.map fun f => (renamed path target f.1, f.2)).map Prod.fst =
      (l.map Prod.fst).map (renamed path target) := by simp
  rw [hmap]
  refine List.Nodup.map_on (fun a ha b hb hab => ?_) hl
  unfold renamed at hab
  split at hab
  · rename_i hap
    split at hab
    · rename_i hbp
      exact hap.trans hbp.symm
    · rw [← hab] at hb
      exact absurd hb htarget
  · split at hab
    · rw [hab] at ha
      exact absurd ha htarget
    · exact hab

/-- `fs::rename`; a file of the new name is overwritten -/
def rename (path target : FileName) : Directory where
  files := (d.remove target).files.map fun f => (renamed path target f.1, f.2)
  nodup := nodup_renamed (d.remove target).nodup (by simp [remove])

/-- the file is kept under another name, under which no call selects it -/
def moveAside (path : FileName) : Directory := d.rename path (path ++ FAILED)

def discard (path : FileName) : Directory := (d.remove path).remove (path ++ HASH)

/-- the 32 bytes of the sidecar, unless they are missing or all zero -/
def expectedHash (path : FileName) : Option Uint256 :=
  ((d.read (path ++ HASH)).bind readUint256).bind fun r => if r.1.isNull then none else some r.1

/-- after an activation the files of other snapshots are removed -/
def cleanup (activated : FileName) : Directory where
  files := d.files.filter fun f => activated.isPrefixOf f.1
  nodup := d.nodup.sublist (filter_sublist.map _)

end

section
variable (network_magic : MessageStart)

def view (f : FileName × Option Bytes) : SnapshotFile where
  name := f.1
  metadata := (f.2.bind (SnapshotMetadata.unserialize network_magic)).map fun r => r.1.m_base_blockhash
  hash := (f.2.bind readUint256).map Prod.fst

def views (d : Directory) : List SnapshotFile := d.files.map (view network_magic)

def newest (d : Directory) : Int × Option FileName :=
  let best := selectNewest (d.views network_magic) (-1, none)
  (best.1, best.2.map (·.name))

end

end Directory

def formatInt : Int → List Char
  | .ofNat n => Nat.toDigits 10 n
  | .negSucc n => '-' :: Nat.toDigits 10 (n + 1)

/-! ## one call -/

structure SnapshotNode (G : Type) where
  chainman : ChainstateManager G
  snapshots : Directory
  s_activated_snapshot_hash : Uint256

/-- what the node answers during its calls; a file is handed to `ActivateSnapshot` at most once before
it is moved, so what happens then may depend on the file -/
structure SnapshotEnv (G : Type) where
  isInitialBlockDownload : Bool
  stuck_on_invalid_chain : Bool
  fell_behind_prune_horizon : Bool
  activation : FileName → ActivationEnv G
  historicalRemoved : FileName → Bool

def SnapshotEnv.gate {G : Type} (env : SnapshotEnv G) : Bool :=
  env.isInitialBlockDownload || env.stuck_on_invalid_chain || env.fell_behind_prune_horizon

/-- what a call decides about the selected file -/
inductive Verdict (G : Type) where
  /-- the call returns, and the file stays -/
  | left
  /-- the metadata are of another block than the name -/
  | mismatch
  /-- no usable sidecar -/
  | unhashed
  | tried (snapshot : AutomaticSnapshot G)

namespace SnapshotNode

section
variable {G : Type} [CommGroup G]

section
variable (network_magic : MessageStart) (env : SnapshotEnv G)

/-- from the parsing of the name to the call of `ActivateSnapshot` -/
def judge (node : SnapshotNode G) (snapshot_path : FileName) : Verdict G :=
  match (hashPart snapshot_path).bind Uint256.fromHex with
  | none => .left
  | some snapshot_hash =>
    if snapshot_hash = node.s_activated_snapshot_hash then .left
    else
      match node.snapshots.read snapshot_path with
      | none => .left
      | some file =>
        match SnapshotMetadata.unserialize network_magic file with
        | none => .left
        | some (metadata, coins_file) =>
          if metadata.m_base_blockhash ≠ snapshot_hash then .mismatch
          else if !node.chainman.newerThanCurrent metadata.m_base_blockhash then .left
          else
            match node.snapshots.expectedHash snapshot_path with
            | none => .unhashed
            | some expected_hash =>
              .tried
                { coins_file := coins_file
                  metadata := metadata
                  expected_hash := some expected_hash
                  stuck_on_invalid_chain := env.stuck_on_invalid_chain
                  activation := env.activation snapshot_path
                  historicalRemoved := env.historicalRemoved snapshot_path }

variable {network_magic env} in
theorem judge_tried {node : SnapshotNode G} {path : FileName} {snapshot : AutomaticSnapshot G}
    (h : node.judge network_magic env path = .tried snapshot) :
    (node.snapshots.read path).bind (SnapshotMetadata.unserialize network_magic) =
        some (snapshot.metadata, snapshot.coins_file) ∧
      snapshot.activation = env.activation path ∧
      node.chainman.newerThanCurrent snapshot.metadata.m_base_blockhash = true ∧
      snapshot.expected_hash = node.snapshots.expectedHash path ∧ snapshot.expected_hash.isSome = true ∧
      snapshot.stuck_on_invalid_chain = env.stuck_on_invalid_chain := by
  unfold judge at h
  split at h
  · cases h
  split at h
  · cases h
  split at h
  · cases h
  rename_i file hfile
  split at h
  · cases h
  rename_i metadata coins_file hmeta
  split at h
  · cases h
  split at h
  · cases h
  rename_i hnewer
  split at h
  · cases h
  rename_i expected_hash hexpected
  cases h
  rw [hfile]
  exact ⟨hmeta, rfl, by simpa using hnewer, hexpected.symm, rfl, rfl⟩

variable (M : MuHash G) (codec : CoinCodec) (P : CChainParams)

def tryActivate (node : SnapshotNode G) (best_height : Int) (snapshot_path : FileName)
    (snapshot : AutomaticSnapshot G) : Except Fault (Bool × SnapshotNode G) :=
  match node.chainman.maybeActivateAutomaticSnapshot M codec P snapshot with
  | .error f => .error f
  | .ok (false, chainman) =>
    .ok (false, { node with chainman := chainman, snapshots := node.snapshots.moveAside snapshot_path })
  | .ok (true, chainman) =>
    .ok (true,
      { chainman := chainman
        snapshots := node.snapshots.cleanup
          (formatInt best_height ++ '-' :: snapshot.metadata.m_base_blockhash.getHex)
        s_activated_snapshot_hash := snapshot.metadata.m_base_blockhash })

/-- `true`: a snapshot was activated -/
def maybeActivateAutomaticSnapshot (node : SnapshotNode G) : Except Fault (Bool × SnapshotNode G) :=
  if !env.gate then .ok (false, node)
  else
    match node.snapshots.newest network_magic with
    | (_, none) => .ok (false, node)
    | (best_height, some snapshot_path) =>
      match node.judge network_magic env snapshot_path with
      | .left => .ok (false, node)
      | .mismatch => .ok (false, { node with snapshots := node.snapshots.moveAside snapshot_path })
      | .unhashed => .ok (false, { node with snapshots := node.snapshots.discard snapshot_path })
      | .tried snapshot => node.tryActivate M codec P best_height snapshot_path snapshot

/-- calls with the same chain state, until a snapshot is activated -/
def repeatCalls : Nat → SnapshotNode G → Except Fault (Bool × SnapshotNode G)
  | 0, node => .ok (false, node)
  | k + 1, node =>
    match node.maybeActivateAutomaticSnapshot network_magic env M codec P with
    | .error f => .error f
    | .ok (true, node') => .ok (true, node')
    | .ok (false, node') => repeatCalls k { node' with chainman := node.chainman }

end

end

end SnapshotNode

/-! ## the files that are waited for -/

namespace SyncState

/-- `SendMessages` counts the file as a local snapshot -/
def CountedBySendMessages (s : SyncState) (entry : SnapshotFile) : Prop :=
  s.isInitialBlockDownload = true ∧ ∃ header, s.m_best_header = some header ∧
    s.checkpoint_interval ≤ header.nHeight ∧ s.tip_height < s.target_height header.nHeight ∧
    ((∃ target, header.getAncestor (s.target_height header.nHeight) = some target ∧
      isSnapshotOf target entry = true) ∨ hasSidecar s.snapshots entry = true)

/-- `MaybeRequestSnapshot` has the file and asks for no other -/
def CountedByRequest (s : SyncState) (entry : SnapshotFile) : Prop :=
  ∃ header, s.invalidChainWithMoreWork.or s.m_best_header = some header ∧
    s.checkpoint_interval ≤ header.nHeight ∧
    (s.invalidChainWithMoreWork.isSome = true ∨
      (s.checkpoint_interval : Int) ≤ header.nHeight - s.tip_height) ∧
    ∃ target, header.getAncestor (s.target_height header.nHeight) = some target ∧
      isSnapshotOf target entry = true

def BaseAboveTip (s : SyncState) (entry : SnapshotFile) : Prop :=
  ∃ base height, (hashPart entry.name).bind Uint256.fromHex = some base ∧
    s.lookupBlockIndex base = some height ∧ s.tip_height < height

/-- the file makes the node wait for a snapshot of a block above the tip -/
structure Blocks (s : SyncState) (entry : SnapshotFile) : Prop where
  dat : isDat entry.name = true
  counted : s.CountedBySendMessages entry ∨ s.CountedByRequest entry
  above : s.BaseAboveTip entry

end SyncState

/-! ## what a moved file changes -/

theorem isDat_append {ext : FileName} (hlen : DAT.length ≤ ext.length) (hext : ¬ DAT <:+ ext)
    (fname : FileName) : isDat (fname ++ ext) = false := by
  rw [Bool.eq_false_iff]
  intro h
  have hdat : DAT <:+ fname ++ ext := isSuffixOf_iff_suffix.mp h
  exact hext (suffix_of_suffix_length_le hdat (suffix_append fname ext) hlen)

theorem isDat_failed (fname : FileName) : isDat (fname ++ FAILED) = false :=
  isDat_append (by decide) (by decide) fname

theorem isDat_hash (fname : FileName) : isDat (fname ++ HASH) = false :=
  isDat_append (by decide) (by decide) fname

theorem hash_ne_failed (a b : FileName) : a ++ HASH ≠ b ++ FAILED := by
  intro h
  have hsuffix : HASH <:+ b ++ FAILED := h ▸ suffix_append a HASH
  have := suffix_of_suffix_length_le hsuffix (suffix_append b FAILED) (by decide)
  exact absurd this (by decide)

namespace Directory

def dats (d : Directory) : List (FileName × Option Bytes) := d.files.filter fun f => isDat f.1

/-- a name under which the same is found in both directories -/
def Same (d d' : Directory) (fname : FileName) : Prop :=
  d'.read fname = d.read fname ∧ (fname ∈ d'.files.map Prod.fst ↔ fname ∈ d.files.map Prod.fst)

variable {fname path : FileName}

theorem Same.trans {d d' d'' : Directory} (h : Same d d' fname) (h' : Same d' d'' fname) :
    Same d d'' fname := ⟨h'.1.trans h.1, h'.2.trans h.2⟩

theorem remove_same (d : Directory) (h : fname ≠ path) : Same d (d.remove path) fname := by
  constructor
  · rw [read, remove, find?_filter]
    congr 2
    funext f
    by_cases hf : f.1 = fname
    · simp [hf, h]
    · simp [hf]
  · simp only [remove, mem_map, mem_filter, bne_iff_ne]
    constructor
    · rintro ⟨f, ⟨hf, -⟩, rfl⟩
      exact ⟨f, hf, rfl⟩
    · rintro ⟨f, hf, rfl⟩
      exact ⟨f, ⟨hf, h⟩, rfl⟩

theorem renamed_eq_iff {target q : FileName} (hpath : q ≠ path) (htarget : q ≠ target) :
    renamed path target fname = q ↔ fname = q := by
  unfold renamed
  split
  · rename_i h
    subst h
    exact ⟨fun h => absurd h.symm htarget, fun h => absurd h.symm hpath⟩
  · rfl

theorem rename_same (d : Directory) {target : FileName} (hpath : fname ≠ path)
    (htarget : fname ≠ target) : Same d (d.rename path target) fname := by
  refine (remove_same d htarget).trans ⟨?_, ?_⟩
  · rw [read, rename, find?_map, Option.bind_map]
    have hfun : ((fun f : FileName × Option Bytes => f.1 == fname) ∘
        fun f : FileName × Option Bytes => (renamed path target f.1, f.2)) = fun f => f.1 == fname := by
      funext f
      rw [Function.comp_apply, Bool.eq_iff_iff, beq_iff_eq, beq_iff_eq]
      exact renamed_eq_iff hpath htarget
    rw [hfun]
    rfl
  · simp only [rename, map_map, mem_map, Function.comp_apply]
    constructor
    · rintro ⟨f, hf, hname⟩
      exact ⟨f, hf, (renamed_eq_iff hpath htarget).mp hname⟩
    · rintro ⟨f, hf, hname⟩
      exact ⟨f, hf, (renamed_eq_iff hpath htarget).mpr hname⟩

/-- the file is gone from the `.dat` files, the others and their sidecars are as before -/
structure Moved (path : FileName) (d d' : Directory) : Prop where
  dats : d'.dats = d.dats.filter fun f => f.1 != path
  dat : ∀ q, isDat q = true → q ≠ path → Same d d' q
  sidecar : ∀ q, q ≠ path → Same d d' (q ++ HASH)

theorem moveAside_moved (d : Directory) (hpath : isDat path = true) :
    Moved path d (d.moveAside path) := by
  refine ⟨?_, fun q hq hne => rename_same d hne ?_, fun q hne => rename_same d ?_ (hash_ne_failed q path)⟩
  · show ((d.files.filter fun f => f.1 != path ++ FAILED).map fun f =>
        (renamed path (path ++ FAILED) f.1, f.2)).filter (fun f => isDat f.1) =
      (d.files.filter fun f => isDat f.1).filter fun f => f.1 != path
    induction d.files with
    | nil => rfl
    | cons f l ih =>
      by_cases htarget : f.1 = path ++ FAILED
      · -- a file of the new name is overwritten, and it is no `.dat`
        rw [filter_cons_of_neg (by simp [htarget]), ih,
          filter_cons_of_neg (by simp [htarget, isDat_failed])]
      · rw [filter_cons_of_pos (by simpa using htarget), map_cons]
        by_cases hf : f.1 = path
        · rw [filter_cons_of_neg (by simp [renamed, hf, isDat_failed]), ih,
            filter_cons_of_pos (by rw [hf]; exact hpath),
            filter_cons_of_neg (by simp [hf])]
        · have hname : renamed path (path ++ FAILED) f.1 = f.1 := if_neg hf
          rw [hname]
          cases hdat : isDat f.1 with
          | true =>
            rw [filter_cons_of_pos (by exact hdat), ih, filter_cons_of_pos (by exact hdat),
              filter_cons_of_pos (by simpa using hf)]
          | false =>
            rw [filter_cons_of_neg (by simp [hdat]), ih, filter_cons_of_neg (by simp [hdat])]
  · intro h
    rw [h, isDat_failed] at hq
    cases hq
  · intro h
    rw [← h, isDat_hash] at hpath
    cases hpath

theorem discard_moved (d : Directory) (hpath : isDat path = true) : Moved path d (d.discard path) := by
  refine ⟨?_, fun q hq hne => (remove_same d hne).trans (remove_same _ ?_),
    fun q hne => (remove_same d ?_).trans (remove_same _ ?_)⟩
  · show ((d.files.filter fun f => f.1 != path).filter fun f => f.1 != path ++ HASH).filter
        (fun f => isDat f.1) = (d.files.filter fun f => isDat f.1).filter fun f => f.1 != path
    simp only [filter_filter]
    refine filter_congr fun f _ => ?_
    by_cases hhash : f.1 = path ++ HASH
    · rw [hhash, isDat_hash]
      simp
    · have hne : (f.1 != path ++ HASH) = true := by simpa using hhash
      rw [hne, Bool.true_and, Bool.and_comm]
  · intro h
    rw [h, isDat_hash] at hq
    cases hq
  · intro h
    rw [← h, isDat_hash] at hpath
    cases hpath
  · intro h
    exact hne (append_cancel_right h)

end Directory

/-! ## the selection among fewer files -/

namespace SyncState

variable {snapshots : List SnapshotFile} {entry : SnapshotFile}

theorem Newest.filter (h : Newest snapshots entry) {q : SnapshotFile → Bool} (hq : q entry = true) :
    Newest (snapshots.filter q) entry := by
  obtain ⟨pre, post, k, rfl, hk, hlt, hpre, hpost⟩ := h
  refine ⟨pre.filter q, post.filter q, k, ?_, hk, hlt, fun f hf => hpre f (mem_of_mem_filter hf),
    fun f hf => hpost f (mem_of_mem_filter hf)⟩
  rw [filter_append, filter_cons_of_pos hq]

theorem Newest.mem (h : Newest snapshots entry) : entry ∈ snapshots := by
  obtain ⟨pre, post, k, rfl, -⟩ := h
  exact mem_append_right _ mem_cons_self

theorem Newest.isDat (h : Newest snapshots entry) : isDat entry.name = true := by
  obtain ⟨-, -, k, -, hk, -⟩ := h
  unfold snapshotHeight at hk
  split at hk
  · rename_i hdat
    rw [Bool.and_eq_true] at hdat
    exact hdat.1
  · cases hk

theorem selectNewest_filter_none (h : (selectNewest snapshots (-1, none)).2 = none)
    (q : SnapshotFile → Bool) : (selectNewest (snapshots.filter q) (-1, none)).2 = none := by
  cases hsel : (selectNewest (snapshots.filter q) (-1, none)).2 with
  | none => rfl
  | some entry =>
    obtain ⟨pre, post, k, hl, hk, hlt, -⟩ := (selectNewest_eq_some_iff _ _).mp hsel
    have hmem : entry ∈ snapshots := by
      refine mem_of_mem_filter (p := q) ?_
      rw [hl]
      exact mem_append_right _ mem_cons_self
    rcases selectNewest_cases snapshots (-1, none) with ⟨hle, -⟩ | ⟨_, e, _, _, -, -, -, -, -, hres⟩
    · have := hle entry hmem k hk
      omega
    · rw [hres] at h
      cases h

end SyncState

/-! ## repeated calls -/

namespace SnapshotNode

section
variable {G : Type} [CommGroup G] (network_magic : MessageStart) (env : SnapshotEnv G)

def headerChain (m : BlockMap) (header : Uint256) : HeaderChain where
  nHeight := m.nHeight header
  hash height := (m.getAncestor header height).getD Uint256.zero

/-- the node as the waiting sees it, between two downloads -/
def sync (P : CChainParams) (node : SnapshotNode G) : SyncState where
  params := P.consensus
  isInitialBlockDownload := env.isInitialBlockDownload
  invalidChainWithMoreWork :=
    if env.stuck_on_invalid_chain then
      node.chainman.m_best_invalid.map (headerChain node.chainman.m_block_index)
    else none
  hasFallenBehindPruneHorizon := env.fell_behind_prune_horizon
  rateLimited := false
  m_snapshot_downloads := []
  tip_height := node.chainman.activeTip.elim (-1) fun t => node.chainman.m_block_index.nHeight t
  m_best_header := node.chainman.m_best_header.map (headerChain node.chainman.m_block_index)
  snapshotBase := (node.chainman.currentChainstate.bind (·.m_from_snapshot_blockhash)).map fun base =>
    node.chainman.heightOr0 (some base)
  snapshots := node.snapshots.views network_magic
  s_activated_snapshot_hash := node.s_activated_snapshot_hash
  lookupBlockIndex h := (node.chainman.m_block_index.lookupBlockIndex h).map (·.nHeight)

section
variable (node : SnapshotNode G) (path : FileName)

/-- a call that selects the file leaves it where it is -/
def leaves : Bool :=
  match node.judge network_magic env path with
  | .left => true
  | _ => false

/-- the file itself and the `.dat` files that are left where they are -/
def contenders : List SnapshotFile :=
  (node.snapshots.views network_magic).filter fun e =>
    isDat e.name && (e.name == path || node.leaves network_magic env e.name)

/-- the selection comes to the file before it comes to one that it leaves -/
def Reached : Prop :=
  (selectNewest (node.contenders network_magic env path) (-1, none)).2.map (·.name) = some path

end

variable (M : MuHash G) (codec : CoinCodec) (P : CChainParams)

def Activates (node : SnapshotNode G) (path : FileName) : Prop :=
  ∃ snapshot chainman, node.judge network_magic env path = .tried snapshot ∧
    node.chainman.maybeActivateAutomaticSnapshot M codec P snapshot = .ok (true, chainman)

/-- a file that can be activated is reached, or every file that blocks is reached and moved -/
def Resolvable (node : SnapshotNode G) : Prop :=
  (∃ path, node.Activates network_magic env M codec P path ∧ node.Reached network_magic env path) ∨
    ∀ entry ∈ node.snapshots.views network_magic, (node.sync network_magic env P).Blocks entry →
      node.Reached network_magic env entry.name ∧ node.leaves network_magic env entry.name = false

variable {network_magic env M codec P}

variable {node : SnapshotNode G} {path : FileName} {best : Int}

theorem leaves_iff :
    node.leaves network_magic env path = true ↔ node.judge network_magic env path = .left := by
  unfold leaves
  cases node.judge network_magic env path <;> simp

theorem newest_eq_some (h : node.snapshots.newest network_magic = (best, some path)) :
    ∃ entry, entry.name = path ∧ Newest (node.snapshots.views network_magic) entry := by
  have hname : (selectNewest (node.snapshots.views network_magic) (-1, none)).2.map (·.name) = some path :=
    congrArg Prod.snd h
  obtain ⟨entry, hsel, hpath⟩ := Option.map_eq_some_iff.mp hname
  exact ⟨entry, hpath, (selectNewest_eq_some_iff _ _).mp hsel⟩

/-- a call that changes nothing -/
def Idle (network_magic : MessageStart) (env : SnapshotEnv G) (node : SnapshotNode G) : Prop :=
  (node.snapshots.newest network_magic).2 = none ∨ ∃ best path,
    node.snapshots.newest network_magic = (best, some path) ∧
      node.leaves network_magic env path = true

/-- **what a call can do**: nothing, move the selected file, or activate it -/
theorem call_cases {node' : SnapshotNode G} {activated : Bool} (hgate : env.gate = true)
    (h : node.maybeActivateAutomaticSnapshot network_magic env M codec P = .ok (activated, node')) :
    (activated = false ∧ node' = node ∧ Idle network_magic env node) ∨
    ∃ best path, node.snapshots.newest network_magic = (best, some path) ∧
      ((activated = false ∧ node.leaves network_magic env path = false ∧
        ¬ node.Activates network_magic env M codec P path ∧
        Directory.Moved path node.snapshots node'.snapshots ∧
        node'.s_activated_snapshot_hash = node.s_activated_snapshot_hash) ∨
      (activated = true ∧ node.Activates network_magic env M codec P path)) := by
  unfold maybeActivateAutomaticSnapshot at h
  rw [hgate] at h
  simp only [Bool.not_true, Bool.false_eq_true, if_false] at h
  split at h
  · rename_i best hnone
    cases h
    exact .inl ⟨rfl, rfl, .inl (congrArg Prod.snd hnone)⟩
  · rename_i best path hnewest
    obtain ⟨entry, rfl, hentry⟩ := newest_eq_some hnewest
    have hdat := hentry.isDat
    have hnotleft : ∀ v, node.judge network_magic env entry.name = v → v ≠ .left →
        node.leaves network_magic env entry.name = false := by
      intro v hv hne
      rw [Bool.eq_false_iff]
      intro hl
      exact hne (hv ▸ leaves_iff.mp hl)
    split at h
    · rename_i hjudge
      cases h
      exact .inl ⟨rfl, rfl, .inr ⟨best, _, hnewest, leaves_iff.mpr hjudge⟩⟩
    · rename_i hjudge
      cases h
      refine .inr ⟨best, _, hnewest, .inl ⟨rfl, hnotleft _ hjudge (by simp), ?_,
        Directory.moveAside_moved _ hdat, rfl⟩⟩
      rintro ⟨snapshot, chainman, htried, -⟩
      rw [hjudge] at htried
      cases htried
    · rename_i hjudge
      cases h
      refine .inr ⟨best, _, hnewest, .inl ⟨rfl, hnotleft _ hjudge (by simp), ?_,
        Directory.discard_moved _ hdat, rfl⟩⟩
      rintro ⟨snapshot, chainman, htried, -⟩
      rw [hjudge] at htried
      cases htried
    · rename_i snapshot hjudge
      unfold tryActivate at h
      split at h
      · cases h
      · rename_i chainman hact
        cases h
        refine .inr ⟨best, _, hnewest, .inl ⟨rfl, hnotleft _ hjudge (by simp), ?_,
          Directory.moveAside_moved _ hdat, rfl⟩⟩
        rintro ⟨snapshot', chainman', htried, hact'⟩
        rw [hjudge] at htried
        cases htried
        rw [hact] at hact'
        cases hact'
      · rename_i chainman hact
        cases h
        exact .inr ⟨best, _, hnewest, .inr ⟨rfl, snapshot, chainman, hjudge, hact⟩⟩

theorem Idle.repeatCalls (hgate : env.gate = true) (h : Idle network_magic env node) (k : Nat) :
    node.repeatCalls network_magic env M codec P k = .ok (false, node) := by
  have hcall : node.maybeActivateAutomaticSnapshot network_magic env M codec P = .ok (false, node) := by
    unfold maybeActivateAutomaticSnapshot
    rw [hgate]
    simp only [Bool.not_true, Bool.false_eq_true, if_false]
    rcases h with hnone | ⟨best, path, hnewest, hleft⟩
    · have hpair : node.snapshots.newest network_magic = ((node.snapshots.newest network_magic).1, none) := by
        rw [← hnone]
      rw [hpair]
    · rw [hnewest]
      simp only [leaves_iff.mp hleft]
  induction k with
  | zero => rfl
  | succ k ih =>
    rw [SnapshotNode.repeatCalls, hcall]
    exact ih

/-! ## the condition along the calls -/

theorem reached_newest (h : node.snapshots.newest network_magic = (best, some path)) :
    node.Reached network_magic env path := by
  obtain ⟨entry, rfl, hentry⟩ := newest_eq_some h
  have hfilter : Newest (node.contenders network_magic env entry.name) entry :=
    hentry.filter (by simp [hentry.isDat])
  rw [Reached, (selectNewest_eq_some_iff _ _).mpr hfilter]
  rfl

/-- where the selected file is left, no other is reached -/
theorem eq_of_reached {q : FileName} (h : node.snapshots.newest network_magic = (best, some path))
    (hleft : node.leaves network_magic env path = true) (hq : node.Reached network_magic env q) :
    q = path := by
  obtain ⟨entry, rfl, hentry⟩ := newest_eq_some h
  have hfilter : Newest (node.contenders network_magic env q) entry :=
    hentry.filter (by simp [hentry.isDat, hleft])
  rw [Reached, (selectNewest_eq_some_iff _ _).mpr hfilter] at hq
  exact (Option.some.inj hq).symm

theorem not_reached_of_none (h : (node.snapshots.newest network_magic).2 = none) (q : FileName) :
    ¬ node.Reached network_magic env q := by
  intro hq
  have hsel : (selectNewest (node.snapshots.views network_magic) (-1, none)).2 = none :=
    Option.map_eq_none_iff.mp h
  rw [Reached, contenders, selectNewest_filter_none hsel] at hq
  cases hq

theorem Idle.resolvable_iff (h : Idle network_magic env node) :
    node.Resolvable network_magic env M codec P ↔
      ∀ entry ∈ node.snapshots.views network_magic,
        ¬ (node.sync network_magic env P).Blocks entry := by
  have hnone : ∀ q, node.Reached network_magic env q → node.leaves network_magic env q = true := by
    intro q hq
    rcases h with hn | ⟨best, path, hnewest, hleft⟩
    · exact absurd hq (not_reached_of_none hn q)
    · rw [eq_of_reached hnewest hleft hq]
      exact hleft
  constructor
  · rintro (⟨path, ⟨snapshot, chainman, htried, -⟩, hreached⟩ | hall) entry hentry hblocks
    · have hleft := leaves_iff.mp (hnone path hreached)
      rw [htried] at hleft
      cases hleft
    · obtain ⟨hreached, hnot⟩ := hall entry hentry hblocks
      rw [hnone _ hreached] at hnot
      cases hnot
  · intro hall
    exact .inr fun entry hentry hblocks => absurd hblocks (hall entry hentry)

section
variable {node : SnapshotNode G} {path : FileName} {d : Directory}

variable {q : FileName} {entry : SnapshotFile}

theorem judge_moved (h : Directory.Moved path node.snapshots d) (hq : isDat q = true) (hne : q ≠ path) :
    judge network_magic env { node with snapshots := d } q = judge network_magic env node q := by
  unfold judge Directory.expectedHash
  simp only [(h.dat q hq hne).1, (h.sidecar q hne).1]

theorem leaves_moved (h : Directory.Moved path node.snapshots d) (hq : isDat q = true) (hne : q ≠ path) :
    leaves network_magic env { node with snapshots := d } q = leaves network_magic env node q := by
  rw [leaves, leaves, judge_moved h hq hne]

theorem contenders_eq (node : SnapshotNode G) (q : FileName) :
    node.contenders network_magic env q = (node.snapshots.dats.filter fun f =>
      f.1 == q || node.leaves network_magic env f.1).map (Directory.view network_magic) := by
  rw [contenders, Directory.views, filter_map, Directory.dats, filter_filter]
  refine congrArg _ (filter_congr fun f _ => ?_)
  rw [Bool.and_comm]
  rfl

theorem contenders_moved (h : Directory.Moved path node.snapshots d)
    (hleft : node.leaves network_magic env path = false) (hne : q ≠ path) :
    contenders network_magic env { node with snapshots := d } q =
      contenders network_magic env node q := by
  rw [contenders_eq, contenders_eq]
  show (d.dats.filter _).map _ = _
  rw [h.dats, filter_filter]
  refine congrArg _ (filter_congr fun f hf => ?_)
  by_cases hpath : f.1 = path
  · simp [hpath, hleft, hne.symm]
  · have hdat : isDat f.1 = true := (mem_filter.mp hf).2
    rw [leaves_moved h hdat hpath]
    simp [hpath]

theorem reached_moved (h : Directory.Moved path node.snapshots d)
    (hleft : node.leaves network_magic env path = false) (hne : q ≠ path) :
    Reached network_magic env { node with snapshots := d } q ↔ Reached network_magic env node q := by
  rw [Reached, Reached, contenders_moved h hleft hne]

theorem fileExists_views (d : Directory) (fname : FileName) :
    fileExists (d.views network_magic) fname = true ↔ fname ∈ d.files.map Prod.fst := by
  rw [fileExists, Directory.views]
  simp [Directory.view]

theorem blocks_moved (h : Directory.Moved path node.snapshots d) (hne : entry.name ≠ path) :
    (sync network_magic env P { node with snapshots := d }).Blocks entry ↔
      (sync network_magic env P node).Blocks entry := by
  have hexists : fileExists (d.views network_magic) (entry.name ++ HASH) =
      fileExists (node.snapshots.views network_magic) (entry.name ++ HASH) := by
    rw [Bool.eq_iff_iff, fileExists_views, fileExists_views]
    exact (h.sidecar entry.name hne).2
  have hside : hasSidecar (d.views network_magic) entry =
      hasSidecar (node.snapshots.views network_magic) entry := by
    rw [hasSidecar, hasSidecar, hexists]
  have hcount : (sync network_magic env P { node with snapshots := d }).CountedBySendMessages entry ↔
      (sync network_magic env P node).CountedBySendMessages entry := by
    show (_ ∧ ∃ header, _ ∧ _ ∧ _ ∧ (_ ∨ hasSidecar (d.views network_magic) entry = true)) ↔ _
    rw [hside]
    exact Iff.rfl
  constructor
  · rintro ⟨hdat, hcounted, habove⟩
    exact ⟨hdat, hcounted.imp hcount.mp id, habove⟩
  · rintro ⟨hdat, hcounted, habove⟩
    exact ⟨hdat, hcounted.imp hcount.mpr id, habove⟩

theorem mem_views_of_dat (hdat : isDat entry.name = true) :
    entry ∈ d.views network_magic ↔ entry ∈ d.dats.map (Directory.view network_magic) := by
  rw [Directory.views, mem_map, mem_map]
  constructor
  · rintro ⟨f, hf, rfl⟩
    exact ⟨f, mem_filter.mpr ⟨hf, hdat⟩, rfl⟩
  · rintro ⟨f, hf, rfl⟩
    exact ⟨f, mem_of_mem_filter hf, rfl⟩

theorem mem_views_moved (h : Directory.Moved path node.snapshots d) (hdat : isDat entry.name = true) :
    entry ∈ d.views network_magic ↔ entry ∈ node.snapshots.views network_magic ∧ entry.name ≠ path := by
  rw [mem_views_of_dat hdat, mem_views_of_dat hdat, h.dats, mem_map, mem_map]
  constructor
  · rintro ⟨f, hf, rfl⟩
    obtain ⟨hf, hne⟩ := mem_filter.mp hf
    exact ⟨⟨f, hf, rfl⟩, bne_iff_ne.mp hne⟩
  · rintro ⟨⟨f, hf, rfl⟩, hne⟩
    exact ⟨f, mem_filter.mpr ⟨hf, bne_iff_ne.mpr hne⟩, rfl⟩

theorem resolvable_moved (hnewest : node.snapshots.newest network_magic = (best, some path))
    (hleft : node.leaves network_magic env path = false)
    (hnot : ¬ node.Activates network_magic env M codec P path)
    (h : Directory.Moved path node.snapshots d) :
    Resolvable network_magic env M codec P { node with snapshots := d } ↔
      Resolvable network_magic env M codec P node := by
  have hdat_of : ∀ {node : SnapshotNode G} {q}, node.Reached network_magic env q → isDat q = true := by
    intro node q hq
    obtain ⟨entry, hsel, rfl⟩ := Option.map_eq_some_iff.mp hq
    exact ((selectNewest_eq_some_iff _ _).mp hsel).isDat
  have hgone : ∀ q, Reached network_magic env { node with snapshots := d } q → q ≠ path := by
    rintro q hq rfl
    obtain ⟨entry, hsel, hname⟩ := Option.map_eq_some_iff.mp hq
    have hmem := mem_of_mem_filter ((selectNewest_eq_some_iff _ _).mp hsel).mem
    exact ((mem_views_moved h (by rw [hname]; exact hdat_of hq)).mp hmem).2 hname
  have hact : ∀ {q}, isDat q = true → q ≠ path →
      (Activates network_magic env M codec P { node with snapshots := d } q ↔
        Activates network_magic env M codec P node q) := by
    intro q hq hne
    unfold Activates
    rw [judge_moved h hq hne]
  refine or_congr ⟨?_, ?_⟩ ⟨?_, ?_⟩
  · rintro ⟨q, ha, hr⟩
    exact ⟨q, (hact (hdat_of hr) (hgone q hr)).mp ha, (reached_moved h hleft (hgone q hr)).mp hr⟩
  · rintro ⟨q, ha, hr⟩
    have hne : q ≠ path := by
      rintro rfl
      exact hnot ha
    exact ⟨q, (hact (hdat_of hr) hne).mpr ha, (reached_moved h hleft hne).mpr hr⟩
  · intro hall entry hentry hblocks
    by_cases hne : entry.name = path
    · rw [hne]
      exact ⟨reached_newest hnewest, hleft⟩
    · obtain ⟨hr, hl⟩ := hall entry ((mem_views_moved h hblocks.dat).mpr ⟨hentry, hne⟩)
        ((blocks_moved h hne).mpr hblocks)
      exact ⟨(reached_moved h hleft hne).mp hr, by rwa [leaves_moved h hblocks.dat hne] at hl⟩
  · intro hall entry hentry hblocks
    obtain ⟨hentry', hne⟩ := (mem_views_moved h hblocks.dat).mp hentry
    obtain ⟨hr, hl⟩ := hall entry hentry' ((blocks_moved h hne).mp hblocks)
    exact ⟨(reached_moved h hleft hne).mpr hr, by rwa [leaves_moved h hblocks.dat hne]⟩

theorem length_dats_moved
    (hnewest : node.snapshots.newest network_magic = (best, some path))
    (h : Directory.Moved path node.snapshots d) : d.dats.length < node.snapshots.dats.length := by
  obtain ⟨entry, rfl, hentry⟩ := newest_eq_some hnewest
  obtain ⟨f, hf, rfl⟩ := mem_map.mp ((mem_views_of_dat hentry.isDat).mp hentry.mem)
  rw [h.dats]
  refine length_filter_lt_length_iff_exists.mpr ⟨f, hf, ?_⟩
  simp [Directory.view]

end

theorem repeatCalls_iff {k : Nat} {node' : SnapshotNode G} {activated : Bool}
    (hgate : env.gate = true) (hk : node.snapshots.dats.length ≤ k)
    (h : node.repeatCalls network_magic env M codec P k = .ok (activated, node')) :
    (activated = true ∨ ∀ entry ∈ node'.snapshots.views network_magic,
      ¬ (node'.sync network_magic env P).Blocks entry) ↔
      node.Resolvable network_magic env M codec P := by
  induction k generalizing node with
  | zero =>
    cases h
    have hnone : node'.snapshots.dats = [] := length_eq_zero_iff.mp (by omega)
    have hclear : ∀ entry ∈ node'.snapshots.views network_magic,
        ¬ (node'.sync network_magic env P).Blocks entry := by
      intro entry hentry hblocks
      have hmem := (mem_views_of_dat hblocks.dat).mp hentry
      rw [hnone] at hmem
      cases hmem
    exact iff_of_true (.inr hclear) (.inr fun entry hentry hblocks => absurd hblocks (hclear entry hentry))
  | succ k ih =>
    rw [repeatCalls] at h
    split at h
    · cases h
    · -- the call activates the file that it selects
      rename_i node₁ hcall
      cases h
      rcases call_cases hgate hcall with ⟨hf, -⟩ | ⟨best, path, hnewest, ⟨hf, -⟩ | ⟨-, hact⟩⟩
      · cases hf
      · cases hf
      · exact iff_of_true (.inl rfl) (.inl ⟨path, hact, reached_newest hnewest⟩)
    · rename_i node₁ hcall
      rcases call_cases hgate hcall with ⟨-, rfl, hidle⟩ |
        ⟨best, path, hnewest, ⟨-, hleft, hnot, hmoved, hsame⟩ | ⟨hf, -⟩⟩
      · rw [hidle.repeatCalls hgate k] at h
        cases h
        rw [hidle.resolvable_iff]
        simp
      · have hnode : ({ node₁ with chainman := node.chainman } : SnapshotNode G) =
            { node with snapshots := node₁.snapshots } := by
          rw [hsame]
        rw [hnode] at h
        have hlen : node₁.snapshots.dats.length < node.snapshots.dats.length :=
          length_dats_moved hnewest hmoved
        rw [ih (by show node₁.snapshots.dats.length ≤ k; omega) h]
        exact resolvable_moved hnewest hleft hnot hmoved
      · cases hf

/-- **when the calls get an unusable file out of the way**: `n + 1` calls over `n` files activate a
snapshot or leave no file that blocks, exactly if a file that can be activated, or else every file that
blocks, is reached before the first file that is left where it is -/
theorem unusable_file_iff {node node' : SnapshotNode G} {activated : Bool} (hgate : env.gate = true)
    (h : node.repeatCalls network_magic env M codec P (node.snapshots.dats.length + 1) =
      .ok (activated, node')) :
    (activated = true ∨ ∀ entry ∈ node'.snapshots.views network_magic,
      ¬ (node'.sync network_magic env P).Blocks entry) ↔
      node.Resolvable network_magic env M codec P :=
  repeatCalls_iff hgate (Nat.le_succ _) h

end

end SnapshotNode

/-! ## a file that is never tried -/

namespace SnapshotNode

open ChainstateManager

def sampleHundred : BlockMap := headerLine 101 (by decide)

/-- a regtest node at its genesis block that knows 100 headers above it -/
def sampleBootstrap (snapshots : Directory) : SnapshotNode (Multiplicative ℤ) where
  chainman :=
    { sampleFresh with
      m_block_index := sampleHundred
      m_best_header := some (sampleId 100)
      m_chainstates := [{ sampleCurrent none with
        tip := some (sampleId 0)
        setBlockIndexCandidates := [sampleId 0]
        m_coins_views :=
          some (openViews ⟨none, { CCoinsViewDB.empty with bestBlock := sampleId 0 }, none⟩) }] }
  snapshots := snapshots
  s_activated_snapshot_hash := Uint256.zero

def sampleSnapshotEnv : SnapshotEnv (Multiplicative ℤ) where
  isInitialBlockDownload := true
  stuck_on_invalid_chain := false
  fell_behind_prune_horizon := true
  activation _ := sampleActivationEnv
  historicalRemoved _ := true

/-- `<height>-<hash>.dat` of block 100 -/
def samplePath (height : Int) : FileName := formatInt height ++ '-' :: (sampleId 100).getHex ++ DAT

def sampleDat (coin : Coin) : Bytes :=
  SnapshotMetadata.serialize sampleMagic ⟨sampleId 100, 1⟩ ++
    writeGroup samplePubKeys (sampleId 7, [(0, coin)])

def sampleEarly : Coin := ⟨⟨10, [0x51]⟩, false, 1⟩

def sampleUsable : Directory where
  files := [(samplePath 100, some (sampleDat sampleEarly)), (samplePath 100 ++ HASH, some (sampleId 2).data)]
  nodup := by decide +kernel

/-- ahead of it a file without content under a greater height -/
def sampleShielded : Directory where
  files := (samplePath 101, some []) :: sampleUsable.files
  nodup := by decide +kernel

theorem sampleUsable_activates :
    ∃ node', (sampleBootstrap sampleUsable).repeatCalls sampleMagic sampleSnapshotEnv sampleMuHash
      (coinCodec samplePubKeys) ⟨regTestParams, []⟩
      ((sampleBootstrap sampleUsable).snapshots.dats.length + 1) = .ok (true, node') := by
  decide +kernel

/-- **an empty file keeps a usable snapshot from being tried**: the calls change nothing, and the node
goes on waiting for the snapshot that it has -/
theorem usable_file_shielded :
    (∃ node', (sampleBootstrap sampleUsable).repeatCalls sampleMagic sampleSnapshotEnv sampleMuHash
      (coinCodec samplePubKeys) ⟨regTestParams, []⟩
      ((sampleBootstrap sampleUsable).snapshots.dats.length + 1) = .ok (true, node')) ∧
    (∀ k, (sampleBootstrap sampleShielded).repeatCalls sampleMagic sampleSnapshotEnv sampleMuHash
      (coinCodec samplePubKeys) ⟨regTestParams, []⟩ k = .ok (false, sampleBootstrap sampleShielded)) ∧
    ∃ entry ∈ (sampleBootstrap sampleShielded).snapshots.views sampleMagic,
      entry.metadata = some (sampleId 100) ∧
      ((sampleBootstrap sampleShielded).sync sampleMagic sampleSnapshotEnv
        ⟨regTestParams, []⟩).Blocks entry := by
  have hnewest : (sampleBootstrap sampleShielded).snapshots.newest sampleMagic =
      (101, some (samplePath 101)) := by
    decide +kernel
  have hleft : (sampleBootstrap sampleShielded).leaves sampleMagic sampleSnapshotEnv
      (samplePath 101) = true := by
    decide +kernel
  refine ⟨sampleUsable_activates,
    Idle.repeatCalls rfl (.inr ⟨101, samplePath 101, hnewest, hleft⟩),
    Directory.view sampleMagic (samplePath 100, some (sampleDat sampleEarly)), ?_, ?_, ?_⟩
  · exact mem_cons_of_mem _ mem_cons_self
  · decide +kernel
  · refine ⟨by decide +kernel, .inl ⟨rfl, _, rfl, by decide +kernel, by decide +kernel,
      .inl ⟨sampleId 100, by decide +kernel, by decide +kernel⟩⟩, ?_⟩
    exact ⟨sampleId 100, 100, by decide +kernel, by decide +kernel, by decide +kernel⟩

/-- the usable snapshot alone -/
theorem unusable_file_iff_alone :
    ∃ node', (sampleBootstrap sampleUsable).repeatCalls sampleMagic sampleSnapshotEnv sampleMuHash
        (coinCodec samplePubKeys) ⟨regTestParams, []⟩
      ((sampleBootstrap sampleUsable).snapshots.dats.length + 1) = .ok (true, node') ∧
      (sampleBootstrap sampleUsable).Resolvable sampleMagic sampleSnapshotEnv sampleMuHash
        (coinCodec samplePubKeys) ⟨regTestParams, []⟩ := by
  obtain ⟨node', h⟩ := sampleUsable_activates
  exact ⟨node', h, (unusable_file_iff rfl h).mp (.inl rfl)⟩

end SnapshotNode

end ElektronNet
