import ElektronNet.ConsensusParams

/-!
# Waiting for a snapshot

Three places decide whether a node in initial block download goes on without blocks until it has
a snapshot: the block request of `PeerManagerImpl::SendMessages`, `MaybeRequestSnapshot` and
`FindSnapshotFile` of `net_processing.cpp`, and the file selection of
`MaybeActivateAutomaticSnapshot` in `init.cpp` up to its call of `ActivateSnapshot`.

* `awaitingSnapshotBootstrap`   no block is asked for while this is true
* `maybeRequestSnapshot`        the checkpoint that a GETUTXOSNAPSHOT is broadcast for, if any
* `maybeActivateSnapshot`       the file that is handed to `ActivateSnapshot`, if any
* `Newest`                      what the selection loop picks: the first file of greatest height
* `snapshot_wait_served_iff`    when a node that waits can get something from its waiting

A file name is a list of characters, `<height>-<hash>.dat`; the height is whatever `std::stoi`
makes of the text before the first dash.  Of a file only what is read here is kept: the base block
hash of its metadata, and its first 32 bytes where it is a `.hash` sidecar.
-/

namespace ElektronNet

open List

/-! ## files -/

abbrev FileName := List Char

/-- an entry of the directory `snapshots` -/
structure SnapshotFile where
  name : FileName
  /-- the base block hash in the metadata, if the file opens and the metadata parse -/
  metadata : Option Uint256
  /-- the first 32 bytes, if there are as many -/
  hash : Option Uint256
deriving DecidableEq

def DAT : FileName := ['.', 'd', 'a', 't']
def DOWNLOAD : FileName := ['.', 'd', 'o', 'w', 'n', 'l', 'o', 'a', 'd']
def FAILED : FileName := ['.', 'f', 'a', 'i', 'l', 'e', 'd']
def HASH : FileName := ['.', 'h', 'a', 's', 'h']

def splitDash : FileName → Option (FileName × FileName)
  | [] => none
  | c :: cs => if c = '-' then some ([], cs) else (splitDash cs).map fun p => (c :: p.1, p.2)

def isSpace (c : Char) : Bool := c.toNat == 32 || (decide (9 ≤ c.toNat) && decide (c.toNat ≤ 13))

def readSign : List Char → Bool × List Char
  | '-' :: cs => (true, cs)
  | '+' :: cs => (false, cs)
  | cs => (false, cs)

/-- `std::stoi`; `none` where it throws -/
def stoi (str : List Char) : Option Int :=
  let signed := readSign (str.dropWhile isSpace)
  let digits := signed.2.takeWhile Char.isDigit
  let magnitude : Nat := digits.foldl (fun n c => 10 * n + (c.toNat - 48)) 0
  let value : Int := if signed.1 then -magnitude else magnitude
  if digits.isEmpty then none
  else if -2147483648 ≤ value ∧ value ≤ 2147483647 then some value
  else none

def hashPart (fname : FileName) : Option (List Char) := (splitDash fname).map fun p => p.2.take 64

/-- a `.dat` whose name carries this hash -/
def isSnapshotOf (checkpoint_hash : Uint256) (entry : SnapshotFile) : Bool :=
  DAT.isSuffixOf entry.name && hashPart entry.name == some checkpoint_hash.getHex

def findSnapshotFile (snapshots : List SnapshotFile) (checkpoint_hash : Uint256) :
    Option SnapshotFile := snapshots.find? (isSnapshotOf checkpoint_hash)

def fileExists (snapshots : List SnapshotFile) (fname : FileName) : Bool :=
  snapshots.any fun entry => entry.name == fname

/-- a completed snapshot with a `.hash` beside it -/
def hasSidecar (snapshots : List SnapshotFile) (entry : SnapshotFile) : Bool :=
  DAT.isSuffixOf entry.name && !DOWNLOAD.isSuffixOf entry.name && !FAILED.isSuffixOf entry.name &&
    fileExists snapshots (entry.name ++ HASH)

/-! ## the state that is looked at -/

/-- a header with its ancestors -/
structure HeaderChain where
  nHeight : Nat
  hash : Nat → Uint256

def HeaderChain.getAncestor (c : HeaderChain) (height : Nat) : Option Uint256 :=
  if height ≤ c.nHeight then some (c.hash height) else none

structure SnapshotDownload where
  checkpoint_hash : Uint256
  completed : Bool
  /-- older than six hours, or half an hour without progress -/
  stalled : Bool
deriving DecidableEq

structure SyncState where
  params : ConsensusParams
  isInitialBlockDownload : Bool
  /-- `BestInvalid`, if `HasSustainedInvalidChainWithMoreWork` -/
  invalidChainWithMoreWork : Option HeaderChain
  hasFallenBehindPruneHorizon : Bool
  /-- a request was broadcast less than a minute ago -/
  rateLimited : Bool
  m_snapshot_downloads : List SnapshotDownload
  /-- `ActiveChain().Height()` -/
  tip_height : Int
  m_best_header : Option HeaderChain
  /-- the height of the base of the current chainstate, if it was made from a snapshot -/
  snapshotBase : Option Nat
  snapshots : List SnapshotFile
  s_activated_snapshot_hash : Uint256
  /-- the height of a block of the index -/
  lookupBlockIndex : Uint256 → Option Nat

namespace SyncState

section
variable (s : SyncState)

def checkpoint_interval : Nat := s.params.MandatoryPruneDepth

/-- the most recent checkpoint that is not ahead of a header -/
def target_height (header_height : Nat) : Nat :=
  header_height / s.checkpoint_interval * s.checkpoint_interval

def snapshot_download_active : Bool := s.m_snapshot_downloads.any fun dl => !dl.completed

/-! ## SendMessages -/

def haveLocalSnapshot (header : HeaderChain) : Bool :=
  (match header.getAncestor (s.target_height header.nHeight) with
    | some target => (findSnapshotFile s.snapshots target).isSome
    | none => false) ||
  s.snapshots.any fun entry => hasSidecar s.snapshots entry

def awaitingSnapshotBootstrap : Bool :=
  match s.m_best_header with
  | none => false
  | some header =>
    s.isInitialBlockDownload && decide (s.checkpoint_interval ≤ header.nHeight) &&
      decide (s.tip_height < s.target_height header.nHeight) &&
      (decide ((s.target_height header.nHeight : Int) - s.tip_height > s.checkpoint_interval) ||
        s.haveLocalSnapshot header)

/-! ## MaybeRequestSnapshot -/

def sweptDownloads : List SnapshotDownload :=
  s.m_snapshot_downloads.filter fun dl => !dl.completed && !dl.stalled

/-- the existing snapshot is the latest, or newer -/
def baseIsRecent (target_height : Nat) : Bool :=
  match s.snapshotBase with
  | none => false
  | some existing_height => decide (target_height ≤ existing_height)

/-- from the choice of the header on -/
def requestFor (best_header : HeaderChain) : Option Uint256 :=
  if best_header.nHeight < s.checkpoint_interval then none
  else if s.invalidChainWithMoreWork.isNone &&
      decide ((best_header.nHeight : Int) - s.tip_height < s.checkpoint_interval) then none
  else if s.target_height best_header.nHeight = 0 then none
  else
    match best_header.getAncestor (s.target_height best_header.nHeight) with
    | none => none
    | some checkpoint_hash =>
      if s.sweptDownloads.any fun dl => dl.checkpoint_hash == checkpoint_hash then none
      else if (findSnapshotFile s.snapshots checkpoint_hash).isSome then none
      else if s.baseIsRecent (s.target_height best_header.nHeight) then none
      else some checkpoint_hash

def maybeRequestSnapshot : Option Uint256 :=
  if !s.isInitialBlockDownload && s.invalidChainWithMoreWork.isNone &&
      !s.hasFallenBehindPruneHorizon then none
  else if s.rateLimited then none
  else if s.tip_height < 0 then none
  else
    match s.invalidChainWithMoreWork, s.m_best_header with
    | some best_invalid, _ => s.requestFor best_invalid
    | none, some best_header => s.requestFor best_header
    | none, none => none

/-! ## MaybeActivateAutomaticSnapshot -/

def snapshotHeight (fname : FileName) : Option Int :=
  if DAT.isSuffixOf fname && !DOWNLOAD.isSuffixOf fname then
    (splitDash fname).bind fun p => stoi p.1
  else none

/-- the selection loop, with the best height and file so far -/
def selectNewest : List SnapshotFile → Int × Option SnapshotFile → Int × Option SnapshotFile
  | [], best => best
  | entry :: entries, best =>
    selectNewest entries
      (match snapshotHeight entry.name with
        | some h => if h > best.1 then (h, some entry) else best
        | none => best)

def expectedHash (entry : SnapshotFile) : Option Uint256 :=
  match s.snapshots.find? fun f => f.name == entry.name ++ HASH with
  | none => none
  | some sidecar =>
    match sidecar.hash with
    | none => none
    | some expected_hash => if expected_hash.isNull then none else some expected_hash

def replacesBase (base_blockhash : Uint256) : Bool :=
  match s.snapshotBase with
  | none => true
  | some existing_height => decide (existing_height < (s.lookupBlockIndex base_blockhash).getD 0)

def maybeActivateSnapshot : Option (SnapshotFile × Uint256) :=
  if !s.isInitialBlockDownload && s.invalidChainWithMoreWork.isNone &&
      !s.hasFallenBehindPruneHorizon then none
  else
    match (selectNewest s.snapshots (-1, none)).2 with
    | none => none
    | some entry =>
      match (hashPart entry.name).bind Uint256.fromHex with
      | none => none
      | some snapshot_hash =>
        if snapshot_hash = s.s_activated_snapshot_hash then none
        else if entry.metadata ≠ some snapshot_hash then none
        else if !s.replacesBase snapshot_hash then none
        else if (s.expectedHash entry).isNone then none
        else some (entry, snapshot_hash)

/-! ## the selection loop -/

def Newest (snapshots : List SnapshotFile) (entry : SnapshotFile) : Prop :=
  ∃ pre post h, snapshots = pre ++ entry :: post ∧ snapshotHeight entry.name = some h ∧ -1 < h ∧
    (∀ f ∈ pre, ∀ k, snapshotHeight f.name = some k → k < h) ∧
    (∀ f ∈ post, ∀ k, snapshotHeight f.name = some k → k ≤ h)

theorem selectNewest_append (l l' : List SnapshotFile) (best : Int × Option SnapshotFile) :
    selectNewest (l ++ l') best = selectNewest l' (selectNewest l best) := by
  induction l generalizing best with
  | nil => rfl
  | cons entry l ih => exact ih _

theorem selectNewest_lt {l : List SnapshotFile} {h : Int}
    (hl : ∀ f ∈ l, ∀ k, snapshotHeight f.name = some k → k < h) {best : Int × Option SnapshotFile}
    (hb : best.1 < h) : (selectNewest l best).1 < h := by
  induction l generalizing best with
  | nil => exact hb
  | cons entry l ih =>
    refine ih (fun f hf => hl f (mem_cons_of_mem _ hf)) ?_
    cases hk : snapshotHeight entry.name with
    | none => exact hb
    | some k =>
      show (if k > best.1 then (k, some entry) else best).1 < h
      split
      · exact hl entry mem_cons_self k hk
      · exact hb

theorem selectNewest_of_le {l : List SnapshotFile} {best : Int × Option SnapshotFile}
    (hl : ∀ f ∈ l, ∀ k, snapshotHeight f.name = some k → k ≤ best.1) : selectNewest l best = best := by
  induction l with
  | nil => rfl
  | cons entry l ih =>
    have hrest := ih fun f hf => hl f (mem_cons_of_mem _ hf)
    rw [selectNewest]
    cases hk : snapshotHeight entry.name with
    | none => exact hrest
    | some k =>
      have hle := hl entry mem_cons_self k hk
      simp only
      rw [if_neg (by omega)]
      exact hrest

theorem selectNewest_cases (l : List SnapshotFile) (best : Int × Option SnapshotFile) :
    ((∀ f ∈ l, ∀ k, snapshotHeight f.name = some k → k ≤ best.1) ∧ selectNewest l best = best) ∨
      ∃ pre entry post h, l = pre ++ entry :: post ∧ snapshotHeight entry.name = some h ∧ best.1 < h ∧
        (∀ f ∈ pre, ∀ k, snapshotHeight f.name = some k → k < h) ∧
        (∀ f ∈ post, ∀ k, snapshotHeight f.name = some k → k ≤ h) ∧
        selectNewest l best = (h, some entry) := by
  induction l generalizing best with
  | nil => exact .inl ⟨by simp, rfl⟩
  | cons entry l ih =>
    -- what the head does to the best one so far
    have hhead : (∀ k, snapshotHeight entry.name = some k → k ≤ best.1) ∧
          selectNewest (entry :: l) best = selectNewest l best ∨
        ∃ h, snapshotHeight entry.name = some h ∧ best.1 < h ∧
          selectNewest (entry :: l) best = selectNewest l (h, some entry) := by
      cases hk : snapshotHeight entry.name with
      | none => exact .inl ⟨by simp, by rw [selectNewest, hk]⟩
      | some h =>
        by_cases hlt : h > best.1
        · exact .inr ⟨h, rfl, hlt, by rw [selectNewest, hk]; simp only [if_pos hlt]⟩
        · refine .inl ⟨fun k hk' => ?_, by rw [selectNewest, hk]; simp only [if_neg hlt]⟩
          cases hk'
          omega
    rcases hhead with ⟨hle, heq⟩ | ⟨h, hh, hlt, heq⟩
    · rcases ih best with ⟨hall, hres⟩ | ⟨pre, e, post, k, rfl, hk, hbk, hpre, hpost, hres⟩
      · refine .inl ⟨fun f hf => ?_, heq.trans hres⟩
        rcases mem_cons.mp hf with rfl | hf
        · exact hle
        · exact hall f hf
      · refine .inr ⟨entry :: pre, e, post, k, rfl, hk, hbk, fun f hf j hj => ?_, hpost,
          heq.trans hres⟩
        rcases mem_cons.mp hf with rfl | hf
        · exact lt_of_le_of_lt (hle j hj) hbk
        · exact hpre f hf j hj
    · rcases ih (h, some entry) with ⟨hall, hres⟩ | ⟨pre, e, post, k, rfl, hk, hbk, hpre, hpost, hres⟩
      · exact .inr ⟨[], entry, l, h, rfl, hh, hlt, by simp, hall, heq.trans hres⟩
      · refine .inr ⟨entry :: pre, e, post, k, rfl, hk, lt_trans hlt hbk, fun f hf j hj => ?_, hpost,
          heq.trans hres⟩
        rcases mem_cons.mp hf with rfl | hf
        · rw [hh] at hj
          cases hj
          exact hbk
        · exact hpre f hf j hj

theorem selectNewest_eq_some_iff (snapshots : List SnapshotFile) (entry : SnapshotFile) :
    (selectNewest snapshots (-1, none)).2 = some entry ↔ Newest snapshots entry := by
  constructor
  · intro hsel
    rcases selectNewest_cases snapshots (-1, none) with ⟨-, hres⟩ |
      ⟨pre, e, post, h, hl, hh, hlt, hpre, hpost, hres⟩
    · rw [hres] at hsel
      cases hsel
    · rw [hres] at hsel
      obtain rfl := Option.some.inj hsel
      exact ⟨pre, post, h, hl, hh, hlt, hpre, hpost⟩
  · rintro ⟨pre, post, h, rfl, hh, hlt, hpre, hpost⟩
    rw [selectNewest_append, selectNewest, hh]
    simp only [if_pos (selectNewest_lt hpre (show ((-1 : Int), (none : Option SnapshotFile)).1 < h from hlt))]
    rw [selectNewest_of_le hpost]

/-! ## a node that waits -/

/-- a request can go out: the best header is a checkpoint interval ahead of the tip, or one with
more work that leads an invalid chain is past the first checkpoint; there is no file of the last
checkpoint of that header; and the snapshot that the chainstate was made from is older -/
def RequestOpen : Prop :=
  ∃ header, s.invalidChainWithMoreWork.or s.m_best_header = some header ∧
    (if s.invalidChainWithMoreWork.isSome then s.checkpoint_interval ≤ header.nHeight
      else (s.checkpoint_interval : Int) ≤ header.nHeight - s.tip_height) ∧
    (∀ entry ∈ s.snapshots,
      isSnapshotOf (header.hash (s.target_height header.nHeight)) entry = false) ∧
    ∀ base, s.snapshotBase = some base → base < s.target_height header.nHeight

/-- the newest file can be used: its name and its metadata agree on a base that was not activated
yet, is above the tip and above the old base, and its sidecar holds a hash -/
def ActivationOpen : Prop :=
  ∃ entry base_blockhash height, Newest s.snapshots entry ∧
    (hashPart entry.name).bind Uint256.fromHex = some base_blockhash ∧
    base_blockhash ≠ s.s_activated_snapshot_hash ∧ entry.metadata = some base_blockhash ∧
    (s.expectedHash entry).isSome = true ∧
    s.lookupBlockIndex base_blockhash = some height ∧ s.tip_height < height ∧
    ∀ base, s.snapshotBase = some base → base < height

theorem target_height_le (h : Nat) : s.target_height h ≤ h := Nat.div_mul_le_self ..

end

variable {s : SyncState}

theorem target_height_pos (hD : 0 < s.checkpoint_interval) {h : Nat}
    (hle : s.checkpoint_interval ≤ h) : 0 < s.target_height h :=
  Nat.mul_pos (Nat.div_pos hle hD) hD

theorem findSnapshotFile_isSome {snapshots : List SnapshotFile} {checkpoint_hash : Uint256} :
    (findSnapshotFile snapshots checkpoint_hash).isSome = false ↔
      ∀ entry ∈ snapshots, isSnapshotOf checkpoint_hash entry = false := by
  rw [findSnapshotFile]
  simp

theorem fileExists_of_expectedHash {entry : SnapshotFile} (h : (s.expectedHash entry).isSome = true) :
    fileExists s.snapshots (entry.name ++ HASH) = true := by
  unfold expectedHash at h
  split at h
  · cases h
  · rename_i sidecar hfind
    rw [fileExists, any_eq_true]
    exact ⟨sidecar, mem_of_find?_eq_some hfind, by simpa using find?_some hfind⟩

theorem baseIsRecent_eq_false {target : Nat} :
    s.baseIsRecent target = false ↔ ∀ base, s.snapshotBase = some base → base < target := by
  unfold baseIsRecent
  cases s.snapshotBase with
  | none => simp
  | some existing => simp

theorem replacesBase_iff {base_blockhash : Uint256} {height : Nat}
    (h : s.lookupBlockIndex base_blockhash = some height) :
    s.replacesBase base_blockhash = true ↔ ∀ base, s.snapshotBase = some base → base < height := by
  unfold replacesBase
  rw [h]
  cases s.snapshotBase with
  | none => simp
  | some existing => simp

theorem sweptDownloads_eq_nil (h : s.snapshot_download_active = false) : s.sweptDownloads = [] := by
  rw [sweptDownloads, filter_eq_nil_iff]
  intro dl hdl
  have hdone : dl.completed = true := by
    by_contra hne
    have : s.snapshot_download_active = true := any_eq_true.mpr ⟨dl, hdl, by simpa using hne⟩
    rw [h] at this
    cases this
  simp [hdone]

theorem requestFor_isSome_iff (hD : 0 < s.checkpoint_interval)
    (hdl : s.snapshot_download_active = false) (htip : 0 ≤ s.tip_height) (header : HeaderChain) :
    (s.requestFor header).isSome = true ↔
      (if s.invalidChainWithMoreWork.isSome then s.checkpoint_interval ≤ header.nHeight
        else (s.checkpoint_interval : Int) ≤ header.nHeight - s.tip_height) ∧
      (∀ entry ∈ s.snapshots,
        isSnapshotOf (header.hash (s.target_height header.nHeight)) entry = false) ∧
      ∀ base, s.snapshotBase = some base → base < s.target_height header.nHeight := by
  rw [← findSnapshotFile_isSome, ← baseIsRecent_eq_false, requestFor, sweptDownloads_eq_nil hdl]
  -- the two tests of the header's height are one: no tip is below zero
  have hahead : (if s.invalidChainWithMoreWork.isSome then s.checkpoint_interval ≤ header.nHeight
        else (s.checkpoint_interval : Int) ≤ header.nHeight - s.tip_height) ↔
      ¬ header.nHeight < s.checkpoint_interval ∧
        (s.invalidChainWithMoreWork.isNone &&
          decide ((header.nHeight : Int) - s.tip_height < s.checkpoint_interval)) = false := by
    cases s.invalidChainWithMoreWork with
    | none =>
      simp only [Option.isSome_none, Bool.false_eq_true, if_false, Option.isNone_none, Bool.true_and,
        decide_eq_false_iff_not]
      omega
    | some best_invalid => simp
  rw [hahead]
  by_cases hH : header.nHeight < s.checkpoint_interval
  · simp [hH]
  · rw [if_neg hH]
    cases s.invalidChainWithMoreWork.isNone &&
        decide ((header.nHeight : Int) - s.tip_height < s.checkpoint_interval) with
    | true => simp
    | false =>
      have htarget := target_height_pos hD (Nat.le_of_not_lt hH)
      have hanc : header.getAncestor (s.target_height header.nHeight) =
          some (header.hash (s.target_height header.nHeight)) := if_pos (target_height_le s _)
      rw [if_neg (by simp), if_neg (by omega), hanc]
      simp only [any_nil, Bool.false_eq_true, if_false]
      cases (findSnapshotFile s.snapshots (header.hash (s.target_height header.nHeight))).isSome <;>
        cases s.baseIsRecent (s.target_height header.nHeight) <;> simp [hH]

theorem maybeRequestSnapshot_isSome_iff (hD : 0 < s.checkpoint_interval)
    (hibd : s.isInitialBlockDownload = true) (hrate : s.rateLimited = false)
    (hdl : s.snapshot_download_active = false) (htip : 0 ≤ s.tip_height) :
    s.maybeRequestSnapshot.isSome = true ↔ RequestOpen s := by
  unfold maybeRequestSnapshot RequestOpen
  rw [hibd, hrate, if_neg (by simp), if_neg (by simp), if_neg (by omega)]
  cases hinv : s.invalidChainWithMoreWork with
  | some best_invalid =>
    simp only [Option.some_or, Option.some.injEq, exists_eq_left']
    rw [requestFor_isSome_iff hD hdl htip, hinv]
  | none =>
    cases hhead : s.m_best_header with
    | none => simp
    | some best_header =>
      simp only [Option.none_or, Option.some.injEq, exists_eq_left']
      rw [requestFor_isSome_iff hD hdl htip, hinv]

theorem maybeActivateSnapshot_iff (hibd : s.isInitialBlockDownload = true) :
    (∃ entry base_blockhash height, s.maybeActivateSnapshot = some (entry, base_blockhash) ∧
      fileExists s.snapshots (entry.name ++ HASH) = true ∧
      s.lookupBlockIndex base_blockhash = some height ∧ s.tip_height < height) ↔
      ActivationOpen s := by
  unfold maybeActivateSnapshot ActivationOpen
  rw [hibd, if_neg (by simp)]
  constructor
  · rintro ⟨entry, base, height, hact, -, hlookup, habove⟩
    split at hact
    · cases hact
    rename_i entry' hsel
    split at hact
    · cases hact
    rename_i hash hparse
    split at hact
    · cases hact
    rename_i hnew
    split at hact
    · cases hact
    rename_i hmeta
    split at hact
    · cases hact
    rename_i hrepl
    split at hact
    · cases hact
    rename_i hexp
    obtain ⟨rfl, rfl⟩ := Prod.mk.inj (Option.some.inj hact)
    refine ⟨entry', hash, height, (selectNewest_eq_some_iff _ _).mp hsel, hparse, hnew,
      not_not.mp hmeta, ?_, hlookup, habove, (replacesBase_iff hlookup).mp (by simpa using hrepl)⟩
    cases he : s.expectedHash entry' with
    | none => exact absurd (by rw [he]; rfl) hexp
    | some h => rfl
  · rintro ⟨entry, base, height, hnewest, hparse, hnew, hmeta, hexp, hlookup, habove, hbase⟩
    refine ⟨entry, base, height, ?_, fileExists_of_expectedHash hexp, hlookup, habove⟩
    rw [(selectNewest_eq_some_iff _ _).mpr hnewest]
    simp only [hparse]
    rw [if_neg hnew, if_neg (not_not.mpr hmeta), (replacesBase_iff hlookup).mpr hbase]
    cases he : s.expectedHash entry with
    | none => rw [he] at hexp; cases hexp
    | some h => rfl

/-- **when a waiting node is served**: of a node in initial block download, waiting or not, with no
download in progress, a request goes out or a newer snapshot is tried, the rate limit aside,
exactly if one of the two is open to it -/
theorem snapshot_wait_served_iff (s : SyncState) (hD : 0 < s.checkpoint_interval)
    (hibd : s.isInitialBlockDownload = true) (hrate : s.rateLimited = false)
    (hdl : s.snapshot_download_active = false) (htip : 0 ≤ s.tip_height) :
    (s.maybeRequestSnapshot.isSome = true ∨
      ∃ entry base_blockhash height, s.maybeActivateSnapshot = some (entry, base_blockhash) ∧
        fileExists s.snapshots (entry.name ++ HASH) = true ∧
        s.lookupBlockIndex base_blockhash = some height ∧ s.tip_height < height) ↔
      RequestOpen s ∨ ActivationOpen s := by
  rw [maybeRequestSnapshot_isSome_iff hD hibd hrate hdl htip, maybeActivateSnapshot_iff hibd]

/-! ## a node that bootstrapped and fell asleep -/

def sampleName : FileName := ['1', '0', '0', '-'] ++ (Uint256.ofByte 100).getHex ++ DAT

/-- a regtest node at height `tip` in a chain of headers up to height 250, with the files given -/
def sampleSync (tip : Int) (base : Option Nat) (snapshots : List SnapshotFile) : SyncState where
  params := regTestParams
  isInitialBlockDownload := true
  invalidChainWithMoreWork := none
  hasFallenBehindPruneHorizon := false
  rateLimited := false
  m_snapshot_downloads := []
  tip_height := tip
  m_best_header := some ⟨250, fun h => Uint256.ofByte (UInt8.ofNat h)⟩
  snapshotBase := base
  snapshots := snapshots
  s_activated_snapshot_hash := Uint256.ofByte 100
  lookupBlockIndex _ := some 100

/-- after the snapshot of height 100 was activated and the tip reached 160, the node's own old file
makes it wait: the next checkpoint is less than an interval away, so no request goes out, and there
is nothing new to activate -/
theorem snapshot_wait_unserved :
    let s := sampleSync 160 (some 100)
      [⟨sampleName, some (Uint256.ofByte 100), none⟩, ⟨sampleName ++ HASH, none, some (Uint256.ofByte 1)⟩]
    s.awaitingSnapshotBootstrap = true ∧ s.isInitialBlockDownload = true ∧
      s.snapshot_download_active = false ∧ s.rateLimited = false ∧
      s.maybeRequestSnapshot = none ∧ s.maybeActivateSnapshot = none := by
  decide

theorem snapshot_wait_served_far_behind :
    (sampleSync 10 none []).awaitingSnapshotBootstrap = true ∧
      ((sampleSync 10 none []).maybeRequestSnapshot.isSome = true ∨
        ∃ entry base_blockhash height,
          (sampleSync 10 none []).maybeActivateSnapshot = some (entry, base_blockhash) ∧
          fileExists (sampleSync 10 none []).snapshots (entry.name ++ HASH) = true ∧
          (sampleSync 10 none []).lookupBlockIndex base_blockhash = some height ∧
          (sampleSync 10 none []).tip_height < height) := by
  refine ⟨by decide, (snapshot_wait_served_iff (sampleSync 10 none []) (by decide) rfl rfl rfl
    (by decide)).mpr (.inl ⟨_, rfl, ?_, ?_, ?_⟩)⟩
  · decide
  · intro entry h
    cases h
  · intro base h
    cases h

end SyncState

end ElektronNet
