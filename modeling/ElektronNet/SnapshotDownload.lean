import Mathlib.Data.List.Find
import Mathlib.Data.List.TakeWhile
import ElektronNet.Lib.Patches
import ElektronNet.SnapshotPeers

/-!
# What a downloaded snapshot file consists of

A download has its ranges in memory and its bytes in a temporary file.  A restart forgets the ranges
and keeps the file, and a new download of the same checkpoint goes on in it without truncating it.

* `restart`          what is left of the downloads when the node comes up again
* `WatchedNode`      a node with a record of each download: how long its temporary file was when it
                     began, and the chunks it has accepted
* `Tracked`          the file of a download is what was there with the chunks written over it
* `renamed_exact_iff`  the renamed file is what was received exactly if it did not begin too long
* `downloaded_after_restart`   a shorter file after a restart
-/

set_option linter.unusedSectionVars false

namespace ElektronNet

open List Patches

/-! ## ranges -/

def InRanges (ranges : List (Nat × Nat)) (i : Nat) : Prop := ∃ r ∈ ranges, r.1 ≤ i ∧ i < r.2

theorem mergeRanges_sound {offset stop : Nat} {ranges : List (Nat × Nat)} {i : Nat}
    (h : InRanges (mergeRanges offset stop ranges) i) :
    (offset ≤ i ∧ i < stop) ∨ InRanges ranges i := by
  induction ranges generalizing stop with
  | nil =>
    obtain ⟨r, hr, hin⟩ := h
    rw [mergeRanges, mem_singleton] at hr
    subst hr
    exact Or.inl hin
  | cons r ranges ih =>
    rw [mergeRanges] at h
    split at h
    · -- the two ranges touch, so that a position of the merged one is in one of them
      rcases ih h with hmerged | ⟨q, hq, hin⟩
      · by_cases hi : i < stop
        · exact Or.inl ⟨hmerged.1, hi⟩
        · exact Or.inr ⟨r, mem_cons_self, by omega, by omega⟩
      · exact Or.inr ⟨q, mem_cons_of_mem r hq, hin⟩
    · obtain ⟨q, hq, hin⟩ := h
      rcases mem_cons.mp hq with rfl | hq
      · exact Or.inl hin
      · exact Or.inr ⟨q, hq, hin⟩

/-- **a range that is added covers no position that did not arrive** -/
theorem addRange_sound {ranges : List (Nat × Nat)} {offset length i : Nat}
    (h : InRanges (addRange ranges offset length) i) :
    (offset ≤ i ∧ i < offset + length) ∨ InRanges ranges i := by
  have hlater : ∀ {r}, r ∈ ranges.dropWhile (fun r => r.1 < offset) → r ∈ ranges :=
    fun hr => (dropWhile_sublist _).subset hr
  have hearlier : ∀ {r}, r ∈ ranges.takeWhile (fun r => r.1 < offset) → r ∈ ranges :=
    fun hr => (takeWhile_sublist _).subset hr
  unfold addRange at h
  split at h
  · exact Or.inr h
  dsimp only at h
  split at h
  · rcases mergeRanges_sound h with hnew | ⟨r, hr, hin⟩
    · exact Or.inl hnew
    · exact Or.inr ⟨r, hlater hr, hin⟩
  · rename_i prev hprev
    have hmem : prev ∈ ranges.takeWhile (fun r => r.1 < offset) := mem_of_getLast? hprev
    split at h
    · rename_i htouch
      obtain ⟨r, hr, hin⟩ := h
      rcases mem_append.mp hr with hr | hr
      · exact Or.inr ⟨r, hearlier (mem_of_mem_dropLast hr), hin⟩
      · rcases mergeRanges_sound ⟨r, hr, hin⟩ with hmerged | ⟨q, hq, hin'⟩
        · by_cases hi : offset ≤ i ∧ i < offset + length
          · exact Or.inl hi
          · exact Or.inr ⟨prev, hearlier hmem, by omega, by omega⟩
        · exact Or.inr ⟨q, hlater hq, hin'⟩
    · obtain ⟨r, hr, hin⟩ := h
      rcases mem_append.mp hr with hr | hr
      · exact Or.inr ⟨r, hearlier hr, hin⟩
      · rcases mergeRanges_sound ⟨r, hr, hin⟩ with hnew | ⟨q, hq, hin'⟩
        · exact Or.inl hnew
        · exact Or.inr ⟨q, hlater hq, hin'⟩

theorem rangesComplete_covers {file_size : Nat} {ranges : List (Nat × Nat)}
    (h : rangesComplete file_size ranges = true) :
    0 < file_size ∧ ∀ i, i < file_size → InRanges ranges i := by
  rw [rangesComplete, Bool.and_eq_true, bne_iff_ne] at h
  refine ⟨Nat.pos_of_ne_zero h.1, fun i hi => ?_⟩
  cases ranges with
  | nil => exact absurd h.2 Bool.false_ne_true
  | cons r ranges =>
    have hfirst : r.1 = 0 ∧ file_size ≤ r.2 := by simpa using h.2
    exact ⟨r, mem_cons_self, by omega, by omega⟩

/-! ## names -/

theorem hexDigit_injective : ∀ a < 16, ∀ b < 16, Uint256.hexDigit a = Uint256.hexDigit b → a = b := by
  decide

theorem hexDigits_injective {l l' : Bytes}
    (h : (l.flatMap fun b => [Uint256.hexDigit (b.toNat / 16), Uint256.hexDigit (b.toNat % 16)]) =
      l'.flatMap fun b => [Uint256.hexDigit (b.toNat / 16), Uint256.hexDigit (b.toNat % 16)]) :
    l = l' := by
  induction l generalizing l' with
  | nil =>
    cases l' with
    | nil => rfl
    | cons b l' => cases h
  | cons b l ih =>
    cases l' with
    | nil => cases h
    | cons b' l' =>
      obtain ⟨hhigh, h⟩ := List.cons.inj h
      obtain ⟨hlow, h⟩ := List.cons.inj h
      have hb := b.toNat_lt
      have hb' := b'.toNat_lt
      have hdiv := hexDigit_injective _ (by omega) _ (by omega) hhigh
      have hmod := hexDigit_injective _ (by omega) _ (by omega) hlow
      have heq : b = b' := UInt8.toNat_inj.mp (by omega)
      rw [heq, ih h]

theorem getHex_injective {a b : Uint256} (h : a.getHex = b.getHex) : a = b :=
  Uint256.data_injective (reverse_injective (hexDigits_injective h))

theorem length_getHex (a : Uint256) : a.getHex.length = 64 := by
  have hlen : ∀ l : Bytes, (l.flatMap fun b =>
      [Uint256.hexDigit (b.toNat / 16), Uint256.hexDigit (b.toNat % 16)]).length = 2 * l.length := by
    intro l
    induction l with
    | nil => rfl
    | cons b l ih =>
      rw [flatMap_cons, length_append, ih]
      show 2 + 2 * l.length = 2 * (l.length + 1)
      omega
  rw [Uint256.getHex, hlen, length_reverse, a.size_eq]

theorem tempPath_injective {m n : Int} {a b : Uint256} (h : tempPath m a = tempPath n b) : a = b := by
  have htail : ∀ (k : Int) (c : Uint256), tempPath k c =
      (formatInt k ++ ['-']) ++ (c.getHex ++ (DAT ++ DOWNLOAD)) := by
    intro k c
    unfold tempPath finalPath
    rw [append_assoc, append_assoc, append_assoc]
    rfl
  rw [htail, htail] at h
  have hlen : (a.getHex ++ (DAT ++ DOWNLOAD)).length = (b.getHex ++ (DAT ++ DOWNLOAD)).length := by
    rw [length_append, length_getHex, @length_append _ b.getHex, length_getHex]
  exact getHex_injective (append_cancel_right (append_inj_right' h hlen))

theorem tempPath_ne_hash (n : Int) (a : Uint256) (fname : FileName) : tempPath n a ≠ fname ++ HASH := by
  intro h
  have hsuffix : HASH <:+ finalPath n a ++ DOWNLOAD := by
    rw [← tempPath, h]
    exact suffix_append fname HASH
  have := suffix_of_suffix_length_le hsuffix (suffix_append (finalPath n a) DOWNLOAD)
    (by decide)
  exact absurd this (by decide)

theorem tempPath_ne_final (n k : Int) (a b : Uint256) : tempPath n a ≠ finalPath k b := by
  intro h
  have hdat : isDat (finalPath k b) = true :=
    isSuffixOf_iff_suffix.mpr (suffix_append _ DAT)
  rw [← h, tempPath, isDat_append (by decide) (by decide)] at hdat
  cases hdat

/-! ## files -/

namespace Directory

variable (d : Directory)

theorem write_read_self (fname : FileName) (bytes : Bytes) :
    (d.write fname bytes).read fname = some bytes := by
  unfold write
  split
  · rename_i h
    obtain ⟨f, hf, hname⟩ := any_eq_true.mp h
    have hfun : ((fun f : FileName × Option Bytes => f.1 == fname) ∘ fun f =>
        if f.1 = fname then (fname, some bytes) else f) = fun f => f.1 == fname := by
      funext f
      rw [Function.comp_apply]
      split
      · rename_i hf
        rw [hf]
      · rfl
    obtain ⟨g, hg⟩ : ∃ g, d.files.find? (fun f => f.1 == fname) = some g :=
      Option.isSome_iff_exists.mp (find?_isSome.mpr ⟨f, hf, hname⟩)
    have hgname : g.1 = fname := by simpa using find?_some hg
    rw [read, find?_map, hfun, hg, Option.map_some, if_pos hgname]
    rfl
  · rename_i h
    have hnone : d.files.find? (fun f => f.1 == fname) = none := by
      rw [find?_eq_none]
      intro f hf hname
      exact h (any_eq_true.mpr ⟨f, hf, hname⟩)
    rw [read, find?_append, hnone]
    simp

theorem write_same {fname other : FileName} (bytes : Bytes) (hne : other ≠ fname) :
    Same d (d.write fname bytes) other := by
  unfold write
  split
  · have hfun : ((fun f : FileName × Option Bytes => f.1 == other) ∘ fun f =>
        if f.1 = fname then (fname, some bytes) else f) = fun f => f.1 == other := by
      funext f
      rw [Function.comp_apply]
      split
      · rename_i hf
        rw [hf]
      · rfl
    refine ⟨?_, ?_⟩
    · rw [read, find?_map, hfun, read]
      cases hg : d.files.find? (fun f => f.1 == other) with
      | none => rfl
      | some g =>
        have hgname : g.1 = other := by simpa using find?_some hg
        rw [Option.map_some, if_neg (hgname ▸ hne)]
    · rw [← contains_iff, ← contains_iff, contains, contains, any_map, hfun]
  · refine ⟨?_, ?_⟩
    · rw [read, find?_append, find?_singleton, read]
      have hno : ((fname, some bytes).1 == other) = false := by
        simpa using Ne.symm hne
      rw [hno]
      cases d.files.find? (fun f => f.1 == other) <;> rfl
    · rw [map_append, mem_append, map_singleton, mem_singleton]
      exact or_iff_left hne

theorem rename_read {path target : FileName} (hne : path ≠ target) :
    (d.rename path target).read target = d.read path := by
  rw [← (remove_same d hne).1, read, rename, find?_map, Option.bind_map]
  have hfind : (d.remove target).files.find? ((fun f : FileName × Option Bytes => f.1 == target) ∘
      fun f => (renamed path target f.1, f.2)) = (d.remove target).files.find? fun f => f.1 == path := by
    refine find?_congr fun f hf => ?_
    have hf' : f.1 ≠ target := by simpa using (mem_filter.mp hf).2
    rw [Function.comp_apply, Bool.eq_iff_iff, beq_iff_eq, beq_iff_eq]
    show (if f.1 = path then target else f.1) = target ↔ f.1 = path
    split
    · rename_i hp
      exact ⟨fun _ => hp, fun _ => rfl⟩
    · rename_i hp
      exact ⟨fun h => absurd h hf', fun h => absurd h hp⟩
  rw [hfind]
  rfl

end Directory

/-! ## restarts, and the record of a download -/

/-- the files are there again, the downloads are not -/
def BootstrapNode.restart {G : Type} (node : BootstrapNode G) (chainman : ChainstateManager G) :
    BootstrapNode G where
  chainman := chainman
  snapshots := node.snapshots
  s_activated_snapshot_hash := Uint256.zero
  m_snapshot_bootstrap_target := Uint256.zero
  m_snapshot_downloads := FMap.empty

/-- `chainman` is what the node loads when it comes up -/
inductive DownloadEvent (G : Type) where
  | peers (event : BootstrapEvent G)
  | restart (chainman : ChainstateManager G)

/-- the record of a download: the length of its temporary file when it began, and the chunks that
were written into it, the last one first -/
structure Began where
  held : Nat
  chunks : List (Nat × Bytes)

structure WatchedNode (G : Type) extends BootstrapNode G where
  began : FMap Uint256 Began

/-- the chunk is written into the temporary file -/
def BootstrapNode.accepts {G : Type} (node : BootstrapNode G) (checkpoint_hash : Uint256)
    (offset : Nat) (data : Bytes) : Bool :=
  match node.m_snapshot_downloads.get checkpoint_hash with
  | none => false
  | some dl => decide (dl.completed = false ∧ offset < dl.file_size ∧ data ≠ [] ∧
      offset + data.length ≤ dl.file_size) &&
    (node.snapshots.read (tempPath dl.checkpoint_height checkpoint_hash)).isSome

namespace WatchedNode

section
variable {G : Type} [CommGroup G]

def noteAdvertise (w : WatchedNode G) (gate : Bool) (checkpoint_height : Int)
    (checkpoint_hash utxo_hash : Uint256) (file_size : Nat) : FMap Uint256 Began :=
  if w.m_snapshot_downloads.get checkpoint_hash = none ∧
      ((w.advertise gate checkpoint_height checkpoint_hash utxo_hash
        file_size).m_snapshot_downloads.get checkpoint_hash).isSome then
    w.began.insert checkpoint_hash
      ⟨((w.snapshots.read (tempPath checkpoint_height checkpoint_hash)).getD []).length, []⟩
  else w.began

def noteChunk (w : WatchedNode G) (checkpoint_hash : Uint256) (offset : Nat) (data : Bytes) :
    FMap Uint256 Began :=
  match w.began.get checkpoint_hash with
  | none => w.began
  | some b =>
    if w.accepts checkpoint_hash offset data then
      w.began.insert checkpoint_hash { b with chunks := (offset, data) :: b.chunks }
    else w.began

def note (w : WatchedNode G) : BootstrapEvent G → FMap Uint256 Began
  | .message gate _ (.utxosnapshot checkpoint_height checkpoint_hash utxo_hash file_size) =>
    w.noteAdvertise gate checkpoint_height checkpoint_hash utxo_hash file_size
  | .message _ _ (.snapshotdata checkpoint_hash offset data) => w.noteChunk checkpoint_hash offset data
  | .request _ _ _ => w.began

variable (network_magic : MessageStart) (P : CChainParams)

def watch (w : WatchedNode G) : DownloadEvent G → WatchedNode G
  | .peers event => ⟨w.toBootstrapNode.handle network_magic P event, w.note event⟩
  | .restart chainman => ⟨w.toBootstrapNode.restart chainman, w.began⟩

def watchAll (node : BootstrapNode G) (events : List (DownloadEvent G)) : WatchedNode G :=
  events.foldl (watch network_magic P) ⟨node, FMap.empty⟩

end

end WatchedNode

/-! ## the invariant -/

/-- the file and the ranges of a download against its record -/
structure Traces (d : Directory) (checkpoint_hash : Uint256) (dl : DownloadState) (b : Began) : Prop where
  ranges : ∀ i, InRanges dl.received_ranges i → Covered b.chunks i
  file : ∀ file, d.read (tempPath dl.checkpoint_height checkpoint_hash) = some file →
    Assembled b.held dl.file_size b.chunks file

variable {checkpoint_hash : Uint256} {dl : DownloadState} {b : Began} {file : Bytes}

theorem Traces.same {d d' : Directory} (h : Traces d checkpoint_hash dl b)
    (hs : Directory.Same d d' (tempPath dl.checkpoint_height checkpoint_hash)) :
    Traces d' checkpoint_hash dl b := by
  refine ⟨h.ranges, fun file hfile => h.file file ?_⟩
  rw [← hs.1]
  exact hfile

/-! ## what one event does -/

def begunFiles (d : Directory) (checkpoint_height : Int) (checkpoint_hash utxo_hash : Uint256) :
    Directory :=
  let d := d.write (finalPath checkpoint_height checkpoint_hash ++ HASH) utxo_hash.data
  if d.contains (tempPath checkpoint_height checkpoint_hash) then d
  else d.write (tempPath checkpoint_height checkpoint_hash) []

theorem begunFiles_read {d : Directory} {checkpoint_height : Int} {utxo_hash : Uint256}
    (h : (begunFiles d checkpoint_height checkpoint_hash utxo_hash).read
      (tempPath checkpoint_height checkpoint_hash) = some file) :
    (d.read (tempPath checkpoint_height checkpoint_hash)).getD [] = file := by
  have hside := Directory.write_same d utxo_hash.data
    (tempPath_ne_hash checkpoint_height checkpoint_hash (finalPath checkpoint_height checkpoint_hash))
  unfold begunFiles at h
  dsimp only at h
  split at h
  · rw [hside.1] at h
    rw [h]
    rfl
  · rename_i hno
    rw [Directory.write_read_self] at h
    cases h
    have hmissing : d.read (tempPath checkpoint_height checkpoint_hash) = none := by
      rw [← hside.1]
      refine Option.bind_eq_none_iff.mpr fun f hf => ?_
      exact absurd (any_eq_true.mpr ⟨f, mem_of_find?_eq_some hf, find?_some hf⟩) hno
    rw [hmissing]
    rfl

theorem begunFiles_same (d : Directory) (checkpoint_height n : Int)
    {other : Uint256} (utxo_hash : Uint256) (hne : other ≠ checkpoint_hash) :
    Directory.Same d (begunFiles d checkpoint_height checkpoint_hash utxo_hash) (tempPath n other) := by
  have hside := Directory.write_same d utxo_hash.data
    (tempPath_ne_hash n other (finalPath checkpoint_height checkpoint_hash))
  have htemp : tempPath n other ≠ tempPath checkpoint_height checkpoint_hash :=
    fun heq => hne (tempPath_injective heq)
  unfold begunFiles
  dsimp only
  split
  · exact hside
  · exact hside.trans (Directory.write_same _ [] htemp)

namespace BootstrapNode

section
variable {G : Type} [CommGroup G]

theorem advertise_eq (node : BootstrapNode G) (gate : Bool) (checkpoint_height : Int)
    (checkpoint_hash utxo_hash : Uint256) (file_size : Nat) :
    node.advertise gate checkpoint_height checkpoint_hash utxo_hash file_size =
      if node.Begins gate checkpoint_height checkpoint_hash file_size then
        { node with
          snapshots := begunFiles node.snapshots checkpoint_height checkpoint_hash utxo_hash
          m_snapshot_downloads := node.m_snapshot_downloads.insert checkpoint_hash
            ⟨checkpoint_height, file_size, [], false, utxo_hash⟩ }
      else node := by
  unfold advertise
  split
  · rename_i hasked
    split
    · rename_i hsize
      rw [if_neg fun hb => Nat.not_lt.mpr hb.2.1 hsize]
    · rename_i hsize
      split
      · rename_i hfile
        rw [if_neg fun hb => by rw [hb.2.2] at hfile; cases hfile]
      · rename_i hfile
        rw [if_pos ⟨hasked, Nat.not_lt.mp hsize, by simpa using hfile⟩]
        rfl
  · rename_i hasked
    rw [if_neg fun hb => hasked hb.1]

/-- a chunk of the download `dl` goes into the file -/
structure Chunk (node : BootstrapNode G) (checkpoint_hash : Uint256) (offset : Nat) (data : Bytes)
    (dl : DownloadState) (file : Bytes) : Prop where
  download : node.m_snapshot_downloads.get checkpoint_hash = some dl
  fits : offset + data.length ≤ dl.file_size
  read : node.snapshots.read (tempPath dl.checkpoint_height checkpoint_hash) = some file

def grown (dl : DownloadState) (offset : Nat) (data : Bytes) : DownloadState :=
  { dl with received_ranges := addRange dl.received_ranges offset data.length }

def chunkFiles (node : BootstrapNode G) (checkpoint_hash : Uint256) (dl : DownloadState) (file : Bytes)
    (offset : Nat) (data : Bytes) : Directory :=
  node.snapshots.write (tempPath dl.checkpoint_height checkpoint_hash) (writeAt file offset data)

theorem receiveChunk_cases (node : BootstrapNode G) (renames : Bool) (checkpoint_hash : Uint256)
    (offset : Nat) (data : Bytes) :
    (node.accepts checkpoint_hash offset data = false ∧
        node.receiveChunk renames checkpoint_hash offset data = node) ∨
      node.accepts checkpoint_hash offset data = true ∧ ∃ dl file,
        Chunk node checkpoint_hash offset data dl file ∧
        ((rangesComplete dl.file_size (grown dl offset data).received_ranges = true ∧
            node.receiveChunk renames checkpoint_hash offset data =
              { node with
                snapshots := (chunkFiles node checkpoint_hash dl file offset data).rename
                  (tempPath dl.checkpoint_height checkpoint_hash)
                  (finalPath dl.checkpoint_height checkpoint_hash)
                m_snapshot_downloads := node.m_snapshot_downloads.erase checkpoint_hash }) ∨
          ∃ completed, node.receiveChunk renames checkpoint_hash offset data =
            { node with
              snapshots := chunkFiles node checkpoint_hash dl file offset data
              m_snapshot_downloads := node.m_snapshot_downloads.insert checkpoint_hash
                { grown dl offset data with completed := completed } }) := by
  unfold receiveChunk accepts
  cases hdl : node.m_snapshot_downloads.get checkpoint_hash with
  | none => exact Or.inl ⟨rfl, rfl⟩
  | some dl =>
    dsimp only
    by_cases hcond : dl.completed = false ∧ offset < dl.file_size ∧ data ≠ [] ∧
        offset + data.length ≤ dl.file_size
    · rw [if_pos hcond, decide_eq_true hcond]
      cases hread : node.snapshots.read (tempPath dl.checkpoint_height checkpoint_hash) with
      | none => exact Or.inl ⟨rfl, rfl⟩
      | some file =>
        refine Or.inr ⟨rfl, dl, file, ⟨hdl, hcond.2.2.2, hread⟩, ?_⟩
        dsimp only
        split
        · rename_i hcomplete
          cases renames with
          | true => exact Or.inl ⟨hcomplete.1, rfl⟩
          | false => exact Or.inr ⟨true, rfl⟩
        · exact Or.inr ⟨dl.completed, rfl⟩
    · rw [if_neg hcond, decide_eq_false hcond]
      exact Or.inl ⟨rfl, rfl⟩

theorem sweptFiles_same (stalled : Uint256 → Bool) (l : List (Uint256 × DownloadState)) (d : Directory)
    {fname : FileName} (hkept : ∀ e ∈ l, stalled e.1 = true → fname ≠ tempPath e.2.checkpoint_height e.1) :
    Directory.Same d (l.foldl (fun d e =>
      if !e.2.completed && stalled e.1 then d.remove (tempPath e.2.checkpoint_height e.1) else d) d)
      fname := by
  induction l generalizing d with
  | nil => exact ⟨rfl, Iff.rfl⟩
  | cons e l ih =>
    rw [foldl_cons]
    refine Directory.Same.trans ?_ (ih _ fun e' he' => hkept e' (mem_cons_of_mem e he'))
    split
    · rename_i hswept
      exact Directory.remove_same _ (hkept e mem_cons_self (Bool.and_eq_true_iff.mp hswept).2)
    · exact ⟨rfl, Iff.rfl⟩

theorem sweptDownloads_get (stalled : Uint256 → Bool) (l : List (Uint256 × DownloadState))
    {m : FMap Uint256 DownloadState} (h : (l.foldl (fun downloads e =>
      if e.2.completed || stalled e.1 then downloads.erase e.1 else downloads) m).get checkpoint_hash =
        some dl) :
    m.get checkpoint_hash = some dl ∧
      ∀ e ∈ l, e.1 = checkpoint_hash → stalled checkpoint_hash = false := by
  induction l generalizing m with
  | nil => exact ⟨h, fun e he => absurd he not_mem_nil⟩
  | cons e l ih =>
    rw [foldl_cons] at h
    obtain ⟨hget, hrest⟩ := ih h
    split at hget
    · rename_i hswept
      have hne : checkpoint_hash ≠ e.1 := by
        rintro rfl
        rw [FMap.erase_get_self] at hget
        cases hget
      rw [FMap.erase_get_ne hne] at hget
      refine ⟨hget, fun e' he' hhash => ?_⟩
      rcases mem_cons.mp he' with rfl | he'
      · exact absurd hhash.symm hne
      · exact hrest e' he' hhash
    · rename_i hkept
      refine ⟨hget, fun e' he' hhash => ?_⟩
      rcases mem_cons.mp he' with rfl | he'
      · rw [Bool.or_eq_true, not_or, Bool.not_eq_true, Bool.not_eq_true] at hkept
        rw [← hhash]
        exact hkept.2
      · exact hrest e' he' hhash

end

end BootstrapNode

/-! ## the invariant of a run -/

namespace WatchedNode

section
variable {G : Type} [CommGroup G] {w : WatchedNode G}

def Tracked (w : WatchedNode G) : Prop :=
  ∀ checkpoint_hash dl, w.m_snapshot_downloads.get checkpoint_hash = some dl →
    ∃ b, w.began.get checkpoint_hash = some b ∧ Traces w.snapshots checkpoint_hash dl b

theorem tracked_advertise (h : w.Tracked) (gate : Bool) (checkpoint_height : Int)
    (checkpoint_hash utxo_hash : Uint256) (file_size : Nat) :
    Tracked ⟨w.advertise gate checkpoint_height checkpoint_hash utxo_hash file_size,
      w.noteAdvertise gate checkpoint_height checkpoint_hash utxo_hash file_size⟩ := by
  unfold noteAdvertise
  rw [w.advertise_eq]
  by_cases hb : w.Begins gate checkpoint_height checkpoint_hash file_size
  swap
  · rw [if_neg hb, if_neg]
    · exact h
    · rintro ⟨hnone, hsome⟩
      rw [hnone] at hsome
      cases hsome
  · have hsome : (w.m_snapshot_downloads.insert checkpoint_hash
        ⟨checkpoint_height, file_size, [], false, utxo_hash⟩).get checkpoint_hash =
          some ⟨checkpoint_height, file_size, [], false, utxo_hash⟩ := FMap.insert_get_self _ _ _
    rw [if_pos hb, if_pos ⟨hb.1.2.2, by rw [hsome]; rfl⟩]
    intro hash dl hdl
    have hdl' : (w.m_snapshot_downloads.insert checkpoint_hash
        ⟨checkpoint_height, file_size, [], false, utxo_hash⟩).get hash = some dl := hdl
    by_cases hh : hash = checkpoint_hash
    · subst hh
      rw [hsome] at hdl'
      cases hdl'
      refine ⟨_, FMap.insert_get_self hash _ w.began, fun i hi => ?_, fun file hfile => ?_⟩
      · obtain ⟨r, hr, -⟩ := hi
        exact absurd hr not_mem_nil
      · rw [begunFiles_read hfile]
        exact Assembled.begin file file_size
    · rw [FMap.insert_get_ne hh] at hdl'
      obtain ⟨b, hb, ht⟩ := h hash dl hdl'
      exact ⟨b, (FMap.insert_get_ne hh _ _).trans hb,
        ht.same (begunFiles_same w.snapshots checkpoint_height dl.checkpoint_height utxo_hash hh)⟩

theorem noteChunk_get {offset : Nat} {data : Bytes}
    (hacc : w.accepts checkpoint_hash offset data = true) (hb : w.began.get checkpoint_hash = some b)
    (hash : Uint256) : (w.noteChunk checkpoint_hash offset data).get hash =
      if hash = checkpoint_hash then some ⟨b.held, (offset, data) :: b.chunks⟩ else w.began.get hash := by
  unfold noteChunk
  rw [hb]
  dsimp only
  rw [if_pos hacc, FMap.insert_get]

theorem traces_grown {offset : Nat} {data : Bytes} (hc : w.Chunk checkpoint_hash offset data dl file)
    (ht : Traces w.snapshots checkpoint_hash dl b) :
    (∀ i, InRanges (BootstrapNode.grown dl offset data).received_ranges i →
        Covered ((offset, data) :: b.chunks) i) ∧
      Assembled b.held dl.file_size ((offset, data) :: b.chunks) (writeAt file offset data) := by
  refine ⟨fun i hi => ?_, (ht.file file hc.read).overwrite 0 hc.fits⟩
  rcases addRange_sound hi with hnew | hold
  · exact ⟨(offset, data), mem_cons_self, hnew⟩
  · exact (ht.ranges i hold).cons (offset, data)

theorem tracked_receiveChunk (h : w.Tracked) (renames : Bool) (checkpoint_hash : Uint256) (offset : Nat)
    (data : Bytes) : Tracked ⟨w.receiveChunk renames checkpoint_hash offset data,
      w.noteChunk checkpoint_hash offset data⟩ := by
  rcases w.receiveChunk_cases renames checkpoint_hash offset data with
    ⟨hno, hsame⟩ | ⟨hacc, dl, file, hc, hcases⟩
  · have hnote : w.noteChunk checkpoint_hash offset data = w.began := by
      unfold noteChunk
      cases w.began.get checkpoint_hash with
      | none => rfl
      | some b =>
        rw [hno]
        rfl
    rw [hsame, hnote]
    exact h
  · obtain ⟨b, hb, ht⟩ := h checkpoint_hash dl hc.download
    have hother : ∀ hash dl', hash ≠ checkpoint_hash → w.m_snapshot_downloads.get hash = some dl' →
        ∃ b', (w.noteChunk checkpoint_hash offset data).get hash = some b' ∧
          Traces w.snapshots hash dl' b' := by
      intro hash dl' hne hdl'
      rw [noteChunk_get hacc hb, if_neg hne]
      exact h hash dl' hdl'
    have htemp : ∀ (hash : Uint256) (n : Int), hash ≠ checkpoint_hash →
        tempPath n hash ≠ tempPath dl.checkpoint_height checkpoint_hash :=
      fun hash n hne heq => hne (tempPath_injective heq)
    rcases hcases with ⟨-, hrenamed⟩ | ⟨completed, hgrown⟩
    · rw [hrenamed]
      intro hash dl' hdl'
      have hget : (w.m_snapshot_downloads.erase checkpoint_hash).get hash = some dl' := hdl'
      have hne : hash ≠ checkpoint_hash := by
        rintro rfl
        rw [FMap.erase_get_self] at hget
        cases hget
      rw [FMap.erase_get_ne hne] at hget
      obtain ⟨b', hb', ht'⟩ := hother hash dl' hne hget
      refine ⟨b', hb', ht'.same ?_⟩
      exact (Directory.write_same w.snapshots _ (htemp hash _ hne)).trans
        (Directory.rename_same _ (htemp hash _ hne) (tempPath_ne_final _ _ _ _))
    · rw [hgrown]
      intro hash dl' hdl'
      have hget : (w.m_snapshot_downloads.insert checkpoint_hash
        { BootstrapNode.grown dl offset data with completed := completed }).get hash = some dl' := hdl'
      by_cases hh : hash = checkpoint_hash
      · subst hh
        rw [FMap.insert_get_self] at hget
        cases hget
        obtain ⟨hranges, hfile⟩ := traces_grown hc ht
        refine ⟨_, (noteChunk_get hacc hb hash).trans (if_pos rfl), hranges, fun file' hfile' => ?_⟩
        have hread : (w.chunkFiles hash dl file offset data).read
            (tempPath dl.checkpoint_height hash) = some file' := hfile'
        rw [BootstrapNode.chunkFiles, Directory.write_read_self] at hread
        cases hread
        exact hfile
      · rw [FMap.insert_get_ne hh] at hget
        obtain ⟨b', hb', ht'⟩ := hother hash dl' hh hget
        exact ⟨b', hb', ht'.same (Directory.write_same w.snapshots _ (htemp hash _ hh))⟩

theorem tracked_sweep (h : w.Tracked) (stalled : Uint256 → Bool) :
    Tracked ⟨w.toBootstrapNode.sweep stalled, w.began⟩ := by
  intro hash dl hdl
  obtain ⟨hget, hkept⟩ := BootstrapNode.sweptDownloads_get stalled _ hdl
  obtain ⟨b, hb, ht⟩ := h hash dl hget
  refine ⟨b, hb, ht.same (BootstrapNode.sweptFiles_same stalled _ w.snapshots fun e he hs heq => ?_)⟩
  have hhash := (tempPath_injective heq).symm
  rw [hhash, hkept e he hhash] at hs
  cases hs

variable (network_magic : MessageStart) (P : CChainParams)

theorem tracked_watch (h : w.Tracked) (event : DownloadEvent G) :
    (w.watch network_magic P event).Tracked := by
  cases event with
  | restart chainman =>
    intro hash dl hdl
    have hget : (FMap.empty : FMap Uint256 DownloadState).get hash = some dl := hdl
    cases hget
  | peers event =>
    cases event with
    | message gate renames message =>
      cases message with
      | utxosnapshot checkpoint_height checkpoint_hash utxo_hash file_size =>
        exact tracked_advertise h gate checkpoint_height checkpoint_hash utxo_hash file_size
      | snapshotdata checkpoint_hash offset data =>
        exact tracked_receiveChunk h renames checkpoint_hash offset data
    | request env rateLimited stalled =>
      have hswept : Tracked ⟨if env.gate && !rateLimited then w.toBootstrapNode.sweep stalled
          else w.toBootstrapNode, w.began⟩ := by
        split
        · exact tracked_sweep h stalled
        · exact h
      show Tracked ⟨w.toBootstrapNode.request network_magic P env rateLimited stalled, w.began⟩
      unfold BootstrapNode.request
      dsimp only
      split
      · exact hswept
      · exact hswept

theorem tracked_foldl (h : w.Tracked) (events : List (DownloadEvent G)) :
    (events.foldl (watch network_magic P) w).Tracked := by
  induction events generalizing w with
  | nil => exact h
  | cons event events ih => exact ih (tracked_watch network_magic P h event)

theorem tracked_watchAll {node : BootstrapNode G} (h : node.m_snapshot_downloads = FMap.empty)
    (events : List (DownloadEvent G)) : (watchAll network_magic P node events).Tracked := by
  apply tracked_foldl
  intro hash dl hdl
  have hget : node.m_snapshot_downloads.get hash = some dl := hdl
  rw [h] at hget
  cases hget

/-- the file is as long as the download says, and every byte was written there by a chunk of it -/
def Received (file_size : Nat) (b : Began) (file : Bytes) : Prop :=
  file.length = file_size ∧ ∀ i, i < file.length → Written b.chunks file i

/-- **the renamed file is what was received exactly if the temporary file was not longer than the
download when it began**, whatever was advertised, sent, swept and restarted before; a download is
taken off the list by its last chunk when its file is renamed -/
theorem renamed_exact_iff {node : BootstrapNode G} (hstart : node.m_snapshot_downloads = FMap.empty)
    (events : List (DownloadEvent G)) (gate renames : Bool) {checkpoint_hash : Uint256} {offset : Nat}
    {data : Bytes} {dl : DownloadState}
    (hdl : (watchAll network_magic P node events).m_snapshot_downloads.get checkpoint_hash = some dl)
    (hrenamed : ((watchAll network_magic P node events).watch network_magic P
      (.peers (.message gate renames (.snapshotdata checkpoint_hash offset data)))).m_snapshot_downloads.get
        checkpoint_hash = none) :
    ∃ file b, ((watchAll network_magic P node events).watch network_magic P
        (.peers (.message gate renames (.snapshotdata checkpoint_hash offset data)))).snapshots.read
          (finalPath dl.checkpoint_height checkpoint_hash) = some file ∧
      ((watchAll network_magic P node events).watch network_magic P
        (.peers (.message gate renames (.snapshotdata checkpoint_hash offset data)))).began.get
          checkpoint_hash = some b ∧
      (Received dl.file_size b file ↔ b.held ≤ dl.file_size) := by
  have htracked := tracked_watchAll network_magic P hstart events
  generalize watchAll network_magic P node events = w at hdl hrenamed htracked ⊢
  have hget : (w.receiveChunk renames checkpoint_hash offset data).m_snapshot_downloads.get
    checkpoint_hash = none := hrenamed
  show ∃ file b, (w.receiveChunk renames checkpoint_hash offset data).snapshots.read _ = some file ∧
    (w.noteChunk checkpoint_hash offset data).get checkpoint_hash = some b ∧ _
  rcases w.receiveChunk_cases renames checkpoint_hash offset data with
    ⟨-, hsame⟩ | ⟨hacc, dl', file, hc, hcases⟩
  · rw [hsame, hdl] at hget
    cases hget
  · obtain rfl : dl' = dl := Option.some.inj (hc.download.symm.trans hdl)
    obtain ⟨b, hb, ht⟩ := htracked checkpoint_hash dl' hdl
    obtain ⟨hranges, hfile⟩ := traces_grown hc ht
    rcases hcases with ⟨hcomplete, hnew⟩ | ⟨completed, hgrown⟩
    · obtain ⟨hsize, hcovers⟩ := rangesComplete_covers hcomplete
      refine ⟨writeAt file offset data, _, ?_, (noteChunk_get hacc hb _).trans (if_pos rfl), ?_⟩
      · rw [hnew]
        show Directory.read (Directory.rename _ _ _) _ = _
        rw [Directory.rename_read _ (tempPath_ne_final _ _ _ _), BootstrapNode.chunkFiles,
          Directory.write_read_self]
      · exact hfile.exact_iff hsize fun i hi => hranges i (hcovers i hi)
    · rw [hgrown] at hget
      have hsome : (w.m_snapshot_downloads.insert checkpoint_hash
          { BootstrapNode.grown dl' offset data with completed := completed }).get checkpoint_hash = none :=
        hget
      rw [FMap.insert_get_self] at hsome
      cases hsome

end

section
open SnapshotNode

/-- the node asks for block 100, and a peer answers with a size -/
def sampleOffer (file_size : Nat) : List (DownloadEvent (Multiplicative ℤ)) :=
  [.peers (.request sampleSnapshotEnv false fun _ => false),
    .peers (.message true true (.utxosnapshot 100 (sampleId 100) (sampleId 2) file_size))]

def sampleChunk (offset : Nat) (data : Bytes) : DownloadEvent (Multiplicative ℤ) :=
  .peers (.message true true (.snapshotdata (sampleId 100) offset data))

def sampleWatched (events : List (DownloadEvent (Multiplicative ℤ))) : WatchedNode (Multiplicative ℤ) :=
  watchAll sampleMagic ⟨regTestParams, []⟩ sampleAsking events

/-- a download in an empty directory -/
theorem renamed_exact_iff_empty :
    ∃ file b, ((sampleWatched (sampleOffer 2)).watch sampleMagic ⟨regTestParams, []⟩
        (sampleChunk 0 [7, 8])).snapshots.read (finalPath 100 (sampleId 100)) = some file ∧
      (Received 2 b file ↔ b.held ≤ 2) := by
  obtain ⟨dl, hdl, hheight, hsize, hnone⟩ :
      ∃ dl, (sampleWatched (sampleOffer 2)).m_snapshot_downloads.get (sampleId 100) = some dl ∧
        dl.checkpoint_height = 100 ∧ dl.file_size = 2 ∧
        ((sampleWatched (sampleOffer 2)).watch sampleMagic ⟨regTestParams, []⟩
          (sampleChunk 0 [7, 8])).m_snapshot_downloads.get (sampleId 100) = none := by
    decide +kernel
  obtain ⟨file, b, hread, -, hiff⟩ := renamed_exact_iff sampleMagic ⟨regTestParams, []⟩
    (show sampleAsking.m_snapshot_downloads = FMap.empty from rfl) (sampleOffer 2) true true hdl hnone
  rw [hheight] at hread
  rw [hsize] at hiff
  exact ⟨file, b, hread, hiff⟩

/-- three bytes are offered and two arrive, the node restarts, and one byte is offered and sent -/
def sampleResumed : List (DownloadEvent (Multiplicative ℤ)) :=
  sampleOffer 3 ++ sampleChunk 0 [1, 2] :: .restart sampleAsking.chainman :: sampleOffer 1

/-- **a shorter file after a restart**: the download has one byte, and the file that it leaves has two,
of which the second one is from the download before the restart -/
theorem downloaded_after_restart :
    ∃ dl file b, (sampleWatched sampleResumed).m_snapshot_downloads.get (sampleId 100) = some dl ∧
      ((sampleWatched sampleResumed).watch sampleMagic ⟨regTestParams, []⟩
        (sampleChunk 0 [9])).m_snapshot_downloads.get (sampleId 100) = none ∧
      ((sampleWatched sampleResumed).watch sampleMagic ⟨regTestParams, []⟩
        (sampleChunk 0 [9])).snapshots.read (finalPath dl.checkpoint_height (sampleId 100)) = some file ∧
      ((sampleWatched sampleResumed).watch sampleMagic ⟨regTestParams, []⟩
        (sampleChunk 0 [9])).began.get (sampleId 100) = some b ∧
      dl.file_size = 1 ∧ file = [9, 2] ∧ ¬ Received dl.file_size b file := by
  obtain ⟨dl, hdl, hread, hsize⟩ :
      ∃ dl, (sampleWatched sampleResumed).m_snapshot_downloads.get (sampleId 100) = some dl ∧
        ((sampleWatched sampleResumed).watch sampleMagic ⟨regTestParams, []⟩
          (sampleChunk 0 [9])).snapshots.read
          (finalPath dl.checkpoint_height (sampleId 100)) = some [9, 2] ∧ dl.file_size = 1 := by
    decide +kernel
  obtain ⟨b, hb⟩ := Option.isSome_iff_exists.mp (show (((sampleWatched sampleResumed).watch sampleMagic
    ⟨regTestParams, []⟩ (sampleChunk 0 [9])).began.get (sampleId 100)).isSome = true by decide +kernel)
  refine ⟨dl, [9, 2], b, hdl, by decide +kernel, hread, hb, hsize, rfl, ?_⟩
  rintro ⟨hlen, -⟩
  rw [hsize] at hlen
  cases hlen

end

end WatchedNode

end ElektronNet
