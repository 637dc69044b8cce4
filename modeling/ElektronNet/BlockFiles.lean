import ElektronNet.BlockStorage
import ElektronNet.Lib.Extents

/-!
# Stored blocks never overlap

What holds of the block files along a history of writes, prunes, changes of the snapshot height and
restarts.  A block is written behind the used part of its file, so it meets no other block of the
file, as long as the statistics that are in memory, and those that a shutdown would leave in the
database (`persisted`), cover every block with data.

* `BlockEntry.Fits`       the statistics of a file cover a block of it
* `BlockManager.Inv`      the invariant
* `findNextBlockPos_ok`   the place of a new block; the assertions do not fail
* `BlockManager.Honest`   what is said of the reached states

The counters are `uint32_t`.  A file ends before `nSize` can wrap, but nothing bounds `nUndoSize`:
the undo data of the blocks of one file can be larger than `2^32` bytes, and then it is written over
itself (`undo_records_overlap`).
-/

namespace ElektronNet

open List Extents

/-! ## statistics -/

namespace CBlockFileInfo

/-- the second covers what the first covers -/
structure Grows (a b : CBlockFileInfo) : Prop where
  size : a.nSize ≤ b.nSize
  undo : a.nUndoSize ≤ b.nUndoSize
  heights : a.nBlocks ≠ 0 →
    b.nBlocks ≠ 0 ∧ b.nHeightFirst ≤ a.nHeightFirst ∧ a.nHeightLast ≤ b.nHeightLast

theorem Grows.refl (a : CBlockFileInfo) : a.Grows a := ⟨le_rfl, le_rfl, fun h => ⟨h, le_rfl, le_rfl⟩⟩

/-- neither `nSize` nor `nBlocks` is near the end of its type -/
def Small (a : CBlockFileInfo) : Prop :=
  a.nSize < MAX_BLOCKFILE_SIZE ∧ STORAGE_HEADER_BYTES * a.nBlocks ≤ a.nSize

theorem small_default : ({} : CBlockFileInfo).Small := by
  constructor <;> decide

/-- `AddBlock` and the new `nSize` -/
def reserve (info : CBlockFileInfo) (nAddSize nHeight nTime : Nat) : CBlockFileInfo :=
  { info.addBlock nHeight nTime with nSize := (info.nSize + nAddSize) % 2 ^ 32 }

section reserve
variable {info : CBlockFileInfo} {nAddSize nHeight nTime : Nat}

theorem reserve_size (h : info.nSize + nAddSize < MAX_BLOCKFILE_SIZE) :
    (info.reserve nAddSize nHeight nTime).nSize = info.nSize + nAddSize := by
  apply Nat.mod_eq_of_lt
  unfold MAX_BLOCKFILE_SIZE at h
  omega

theorem reserve_blocks (hs : info.Small) :
    (info.reserve nAddSize nHeight nTime).nBlocks = info.nBlocks + 1 := by
  apply Nat.mod_eq_of_lt
  obtain ⟨h1, h2⟩ := hs
  unfold MAX_BLOCKFILE_SIZE at h1
  unfold STORAGE_HEADER_BYTES at h2
  omega

theorem reserve_heights :
    (info.reserve nAddSize nHeight nTime).nHeightFirst ≤ nHeight ∧
      nHeight ≤ (info.reserve nAddSize nHeight nTime).nHeightLast := by
  show (if _ ∨ _ then nHeight else info.nHeightFirst) ≤ nHeight ∧
    nHeight ≤ (if nHeight > info.nHeightLast then nHeight else info.nHeightLast)
  constructor
  · split <;> omega
  · split <;> omega

theorem reserve_small (hs : info.Small) (h8 : STORAGE_HEADER_BYTES ≤ nAddSize)
    (h : info.nSize + nAddSize < MAX_BLOCKFILE_SIZE) :
    (info.reserve nAddSize nHeight nTime).Small := by
  rw [Small, reserve_size h, reserve_blocks hs]
  have := hs.2
  rw [Nat.mul_add]
  omega

theorem reserve_grows (hs : info.Small) (h : info.nSize + nAddSize < MAX_BLOCKFILE_SIZE) :
    info.Grows (info.reserve nAddSize nHeight nTime) := by
  refine ⟨?_, le_rfl, fun hne => ⟨?_, ?_, ?_⟩⟩
  · rw [reserve_size h]
    omega
  · rw [reserve_blocks hs]
    omega
  · show (if info.nBlocks = 0 ∨ info.nHeightFirst > nHeight then nHeight else info.nHeightFirst) ≤ _
    split <;> omega
  · show _ ≤ (if nHeight > info.nHeightLast then nHeight else info.nHeightLast)
    split <;> omega

end reserve

end CBlockFileInfo

/-! ## entries -/

namespace BlockEntry

def blockExtent (e : BlockEntry) : Option (Extent Nat) :=
  if e.haveData then
    some ⟨e.nFile, e.nDataPos - STORAGE_HEADER_BYTES, e.nDataPos + e.dataSize⟩
  else none

def undoExtent (e : BlockEntry) : Option (Extent Nat) :=
  if e.haveUndo then
    some ⟨e.nFile, e.nUndoPos - STORAGE_HEADER_BYTES, e.nUndoPos + e.undoSize + 32⟩
  else none

structure Fits (info : CBlockFileInfo) (e : BlockEntry) : Prop where
  block : e.haveData = true → e.nDataPos + e.dataSize ≤ info.nSize
  heights : e.haveData = true →
    info.nBlocks ≠ 0 ∧ info.nHeightFirst ≤ e.nHeight ∧ e.nHeight ≤ info.nHeightLast
  undo : e.haveUndo = true → e.haveData = true ∧ e.nUndoPos + e.undoSize + 32 ≤ info.nUndoSize

variable {e : BlockEntry}

theorem Fits.grow {a b : CBlockFileInfo} (h : e.Fits a) (hab : a.Grows b) :
    e.Fits b where
  block hd := (h.block hd).trans hab.size
  heights hd := by
    obtain ⟨h0, h1, h2⟩ := h.heights hd
    obtain ⟨g0, g1, g2⟩ := hab.heights h0
    exact ⟨g0, g1.trans h1, h2.trans g2⟩
  undo hu := ⟨(h.undo hu).1, (h.undo hu).2.trans hab.undo⟩

theorem Fits.of_not_data (hd : e.haveData = false) (hu : e.haveUndo = false)
    (info : CBlockFileInfo) : e.Fits info where
  block h := by
    rw [hd] at h
    cases h
  heights h := by
    rw [hd] at h
    cases h
  undo h := by
    rw [hu] at h
    cases h

theorem blockExtent_eq_some {x : Extent Nat} (h : e.blockExtent = some x) :
    e.haveData = true ∧
      x = ⟨e.nFile, e.nDataPos - STORAGE_HEADER_BYTES, e.nDataPos + e.dataSize⟩ := by
  unfold blockExtent at h
  split at h
  · exact ⟨‹_›, (Option.some.inj h).symm⟩
  · cases h

theorem undoExtent_eq_some {x : Extent Nat} (h : e.undoExtent = some x) :
    e.haveUndo = true ∧
      x = ⟨e.nFile, e.nUndoPos - STORAGE_HEADER_BYTES, e.nUndoPos + e.undoSize + 32⟩ := by
  unfold undoExtent at h
  split at h
  · exact ⟨‹_›, (Option.some.inj h).symm⟩
  · cases h

/-! ### on disk -/

theorem disk_nFile (h : e.haveData = true) : e.disk.nFile = e.nFile := by
  show (if (e.haveData || e.haveUndo) = true then e.nFile else 0) = _
  rw [h]
  rfl

theorem disk_disk (e : BlockEntry) : e.disk.disk = e.disk := by
  unfold disk
  cases e.haveData <;> cases e.haveUndo <;> rfl

theorem disk_blockExtent (e : BlockEntry) : e.disk.blockExtent = e.blockExtent := by
  unfold blockExtent disk
  cases e.haveData <;> rfl

theorem disk_undoExtent (e : BlockEntry) : e.disk.undoExtent = e.undoExtent := by
  unfold undoExtent disk
  cases e.haveUndo <;> cases e.haveData <;> rfl

theorem Fits.disk {info : CBlockFileInfo} (h : e.Fits info) : e.disk.Fits info where
  block hd := by
    show (if e.haveData = true then e.nDataPos else 0) + e.dataSize ≤ _
    rw [if_pos (show e.haveData = true from hd)]
    exact h.block hd
  heights := h.heights
  undo hu := by
    show e.haveData = true ∧ (if e.haveUndo = true then e.nUndoPos else 0) + e.undoSize + 32 ≤ _
    rw [if_pos (show e.haveUndo = true from hu)]
    exact h.undo hu

end BlockEntry

namespace BlockManager

/-! ## the invariant -/

/-- what a shutdown would leave in the database -/
def persisted (s : BlockManager) (f : Nat) : CBlockFileInfo :=
  if f ∈ s.m_dirty_fileinfo then s.fileInfo f else (s.m_block_tree_db.fileInfo.get f).getD {}

def extents (s : BlockManager) (g : BlockEntry → Option (Extent Nat)) (hash : Uint256) :
    Option (Extent Nat) := (s.m_block_index.get hash).bind g

/-- no file is behind the cursors -/
structure Layout (s : BlockManager) : Prop where
  length_le : s.m_blockfile_info.length ≤ s.maxBlockfileNum + 1
  normal : s.normalCursor.isSome = true

/-- the records and their statistics -/
structure Records (s : BlockManager) : Prop where
  blocks : Apart (s.extents BlockEntry.blockExtent)
  undos : Apart (s.extents BlockEntry.undoExtent)
  fits : FMap.All (fun _ e => e.Fits (s.fileInfo e.nFile)) s.m_block_index
  fitsDisk : FMap.All (fun _ e => e.Fits (s.persisted e.nFile)) s.m_block_index
  small : ∀ f, (s.fileInfo f).Small
  smallDisk : ∀ f, (s.persisted f).Small
  stored : FMap.All (fun _ e => e.haveData = true → e.nFile < s.m_blockfile_info.length)
    s.m_block_index
  synced : ∀ hash, hash ∉ s.m_dirty_blockindex →
    s.m_block_tree_db.blockIndex.get hash = (s.m_block_index.get hash).map BlockEntry.disk

structure Inv (s : BlockManager) : Prop extends Records s where
  layout : s.Layout

variable {s s' : BlockManager} {type : BlockfileType} {c : BlockfileCursor}
  {nAddSize nFile fileNumber : Nat} {hash : Uint256} {x : Extent Nat} {e : BlockEntry}

theorem persisted_of_mem {f : Nat} (h : f ∈ s.m_dirty_fileinfo) :
    s.persisted f = s.fileInfo f := if_pos h

theorem persisted_of_not_mem {f : Nat} (h : f ∉ s.m_dirty_fileinfo) :
    s.persisted f = (s.m_block_tree_db.fileInfo.get f).getD {} := if_neg h

/-! ## files that grow -/

/-- a change of the statistics and of the cursors -/
structure FilesGrow (s s' : BlockManager) : Prop where
  index : s'.m_block_index = s.m_block_index
  dirtyIndex : s'.m_dirty_blockindex = s.m_dirty_blockindex
  db : s'.m_block_tree_db = s.m_block_tree_db
  grows : ∀ f, (s.fileInfo f).Grows (s'.fileInfo f)
  dirty : s.m_dirty_fileinfo ⊆ s'.m_dirty_fileinfo
  length : s.m_blockfile_info.length ≤ s'.m_blockfile_info.length

theorem FilesGrow.persisted (h : FilesGrow s s') (f : Nat) :
    s'.persisted f = s'.fileInfo f ∨ s'.persisted f = s.persisted f := by
  by_cases hf : f ∈ s'.m_dirty_fileinfo
  · exact Or.inl (persisted_of_mem hf)
  · right
    rw [persisted_of_not_mem hf, persisted_of_not_mem (fun h' => hf (h.dirty h')), h.db]

theorem Records.filesGrow (hi : s.Records) (h : FilesGrow s s')
    (hsmall : ∀ f, (s'.fileInfo f).Small) : s'.Records := by
  have hfits : FMap.All (fun _ e => e.Fits (s'.fileInfo e.nFile)) s'.m_block_index := by
    rw [h.index]
    intro hash e hget
    exact (hi.fits hash e hget).grow (h.grows e.nFile)
  refine ⟨?_, ?_, hfits, ?_, hsmall, ?_, ?_, ?_⟩
  · show Apart fun hash => (s'.m_block_index.get hash).bind _
    rw [h.index]
    exact hi.blocks
  · show Apart fun hash => (s'.m_block_index.get hash).bind _
    rw [h.index]
    exact hi.undos
  · intro hash e hget
    rcases h.persisted e.nFile with heq | heq
    · rw [heq]
      exact hfits hash e hget
    · rw [heq]
      rw [h.index] at hget
      exact hi.fitsDisk hash e hget
  · intro f
    rcases h.persisted f with heq | heq
    · rw [heq]
      exact hsmall f
    · rw [heq]
      exact hi.smallDisk f
  · rw [h.index]
    intro hash e hget hd
    exact Nat.lt_of_lt_of_le (hi.stored hash e hget hd) h.length
  · rw [h.index, h.dirtyIndex, h.db]
    exact hi.synced

theorem Inv.filesGrow (hi : s.Inv) (h : FilesGrow s s') (hsmall : ∀ f, (s'.fileInfo f).Small)
    (hlay : s'.Layout) : s'.Inv :=
  ⟨hi.toRecords.filesGrow h hsmall, hlay⟩

/-! ## cursors -/

/-- only cursors moved, and empty files were added -/
structure SameFiles (s s' : BlockManager) : Prop where
  index : s'.m_block_index = s.m_block_index
  dirtyIndex : s'.m_dirty_blockindex = s.m_dirty_blockindex
  db : s'.m_block_tree_db = s.m_block_tree_db
  info : ∀ f, s'.fileInfo f = s.fileInfo f
  dirty : s'.m_dirty_fileinfo = s.m_dirty_fileinfo
  opts : s'.m_opts = s.m_opts
  length : s.m_blockfile_info.length ≤ s'.m_blockfile_info.length
  snapshot : s'.m_snapshot_height = s.m_snapshot_height
  cursors : ∀ type, (s.cursor type).isSome = true → (s'.cursor type).isSome = true

theorem SameFiles.refl (s : BlockManager) : SameFiles s s :=
  ⟨rfl, rfl, rfl, fun _ => rfl, rfl, rfl, le_rfl, rfl, fun _ h => h⟩

theorem SameFiles.trans {t u : BlockManager} (h : SameFiles s t) (h' : SameFiles t u) :
    SameFiles s u where
  index := h'.index.trans h.index
  dirtyIndex := h'.dirtyIndex.trans h.dirtyIndex
  db := h'.db.trans h.db
  info f := (h'.info f).trans (h.info f)
  dirty := h'.dirty.trans h.dirty
  opts := h'.opts.trans h.opts
  length := h.length.trans h'.length
  snapshot := h'.snapshot.trans h.snapshot
  cursors type hc := h'.cursors type (h.cursors type hc)

theorem sameFiles_setCursor (s : BlockManager) (type : BlockfileType) (c : BlockfileCursor) :
    SameFiles s (s.setCursor type c) := by
  have hcursors : ∀ type', (s.cursor type').isSome = true →
      ((s.setCursor type c).cursor type').isSome = true := by
    intro type' h
    cases type <;> cases type' <;> first | rfl | exact h
  cases type <;> exact ⟨rfl, rfl, rfl, fun _ => rfl, rfl, rfl, le_rfl, rfl, hcursors⟩

theorem setCursor_self (s : BlockManager) (type : BlockfileType) (c : BlockfileCursor) :
    ((s.setCursor type c).cursor type).isSome = true := by
  cases type <;> rfl

theorem growTo_fileInfo (s : BlockManager) (n f : Nat) : (s.growTo n).fileInfo f = s.fileInfo f := by
  show ((s.m_blockfile_info ++ List.replicate _ _)[f]?).getD {} = (s.m_blockfile_info[f]?).getD {}
  by_cases hf : f < s.m_blockfile_info.length
  · rw [getElem?_append_left hf]
  · rw [getElem?_append_right (by omega), getElem?_replicate,
      getElem?_eq_none (show s.m_blockfile_info.length ≤ f by omega)]
    split <;> rfl

theorem growTo_length (s : BlockManager) (n : Nat) :
    (s.growTo n).m_blockfile_info.length = max s.m_blockfile_info.length (n + 1) := by
  show (s.m_blockfile_info ++ List.replicate _ _).length = _
  rw [length_append, length_replicate]
  omega

theorem sameFiles_growTo (s : BlockManager) (n : Nat) : SameFiles s (s.growTo n) := by
  refine ⟨rfl, rfl, rfl, growTo_fileInfo s n, rfl, rfl, ?_, rfl, fun type h => by cases type <;> exact h⟩
  rw [growTo_length]
  omega

theorem cursor_le_max (h : s.cursor type = some c) : c.file_num ≤ s.maxBlockfileNum := by
  unfold maxBlockfileNum
  cases type with
  | NORMAL =>
    have h' : s.normalCursor = some c := h
    rw [h']
    exact le_max_left _ _
  | ASSUMED =>
    have h' : s.assumedCursor = some c := h
    rw [h']
    exact le_max_right _ _

theorem le_max_setCursor (s : BlockManager) (type : BlockfileType) (c : BlockfileCursor) :
    c.file_num ≤ (s.setCursor type c).maxBlockfileNum := by
  have h : (s.setCursor type c).cursor type = some c := by
    cases type <;> rfl
  exact cursor_le_max h

theorem Layout.setCursor (h : s.Layout) (hc : s.m_blockfile_info.length ≤ c.file_num + 1)
    (type : BlockfileType) : (s.setCursor type c).Layout := by
  refine ⟨?_, (sameFiles_setCursor s type c).cursors .NORMAL h.normal⟩
  have hmax := s.le_max_setCursor type c
  have hlen : (s.setCursor type c).m_blockfile_info = s.m_blockfile_info := by
    cases type <;> rfl
  rw [hlen]
  omega

theorem Layout.growTo (h : s.Layout) {n : Nat} (hn : n ≤ s.maxBlockfileNum) : (s.growTo n).Layout := by
  refine ⟨?_, h.normal⟩
  have := h.length_le
  rw [growTo_length]
  show _ ≤ s.maxBlockfileNum + 1
  omega

theorem Layout.markFile (h : s.Layout) (nFile : Nat) (env : StorageEnv) :
    (s.markFile nFile env).Layout := ⟨h.length_le, h.normal⟩

theorem Layout.setFileInfo (h : s.Layout) (nFile : Nat) (info : CBlockFileInfo) :
    (s.setFileInfo nFile info).Layout := by
  refine ⟨?_, h.normal⟩
  show (s.m_blockfile_info.set _ _).length ≤ s.maxBlockfileNum + 1
  rw [length_set]
  exact h.length_le

theorem appendFile_layout (h : s.Layout) (type : BlockfileType) :
    ((s.setCursor type { file_num := s.maxBlockfileNum + 1 }).growTo
        (s.maxBlockfileNum + 1)).Layout ∧
      ((s.setCursor type { file_num := s.maxBlockfileNum + 1 }).growTo
        (s.maxBlockfileNum + 1)).m_blockfile_info.length = s.maxBlockfileNum + 1 + 1 := by
  have hlen := h.length_le
  have hsame : (s.setCursor type { file_num := s.maxBlockfileNum + 1 }).m_blockfile_info =
      s.m_blockfile_info := by
    cases type <;> rfl
  constructor
  · apply Layout.growTo
    · apply h.setCursor
      show s.m_blockfile_info.length ≤ s.maxBlockfileNum + 1 + 1
      omega
    · exact le_max_setCursor s type { file_num := s.maxBlockfileNum + 1 }
  · rw [growTo_length, hsame]
    omega

/-! ## the place of a block -/

theorem maxBlockfileSize_bounds (s : BlockManager) (h : nAddSize < MAX_BLOCKFILE_SIZE) :
    nAddSize < s.maxBlockfileSize nAddSize ∧ s.maxBlockfileSize nAddSize ≤ MAX_BLOCKFILE_SIZE := by
  unfold maxBlockfileSize
  unfold MAX_BLOCKFILE_SIZE at *
  split
  · split
    · rw [Nat.mod_eq_of_lt (by omega)]
      omega
    · omega
  · omega

theorem openCursor_ok (h : s.Layout) (type : BlockfileType) :
    ∃ c s', s.openCursor type = .ok (c, s') ∧ SameFiles s s' ∧ s'.Layout ∧
      c.file_num ≤ s'.maxBlockfileNum ∧ (s'.cursor type).isSome = true := by
  unfold openCursor
  cases hc : s.cursor type with
  | some c => exact ⟨c, s, rfl, SameFiles.refl s, h, cursor_le_max hc, by rw [hc]; rfl⟩
  | none =>
    have htype : type = .ASSUMED := by
      cases type with
      | NORMAL =>
        have hnone : s.normalCursor = none := hc
        have hsome := h.normal
        rw [hnone] at hsome
        cases hsome
      | ASSUMED => rfl
    refine ⟨⟨s.maxBlockfileNum + 1, 0⟩, s.setCursor type ⟨s.maxBlockfileNum + 1, 0⟩, ?_,
      sameFiles_setCursor _ _ _, h.setCursor ?_ type, le_max_setCursor _ _ _, setCursor_self _ _ _⟩
    · rw [if_neg (not_not_intro htype)]
    · have := h.length_le
      show s.m_blockfile_info.length ≤ s.maxBlockfileNum + 1 + 1
      omega

/-- two rounds are enough: the number after the last is an empty file -/
theorem nextFile_total (h : s.Layout) {max_blockfile_size : Nat} (hadd : nAddSize < max_blockfile_size)
    (hmax : max_blockfile_size ≤ 2 ^ 32) (type : BlockfileType) (fuel nFile : Nat) :
    ∃ r, nextFile max_blockfile_size nAddSize type (fuel + 2) nFile s = some r := by
  rw [nextFile]
  split
  · -- the new file is empty
    have hempty : s.fileInfo (s.maxBlockfileNum + 1) = {} := by
      show (s.m_blockfile_info[s.maxBlockfileNum + 1]?).getD {} = _
      rw [getElem?_eq_none h.length_le]
      rfl
    have hsame := (sameFiles_setCursor s type { file_num := s.maxBlockfileNum + 1 }).trans
      (sameFiles_growTo _ (s.maxBlockfileNum + 1))
    refine ⟨_, if_neg ?_⟩
    rw [hsame.info, hempty]
    show ¬ (0 + nAddSize) % 2 ^ 32 ≥ max_blockfile_size
    omega
  · exact ⟨_, rfl⟩

theorem nextFile_cases {max_blockfile_size fuel n : Nat} (hlay : s.Layout)
    (hfile : nFile < s.m_blockfile_info.length)
    (h : nextFile max_blockfile_size nAddSize type fuel nFile s = some (n, s')) :
    SameFiles s s' ∧ s'.Layout ∧ n < s'.m_blockfile_info.length ∧
      (n = nFile ∧ s' = s ∨ s'.m_blockfile_info.length = n + 1) ∧
      ((s.fileInfo n).nSize + nAddSize) % 2 ^ 32 < max_blockfile_size := by
  induction fuel generalizing nFile s with
  | zero => cases h
  | succ fuel ih =>
    rw [nextFile] at h
    split at h
    · obtain ⟨hlay₁, hlen₁⟩ := appendFile_layout hlay type
      obtain ⟨hsame, hlay', hn, hlast, hsize⟩ := ih hlay₁ (by omega) h
      have hfirst := (sameFiles_setCursor s type { file_num := s.maxBlockfileNum + 1 }).trans
        (sameFiles_growTo _ (s.maxBlockfileNum + 1))
      rw [hfirst.info] at hsize
      refine ⟨hfirst.trans hsame, hlay', hn, .inr ?_, hsize⟩
      rcases hlast with ⟨rfl, rfl⟩ | hlast
      · exact hlen₁
      · exact hlast
    · rename_i hsize
      cases h
      exact ⟨SameFiles.refl _, hlay, hfile, .inl ⟨rfl, rfl⟩, Nat.not_le.mp hsize⟩

theorem setFileInfo_fileInfo (h : nFile < s.m_blockfile_info.length) (info : CBlockFileInfo) (f : Nat) :
    (s.setFileInfo nFile info).fileInfo f = if f = nFile then info else s.fileInfo f := by
  show ((s.m_blockfile_info.set nFile info)[f]?).getD {} = _
  by_cases hf : f = nFile
  · subst hf
    rw [if_pos rfl, getElem?_set_self h]
    rfl
  · rw [if_neg hf, getElem?_set_ne (Ne.symm hf)]
    rfl

/-- the state in which a block of the given size and height has its place -/
structure Reserved (s s' : BlockManager) (nFile nAddSize nHeight : Nat) : Prop where
  grow : FilesGrow s s'
  small : ∀ f, (s'.fileInfo f).Small
  layout : s'.Layout
  lt : nFile < s'.m_blockfile_info.length
  size : (s'.fileInfo nFile).nSize = (s.fileInfo nFile).nSize + nAddSize
  bound : (s.fileInfo nFile).nSize + nAddSize < MAX_BLOCKFILE_SIZE
  heights : (s'.fileInfo nFile).nBlocks ≠ 0 ∧ (s'.fileInfo nFile).nHeightFirst ≤ nHeight ∧
    nHeight ≤ (s'.fileInfo nFile).nHeightLast

theorem reserveBlock_reserved {s₀ : BlockManager} (hsame : SameFiles s₀ s) (hlay : s.Layout)
    (hsmall : ∀ f, (s₀.fileInfo f).Small) {nHeight nTime : Nat}
    (hlt : nFile < s.m_blockfile_info.length) (h8 : STORAGE_HEADER_BYTES ≤ nAddSize)
    (hbound : (s₀.fileInfo nFile).nSize + nAddSize < MAX_BLOCKFILE_SIZE) :
    Reserved s₀ (s.reserveBlock nFile nAddSize nHeight nTime) nFile nAddSize nHeight := by
  have hinfo : ∀ f, (s.reserveBlock nFile nAddSize nHeight nTime).fileInfo f =
      if f = nFile then (s₀.fileInfo nFile).reserve nAddSize nHeight nTime else s₀.fileInfo f := by
    intro f
    rw [← hsame.info nFile, ← hsame.info f]
    exact setFileInfo_fileInfo hlt _ f
  have hself := hinfo nFile
  rw [if_pos rfl] at hself
  refine ⟨⟨hsame.index, hsame.dirtyIndex, hsame.db, fun f => ?_, ?_, ?_⟩, fun f => ?_, ?_, ?_, ?_,
    hbound, ?_⟩
  · rw [hinfo]
    split
    · rename_i hf
      rw [hf]
      exact CBlockFileInfo.reserve_grows (hsmall nFile) hbound
    · exact CBlockFileInfo.Grows.refl _
  · show s₀.m_dirty_fileinfo ⊆ s.m_dirty_fileinfo
    rw [hsame.dirty]
  · show s₀.m_blockfile_info.length ≤ (s.m_blockfile_info.set _ _).length
    rw [length_set]
    exact hsame.length
  · rw [hinfo]
    split
    · exact CBlockFileInfo.reserve_small (hsmall nFile) h8 hbound
    · exact hsmall f
  · refine ⟨?_, hlay.normal⟩
    show (s.m_blockfile_info.set _ _).length ≤ s.maxBlockfileNum + 1
    rw [length_set]
    exact hlay.length_le
  · show nFile < (s.m_blockfile_info.set _ _).length
    rw [length_set]
    exact hlt
  · rw [hself]
    exact CBlockFileInfo.reserve_size hbound
  · rw [hself, CBlockFileInfo.reserve_blocks (hsmall nFile)]
    exact ⟨by omega, CBlockFileInfo.reserve_heights⟩

theorem Reserved.markFile {nHeight : Nat} (h : Reserved s s' nFile nAddSize nHeight) (env : StorageEnv) :
    Reserved s (s'.markFile nFile env) nFile nAddSize nHeight where
  grow := ⟨h.grow.index, h.grow.dirtyIndex, h.grow.db, h.grow.grows,
    h.grow.dirty.trans (Finset.subset_insert _ _), h.grow.length⟩
  small := h.small
  layout := ⟨h.layout.length_le, h.layout.normal⟩
  lt := h.lt
  size := h.size
  bound := h.bound
  heights := h.heights

theorem findNextBlockPos_total (hlay : s.Layout) (hadd : nAddSize < MAX_BLOCKFILE_SIZE)
    (nHeight nTime : Nat) (env : StorageEnv) :
    ∃ r, s.findNextBlockPos nAddSize nHeight nTime env = .ok r := by
  obtain ⟨c, s₁, hopen, -, hlay₁, hc, -⟩ := openCursor_ok hlay (s.blockfileTypeForHeight nHeight)
  obtain ⟨hlt, hle⟩ := (s₁.growTo c.file_num).maxBlockfileSize_bounds hadd
  obtain ⟨r, hnext⟩ := nextFile_total (hlay₁.growTo hc) hlt (hle.trans (by decide))
    (s.blockfileTypeForHeight nHeight) (s₁.growTo c.file_num).m_blockfile_info.length c.file_num
  unfold findNextBlockPos
  dsimp only
  rw [hopen]
  dsimp only
  rw [if_neg (not_not_intro hlt), hnext]
  dsimp only
  split
  · exact ⟨_, rfl⟩
  · exact ⟨_, rfl⟩

/-- the block is put at the end of a file, after the cursors have moved -/
theorem findNextBlockPos_cases {nHeight nTime : Nat} {env : StorageEnv} {r : Option FlatFilePos}
    (hlay : s.Layout) (h : s.findNextBlockPos nAddSize nHeight nTime env = .ok (r, s')) :
    ∃ n t, SameFiles s t ∧ t.Layout ∧ n < t.m_blockfile_info.length ∧
      (t.cursor (s.blockfileTypeForHeight nHeight)).isSome = true ∧
      ((s.fileInfo n).nSize + nAddSize) % 2 ^ 32 < s.maxBlockfileSize nAddSize ∧
      (r, s') = if env.space then (some ⟨n, (s.fileInfo n).nSize⟩,
          (t.reserveBlock n nAddSize nHeight nTime).markFile n env)
        else (none, t.reserveBlock n nAddSize nHeight nTime) := by
  obtain ⟨c, s₁, hopen, hsame₁, hlay₁, hc, hcursor⟩ :=
    openCursor_ok hlay (s.blockfileTypeForHeight nHeight)
  have hsame₂ := hsame₁.trans (sameFiles_growTo s₁ c.file_num)
  have hfile : c.file_num < (s₁.growTo c.file_num).m_blockfile_info.length := by
    rw [growTo_length]
    omega
  unfold findNextBlockPos at h
  dsimp only at h
  rw [hopen] at h
  dsimp only at h
  split at h
  · cases h
  split at h
  · cases h
  rename_i n s₃ hnext
  obtain ⟨hsame₃, hlay₃, hn, hlast, hsize⟩ := nextFile_cases (hlay₁.growTo hc) hfile hnext
  rw [hsame₂.info, maxBlockfileSize, hsame₂.opts] at hsize
  have hsame := hsame₂.trans hsame₃
  have hcursor₃ := ((sameFiles_growTo s₁ c.file_num).trans hsame₃).cursors _ hcursor
  rw [hsame.info] at h
  obtain ⟨t, ht, hsame₄, hlay₄, hn₄⟩ : ∃ t, (if n ≠ c.file_num then
      s₃.setCursor (s.blockfileTypeForHeight nHeight) { file_num := n } else s₃) = t ∧
      SameFiles s₃ t ∧ t.Layout ∧ n < t.m_blockfile_info.length := by
    refine ⟨_, rfl, ?_⟩
    split
    · rename_i hne
      have hsc := sameFiles_setCursor s₃ (s.blockfileTypeForHeight nHeight) { file_num := n }
      have hlen := hlast.resolve_left fun heq => hne heq.1
      exact ⟨hsc, hlay₃.setCursor hlen.le _, Nat.lt_of_lt_of_le hn hsc.length⟩
    · exact ⟨SameFiles.refl s₃, hlay₃, hn⟩
  rw [ht] at h
  refine ⟨n, t, hsame.trans hsame₄, hlay₄, hn₄, hsame₄.cursors _ hcursor₃, hsize, ?_⟩
  cases hspace : env.space <;> rw [hspace] at h <;> exact (Except.ok.inj h).symm

/-- **`FindNextBlockPos` finds a place**, at the end of the used part of a file: none of its
assertions fails for a block that fits into a file with its header. -/
theorem findNextBlockPos_ok (hi : s.Inv) (h8 : STORAGE_HEADER_BYTES ≤ nAddSize)
    (hadd : nAddSize < MAX_BLOCKFILE_SIZE) (nHeight nTime : Nat) (env : StorageEnv) :
    ∃ nFile s', Reserved s s' nFile nAddSize nHeight ∧
      (env.space = true → nFile ∈ s'.m_dirty_fileinfo) ∧
      s.findNextBlockPos nAddSize nHeight nTime env =
        .ok (if env.space then some ⟨nFile, (s.fileInfo nFile).nSize⟩ else none, s') := by
  obtain ⟨⟨r, s'⟩, hfind⟩ := findNextBlockPos_total hi.layout hadd nHeight nTime env
  obtain ⟨n, t, hsame, hlay, hlt, -, hsize, heq⟩ := findNextBlockPos_cases hi.layout hfind
  have hbound : (s.fileInfo n).nSize + nAddSize < MAX_BLOCKFILE_SIZE := by
    have hle := (s.maxBlockfileSize_bounds hadd).2
    have hsmall := (hi.small n).1
    unfold MAX_BLOCKFILE_SIZE at *
    omega
  have hres : Reserved s (t.reserveBlock n nAddSize nHeight nTime) n nAddSize nHeight :=
    reserveBlock_reserved hsame hlay hi.small hlt h8 hbound
  rw [hfind, heq]
  cases hspace : env.space with
  | false => exact ⟨n, _, hres, fun h => (by cases h), rfl⟩
  | true => exact ⟨n, _, hres.markFile env, fun _ => Finset.mem_insert_self _ _, rfl⟩

/-! ## entries that change -/

section extents
variable {s : BlockManager} {g : BlockEntry → Option (Extent Nat)} {hash : Uint256} {e : BlockEntry}

theorem setEntry_extents_self : (s.setEntry hash e).extents g hash = g e := by
  show ((s.m_block_index.insert hash e).get hash).bind g = _
  rw [FMap.insert_get_self]
  rfl

theorem setEntry_extents_ne {j : Uint256} (h : j ≠ hash) :
    (s.setEntry hash e).extents g j = s.extents g j := by
  show ((s.m_block_index.insert hash e).get j).bind g = _
  rw [FMap.insert_get_ne h]
  rfl

theorem apart_setEntry_of_le (h : Apart (s.extents g))
    (he : ∀ x, g e = some x → s.extents g hash = some x) : Apart ((s.setEntry hash e).extents g) := by
  apply h.mono
  intro k x hx
  by_cases hk : k = hash
  · subst hk
    rw [setEntry_extents_self] at hx
    exact he x hx
  · rwa [setEntry_extents_ne hk] at hx

theorem apart_setEntry_append (h : Apart (s.extents g)) (he : g e = some x)
    (hx : Behind (s.extents g) hash x) : Apart ((s.setEntry hash e).extents g) :=
  h.append hx (setEntry_extents_self.trans he) fun _ hj => setEntry_extents_ne hj

end extents

theorem extents_eq_some {g : BlockEntry → Option (Extent Nat)} (h : s.extents g hash = some x) :
    ∃ e, s.m_block_index.get hash = some e ∧ g e = some x := Option.bind_eq_some_iff.mp h

theorem Inv.block_stop (hi : s.Inv) (h : s.extents BlockEntry.blockExtent hash = some x) :
    x.stop ≤ (s.fileInfo x.file).nSize := by
  obtain ⟨e, hget, he⟩ := extents_eq_some h
  obtain ⟨hd, rfl⟩ := BlockEntry.blockExtent_eq_some he
  exact (hi.fits hash e hget).block hd

theorem Inv.undo_stop (hi : s.Inv) (h : s.extents BlockEntry.undoExtent hash = some x) :
    x.stop ≤ (s.fileInfo x.file).nUndoSize := by
  obtain ⟨e, hget, he⟩ := extents_eq_some h
  obtain ⟨hu, rfl⟩ := BlockEntry.undoExtent_eq_some he
  exact ((hi.fits hash e hget).undo hu).2

theorem Inv.setEntry (hi : s.Inv) (hblock : Apart ((s.setEntry hash e).extents BlockEntry.blockExtent))
    (hundo : Apart ((s.setEntry hash e).extents BlockEntry.undoExtent))
    (hfits : e.Fits (s.fileInfo e.nFile)) (hdisk : e.Fits (s.persisted e.nFile))
    (hstored : e.haveData = true → e.nFile < s.m_blockfile_info.length) :
    (s.setEntry hash e).Inv where
  blocks := hblock
  undos := hundo
  fits := hi.fits.insert hfits
  fitsDisk := hi.fitsDisk.insert hdisk
  small := hi.small
  smallDisk := hi.smallDisk
  stored := hi.stored.insert hstored
  synced := by
    intro k hk
    have hk' : k ∉ insert hash s.m_dirty_blockindex := hk
    rw [Finset.mem_insert, not_or] at hk'
    show _ = ((s.m_block_index.insert hash e).get k).map _
    rw [FMap.insert_get_ne hk'.1]
    exact hi.synced k hk'.2
  layout := ⟨hi.layout.length_le, hi.layout.normal⟩

/-! ## one step -/

theorem Inv.setHeader (hi : s.Inv) (hd : e.haveData = false) (hu : e.haveUndo = false) :
    (s.setEntry hash e).Inv := by
  refine hi.setEntry (apart_setEntry_of_le hi.blocks fun x hx => ?_)
    (apart_setEntry_of_le hi.undos fun x hx => ?_) (.of_not_data hd hu _) (.of_not_data hd hu _)
    fun h => ?_
  · rw [(BlockEntry.blockExtent_eq_some hx).1] at hd
    cases hd
  · rw [(BlockEntry.undoExtent_eq_some hx).1] at hu
    cases hu
  · rw [h] at hd
    cases hd

theorem addToBlockIndex_inv (hi : s.Inv) (hash hashPrevBlock : Uint256) :
    (s.addToBlockIndex hash hashPrevBlock).Inv := by
  unfold addToBlockIndex
  split
  · exact hi
  · split
    · exact hi.setHeader rfl rfl
    · exact hi.setHeader rfl rfl

theorem Reserved.storeBlock (hi : s.Inv) {block_size : Nat}
    (h : Reserved s s' nFile (block_size + STORAGE_HEADER_BYTES) e.nHeight)
    (hdirty : nFile ∈ s'.m_dirty_fileinfo) (hget : s.m_block_index.get hash = some e)
    (hnot : e.haveData = false) :
    (s'.setEntry hash
      { e with
        nFile := nFile
        nDataPos := ((s.fileInfo nFile).nSize + STORAGE_HEADER_BYTES) % 2 ^ 32
        nUndoPos := 0
        haveData := true
        dataSize := block_size }).Inv := by
  have hi' : s'.Inv := hi.filesGrow h.grow h.small h.layout
  have hnoundo : e.haveUndo = false := by
    by_contra hu
    have := ((hi.fits hash e hget).undo (by simpa using hu)).1
    rw [hnot] at this
    cases this
  have hpos : ((s.fileInfo nFile).nSize + STORAGE_HEADER_BYTES) % 2 ^ 32 =
      (s.fileInfo nFile).nSize + STORAGE_HEADER_BYTES := by
    have := h.bound
    unfold MAX_BLOCKFILE_SIZE at this
    omega
  rw [hpos]
  have hfits : BlockEntry.Fits (s'.fileInfo nFile)
      { e with
        nFile := nFile
        nDataPos := (s.fileInfo nFile).nSize + STORAGE_HEADER_BYTES
        nUndoPos := 0
        haveData := true
        dataSize := block_size } := by
    refine ⟨fun _ => ?_, fun _ => h.heights, fun hu => ?_⟩
    · rw [h.size]
      show (s.fileInfo nFile).nSize + STORAGE_HEADER_BYTES + block_size ≤ _
      omega
    · have hu' : e.haveUndo = true := hu
      rw [hnoundo] at hu'
      cases hu'
  refine hi'.setEntry (apart_setEntry_append hi'.blocks rfl ?_)
    (apart_setEntry_of_le hi'.undos fun x hx => ?_) hfits ?_ fun _ => h.lt
  · -- the old records end where the file ended before
    intro j y hj hy hfile
    have hy' : s.extents BlockEntry.blockExtent j = some y := by
      show (s.m_block_index.get j).bind _ = _
      rw [← h.grow.index]
      exact hy
    have hstop := hi.block_stop hy'
    have hfile' : y.file = nFile := hfile
    rw [hfile'] at hstop
    show y.stop ≤ (s.fileInfo nFile).nSize + STORAGE_HEADER_BYTES - STORAGE_HEADER_BYTES
    omega
  · have hu : e.haveUndo = true := (BlockEntry.undoExtent_eq_some hx).1
    rw [hnoundo] at hu
    cases hu
  · show BlockEntry.Fits (s'.persisted nFile) _
    rw [persisted_of_mem hdirty]
    exact hfits

theorem writeBlock_inv (hi : s.Inv) (hash : Uint256) {block_size : Nat}
    (hsize : block_size + STORAGE_HEADER_BYTES < MAX_BLOCKFILE_SIZE) (nTime : Nat)
    (env : StorageEnv) : ∃ s', s.writeBlock hash block_size nTime env = .ok s' ∧ s'.Inv := by
  unfold writeBlock
  cases hget : s.m_block_index.get hash with
  | none => exact ⟨s, rfl, hi⟩
  | some e =>
    dsimp only
    by_cases hd : e.haveData = true
    · rw [if_pos hd]
      exact ⟨s, rfl, hi⟩
    · rw [if_neg hd]
      have hmod : (block_size + STORAGE_HEADER_BYTES) % 2 ^ 32 =
          block_size + STORAGE_HEADER_BYTES := by
        unfold MAX_BLOCKFILE_SIZE at hsize
        omega
      obtain ⟨nFile, s', hres, hdirty, heq⟩ := findNextBlockPos_ok hi
        (Nat.le_add_left STORAGE_HEADER_BYTES block_size) hsize e.nHeight nTime env
      rw [hmod, heq]
      have hi' : s'.Inv := hi.filesGrow hres.grow hres.small hres.layout
      cases hspace : env.space with
      | false => exact ⟨s', rfl, hi'⟩
      | true =>
        cases hwritten : env.written with
        | false => exact ⟨s', rfl, hi'⟩
        | true => exact ⟨_, rfl, hres.storeBlock hi (hdirty hspace) hget (by simpa using hd)⟩

/-! ### undo data -/

theorem findUndoPos_grow (hi : s.Inv) (hlt : nFile < s.m_blockfile_info.length)
    (hfit : (s.fileInfo nFile).nUndoSize + nAddSize < 2 ^ 32) (env : StorageEnv) :
    let s' := (s.findUndoPos nFile nAddSize env).2
    FilesGrow s s' ∧ (∀ f, (s'.fileInfo f).Small) ∧ s'.Layout ∧
      (s'.fileInfo nFile).nUndoSize = (s.fileInfo nFile).nUndoSize + nAddSize := by
  intro s'
  have hinfo : ∀ f, s'.fileInfo f = if f = nFile then
      { s.fileInfo nFile with nUndoSize := (s.fileInfo nFile).nUndoSize + nAddSize }
      else s.fileInfo f := by
    intro f
    rw [← Nat.mod_eq_of_lt hfit]
    exact setFileInfo_fileInfo hlt _ f
  have hlength : s'.m_blockfile_info.length = s.m_blockfile_info.length := by
    show (s.m_blockfile_info.set _ _).length = _
    rw [length_set]
  refine ⟨⟨rfl, rfl, rfl, fun f => ?_, Finset.subset_insert _ _, hlength.ge⟩, fun f => ?_,
    ⟨?_, hi.layout.normal⟩, ?_⟩
  · rw [hinfo]
    split
    · rename_i hf
      rw [hf]
      exact ⟨le_rfl, Nat.le_add_right _ _, fun h => ⟨h, le_rfl, le_rfl⟩⟩
    · exact CBlockFileInfo.Grows.refl _
  · rw [hinfo]
    split
    · exact hi.small nFile
    · exact hi.small f
  · rw [hlength]
    exact hi.layout.length_le
  · rw [hinfo, if_pos rfl]

theorem setCursor_max {c' : BlockfileCursor} (h : s.cursor type = some c)
    (hc : c'.file_num = c.file_num) :
    (s.setCursor type c').maxBlockfileNum = s.maxBlockfileNum := by
  cases type with
  | NORMAL =>
    have h' : s.normalCursor = some c := h
    show max c'.file_num _ = max (s.normalCursor.getD {}).file_num _
    rw [h', hc]
    rfl
  | ASSUMED =>
    have h' : s.assumedCursor = some c := h
    show max _ c'.file_num = max _ (s.assumedCursor.getD {}).file_num
    rw [h', hc]
    rfl

theorem raiseUndoHeight_same (hlay : s.Layout) (hc : s.cursor type = some c) (pos : FlatFilePos)
    (nHeight : Nat) :
    SameFiles s (s.raiseUndoHeight type c pos nHeight) ∧
      (s.raiseUndoHeight type c pos nHeight).Layout := by
  unfold raiseUndoHeight
  split
  · exact ⟨SameFiles.refl s, hlay⟩
  · split
    · refine ⟨sameFiles_setCursor _ _ _, ⟨?_, (sameFiles_setCursor _ _ _).cursors .NORMAL hlay.normal⟩⟩
      have hinfo : ∀ c', (s.setCursor type c').m_blockfile_info = s.m_blockfile_info := by
        intro c'
        cases type <;> rfl
      have hmax := setCursor_max hc
        (show ({ c with undo_height := nHeight } : BlockfileCursor).file_num = c.file_num from rfl)
      rw [hmax, hinfo]
      exact hlay.length_le
    · exact ⟨SameFiles.refl s, hlay⟩

theorem Records.sameFiles (hi : s.Records) (h : SameFiles s s') : s'.Records := by
  refine hi.filesGrow ⟨h.index, h.dirtyIndex, h.db, fun f => ?_, h.dirty.ge, h.length⟩ fun f => ?_
  · rw [h.info]
    exact CBlockFileInfo.Grows.refl _
  · rw [h.info]
    exact hi.small f

theorem Inv.storeUndo (hi : s.Inv) (hi' : s'.Inv) (hindex : s'.m_block_index = s.m_block_index)
    {blockundo_size : Nat} (hget : s.m_block_index.get hash = some e) (hd : e.haveData = true)
    (hsize : (s'.fileInfo e.nFile).nUndoSize =
      (s.fileInfo e.nFile).nUndoSize + (blockundo_size + UNDO_DATA_DISK_OVERHEAD))
    (hdirty : e.nFile ∈ s'.m_dirty_fileinfo) :
    (s'.setEntry hash
      { e with
        nUndoPos := (s.fileInfo e.nFile).nUndoSize + STORAGE_HEADER_BYTES
        haveUndo := true
        undoSize := blockundo_size }).Inv := by
  have hget' : s'.m_block_index.get hash = some e := by
    rw [hindex]
    exact hget
  have hold := hi'.fits hash e hget'
  unfold UNDO_DATA_DISK_OVERHEAD at hsize
  have hfits : BlockEntry.Fits (s'.fileInfo e.nFile)
      { e with
        nUndoPos := (s.fileInfo e.nFile).nUndoSize + STORAGE_HEADER_BYTES
        haveUndo := true
        undoSize := blockundo_size } := by
    refine ⟨hold.block, hold.heights, fun _ => ⟨hd, ?_⟩⟩
    show (s.fileInfo e.nFile).nUndoSize + STORAGE_HEADER_BYTES + blockundo_size + 32 ≤ _
    omega
  refine hi'.setEntry (apart_setEntry_of_le hi'.blocks fun x hx => ?_)
    (apart_setEntry_append hi'.undos rfl ?_) hfits ?_ fun _ => hi'.stored hash e hget' hd
  · show (s'.m_block_index.get hash).bind _ = _
    rw [hget']
    exact hx
  · intro j y hj hy hfile
    have hy' : s.extents BlockEntry.undoExtent j = some y := by
      show (s.m_block_index.get j).bind _ = _
      rw [← hindex]
      exact hy
    have hstop := hi.undo_stop hy'
    have hfile' : y.file = e.nFile := hfile
    rw [hfile'] at hstop
    show y.stop ≤ (s.fileInfo e.nFile).nUndoSize + STORAGE_HEADER_BYTES - STORAGE_HEADER_BYTES
    omega
  · show BlockEntry.Fits (s'.persisted e.nFile) _
    rw [persisted_of_mem hdirty]
    exact hfits

/-- the undo data of the block fits below the end of `nUndoSize` -/
def UndoFits (s : BlockManager) (hash : Uint256) (blockundo_size : Nat) : Prop :=
  ∀ e, s.m_block_index.get hash = some e →
    (s.fileInfo e.nFile).nUndoSize + (blockundo_size + UNDO_DATA_DISK_OVERHEAD) < 2 ^ 32

/-- nothing changes, or the undo data gets its place, and if it is written the entry says so -/
theorem writeBlockUndo_cases (hlay : s.Layout) {blockundo_size : Nat} {env : StorageEnv}
    (h : s.writeBlockUndo hash blockundo_size env = .ok s') :
    s' = s ∨ ∃ e t, s.m_block_index.get hash = some e ∧ e.haveData = true ∧
      t = (s.findUndoPos e.nFile ((blockundo_size + UNDO_DATA_DISK_OVERHEAD) % 2 ^ 32) env).2 ∧
      t.Layout ∧ (s' = t ∨ ∃ u, SameFiles t u ∧ u.Layout ∧ s' = u.setEntry hash
        { e with
          nUndoPos := ((s.fileInfo e.nFile).nUndoSize + STORAGE_HEADER_BYTES) % 2 ^ 32
          haveUndo := true
          undoSize := blockundo_size }) := by
  unfold writeBlockUndo at h
  split at h
  · cases h
    exact .inl rfl
  rename_i e hget
  split at h
  · cases h
    exact .inl rfl
  rename_i hdata
  dsimp only at h
  split at h
  · cases h
  rename_i c hc
  split at h
  · cases h
    exact .inl rfl
  have hlay₁ : (s.findUndoPos e.nFile ((blockundo_size + UNDO_DATA_DISK_OVERHEAD) % 2 ^ 32)
    env).2.Layout := (hlay.setFileInfo _ _).markFile _ _
  refine .inr ⟨e, _, hget, by simpa using hdata, rfl, hlay₁, ?_⟩
  split at h
  · cases h
    exact .inl rfl
  · cases h
    have hc₁ : (s.findUndoPos e.nFile ((blockundo_size + UNDO_DATA_DISK_OVERHEAD) % 2 ^ 32)
      env).2.cursor (s.blockfileTypeForHeight e.nHeight) = some c := hc
    obtain ⟨hsame, hlay₂⟩ := raiseUndoHeight_same hlay₁ hc₁
      ⟨e.nFile, (s.fileInfo e.nFile).nUndoSize⟩ e.nHeight
    exact .inr ⟨_, hsame, hlay₂, rfl⟩

theorem writeBlockUndo_inv (hi : s.Inv) {blockundo_size : Nat}
    (hfit : s.UndoFits hash blockundo_size) {env : StorageEnv}
    (h : s.writeBlockUndo hash blockundo_size env = .ok s') : s'.Inv := by
  rcases writeBlockUndo_cases hi.layout h with rfl | ⟨e, t, hget, hd, ht, hlay, hs'⟩
  · exact hi
  have hfit' := hfit e hget
  rw [Nat.mod_eq_of_lt (by omega)] at ht
  subst ht
  obtain ⟨hgrow, hsmall, -, hsize⟩ := findUndoPos_grow hi (hi.stored hash e hget hd) hfit' env
  have hi₁ := hi.filesGrow hgrow hsmall hlay
  rcases hs' with rfl | ⟨u, hsame, hlay', rfl⟩
  · exact hi₁
  · rw [Nat.mod_eq_of_lt (by unfold UNDO_DATA_DISK_OVERHEAD at hfit'; omega)]
    exact hi.storeUndo ⟨hi₁.toRecords.sameFiles hsame, hlay'⟩ (hsame.index.trans hgrow.index) hget hd
      ((congrArg CBlockFileInfo.nUndoSize (hsame.info e.nFile)).trans hsize)
      (hsame.dirty.ge (Finset.mem_insert_self _ _))

/-! ### pruning -/

theorem pruneOneBlockFile_eq_some
    (h : (s.pruneOneBlockFile fileNumber).m_block_index.get hash = some e) :
    ∃ e₀, s.m_block_index.get hash = some e₀ ∧ (e₀.nFile ≠ fileNumber ∧ e = e₀ ∨ e = e₀.prune) := by
  rw [pruneOneBlockFile_get] at h
  obtain ⟨e₀, hget, he⟩ := Option.map_eq_some_iff.mp h
  refine ⟨e₀, hget, ?_⟩
  by_cases hf : e₀.nFile = fileNumber
  · rw [if_pos hf] at he
    exact Or.inr he.symm
  · rw [if_neg hf] at he
    exact Or.inl ⟨hf, he.symm⟩

theorem pruneOneBlockFile_extents {g : BlockEntry → Option (Extent Nat)}
    (hg : ∀ e : BlockEntry, g e.prune = none) (fileNumber : Nat)
    (h : (s.pruneOneBlockFile fileNumber).extents g hash = some x) : s.extents g hash = some x := by
  obtain ⟨e, hget, he⟩ := extents_eq_some h
  obtain ⟨e₀, hget₀, ⟨-, rfl⟩ | rfl⟩ := pruneOneBlockFile_eq_some hget
  · show (s.m_block_index.get hash).bind g = _
    rw [hget₀]
    exact he
  · rw [hg] at he
    cases he

theorem pruneOneBlockFile_fileInfo_self (s : BlockManager) (fileNumber : Nat) :
    (s.pruneOneBlockFile fileNumber).fileInfo fileNumber = {} := by
  show ((s.m_blockfile_info.set fileNumber {})[fileNumber]?).getD {} = _
  rw [getElem?_set]
  split
  · split <;> rfl
  · rename_i h
    exact absurd rfl h

theorem pruneOneBlockFile_persisted_ne (s : BlockManager) {f : Nat} (h : f ≠ fileNumber) :
    (s.pruneOneBlockFile fileNumber).persisted f = s.persisted f := by
  have hmem : f ∈ (s.pruneOneBlockFile fileNumber).m_dirty_fileinfo ↔ f ∈ s.m_dirty_fileinfo := by
    show f ∈ insert fileNumber s.m_dirty_fileinfo ↔ _
    rw [Finset.mem_insert]
    exact ⟨fun h' => h'.resolve_left h, Or.inr⟩
  by_cases hf : f ∈ s.m_dirty_fileinfo
  · rw [persisted_of_mem hf, persisted_of_mem (hmem.mpr hf), pruneOneBlockFile_fileInfo s h]
  · rw [persisted_of_not_mem hf, persisted_of_not_mem (fun h' => hf (hmem.mp h'))]
    rfl

theorem all_pruneOneBlockFile {Q Q' : BlockEntry → Prop}
    (h : FMap.All (fun _ e => Q e) s.m_block_index) (hp : ∀ e : BlockEntry, Q' e.prune)
    (hq : ∀ e : BlockEntry, e.nFile ≠ fileNumber → Q e → Q' e) :
    FMap.All (fun _ e => Q' e) (s.pruneOneBlockFile fileNumber).m_block_index := by
  intro hash e hget
  obtain ⟨e₀, hget₀, ⟨hne, rfl⟩ | rfl⟩ := pruneOneBlockFile_eq_some hget
  · exact hq e hne (h hash e hget₀)
  · exact hp e₀

theorem Layout.prune (h : s.Layout) (fileNumber : Nat) : (s.pruneOneBlockFile fileNumber).Layout := by
  refine ⟨?_, h.normal⟩
  show (s.m_blockfile_info.set _ _).length ≤ s.maxBlockfileNum + 1
  rw [length_set]
  exact h.length_le

theorem pruneOneBlockFile_stored
    (h : FMap.All (fun _ e => e.haveData = true → e.nFile < s.m_blockfile_info.length)
      s.m_block_index) (fileNumber : Nat) :
    FMap.All (fun _ e => e.haveData = true →
        e.nFile < (s.pruneOneBlockFile fileNumber).m_blockfile_info.length)
      (s.pruneOneBlockFile fileNumber).m_block_index := by
  refine all_pruneOneBlockFile h (fun e hd => by cases hd) fun e _ hlt hd => ?_
  show e.nFile < (s.m_blockfile_info.set _ _).length
  rw [length_set]
  exact hlt hd

theorem pruneOneBlockFile_synced (h : ∀ hash, hash ∉ s.m_dirty_blockindex →
      s.m_block_tree_db.blockIndex.get hash = (s.m_block_index.get hash).map BlockEntry.disk)
    (fileNumber : Nat) (hash : Uint256)
    (hhash : hash ∉ (s.pruneOneBlockFile fileNumber).m_dirty_blockindex) :
    s.m_block_tree_db.blockIndex.get hash =
      ((s.pruneOneBlockFile fileNumber).m_block_index.get hash).map BlockEntry.disk := by
  have hnot : hash ∉ s.m_dirty_blockindex ∪ s.m_block_index.dom.filter
      fun h => s.inFile fileNumber h = true := hhash
  rw [Finset.mem_union, not_or] at hnot
  rw [h hash hnot.1]
  show _ = ((s.m_block_index.get hash).map _).map _
  cases hget : s.m_block_index.get hash with
  | none => rfl
  | some e =>
    have hne : e.nFile ≠ fileNumber := by
      intro heq
      apply hnot.2
      rw [Finset.mem_filter]
      refine ⟨FMap.mem_dom_of_get hget, ?_⟩
      rw [inFile, hget]
      exact beq_iff_eq.mpr heq
    show some e.disk = some (BlockEntry.disk (if e.nFile = fileNumber then e.prune else e))
    rw [if_neg hne]

theorem pruneOneBlockFile_inv (hi : s.Inv) (fileNumber : Nat) :
    (s.pruneOneBlockFile fileNumber).Inv where
  blocks := hi.blocks.mono fun k x => pruneOneBlockFile_extents (fun e => rfl) fileNumber
  undos := hi.undos.mono fun k x => pruneOneBlockFile_extents (fun e => rfl) fileNumber
  fits := by
    refine all_pruneOneBlockFile hi.fits (fun e => .of_not_data rfl rfl _) fun e hne h => ?_
    rw [pruneOneBlockFile_fileInfo s hne]
    exact h
  fitsDisk := by
    refine all_pruneOneBlockFile hi.fitsDisk (fun e => .of_not_data rfl rfl _) fun e hne h => ?_
    rw [pruneOneBlockFile_persisted_ne s hne]
    exact h
  small f := by
    by_cases hf : f = fileNumber
    · rw [hf, pruneOneBlockFile_fileInfo_self]
      exact CBlockFileInfo.small_default
    · rw [pruneOneBlockFile_fileInfo s hf]
      exact hi.small f
  smallDisk f := by
    by_cases hf : f = fileNumber
    · rw [hf, persisted_of_mem (Finset.mem_insert_self _ _), pruneOneBlockFile_fileInfo_self]
      exact CBlockFileInfo.small_default
    · rw [pruneOneBlockFile_persisted_ne s hf]
      exact hi.smallDisk f
  stored := pruneOneBlockFile_stored hi.stored fileNumber
  synced := pruneOneBlockFile_synced hi.synced fileNumber
  layout := hi.layout.prune fileNumber

/-! ### restarts -/

theorem writeBlockIndexDB_fileInfo (s : BlockManager) (f : Nat) :
    (s.writeBlockIndexDB.m_block_tree_db.fileInfo.get f).getD {} = s.persisted f := by
  show ((FMap.patch _ _ _).get f).getD ({} : CBlockFileInfo) = _
  rw [FMap.patch_get, FMap.build_get]
  unfold persisted
  split <;> rfl

theorem writeBlockIndexDB_blockIndex (h : ∀ hash, hash ∉ s.m_dirty_blockindex →
      s.m_block_tree_db.blockIndex.get hash = (s.m_block_index.get hash).map BlockEntry.disk)
    (hash : Uint256) :
    s.writeBlockIndexDB.m_block_tree_db.blockIndex.get hash =
      (s.m_block_index.get hash).map BlockEntry.disk := by
  show (FMap.patch _ _ _).get hash = _
  rw [FMap.patch_get]
  split
  · rfl
  · exact h hash ‹_›

end BlockManager

namespace BlockTreeDB

theorem readMore_getElem (db : BlockTreeDB) {fuel n i : Nat} {info : CBlockFileInfo}
    (h : (db.readMore fuel n)[i]? = some info) : db.fileInfo.get (n + i) = some info := by
  induction fuel generalizing n i with
  | zero => cases h
  | succ fuel ih =>
    unfold readMore at h
    cases hget : db.fileInfo.get n with
    | none =>
      rw [hget] at h
      cases h
    | some first =>
      rw [hget] at h
      cases i with
      | zero =>
        cases h
        exact hget
      | succ i =>
        have := ih h
        rwa [Nat.add_right_comm, Nat.add_assoc] at this

theorem readFileInfo_of_le (db : BlockTreeDB) {f : Nat} (h : f < db.lastBlockFile.getD 0 + 1) :
    (db.readFileInfo[f]?).getD {} = (db.fileInfo.get f).getD {} := by
  unfold readFileInfo
  rw [getElem?_append_left (by simpa using h), getElem?_map, getElem?_range h]
  rfl

theorem readFileInfo_getElem (db : BlockTreeDB) (f : Nat) :
    (db.readFileInfo[f]?).getD {} = (db.fileInfo.get f).getD {} ∨
      (db.readFileInfo[f]?).getD {} = {} := by
  by_cases h : f < db.lastBlockFile.getD 0 + 1
  · exact Or.inl (db.readFileInfo_of_le h)
  · cases hget : db.readFileInfo[f]? with
    | none => exact Or.inr rfl
    | some info =>
      unfold readFileInfo at hget
      rw [getElem?_append_right (by simpa using h)] at hget
      have := db.readMore_getElem hget
      rw [length_map, length_range, Nat.add_sub_cancel' (by omega)] at this
      rw [this]
      exact Or.inl rfl

theorem lastBlockFile_lt (db : BlockTreeDB) : db.lastBlockFile.getD 0 < db.readFileInfo.length := by
  unfold readFileInfo
  rw [length_append, length_map, length_range]
  omega

end BlockTreeDB

namespace BlockManager

variable {s : BlockManager}

theorem initCursors_same (l : List Nat) (s : BlockManager) :
    let s' := l.foldl (fun s i =>
      s.setCursor (s.blockfileTypeForHeight (s.fileInfo i).nHeightLast) { file_num := i }) s
    SameFiles s s' ∧ s'.m_blockfile_info = s.m_blockfile_info ∧ ∀ i ∈ l,
      (s'.cursor (s.blockfileTypeForHeight (s.fileInfo i).nHeightLast)).isSome = true := by
  induction l generalizing s with
  | nil => exact ⟨SameFiles.refl s, rfl, fun i hi => (by cases hi)⟩
  | cons i l ih =>
    let type := s.blockfileTypeForHeight (s.fileInfo i).nHeightLast
    obtain ⟨hsame, hinfo, hcursors⟩ := ih (s.setCursor type { file_num := i })
    refine ⟨(sameFiles_setCursor s type _).trans hsame, hinfo.trans ?_, fun j hj => ?_⟩
    · cases type <;> rfl
    · rcases mem_cons.mp hj with rfl | hj
      · exact hsame.cursors type (setCursor_self s type _)
      · have htype : (s.setCursor type { file_num := i }).blockfileTypeForHeight
            ((s.setCursor type { file_num := i }).fileInfo j).nHeightLast =
              s.blockfileTypeForHeight (s.fileInfo j).nHeightLast := by
          cases type <;> rfl
        rw [← htype]
        exact hcursors j hj

theorem initCursors_layout (hn : s.normalCursor.isSome = true)
    (hlen : 0 < s.m_blockfile_info.length) : s.initCursors.Layout := by
  obtain ⟨n, hlength⟩ := Nat.exists_eq_succ_of_ne_zero (Nat.pos_iff_ne_zero.mp hlen)
  obtain ⟨hsame, hinfo, -⟩ := initCursors_same (List.range s.m_blockfile_info.length) s
  refine ⟨?_, hsame.cursors .NORMAL hn⟩
  -- the last file moves a cursor to itself
  have hmax : n ≤ s.initCursors.maxBlockfileNum := by
    unfold initCursors
    rw [hlength, range_succ, foldl_append]
    exact le_max_setCursor _ _ { file_num := n }
  rw [show s.initCursors.m_blockfile_info = s.m_blockfile_info from hinfo]
  omega

section restart
variable {s : BlockManager} (opts : BlockManagerOpts) (snapshot_height : Option Nat)

/-- the state that is read after a shutdown, before the cursors are set -/
def reread (s : BlockManager) (opts : BlockManagerOpts) (snapshot_height : Option Nat) :
    BlockManager := readBlockIndexDB s.writeBlockIndexDB.m_block_tree_db opts snapshot_height

variable {hash : Uint256} {e : BlockEntry}

theorem reread_eq_some (hi : s.Inv)
    (h : (s.reread opts snapshot_height).m_block_index.get hash = some e) :
    ∃ e₀, s.m_block_index.get hash = some e₀ ∧ e = e₀.disk := by
  have h' : s.writeBlockIndexDB.m_block_tree_db.blockIndex.get hash = some e := h
  rw [writeBlockIndexDB_blockIndex hi.synced] at h'
  obtain ⟨e₀, hget, he⟩ := Option.map_eq_some_iff.mp h'
  exact ⟨e₀, hget, he.symm⟩

theorem reread_persisted (f : Nat) : (s.reread opts snapshot_height).persisted f = s.persisted f := by
  exact s.writeBlockIndexDB_fileInfo f

theorem reread_fileInfo {f : Nat} (h : f < s.maxBlockfileNum + 1) :
    (s.reread opts snapshot_height).fileInfo f = s.persisted f :=
  (s.writeBlockIndexDB.m_block_tree_db.readFileInfo_of_le h).trans (s.writeBlockIndexDB_fileInfo f)

theorem reread_small (hi : s.Inv) (f : Nat) : ((s.reread opts snapshot_height).fileInfo f).Small := by
  rcases s.writeBlockIndexDB.m_block_tree_db.readFileInfo_getElem f with h | h
  · have heq : (s.reread opts snapshot_height).fileInfo f = s.persisted f :=
      h.trans (s.writeBlockIndexDB_fileInfo f)
    rw [heq]
    exact hi.smallDisk f
  · have heq : (s.reread opts snapshot_height).fileInfo f = {} := h
    rw [heq]
    exact CBlockFileInfo.small_default

theorem stored_lt (hi : s.Inv) (hget : s.m_block_index.get hash = some e) (hd : e.haveData = true) :
    e.nFile < s.maxBlockfileNum + 1 :=
  Nat.lt_of_lt_of_le (hi.stored hash e hget hd) hi.layout.length_le

theorem reread_fits (hi : s.Inv) (hget : s.m_block_index.get hash = some e) :
    e.disk.Fits (s.persisted e.disk.nFile) ∧
      e.disk.Fits ((s.reread opts snapshot_height).fileInfo e.disk.nFile) := by
  have hfits := hi.fitsDisk hash e hget
  cases hd : e.haveData with
  | true =>
    rw [BlockEntry.disk_nFile hd, reread_fileInfo opts snapshot_height (stored_lt hi hget hd)]
    exact ⟨hfits.disk, hfits.disk⟩
  | false =>
    have hu : e.disk.haveUndo = false := by
      by_contra hu
      have := (hfits.undo (Bool.of_not_eq_false hu)).1
      rw [hd] at this
      cases this
    have hd' : e.disk.haveData = false := hd
    exact ⟨.of_not_data hd' hu _, .of_not_data hd' hu _⟩

theorem reread_extents (hi : s.Inv) {g : BlockEntry → Option (Extent Nat)}
    (hg : ∀ e : BlockEntry, g e.disk = g e) (hash : Uint256) (x : Extent Nat)
    (h : (s.reread opts snapshot_height).extents g hash = some x) : s.extents g hash = some x := by
  obtain ⟨e, hget, he⟩ := extents_eq_some h
  obtain ⟨e₀, hget₀, rfl⟩ := reread_eq_some opts snapshot_height hi hget
  rw [hg] at he
  show (s.m_block_index.get hash).bind g = _
  rw [hget₀]
  exact he

theorem reread_records (hi : s.Inv) : (s.reread opts snapshot_height).Records where
  blocks := hi.blocks.mono (reread_extents opts snapshot_height hi BlockEntry.disk_blockExtent)
  undos := hi.undos.mono (reread_extents opts snapshot_height hi BlockEntry.disk_undoExtent)
  fits hash e hget := by
    obtain ⟨e₀, hget₀, rfl⟩ := reread_eq_some opts snapshot_height hi hget
    exact (reread_fits opts snapshot_height hi hget₀).2
  fitsDisk hash e hget := by
    obtain ⟨e₀, hget₀, rfl⟩ := reread_eq_some opts snapshot_height hi hget
    rw [reread_persisted]
    exact (reread_fits opts snapshot_height hi hget₀).1
  small := reread_small opts snapshot_height hi
  smallDisk f := by
    rw [reread_persisted]
    exact hi.smallDisk f
  stored hash e hget hd := by
    obtain ⟨e₀, hget₀, rfl⟩ := reread_eq_some opts snapshot_height hi hget
    have hd₀ : e₀.haveData = true := hd
    rw [BlockEntry.disk_nFile hd₀]
    have h1 := stored_lt hi hget₀ hd₀
    have h2 : s.maxBlockfileNum < (s.reread opts snapshot_height).m_blockfile_info.length :=
      s.writeBlockIndexDB.m_block_tree_db.lastBlockFile_lt
    omega
  synced hash _ := by
    show s.writeBlockIndexDB.m_block_tree_db.blockIndex.get hash =
      (s.writeBlockIndexDB.m_block_tree_db.blockIndex.get hash).map BlockEntry.disk
    rw [writeBlockIndexDB_blockIndex hi.synced]
    cases s.m_block_index.get hash with
    | none => rfl
    | some e => exact congrArg some e.disk_disk.symm

theorem restart_inv (hi : s.Inv) :
    (loadBlockIndexDB s.writeBlockIndexDB.m_block_tree_db opts snapshot_height).Inv := by
  have hnormal : (s.reread opts snapshot_height).normalCursor.isSome = true := rfl
  have hlen : 0 < (s.reread opts snapshot_height).m_blockfile_info.length :=
    Nat.zero_lt_of_lt s.writeBlockIndexDB.m_block_tree_db.lastBlockFile_lt
  have hsame := (initCursors_same
    (List.range (s.reread opts snapshot_height).m_blockfile_info.length)
    (s.reread opts snapshot_height)).1
  exact ⟨(reread_records opts snapshot_height hi).sameFiles hsame, initCursors_layout hnormal hlen⟩

end restart

/-! ## histories -/

/-- the block fits into a file with its header; the undo data fits below the end of the counter -/
def Permits (s : BlockManager) : StorageEvent → Prop
  | .writeBlock _ block_size _ _ => block_size + STORAGE_HEADER_BYTES < MAX_BLOCKFILE_SIZE
  | .writeBlockUndo hash blockundo_size _ => s.UndoFits hash blockundo_size
  | _ => True

/-- every event of the history is permitted when it happens -/
def RunsWithin (s : BlockManager) : List StorageEvent → Prop
  | [] => True
  | ev :: evs =>
    s.Permits ev ∧
      match s.step ev with
      | .error _ => True
      | .ok s' => RunsWithin s' evs

instance (s : BlockManager) (hash : Uint256) (blockundo_size : Nat) :
    Decidable (s.UndoFits hash blockundo_size) :=
  decidable_of_iff
    ((s.m_block_index.get hash).all (fun e => decide ((s.fileInfo e.nFile).nUndoSize +
      (blockundo_size + UNDO_DATA_DISK_OVERHEAD) < 2 ^ 32)) = true) (by
    unfold UndoFits
    cases s.m_block_index.get hash <;> simp)

instance (s : BlockManager) : (ev : StorageEvent) → Decidable (s.Permits ev)
  | .header _ _ => .isTrue trivial
  | .writeBlock _ block_size _ _ =>
    inferInstanceAs (Decidable (block_size + STORAGE_HEADER_BYTES < MAX_BLOCKFILE_SIZE))
  | .writeBlockUndo hash blockundo_size _ =>
    inferInstanceAs (Decidable (s.UndoFits hash blockundo_size))
  | .prune _ => .isTrue trivial
  | .snapshotHeight _ => .isTrue trivial
  | .restart _ _ => .isTrue trivial

instance decidableRunsWithin : (evs : List StorageEvent) → (s : BlockManager) →
    Decidable (s.RunsWithin evs)
  | [], _ => .isTrue trivial
  | ev :: evs, s =>
    have hrest : (r : Except Fault BlockManager) → Decidable (match r with
        | .error _ => True
        | .ok s' => RunsWithin s' evs) := fun r =>
      match r with
      | .error _ => .isTrue trivial
      | .ok s' => decidableRunsWithin evs s'
    @instDecidableAnd _ _ inferInstance (hrest (s.step ev))

theorem step_inv {s' : BlockManager} (hi : s.Inv) {ev : StorageEvent} (hp : s.Permits ev)
    (h : s.step ev = .ok s') : s'.Inv := by
  cases ev with
  | header hash hashPrevBlock =>
    cases h
    exact addToBlockIndex_inv hi hash hashPrevBlock
  | writeBlock hash block_size nTime env =>
    obtain ⟨s'', heq, hi''⟩ := writeBlock_inv hi hash hp nTime env
    rw [show s.step _ = s.writeBlock hash block_size nTime env from rfl, heq] at h
    cases h
    exact hi''
  | writeBlockUndo hash blockundo_size env => exact writeBlockUndo_inv hi hp h
  | prune fileNumber =>
    change (if _ then _ else _) = _ at h
    split at h
    · cases h
      exact pruneOneBlockFile_inv hi fileNumber
    · cases h
  | snapshotHeight height =>
    cases h
    exact ⟨⟨hi.blocks, hi.undos, hi.fits, hi.fitsDisk, hi.small, hi.smallDisk, hi.stored, hi.synced⟩,
      ⟨hi.layout.length_le, hi.layout.normal⟩⟩
  | restart opts snapshot_height =>
    cases h
    exact restart_inv opts snapshot_height hi

theorem run_inv {s' : BlockManager} (hi : s.Inv) {evs : List StorageEvent} (hp : s.RunsWithin evs)
    (h : s.run evs = .ok s') : s'.Inv := by
  induction evs generalizing s with
  | nil =>
    cases h
    exact hi
  | cons ev evs ih =>
    obtain ⟨hev, hrest⟩ := hp
    unfold run at h
    cases hstep : s.step ev with
    | error f =>
      rw [hstep] at h
      cases h
    | ok s₁ =>
      rw [hstep] at h hrest
      exact ih (step_inv hi hev hstep) hrest h

theorem fresh_inv (opts : BlockManagerOpts) : (fresh opts).Inv := by
  have hempty : ∀ Q : BlockEntry → Prop, FMap.All (fun _ e => Q e) (fresh opts).m_block_index :=
    fun Q => FMap.all_empty _
  have hinfo : ∀ f, (fresh opts).fileInfo f = {} := by
    intro f
    show (([{}] : List CBlockFileInfo)[f]?).getD {} = {}
    cases f <;> rfl
  refine ⟨⟨?_, ?_, hempty _, hempty _, ?_, ?_, hempty _, fun _ _ => rfl⟩, ⟨?_, rfl⟩⟩
  · intro j k x y _ hx _
    cases hx
  · intro j k x y _ hx _
    cases hx
  · intro f
    rw [hinfo]
    exact CBlockFileInfo.small_default
  · intro f
    exact CBlockFileInfo.small_default
  · exact Nat.le_refl 1

/-- records do not meet and end where the statistics say, and the statistics bound the heights -/
structure Honest (s : BlockManager) : Prop where
  blocks : Apart (s.extents BlockEntry.blockExtent)
  blocks_end : ∀ hash x, s.extents BlockEntry.blockExtent hash = some x →
    x.stop ≤ (s.fileInfo x.file).nSize
  undos : Apart (s.extents BlockEntry.undoExtent)
  undos_end : ∀ hash x, s.extents BlockEntry.undoExtent hash = some x →
    x.stop ≤ (s.fileInfo x.file).nUndoSize
  heights : s.Bounded

theorem Inv.honest (hi : s.Inv) : s.Honest where
  blocks := hi.blocks
  blocks_end _ _ h := hi.block_stop h
  undos := hi.undos
  undos_end _ _ h := hi.undo_stop h
  heights hash e hget hd := ((hi.fits hash e hget).heights hd).2

/-- **Stored blocks never overlap and the statistics are honest**, in every state that a history
reaches, as long as the undo data of a file fits into its counter; and a block that fits into a file
with its header always finds a place. -/
theorem run_honest (opts : BlockManagerOpts) (evs : List StorageEvent) (s : BlockManager)
    (hp : (fresh opts).RunsWithin evs) (h : (fresh opts).run evs = .ok s) :
    s.Honest ∧ ∀ block_size nHeight nTime env,
      block_size + STORAGE_HEADER_BYTES < MAX_BLOCKFILE_SIZE →
        ∃ r, s.findNextBlockPos (block_size + STORAGE_HEADER_BYTES) nHeight nTime env = .ok r := by
  have hi : s.Inv := run_inv (fresh_inv opts) hp h
  refine ⟨hi.honest, fun block_size nHeight nTime env hsize => ?_⟩
  obtain ⟨nFile, s', -, -, heq⟩ := findNextBlockPos_ok hi
    (Nat.le_add_left STORAGE_HEADER_BYTES block_size) hsize nHeight nTime env
  exact ⟨_, heq⟩

end BlockManager

/-! ## undo data over undo data -/

def sampleStorageEnv : StorageEnv := ⟨true, true, true⟩

def sampleStored (n : Nat) : Uint256 := Uint256.ofByte (UInt8.ofNat n)

/-- a chain of `n` blocks of a megabyte after the first, each with undo data of the given size -/
def sampleUndoHistory (n blockundo_size : Nat) : List StorageEvent :=
  (List.range (n + 1)).map (fun i => .header (sampleStored (i + 1)) (sampleStored i)) ++
    (List.range n).flatMap fun i =>
      [.writeBlock (sampleStored (i + 2)) 1000000 0 sampleStorageEnv,
       .writeBlockUndo (sampleStored (i + 2)) blockundo_size sampleStorageEnv]

/-- Nineteen blocks, each of which spends 24000 outputs with scripts of 10000 bytes: the undo data
of the last is written over that of the first.  And a block that is smaller than a file, but not with
its header, fails the assertion. -/
theorem undo_records_overlap :
    (∃ s, (BlockManager.fresh ⟨false, 0⟩).run (sampleUndoHistory 19 240000000) = .ok s ∧
      s.extents BlockEntry.undoExtent (sampleStored 2) = some ⟨0, 0, 240000040⟩ ∧
      s.extents BlockEntry.undoExtent (sampleStored 20) = some ⟨0, 25033424, 265033464⟩ ∧
      ¬ s.Honest) ∧
    MAX_BLOCKFILE_SIZE - 1 < MAX_BLOCKFILE_SIZE ∧
    ∃ f, (BlockManager.fresh ⟨false, 0⟩).findNextBlockPos
      (MAX_BLOCKFILE_SIZE - 1 + STORAGE_HEADER_BYTES) 1 0 sampleStorageEnv = .error f := by
  refine ⟨?_, by decide, ⟨_, rfl⟩⟩
  obtain ⟨s, hs, h1, h2⟩ : ∃ s, (BlockManager.fresh ⟨false, 0⟩).run (sampleUndoHistory 19 240000000) =
      .ok s ∧ s.extents BlockEntry.undoExtent (sampleStored 2) = some ⟨0, 0, 240000040⟩ ∧
        s.extents BlockEntry.undoExtent (sampleStored 20) = some ⟨0, 25033424, 265033464⟩ := by
    decide +kernel
  refine ⟨s, hs, h1, h2, fun hh => ?_⟩
  have hne : sampleStored 2 ≠ sampleStored 20 := by decide
  have hclear : 240000040 ≤ 25033424 ∨ 265033464 ≤ 0 := hh.undos _ _ _ _ hne h1 h2 rfl
  omega

/-- blocks with little undo data, a snapshot below the last of them, a restart and pruning -/
def sampleQuietHistory : List StorageEvent :=
  sampleUndoHistory 3 100 ++ [.snapshotHeight (some 3), .restart ⟨false, 0⟩ (some 3), .prune 0]

theorem run_honest_quiet :
    ∃ s, (BlockManager.fresh ⟨false, 0⟩).run sampleQuietHistory = .ok s ∧ s.Honest := by
  have hp : (BlockManager.fresh ⟨false, 0⟩).RunsWithin sampleQuietHistory := by
    decide +kernel
  have heval : ((BlockManager.fresh ⟨false, 0⟩).run sampleQuietHistory).isOk = true := by
    decide +kernel
  cases hs : (BlockManager.fresh ⟨false, 0⟩).run sampleQuietHistory with
  | error f =>
    rw [hs] at heval
    cases heval
  | ok s => exact ⟨s, rfl, (BlockManager.run_honest _ _ s hp hs).1⟩

end ElektronNet
