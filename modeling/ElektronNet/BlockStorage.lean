import ElektronNet.Coins.View

/-!
# Block files

`BlockManager` of `node/blockstorage.h` and `node/blockstorage.cpp`, as far as it stores blocks and
undo data: the statistics of the files, the two write cursors, `WriteBlock`, `WriteBlockUndo`,
`PruneOneBlockFile`, and the block tree database with `WriteBlockIndexDB` and `LoadBlockIndexDB`.

* `BlockEntry`        the part of a `CBlockIndex` that says where its data is
* `CBlockFileInfo`    the statistics of a pair of files
* `findNextBlockPos`, `findUndoPos`   the next free place in a file
* `StorageEvent`      what happens to the files while a node runs and restarts

The bytes of the files are not modelled; a record is its place and its size.  Flushing changes no
statistics and is left out, and so is `m_blocks_unlinked`, which chain selection reads.  The
counters of a file are `uint32_t` and wrap.  `StorageEnv` answers for the disk.
-/

namespace ElektronNet

/-! ## files -/

def MAX_BLOCKFILE_SIZE : Nat := 128 * 1024 * 1024

/-- the magic and the size before a block -/
def STORAGE_HEADER_BYTES : Nat := 8

/-- the header, and the checksum after undo data -/
def UNDO_DATA_DISK_OVERHEAD : Nat := STORAGE_HEADER_BYTES + 32

structure CBlockFileInfo where
  nBlocks : Nat := 0
  nSize : Nat := 0
  nUndoSize : Nat := 0
  nHeightFirst : Nat := 0
  nHeightLast : Nat := 0
  nTimeFirst : Nat := 0
  nTimeLast : Nat := 0
deriving DecidableEq

/-- without `nSize` -/
def CBlockFileInfo.addBlock (info : CBlockFileInfo) (nHeightIn nTimeIn : Nat) : CBlockFileInfo :=
  { info with
    nHeightFirst :=
      if info.nBlocks = 0 ∨ info.nHeightFirst > nHeightIn then nHeightIn else info.nHeightFirst
    nTimeFirst := if info.nBlocks = 0 ∨ info.nTimeFirst > nTimeIn then nTimeIn else info.nTimeFirst
    nBlocks := (info.nBlocks + 1) % 2 ^ 32
    nHeightLast := if nHeightIn > info.nHeightLast then nHeightIn else info.nHeightLast
    nTimeLast := if nTimeIn > info.nTimeLast then nTimeIn else info.nTimeLast }

inductive BlockfileType where
  | NORMAL
  | ASSUMED
deriving DecidableEq

structure BlockfileCursor where
  file_num : Nat := 0
  undo_height : Nat := 0
deriving DecidableEq

structure FlatFilePos where
  nFile : Nat
  nPos : Nat
deriving DecidableEq

structure BlockEntry where
  pprev : Option Uint256
  nHeight : Nat
  nFile : Nat := 0
  nDataPos : Nat := 0
  nUndoPos : Nat := 0
  /-- `BLOCK_HAVE_DATA` -/
  haveData : Bool := false
  /-- `BLOCK_HAVE_UNDO` -/
  haveUndo : Bool := false
  /-- the sizes that stand in the headers of the two records -/
  dataSize : Nat := 0
  undoSize : Nat := 0
deriving DecidableEq

/-- what `CDiskBlockIndex` writes of the entry and reads again -/
def BlockEntry.disk (e : BlockEntry) : BlockEntry :=
  { e with
    nFile := if e.haveData || e.haveUndo then e.nFile else 0
    nDataPos := if e.haveData then e.nDataPos else 0
    nUndoPos := if e.haveUndo then e.nUndoPos else 0 }

/-- what `PruneOneBlockFile` leaves of the entry -/
def BlockEntry.prune (e : BlockEntry) : BlockEntry :=
  { e with haveData := false, haveUndo := false, nFile := 0, nDataPos := 0, nUndoPos := 0 }

structure BlockTreeDB where
  fileInfo : FMap Nat CBlockFileInfo
  lastBlockFile : Option Nat
  blockIndex : FMap Uint256 BlockEntry
  prunedblockfiles : Bool
  reindexing : Bool

/-- `BlockManagerOpts`, as far as it is read -/
structure BlockManagerOpts where
  fast_prune : Bool
  /-- `0`: no pruning -/
  prune_target : Nat

structure PruneLockInfo where
  height_first : Int := 2 ^ 31 - 1
deriving DecidableEq

structure BlockManager where
  m_block_index : FMap Uint256 BlockEntry
  m_blockfile_info : List CBlockFileInfo
  /-- `m_blockfile_cursors` -/
  normalCursor : Option BlockfileCursor
  assumedCursor : Option BlockfileCursor
  m_snapshot_height : Option Nat
  m_dirty_fileinfo : Finset Nat
  m_dirty_blockindex : Finset Uint256
  m_block_tree_db : BlockTreeDB
  m_check_for_pruning : Bool
  m_have_pruned : Bool
  m_blockfiles_indexed : Bool
  m_prune_locks : List (String × PruneLockInfo)
  m_opts : BlockManagerOpts

/-- what the disk answers to one write -/
structure StorageEnv where
  /-- `Allocate` finds space -/
  space : Bool
  /-- `Allocate` makes the file longer -/
  allocated : Bool
  /-- the file is opened, written and closed -/
  written : Bool

namespace BlockManager

section
variable (s : BlockManager)

def isPruneMode : Bool := decide (s.m_opts.prune_target > 0)

def fileInfo (n : Nat) : CBlockFileInfo := (s.m_blockfile_info[n]?).getD {}

def growTo (nFile : Nat) : BlockManager :=
  { s with
    m_blockfile_info :=
      s.m_blockfile_info ++ List.replicate (nFile + 1 - s.m_blockfile_info.length) {} }

def setFileInfo (nFile : Nat) (info : CBlockFileInfo) : BlockManager :=
  { s with m_blockfile_info := s.m_blockfile_info.set nFile info }

def cursor : BlockfileType → Option BlockfileCursor
  | .NORMAL => s.normalCursor
  | .ASSUMED => s.assumedCursor

def setCursor (type : BlockfileType) (c : BlockfileCursor) : BlockManager :=
  match type with
  | .NORMAL => { s with normalCursor := some c }
  | .ASSUMED => { s with assumedCursor := some c }

def maxBlockfileNum : Nat :=
  max (s.normalCursor.getD {}).file_num (s.assumedCursor.getD {}).file_num

def blockfileTypeForHeight (height : Nat) : BlockfileType :=
  match s.m_snapshot_height with
  | none => .NORMAL
  | some h => if height ≥ h then .ASSUMED else .NORMAL

end

/-! ## places -/

/-- the loop of `FindNextBlockPos`; `none`: out of fuel -/
def nextFile (max_blockfile_size nAddSize : Nat) (chain_type : BlockfileType) :
    Nat → Nat → BlockManager → Option (Nat × BlockManager)
  | 0, _, _ => none
  | fuel + 1, nFile, s =>
    if ((s.fileInfo nFile).nSize + nAddSize) % 2 ^ 32 ≥ max_blockfile_size then
      let nFile := s.maxBlockfileNum + 1
      nextFile max_blockfile_size nAddSize chain_type fuel nFile
        ((s.setCursor chain_type { file_num := nFile }).growTo nFile)
    else some (nFile, s)

section
variable (s : BlockManager)

def openCursor (chain_type : BlockfileType) : Except Fault (BlockfileCursor × BlockManager) :=
  match s.cursor chain_type with
  | some c => .ok (c, s)
  | none =>
    if chain_type ≠ .ASSUMED then .error (.assertion "chain_type == BlockfileType::ASSUMED")
    else
      let new_cursor : BlockfileCursor := { file_num := s.maxBlockfileNum + 1 }
      .ok (new_cursor, s.setCursor chain_type new_cursor)

/-- with `-fastprune` the files are small, but never too small for the block -/
def maxBlockfileSize (nAddSize : Nat) : Nat :=
  if s.m_opts.fast_prune then
    if nAddSize ≥ 0x10000 then (nAddSize + 1) % 2 ^ 32 else 0x10000
  else MAX_BLOCKFILE_SIZE

/-- the statistics after a block was given its place -/
def reserveBlock (nFile nAddSize nHeight nTime : Nat) : BlockManager :=
  let info := (s.fileInfo nFile).addBlock nHeight nTime
  s.setFileInfo nFile { info with nSize := (info.nSize + nAddSize) % 2 ^ 32 }

/-- the file has changed, and if it became longer a pruning node looks for files to prune -/
def markFile (nFile : Nat) (env : StorageEnv) : BlockManager :=
  { s with
    m_dirty_fileinfo := insert nFile s.m_dirty_fileinfo
    m_check_for_pruning := s.m_check_for_pruning || (env.allocated && s.isPruneMode) }

/-- no position: the disk is full -/
def findNextBlockPos (nAddSize nHeight nTime : Nat) (env : StorageEnv) :
    Except Fault (Option FlatFilePos × BlockManager) :=
  let chain_type := s.blockfileTypeForHeight nHeight
  match s.openCursor chain_type with
  | .error f => .error f
  | .ok (c, s) =>
    let last_blockfile := c.file_num
    let s := s.growTo last_blockfile
    if ¬ nAddSize < s.maxBlockfileSize nAddSize then
      .error (.assertion "nAddSize < max_blockfile_size")
    else
      match nextFile (s.maxBlockfileSize nAddSize) nAddSize chain_type
          (s.m_blockfile_info.length + 2) last_blockfile s with
      | none => .error (.runtimeError "loop")
      | some (nFile, s) =>
        let pos : FlatFilePos := ⟨nFile, (s.fileInfo nFile).nSize⟩
        let s := if nFile ≠ last_blockfile then s.setCursor chain_type { file_num := nFile } else s
        let s := s.reserveBlock nFile nAddSize nHeight nTime
        if !env.space then .ok (none, s)
        else .ok (some pos, s.markFile nFile env)

/-- the file is dirty even if there is no space -/
def findUndoPos (nFile nAddSize : Nat) (env : StorageEnv) : FlatFilePos × BlockManager :=
  let info := s.fileInfo nFile
  (⟨nFile, info.nUndoSize⟩,
    (s.setFileInfo nFile { info with nUndoSize := (info.nUndoSize + nAddSize) % 2 ^ 32 }).markFile
      nFile { env with allocated := env.allocated && env.space })

/-! ## blocks -/

def setEntry (hash : Uint256) (e : BlockEntry) : BlockManager :=
  { s with
    m_block_index := s.m_block_index.insert hash e
    m_dirty_blockindex := insert hash s.m_dirty_blockindex }

def addToBlockIndex (hash hashPrevBlock : Uint256) : BlockManager :=
  match s.m_block_index.get hash with
  | some _ => s
  | none =>
    match s.m_block_index.get hashPrevBlock with
    | none => s.setEntry hash { pprev := none, nHeight := 0 }
    | some prev => s.setEntry hash { pprev := some hashPrevBlock, nHeight := prev.nHeight + 1 }

/-- `WriteBlock` as `AcceptBlock` calls it: a block that is there already is not written again, one
that was written gets its place in the index from `ReceivedBlockTransactions` -/
def writeBlock (hash : Uint256) (block_size nTime : Nat) (env : StorageEnv) :
    Except Fault BlockManager :=
  match s.m_block_index.get hash with
  | none => .ok s
  | some e =>
    if e.haveData then .ok s
    else
      match s.findNextBlockPos ((block_size + STORAGE_HEADER_BYTES) % 2 ^ 32) e.nHeight nTime
          env with
      | .error f => .error f
      | .ok (none, s) => .ok s
      | .ok (some pos, s) =>
        if !env.written then .ok s
        else .ok (s.setEntry hash
          { e with
            nFile := pos.nFile
            nDataPos := (pos.nPos + STORAGE_HEADER_BYTES) % 2 ^ 32
            nUndoPos := 0
            haveData := true
            dataSize := block_size })

/-- the height up to which the undo data of the newest file is complete -/
def raiseUndoHeight (type : BlockfileType) (c : BlockfileCursor)
    (pos : FlatFilePos) (nHeight : Nat) : BlockManager :=
  if pos.nFile < c.file_num ∧ nHeight = (s.fileInfo pos.nFile).nHeightLast then s
  else if pos.nFile = c.file_num ∧ nHeight > c.undo_height then
    s.setCursor type { c with undo_height := nHeight }
  else s

/-- for a block with data -/
def writeBlockUndo (hash : Uint256) (blockundo_size : Nat) (env : StorageEnv) :
    Except Fault BlockManager :=
  match s.m_block_index.get hash with
  | none => .ok s
  | some e =>
    if !e.haveData then .ok s
    else
      let type := s.blockfileTypeForHeight e.nHeight
      match s.cursor type with
      | none => .error (.assertion "m_blockfile_cursors[type]")
      | some c =>
        if e.haveUndo then .ok s
        else
          let (pos, s) :=
            s.findUndoPos e.nFile ((blockundo_size + UNDO_DATA_DISK_OVERHEAD) % 2 ^ 32) env
          if !(env.space && env.written) then .ok s
          else .ok ((s.raiseUndoHeight type c pos e.nHeight).setEntry hash
            { e with
              nUndoPos := (pos.nPos + STORAGE_HEADER_BYTES) % 2 ^ 32
              haveUndo := true
              undoSize := blockundo_size })

/-! ## pruning -/

/-- the entry is stored in the file, or says so -/
def inFile (fileNumber : Nat) (hash : Uint256) : Bool :=
  (s.m_block_index.get hash).any fun e => e.nFile == fileNumber

def pruneOneBlockFile (fileNumber : Nat) : BlockManager :=
  { s with
    m_block_index := s.m_block_index.map fun _ e =>
      if e.nFile = fileNumber then e.prune else e
    m_dirty_blockindex :=
      s.m_dirty_blockindex ∪ s.m_block_index.dom.filter fun h => s.inFile fileNumber h = true
    m_blockfile_info := s.m_blockfile_info.set fileNumber {}
    m_dirty_fileinfo := insert fileNumber s.m_dirty_fileinfo }

theorem pruneOneBlockFile_get (fileNumber : Nat) (hash : Uint256) :
    (s.pruneOneBlockFile fileNumber).m_block_index.get hash =
      (s.m_block_index.get hash).map fun e => if e.nFile = fileNumber then e.prune else e :=
  FMap.map_get _ _ _

theorem pruneOneBlockFile_fileInfo {fileNumber n : Nat} (h : n ≠ fileNumber) :
    (s.pruneOneBlockFile fileNumber).fileInfo n = s.fileInfo n := by
  show ((s.m_blockfile_info.set fileNumber {})[n]?).getD {} = _
  rw [List.getElem?_set_ne h.symm]
  rfl

end

end BlockManager

/-! ## the database -/

/-- the files after the last one, as long as there are any -/
def BlockTreeDB.readMore (db : BlockTreeDB) : Nat → Nat → List CBlockFileInfo
  | 0, _ => []
  | fuel + 1, nFile =>
    match db.fileInfo.get nFile with
    | none => []
    | some info => info :: readMore db fuel (nFile + 1)

def BlockTreeDB.readFileInfo (db : BlockTreeDB) : List CBlockFileInfo :=
  (List.range (db.lastBlockFile.getD 0 + 1)).map (fun n => (db.fileInfo.get n).getD {}) ++
    db.readMore db.fileInfo.card (db.lastBlockFile.getD 0 + 1)

namespace BlockManager

def writeBlockIndexDB (s : BlockManager) : BlockManager :=
  { s with
    m_block_tree_db :=
      { s.m_block_tree_db with
        fileInfo := FMap.patch s.m_dirty_fileinfo
          (FMap.build s.m_dirty_fileinfo fun n => some (s.fileInfo n)) s.m_block_tree_db.fileInfo
        lastBlockFile := some s.maxBlockfileNum
        blockIndex := FMap.patch s.m_dirty_blockindex
          (s.m_block_index.map fun _ e => e.disk) s.m_block_tree_db.blockIndex }
    m_dirty_fileinfo := ∅
    m_dirty_blockindex := ∅ }

/-- every cursor moves to the last file of its type -/
def initCursors (s : BlockManager) : BlockManager :=
  (List.range s.m_blockfile_info.length).foldl
    (fun s i => s.setCursor (s.blockfileTypeForHeight (s.fileInfo i).nHeightLast) { file_num := i }) s

/-- a new process over the database, with the height of its snapshot; the block files are there -/
def readBlockIndexDB (db : BlockTreeDB) (opts : BlockManagerOpts) (snapshot_height : Option Nat) :
    BlockManager where
  m_block_index := db.blockIndex
  m_blockfile_info := db.readFileInfo
  normalCursor := some {}
  assumedCursor := none
  m_snapshot_height := snapshot_height
  m_dirty_fileinfo := ∅
  m_dirty_blockindex := ∅
  m_block_tree_db := db
  m_check_for_pruning := false
  m_have_pruned := db.prunedblockfiles
  m_blockfiles_indexed := !db.reindexing
  m_prune_locks := []
  m_opts := opts

def loadBlockIndexDB (db : BlockTreeDB) (opts : BlockManagerOpts) (snapshot_height : Option Nat) :
    BlockManager := (readBlockIndexDB db opts snapshot_height).initCursors

/-! ## histories -/

end BlockManager

inductive StorageEvent where
  | header (hash hashPrevBlock : Uint256)
  | writeBlock (hash : Uint256) (block_size nTime : Nat) (env : StorageEnv)
  | writeBlockUndo (hash : Uint256) (blockundo_size : Nat) (env : StorageEnv)
  | prune (fileNumber : Nat)
  /-- a snapshot was activated or replaced -/
  | snapshotHeight (height : Option Nat)
  /-- a clean shutdown, and a start -/
  | restart (opts : BlockManagerOpts) (snapshot_height : Option Nat)

namespace BlockManager

/-- the first start, over an empty database -/
def fresh (opts : BlockManagerOpts) : BlockManager :=
  loadBlockIndexDB ⟨FMap.empty, none, FMap.empty, false, false⟩ opts none

def step (s : BlockManager) : StorageEvent → Except Fault BlockManager
  | .header hash hashPrevBlock => .ok (s.addToBlockIndex hash hashPrevBlock)
  | .writeBlock hash block_size nTime env => s.writeBlock hash block_size nTime env
  | .writeBlockUndo hash blockundo_size env => s.writeBlockUndo hash blockundo_size env
  | .prune fileNumber =>
    if fileNumber < s.m_blockfile_info.length then .ok (s.pruneOneBlockFile fileNumber)
    else .error (.logicError "vector::_M_range_check")
  | .snapshotHeight height => .ok { s with m_snapshot_height := height }
  | .restart opts snapshot_height =>
    .ok (loadBlockIndexDB s.writeBlockIndexDB.m_block_tree_db opts snapshot_height)

def run (s : BlockManager) : List StorageEvent → Except Fault BlockManager
  | [] => .ok s
  | ev :: evs =>
    match s.step ev with
    | .error f => .error f
    | .ok s' => run s' evs

/-- the statistics of a file bound the heights of its blocks -/
def Bounded (s : BlockManager) : Prop :=
  ∀ hash e, s.m_block_index.get hash = some e → e.haveData = true →
    (s.fileInfo e.nFile).nHeightFirst ≤ e.nHeight ∧ e.nHeight ≤ (s.fileInfo e.nFile).nHeightLast

end BlockManager

end ElektronNet
