import ElektronNet.BlockStorage
import ElektronNet.ConsensusParams
import ElektronNet.ChainSelection
import ElektronNet.CoinsState

/-!
# Pruning

`Chainstate::GetPruneRange` and the pruning part of `Chainstate::FlushStateToDisk` in
`validation.cpp`, with `FindFilesToPrune` and `FindFilesToPruneManual`.

Deletion goes by files, the promise goes by blocks.  A file goes only if its statistics lie inside
the prune range (`prunable`), so a block goes only if its height does; the range ends below every
height that is promised (`PruneChain.not_prunable`).

* `PruneChain`           what pruning reads of a chainstate and its network
* `PruneChain.Promised`  the heights that pruning has to keep
* `pruneRange_keeps`     one pass over the files
-/

namespace ElektronNet

def MIN_DISK_SPACE_FOR_BLOCK_FILES : Nat := 550 * 1024 * 1024

def PRUNE_LOCK_BUFFER : Int := 10

def INT_MAX : Int := 2 ^ 31 - 1

/-- the cast of an `int` -/
def toUnsigned (x : Int) : Nat := (x % 2 ^ 32).toNat

theorem toUnsigned_of_nonneg {x : Int} (h0 : 0 ≤ x) (hx : x < 2 ^ 32) : (toUnsigned x : Int) = x := by
  rw [toUnsigned, Int.toNat_of_nonneg (Int.emod_nonneg x (by decide))]
  exact Int.emod_eq_of_lt h0 hx

structure PruneChain where
  /-- `m_chain.Height()`: `-1` without a tip -/
  height : Int
  /-- the height of `SnapshotBase()` -/
  snapshotBase : Option Nat
  m_assumeutxo : Assumeutxo
  network : ChainType
  /-- `HistoricalChainstate()` is there -/
  historical : Bool
  height_ge : -1 ≤ height
  height_le : height ≤ INT_MAX
  /-- once it has a tip, a chain from a snapshot reaches the base: without the undo data of that block
  it cannot leave it before it is validated, and it has more work than the genesis block -/
  base_le : 0 ≤ height → ∀ b, snapshotBase = some b → m_assumeutxo ≠ .VALIDATED →
    0 < b ∧ (b : Int) ≤ height

namespace PruneChain

def depth (c : PruneChain) : Int := c.network.consensus.MandatoryPruneDepth

/-! ## the code -/

def pruneStart (c : PruneChain) : Int :=
  match c.snapshotBase with
  | none => 0
  | some b => if c.m_assumeutxo ≠ .VALIDATED then b + 1 else 0

def getPruneRange (c : PruneChain) (last_height_can_prune : Int) : Int × Int :=
  if c.height ≤ 0 then (0, 0)
  else (c.pruneStart, min last_height_can_prune (max 0 (c.height - c.depth)))

def applyLock (last_prune : Int) (lock : String × PruneLockInfo) : Int :=
  if lock.2.height_first = INT_MAX then last_prune
  else max 1 (min last_prune (lock.2.height_first - PRUNE_LOCK_BUFFER - 1))

def lastPrune (last_prune : Int) (locks : List (String × PruneLockInfo)) : Int :=
  locks.foldl applyLock last_prune

end PruneChain

/-- the file has blocks, and none of them is outside the range -/
def CBlockFileInfo.prunable (info : CBlockFileInfo) (range : Int × Int) : Bool :=
  !(decide (info.nSize = 0) || decide (info.nHeightLast > toUnsigned range.2) ||
    decide (info.nHeightFirst < toUnsigned range.1))

namespace BlockManager

def pruneFile (range : Int × Int) (p : BlockManager × Finset Nat) (fileNumber : Nat) :
    BlockManager × Finset Nat :=
  if (p.1.fileInfo fileNumber).prunable range then
    (p.1.pruneOneBlockFile fileNumber, insert fileNumber p.2)
  else p

/-- the loop of both functions; pruning moves no cursor -/
def pruneRange (s : BlockManager) (range : Int × Int) : BlockManager × Finset Nat :=
  (List.range s.maxBlockfileNum).foldl (pruneFile range) (s, ∅)

def findFilesToPruneManual (s : BlockManager) (nManualPruneHeight : Int) (chain : PruneChain) :
    Except Fault (BlockManager × Finset Nat) :=
  if ¬ (s.isPruneMode = true ∧ nManualPruneHeight > 0) then
    .error (.assertion "IsPruneMode() && nManualPruneHeight > 0")
  else if chain.height < 0 then .ok (s, ∅)
  else .ok (s.pruneRange (chain.getPruneRange nManualPruneHeight))

/-- the usage of the disk is only logged -/
def findFilesToPrune (s : BlockManager) (last_prune : Int) (chain : PruneChain) :
    BlockManager × Finset Nat :=
  let num_chainstates := if chain.historical then 2 else 1
  let target := max MIN_DISK_SPACE_FOR_BLOCK_FILES (s.m_opts.prune_target / num_chainstates)
  if chain.height < 0 ∨ target = 0 then (s, ∅)
  else if chain.height ≤ chain.network.pruneAfterHeight then (s, ∅)
  else s.pruneRange (chain.getPruneRange last_prune)

/-- `m_have_pruned` and its flag in the database -/
def notePruned (s : BlockManager) : BlockManager :=
  { s with
    m_have_pruned := true
    m_block_tree_db := { s.m_block_tree_db with
      prunedblockfiles := s.m_block_tree_db.prunedblockfiles || !s.m_have_pruned } }

end BlockManager

structure FlushResult where
  blockman : BlockManager
  /-- the numbers of the files that were deleted -/
  unlinked : Finset Nat
  success : Bool

namespace PruneChain

/-- the first part of `FlushStateToDisk`: the files to prune -/
def selectFiles (c : PruneChain) (s : BlockManager) (nManualPruneHeight : Int) :
    Except Fault (BlockManager × Finset Nat) :=
  if s.isPruneMode = true ∧ (s.m_check_for_pruning = true ∨ nManualPruneHeight > 0) ∧
      s.m_blockfiles_indexed = true then
    let last_prune := lastPrune c.height s.m_prune_locks
    if nManualPruneHeight > 0 then
      s.findFilesToPruneManual (min last_prune nManualPruneHeight) c
    else
      let (s, files) := s.findFilesToPrune last_prune c
      .ok ({ s with m_check_for_pruning := false }, files)
  else .ok (s, ∅)

/-- the second part: the index is written, then the files are deleted -/
def writeFiles (mode : FlushStateMode) (env : FlushEnv) (p : BlockManager × Finset Nat) : FlushResult :=
  let env := { env with fFlushForPrune := decide (p.2 ≠ ∅) }
  let s := if env.fFlushForPrune then p.1.notePruned else p.1
  if shouldWrite mode env then
    if !env.indexSpace then ⟨s, ∅, false⟩
    else ⟨s.writeBlockIndexDB, if env.fFlushForPrune then p.2 else ∅, true⟩
  else ⟨s, ∅, true⟩

/-- as far as it concerns the block files; the coins are flushed after them -/
def flushStateToDisk (c : PruneChain) (s : BlockManager) (mode : FlushStateMode)
    (nManualPruneHeight : Int) (env : FlushEnv) : Except Fault FlushResult :=
  (c.selectFiles s nManualPruneHeight).map (writeFiles mode env)

/-! ## the promise -/

/-- what reorganisations, the indexes behind the locks and the validation of a snapshot need -/
def Promised (c : PruneChain) (locks : List (String × PruneLockInfo)) (height : Nat) : Prop :=
  (height : Int) > max 1 (c.height - c.depth) ∨
  (∃ lock ∈ locks, (height : Int) > max 1 (lock.2.height_first - PRUNE_LOCK_BUFFER - 1)) ∨
  ∃ b, c.snapshotBase = some b ∧ c.m_assumeutxo ≠ .VALIDATED ∧ height ≤ b

def AboveCheckpoint (c : PruneChain) (height : Nat) : Prop :=
  (height : Int) > c.height.tdiv c.depth * c.depth

end PruneChain

/-! ## one pass over the files -/

namespace BlockManager

/-- an entry in a file that is not prunable, and the file is not among those that went -/
def Spared (range : Int × Int) (hash : Uint256) (e : BlockEntry) (p : BlockManager × Finset Nat) :
    Prop :=
  p.1.m_block_index.get hash = some e ∧ (p.1.fileInfo e.nFile).prunable range = false ∧
    e.nFile ∉ p.2

variable {range : Int × Int} {hash : Uint256} {e : BlockEntry}

theorem pruneFile_spares {p : BlockManager × Finset Nat} (fileNumber : Nat)
    (h : Spared range hash e p) : Spared range hash e (pruneFile range p fileNumber) := by
  obtain ⟨hget, hkeep, hfile⟩ := h
  unfold pruneFile
  by_cases hp : (p.1.fileInfo fileNumber).prunable range = true
  · rw [if_pos hp]
    have hne : e.nFile ≠ fileNumber := by
      intro heq
      rw [heq, hp] at hkeep
      cases hkeep
    refine ⟨?_, ?_, ?_⟩
    · rw [pruneOneBlockFile_get, hget, Option.map_some, if_neg hne]
    · rw [pruneOneBlockFile_fileInfo _ hne]
      exact hkeep
    · rw [Finset.mem_insert, not_or]
      exact ⟨hne, hfile⟩
  · rw [if_neg hp]
    exact ⟨hget, hkeep, hfile⟩

theorem foldl_pruneFile_spares (files : List Nat) {p : BlockManager × Finset Nat}
    (h : Spared range hash e p) : Spared range hash e (files.foldl (pruneFile range) p) := by
  induction files generalizing p with
  | nil => exact h
  | cons f files ih => exact ih (pruneFile_spares f h)

theorem pruneRange_keeps {s : BlockManager} (hget : s.m_block_index.get hash = some e)
    (hkeep : (s.fileInfo e.nFile).prunable range = false) :
    (s.pruneRange range).1.m_block_index.get hash = some e ∧ e.nFile ∉ (s.pruneRange range).2 := by
  have h0 : Spared range hash e (s, ∅) := ⟨hget, hkeep, Finset.notMem_empty _⟩
  obtain ⟨h1, -, h2⟩ := foldl_pruneFile_spares (List.range s.maxBlockfileNum) h0
  exact ⟨h1, h2⟩

end BlockManager

/-! ## the range -/

namespace CBlockFileInfo

theorem not_prunable_of_last {info : CBlockFileInfo} {range : Int × Int} {height : Nat}
    (hlast : height ≤ info.nHeightLast) (h : toUnsigned range.2 < height) :
    info.prunable range = false := by
  have : info.nHeightLast > toUnsigned range.2 := Nat.lt_of_lt_of_le h hlast
  simp [prunable, this]

theorem not_prunable_of_first {info : CBlockFileInfo} {range : Int × Int} {height : Nat}
    (hfirst : info.nHeightFirst ≤ height) (h : height < toUnsigned range.1) :
    info.prunable range = false := by
  have : info.nHeightFirst < toUnsigned range.1 := Nat.lt_of_le_of_lt hfirst h
  simp [prunable, this]

end CBlockFileInfo

namespace PruneChain

theorem depth_ge (c : PruneChain) : 11 ≤ c.depth := by
  unfold depth
  cases c.network <;> decide

variable {last : Int} {s : BlockManager}

theorem lastPrune_le {m : Int} (hm : 1 ≤ m) (locks : List (String × PruneLockInfo)) (h : last ≤ m) :
    lastPrune last locks ≤ m := by
  induction locks generalizing last with
  | nil => exact h
  | cons lock locks ih =>
    apply ih
    unfold applyLock
    split <;> omega

theorem lastPrune_le_lock {locks : List (String × PruneLockInfo)} {lock : String × PruneLockInfo}
    (hmem : lock ∈ locks) (hmax : lock.2.height_first ≠ INT_MAX) (last : Int) :
    lastPrune last locks ≤ max 1 (lock.2.height_first - PRUNE_LOCK_BUFFER - 1) := by
  induction locks generalizing last with
  | nil => cases hmem
  | cons l locks ih =>
    rcases List.mem_cons.mp hmem with heq | hmem
    · subst heq
      have hstep : applyLock last lock ≤ max 1 (lock.2.height_first - PRUNE_LOCK_BUFFER - 1) := by
        rw [applyLock]
        omega
      exact lastPrune_le (by omega) locks hstep
    · exact ih hmem _

theorem lastPrune_pos (locks : List (String × PruneLockInfo)) (h : 1 ≤ last) :
    1 ≤ lastPrune last locks := by
  induction locks generalizing last with
  | nil => exact h
  | cons lock locks ih =>
    apply ih
    unfold applyLock
    split <;> omega

section
variable (c : PruneChain)

theorem toUnsigned_end (hT : 0 < c.height) (hlast : 1 ≤ last) :
    (toUnsigned (c.getPruneRange last).2 : Int) = min last (max 0 (c.height - c.depth)) := by
  have hle := c.height_le
  have hd := c.depth_ge
  rw [getPruneRange, if_neg (by omega)]
  apply toUnsigned_of_nonneg
  · show 0 ≤ min last (max 0 (c.height - c.depth))
    omega
  · show min last (max 0 (c.height - c.depth)) < 2 ^ 32
    unfold INT_MAX at hle
    omega

/-- **No file with a promised block is in the range**, for every end that the locks allow. -/
theorem not_prunable {locks : List (String × PruneLockInfo)} {height : Nat}
    (h : c.Promised locks height ∨ c.AboveCheckpoint height)
    (hlast : last ≤ lastPrune c.height locks) (hpos : 0 < c.height → 1 ≤ last) (hT : 0 ≤ c.height)
    {info : CBlockFileInfo} (hfirst : info.nHeightFirst ≤ height)
    (hend : height ≤ info.nHeightLast) : info.prunable (c.getPruneRange last) = false := by
  have hle := c.height_le
  have hd := c.depth_ge
  by_cases h0 : c.height = 0
  · -- only the genesis block can go
    have hheight : 0 < height := by
      rcases h with (h | ⟨lock, -, h⟩ | ⟨b, hb, hval, -⟩) | h
      · omega
      · omega
      · have := c.base_le hT b hb hval
        omega
      · rw [AboveCheckpoint, h0, Int.zero_tdiv] at h
        omega
    apply CBlockFileInfo.not_prunable_of_last hend
    rw [getPruneRange, if_pos (by omega)]
    exact hheight
  · have hT' : 0 < c.height := by omega
    have hrange := c.toUnsigned_end hT' (hpos hT')
    rcases h with (h | ⟨lock, hmem, h⟩ | ⟨b, hb, hval, h⟩) | h
    · apply CBlockFileInfo.not_prunable_of_last hend
      omega
    · apply CBlockFileInfo.not_prunable_of_last hend
      by_cases hmax : lock.2.height_first = INT_MAX
      · -- such a lock is skipped, but no tip is that high
        unfold PRUNE_LOCK_BUFFER at h
        omega
      · have := lastPrune_le_lock hmem hmax c.height
        omega
    · apply CBlockFileInfo.not_prunable_of_first hfirst
      obtain ⟨-, hbT⟩ := c.base_le hT b hb hval
      have hstart : (c.getPruneRange last).1 = (b : Int) + 1 := by
        rw [getPruneRange, if_neg (by omega)]
        show c.pruneStart = _
        rw [pruneStart, hb]
        exact if_pos hval
      have hcast : (toUnsigned (c.getPruneRange last).1 : Int) = (b : Int) + 1 := by
        rw [hstart]
        unfold INT_MAX at hle
        exact toUnsigned_of_nonneg (by omega) (by omega)
      omega
    · apply CBlockFileInfo.not_prunable_of_last hend
      have hdiv : c.height - c.depth < c.height.tdiv c.depth * c.depth := by
        rw [Int.tdiv_eq_ediv_of_nonneg hT]
        have h1 := Int.emod_lt_of_pos c.height (show 0 < c.depth by omega)
        have h2 := Int.mul_ediv_add_emod c.height c.depth
        rw [Int.mul_comm] at h2
        omega
      have hq : 0 ≤ c.height.tdiv c.depth * c.depth :=
        Int.mul_nonneg (Int.tdiv_nonneg hT (by omega)) (by omega)
      unfold AboveCheckpoint at h
      omega

/-! ## the flush -/

def Stays (hash : Uint256) (e : BlockEntry) (p : BlockManager × Finset Nat) : Prop :=
  p.1.m_block_index.get hash = some e ∧ e.nFile ∉ p.2

theorem pruneRange_stays (hs : s.Bounded) {hash : Uint256} {e : BlockEntry}
    (hget : s.m_block_index.get hash = some e) (hdata : e.haveData = true)
    (h : c.Promised s.m_prune_locks e.nHeight ∨ c.AboveCheckpoint e.nHeight)
    (hlast : last ≤ lastPrune c.height s.m_prune_locks) (hpos : 0 < c.height → 1 ≤ last)
    (hT : 0 ≤ c.height) : Stays hash e (s.pruneRange (c.getPruneRange last)) := by
  obtain ⟨hfirst, hend⟩ := hs hash e hget hdata
  exact BlockManager.pruneRange_keeps hget (c.not_prunable h hlast hpos hT hfirst hend)

theorem findFilesToPrune_stays (hs : s.Bounded) {hash : Uint256} {e : BlockEntry}
    (hget : s.m_block_index.get hash = some e) (hdata : e.haveData = true)
    (h : c.Promised s.m_prune_locks e.nHeight ∨ c.AboveCheckpoint e.nHeight) :
    Stays hash e (s.findFilesToPrune (lastPrune c.height s.m_prune_locks) c) := by
  have hnone : Stays hash e (s, ∅) := ⟨hget, Finset.notMem_empty _⟩
  unfold BlockManager.findFilesToPrune
  by_cases hT : c.height < 0 ∨ max MIN_DISK_SPACE_FOR_BLOCK_FILES
      (s.m_opts.prune_target / if c.historical then 2 else 1) = 0
  · rw [if_pos hT]
    exact hnone
  · rw [if_neg hT]
    by_cases hafter : c.height ≤ c.network.pruneAfterHeight
    · rw [if_pos hafter]
      exact hnone
    · rw [if_neg hafter]
      exact c.pruneRange_stays hs hget hdata h le_rfl
        (fun hpos => lastPrune_pos s.m_prune_locks hpos) (by omega)

theorem selectFiles_stays (hs : s.Bounded) (nManualPruneHeight : Int) :
    match c.selectFiles s nManualPruneHeight with
    | .error _ => 0 < nManualPruneHeight ∧ c.height ≤ 0
    | .ok p => ∀ hash e, s.m_block_index.get hash = some e → e.haveData = true →
        c.Promised s.m_prune_locks e.nHeight ∨ c.AboveCheckpoint e.nHeight → Stays hash e p := by
  have hnone : ∀ hash e, s.m_block_index.get hash = some e → Stays hash e (s, ∅) :=
    fun hash e hget => ⟨hget, Finset.notMem_empty _⟩
  unfold selectFiles
  by_cases hrun : s.isPruneMode = true ∧ (s.m_check_for_pruning = true ∨ nManualPruneHeight > 0) ∧
      s.m_blockfiles_indexed = true
  · rw [if_pos hrun]
    have hposLast := fun hT : 0 < c.height => lastPrune_pos s.m_prune_locks (show 1 ≤ c.height from hT)
    by_cases hman : nManualPruneHeight > 0
    · rw [if_pos hman]
      unfold BlockManager.findFilesToPruneManual
      by_cases hassert : s.isPruneMode = true ∧
          min (lastPrune c.height s.m_prune_locks) nManualPruneHeight > 0
      · rw [if_neg (not_not_intro hassert)]
        by_cases hT : c.height < 0
        · rw [if_pos hT]
          intro hash e hget _ _
          exact hnone hash e hget
        · rw [if_neg hT]
          intro hash e hget hdata h
          exact c.pruneRange_stays hs hget hdata h (by omega) (fun _ => by omega) (by omega)
      · rw [if_pos hassert]
        by_contra hT
        exact hassert ⟨hrun.1, by omega⟩
    · rw [if_neg hman]
      intro hash e hget hdata h
      exact c.findFilesToPrune_stays hs hget hdata h
  · rw [if_neg hrun]
    intro hash e hget _ _
    exact hnone hash e hget

theorem writeFiles_index (mode : FlushStateMode) (env : FlushEnv) (p : BlockManager × Finset Nat) :
    (writeFiles mode env p).blockman.m_block_index = p.1.m_block_index := by
  have hnote : (if decide (p.2 ≠ ∅) = true then p.1.notePruned else p.1).m_block_index =
      p.1.m_block_index := by
    split <;> rfl
  unfold writeFiles
  dsimp only
  split
  · split
    · exact hnote
    · exact hnote
  · exact hnote

theorem writeFiles_unlinked (mode : FlushStateMode) (env : FlushEnv)
    (p : BlockManager × Finset Nat) : (writeFiles mode env p).unlinked ⊆ p.2 := by
  have hfiles : (if decide (p.2 ≠ ∅) = true then p.2 else ∅) ⊆ p.2 := by
    split
    · exact Finset.Subset.refl _
    · exact Finset.empty_subset _
  unfold writeFiles
  dsimp only
  split
  · split
    · exact Finset.empty_subset _
    · exact hfiles
  · exact Finset.empty_subset _

/-- **Pruning keeps what it has to keep.**  After a flush every block with data at a promised height,
or above the latest checkpoint, has the same entry, undo flag included, and its file is there. -/
theorem flushStateToDisk_keeps (s : BlockManager) (hs : s.Bounded)
    (mode : FlushStateMode) (nManualPruneHeight : Int) (env : FlushEnv) :
    match c.flushStateToDisk s mode nManualPruneHeight env with
    | .error _ => 0 < nManualPruneHeight ∧ c.height ≤ 0
    | .ok r => ∀ hash e, s.m_block_index.get hash = some e → e.haveData = true →
        c.Promised s.m_prune_locks e.nHeight ∨ c.AboveCheckpoint e.nHeight →
          r.blockman.m_block_index.get hash = some e ∧ e.nFile ∉ r.unlinked := by
  have hsel := c.selectFiles_stays hs nManualPruneHeight
  unfold flushStateToDisk
  cases hp : c.selectFiles s nManualPruneHeight with
  | error f =>
    rw [hp] at hsel
    exact hsel
  | ok p =>
    rw [hp] at hsel
    intro hash e hget hdata h
    obtain ⟨hindex, hfile⟩ := hsel hash e hget hdata h
    refine ⟨?_, fun hmem => hfile (writeFiles_unlinked mode env p hmem)⟩
    rw [writeFiles_index]
    exact hindex

end

end PruneChain

/-! ## two files on `regtest` -/

def samplePruneEntry (nHeight nFile : Nat) : BlockEntry where
  pprev := none
  nHeight := nHeight
  nFile := nFile
  nDataPos := 8
  nUndoPos := 8
  haveData := true
  haveUndo := true
  dataSize := 92
  undoSize := 10

def samplePruneInfo (nHeight : Nat) : CBlockFileInfo := ⟨1, 100, 50, nHeight, nHeight, 0, 0⟩

def samplePruneFiles : BlockManager :=
  { BlockManager.fresh ⟨false, 1⟩ with
    m_block_index := (FMap.empty.insert (Uint256.ofByte 1) (samplePruneEntry 150 0)).insert
      (Uint256.ofByte 2) (samplePruneEntry 250 1)
    m_blockfile_info := [samplePruneInfo 150, samplePruneInfo 250, {}]
    normalCursor := some ⟨2, 0⟩
    m_check_for_pruning := true
    m_prune_locks := [("index", ⟨230⟩)] }

def samplePruneChain : PruneChain where
  height := 300
  snapshotBase := none
  m_assumeutxo := .VALIDATED
  network := .REGTEST
  historical := false
  height_ge := by decide
  height_le := by decide
  base_le := by
    intro _ b hb
    cases hb

theorem samplePruneFiles_bounded : samplePruneFiles.Bounded := by
  intro hash e hget _
  have hcases : e = samplePruneEntry 150 0 ∨ e = samplePruneEntry 250 1 := by
    change ((FMap.empty.insert _ _).insert _ _).get hash = some e at hget
    rw [FMap.insert_get, FMap.insert_get] at hget
    split at hget
    · exact Or.inr (Option.some.inj hget).symm
    · split at hget
      · exact Or.inl (Option.some.inj hget).symm
      · rw [FMap.empty_get] at hget
        cases hget
  rcases hcases with rfl | rfl <;> decide

/-- the lower block went with its file, the upper one stays -/
theorem flushStateToDisk_keeps_upper :
    match samplePruneChain.flushStateToDisk samplePruneFiles .NONE 0 ⟨.OK, false, false, true, true⟩ with
    | .error _ => False
    | .ok r => (r.blockman.m_block_index.get (Uint256.ofByte 1)).map (·.haveData) = some false ∧
        r.blockman.m_block_index.get (Uint256.ofByte 2) = some (samplePruneEntry 250 1) := by
  have h := samplePruneChain.flushStateToDisk_keeps samplePruneFiles samplePruneFiles_bounded .NONE 0
    ⟨.OK, false, false, true, true⟩
  obtain ⟨r, hr, hlow⟩ : ∃ r, samplePruneChain.flushStateToDisk samplePruneFiles .NONE 0
      ⟨.OK, false, false, true, true⟩ = .ok r ∧
        (r.blockman.m_block_index.get (Uint256.ofByte 1)).map (·.haveData) = some false := by
    decide +kernel
  rw [hr] at h ⊢
  exact ⟨hlow, (h _ _ (by decide +kernel) rfl (Or.inl (Or.inl (by decide)))).1⟩

end ElektronNet
