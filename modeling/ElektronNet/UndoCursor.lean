import ElektronNet.BlockFiles
import ElektronNet.SnapshotLoad

/-!
# The cursor that undo data is written under

`WriteBlockUndo` asserts that the block file cursor of the block's type exists.  The type is read
off the height of the block and the height of the snapshot now, not when the block was stored: a
block above the base that was stored before the activation went through the `NORMAL` cursor and is
`ASSUMED` afterwards, and the `ASSUMED` cursor is made by the next `FindNextBlockPos` above the
base or by a restart.

* `UndoNode`, `UndoEvent`   histories of storage, connecting, activations, flushes and restarts
* `Above`, `Connectable`    what the current chainstate can connect
* `Tracked`, `Saved`        the heights in the files bound the blocks, in memory and in the database
* `Ready`                   the assertion holds for every connectable block
* `Prepared`                what an activation has to find

`undo_ready_iff`: in every history the assertion holds in all states exactly if every activation
finds the cursor made, or no stored block above its base.

A restart reads what was flushed last, so that it also stands for a crash.
-/

namespace ElektronNet

/-! ## histories -/

/-- the block manager and the base of the current chainstate -/
structure UndoNode extends BlockManager where
  base : Option Uint256

inductive UndoEvent where
  | header (hash hashPrevBlock : Uint256)
  | writeBlock (hash : Uint256) (block_size nTime : Nat) (env : StorageEnv)
  /-- `ConnectBlock` reaches `WriteBlockUndo` -/
  | connect (hash : Uint256) (blockundo_size : Nat) (env : StorageEnv)
  | prune (fileNumber : Nat)
  | activate (base : Uint256)
  /-- `WriteBlockIndexDB` -/
  | flush
  | restart (opts : BlockManagerOpts) (snapshot_blockhash : Option Uint256)

namespace UndoNode

def withManager (s : UndoNode) (m : Except Fault BlockManager) : Except Fault UndoNode :=
  m.map fun m => { s with toBlockManager := m }

/-- from `m_snapshot_height` on -/
def activate (s : UndoNode) (base : Uint256) : Except Fault UndoNode :=
  match s.m_block_index.get base with
  | none => .error (.assertion "chainstate.SnapshotBase()")
  | some e => .ok { s with m_snapshot_height := some e.nHeight, base := some base }

section
variable (P : CChainParams)

/-- `LoadBlockIndex` over the database, with the base of the snapshot that was found on disk -/
def restart (s : UndoNode) (opts : BlockManagerOpts) :
    Option Uint256 → Except Fault UndoNode
  | none => .ok ⟨BlockManager.loadBlockIndexDB s.m_block_tree_db opts none, none⟩
  | some hash =>
    match s.m_block_tree_db.blockIndex.get hash with
    | none => .error (.runtimeError "Failed to find block index for the snapshot base block")
    | some base =>
      .ok ⟨BlockManager.loadBlockIndexDB s.m_block_tree_db opts
        (some (((P.assumeutxoForBlockhash hash).map (·.height)).getD base.nHeight)), some hash⟩

def step (s : UndoNode) : UndoEvent → Except Fault UndoNode
  | .header hash hashPrevBlock =>
    s.withManager (s.toBlockManager.step (.header hash hashPrevBlock))
  | .writeBlock hash block_size nTime env =>
    s.withManager (s.toBlockManager.step (.writeBlock hash block_size nTime env))
  | .connect hash blockundo_size env =>
    s.withManager (s.toBlockManager.step (.writeBlockUndo hash blockundo_size env))
  | .prune fileNumber => s.withManager (s.toBlockManager.step (.prune fileNumber))
  | .activate base => s.activate base
  | .flush => .ok { s with toBlockManager := s.writeBlockIndexDB }
  | .restart opts snapshot_blockhash => s.restart P opts snapshot_blockhash

def run (s : UndoNode) : List UndoEvent → Except Fault UndoNode
  | [] => .ok s
  | ev :: evs =>
    match s.step P ev with
    | .error f => .error f
    | .ok s' => run s' evs

end

def fresh (opts : BlockManagerOpts) : UndoNode := ⟨BlockManager.fresh opts, none⟩

end UndoNode

/-! ## the tree -/

def ParentOf (m : FMap Uint256 BlockEntry) (a b : Uint256) : Prop :=
  ∃ e, m.get b = some e ∧ e.pprev = some a

def Above (m : FMap Uint256 BlockEntry) (base hash : Uint256) : Prop :=
  Relation.TransGen (ParentOf m) base hash

/-- a block is one higher than its parent -/
def Stacked (m : FMap Uint256 BlockEntry) : Prop :=
  ∀ hash e p, m.get hash = some e → e.pprev = some p →
    ∃ e', m.get p = some e' ∧ e.nHeight = e'.nHeight + 1

/-- no block of the first goes, and none gets another parent -/
def KeepsParents (m m' : FMap Uint256 BlockEntry) : Prop :=
  ∀ hash e, m.get hash = some e → ∃ e', m'.get hash = some e' ∧ e'.pprev = e.pprev

variable {m : FMap Uint256 BlockEntry} {hash : Uint256} {e : BlockEntry}

theorem Stacked.above_lt (hm : Stacked m) {base : Uint256} (h : Above m base hash) {b : BlockEntry}
    (he : m.get hash = some e) (hb : m.get base = some b) : b.nHeight < e.nHeight := by
  induction h generalizing e with
  | single hparent =>
    obtain ⟨e₀, he₀, hp⟩ := hparent
    obtain ⟨p, hpget, hh⟩ := hm _ _ _ he₀ hp
    rw [he] at he₀
    rw [hb] at hpget
    cases he₀
    cases hpget
    omega
  | tail _ hparent ih =>
    obtain ⟨e₀, he₀, hp⟩ := hparent
    obtain ⟨p, hpget, hh⟩ := hm _ _ _ he₀ hp
    rw [he] at he₀
    cases he₀
    have := ih hpget
    omega

theorem KeepsParents.above {m' : FMap Uint256 BlockEntry} (h : KeepsParents m m') (hm : Stacked m)
    {base : Uint256} (ha : Above m' base hash) (he : m.get hash = some e) : Above m base hash := by
  have hparent : ∀ {a b : Uint256} {e : BlockEntry}, ParentOf m' a b → m.get b = some e →
      ParentOf m a b ∧ ∃ e', m.get a = some e' := by
    intro a b e hab hb
    obtain ⟨e₁, he₁, hp⟩ := hab
    obtain ⟨e₂, he₂, hsame⟩ := h b e hb
    rw [he₁] at he₂
    cases he₂
    rw [hsame] at hp
    obtain ⟨p, hpget, -⟩ := hm b e a hb hp
    exact ⟨⟨e, hb, hp⟩, p, hpget⟩
  induction ha generalizing e with
  | single hab => exact .single (hparent hab he).1
  | tail _ hab ih =>
    obtain ⟨hlast, p, hpget⟩ := hparent hab he
    exact .tail (ih hpget) hlast

theorem Stacked.insert (hm : Stacked m)
    (hp : ∀ p, e.pprev = some p → ∃ e', m.get p = some e' ∧ e.nHeight = e'.nHeight + 1)
    (hsame : ∀ old, m.get hash = some old → old.nHeight = e.nHeight) :
    Stacked (m.insert hash e) := by
  -- the height of an entry that was there stays
  have hup : ∀ p e', m.get p = some e' →
      ∃ e'', (m.insert hash e).get p = some e'' ∧ e''.nHeight = e'.nHeight := by
    intro p e' hget
    by_cases hh : p = hash
    · rw [hh] at hget ⊢
      exact ⟨e, FMap.insert_get_self .., (hsame e' hget).symm⟩
    · exact ⟨e', by rw [FMap.insert_get_ne hh]; exact hget, rfl⟩
  intro h e₀ p hget hpp
  have hold : ∃ e', m.get p = some e' ∧ e₀.nHeight = e'.nHeight + 1 := by
    by_cases hh : h = hash
    · rw [hh, FMap.insert_get_self] at hget
      cases hget
      exact hp p hpp
    · rw [FMap.insert_get_ne hh] at hget
      exact hm h e₀ p hget hpp
  obtain ⟨e', hget', hheight⟩ := hold
  obtain ⟨e'', hget'', hsame'⟩ := hup p e' hget'
  exact ⟨e'', hget'', by omega⟩

theorem KeepsParents.insert (h : ∀ old, m.get hash = some old → e.pprev = old.pprev) :
    KeepsParents m (m.insert hash e) := by
  intro k old hget
  by_cases hk : k = hash
  · rw [hk] at hget ⊢
    exact ⟨e, FMap.insert_get_self .., h old hget⟩
  · exact ⟨old, by rw [FMap.insert_get_ne hk]; exact hget, rfl⟩

namespace BlockManager

/-! ## the assertion -/

def HasCursor (s : BlockManager) (e : BlockEntry) : Prop :=
  (s.cursor (s.blockfileTypeForHeight e.nHeight)).isSome = true

variable {s s' : BlockManager} {hash : Uint256} {e : BlockEntry} {nFile : Nat}
  {type : BlockfileType} {env : StorageEnv}

theorem writeBlockUndo_ok_iff (hget : s.m_block_index.get hash = some e) (hd : e.haveData = true)
    (blockundo_size : Nat) (env : StorageEnv) :
    (∃ s', s.writeBlockUndo hash blockundo_size env = .ok s') ↔ s.HasCursor e := by
  unfold writeBlockUndo HasCursor
  rw [hget]
  dsimp only
  rw [hd]
  cases hc : s.cursor (s.blockfileTypeForHeight e.nHeight) with
  | none => exact ⟨fun ⟨s', h⟩ => (by cases h), fun h => (by cases h)⟩
  | some c =>
    refine ⟨fun _ => rfl, fun _ => ?_⟩
    dsimp only
    by_cases hu : e.haveUndo = true
    · exact ⟨s, if_pos hu⟩
    · rw [if_neg hu]
      by_cases hw : (!(env.space && env.written)) = true
      · exact ⟨_, if_pos hw⟩
      · exact ⟨_, if_neg hw⟩

/-! ## what a step does to the cursors and the heights -/

/-- files grow in height, cursors stay, no entry changes -/
structure HeightsGrow (s s' : BlockManager) : Prop where
  index : s'.m_block_index = s.m_block_index
  dirtyIndex : s'.m_dirty_blockindex = s.m_dirty_blockindex
  db : s'.m_block_tree_db = s.m_block_tree_db
  grows : ∀ f, (s.fileInfo f).nHeightLast ≤ (s'.fileInfo f).nHeightLast
  dirty : s.m_dirty_fileinfo ⊆ s'.m_dirty_fileinfo
  length : s.m_blockfile_info.length ≤ s'.m_blockfile_info.length
  snapshot : s'.m_snapshot_height = s.m_snapshot_height
  cursors : ∀ type, (s.cursor type).isSome = true → (s'.cursor type).isSome = true

theorem HeightsGrow.refl (s : BlockManager) : HeightsGrow s s :=
  ⟨rfl, rfl, rfl, fun _ => le_rfl, Finset.Subset.refl _, le_rfl, rfl, fun _ h => h⟩

theorem HeightsGrow.trans {t u : BlockManager} (h : HeightsGrow s t) (h' : HeightsGrow t u) :
    HeightsGrow s u where
  index := h'.index.trans h.index
  dirtyIndex := h'.dirtyIndex.trans h.dirtyIndex
  db := h'.db.trans h.db
  grows f := (h.grows f).trans (h'.grows f)
  dirty := h.dirty.trans h'.dirty
  length := h.length.trans h'.length
  snapshot := h'.snapshot.trans h.snapshot
  cursors type hc := h'.cursors type (h.cursors type hc)

theorem SameFiles.heightsGrow (h : SameFiles s s') : HeightsGrow s s' :=
  ⟨h.index, h.dirtyIndex, h.db, fun f => by rw [h.info], h.dirty.ge, h.length, h.snapshot, h.cursors⟩

theorem heightsGrow_setFileInfo {info : CBlockFileInfo} (hlt : nFile < s.m_blockfile_info.length)
    (hinfo : (s.fileInfo nFile).nHeightLast ≤ info.nHeightLast) :
    HeightsGrow s (s.setFileInfo nFile info) where
  index := rfl
  dirtyIndex := rfl
  db := rfl
  grows f := by
    rw [setFileInfo_fileInfo hlt]
    split
    · rename_i hf
      rw [hf]
      exact hinfo
    · exact le_rfl
  dirty := Finset.Subset.refl _
  length := by
    show _ ≤ (s.m_blockfile_info.set _ _).length
    rw [List.length_set]
  snapshot := rfl
  cursors type h := by cases type <;> exact h

theorem heightsGrow_markFile (s : BlockManager) (nFile : Nat) (env : StorageEnv) :
    HeightsGrow s (s.markFile nFile env) :=
  ⟨rfl, rfl, rfl, fun _ => le_rfl, Finset.subset_insert _ _, le_rfl, rfl,
    fun type h => by cases type <;> exact h⟩

theorem reserveBlock_grow (hlt : nFile < s.m_blockfile_info.length) (nAddSize nHeight nTime : Nat) :
    HeightsGrow s (s.reserveBlock nFile nAddSize nHeight nTime) ∧
      nHeight ≤ ((s.reserveBlock nFile nAddSize nHeight nTime).fileInfo nFile).nHeightLast := by
  have hinfo := setFileInfo_fileInfo hlt ((s.fileInfo nFile).reserve nAddSize nHeight nTime) nFile
  rw [if_pos rfl] at hinfo
  constructor
  · apply heightsGrow_setFileInfo hlt
    show _ ≤ if nHeight > (s.fileInfo nFile).nHeightLast then nHeight else _
    split <;> omega
  · show _ ≤ ((s.setFileInfo nFile ((s.fileInfo nFile).reserve nAddSize nHeight nTime)).fileInfo
      nFile).nHeightLast
    rw [hinfo]
    exact CBlockFileInfo.reserve_heights.2

/-- **what `FindNextBlockPos` leaves**: the cursor of the type, and a file that reaches the height -/
theorem findNextBlockPos_grow {nAddSize nHeight nTime : Nat} {r : Option FlatFilePos}
    (hlay : s.Layout) (h : s.findNextBlockPos nAddSize nHeight nTime env = .ok (r, s')) :
    HeightsGrow s s' ∧ s'.Layout ∧
      (s'.cursor (s'.blockfileTypeForHeight nHeight)).isSome = true ∧
      ∀ pos, r = some pos → pos.nFile < s'.m_blockfile_info.length ∧
        pos.nFile ∈ s'.m_dirty_fileinfo ∧ nHeight ≤ (s'.fileInfo pos.nFile).nHeightLast := by
  obtain ⟨n, t, hsame, hlay₁, hn, hcursor, -, heq⟩ := findNextBlockPos_cases hlay h
  obtain ⟨hgrow₁, hheight⟩ := reserveBlock_grow hn nAddSize nHeight nTime
  have hgrow := hsame.heightsGrow.trans hgrow₁
  have hcursor₁ := hgrow₁.cursors _ hcursor
  have htype : ∀ u, HeightsGrow s u → u.blockfileTypeForHeight nHeight =
      s.blockfileTypeForHeight nHeight := by
    intro u hu
    unfold blockfileTypeForHeight
    rw [hu.snapshot]
  have hlay₂ : (t.reserveBlock n nAddSize nHeight nTime).Layout := hlay₁.setFileInfo _ _
  have hmark := heightsGrow_markFile (t.reserveBlock n nAddSize nHeight nTime) n env
  split at heq
  · cases heq
    refine ⟨hgrow.trans hmark, hlay₂.markFile n env, ?_, fun pos hpos => ?_⟩
    · rw [htype _ (hgrow.trans hmark)]
      exact hmark.cursors _ hcursor₁
    · cases hpos
      exact ⟨Nat.lt_of_lt_of_le hn hgrow₁.length, Finset.mem_insert_self _ _, hheight⟩
  · cases heq
    refine ⟨hgrow, hlay₂, ?_, fun pos hpos => (by cases hpos)⟩
    rw [htype _ hgrow]
    exact hcursor₁

/-! ## the heights in the files -/

structure Saved (db : BlockTreeDB) : Prop where
  stacked : Stacked db.blockIndex
  stored : FMap.All (fun _ e => e.haveData = true → e.nFile < db.lastBlockFile.getD 0 + 1)
    db.blockIndex
  bounded : FMap.All (fun _ e => e.haveData = true →
    e.nHeight ≤ ((db.fileInfo.get e.nFile).getD {}).nHeightLast) db.blockIndex
  disk : FMap.All (fun _ e => e.disk = e) db.blockIndex

/-- the same of the state, and of what a shutdown would leave -/
structure Heights (s : BlockManager) : Prop where
  stacked : Stacked s.m_block_index
  stored : FMap.All (fun _ e => e.haveData = true → e.nFile < s.m_blockfile_info.length)
    s.m_block_index
  bounded : FMap.All (fun _ e => e.haveData = true → e.nHeight ≤ (s.fileInfo e.nFile).nHeightLast)
    s.m_block_index
  boundedDisk : FMap.All (fun _ e => e.haveData = true →
    e.nHeight ≤ (s.persisted e.nFile).nHeightLast) s.m_block_index
  synced : ∀ hash, hash ∉ s.m_dirty_blockindex →
    s.m_block_tree_db.blockIndex.get hash = (s.m_block_index.get hash).map BlockEntry.disk
  saved : Saved s.m_block_tree_db

structure Tracked (s : BlockManager) : Prop extends Heights s where
  layout : s.Layout

theorem Heights.grow (hs : s.Heights) (h : HeightsGrow s s') : s'.Heights := by
  have hbounded : FMap.All (fun _ e => e.haveData = true →
      e.nHeight ≤ (s'.fileInfo e.nFile).nHeightLast) s'.m_block_index := by
    rw [h.index]
    intro hash e hget hd
    exact (hs.bounded hash e hget hd).trans (h.grows e.nFile)
  refine ⟨?_, ?_, hbounded, ?_, ?_, ?_⟩
  · rw [h.index]
    exact hs.stacked
  · rw [h.index]
    intro hash e hget hd
    exact Nat.lt_of_lt_of_le (hs.stored hash e hget hd) h.length
  · intro hash e hget hd
    by_cases hf : e.nFile ∈ s'.m_dirty_fileinfo
    · rw [persisted_of_mem hf]
      exact hbounded hash e hget hd
    · rw [persisted_of_not_mem hf, h.db]
      rw [h.index] at hget
      have hold := hs.boundedDisk hash e hget hd
      rw [persisted_of_not_mem fun hmem => hf (h.dirty hmem)] at hold
      exact hold
  · rw [h.index, h.dirtyIndex, h.db]
    exact hs.synced
  · rw [h.db]
    exact hs.saved

theorem Tracked.grow (hs : s.Tracked) (h : HeightsGrow s s') (hlay : s'.Layout) : s'.Tracked :=
  ⟨hs.toHeights.grow h, hlay⟩

theorem Tracked.setEntry (hs : s.Tracked) (hstacked : Stacked (s.m_block_index.insert hash e))
    (hdata : e.haveData = true → e.nFile < s.m_blockfile_info.length ∧
      e.nHeight ≤ (s.fileInfo e.nFile).nHeightLast ∧
      e.nHeight ≤ (s.persisted e.nFile).nHeightLast) : (s.setEntry hash e).Tracked where
  stacked := hstacked
  layout := ⟨hs.layout.length_le, hs.layout.normal⟩
  stored := hs.stored.insert fun hd => (hdata hd).1
  bounded := hs.bounded.insert fun hd => (hdata hd).2.1
  boundedDisk := hs.boundedDisk.insert fun hd => (hdata hd).2.2
  synced := by
    intro k hk
    have hk' : k ∉ insert hash s.m_dirty_blockindex := hk
    rw [Finset.mem_insert, not_or] at hk'
    show _ = ((s.m_block_index.insert hash e).get k).map _
    rw [FMap.insert_get_ne hk'.1]
    exact hs.synced k hk'.2
  saved := hs.saved

theorem Stacked.place (hm : Stacked m) {old : BlockEntry}
    (hget : m.get hash = some old) (hp : e.pprev = old.pprev) (hh : e.nHeight = old.nHeight) :
    Stacked (m.insert hash e) := by
  apply hm.insert
  · intro p hep
    rw [hp] at hep
    rw [hh]
    exact hm hash old p hget hep
  · intro old' hget'
    rw [hget] at hget'
    cases hget'
    exact hh.symm

/-! ## one step -/

/-- nothing is forgotten, and what has data now had it before or has its cursor -/
structure Advances (s s' : BlockManager) : Prop where
  parents : KeepsParents s.m_block_index s'.m_block_index
  cursors : ∀ type, (s.cursor type).isSome = true → (s'.cursor type).isSome = true
  snapshot : s'.m_snapshot_height = s.m_snapshot_height
  data : ∀ hash e, s'.m_block_index.get hash = some e → e.haveData = true → s'.HasCursor e ∨
    ∃ old, s.m_block_index.get hash = some old ∧ old.haveData = true ∧ old.nHeight = e.nHeight

theorem KeepsParents.refl (m : FMap Uint256 BlockEntry) : KeepsParents m m :=
  fun _ e hget => ⟨e, hget, rfl⟩

theorem HeightsGrow.advances (h : HeightsGrow s s') : Advances s s' where
  parents := by
    rw [h.index]
    exact KeepsParents.refl _
  cursors := h.cursors
  snapshot := h.snapshot
  data hash e hget hd := by
    rw [h.index] at hget
    exact .inr ⟨e, hget, hd, rfl⟩

theorem HeightsGrow.setEntry (h : HeightsGrow s s')
    (hp : ∀ old, s.m_block_index.get hash = some old → e.pprev = old.pprev)
    (hdata : e.haveData = true → s'.HasCursor e ∨
      ∃ old, s.m_block_index.get hash = some old ∧ old.haveData = true ∧ old.nHeight = e.nHeight) :
    Advances s (s'.setEntry hash e) where
  parents := by
    show KeepsParents _ (s'.m_block_index.insert hash e)
    rw [h.index]
    exact KeepsParents.insert hp
  cursors type hc := by
    have := h.cursors type hc
    cases type <;> exact this
  snapshot := h.snapshot
  data k e' hget hd := by
    have hget' : (s'.m_block_index.insert hash e).get k = some e' := hget
    rw [h.index] at hget'
    by_cases hk : k = hash
    · rw [hk, FMap.insert_get_self] at hget'
      cases hget'
      rw [hk]
      rcases hdata hd with hcur | hold
      · left
        have heq : (s'.setEntry hash e).HasCursor e ↔ s'.HasCursor e := by
          unfold HasCursor
          cases hty : s'.blockfileTypeForHeight e.nHeight <;>
            rw [show (s'.setEntry hash e).blockfileTypeForHeight e.nHeight =
              s'.blockfileTypeForHeight e.nHeight from rfl, hty] <;> rfl
        exact heq.mpr hcur
      · exact .inr hold
    · rw [FMap.insert_get_ne hk] at hget'
      exact .inr ⟨e', hget', hd, rfl⟩

theorem addToBlockIndex_tracked (hs : s.Tracked) (hash hashPrevBlock : Uint256) :
    (s.addToBlockIndex hash hashPrevBlock).Tracked ∧
      Advances s (s.addToBlockIndex hash hashPrevBlock) := by
  unfold addToBlockIndex
  split
  · exact ⟨hs, (HeightsGrow.refl s).advances⟩
  · rename_i hnone
    have hnew : ∀ {Q : BlockEntry → Prop} (old : BlockEntry),
        s.m_block_index.get hash = some old → Q old := by
      intro Q old hget
      rw [hnone] at hget
      cases hget
    split
    · refine ⟨hs.setEntry (hs.stacked.insert (fun p hp => by cases hp) hnew) fun hd => (by cases hd),
        (HeightsGrow.refl s).setEntry hnew fun hd => (by cases hd)⟩
    · rename_i prev hprev
      refine ⟨hs.setEntry (hs.stacked.insert (fun p hp => ?_) hnew) fun hd => (by cases hd),
        (HeightsGrow.refl s).setEntry hnew fun hd => (by cases hd)⟩
      cases hp
      exact ⟨prev, hprev, rfl⟩

theorem writeBlock_tracked (hs : s.Tracked) {block_size nTime : Nat}
    (h : s.writeBlock hash block_size nTime env = .ok s') : s'.Tracked ∧ Advances s s' := by
  unfold writeBlock at h
  split at h
  · cases h
    exact ⟨hs, (HeightsGrow.refl s).advances⟩
  · rename_i e hget
    split at h
    · cases h
      exact ⟨hs, (HeightsGrow.refl s).advances⟩
    · rename_i hd
      split at h
      · cases h
      · rename_i s₁ hfind
        cases h
        obtain ⟨hgrow, hlay, -, -⟩ := findNextBlockPos_grow hs.layout hfind
        exact ⟨hs.grow hgrow hlay, hgrow.advances⟩
      · rename_i pos s₁ hfind
        obtain ⟨hgrow, hlay, hcursor, hpos⟩ := findNextBlockPos_grow hs.layout hfind
        obtain ⟨hlt, hdirty, hheight⟩ := hpos pos rfl
        split at h
        · cases h
          exact ⟨hs.grow hgrow hlay, hgrow.advances⟩
        · cases h
          have hs₁ := hs.grow hgrow hlay
          have hget₁ : s₁.m_block_index.get hash = some e := by
            rw [hgrow.index]
            exact hget
          refine ⟨hs₁.setEntry (Stacked.place hs₁.stacked hget₁ rfl rfl) fun _ => ⟨hlt, hheight, ?_⟩,
            hgrow.setEntry (fun old hold => ?_) fun _ => .inl hcursor⟩
          · show _ ≤ (s₁.persisted pos.nFile).nHeightLast
            rw [persisted_of_mem hdirty]
            exact hheight
          · rw [hget] at hold
            cases hold
            rfl

theorem writeBlockUndo_tracked (hs : s.Tracked) {blockundo_size : Nat}
    (h : s.writeBlockUndo hash blockundo_size env = .ok s') : s'.Tracked ∧ Advances s s' := by
  rcases writeBlockUndo_cases hs.layout h with rfl | ⟨e, t, hget, hd, rfl, hlay, hs'⟩
  · exact ⟨hs, (HeightsGrow.refl _).advances⟩
  have hgrow : HeightsGrow s (s.findUndoPos e.nFile
      ((blockundo_size + UNDO_DATA_DISK_OVERHEAD) % 2 ^ 32) env).2 :=
    (heightsGrow_setFileInfo (hs.stored hash e hget hd) (by rfl)).trans (heightsGrow_markFile _ _ _)
  rcases hs' with rfl | ⟨u, hsame, hlay', rfl⟩
  · exact ⟨hs.grow hgrow hlay, hgrow.advances⟩
  · have hgrow' := hgrow.trans hsame.heightsGrow
    have hs₁ := hs.grow hgrow' hlay'
    have hget₁ : u.m_block_index.get hash = some e := by
      rw [hgrow'.index]
      exact hget
    refine ⟨hs₁.setEntry (Stacked.place hs₁.stacked hget₁ rfl rfl) fun _ => ?_,
      hgrow'.setEntry (fun old hold => ?_) fun _ => .inr ⟨e, hget, hd, rfl⟩⟩
    · exact ⟨hs₁.stored hash e hget₁ hd, hs₁.bounded hash e hget₁ hd,
        hs₁.boundedDisk hash e hget₁ hd⟩
    · rw [hget] at hold
      cases hold
      rfl

theorem pruneOneBlockFile_entry (s : BlockManager) (fileNumber : Nat)
    (hget : s.m_block_index.get hash = some e) :
    ∃ e', (s.pruneOneBlockFile fileNumber).m_block_index.get hash = some e' ∧
      e'.pprev = e.pprev ∧ e'.nHeight = e.nHeight := by
  refine ⟨if e.nFile = fileNumber then e.prune else e, by rw [pruneOneBlockFile_get, hget]; rfl, ?_⟩
  split <;> exact ⟨rfl, rfl⟩

theorem pruneOneBlockFile_stacked (h : Stacked s.m_block_index) (fileNumber : Nat) :
    Stacked (s.pruneOneBlockFile fileNumber).m_block_index := by
  intro hash e p hget hp
  obtain ⟨e₀, hget₀, he⟩ := pruneOneBlockFile_eq_some hget
  have hsame : e.pprev = e₀.pprev ∧ e.nHeight = e₀.nHeight := by
    rcases he with ⟨-, rfl⟩ | rfl <;> exact ⟨rfl, rfl⟩
  rw [hsame.1] at hp
  obtain ⟨q, hq, hh⟩ := h hash e₀ p hget₀ hp
  obtain ⟨q', hq', -, hheight⟩ := pruneOneBlockFile_entry s fileNumber hq
  exact ⟨q', hq', by rw [hsame.2, hh, hheight]⟩

theorem pruneOneBlockFile_tracked (hs : s.Tracked) (fileNumber : Nat) :
    (s.pruneOneBlockFile fileNumber).Tracked ∧ Advances s (s.pruneOneBlockFile fileNumber) := by
  refine ⟨⟨⟨pruneOneBlockFile_stacked hs.stacked fileNumber,
    pruneOneBlockFile_stored hs.stored fileNumber, ?_, ?_,
    pruneOneBlockFile_synced hs.synced fileNumber, hs.saved⟩, hs.layout.prune fileNumber⟩,
    ⟨?_, ?_, rfl, ?_⟩⟩
  · refine all_pruneOneBlockFile hs.bounded (fun e hd => by cases hd) fun e hne h hd => ?_
    rw [pruneOneBlockFile_fileInfo s hne]
    exact h hd
  · refine all_pruneOneBlockFile hs.boundedDisk (fun e hd => by cases hd) fun e hne h hd => ?_
    rw [pruneOneBlockFile_persisted_ne s hne]
    exact h hd
  · intro hash e hget
    obtain ⟨e', hget', hp, -⟩ := pruneOneBlockFile_entry s fileNumber hget
    exact ⟨e', hget', hp⟩
  · intro type h
    cases type <;> exact h
  · intro hash e hget hd
    obtain ⟨e₀, hget₀, ⟨-, rfl⟩ | rfl⟩ := pruneOneBlockFile_eq_some hget
    · exact .inr ⟨e, hget₀, hd, rfl⟩
    · cases hd

/-! ## flushes and restarts -/

theorem writeBlockIndexDB_saved (hs : s.Tracked) : Saved s.writeBlockIndexDB.m_block_tree_db := by
  have hentry : ∀ hash e, s.writeBlockIndexDB.m_block_tree_db.blockIndex.get hash = some e →
      ∃ e₀, s.m_block_index.get hash = some e₀ ∧ e = e₀.disk := by
    intro hash e hget
    rw [writeBlockIndexDB_blockIndex hs.synced] at hget
    obtain ⟨e₀, hget₀, he⟩ := Option.map_eq_some_iff.mp hget
    exact ⟨e₀, hget₀, he.symm⟩
  refine ⟨fun hash e p hget hp => ?_, fun hash e hget hd => ?_, fun hash e hget hd => ?_,
    fun hash e hget => ?_⟩
  · obtain ⟨e₀, hget₀, rfl⟩ := hentry hash e hget
    obtain ⟨q, hq, hh⟩ := hs.stacked hash e₀ p hget₀ hp
    refine ⟨q.disk, ?_, hh⟩
    rw [writeBlockIndexDB_blockIndex hs.synced, hq]
    rfl
  · obtain ⟨e₀, hget₀, rfl⟩ := hentry hash e hget
    rw [e₀.disk_nFile hd]
    show e₀.nFile < s.maxBlockfileNum + 1
    exact Nat.lt_of_lt_of_le (hs.stored hash e₀ hget₀ hd) hs.layout.length_le
  · obtain ⟨e₀, hget₀, rfl⟩ := hentry hash e hget
    rw [e₀.disk_nFile hd, writeBlockIndexDB_fileInfo]
    exact hs.boundedDisk hash e₀ hget₀ hd
  · obtain ⟨e₀, hget₀, rfl⟩ := hentry hash e hget
    exact e₀.disk_disk

theorem writeBlockIndexDB_tracked (hs : s.Tracked) :
    s.writeBlockIndexDB.Tracked ∧ Advances s s.writeBlockIndexDB := by
  refine ⟨⟨⟨hs.stacked, hs.stored, hs.bounded, ?_, ?_, writeBlockIndexDB_saved hs⟩,
    ⟨hs.layout.length_le, hs.layout.normal⟩⟩, ⟨KeepsParents.refl _, ?_, rfl, ?_⟩⟩
  · intro hash e hget hd
    rw [persisted_of_not_mem (Finset.notMem_empty _), writeBlockIndexDB_fileInfo]
    exact hs.boundedDisk hash e hget hd
  · intro hash _
    exact writeBlockIndexDB_blockIndex hs.synced hash
  · intro type h
    cases type <;> exact h
  · intro hash e hget hd
    exact .inr ⟨e, hget, hd, rfl⟩

theorem type_mono {a b : Nat} (h : a ≤ b) (ha : s.blockfileTypeForHeight a = .ASSUMED) :
    s.blockfileTypeForHeight b = .ASSUMED := by
  unfold blockfileTypeForHeight at *
  split at ha
  · cases ha
  · rename_i height hheight
    split at ha
    · rename_i hle
      exact if_pos (Nat.le_trans hle h)
    · cases ha

theorem hasCursor_of_normal (h : s.Layout) (ht : s.blockfileTypeForHeight e.nHeight = .NORMAL) :
    s.HasCursor e := by
  rw [HasCursor, ht]
  exact h.normal

theorem readBlockIndexDB_heights {db : BlockTreeDB} (h : Saved db) (opts : BlockManagerOpts)
    (snapshot_height : Option Nat) : (readBlockIndexDB db opts snapshot_height).Heights where
  stacked := h.stacked
  stored hash e hget hd := by
    have hlt := h.stored hash e hget hd
    have hlast := db.lastBlockFile_lt
    show e.nFile < db.readFileInfo.length
    omega
  bounded hash e hget hd := by
    have hinfo : (readBlockIndexDB db opts snapshot_height).fileInfo e.nFile =
        (db.fileInfo.get e.nFile).getD {} := db.readFileInfo_of_le (h.stored hash e hget hd)
    rw [hinfo]
    exact h.bounded hash e hget hd
  boundedDisk hash e hget hd := by
    exact h.bounded hash e hget hd
  synced hash _ := by
    show db.blockIndex.get hash = (db.blockIndex.get hash).map BlockEntry.disk
    cases hget : db.blockIndex.get hash with
    | none => rfl
    | some e => exact congrArg some (h.disk hash e hget).symm
  saved := h

/-- **after a start every stored block has the cursor of its type**: its file has it -/
theorem loadBlockIndexDB_tracked {db : BlockTreeDB} (h : Saved db) (opts : BlockManagerOpts)
    (snapshot_height : Option Nat) :
    (loadBlockIndexDB db opts snapshot_height).Tracked ∧
      ∀ hash e, (loadBlockIndexDB db opts snapshot_height).m_block_index.get hash = some e →
        e.haveData = true → (loadBlockIndexDB db opts snapshot_height).HasCursor e := by
  have hheights := readBlockIndexDB_heights h opts snapshot_height
  obtain ⟨hsame, -, hcursors⟩ := initCursors_same
    (List.range (readBlockIndexDB db opts snapshot_height).m_blockfile_info.length)
    (readBlockIndexDB db opts snapshot_height)
  have hgrow := hsame.heightsGrow
  have hs : (loadBlockIndexDB db opts snapshot_height).Tracked :=
    ⟨hheights.grow hgrow, initCursors_layout rfl (Nat.zero_lt_of_lt db.lastBlockFile_lt)⟩
  refine ⟨hs, fun hash e hget hd => ?_⟩
  have htype : ∀ n, (loadBlockIndexDB db opts snapshot_height).blockfileTypeForHeight n =
      (readBlockIndexDB db opts snapshot_height).blockfileTypeForHeight n := by
    intro n
    unfold blockfileTypeForHeight
    rw [show (loadBlockIndexDB db opts snapshot_height).m_snapshot_height = _ from hgrow.snapshot]
  cases ht : (loadBlockIndexDB db opts snapshot_height).blockfileTypeForHeight e.nHeight with
  | NORMAL => exact hasCursor_of_normal hs.layout ht
  | ASSUMED =>
    have hget₀ : (readBlockIndexDB db opts snapshot_height).m_block_index.get hash = some e := by
      rw [← hgrow.index]
      exact hget
    have hfile := hcursors e.nFile (List.mem_range.mpr (hheights.stored hash e hget₀ hd))
    rw [HasCursor, ht]
    rw [htype] at ht
    rw [type_mono (hheights.bounded hash e hget₀ hd) ht] at hfile
    exact hfile

end BlockManager

/-! ## histories -/

namespace UndoNode

structure Connectable (s : UndoNode) (hash : Uint256) (e : BlockEntry) : Prop where
  get : s.m_block_index.get hash = some e
  data : e.haveData = true
  above : ∀ base, s.base = some base → Above s.m_block_index base hash

def Ready (s : UndoNode) : Prop :=
  ∀ hash e, s.Connectable hash e → ∀ blockundo_size env,
    ∃ m, s.toBlockManager.writeBlockUndo hash blockundo_size env = .ok m

/-- the cursor is there already, or no block above the base is stored -/
def Prepared (s : UndoNode) (base : Uint256) : Prop :=
  s.assumedCursor.isSome = true ∨
    ∀ hash e, s.m_block_index.get hash = some e → Above s.m_block_index base hash →
      e.haveData = false

/-- every activation of the history finds its base prepared -/
def RunsPrepared (P : CChainParams) (s : UndoNode) : List UndoEvent → Prop
  | [] => True
  | ev :: evs =>
    (∀ base s', ev = .activate base → s.activate base = .ok s' → s.Prepared base) ∧
      ∀ s', s.step P ev = .ok s' → RunsPrepared P s' evs

theorem ready_iff (s : UndoNode) :
    s.Ready ↔ ∀ hash e, s.Connectable hash e → s.toBlockManager.HasCursor e := by
  constructor
  · intro h hash e hc
    exact (BlockManager.writeBlockUndo_ok_iff hc.get hc.data 0 ⟨true, true, true⟩).mp (h hash e hc _ _)
  · intro h hash e hc blockundo_size env
    exact (BlockManager.writeBlockUndo_ok_iff hc.get hc.data _ _).mpr (h hash e hc)

variable {s s' : UndoNode}

theorem Ready.advance (hr : s.Ready) (hs : s.Tracked) (hbase : s'.base = s.base)
    (h : BlockManager.Advances s.toBlockManager s'.toBlockManager) : s'.Ready := by
  rw [ready_iff] at hr ⊢
  intro hash e hc
  rcases h.data hash e hc.get hc.data with hcur | ⟨old, hold, hd, hheight⟩
  · exact hcur
  · have habove : ∀ base, s.base = some base → Above s.m_block_index base hash := by
      intro base hb
      rw [← hbase] at hb
      exact h.parents.above hs.stacked (hc.above base hb) hold
    have hcur := hr hash old ⟨hold, hd, habove⟩
    have htype : s'.toBlockManager.blockfileTypeForHeight e.nHeight =
        s.toBlockManager.blockfileTypeForHeight old.nHeight := by
      unfold BlockManager.blockfileTypeForHeight
      rw [h.snapshot, hheight]
    rw [BlockManager.HasCursor, htype]
    exact h.cursors _ hcur

/-- **an activation leaves the assertion true exactly if its base was prepared** -/
theorem activate_ready_iff (hs : s.Tracked) {base : Uint256} (h : s.activate base = .ok s') :
    s'.Tracked ∧ (s'.Ready ↔ s.Prepared base) := by
  unfold activate at h
  split at h
  · cases h
  rename_i b hb
  cases h
  have hs' : BlockManager.Tracked { s.toBlockManager with m_snapshot_height := some b.nHeight } :=
    ⟨⟨hs.stacked, hs.stored, hs.bounded, hs.boundedDisk, hs.synced, hs.saved⟩,
      ⟨hs.layout.length_le, hs.layout.normal⟩⟩
  refine ⟨hs', ?_⟩
  rw [ready_iff]
  -- a block above the base is at least as high as the base, so its type is `ASSUMED` now
  have htype : ∀ hash e, s.m_block_index.get hash = some e → Above s.m_block_index base hash →
      BlockManager.blockfileTypeForHeight { s.toBlockManager with
        m_snapshot_height := some b.nHeight } e.nHeight = .ASSUMED := by
    intro hash e hget habove
    exact if_pos (Nat.le_of_lt (hs.stacked.above_lt habove hget hb))
  constructor
  · intro hready
    by_cases hcur : s.assumedCursor.isSome = true
    · exact .inl hcur
    · refine .inr fun hash e hget habove => ?_
      by_contra hd
      have hcursor := hready hash e ⟨hget, by simpa using hd, fun base' hb' => by
        cases hb'
        exact habove⟩
      rw [BlockManager.HasCursor, htype hash e hget habove] at hcursor
      exact hcur hcursor
  · intro hprep hash e hc
    have habove := hc.above base rfl
    rw [BlockManager.HasCursor, htype hash e hc.get habove]
    rcases hprep with hcur | hnone
    · exact hcur
    · have hd := hnone hash e hc.get habove
      rw [hc.data] at hd
      cases hd

theorem withManager_ok {m : Except Fault BlockManager} (h : s.withManager m = .ok s') :
    ∃ m', m = .ok m' ∧ s'.toBlockManager = m' ∧ s'.base = s.base := by
  cases m with
  | error f => cases h
  | ok m' =>
    cases h
    exact ⟨m', rfl, rfl, rfl⟩

section
variable (P : CChainParams)

theorem restart_ready (hs : s.Tracked) {opts : BlockManagerOpts}
    {snapshot_blockhash : Option Uint256} (h : s.restart P opts snapshot_blockhash = .ok s') :
    s'.Tracked ∧ s'.Ready := by
  obtain ⟨height, heq⟩ : ∃ height, s'.toBlockManager =
      BlockManager.loadBlockIndexDB s.m_block_tree_db opts height := by
    unfold restart at h
    split at h
    · cases h
      exact ⟨_, rfl⟩
    · split at h
      · cases h
      · cases h
        exact ⟨_, rfl⟩
  obtain ⟨htracked, hcursor⟩ := BlockManager.loadBlockIndexDB_tracked hs.saved opts height
  rw [← heq] at htracked hcursor
  refine ⟨htracked, ?_⟩
  rw [ready_iff]
  intro hash e hc
  exact hcursor hash e hc.get hc.data

/-- **one event**: only an activation can take the cursor away from a block -/
theorem step_ready_iff (hs : s.Tracked) (hr : s.Ready) {ev : UndoEvent} (h : s.step P ev = .ok s') :
    s'.Tracked ∧ (s'.Ready ↔ ∀ base s'', ev = .activate base → s.activate base = .ok s'' →
      s.Prepared base) := by
  have hmanager : ∀ {m : Except Fault BlockManager},
      (∀ m', m = .ok m' → m'.Tracked ∧ BlockManager.Advances s.toBlockManager m') →
      s.withManager m = .ok s' → s'.Tracked ∧ s'.Ready := by
    intro m hm hok
    obtain ⟨m', hm', hs', hbase⟩ := withManager_ok hok
    obtain ⟨htracked, hadv⟩ := hm m' hm'
    rw [← hs'] at htracked hadv
    exact ⟨htracked, hr.advance hs hbase hadv⟩
  have hother : (∀ base, ev ≠ .activate base) → s'.Tracked ∧ s'.Ready →
      s'.Tracked ∧ (s'.Ready ↔ ∀ base s'', ev = .activate base → s.activate base = .ok s'' →
        s.Prepared base) := by
    intro hne hs'
    exact ⟨hs'.1, fun _ base s'' heq => absurd heq (hne base), fun _ => hs'.2⟩
  cases ev with
  | header hash hashPrevBlock =>
    apply hother (fun base heq => by cases heq)
    apply hmanager (fun m' hm' => ?_) h
    cases hm'
    exact BlockManager.addToBlockIndex_tracked hs hash hashPrevBlock
  | writeBlock hash block_size nTime env =>
    apply hother (fun base heq => by cases heq)
    exact hmanager (fun m' hm' => BlockManager.writeBlock_tracked hs hm') h
  | connect hash blockundo_size env =>
    apply hother (fun base heq => by cases heq)
    exact hmanager (fun m' hm' => BlockManager.writeBlockUndo_tracked hs hm') h
  | prune fileNumber =>
    apply hother (fun base heq => by cases heq)
    apply hmanager (fun m' hm' => ?_) h
    change (if _ then _ else _) = _ at hm'
    split at hm'
    · cases hm'
      exact BlockManager.pruneOneBlockFile_tracked hs fileNumber
    · cases hm'
  | activate base =>
    obtain ⟨htracked, hiff⟩ := activate_ready_iff hs h
    refine ⟨htracked, hiff.trans ⟨fun hprep base' s'' heq _ => ?_, fun hall => ?_⟩⟩
    · cases heq
      exact hprep
    · exact hall base s' rfl h
  | flush =>
    apply hother (fun base heq => by cases heq)
    cases h
    obtain ⟨htracked, hadv⟩ := BlockManager.writeBlockIndexDB_tracked hs
    exact ⟨htracked, hr.advance hs rfl hadv⟩
  | restart opts snapshot_blockhash =>
    apply hother (fun base heq => by cases heq)
    exact restart_ready P hs h

theorem run_ready_iff (hs : s.Tracked) (hr : s.Ready) (evs : List UndoEvent) :
    (∀ before after s', evs = before ++ after → s.run P before = .ok s' → s'.Ready) ↔
      s.RunsPrepared P evs := by
  induction evs generalizing s with
  | nil =>
    refine ⟨fun _ => trivial, fun _ before after s' heq hrun => ?_⟩
    obtain ⟨rfl, -⟩ := List.append_eq_nil_iff.mp heq.symm
    cases hrun
    exact hr
  | cons ev evs ih =>
    constructor
    · intro hall
      have hnext : ∀ s', s.step P ev = .ok s' → s'.Ready := by
        intro s' hstep
        apply hall [ev] evs s' rfl
        unfold run
        rw [hstep]
        rfl
      refine ⟨fun base s' hev hact => ?_, fun s' hstep => ?_⟩
      · subst hev
        have hstep : s.step P (.activate base) = .ok s' := hact
        exact (step_ready_iff P hs hr hstep).2.mp (hnext s' hstep) base s' rfl hact
      · have htracked := (step_ready_iff P hs hr hstep).1
        refine (ih htracked (hnext s' hstep)).mp fun before after t heq hrun => ?_
        apply hall (ev :: before) after t (by rw [heq]; rfl)
        unfold run
        rw [hstep]
        exact hrun
    · rintro ⟨hev, hrest⟩ before after t heq hrun
      cases before with
      | nil =>
        cases hrun
        exact hr
      | cons ev' before =>
        cases heq
        unfold run at hrun
        cases hstep : s.step P ev with
        | error f =>
          rw [hstep] at hrun
          cases hrun
        | ok s' =>
          rw [hstep] at hrun
          obtain ⟨htracked, hiff⟩ := step_ready_iff P hs hr hstep
          exact (ih htracked (hiff.mpr hev)).mpr (hrest s' hstep) before after t rfl hrun

theorem fresh_ready (opts : BlockManagerOpts) : (fresh opts).Tracked ∧ (fresh opts).Ready := by
  have hsaved : BlockManager.Saved ⟨FMap.empty, none, FMap.empty, false, false⟩ := by
    refine ⟨fun hash e p hget => ?_, FMap.all_empty _, FMap.all_empty _, FMap.all_empty _⟩
    cases hget
  obtain ⟨htracked, hcursor⟩ := BlockManager.loadBlockIndexDB_tracked hsaved opts none
  refine ⟨htracked, (ready_iff _).mpr fun hash e hc => ?_⟩
  exact hcursor hash e hc.get hc.data

/-- **Undo data can be written for every connectable block in all states of a history exactly if
every activation finds the cursor for its blocks, or none of them stored** -/
theorem undo_ready_iff (opts : BlockManagerOpts) (evs : List UndoEvent) :
    (∀ before after s, evs = before ++ after → (fresh opts).run P before = .ok s → s.Ready) ↔
      (fresh opts).RunsPrepared P evs :=
  run_ready_iff P (fresh_ready opts).1 (fresh_ready opts).2 evs

end

end UndoNode

/-! ## blocks that were stored before the activation -/

def sampleEarlyHistory : List UndoEvent :=
  (List.range 3).map (fun i => .header (sampleStored (i + 1)) (sampleStored i)) ++
    (List.range 3).map (fun i => .writeBlock (sampleStored (i + 1)) 1000 0 sampleStorageEnv) ++
    [.activate (sampleStored 2)]

/-- **the block after the base cannot be connected**: its cursor was never made -/
theorem undo_cursor_missing :
    ∃ s e, (UndoNode.fresh ⟨false, 0⟩).run ⟨mainParams, []⟩ sampleEarlyHistory = .ok s ∧
      s.Connectable (sampleStored 3) e ∧
      s.toBlockManager.writeBlockUndo (sampleStored 3) 10 sampleStorageEnv =
        .error (.assertion "m_blockfile_cursors[type]") ∧
      ¬ s.Ready := by
  obtain ⟨s, hrun, e, hget, hd, hbase, hparent, hfail⟩ : ∃ s,
      (UndoNode.fresh ⟨false, 0⟩).run ⟨mainParams, []⟩ sampleEarlyHistory = .ok s ∧
      ∃ e, s.m_block_index.get (sampleStored 3) = some e ∧ e.haveData = true ∧
        s.base = some (sampleStored 2) ∧ e.pprev = some (sampleStored 2) ∧
        s.toBlockManager.writeBlockUndo (sampleStored 3) 10 sampleStorageEnv =
          .error (.assertion "m_blockfile_cursors[type]") :=
    ⟨_, rfl, _, rfl, rfl, rfl, rfl, rfl⟩
  have hc : s.Connectable (sampleStored 3) e := by
    refine ⟨hget, hd, fun base heq => ?_⟩
    obtain rfl : sampleStored 2 = base := Option.some.inj (hbase.symm.trans heq)
    exact .single ⟨e, hget, hparent⟩
  refine ⟨s, e, hrun, hc, hfail, fun hready => ?_⟩
  obtain ⟨m, hm⟩ := hready (sampleStored 3) e hc 10 sampleStorageEnv
  rw [hfail] at hm
  cases hm

end ElektronNet
