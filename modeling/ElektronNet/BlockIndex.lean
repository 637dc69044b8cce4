import ElektronNet.Lib.FMap
import ElektronNet.Lib.Forest
import ElektronNet.Primitives

/-!
# The block index

`chain.h`, `chain.cpp` and `CBlockIndexWorkComparator` and `AddToBlockIndex` of
`node/blockstorage.cpp`.  A block is named by its hash, so a pointer into the index is a hash and
`pprev` an optional one.

* `CBlockIndex`       an entry; what changes while the node runs is `BlockIndexState`
* `BlockMap`          the entries; the parent of an entry is an entry one below it
* `forest`            the tree of a `BlockMap`; `GetAncestor`, `CChain::Contains` and
                      `CChain::FindFork` read its paths
* `CBlockIndexWorkComparator`   work, then the order of arrival, then the address

A `CChain` is given by its tip: `SetTip` fills it with the path of the tip.  Left out are the
positions in the block files, the skip pointers, the times and the header fields that no modelled
function reads; the work of a header is a number.
-/

namespace ElektronNet

/-! ## entries -/

def BLOCK_VALID_TREE : Nat := 2
def BLOCK_VALID_TRANSACTIONS : Nat := 3
def BLOCK_VALID_SCRIPTS : Nat := 5

structure BlockStatus where
  /-- the level under `BLOCK_VALID_MASK` -/
  valid : Nat
  /-- `BLOCK_HAVE_DATA` -/
  haveData : Bool
  /-- `BLOCK_HAVE_UNDO` -/
  haveUndo : Bool
  /-- `BLOCK_FAILED_VALID` -/
  failedValid : Bool
  /-- `BLOCK_OPT_WITNESS` -/
  optWitness : Bool
deriving DecidableEq

def BlockStatus.isValid (s : BlockStatus) (nUpTo : Nat) : Bool :=
  !s.failedValid && decide (nUpTo ≤ s.valid)

def BlockStatus.raiseValidity (s : BlockStatus) (nUpTo : Nat) : BlockStatus :=
  if s.failedValid then s else if s.valid < nUpTo then { s with valid := nUpTo } else s

def SEQ_ID_INIT_FROM_DISK : Int := 1

structure BlockIndexState where
  nTx : Nat
  m_chain_tx_count : Nat
  nSequenceId : Int
  nStatus : BlockStatus
deriving DecidableEq

def BlockIndexState.header : BlockIndexState :=
  ⟨0, 0, SEQ_ID_INIT_FROM_DISK, ⟨BLOCK_VALID_TREE, false, false, false, false⟩⟩

def BlockIndexState.haveNumChainTxs (s : BlockIndexState) : Bool := s.m_chain_tx_count != 0

structure CBlockIndex extends BlockIndexState where
  pprev : Option Uint256
  nHeight : Nat
  nChainWork : Nat
  /-- where the entry lies in memory, the last tie-breaker -/
  address : Nat
deriving DecidableEq

/-- `pa` sorts before `pb` -/
def CBlockIndexWorkComparator (pa pb : CBlockIndex) : Bool :=
  if pa.nChainWork > pb.nChainWork then false
  else if pa.nChainWork < pb.nChainWork then true
  else if pa.nSequenceId < pb.nSequenceId then false
  else if pa.nSequenceId > pb.nSequenceId then true
  else if pa.address < pb.address then false
  else if pa.address > pb.address then true
  else false

theorem comparator_of_work_lt {pa pb : CBlockIndex} (h : pa.nChainWork < pb.nChainWork) :
    CBlockIndexWorkComparator pa pb = true := by
  rw [CBlockIndexWorkComparator, if_neg (by omega), if_pos h]

/-! ## the index -/

structure BlockMap where
  entries : FMap Uint256 CBlockIndex
  height_pprev : ∀ h e p, entries.get h = some e → e.pprev = some p →
    ∃ e', entries.get p = some e' ∧ e.nHeight = e'.nHeight + 1

namespace BlockMap

def empty : BlockMap := ⟨FMap.empty, by simp⟩

def lookupBlockIndex (m : BlockMap) (hash : Uint256) : Option CBlockIndex := m.entries.get hash

def pprev (m : BlockMap) (hash : Uint256) : Option Uint256 := (m.entries.get hash).bind (·.pprev)

def nHeight (m : BlockMap) (hash : Uint256) : Nat := (m.entries.get hash).elim 0 (·.nHeight)

variable {m : BlockMap} {hash hashPrevBlock : Uint256} {proof address : Nat}

theorem pprev_eq_some {p : Uint256} :
    m.pprev hash = some p ↔ ∃ e, m.entries.get hash = some e ∧ e.pprev = some p :=
  Option.bind_eq_some_iff

theorem nHeight_of_get {e : CBlockIndex}
    (h : m.entries.get hash = some e) : m.nHeight hash = e.nHeight := by
  rw [nHeight, h]
  rfl

def forest (m : BlockMap) : Forest Uint256 where
  parent := m.pprev
  height := m.nHeight
  height_parent := by
    intro h p hp
    obtain ⟨e, he, hep⟩ := pprev_eq_some.mp hp
    obtain ⟨e', he', hh⟩ := m.height_pprev h e p he hep
    rw [nHeight_of_get he, nHeight_of_get he', hh]

def getAncestor (m : BlockMap) (hash : Uint256) (height : Nat) : Option Uint256 :=
  (m.forest.path hash).find? fun a => m.nHeight a == height

theorem getAncestor_of_mem {a : Uint256} (h : a ∈ m.forest.path hash) :
    m.getAncestor hash (m.nHeight a) = some a := by
  obtain ⟨b, hb⟩ : ∃ b, m.getAncestor hash (m.nHeight a) = some b :=
    Option.isSome_iff_exists.mp (List.find?_isSome.mpr ⟨a, h, beq_self_eq_true _⟩)
  have hh : m.nHeight b = m.nHeight a := by simpa using List.find?_some hb
  rw [hb, m.forest.eq_of_height_eq (List.mem_of_find?_eq_some hb) h hh]

section
variable (m : BlockMap)

def chainContains (tip : Option Uint256) (hash : Uint256) : Bool :=
  match tip with
  | none => false
  | some t => decide (hash ∈ m.forest.path t)

def findFork (tip : Option Uint256) (index : Uint256) : Option Uint256 :=
  match tip with
  | none => none
  | some t => m.forest.fork index t

def update (f : Uint256 → CBlockIndex → BlockIndexState) : BlockMap where
  entries := m.entries.map fun h e => { e with toBlockIndexState := f h e }
  height_pprev := by
    intro h e p he hp
    obtain ⟨e₀, he₀, rfl⟩ := Option.map_eq_some_iff.mp he
    obtain ⟨e', he', hh⟩ := m.height_pprev h e₀ p he₀ hp
    exact ⟨{ e' with toBlockIndexState := f p e' }, by rw [FMap.map_get, he']; rfl, hh⟩

def modify (hash : Uint256) (f : BlockIndexState → BlockIndexState) : BlockMap :=
  m.update fun h e => if h = hash then f e.toBlockIndexState else e.toBlockIndexState

theorem update_get (f : Uint256 → CBlockIndex → BlockIndexState) (h : Uint256) :
    (m.update f).entries.get h =
      (m.entries.get h).map fun e => { e with toBlockIndexState := f h e } := rfl

theorem modify_get (hash : Uint256) (f : BlockIndexState → BlockIndexState)
    (h : Uint256) : (m.modify hash f).entries.get h =
      (m.entries.get h).map fun e =>
        if h = hash then { e with toBlockIndexState := f e.toBlockIndexState } else e := by
  rw [modify, update_get]
  congr 1
  funext e
  by_cases hh : h = hash
  · rw [if_pos hh, if_pos hh]
  · rw [if_neg hh, if_neg hh]

section
variable (f : Uint256 → CBlockIndex → BlockIndexState)

@[simp] theorem update_pprev (h : Uint256) : (m.update f).pprev h = m.pprev h := by
  rw [pprev, pprev, update_get]
  cases m.entries.get h <;> rfl

@[simp] theorem update_nHeight (h : Uint256) : (m.update f).nHeight h = m.nHeight h := by
  rw [nHeight, nHeight, update_get]
  cases m.entries.get h <;> rfl

@[simp] theorem update_forest : (m.update f).forest = m.forest := by
  rw [Forest.mk.injEq]
  exact ⟨funext fun h => update_pprev m f h, funext fun h => update_nHeight m f h⟩

end

@[simp] theorem modify_forest (hash : Uint256)
    (f : BlockIndexState → BlockIndexState) : (m.modify hash f).forest = m.forest :=
  update_forest m _

/-- the entry that `AddToBlockIndex` makes of a header -/
def newEntry (hashPrevBlock : Uint256) (proof address : Nat) : CBlockIndex :=
  match m.entries.get hashPrevBlock with
  | none => ⟨BlockIndexState.header, none, 0, proof, address⟩
  | some e =>
    ⟨BlockIndexState.header, some hashPrevBlock, e.nHeight + 1, e.nChainWork + proof, address⟩

end

theorem newEntry_pprev {p : Uint256} (h : (m.newEntry hashPrevBlock proof address).pprev = some p) :
    ∃ e, m.entries.get p = some e ∧
      (m.newEntry hashPrevBlock proof address).nHeight = e.nHeight + 1 := by
  unfold newEntry at h ⊢
  cases he : m.entries.get hashPrevBlock with
  | none =>
    rw [he] at h
    cases h
  | some e =>
    rw [he] at h
    cases h
    exact ⟨e, he, rfl⟩

/-- a header that is known already changes nothing -/
def addToBlockIndex (m : BlockMap) (hash hashPrevBlock : Uint256) (proof address : Nat) : BlockMap :=
  if hnew : m.entries.get hash = none then
    { entries := m.entries.insert hash (m.newEntry hashPrevBlock proof address)
      height_pprev := by
        intro h e p he hp
        have hkeep : ∀ q e', m.entries.get q = some e' →
            (m.entries.insert hash (m.newEntry hashPrevBlock proof address)).get q = some e' := by
          intro q e' hq
          rw [FMap.insert_get_ne _ _ _, hq]
          rintro rfl
          rw [hnew] at hq
          cases hq
        rw [FMap.insert_get] at he
        split at he
        · cases he
          obtain ⟨e', he', hh⟩ := newEntry_pprev hp
          exact ⟨e', hkeep p e' he', hh⟩
        · obtain ⟨e', he', hh⟩ := m.height_pprev h e p he hp
          exact ⟨e', hkeep p e' he', hh⟩ }
  else m

theorem addToBlockIndex_get (hnew : m.entries.get hash = none)
    (hashPrevBlock : Uint256) (proof address : Nat) (y : Uint256) :
    (m.addToBlockIndex hash hashPrevBlock proof address).entries.get y =
      if y = hash then some (m.newEntry hashPrevBlock proof address) else m.entries.get y := by
  rw [addToBlockIndex, dif_pos hnew]
  exact FMap.insert_get _ _ _ _

end BlockMap

/-! ## a short chain -/

def sampleId (n : Nat) : Uint256 := Uint256.ofByte (UInt8.ofNat n)

/-- the blocks 1 and 2 were processed before a snapshot was activated, the block 3 on top of them is the
base of the snapshot -/
def sampleForkIndex : BlockMap :=
  let m := BlockMap.empty.addToBlockIndex (sampleId 1) (sampleId 0) 1 1
  let m := m.addToBlockIndex (sampleId 2) (sampleId 1) 1 2
  let m := m.addToBlockIndex (sampleId 3) (sampleId 2) 1 3
  m.update fun h e =>
    if h = sampleId 3 then { e.toBlockIndexState with m_chain_tx_count := 3 }
    else ⟨1, e.nHeight + 1, 2, ⟨BLOCK_VALID_SCRIPTS, true, true, false, true⟩⟩

def sampleNumber (h : Uint256) : Nat := (h.data.headD 0).toNat

theorem sampleNumber_sampleId {n : Nat} (h : n < 256) : sampleNumber (sampleId n) = n := by
  show (UInt8.ofNat n).toNat = n
  rw [UInt8.toNat_ofNat']
  omega

def sampleLineEntry (n : Nat) : CBlockIndex where
  toBlockIndexState :=
    if n = 0 then ⟨1, 1, 0, ⟨BLOCK_VALID_SCRIPTS, true, true, false, true⟩⟩ else BlockIndexState.header
  pprev := if n = 0 then none else some (sampleId (n - 1))
  nHeight := n
  nChainWork := 2 * (n + 1)
  address := n

/-- the genesis block and headers above it, `n` blocks in all -/
def headerLine (n : Nat) (hn : n ≤ 256) : BlockMap where
  entries :=
    { get := fun h =>
        if h = sampleId (sampleNumber h) ∧ sampleNumber h < n then
          some (sampleLineEntry (sampleNumber h)) else none
      dom := (Finset.range n).image sampleId
      mem_dom := by
        intro h
        rw [Finset.mem_image]
        constructor
        · rintro ⟨k, hk, rfl⟩
          have hlt := Finset.mem_range.mp hk
          rw [sampleNumber_sampleId (by omega), if_pos ⟨rfl, hlt⟩]
          rfl
        · intro hs
          split at hs
          · rename_i hh
            exact ⟨sampleNumber h, Finset.mem_range.mpr hh.2, hh.1.symm⟩
          · cases hs }
  height_pprev := by
    intro h e p he hp
    dsimp only at he ⊢
    split at he
    · rename_i hh
      cases he
      rw [sampleLineEntry] at hp
      split at hp
      · cases hp
      · cases hp
        have hnum : sampleNumber (sampleId (sampleNumber h - 1)) = sampleNumber h - 1 :=
          sampleNumber_sampleId (by omega)
        refine ⟨sampleLineEntry (sampleNumber h - 1), ?_, ?_⟩
        · rw [hnum, if_pos ⟨rfl, by omega⟩]
        · show sampleNumber h = sampleNumber h - 1 + 1
          omega
    · cases he

end ElektronNet
