import ElektronNet.BlockIndex
import ElektronNet.Coins.View

/-!
# Chain selection

The part of `validation.cpp` that receives headers and blocks and chooses the active chain, for a
node with one chainstate: `AcceptBlockHeader`, `AcceptBlock`, `ReceivedBlockTransactions`,
`TryAddBlockIndexCandidate`, `FindMostWorkChain`, `ActivateBestChainStep` and the loop of
`ActivateBestChain`.

* `ChainSelection`     the block tree, the marks the manager keeps on it, and the chainstate
* `SelectionEnv`       the verdicts of code outside this part: `ConnectTip`, `DisconnectTip`,
                       and the checks of a header and of a block
* `selectStep`         one round of the inner loop of `ActivateBestChain`; `cs_main` is free
                       between the rounds, the chosen tip is kept across them

What a round reports besides its result is the list of blocks it called `DisconnectTip` on.
-/

namespace ElektronNet

inductive Assumeutxo where
  | VALIDATED
  | UNVALIDATED
  | INVALID
deriving DecidableEq

/-- the members of `Chainstate` that chain selection reads; `m_chain` is given by its tip -/
structure ChainstateCore where
  m_from_snapshot_blockhash : Option Uint256
  m_assumeutxo : Assumeutxo
  m_target_blockhash : Option Uint256
  m_target_utxohash : Option Uint256
  tip : Option Uint256
  setBlockIndexCandidates : List Uint256
deriving DecidableEq

/-- the block index with what `BlockManager` and `ChainstateManager` keep beside it -/
structure BlockTree where
  m_block_index : BlockMap
  /-- pairs of a parent and a block that waits for it -/
  m_blocks_unlinked : List (Uint256 × Uint256)
  nBlockSequenceId : Int
  m_best_header : Option Uint256
  m_best_invalid : Option Uint256
  /-- in which order a loop over the index meets its blocks, which a hash table leaves open -/
  order : Finset Uint256 → List Uint256 := FMap.sorted

structure ChainSelection extends BlockTree where
  chainstate : ChainstateCore

/-! ## candidates -/

namespace BlockMap

def before (m : BlockMap) (a b : Uint256) : Bool :=
  match m.entries.get a, m.entries.get b with
  | some pa, some pb => CBlockIndexWorkComparator pa pb
  | _, _ => false

def nChainWork (m : BlockMap) (hash : Uint256) : Nat := (m.entries.get hash).elim 0 (·.nChainWork)

def nStatus (m : BlockMap) (hash : Uint256) : Option BlockStatus :=
  (m.entries.get hash).map (·.nStatus)

def failed (m : BlockMap) (hash : Uint256) : Bool :=
  (m.entries.get hash).elim false (·.nStatus.failedValid)

end BlockMap

namespace ChainstateCore

section
variable (cs : ChainstateCore)

def addCandidate (pindex : Uint256) : ChainstateCore :=
  { cs with setBlockIndexCandidates := cs.setBlockIndexCandidates.insert pindex }

def worseThanTip (m : BlockMap) (pindex : Uint256) : Bool :=
  match cs.tip with
  | none => false
  | some t => m.before pindex t

def tryAddBlockIndexCandidate (m : BlockMap) (pindex : Uint256) : ChainstateCore :=
  if cs.m_assumeutxo = .INVALID then cs
  else if cs.worseThanTip m pindex then cs
  else
    match cs.m_target_blockhash with
    | none => cs.addCandidate pindex
    | some target =>
      if m.getAncestor target (m.nHeight pindex) = some pindex then cs.addCandidate pindex else cs

/-- what `PopulateBlockIndexCandidates` offers -/
def offered (pindex : Uint256) (e : CBlockIndex) : Bool :=
  cs.m_from_snapshot_blockhash == some pindex ||
    (e.nStatus.isValid BLOCK_VALID_TRANSACTIONS && (e.haveNumChainTxs || e.pprev.isNone))

def populateBlockIndexCandidates (m : BlockMap) : ChainstateCore :=
  m.entries.toList.foldl
    (fun cs e => if cs.offered e.1 e.2 then cs.tryAddBlockIndexCandidate m e.1 else cs) cs

def eraseCandidate (pindex : Uint256) : ChainstateCore :=
  { cs with setBlockIndexCandidates := cs.setBlockIndexCandidates.filter (· ≠ pindex) }

/-- the candidates are sorted by the comparator, so those before the tip come first -/
def pruneBlockIndexCandidates (m : BlockMap) : Except Fault ChainstateCore :=
  let left := cs.setBlockIndexCandidates.filter fun c => !cs.worseThanTip m c
  if left = [] then .error (.assertion "!setBlockIndexCandidates.empty()")
  else .ok { cs with setBlockIndexCandidates := left }

end

end ChainstateCore

/-! ## receiving headers and blocks -/

/-- verdicts of code that is not modelled here, for one call -/
inductive ConnectResult where
  | connected
  /-- `mutated`: the result is `BLOCK_MUTATED` -/
  | invalid (mutated : Bool)
  | error
deriving DecidableEq

structure SelectionEnv where
  connectTip : Uint256 → ConnectResult
  /-- the block and its undo data are read and fit -/
  disconnectTip : Uint256 → Bool

structure HeaderMessage where
  hash : Uint256
  hashPrevBlock : Uint256
  /-- `GetBlockProof` -/
  proof : Nat
  address : Nat
  /-- `CheckBlockHeader` and `ContextualCheckBlockHeader` -/
  checks : Except Invalid Unit
  min_pow_checked : Bool

namespace ChainSelection

def betterHeader (m : BlockMap) (best : Option Uint256) (h : Uint256) : Option Uint256 :=
  best.map fun b => if m.failed h = false ∧ m.nChainWork b < m.nChainWork h then h else b

section
variable (s : ChainSelection)

def recalculateBestHeader : ChainSelection :=
  { s with
    m_best_header := (s.order s.m_block_index.entries.dom).foldl (betterHeader s.m_block_index)
      s.chainstate.tip }

/-- every proper descendant of the block is marked as failed -/
def setBlockFailureFlags (invalid_block : Uint256) : ChainSelection :=
  { s with m_block_index := s.m_block_index.update fun h e =>
      if h ≠ invalid_block ∧
          s.m_block_index.getAncestor h (s.m_block_index.nHeight invalid_block) = some invalid_block
      then { e.toBlockIndexState with nStatus := { e.nStatus with failedValid := true } }
      else e.toBlockIndexState }

def markInvalid (pindexNew : Uint256) : ChainSelection :=
  match s.m_best_invalid with
  | none => { s with m_best_invalid := some pindexNew }
  | some b =>
    if s.m_block_index.nChainWork b < s.m_block_index.nChainWork pindexNew
    then { s with m_best_invalid := some pindexNew } else s

/-- the best header is chosen again if it descends from the block -/
def leaveBestHeader (pindexNew : Uint256) : ChainSelection :=
  match s.m_best_header with
  | none => s
  | some b =>
    if s.m_block_index.getAncestor b (s.m_block_index.nHeight pindexNew) = some pindexNew
    then s.recalculateBestHeader else s

def invalidChainFound (pindexNew : Uint256) : Except Fault ChainSelection :=
  let s := ((s.markInvalid pindexNew).setBlockFailureFlags pindexNew).leaveBestHeader pindexNew
  if s.chainstate.tip = none then .error (.assertion "tip") else .ok s

def invalidBlockFound (pindex : Uint256) (mutated : Bool) : Except Fault ChainSelection :=
  if mutated then .ok s
  else
    invalidChainFound
      { s with
        m_block_index := s.m_block_index.modify pindex fun e =>
          { e with nStatus := { e.nStatus with failedValid := true } }
        chainstate := s.chainstate.eraseCandidate pindex }
      pindex

/-- `AddToBlockIndex` with the best header -/
def addHeader (header : HeaderMessage) : ChainSelection :=
  if (s.m_block_index.entries.get header.hash).isSome then s
  else
    let m := s.m_block_index.addToBlockIndex header.hash header.hashPrevBlock header.proof
      header.address
    { s with
      m_block_index := m
      m_best_header :=
        match s.m_best_header with
        | none => some header.hash
        | some b => if m.nChainWork b < m.nChainWork header.hash then some header.hash else some b }

def acceptBlockHeader (hashGenesisBlock : Uint256) (header : HeaderMessage) :
    Except Invalid Unit × ChainSelection :=
  let checked : Except Invalid Bool :=
    if header.hash = hashGenesisBlock then .ok true
    else
      match s.m_block_index.nStatus header.hash with
      | some st =>
        if st.failedValid then
          .error ⟨"duplicate-invalid",
            "block " ++ header.hash.toString ++ " was previously marked invalid"⟩
        else .ok false
      | none =>
        match header.checks with
        | .error e => .error e
        | .ok () =>
          match s.m_block_index.nStatus header.hashPrevBlock with
          | none => .error ⟨"prev-blk-not-found", ""⟩
          | some st => if st.failedValid then .error ⟨"bad-prevblk", ""⟩ else .ok true
  match checked with
  | .error e => (.error e, s)
  | .ok false => (.ok (), s)
  | .ok true =>
    if header.min_pow_checked then (.ok (), s.addHeader header)
    else (.error ⟨"too-little-chainwork", ""⟩, s)

/-- the transactions of a block and of the chain under its parent -/
def prevTxSum (m : BlockMap) (pindex : Uint256) : Nat :=
  match m.entries.get pindex with
  | none => 0
  | some e => e.nTx + match e.pprev with
    | none => 0
    | some p => (m.entries.get p).elim 0 (·.m_chain_tx_count)

/-- the block is linked: its count is known, it takes the next sequence id and is a candidate -/
def link (pindex : Uint256) : ChainSelection :=
  let m := s.m_block_index.modify pindex fun e =>
    { e with
      m_chain_tx_count := prevTxSum s.m_block_index pindex
      nSequenceId := s.nBlockSequenceId }
  { s with
    m_block_index := m
    nBlockSequenceId := s.nBlockSequenceId + 1
    chainstate := s.chainstate.tryAddBlockIndexCandidate m pindex }

end

/-- the queue of `ReceivedBlockTransactions`; every block that enters it leaves
`m_blocks_unlinked`, which bounds the rounds -/
def linkQueue : Nat → List Uint256 → ChainSelection → ChainSelection
  | 0, _, s => s
  | _ + 1, [], s => s
  | n + 1, pindex :: queue, s =>
    let s := s.link pindex
    linkQueue n
      (queue ++ (s.m_blocks_unlinked.filter fun e => e.1 = pindex).map Prod.snd)
      { s with m_blocks_unlinked := s.m_blocks_unlinked.filter fun e => e.1 ≠ pindex }

/-- more rounds than there are blocks in the queue and in `m_blocks_unlinked` change nothing -/
theorem linkQueue_fuel {n : Nat} {queue : List Uint256} {s : ChainSelection}
    (h : queue.length + s.m_blocks_unlinked.length ≤ n) :
    linkQueue (n + 1) queue s = linkQueue n queue s := by
  induction n generalizing queue s with
  | zero =>
    obtain rfl : queue = [] := List.length_eq_zero_iff.mp (by omega)
    rfl
  | succ n ih =>
    cases queue with
    | nil => rfl
    | cons x queue =>
      refine ih ?_
      have hsplit := List.length_eq_length_filter_add (l := s.m_blocks_unlinked)
        fun e => decide (e.1 = x)
      show (queue ++ _).length + (s.m_blocks_unlinked.filter fun e => decide (e.1 ≠ x)).length ≤ n
      simp only [List.length_append, List.length_map, decide_not, List.length_cons] at h ⊢
      show queue.length + (s.m_blocks_unlinked.filter fun e => decide (e.1 = x)).length + _ ≤ n
      omega

def received (s : ChainSelection) (pindexNew : Uint256) (nTx : Nat) (segwit : Bool) : BlockMap :=
  let m := s.m_block_index.modify pindexNew fun e => { e with nTx := nTx }
  m.modify pindexNew fun e =>
    { e with
      m_chain_tx_count :=
        if e.m_chain_tx_count = 0 ∨ e.m_chain_tx_count = prevTxSum m pindexNew ∨
            s.chainstate.m_from_snapshot_blockhash = some pindexNew
        then e.m_chain_tx_count else 0
      nStatus := BlockStatus.raiseValidity
        { e.nStatus with
          haveData := true
          optWitness := e.nStatus.optWitness || segwit }
        BLOCK_VALID_TRANSACTIONS }

def receivedBlockTransactions (s : ChainSelection) (pindexNew : Uint256) (nTx : Nat)
    (segwit : Bool) : ChainSelection :=
  let s := { s with m_block_index := s.received pindexNew nTx segwit }
  match s.m_block_index.pprev pindexNew with
  | none => linkQueue (s.m_blocks_unlinked.length + 1) [pindexNew] s
  | some p =>
    match s.m_block_index.entries.get p with
    | none => s
    | some prev =>
      if prev.haveNumChainTxs then linkQueue (s.m_blocks_unlinked.length + 1) [pindexNew] s
      else if prev.nStatus.isValid BLOCK_VALID_TREE then
        { s with m_blocks_unlinked := s.m_blocks_unlinked ++ [(p, pindexNew)] }
      else s

end ChainSelection

def MIN_BLOCKS_TO_KEEP : Nat := 2880

structure BlockMessage extends HeaderMessage where
  nTx : Nat
  fRequested : Bool
  /-- `CheckBlock` and `ContextualCheckBlock`; the flag of an error is `BLOCK_MUTATED` -/
  blockChecks : Except (Invalid × Bool) Unit
  /-- `DEPLOYMENT_SEGWIT` is active at the block -/
  segwit : Bool

structure SelectionParams where
  hashGenesisBlock : Uint256
  minimumChainWork : Nat

namespace ChainSelection

/-- a block nobody asked for is only kept if it looks like the next tip -/
def unwanted (s : ChainSelection) (P : SelectionParams) (e : CBlockIndex) : Bool :=
  let tip := s.chainstate.tip.bind s.m_block_index.lookupBlockIndex
  e.nTx != 0 ||
    (match tip with | none => false | some t => decide (e.nChainWork < t.nChainWork)) ||
    decide ((match tip with | none => -1 | some t => (t.nHeight : Int)) + MIN_BLOCKS_TO_KEEP
      < (e.nHeight : Int)) ||
    decide (e.nChainWork < P.minimumChainWork)

def acceptBlock (s : ChainSelection) (P : SelectionParams) (block : BlockMessage) :
    Except Fault (Except Invalid Unit × ChainSelection) :=
  match s.acceptBlockHeader P.hashGenesisBlock block.toHeaderMessage with
  | (.error e, s) => .ok (.error e, s)
  | (.ok (), s) =>
    match s.m_block_index.entries.get block.hash with
    | none => .error (.assertion "pindex")
    | some e =>
      if e.nStatus.haveData || (!block.fRequested && s.unwanted P e) then .ok (.ok (), s)
      else
        match block.blockChecks with
        | .error (reason, mutated) =>
          match s.invalidBlockFound block.hash mutated with
          | .error f => .error f
          | .ok s => .ok (.error reason, s)
        | .ok () => .ok (.ok (), s.receivedBlockTransactions block.hash block.nTx block.segwit)

/-! ## choosing a tip -/

/-- the last of the candidates in the order of the comparator -/
def lastCandidate (m : BlockMap) : List Uint256 → Option Uint256
  | [] => none
  | c :: cs =>
    match lastCandidate m cs with
    | none => some c
    | some b => some (if m.before b c then c else b)

/-- the first block of the branch that cannot be used: it failed, or its data are missing -/
def firstUnusable (m : BlockMap) : List Uint256 → Except Fault (Option (Uint256 × Bool))
  | [] => .ok none
  | pindexTest :: rest =>
    match m.entries.get pindexTest with
    | none => .error (.assertion "pindexTest")
    | some e =>
      if !e.haveNumChainTxs && e.nHeight != 0 then
        .error (.assertion "pindexTest->HaveNumChainTxs() || pindexTest->nHeight == 0")
      else if e.nStatus.failedValid || !e.nStatus.haveData then
        .ok (some (pindexTest, e.nStatus.failedValid))
      else firstUnusable m rest

/-- the part of the branch down to `pindexTest` leaves the candidates; it waits for missing data -/
def dropBranch (s : ChainSelection) (pindexNew : Uint256) (branch : List Uint256)
    (pindexTest : Uint256) (failed : Bool) : ChainSelection :=
  let above := branch.takeWhile (· ≠ pindexTest)
  let s := if failed then s.markInvalid pindexNew else s
  { s with
    m_blocks_unlinked :=
      if failed then s.m_blocks_unlinked
      else s.m_blocks_unlinked ++ above.filterMap fun h => (s.m_block_index.pprev h).map (·, h)
    chainstate := (above ++ [pindexTest]).foldl ChainstateCore.eraseCandidate s.chainstate }

def branchOf (s : ChainSelection) (pindexNew : Uint256) : List Uint256 :=
  (s.m_block_index.forest.path pindexNew).takeWhile fun h =>
    !s.m_block_index.chainContains s.chainstate.tip h

/-- every round but the last removes a candidate, which bounds the rounds -/
def findMostWorkChainFrom : Nat → ChainSelection → Except Fault (Option Uint256 × ChainSelection)
  | 0, s => .ok (none, s)
  | n + 1, s =>
    match lastCandidate s.m_block_index s.chainstate.setBlockIndexCandidates with
    | none => .ok (none, s)
    | some pindexNew =>
      match firstUnusable s.m_block_index (s.branchOf pindexNew) with
      | .error f => .error f
      | .ok none => .ok (some pindexNew, s)
      | .ok (some (pindexTest, failed)) =>
        findMostWorkChainFrom n (s.dropBranch pindexNew (s.branchOf pindexNew) pindexTest failed)

def findMostWorkChain (s : ChainSelection) : Except Fault (Option Uint256 × ChainSelection) :=
  findMostWorkChainFrom s.chainstate.setBlockIndexCandidates.length s

/-! ## moving the tip -/

def setTip (s : ChainSelection) (tip : Uint256) : ChainSelection :=
  { s with chainstate := { s.chainstate with tip := some tip } }

/-- `false`: the block or its undo data could not be read or did not fit -/
def disconnectTip (s : ChainSelection) (env : SelectionEnv) : Except Fault (Bool × ChainSelection) :=
  match s.chainstate.tip with
  | none => .error (.assertion "pindexDelete")
  | some pindexDelete =>
    match s.m_block_index.entries.get pindexDelete with
    | none => .error (.assertion "pindexDelete")
    | some e =>
      match e.pprev with
      | none => .error (.assertion "pindexDelete->pprev")
      | some p =>
        if e.nStatus.haveData && e.nStatus.haveUndo && env.disconnectTip pindexDelete
        then .ok (true, s.setTip p) else .ok (false, s)

/-- the disconnecting loop of `ActivateBestChainStep`, with the blocks it called
`DisconnectTip` on; a tip has no more ancestors than its height -/
def disconnectTo (env : SelectionEnv) (pindexFork : Option Uint256) :
    Nat → ChainSelection → Except Fault (Bool × List Uint256 × ChainSelection)
  | 0, s => .ok (true, [], s)
  | n + 1, s =>
    match s.chainstate.tip with
    | none => .ok (true, [], s)
    | some t =>
      if some t = pindexFork then .ok (true, [], s)
      else
        match s.disconnectTip env with
        | .error f => .error f
        | .ok (false, s) => .ok (false, [t], s)
        | .ok (true, s) =>
          match disconnectTo env pindexFork n s with
          | .error f => .error f
          | .ok (ok, log, s) => .ok (ok, t :: log, s)

def connectedEntry (e : BlockIndexState) : BlockIndexState :=
  { e with
    nStatus := ({ e.nStatus with haveUndo := true } : BlockStatus).raiseValidity BLOCK_VALID_SCRIPTS }

/-- how the connecting loop goes on -/
inductive Connecting where
  | more
  | better
  | invalid
  | error
deriving DecidableEq

/-- one list `vpindexToConnect`, lowest block first; `front` is its highest block -/
def connectBlocks (env : SelectionEnv) (oldWork : Option Nat) (front : Uint256) :
    List Uint256 → ChainSelection → Except Fault (Connecting × ChainSelection)
  | [], s => .ok (.more, s)
  | pindexConnect :: rest, s =>
    if s.m_block_index.pprev pindexConnect ≠ s.chainstate.tip then
      .error (.assertion "pindexNew->pprev == m_chain.Tip()")
    else
      match env.connectTip pindexConnect with
      | .error => .ok (.error, s)
      | .invalid mutated =>
        match s.invalidBlockFound pindexConnect mutated with
        | .error f => .error f
        | .ok s =>
          if mutated then .ok (.invalid, s)
          else
            match s.invalidChainFound front with
            | .error f => .error f
            | .ok s => .ok (.invalid, s)
      | .connected =>
        let s := { s with m_block_index := s.m_block_index.modify pindexConnect connectedEntry }
        let s := s.setTip pindexConnect
        match s.chainstate.pruneBlockIndexCandidates s.m_block_index with
        | .error f => .error f
        | .ok cs =>
          let s := { s with chainstate := cs }
          if oldWork.all (· < s.m_block_index.nChainWork pindexConnect) then .ok (.better, s)
          else connectBlocks env oldWork front rest s

/-- the lists of at most 32 blocks, one after the other -/
def connectLists (env : SelectionEnv) (oldWork : Option Nat) :
    List (List Uint256) → ChainSelection → Except Fault (Connecting × ChainSelection)
  | [], s => .ok (.more, s)
  | blocks :: lists, s =>
    match connectBlocks env oldWork (blocks.getLast?.getD Uint256.zero) blocks s with
    | .error f => .error f
    | .ok (.more, s) => connectLists env oldWork lists s
    | .ok (r, s) => .ok (r, s)

structure StepReport where
  /-- `false`: a system error -/
  ok : Bool
  fInvalidFound : Bool
  /-- the blocks `DisconnectTip` was called on -/
  disconnected : List Uint256

def activateBestChainStep (s : ChainSelection) (env : SelectionEnv) (index_most_work : Uint256) :
    Except Fault (StepReport × ChainSelection) :=
  let oldWork := s.chainstate.tip.map s.m_block_index.nChainWork
  let pindexFork := s.m_block_index.findFork s.chainstate.tip index_most_work
  match disconnectTo env pindexFork (s.chainstate.tip.elim 0 fun t => s.m_block_index.nHeight t + 1) s with
  | .error f => .error f
  | .ok (false, log, s) => .ok (⟨false, false, log⟩, s)
  | .ok (true, log, s) =>
    let toConnect :=
      ((s.m_block_index.forest.path index_most_work).takeWhile (some · ≠ pindexFork)).reverse
    match connectLists env oldWork (toConnect.toChunks 32) s with
    | .error f => .error f
    | .ok (r, s) => .ok (⟨r ≠ .error, r = .invalid, log⟩, s)

end ChainSelection

/-! ## runs -/

/-- a node between two rounds of `ActivateBestChain` -/
structure SelectionRun where
  state : ChainSelection
  /-- the tip the rounds work towards -/
  pindexMostWork : Option Uint256

namespace SelectionRun

/-- the tip of this round: the one worked towards, or a new choice -/
def mostWork (r : SelectionRun) : Except Fault (Option Uint256 × ChainSelection) :=
  match r.pindexMostWork with
  | some h => .ok (some h, r.state)
  | none => r.state.findMostWorkChain

def selectStep (r : SelectionRun) (env : SelectionEnv) :
    Except Fault (ChainSelection.StepReport × SelectionRun) :=
  match r.mostWork with
  | .error f => .error f
  | .ok (none, s) => .ok (⟨true, false, []⟩, ⟨s, none⟩)
  | .ok (some most, s) =>
    if s.chainstate.tip = some most then .ok (⟨true, false, []⟩, ⟨s, none⟩)
    else
      match s.activateBestChainStep env most with
      | .error f => .error f
      | .ok (report, s) =>
        .ok (report, ⟨s, if report.ok && !report.fInvalidFound then some most else none⟩)

end SelectionRun

end ElektronNet
