import ElektronNet.Lib.Loop
import ElektronNet.Pow

/-!
# Downloading headers twice

`HeadersSyncState` of `headerssync.h` and `headerssync.cpp`.  In the first pass (`PRESYNC`) the node
stores one bit for every `commitment_period` headers, until the chain has enough work; in the second
(`REDOWNLOAD`) it asks for the same headers again, compares the bits, and keeps the headers in a
buffer, compressed, until `redownload_buffer_size` more have come or the work is reached.

* `HeadersSyncSetup`, `HeadersSyncState`   the members that never change, and the others
* `processNextHeaders`                     one message
* `SyncLog`                                a run, with what was presynced, redownloaded and released

The loops of both passes stop at the first header that fails (`forEach`); a state during a message is
a state after some of its headers (`during`).  A failure may come after part of the state has changed.
-/

namespace ElektronNet

open ArithUint256 Loop

/-! ## the work of a header -/

def getBitsProof (bits : Nat) : Except Fault ArithUint256 := do
  let (bnTarget, fNegative, fOverflow) := setCompact bits
  if fNegative || fOverflow || bnTarget.equalTo 0 then return ofUint64 0
  return (← bnTarget.compl.div (bnTarget.add (ofUint64 1))).add (ofUint64 1)

def getBlockProof (header : CBlockHeader) : Except Fault ArithUint256 := getBitsProof header.nBits

theorem setCompact_lt (nCompact : Nat) : (setCompact nCompact).1.val + 1 < 2 ^ 256 := by
  rw [setCompact_val]
  show (if nCompact / 2 ^ 24 ≤ 3 then nCompact % 2 ^ 23 / 2 ^ (8 * (3 - nCompact / 2 ^ 24))
    else nCompact % 2 ^ 23 * 2 ^ (8 * (nCompact / 2 ^ 24 - 3))) % 2 ^ 256 + 1 < 2 ^ 256
  by_cases h3 : nCompact / 2 ^ 24 ≤ 3
  · rw [if_pos h3]
    have hle := Nat.div_le_self (nCompact % 2 ^ 23) (2 ^ (8 * (3 - nCompact / 2 ^ 24)))
    rw [Nat.mod_eq_of_lt (by omega)]
    omega
  · -- a multiple of 256
    rw [if_neg h3]
    obtain ⟨e, he⟩ : ∃ e, nCompact / 2 ^ 24 - 3 = e + 1 := ⟨nCompact / 2 ^ 24 - 4, by omega⟩
    rw [he, show 8 * (e + 1) = 8 * e + 8 by ring, pow_add, ← Nat.mul_assoc]
    omega

def bitsProof (bits : Nat) : Nat :=
  let (bnTarget, fNegative, fOverflow) := setCompact bits
  if fNegative || fOverflow || decide (bnTarget.val = 0) then 0 else 2 ^ 256 / (bnTarget.val + 1)

theorem getBitsProof_ok (bits : Nat) :
    ∃ proof, getBitsProof bits = .ok proof ∧ proof.val = bitsProof bits := by
  have hlt := setCompact_lt bits
  unfold getBitsProof bitsProof
  generalize setCompact bits = t at hlt
  obtain ⟨bnTarget, fNegative, fOverflow⟩ := t
  dsimp only at hlt ⊢
  rw [equalTo_eq _ (by decide)]
  split
  · exact ⟨_, rfl, ofUint64_val (by decide)⟩
  · rename_i hzero
    have hadd : (bnTarget.add (ofUint64 1)).val = bnTarget.val + 1 := by
      rw [add_val, ofUint64_val (by decide), Nat.mod_eq_of_lt hlt]
    obtain ⟨q, hq, hval⟩ := div_ok bnTarget.compl (show 0 < (bnTarget.add (ofUint64 1)).val by omega)
    rw [compl_val, hadd] at hval
    refine ⟨q.add (ofUint64 1), by rw [hq]; rfl, ?_⟩
    have hpos : bnTarget.val ≠ 0 := by
      intro h0
      rw [h0] at hzero
      simp at hzero
    have hquot : 2 ^ 256 / (bnTarget.val + 1) = q.val + 1 := by
      rw [hval, ← Nat.add_div_right _ (Nat.succ_pos _)]
      congr 1
      omega
    have hsmall : 2 ^ 256 / (bnTarget.val + 1) < 2 ^ 256 :=
      Nat.div_lt_self (by positivity) (by omega)
    rw [add_val, ofUint64_val (by decide), hquot, Nat.mod_eq_of_lt (by omega)]

/-! ## the state -/

structure HeadersSyncParams where
  commitment_period : Nat
  redownload_buffer_size : Nat

/-- a header without the hash of its parent -/
structure CompressedHeader where
  nVersion : Int
  hashMerkleRoot : Uint256
  nTime : Nat
  nBits : Nat
  nNonce : Nat
deriving DecidableEq

namespace CompressedHeader

def ofHeader (header : CBlockHeader) : CompressedHeader :=
  ⟨header.nVersion, header.hashMerkleRoot, header.nTime, header.nBits, header.nNonce⟩

def getFullHeader (c : CompressedHeader) (hash_prev_block : Uint256) : CBlockHeader :=
  ⟨c.nVersion, hash_prev_block, c.hashMerkleRoot, c.nTime, c.nBits, c.nNonce⟩

end CompressedHeader

/-- of the block index entry that the headers of the peer continue -/
structure ChainStart where
  /-- `GetBlockHeader` -/
  header : CBlockHeader
  /-- `GetBlockHash` -/
  hash : Uint256
  nHeight : Nat
  nChainWork : ArithUint256
  medianTimePast : Int

inductive HeadersSyncState.State where
  | PRESYNC
  | REDOWNLOAD
  | FINAL
deriving DecidableEq

structure HeadersSyncSetup where
  m_commit_offset : Nat
  m_consensus_params : PowParams
  m_params : HeadersSyncParams
  m_chain_start : ChainStart
  m_minimum_required_work : ArithUint256
  /-- salted -/
  m_hasher : Uint256 → Nat
  m_max_commitments : Nat

structure HeadersSyncState where
  m_current_chain_work : ArithUint256
  m_header_commitments : List Bool
  m_last_header_received : CBlockHeader
  m_current_height : Nat
  m_redownloaded_headers : List CompressedHeader
  m_redownload_buffer_last_height : Nat
  m_redownload_buffer_last_hash : Uint256
  m_redownload_buffer_first_prev_hash : Uint256
  m_redownload_chain_work : ArithUint256
  m_process_all_remaining_headers : Bool
  m_download_state : HeadersSyncState.State

def MAX_FUTURE_BLOCK_TIME : Int := 2 * 60 * 60

/-- six blocks a second since the start, in `uint64_t` -/
def maxCommitments (params : HeadersSyncParams) (chain_start : ChainStart) (now : Int) : Nat :=
  let max_seconds_since_start := now - chain_start.medianTimePast + MAX_FUTURE_BLOCK_TIME
  (6 * max_seconds_since_start % 2 ^ 64).toNat / params.commitment_period

def headersSyncState (consensus_params : PowParams) (params : HeadersSyncParams)
    (chain_start : ChainStart) (minimum_required_work : ArithUint256) (m_hasher : Uint256 → Nat)
    (randrange : Nat → Nat) (now : Int) : Except Fault (HeadersSyncSetup × HeadersSyncState) :=
  if ¬ params.commitment_period > 0 then .error (.assertion "params.commitment_period > 0")
  else .ok
    ({ m_commit_offset := randrange params.commitment_period
       m_consensus_params := consensus_params
       m_params := params
       m_chain_start := chain_start
       m_minimum_required_work := minimum_required_work
       m_hasher := m_hasher
       m_max_commitments := maxCommitments params chain_start now },
     { m_current_chain_work := chain_start.nChainWork
       m_header_commitments := []
       m_last_header_received := chain_start.header
       m_current_height := chain_start.nHeight
       m_redownloaded_headers := []
       m_redownload_buffer_last_height := 0
       m_redownload_buffer_last_hash := Uint256.zero
       m_redownload_buffer_first_prev_hash := Uint256.zero
       m_redownload_chain_work := ofUint64 0
       m_process_all_remaining_headers := false
       m_download_state := .PRESYNC })

/-- after `SetNull` -/
def CBlockHeader.null : CBlockHeader := ⟨0, Uint256.zero, Uint256.zero, 0, 0, 0⟩

def HeadersSyncState.finalize (s : HeadersSyncState) : HeadersSyncState :=
  { s with
    m_header_commitments := []
    m_last_header_received := CBlockHeader.null
    m_redownloaded_headers := []
    m_redownload_buffer_last_hash := Uint256.zero
    m_redownload_buffer_first_prev_hash := Uint256.zero
    m_process_all_remaining_headers := false
    m_current_height := 0
    m_download_state := .FINAL }

/-! ## messages -/

section
variable (H : Hashes) (x : HeadersSyncSetup)

def commitment (header : CBlockHeader) : Bool := x.m_hasher (H.blockHash header) % 2 == 1

/-- a header of this height has a commitment -/
def HeadersSyncSetup.commits (height : Nat) : Bool :=
  height % x.m_params.commitment_period == x.m_commit_offset

/-- the end of `ValidateAndProcessSingleHeader` -/
def advance (current : CBlockHeader) (s : HeadersSyncState) :
    Except Fault (Bool × HeadersSyncState) := do
  let proof ← getBlockProof current
  return (true, { s with
    m_current_chain_work := s.m_current_chain_work.add proof
    m_last_header_received := current
    m_current_height := s.m_current_height + 1 })

def validateAndProcessSingleHeader (current : CBlockHeader) (s : HeadersSyncState) :
    Except Fault (Bool × HeadersSyncState) := do
  if s.m_download_state ≠ .PRESYNC then return (false, s)
  let next_height := s.m_current_height + 1
  let permitted ← permittedDifficultyTransition x.m_consensus_params next_height
    s.m_last_header_received.nBits current.nBits
  if !permitted then return (false, s)
  if x.commits next_height then
    let s := { s with m_header_commitments := s.m_header_commitments ++ [commitment H x current] }
    if s.m_header_commitments.length > x.m_max_commitments then return (false, s)
    advance current s
  else advance current s

def startRedownload (s : HeadersSyncState) : HeadersSyncState :=
  { s with
    m_redownloaded_headers := []
    m_redownload_buffer_last_height := x.m_chain_start.nHeight
    m_redownload_buffer_first_prev_hash := x.m_chain_start.hash
    m_redownload_buffer_last_hash := x.m_chain_start.hash
    m_redownload_chain_work := x.m_chain_start.nChainWork
    m_download_state := .REDOWNLOAD }

def validateAndStoreHeadersCommitments (headers : List CBlockHeader) (s : HeadersSyncState) :
    Except Fault (Bool × HeadersSyncState) :=
  match headers with
  | [] => pure (true, s)
  | first :: _ => do
    if s.m_download_state ≠ .PRESYNC then return (false, s)
    if first.hashPrevBlock ≠ H.blockHash s.m_last_header_received then return (false, s)
    let r ← forEach (validateAndProcessSingleHeader H x) headers s
    if !r.1 then return (false, r.2)
    if r.2.m_current_chain_work.ge x.m_minimum_required_work then
      return (true, startRedownload x r.2)
    return (true, r.2)

/-- the end of `ValidateAndStoreRedownloadedHeader` -/
def storeRedownloaded (header : CBlockHeader) (s : HeadersSyncState) : HeadersSyncState :=
  { s with
    m_redownloaded_headers := s.m_redownloaded_headers ++ [CompressedHeader.ofHeader header]
    m_redownload_buffer_last_height := s.m_redownload_buffer_last_height + 1
    m_redownload_buffer_last_hash := H.blockHash header }

/-- the bits of the last header in the buffer, or of the start -/
def previousBits (s : HeadersSyncState) : Nat :=
  match s.m_redownloaded_headers.getLast? with
  | some back => back.nBits
  | none => x.m_chain_start.header.nBits

/-- the work is counted, and with enough of it every header may be released -/
def countWork (proof : ArithUint256) (s : HeadersSyncState) : HeadersSyncState :=
  let work := s.m_redownload_chain_work.add proof
  { s with
    m_redownload_chain_work := work
    m_process_all_remaining_headers :=
      s.m_process_all_remaining_headers || work.ge x.m_minimum_required_work }

def validateAndStoreRedownloadedHeader (header : CBlockHeader) (s : HeadersSyncState) :
    Except Fault (Bool × HeadersSyncState) := do
  if s.m_download_state ≠ .REDOWNLOAD then return (false, s)
  let next_height := s.m_redownload_buffer_last_height + 1
  if header.hashPrevBlock ≠ s.m_redownload_buffer_last_hash then return (false, s)
  let permitted ← permittedDifficultyTransition x.m_consensus_params next_height
    (previousBits x s) header.nBits
  if !permitted then return (false, s)
  let proof ← getBlockProof header
  let s := countWork x proof s
  if !s.m_process_all_remaining_headers && x.commits next_height then
    match s.m_header_commitments with
    | [] => return (false, s)
    | expected_commitment :: rest =>
      let s := { s with m_header_commitments := rest }
      if commitment H x header ≠ expected_commitment then return (false, s)
      return (true, storeRedownloaded H header s)
  else return (true, storeRedownloaded H header s)

/-- what is released of the buffer, what stays, and the hash in front of that -/
def popHeaders (all : Bool) : List CompressedHeader → Uint256 →
    List CBlockHeader × List CompressedHeader × Uint256
  | [], prev => ([], [], prev)
  | front :: rest, prev =>
    if rest.length + 1 > x.m_params.redownload_buffer_size || all then
      let header := front.getFullHeader prev
      let r := popHeaders all rest (H.blockHash header)
      (header :: r.1, r.2)
    else ([], front :: rest, prev)

def popHeadersReadyForAcceptance (s : HeadersSyncState) : List CBlockHeader × HeadersSyncState :=
  if s.m_download_state ≠ .REDOWNLOAD then ([], s)
  else
    let r := popHeaders H x s.m_process_all_remaining_headers s.m_redownloaded_headers
      s.m_redownload_buffer_first_prev_hash
    (r.1, { s with
      m_redownloaded_headers := r.2.1
      m_redownload_buffer_first_prev_hash := r.2.2 })

structure ProcessingResult where
  pow_validated_headers : List CBlockHeader := []
  success : Bool := false
  request_more : Bool := false

def ProcessingResult.finish (ret : ProcessingResult) (s : HeadersSyncState) :
    ProcessingResult × HeadersSyncState :=
  (ret, if ret.success && ret.request_more then s else s.finalize)

def processNextHeaders (received_headers : List CBlockHeader) (full_headers_message : Bool)
    (s : HeadersSyncState) : Except Fault (ProcessingResult × HeadersSyncState) := do
  if received_headers = [] then return ({}, s)
  match s.m_download_state with
  | .FINAL => return ({}, s)
  | .PRESYNC =>
    let r ← validateAndStoreHeadersCommitments H x received_headers s
    let ret : ProcessingResult :=
      { success := r.1
        request_more :=
          r.1 && (full_headers_message || r.2.m_download_state == .REDOWNLOAD) }
    return ret.finish r.2
  | .REDOWNLOAD =>
    let r ← forEach (validateAndStoreRedownloadedHeader H x) received_headers s
    if !r.1 then return ProcessingResult.finish {} r.2
    let (pow_validated_headers, s) := popHeadersReadyForAcceptance H x r.2
    let complete := s.m_redownloaded_headers.isEmpty && s.m_process_all_remaining_headers
    let ret : ProcessingResult :=
      { pow_validated_headers := pow_validated_headers
        success := true
        request_more := !complete && full_headers_message }
    return ret.finish s

/-! ## runs -/

structure HeadersMessage where
  headers : List CBlockHeader
  /-- the message was at its greatest size -/
  full : Bool

/-- the state after some messages, the headers that were taken in the first pass and in the second,
and those that were returned -/
structure SyncLog where
  state : HeadersSyncState
  presynced : List CBlockHeader
  redownloaded : List CBlockHeader
  released : List CBlockHeader

def SyncLog.receive (log : SyncLog) (msg : HeadersMessage) : Except Fault SyncLog := do
  let (ret, s) ← processNextHeaders H x msg.headers msg.full log.state
  return {
    state := s
    presynced :=
      if log.state.m_download_state = .PRESYNC ∧ ret.success then log.presynced ++ msg.headers
      else log.presynced
    redownloaded :=
      if log.state.m_download_state = .REDOWNLOAD ∧ ret.success then log.redownloaded ++ msg.headers
      else log.redownloaded
    released := log.released ++ ret.pow_validated_headers }

def SyncLog.run (msgs : List HeadersMessage) (s : HeadersSyncState) : Except Fault SyncLog :=
  msgs.foldlM (SyncLog.receive H x) ⟨s, [], [], []⟩

/-- after some headers of a message, if the loop of the pass is in is left there -/
def HeadersSyncState.during (s : HeadersSyncState) (headers : List CBlockHeader) :
    Except Fault (Bool × HeadersSyncState) :=
  match s.m_download_state with
  | .PRESYNC => forEach (validateAndProcessSingleHeader H x) headers s
  | .REDOWNLOAD => forEach (validateAndStoreRedownloadedHeader H x) headers s
  | .FINAL => .ok (true, s)

end

end ElektronNet
