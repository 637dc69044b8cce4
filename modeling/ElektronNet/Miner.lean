import ElektronNet.AttestationRefine
import ElektronNet.Subsidy

/-!
# Block templates and the agreement of miner and validator

`BlockAssembler::CreateNewBlock` of `node/miner.cpp` with `GenerateCoinbaseCommitment` and
`UpdateUncommittedBlockStructures`.  The transactions that `addChunks` selected, with their fees,
are an input, and so are the clock, the version and the difficulty of the header.

* `createNewBlock`              the template, or nothing when no hash could be computed
* `isWitnessCommitment_not_attestation`   a witness commitment is never taken for an attestation
* `attestation_encoding`        how an attestation is written, found and stripped
* `validate_of_attested`        a block whose coinbase is a clean one with the attestation of its
                                own stripped transactions put in anywhere passes the check
-/

namespace ElektronNet

open List Outcome

/-! ## the witness commitment -/

def MINIMUM_WITNESS_COMMITMENT : Nat := 38

def witnessCommitmentHeader : Bytes := [OP_RETURN, 0x24, 0xaa, 0x21, 0xa9, 0xed]

def isWitnessCommitment (script : CScript) : Bool :=
  decide (script.length ≥ MINIMUM_WITNESS_COMMITMENT) && script.take 6 == witnessCommitmentHeader

/-- the last output that is a witness commitment -/
def getWitnessCommitmentIndex (block : CBlock) : Option Nat :=
  match block.vtx with
  | [] => none
  | coinbase :: _ =>
    (List.range coinbase.vout.length).reverse.find? fun o =>
      match coinbase.vout[o]? with
      | some out => isWitnessCommitment out.scriptPubKey
      | none => false

def updateUncommittedBlockStructures (block : CBlock) (segwitActive : Bool) : CBlock :=
  match block.vtx with
  | [] => block
  | coinbase :: _ =>
    if (getWitnessCommitmentIndex block).isSome && segwitActive && !coinbase.hasWitness then
      match coinbase.vin with
      | [] => block
      | txin :: vin =>
        block.withCoinbase
          { coinbase with vin := { txin with scriptWitness := [List.replicate 32 0] } :: vin }
    else block

def generateCoinbaseCommitment (H : Hashes) (block : CBlock) (segwitActive : Bool) : CBlock :=
  let block :=
    if (getWitnessCommitmentIndex block).isNone then
      block.appendCoinbaseOutput ⟨0, witnessCommitmentHeader ++ (H.witnessCommitment block).data⟩
    else block
  updateUncommittedBlockStructures block segwitActive

/-! ## the template -/

structure BlockAssemblerOptions where
  coinbase_output_script : CScript
  include_dummy_extranonce : Bool

/-- what `CreateNewBlock` reads of the tip, the clock and the mempool -/
structure TemplateInput where
  tipHeight : Nat
  tipHash : Uint256
  nVersion : Int
  nTime : Nat
  nBits : Nat
  segwitActive : Bool
  /-- the transactions of `addChunks`, each with its fee -/
  selected : List (CTransaction × CAmount)
  /-- the outcome of `TestBlockValidity`; true when `test_block_validity` is off -/
  testBlockValidity : CBlock → Bool

structure CoinbaseTx where
  version : Nat
  sequence : Nat
  script_sig_prefix : CScript
  witness : Option Bytes
  block_reward_remaining : CAmount
  required_outputs : List CTxOut
  lock_time : Nat

structure CBlockTemplate where
  block : CBlock
  vTxFees : List CAmount
  m_coinbase_tx : CoinbaseTx

def MAX_SEQUENCE_NONFINAL : Nat := 4294967294

def newCoinbase (opts : BlockAssemblerOptions) (inp : TemplateInput) (params : ConsensusParams) :
    CTransaction :=
  let nHeight := inp.tipHeight + 1
  let scriptSig := pushInt64 nHeight
  -- at the heights 1 .. 16 the height alone is one byte, and two are required
  let scriptSig :=
    if opts.include_dummy_extranonce && decide (scriptSig.length < 2) then scriptSig ++ [OP_0]
    else scriptSig
  { vin := [⟨COutPoint.null, scriptSig, MAX_SEQUENCE_NONFINAL, []⟩]
    vout := [⟨(inp.selected.map (·.2)).sum + getBlockSubsidy nHeight params,
      opts.coinbase_output_script⟩]
    version := 2
    nLockTime := nHeight - 1 }

section
variable {G : Type} [CommGroup G] (M : MuHash G) (H : Hashes)

/-- the block when the attestation hash is computed -/
def unattestedBlock (opts : BlockAssemblerOptions) (inp : TemplateInput) (params : ConsensusParams) :
    CBlock :=
  generateCoinbaseCommitment H
    { nVersion := inp.nVersion, hashPrevBlock := Uint256.zero, hashMerkleRoot := Uint256.zero,
      nTime := inp.nTime, nBits := 0, nNonce := 0,
      vtx := newCoinbase opts inp params :: inp.selected.map (·.1) }
    inp.segwitActive

/-- the required outputs: the attestation, then the witness commitment if there is one -/
def requiredOutputs (block : CBlock) (attestation : CTxOut) : List CTxOut :=
  match block.vtx, getWitnessCommitmentIndex block with
  | coinbase :: _, some i => attestation :: (coinbase.vout[i]?).toList
  | _, _ => [attestation]

/-- `none`: the attestation could not be computed; a failed `TestBlockValidity` throws -/
def createNewBlock (opts : BlockAssemblerOptions) (inp : TemplateInput) (coinsTip : CCoinsView)
    (known : Uint256 → Bool) (params : ConsensusParams) (utxoMuHash : UTXOMuHashState G) :
    Except Fault (Option CBlockTemplate × CCoinsView) := do
  let nHeight := inp.tipHeight + 1
  let block := unattestedBlock H opts inp params
  let r ← computeBlockUTXOAttestationHash M H block nHeight coinsTip known params (some utxoMuHash)
  match r.1 with
  | none => pure (none, r.2)
  | some hash =>
    let out := attestationOutput nHeight hash
    let block := { block.appendCoinbaseOutput out with
      hashPrevBlock := inp.tipHash, nBits := inp.nBits }
    if !inp.testBlockValidity block then throw (.logicError "TestBlockValidity failed")
    else
      let coinbase := newCoinbase opts inp params
      pure (some
        { block := block
          vTxFees := inp.selected.map (·.2)
          m_coinbase_tx :=
            { version := coinbase.version
              sequence := MAX_SEQUENCE_NONFINAL
              script_sig_prefix := (coinbase.vin.map (·.scriptSig)).headD []
              witness := (block.vtx.head?.bind fun tx => tx.vin.head?).bind fun txin =>
                txin.scriptWitness.head?
              block_reward_remaining := (coinbase.vout.map (·.nValue)).sum
              required_outputs := requiredOutputs block out
              lock_time := coinbase.nLockTime } }, r.2)

end

/-! ## no other output of a template is taken for the attestation -/

theorem isWitnessCommitment_not_attestation {script : CScript} (h : isWitnessCommitment script = true)
    (v : CAmount) (nHeight : Nat) : isCoinbaseUTXOAttestationOutput ⟨v, script⟩ nHeight = false := by
  obtain ⟨hlen, htake⟩ : script.length ≥ MINIMUM_WITNESS_COMMITMENT ∧
      script.take 6 = witnessCommitmentHeader := by simpa [isWitnessCommitment] using h
  obtain ⟨rest, hrest⟩ : ∃ rest, script = witnessCommitmentHeader ++ rest :=
    ⟨script.drop 6, by rw [← htake, take_append_drop]⟩
  have hrlen : 32 ≤ rest.length := by
    rw [hrest, length_append] at hlen
    simp only [MINIMUM_WITNESS_COMMITMENT, witnessCommitmentHeader, length_cons,
      length_nil] at hlen
    omega
  have hop : getScriptOp script =
      some (OP_RETURN, [], (0x24 : UInt8) :: ([0xaa, 0x21, 0xa9, 0xed] ++ rest)) := by
    rw [hrest]
    exact getScriptOp_opcode (by decide) _
  -- the operand of the second opcode has 36 bytes, too many for a script number
  have hpush : getScriptOp ((0x24 : UInt8) :: ([0xaa, 0x21, 0xa9, 0xed] ++ rest)) =
      some (0x24, ([0xaa, 0x21, 0xa9, 0xed] ++ rest).take 36,
        ([0xaa, 0x21, 0xa9, 0xed] ++ rest).drop 36) := by
    have hsize : ¬ (([0xaa, 0x21, 0xa9, 0xed] ++ rest : Bytes).length < 36) := by
      rw [length_append]
      simp only [length_cons, length_nil]
      omega
    exact if_neg hsize
  have hheight : attestationHeight 0x24 (([0xaa, 0x21, 0xa9, 0xed] ++ rest : Bytes).take 36) = none := by
    have hne : ([0xaa, 0x21, 0xa9, 0xed] ++ rest : Bytes).take 36 ≠ [] := by simp
    have hlong : (([0xaa, 0x21, 0xa9, 0xed] ++ rest : Bytes).take 36).length > 5 := by
      rw [length_take, length_append]
      omega
    rw [attestationHeight, scriptNum, if_pos hlong]
    rfl
  rw [isCoinbaseUTXOAttestationOutput, readAttestation]
  simp only [hop, hpush, hheight, ne_eq, not_true, if_false]

def withOutput (coinbase : CTransaction) (out : CTxOut) : CTransaction :=
  { coinbase with vout := coinbase.vout ++ [out] }

variable {coinbase : CTransaction} {nHeight : Nat} {block : CBlock}

theorem extract_withOutput (hnone : extractCoinbaseUTXOAttestation coinbase nHeight = none)
    (out : CTxOut) :
    extractCoinbaseUTXOAttestation (withOutput coinbase out) nHeight = attestedHash nHeight out := by
  unfold extractCoinbaseUTXOAttestation at hnone ⊢
  show (coinbase.vout ++ [out]).findSome? (attestedHash nHeight) = _
  rw [findSome?_append, hnone, findSome?_cons]
  cases attestedHash nHeight out with
  | none => rfl
  | some hash => rfl

theorem filter_of_clean {l : List CTxOut}
    (h : ∀ out ∈ l, isCoinbaseUTXOAttestationOutput out nHeight = false) :
    (l.filter fun out => !isCoinbaseUTXOAttestationOutput out nHeight) = l :=
  filter_eq_self.mpr fun out hout => by rw [h out hout]; rfl

theorem strip_of_clean {tx : CTransaction} (hcb : tx.isCoinBase = true)
    (hclean : ∀ out ∈ tx.vout, isCoinbaseUTXOAttestationOutput out nHeight = false) :
    stripAttestationOutput tx nHeight = some tx := by
  rw [stripAttestationOutput_coinBase tx hcb, filter_of_clean hclean]

/-- **encoding, extraction and stripping fit together**: an attestation that is appended is found at
its height and at no other; something is found exactly where an output attests; stripping leaves
nothing to be found, changes nothing a second time, and takes the attestations out of the outputs
and nothing else, so that every witness commitment stays -/
theorem attestation_encoding {h : Nat} (h1 : 1 ≤ h) (h31 : h < 2 ^ 31) (v : Uint256)
    (coinbase : CTransaction) (hcb : coinbase.isCoinBase = true) :
    (extractCoinbaseUTXOAttestation coinbase h = none →
      extractCoinbaseUTXOAttestation (withOutput coinbase (attestationOutput h v)) h = some v ∧
      ∀ h', h' ≠ h → extractCoinbaseUTXOAttestation coinbase h' = none →
        extractCoinbaseUTXOAttestation (withOutput coinbase (attestationOutput h v)) h' = none) ∧
    ((extractCoinbaseUTXOAttestation coinbase h).isSome = true ↔
      ∃ out ∈ coinbase.vout, isCoinbaseUTXOAttestationOutput out h = true) ∧
    ∃ stripped, stripAttestationOutput coinbase h = some stripped ∧
      extractCoinbaseUTXOAttestation stripped h = none ∧
      stripAttestationOutput stripped h = some stripped ∧
      stripped = { coinbase with
        vout := coinbase.vout.filter fun out => !isCoinbaseUTXOAttestationOutput out h } ∧
      (stripped.vout.filter fun out => isWitnessCommitment out.scriptPubKey) =
        coinbase.vout.filter fun out => isWitnessCommitment out.scriptPubKey := by
  have hstrip := stripAttestationOutput_coinBase coinbase hcb h
  obtain ⟨hcb', hclean⟩ := strip_clean hstrip
  refine ⟨fun hnone => ⟨?_, fun h' hne hnone' => ?_⟩, extract_isSome_iff coinbase h,
    _, hstrip, (extract_eq_none_iff _ h).mpr hclean, strip_of_clean hcb' hclean, rfl, ?_⟩
  · rw [extract_withOutput hnone, attestedHash_attestationOutput h1 h31]
  · rw [extract_withOutput hnone', attestedHash_other h1 h31 v hne]
  · rw [filter_filter]
    refine filter_congr fun out _ => ?_
    cases hwc : isWitnessCommitment out.scriptPubKey with
    | false => rfl
    | true =>
      rw [isWitnessCommitment_not_attestation hwc out.nValue h]
      rfl

/-- the coinbase of block 120, with a payout and nothing else -/
theorem attestation_encoding_payout :
    extractCoinbaseUTXOAttestation (withOutput
      ⟨[⟨COutPoint.null, [0x01, 0x78], MAX_SEQUENCE_NONFINAL, []⟩], [⟨50, [OP_1]⟩], 2, 119⟩
      (attestationOutput 120 (Uint256.ofByte 9))) 120 = some (Uint256.ofByte 9) :=
  ((attestation_encoding (by decide) (by decide) (Uint256.ofByte 9)
    ⟨[⟨COutPoint.null, [0x01, 0x78], MAX_SEQUENCE_NONFINAL, []⟩], [⟨50, [OP_1]⟩], 2, 119⟩
    (by decide)).1 (by decide)).1

/-- the first transaction is a coinbase none of whose outputs is an attestation at the height -/
def CleanCoinbase (block : CBlock) (nHeight : Nat) : Prop :=
  ∃ coinbase rest, block.vtx = coinbase :: rest ∧ coinbase.isCoinBase = true ∧
    ∀ out ∈ coinbase.vout, isCoinbaseUTXOAttestationOutput out nHeight = false

theorem appendCoinbaseOutput_vtx {rest : List CTransaction} (h : block.vtx = coinbase :: rest)
    (out : CTxOut) :
    (block.appendCoinbaseOutput out).vtx =
      { coinbase with vout := coinbase.vout ++ [out] } :: rest := by
  rw [CBlock.appendCoinbaseOutput]
  simp [CBlock.withCoinbase, h]

theorem updateUncommittedBlockStructures_vtx {rest : List CTransaction}
    (h : block.vtx = coinbase :: rest) (hcb : coinbase.isCoinBase = true) (segwitActive : Bool) :
    ∃ coinbase', (updateUncommittedBlockStructures block segwitActive).vtx = coinbase' :: rest ∧
      coinbase'.isCoinBase = true ∧ coinbase'.vout = coinbase.vout := by
  unfold updateUncommittedBlockStructures
  simp only [h]
  split
  · cases hvin : coinbase.vin with
    | nil => exact ⟨coinbase, h, hcb, rfl⟩
    | cons txin vin =>
      refine ⟨{ coinbase with vin := { txin with scriptWitness := [List.replicate 32 0] } :: vin },
        by simp only [CBlock.withCoinbase, h, tail_cons], ?_, rfl⟩
      rw [CTransaction.isCoinBase, hvin] at hcb
      cases vin with
      | nil => exact hcb
      | cons _ _ => cases hcb
  · exact ⟨coinbase, h, hcb, rfl⟩

theorem CleanCoinbase.appendCoinbaseOutput {out : CTxOut} (h : CleanCoinbase block nHeight)
    (hout : isCoinbaseUTXOAttestationOutput out nHeight = false) :
    CleanCoinbase (block.appendCoinbaseOutput out) nHeight := by
  obtain ⟨coinbase, rest, hvtx, hcb, hclean⟩ := h
  refine ⟨_, rest, appendCoinbaseOutput_vtx hvtx out, hcb, fun o ho => ?_⟩
  rcases mem_append.mp ho with ho | ho
  · exact hclean o ho
  · rw [mem_singleton.mp ho]
    exact hout

theorem CleanCoinbase.updateUncommittedBlockStructures (h : CleanCoinbase block nHeight)
    (segwitActive : Bool) :
    CleanCoinbase (updateUncommittedBlockStructures block segwitActive) nHeight := by
  obtain ⟨coinbase, rest, hvtx, hcb, hclean⟩ := h
  obtain ⟨coinbase', hvtx', hcb', hvout⟩ := updateUncommittedBlockStructures_vtx hvtx hcb segwitActive
  exact ⟨coinbase', rest, hvtx', hcb', by rwa [hvout]⟩

theorem unattestedBlock_clean (H : Hashes) {opts : BlockAssemblerOptions} (inp : TemplateInput)
    (params : ConsensusParams)
    (hpay : isCoinbaseUTXOAttestationOutput ⟨0, opts.coinbase_output_script⟩ nHeight = false) :
    CleanCoinbase (unattestedBlock H opts inp params) nHeight := by
  have hnew : ∀ block : CBlock, block.vtx = newCoinbase opts inp params :: inp.selected.map (·.1) →
      CleanCoinbase block nHeight := by
    intro block hvtx
    refine ⟨_, _, hvtx, rfl, fun out hout => ?_⟩
    rw [newCoinbase, mem_singleton] at hout
    rw [hout]
    exact hpay
  refine CleanCoinbase.updateUncommittedBlockStructures ?_ _
  split
  · refine (hnew _ rfl).appendCoinbaseOutput (isWitnessCommitment_not_attestation ?_ _ _)
    simp only [isWitnessCommitment, Bool.and_eq_true, decide_eq_true_eq, beq_iff_eq]
    refine ⟨?_, rfl⟩
    rw [length_append, Uint256.size_eq]
    decide
  · exact hnew _ rfl

/-! ## agreement -/

/-- `block` is `clean` with the attestation of `hash` put somewhere into the coinbase outputs -/
def Attested (clean block : CBlock) (nHeight : Nat) (hash : Uint256) : Prop :=
  ∃ coinbase rest pre post, clean.vtx = coinbase :: rest ∧ coinbase.vout = pre ++ post ∧
    block.vtx = { coinbase with vout := pre ++ attestationOutput nHeight hash :: post } :: rest

section
variable {G : Type} [CommGroup G] {M : MuHash G} {H : Hashes}

/-- **a block that carries the hash of its own stripped transactions passes the check**, wherever
its coinbase carries it -/
theorem validate_of_attested {clean block : CBlock} {hash : Uint256}
    {v w view : CCoinsView} {known : Uint256 → Bool} {params : ConsensusParams}
    {acc : UTXOMuHashState G} (h1 : 1 ≤ nHeight) (h31 : nHeight < 2 ^ 31)
    (hclean : CleanCoinbase clean nHeight) (hatt : Attested clean block nHeight hash)
    (hcompute : computeBlockUTXOAttestationHash M H clean nHeight v known params (some acc) =
      .ok (some hash, w)) (hview : SameView v (backend view)) :
    ∃ view', validateUTXOCheckpoint M H block nHeight view known params (some acc) =
      .ok (.ok (), view') := by
  obtain ⟨coinbase, rest, pre, post, hvtx, hvout, hvtx'⟩ := hatt
  obtain ⟨coinbase', rest', hvtx₂, hcb, houts⟩ := hclean
  obtain ⟨rfl, rfl⟩ := List.cons.inj (hvtx.symm.trans hvtx₂)
  have hattout := isCoinbaseUTXOAttestationOutput_attestationOutput h1 h31 hash
  have hstrip := stripAttestationOutput_insert hcb hvout houts hattout
  have hstrip' : stripAttestationOutput coinbase nHeight = some coinbase := strip_of_clean hcb houts
  have htx : strippedTxs block.vtx nHeight = strippedTxs clean.vtx nHeight := by
    rw [hvtx, hvtx', strippedTxs_cons, strippedTxs_cons, hstrip, hstrip']
    rfl
  obtain ⟨w', hcompute'⟩ := computeBlockUTXOAttestationHash_same hview htx hcompute
  have hextract : extractCoinbaseUTXOAttestation
      { coinbase with vout := pre ++ attestationOutput nHeight hash :: post } nHeight = some hash :=
    extract_insert h1 h31 fun o ho => houts o (by rw [hvout]; exact mem_append_left _ ho)
  have h0 : ¬ nHeight = 0 := by omega
  refine ⟨withBackend view w', ?_⟩
  rw [validateUTXOCheckpoint, if_neg h0, hvtx']
  simp only [hextract, hcompute']
  exact if_neg (not_not.mpr rfl)

/-- the coinbase outputs in another order, in which the attestations may have moved but the other
outputs still follow each other as before -/
def Reordered (block block' : CBlock) (nHeight : Nat) : Prop :=
  ∃ coinbase rest vout, block.vtx = coinbase :: rest ∧
    block'.vtx = { coinbase with vout := vout } :: rest ∧ vout.Perm coinbase.vout ∧
    (vout.filter fun out => !isCoinbaseUTXOAttestationOutput out nHeight) =
      coinbase.vout.filter fun out => !isCoinbaseUTXOAttestationOutput out nHeight

theorem attested_of_reordered {clean block block' : CBlock} {hash : Uint256}
    (h1 : 1 ≤ nHeight) (h31 : nHeight < 2 ^ 31) (hclean : CleanCoinbase clean nHeight)
    (hvtx : block.vtx = (clean.appendCoinbaseOutput (attestationOutput nHeight hash)).vtx)
    (h : Reordered block block' nHeight) : Attested clean block' nHeight hash := by
  obtain ⟨cb, rest, hcvtx, hcb, houts⟩ := hclean
  have hb := hvtx.trans (appendCoinbaseOutput_vtx hcvtx (attestationOutput nHeight hash))
  obtain ⟨cb₁, rest₁, vout, hb₁, hb', hperm, hfilter⟩ := h
  obtain ⟨rfl, rfl⟩ := List.cons.inj (hb.symm.trans hb₁)
  have hatt := isCoinbaseUTXOAttestationOutput_attestationOutput h1 h31 hash
  have hmem : attestationOutput nHeight hash ∈ vout :=
    hperm.mem_iff.mpr (mem_append_right _ (mem_singleton.mpr rfl))
  obtain ⟨pre, post, rfl⟩ := append_of_mem hmem
  -- what is left around the attestation is a permutation of the clean outputs, so it is clean too
  have hrest : (pre ++ post).Perm cb.vout := by
    have h₁ : (attestationOutput nHeight hash :: (pre ++ post)).Perm
        (attestationOutput nHeight hash :: cb.vout) :=
      (perm_middle.symm.trans hperm).trans perm_append_comm
    exact (perm_cons _).mp h₁
  have hclean' : ∀ out ∈ pre ++ post, isCoinbaseUTXOAttestationOutput out nHeight = false :=
    fun out hout => houts out (hrest.mem_iff.mp hout)
  have heq : cb.vout = pre ++ post := by
    simp only [filter_append, filter_cons, hatt, Bool.not_true, Bool.false_eq_true,
      if_false, filter_nil, append_nil] at hfilter
    rw [← filter_append, filter_of_clean hclean', filter_of_clean houts] at hfilter
    exact hfilter.symm
  exact ⟨cb, rest, pre, post, hcvtx, heq, hb'⟩

/-- **miner and validator agree**: a template, and a block with a regenerated attestation, passes
the check on the coins and the accumulator they were made from, in whichever order the extra
outputs of the coinbase end up.  Making them leaves the shown coins alone.  A height fits its
`int`, and the payout script does not attest anything at the height of the block. -/
theorem attestation_agrees (M : MuHash G) (H : Hashes) (params : ConsensusParams)
    (known : Uint256 → Bool) (coinsTip : CCoinsView) (acc : UTXOMuHashState G) :
    (∀ opts inp template w, inp.tipHeight + 1 < 2 ^ 31 →
      isCoinbaseUTXOAttestationOutput ⟨0, opts.coinbase_output_script⟩ (inp.tipHeight + 1) = false →
      createNewBlock M H opts inp coinsTip known params acc = .ok (some template, w) →
      SameView coinsTip w ∧
      ∀ block view, Reordered template.block block (inp.tipHeight + 1) →
        SameView coinsTip (backend view) →
        ∃ view', validateUTXOCheckpoint M H block (inp.tipHeight + 1) view known params (some acc) =
          .ok (.ok (), view')) ∧
    (∀ nHeight block₀ block₁ w, nHeight < 2 ^ 31 →
      regenerateUTXOAttestation M H block₀ nHeight coinsTip known params acc = .ok (some block₁, w) →
      SameView coinsTip w ∧
      ∀ block view, Reordered block₁ block nHeight → SameView coinsTip (backend view) →
        ∃ view', validateUTXOCheckpoint M H block nHeight view known params (some acc) =
          .ok (.ok (), view')) := by
  refine ⟨fun opts inp template w h31 hpay hcreate => ?_,
    fun nHeight block₀ block₁ w h31 hregen => ?_⟩
  · obtain ⟨⟨r, w'⟩, hcompute, hrest⟩ := bind_eq_ok.mp hcreate
    cases r with
    | none => cases hrest
    | some hash =>
      simp only at hrest
      split at hrest
      · cases hrest
      · obtain ⟨rfl, rfl⟩ : _ ∧ w' = w := by
          obtain ⟨h₁, h₂⟩ := Prod.mk.inj (pure_eq_ok.mp hrest)
          exact ⟨Option.some.inj h₁, h₂⟩
        have hclean := unattestedBlock_clean H inp params hpay
        have hbase := (computeBlockUTXOAttestationHash_base hcompute).toSameView
        refine ⟨hbase, fun block view hre hview => ?_⟩
        have hatt := attested_of_reordered (by omega) h31 hclean rfl hre
        exact validate_of_attested (by omega) h31 hclean hatt hcompute hview
  · by_cases h0 : nHeight = 0
    · subst h0
      obtain ⟨-, rfl⟩ := Prod.mk.inj (pure_eq_ok.mp hregen)
      exact ⟨SameView.refl _, fun block view _ _ => ⟨view, rfl⟩⟩
    · rw [regenerateUTXOAttestation, if_neg h0] at hregen
      split at hregen
      · cases hregen
      · rename_i coinbase rest hvtx
        split at hregen
        · cases hregen
        · rename_i stripped hstrip
          obtain ⟨hcb, houts⟩ := strip_clean hstrip
          obtain ⟨⟨r, w'⟩, hcompute, hrest⟩ := bind_eq_ok.mp hregen
          cases r with
          | none => cases hrest
          | some hash =>
            obtain ⟨h₁, rfl⟩ := Prod.mk.inj (pure_eq_ok.mp hrest)
            obtain rfl := Option.some.inj h₁
            have hclean : CleanCoinbase (block₀.withCoinbase stripped) nHeight :=
              ⟨stripped, block₀.vtx.tail, rfl, hcb, houts⟩
            have hbase := (computeBlockUTXOAttestationHash_base hcompute).toSameView
            refine ⟨hbase, fun block view hre hview => ?_⟩
            have hatt := attested_of_reordered (by omega) h31 hclean rfl hre
            exact validate_of_attested (by omega) h31 hclean hatt hcompute hview

end

def sampleInput : TemplateInput where
  tipHeight := 119
  tipHash := Uint256.ofByte 7
  nVersion := 1
  nTime := 0
  nBits := 0
  segwitActive := true
  selected := sampleChain.zip [2, 1]
  testBlockValidity _ := true

/-- a template with two transactions, the second of which spends the first, is checked on another
cache after the attestation has moved in front of the other outputs of the coinbase -/
theorem attestation_agrees_sample :
    ∃ template w coinbase,
      createNewBlock sampleMuHash sampleHashes ⟨[OP_1], true⟩ sampleInput
        (.db (sampleDB ⟨Uint256.ofByte 9, 0⟩ 5)) (fun _ => true) regTestParams UTXOMuHashState.empty =
          .ok (some template, w) ∧
      template.block.vtx = coinbase :: sampleChain ∧ coinbase.vout.length = 3 ∧
      ∃ view', validateUTXOCheckpoint sampleMuHash sampleHashes
        (template.block.withCoinbase { coinbase with vout := coinbase.vout.rotate 2 }) 120
        (CCoinsViewCache.new (.db (sampleDB ⟨Uint256.ofByte 9, 0⟩ 5))).toView (fun _ => true)
        regTestParams (some UTXOMuHashState.empty) = .ok (.ok (), view') := by
  refine ⟨_, _, _, rfl, rfl, rfl, ?_⟩
  have h := (attestation_agrees sampleMuHash sampleHashes regTestParams (fun _ => true)
    (.db (sampleDB ⟨Uint256.ofByte 9, 0⟩ 5)) UTXOMuHashState.empty).1 ⟨[OP_1], true⟩ sampleInput _ _
    (by decide) (by decide) rfl
  exact h.2 _ _ ⟨_, _, _, rfl, rfl, List.rotate_perm _ 2, rfl⟩ (SameView.refl _)

end ElektronNet
