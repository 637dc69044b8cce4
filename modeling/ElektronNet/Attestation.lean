import ElektronNet.ConsensusParams
import ElektronNet.Coins.Update

/-!
# The UTXO attestation of a coinbase

Every block above the genesis carries in its coinbase an output `OP_RETURN <height> <32 bytes>`
with a hash of the UTXO set that the block leaves.  The functions of `validation.cpp` that build,
read and check it:

* `isCoinbaseUTXOAttestationOutput`, `stripAttestationOutput`, `extractCoinbaseUTXOAttestation`
* `computeBlockUTXOAttestationHash`   by updating a copy of the accumulator, or by hashing the
                                      whole set, as the height says
* `regenerateUTXOAttestation`, `validateUTXOCheckpoint`

The hash is computed for the coinbase without the output that will carry it, so both sides strip
first: the transactions that are hashed are `strippedTxs`.  Lookups may leave clean entries in the
caches under the base view, so the functions hand that view back.
-/

namespace ElektronNet

open List Outcome

/-! ## reading and writing the output -/

/-- the number pushed by an opcode with the operand `data`; `none` where the output is passed over -/
def attestationHeight (opcode : UInt8) (data : Bytes) : Option Int :=
  if opcode = OP_0 then some 0
  else if OP_1 ≤ opcode ∧ opcode ≤ OP_16 then some (opcode.toNat - (OP_1.toNat - 1))
  else if data ≠ [] then (scriptNum data true 5).map getint
  else none

/-- the height and the third operand of a script `OP_RETURN <height> <data> ..` -/
def readAttestation (script : CScript) : Option (Int × Bytes) :=
  match getScriptOp script with
  | none => none
  | some (opcode, _, pc) =>
    if opcode ≠ OP_RETURN then none
    else
      match getScriptOp pc with
      | none => none
      | some (opcode, data, pc) =>
        match attestationHeight opcode data with
        | none => none
        | some attestation_height =>
          match getScriptOp pc with
          | none => none
          | some (_, data, _) => some (attestation_height, data)

def isCoinbaseUTXOAttestationOutput (out : CTxOut) (nHeight : Nat) : Bool :=
  match readAttestation out.scriptPubKey with
  | none => false
  | some (attestation_height, data) => attestation_height == (nHeight : Int) && data.length == 32

def stripAttestationOutput (tx : CTransaction) (nHeight : Nat) : Option CTransaction :=
  if tx.isCoinBase then
    some { tx with vout := tx.vout.filter fun out => !isCoinbaseUTXOAttestationOutput out nHeight }
  else none

def attestedHash (nHeight : Nat) (out : CTxOut) : Option Uint256 :=
  match readAttestation out.scriptPubKey with
  | none => none
  | some (attestation_height, data) =>
    if size_eq : data.length = 32 then
      if attestation_height = (nHeight : Int) then some ⟨data, size_eq⟩ else none
    else none

def extractCoinbaseUTXOAttestation (coinbase : CTransaction) (nHeight : Nat) : Option Uint256 :=
  coinbase.vout.findSome? (attestedHash nHeight)

/-- `OP_RETURN <height> <hash>` with value zero -/
def attestationOutput (nHeight : Nat) (hash : Uint256) : CTxOut :=
  ⟨0, OP_RETURN :: (pushInt64 nHeight ++ pushData hash.data)⟩

/-! ## computing the hash -/

/-- the transactions of a block as the template had them when the hash was computed -/
def strippedTxs (vtx : List CTransaction) (nHeight : Nat) : List CTransaction :=
  vtx.map fun tx => (stripAttestationOutput tx nHeight).getD tx

section
variable {G : Type} [CommGroup G] (M : MuHash G) (H : Hashes)

/-- the input loop of the incremental path; `none` for a missing coin -/
def attestInputs (fix_active : Bool) : List CTxIn → UTXOMuHashState G → CCoinsViewCache →
    Option (UTXOMuHashState G) × CCoinsViewCache
  | [], candidate, lookup_view => (some candidate, lookup_view)
  | txin :: vin, candidate, lookup_view =>
    let coin := lookup_view.accessCoin txin.prevout
    let lookup_view := lookup_view.fetchCoin txin.prevout
    if coin.isSpent then (none, lookup_view)
    else
      attestInputs fix_active vin (candidate.removeCoin M txin.prevout coin)
        (if fix_active then (lookup_view.spendCoin txin.prevout).2 else lookup_view)

def attestOutputs (fix_active : Bool) (txid : Uint256) (nHeight : Nat) (fCoinBase : Bool) :
    Nat → List CTxOut → UTXOMuHashState G → CCoinsViewCache →
      Except Fault (UTXOMuHashState G × CCoinsViewCache)
  | _, [], candidate, lookup_view => pure (candidate, lookup_view)
  | o, out :: outs, candidate, lookup_view =>
    if isUnspendable out.scriptPubKey then
      attestOutputs fix_active txid nHeight fCoinBase (o + 1) outs candidate lookup_view
    else do
      let new_coin : Coin := ⟨out, fCoinBase, nHeight⟩
      let candidate := candidate.addCoin M ⟨txid, o⟩ new_coin
      let lookup_view ←
        bif fix_active then lookup_view.addCoin ⟨txid, o⟩ new_coin false else pure lookup_view
      attestOutputs fix_active txid nHeight fCoinBase (o + 1) outs candidate lookup_view

/-- the transaction loop of the incremental path -/
def attestTxs (fix_active : Bool) (nHeight : Nat) : List CTransaction → UTXOMuHashState G →
    CCoinsViewCache → Except Fault (Option (UTXOMuHashState G) × CCoinsViewCache)
  | [], candidate, lookup_view => pure (some candidate, lookup_view)
  | tx :: txs, candidate, lookup_view =>
    match (if tx.isCoinBase then (some candidate, lookup_view)
        else attestInputs M fix_active tx.vin candidate lookup_view) with
    | (none, lookup_view) => pure (none, lookup_view) -- "should not happen; inputs were already checked"
    | (some candidate, lookup_view) => do
      let r ← attestOutputs M fix_active (H.txid tx) nHeight tx.isCoinBase 0 tx.vout candidate
        lookup_view
      attestTxs fix_active nHeight txs r.1 r.2

def updateCoinsAll (nHeight : Nat) : List CTransaction → CCoinsViewCache →
    Except Fault CCoinsViewCache
  | [], view => pure view
  | tx :: txs, view => do
    let r ← updateCoins H tx view nHeight
    updateCoinsAll nHeight txs r.2

/-- `known h`: the block index has an entry for `h` -/
def computeBlockUTXOAttestationHash (block : CBlock) (nHeight : Nat) (base_view : CCoinsView)
    (known : Uint256 → Bool) (params : ConsensusParams) (tip_muhash : Option (UTXOMuHashState G)) :
    Except Fault (Option Uint256 × CCoinsView) :=
  let txs := strippedTxs block.vtx nHeight
  match (if isMuhashAttestationActive nHeight params then tip_muhash else none) with
  | some tip_muhash => do
    let r ← attestTxs M H (isIntraBlockAttestationFixActive nHeight params) nHeight txs tip_muhash
      (CCoinsViewCache.new base_view)
    pure (r.1.map (UTXOMuHashState.getHash M), r.2.base)
  | none => do
    let view ← updateCoinsAll H nHeight txs (CCoinsViewCache.new base_view)
    pure ((computeUTXOStats M .HASH_SERIALIZED view.toView known).map (·.hashSerialized),
      view.loadBestBlock.base)

/-! ## embedding and checking the hash -/

def CBlock.withCoinbase (block : CBlock) (coinbase : CTransaction) : CBlock :=
  { block with vtx := coinbase :: block.vtx.tail }

def CBlock.appendCoinbaseOutput (block : CBlock) (out : CTxOut) : CBlock :=
  match block.vtx with
  | [] => block
  | coinbase :: _ => block.withCoinbase { coinbase with vout := coinbase.vout ++ [out] }

/-- `none`: returns false -/
def regenerateUTXOAttestation (block : CBlock) (nHeight : Nat) (coinsTip : CCoinsView)
    (known : Uint256 → Bool) (params : ConsensusParams) (utxoMuHash : UTXOMuHashState G) :
    Except Fault (Option CBlock × CCoinsView) :=
  if nHeight = 0 then pure (some block, coinsTip) -- genesis has no attestation
  else
    match block.vtx with
    | [] => throw (.assertion "!block.vtx.empty() && block.vtx[0]->IsCoinBase()")
    | coinbase :: _ =>
      match stripAttestationOutput coinbase nHeight with
      | none => throw (.assertion "!block.vtx.empty() && block.vtx[0]->IsCoinBase()")
      | some stripped => do
        let block := block.withCoinbase stripped
        let r ← computeBlockUTXOAttestationHash M H block nHeight coinsTip known params
          (some utxoMuHash)
        match r.1 with
        | none => pure (none, r.2)
        | some hash =>
          let block := block.appendCoinbaseOutput (attestationOutput nHeight hash)
          pure (some { block with hashMerkleRoot := H.blockMerkleRoot block }, r.2)

def backend : CCoinsView → CCoinsView
  | .cache _ base => base
  | .db d => .db d

def withBackend : CCoinsView → CCoinsView → CCoinsView
  | .cache l _, base => .cache l base
  | .db _, base => base

def validateUTXOCheckpoint (block : CBlock) (nHeight : Nat) (view : CCoinsView)
    (known : Uint256 → Bool) (params : ConsensusParams) (tip_muhash : Option (UTXOMuHashState G)) :
    Except Fault (Except Invalid Unit × CCoinsView) :=
  if nHeight = 0 then pure (.ok (), view) -- genesis has no attestation
  else
    match block.vtx with
    | [] => throw (.assertion "block.vtx[0]")
    | coinbase :: _ =>
      match extractCoinbaseUTXOAttestation coinbase nHeight with
      | none =>
        pure (.error ⟨"missing-utxo-attestation",
          "Missing UTXO attestation at height " ++ toString nHeight⟩, view)
      | some attestation_hash => do
        let r ← computeBlockUTXOAttestationHash M H block nHeight (backend view) known params
          tip_muhash
        match r.1 with
        | none => pure (.error ⟨"bad-utxo-attestation-compute", ""⟩, withBackend view r.2)
        | some computed_hash =>
          if computed_hash ≠ attestation_hash then
            pure (.error ⟨"bad-utxo-attestation",
              "UTXO attestation mismatch at height " ++ toString nHeight ++ ": expected " ++
                attestation_hash.toString ++ ", got " ++ computed_hash.toString⟩,
              withBackend view r.2)
          else pure (.ok (), withBackend view r.2)

end

/-! ## what is written is read back -/

variable {n nHeight : Nat}

theorem serialize_ne_nil (hn : n ≠ 0) : serialize n ≠ [] := by
  rcases serialize_cases hn with ⟨e, -⟩ | ⟨e, -⟩ <;> rw [e]
  · exact LittleEndian.digits_ne_nil hn
  · simp

theorem attestationHeight_small (h1 : 1 ≤ n) (h16 : n ≤ 16) :
    attestationHeight (UInt8.ofNat (n + 80)) [] = some (n : Int) := by
  have hb : (UInt8.ofNat (n + 80)).toNat = n + 80 := UInt8.toNat_ofNat_of_lt (show _ < 256 by omega)
  have h0 : UInt8.ofNat (n + 80) ≠ OP_0 := by
    intro e
    have e' := congrArg UInt8.toNat e
    rw [show OP_0.toNat = 0 from rfl] at e'
    omega
  have hr : OP_1 ≤ UInt8.ofNat (n + 80) ∧ UInt8.ofNat (n + 80) ≤ OP_16 := by
    rw [UInt8.le_iff_toNat_le, UInt8.le_iff_toNat_le]
    simp only [OP_1, OP_16, UInt8.toNat_ofNat]
    omega
  rw [attestationHeight, if_neg h0, if_pos hr, hb]
  simp [OP_1]

theorem attestationHeight_pushed (h1 : n ≠ 0) (h : n < 2 ^ 31) :
    attestationHeight (UInt8.ofNat (serialize n).length) (serialize n) = some (n : Int) := by
  have hlen : (serialize n).length ≤ 5 := length_serialize_le (w := 4) (by omega)
  have hpos : 0 < (serialize n).length := length_pos_iff.mpr (serialize_ne_nil h1)
  have hb : (UInt8.ofNat (serialize n).length).toNat = (serialize n).length :=
    UInt8.toNat_ofNat_of_lt (show _ < 256 by omega)
  have h0 : UInt8.ofNat (serialize n).length ≠ OP_0 := by
    intro e
    have e' := congrArg UInt8.toNat e
    rw [show OP_0.toNat = 0 from rfl] at e'
    omega
  have hr : ¬ (OP_1 ≤ UInt8.ofNat (serialize n).length ∧
      UInt8.ofNat (serialize n).length ≤ OP_16) := by
    rw [UInt8.le_iff_toNat_le]
    simp only [OP_1, UInt8.toNat_ofNat]
    omega
  have hnum : scriptNum (serialize n) true 5 = some (n : Int) := scriptNum_serialize (w := 4) (by omega)
  have hint : getint (n : Int) = n := by
    rw [getint, if_neg (by omega), if_neg (by omega)]
  rw [attestationHeight, if_neg h0, if_neg hr, if_pos (serialize_ne_nil h1), hnum, Option.map_some, hint]

theorem getScriptOp_pushInt64 (h1 : 1 ≤ n) (h : n < 2 ^ 31) (rest : Bytes) :
    ∃ opcode data, getScriptOp (pushInt64 n ++ rest) = some (opcode, data, rest) ∧
      attestationHeight opcode data = some (n : Int) := by
  by_cases h16 : n ≤ 16
  · have hb : (UInt8.ofNat (n + 80)).toNat = n + 80 := UInt8.toNat_ofNat_of_lt (show _ < 256 by omega)
    have hpush : pushInt64 n = [UInt8.ofNat (n + 80)] := by
      rw [pushInt64, if_pos (by omega)]
      congr 2
    have hgt : OP_PUSHDATA4 < UInt8.ofNat (n + 80) := by
      rw [UInt8.lt_iff_toNat_lt]
      simp only [OP_PUSHDATA4, UInt8.toNat_ofNat]
      omega
    exact ⟨_, _, by rw [hpush]; exact getScriptOp_opcode hgt rest, attestationHeight_small h1 h16⟩
  · have hlen : (serialize n).length ≤ 5 := length_serialize_le (w := 4) (by omega)
    have hpush : pushInt64 n = pushData (serialize n) := by
      rw [pushInt64, if_neg (by omega), if_neg (by omega)]
    exact ⟨_, _, by rw [hpush]; exact getScriptOp_pushData (by omega) rest,
      attestationHeight_pushed (by omega) h⟩

section
variable (h1 : 1 ≤ nHeight) (h : nHeight < 2 ^ 31) (hash : Uint256)
include h1 h hash

/-- **the attestation output reads back as its height and its hash** -/
theorem readAttestation_attestationOutput :
    readAttestation (attestationOutput nHeight hash).scriptPubKey = some ((nHeight : Int), hash.data) := by
  obtain ⟨opcode, data, hop, hheight⟩ := getScriptOp_pushInt64 h1 h (pushData hash.data)
  have hret : getScriptOp (attestationOutput nHeight hash).scriptPubKey =
      some (OP_RETURN, [], pushInt64 nHeight ++ pushData hash.data) :=
    getScriptOp_opcode (by decide) _
  have hdata := getScriptOp_pushData (b := hash.data) (by rw [hash.size_eq]; norm_num) []
  rw [append_nil] at hdata
  simp only [readAttestation, hret, hop, hheight, hdata, ne_eq, not_true, if_false]

theorem isCoinbaseUTXOAttestationOutput_attestationOutput :
    isCoinbaseUTXOAttestationOutput (attestationOutput nHeight hash) nHeight = true := by
  rw [isCoinbaseUTXOAttestationOutput, readAttestation_attestationOutput h1 h]
  simp [hash.size_eq]

theorem attestedHash_attestationOutput :
    attestedHash nHeight (attestationOutput nHeight hash) = some hash := by
  rw [attestedHash, readAttestation_attestationOutput h1 h]
  simp [hash.size_eq]

end

theorem attestedHash_isSome (nHeight : Nat) (out : CTxOut) :
    (attestedHash nHeight out).isSome = isCoinbaseUTXOAttestationOutput out nHeight := by
  rw [attestedHash, isCoinbaseUTXOAttestationOutput]
  cases readAttestation out.scriptPubKey with
  | none => rfl
  | some r =>
    obtain ⟨height, data⟩ := r
    by_cases hs : data.length = 32
    · by_cases hh : height = (nHeight : Int) <;> simp [hs, hh]
    · simp [hs]

theorem attestedHash_eq_none {out : CTxOut} (h : isCoinbaseUTXOAttestationOutput out nHeight = false) :
    attestedHash nHeight out = none := by
  rw [← attestedHash_isSome] at h
  simpa using h

theorem attestedHash_other {other : Nat} (h1 : 1 ≤ nHeight) (h : nHeight < 2 ^ 31) (hash : Uint256)
    (hne : other ≠ nHeight) : attestedHash other (attestationOutput nHeight hash) = none := by
  have hno : ¬ ((nHeight : Int) = (other : Int)) := by omega
  rw [attestedHash, readAttestation_attestationOutput h1 h]
  show (if size_eq : hash.data.length = 32 then _ else _) = none
  rw [dif_pos hash.size_eq, if_neg hno]

/-- **something is extracted exactly if an output attests at the height** -/
theorem extract_isSome_iff (tx : CTransaction) (nHeight : Nat) :
    (extractCoinbaseUTXOAttestation tx nHeight).isSome = true ↔
      ∃ out ∈ tx.vout, isCoinbaseUTXOAttestationOutput out nHeight = true := by
  rw [extractCoinbaseUTXOAttestation, findSome?_isSome_iff]
  constructor
  · rintro ⟨out, hmem, hsome⟩
    exact ⟨out, hmem, by rw [← attestedHash_isSome]; exact hsome⟩
  · rintro ⟨out, hmem, hout⟩
    exact ⟨out, hmem, by rw [attestedHash_isSome]; exact hout⟩

theorem extract_eq_none_iff (tx : CTransaction) (nHeight : Nat) :
    extractCoinbaseUTXOAttestation tx nHeight = none ↔
      ∀ out ∈ tx.vout, isCoinbaseUTXOAttestationOutput out nHeight = false := by
  rw [← Option.not_isSome_iff_eq_none, extract_isSome_iff, not_exists]
  refine forall_congr' fun out => ?_
  rw [not_and, Bool.not_eq_true]

/-! ## stripping -/

theorem strippedTxs_cons (tx : CTransaction) (txs : List CTransaction) (nHeight : Nat) :
    strippedTxs (tx :: txs) nHeight =
      (stripAttestationOutput tx nHeight).getD tx :: strippedTxs txs nHeight := rfl

theorem stripAttestationOutput_coinBase (tx : CTransaction) (h : tx.isCoinBase = true) (nHeight : Nat) :
    stripAttestationOutput tx nHeight =
      some { tx with vout := tx.vout.filter fun out => !isCoinbaseUTXOAttestationOutput out nHeight } :=
  if_pos h

theorem stripAttestationOutput_insert {tx : CTransaction} (hcb : tx.isCoinBase = true)
    {pre post : List CTxOut} {out : CTxOut} (hvout : tx.vout = pre ++ post)
    (hclean : ∀ out ∈ tx.vout, isCoinbaseUTXOAttestationOutput out nHeight = false)
    (hout : isCoinbaseUTXOAttestationOutput out nHeight = true) :
    stripAttestationOutput { tx with vout := pre ++ out :: post } nHeight = some tx := by
  have hkeep : ∀ l : List CTxOut, (∀ out ∈ l, isCoinbaseUTXOAttestationOutput out nHeight = false) →
      l.filter (fun out => !isCoinbaseUTXOAttestationOutput out nHeight) = l := by
    intro l hl
    rw [filter_eq_self]
    intro a ha
    rw [hl a ha]
    rfl
  rw [stripAttestationOutput_coinBase { tx with vout := pre ++ out :: post } hcb]
  simp only [filter_append, filter_cons, hout, Bool.not_true, Bool.false_eq_true, if_false]
  rw [hkeep pre fun a ha => hclean a (by rw [hvout]; exact mem_append_left _ ha),
    hkeep post fun a ha => hclean a (by rw [hvout]; exact mem_append_right _ ha), ← hvout]

theorem strip_clean {tx stripped : CTransaction}
    (h : stripAttestationOutput tx nHeight = some stripped) :
    stripped.isCoinBase = true ∧
      ∀ out ∈ stripped.vout, isCoinbaseUTXOAttestationOutput out nHeight = false := by
  unfold stripAttestationOutput at h
  split at h
  · rename_i hcb
    cases h
    refine ⟨hcb, fun out hout => ?_⟩
    simpa using (mem_filter.mp hout).2
  · cases h

theorem extract_insert {tx : CTransaction} {pre post : List CTxOut} {hash : Uint256}
    (h1 : 1 ≤ nHeight) (h : nHeight < 2 ^ 31)
    (hclean : ∀ out ∈ pre, isCoinbaseUTXOAttestationOutput out nHeight = false) :
    extractCoinbaseUTXOAttestation
      { tx with vout := pre ++ attestationOutput nHeight hash :: post } nHeight = some hash := by
  have hpre : pre.findSome? (attestedHash nHeight) = none :=
    findSome?_eq_none_iff.mpr fun out hout => attestedHash_eq_none (hclean out hout)
  rw [extractCoinbaseUTXOAttestation, findSome?_append, hpre, Option.none_or,
    findSome?_cons, attestedHash_attestationOutput h1 h]

/-! ## the hash depends on the shown coins only

Over another cache with the same entries and a base that shows the same, each function does the same; and
the base keeps what it shows. -/

theorem spendInputs_same {vin : List CTxIn} {c c' d : CCoinsViewCache} {coins : List Coin}
    (h : SameTop c c') (hd : spendInputs vin c = .ok (coins, d)) :
    (∃ d', spendInputs vin c' = .ok (coins, d') ∧ SameTop d d') ∧ SameStack c.base d.base := by
  induction vin generalizing c c' coins with
  | nil =>
    obtain ⟨rfl, rfl⟩ := Prod.mk.inj (Except.ok.inj hd)
    exact ⟨⟨c', rfl, h⟩, .refl _⟩
  | cons txin vin ih =>
    obtain ⟨hr, hs⟩ := h.spendCoin txin.prevout
    have hbase := CCoinsViewCache.sameStack_spendCoin c txin.prevout
    rw [spendInputs] at hd ⊢
    cases hc : c.spendCoin txin.prevout with
    | mk r c₁ =>
      cases hc' : c'.spendCoin txin.prevout with
      | mk r' c₁' =>
        rw [hc, hc'] at hr hs
        rw [hc] at hbase hd
        obtain rfl : r = r' := hr
        cases r with
        | none => cases hd
        | some coin =>
          obtain ⟨⟨rest, d₁⟩, h₁, h₂⟩ := bind_eq_ok.mp hd
          obtain ⟨rfl, rfl⟩ := Prod.mk.inj (pure_eq_ok.mp h₂)
          obtain ⟨⟨d', hd', hsame⟩, hrest⟩ := ih hs h₁
          refine ⟨⟨d', ?_, hsame⟩, hbase.trans hrest⟩
          simp only
          rw [hd']
          rfl

theorem addCoinsFrom_same {txid : Uint256} {cb : Bool} {i : Nat} {outs : List CTxOut}
    {c c' d : CCoinsViewCache} (h : SameTop c c')
    (hd : addCoinsFrom txid nHeight cb false i outs c = .ok d) :
    (∃ d', addCoinsFrom txid nHeight cb false i outs c' = .ok d' ∧ SameTop d d') ∧ d.base = c.base := by
  induction outs generalizing i c c' with
  | nil =>
    cases hd
    exact ⟨⟨c', rfl, h⟩, rfl⟩
  | cons out outs ih =>
    obtain ⟨c₁, h₁, h₂⟩ := bind_eq_ok.mp hd
    obtain ⟨c₁', h₁', hs⟩ := h.addCoin h₁
    obtain ⟨⟨d', hd', hsame⟩, hbase⟩ := ih hs h₂
    exact ⟨⟨d', bind_eq_ok.mpr ⟨c₁', h₁', hd'⟩, hsame⟩, hbase.trans (addCoin_base h₁)⟩

section
variable {G : Type} [CommGroup G] {M : MuHash G} {H : Hashes}

variable {nHeight : Nat} {c c' d : CCoinsViewCache} {txs : List CTransaction} {fix_active cb : Bool}
  {s : UTXOMuHashState G} {txid : Uint256} {outs : List CTxOut}

theorem updateCoins_same {tx : CTransaction} {r : CTxUndo × CCoinsViewCache} (h : SameTop c c')
    (hr : updateCoins H tx c nHeight = .ok r) :
    (∃ r', updateCoins H tx c' nHeight = .ok r' ∧ SameTop r.2 r'.2) ∧ SameStack c.base r.2.base := by
  obtain ⟨⟨coins, c₁⟩, h₁, h₂⟩ := bind_eq_ok.mp hr
  obtain ⟨c₂, h₃, h₄⟩ := bind_eq_ok.mp h₂
  obtain rfl := pure_eq_ok.mp h₄
  have hspend : (∃ c₁', spendTxInputs tx c' = .ok (coins, c₁') ∧ SameTop c₁ c₁') ∧
      SameStack c.base c₁.base := by
    unfold spendTxInputs at h₁ ⊢
    split at h₁
    · rename_i hcb
      obtain ⟨rfl, rfl⟩ := Prod.mk.inj (pure_eq_ok.mp h₁)
      exact ⟨⟨c', if_pos hcb, h⟩, .refl _⟩
    · rename_i hcb
      rw [if_neg hcb]
      exact spendInputs_same h h₁
  obtain ⟨⟨c₁', h₁', hs₁⟩, hbase₁⟩ := hspend
  obtain ⟨⟨c₂', h₃', hs₂⟩, hbase₂⟩ := addCoinsFrom_same hs₁ h₃
  exact ⟨⟨(⟨coins⟩, c₂'), bind_eq_ok.mpr ⟨_, h₁', bind_eq_ok.mpr ⟨_, h₃', rfl⟩⟩, hs₂⟩, hbase₂ ▸ hbase₁⟩

theorem updateCoinsAll_same (h : SameTop c c') (hd : updateCoinsAll H nHeight txs c = .ok d) :
    (∃ d', updateCoinsAll H nHeight txs c' = .ok d' ∧ SameTop d d') ∧ SameStack c.base d.base := by
  induction txs generalizing c c' with
  | nil =>
    cases hd
    exact ⟨⟨c', rfl, h⟩, .refl _⟩
  | cons tx txs ih =>
    obtain ⟨r, h₁, h₂⟩ := bind_eq_ok.mp hd
    obtain ⟨⟨r', h₁', hs⟩, hbase⟩ := updateCoins_same h h₁
    obtain ⟨⟨d', hd', hsame⟩, hrest⟩ := ih hs h₂
    exact ⟨⟨d', bind_eq_ok.mpr ⟨r', h₁', hd'⟩, hsame⟩, hbase.trans hrest⟩

theorem attestInputs_same {vin : List CTxIn} (h : SameTop c c') :
    (attestInputs M fix_active vin s c).1 = (attestInputs M fix_active vin s c').1 ∧
      SameTop (attestInputs M fix_active vin s c).2 (attestInputs M fix_active vin s c').2 ∧
      SameStack c.base (attestInputs M fix_active vin s c).2.base := by
  induction vin generalizing s c c' with
  | nil => exact ⟨rfl, h, .refl _⟩
  | cons txin vin ih =>
    have hf := h.fetchCoin txin.prevout
    have hbase := CCoinsViewCache.sameStack_fetchCoin c txin.prevout
    simp only [attestInputs]
    rw [← h.accessCoin txin.prevout]
    split
    · exact ⟨rfl, hf, hbase⟩
    · cases fix_active with
      | false =>
        obtain ⟨hr, hs, hrest⟩ := ih hf
        exact ⟨hr, hs, hbase.trans hrest⟩
      | true =>
        obtain ⟨hr, hs, hrest⟩ := ih (hf.spendCoin txin.prevout).2
        exact ⟨hr, hs, (hbase.trans (CCoinsViewCache.sameStack_spendCoin _ _)).trans hrest⟩

theorem attestOutputs_same {o : Nat} {r : UTXOMuHashState G × CCoinsViewCache} (h : SameTop c c')
    (hr : attestOutputs M fix_active txid nHeight cb o outs s c = .ok r) :
    (∃ d', attestOutputs M fix_active txid nHeight cb o outs s c' = .ok (r.1, d') ∧
      SameTop r.2 d') ∧ r.2.base = c.base := by
  induction outs generalizing o s c c' with
  | nil =>
    cases hr
    exact ⟨⟨c', rfl, h⟩, rfl⟩
  | cons out outs ih =>
    rw [attestOutputs] at hr ⊢
    split at hr
    · rename_i hu
      rw [if_pos hu]
      exact ih h hr
    · rename_i hu
      rw [if_neg hu]
      obtain ⟨c₁, h₁, h₂⟩ := bind_eq_ok.mp hr
      have hstep : (∃ c₁', (bif fix_active then c'.addCoin ⟨txid, o⟩ ⟨out, cb, nHeight⟩ false
          else pure c') = Except.ok c₁' ∧ SameTop c₁ c₁') ∧ c₁.base = c.base := by
        cases fix_active with
        | true => exact ⟨h.addCoin h₁, addCoin_base h₁⟩
        | false =>
          cases h₁
          exact ⟨⟨c', rfl, h⟩, rfl⟩
      obtain ⟨⟨c₁', h₁', hs⟩, hbase⟩ := hstep
      obtain ⟨⟨d', hd', hsame⟩, hrest⟩ := ih hs h₂
      exact ⟨⟨d', bind_eq_ok.mpr ⟨c₁', h₁', hd'⟩, hsame⟩, hrest.trans hbase⟩

theorem attestTxs_same {r : Option (UTXOMuHashState G) × CCoinsViewCache} (h : SameTop c c')
    (hr : attestTxs M H fix_active nHeight txs s c = .ok r) :
    (∃ d', attestTxs M H fix_active nHeight txs s c' = .ok (r.1, d') ∧ SameTop r.2 d') ∧
      SameStack c.base r.2.base := by
  induction txs generalizing s c c' with
  | nil =>
    cases hr
    exact ⟨⟨c', rfl, h⟩, .refl _⟩
  | cons tx txs ih =>
    have hin : (if tx.isCoinBase then (some s, c) else attestInputs M fix_active tx.vin s c).1 =
          (if tx.isCoinBase then (some s, c') else attestInputs M fix_active tx.vin s c').1 ∧
        SameTop (if tx.isCoinBase then (some s, c) else attestInputs M fix_active tx.vin s c).2
          (if tx.isCoinBase then (some s, c') else attestInputs M fix_active tx.vin s c').2 ∧
        SameStack c.base
          (if tx.isCoinBase then (some s, c) else attestInputs M fix_active tx.vin s c).2.base := by
      split
      · exact ⟨rfl, h, .refl _⟩
      · exact attestInputs_same h
    rw [attestTxs] at hr ⊢
    generalize (if tx.isCoinBase then (some s, c) else attestInputs M fix_active tx.vin s c) = a
      at hin hr
    generalize (if tx.isCoinBase then (some s, c') else attestInputs M fix_active tx.vin s c') = a'
      at hin ⊢
    obtain ⟨a, c₁⟩ := a
    obtain ⟨a', c₁'⟩ := a'
    obtain ⟨rfl, hs, hbase⟩ : a = a' ∧ SameTop c₁ c₁' ∧ SameStack c.base c₁.base := hin
    cases a with
    | none =>
      cases hr
      exact ⟨⟨c₁', rfl, hs⟩, hbase⟩
    | some s₁ =>
      obtain ⟨⟨s₂, c₂⟩, h₁, h₂⟩ := bind_eq_ok.mp hr
      obtain ⟨⟨c₂', h₁', hs₂⟩, hout⟩ := attestOutputs_same hs h₁
      obtain ⟨⟨d', hd', hsame⟩, hrest⟩ := ih hs₂ h₂
      exact ⟨⟨d', bind_eq_ok.mpr ⟨(s₂, c₂'), h₁', hd'⟩, hsame⟩, hbase.trans (hout ▸ hrest)⟩

/-- **the computed hash depends on the base view only through the coins and the best block it
shows, and on the block only through its stripped transactions** -/
theorem computeBlockUTXOAttestationHash_same {block block' : CBlock} {v v' : CCoinsView}
    {known : Uint256 → Bool} {params : ConsensusParams} {tip_muhash : Option (UTXOMuHashState G)}
    {r : Option Uint256 × CCoinsView} (hv : SameView v v')
    (htx : strippedTxs block'.vtx nHeight = strippedTxs block.vtx nHeight)
    (hr : computeBlockUTXOAttestationHash M H block nHeight v known params tip_muhash = .ok r) :
    ∃ w, computeBlockUTXOAttestationHash M H block' nHeight v' known params tip_muhash =
      .ok (r.1, w) := by
  unfold computeBlockUTXOAttestationHash at hr ⊢
  simp only [htx] at hr ⊢
  split at hr
  · obtain ⟨⟨a, d⟩, h₁, h₂⟩ := bind_eq_ok.mp hr
    obtain rfl := pure_eq_ok.mp h₂
    obtain ⟨⟨d', h₁', -⟩, -⟩ := attestTxs_same (SameTop.new hv) h₁
    exact ⟨_, bind_eq_ok.mpr ⟨_, h₁', rfl⟩⟩
  · obtain ⟨d, h₁, h₂⟩ := bind_eq_ok.mp hr
    obtain rfl := pure_eq_ok.mp h₂
    obtain ⟨⟨d', h₁', hs⟩, -⟩ := updateCoinsAll_same (SameTop.new hv) h₁
    have hutxos : d.toView.fetchEffectiveUTXOs = d'.toView.fetchEffectiveUTXOs := hs.utxos_eq
    refine ⟨d'.loadBestBlock.base, bind_eq_ok.mpr ⟨_, h₁', ?_⟩⟩
    rw [computeUTXOStats, computeUTXOStats, hutxos, hs.toView.best]
    rfl

theorem computeBlockUTXOAttestationHash_base {block : CBlock} {v : CCoinsView}
    {known : Uint256 → Bool} {params : ConsensusParams} {tip_muhash : Option (UTXOMuHashState G)}
    {r : Option Uint256 × CCoinsView}
    (hr : computeBlockUTXOAttestationHash M H block nHeight v known params tip_muhash = .ok r) :
    SameStack v r.2 := by
  unfold computeBlockUTXOAttestationHash at hr
  split at hr
  · obtain ⟨a, h₁, h₂⟩ := bind_eq_ok.mp hr
    obtain rfl := pure_eq_ok.mp h₂
    exact (attestTxs_same (SameTop.refl _) h₁).2
  · obtain ⟨d, h₁, h₂⟩ := bind_eq_ok.mp hr
    obtain rfl := pure_eq_ok.mp h₂
    have hd := (updateCoinsAll_same (SameTop.refl _) h₁).2
    show SameStack v d.loadBestBlock.base
    rw [CCoinsViewCache.loadBestBlock]
    split
    · exact hd.trans (sameStack_loadBestBlock _)
    · exact hd

end

end ElektronNet
