import ElektronNet.Attestation
import ElektronNet.TxVerify

/-!
# The incremental attestation is the full one

Where the accumulator is used and the intra-block fix is active, the attested hash is computed by
stepping a copy of the accumulator through the block.  Here that is compared with applying the
stripped block to the coins and hashing the whole set.

* `attestTxs_spec`         the loop keeps the lookup view on the coins, and the accumulator takes
                           the steps `accTxs`
* `updateCoinsAll_spec`    the full way, on the same coins
* `MatureIn nHeight m m'`  every coin of `m` that may be spent at `nHeight` stands in `m'` too

The block is checked with its real coinbase and hashed with the stripped one, whose outputs have
other outpoints.  No transaction of the block can spend either, since they are immature, so what
was checked still holds of the stripped block (`blockSpends_of_checks`).
-/

namespace ElektronNet

open CCoinsViewCache

/-! ## the two loops -/

section
variable {G : Type} [CommGroup G] (M : MuHash G) (H : Hashes)

variable {c : CCoinsViewCache} {txs : List CTransaction} {m : Utxos}

theorem attestInputs_spec {vin : List CTxIn} (hc : c.Ok)
    (hin : InputsPresent vin c.utxos) (s : UTXOMuHashState G) :
    ∃ c', attestInputs M true vin s c = (some (removeAll M vin (spentCoins vin c.utxos) s), c') ∧
      Steps c c' (spendAll vin c.utxos) := by
  induction vin generalizing c s with
  | nil => exact ⟨c, rfl, Steps.refl hc⟩
  | cons txin vin ih =>
    obtain ⟨coin, hcoin⟩ := Option.isSome_iff_exists.mp hin.1
    have hpeek : c.peek txin.prevout = some coin := (utxos_get c _).symm.trans hcoin
    have hunspent : coin.isSpent = false := peekCoin_unspent hpeek
    have hf := steps_fetchCoin hc txin.prevout
    cases hsp : (c.fetchCoin txin.prevout).spendCoin txin.prevout with
    | mk r c₁ =>
      obtain ⟨hok, hut, hh, hb, -, -⟩ := spendCoin_spec hf.ok hsp
      rw [hf.utxos] at hut
      have hstep : Steps c c₁ (c.utxos.erase txin.prevout) := hf.trans ⟨hok, hut, hh, hb⟩
      obtain ⟨c', h', hrest⟩ := ih hok (hut ▸ hin.2) (s.removeCoin M txin.prevout coin)
      rw [hut] at h' hrest
      refine ⟨c', ?_, hstep.trans hrest⟩
      rw [attestInputs, accessCoin_eq hc, hpeek, Option.getD_some]
      simp only [hunspent, Bool.false_eq_true, if_false, if_true, hsp]
      rw [h', spentCoins, hcoin]
      rfl

theorem attestOutputs_spec (nHeight : Nat) (cb : Bool) {txid : Uint256} {i : Nat}
    {outs : List CTxOut} (hc : c.Ok)
    (hnull : ∀ out ∈ outs, out.isNull = false) (hfresh : OutputsFresh c.utxos txid i outs)
    (s : UTXOMuHashState G) :
    ∃ c', attestOutputs M true txid nHeight cb i outs s c =
        .ok (addAllFrom M txid nHeight cb i outs s, c') ∧
      Steps c c' (createFrom txid nHeight cb i outs c.utxos) := by
  induction outs generalizing i c s with
  | nil => exact ⟨c, rfl, Steps.refl hc⟩
  | cons out outs ih =>
    have hnull' : ∀ out ∈ outs, out.isNull = false := fun o ho => hnull o (List.mem_cons_of_mem _ ho)
    have htail := outputsFresh_tail hfresh (⟨out, cb, nHeight⟩ : Coin)
    cases hu : isUnspendable out.scriptPubKey with
    | true =>
      rw [hu] at htail
      obtain ⟨c', h', hrest⟩ := ih hc hnull' htail s
      refine ⟨c', ?_, ?_⟩
      · rw [attestOutputs, addAllFrom, hu]
        exact h'
      · rw [createFrom, hu]
        exact hrest
    | false =>
      have hnew : c.peek ⟨txid, i⟩ = none := by
        rw [← utxos_get]
        exact outputsFresh_head hfresh hu
      obtain ⟨c₁, h₁⟩ := addCoin_ok ⟨out, cb, nHeight⟩ (hnull out List.mem_cons_self)
        fun (_ : false = false) _ => hnew
      have hstep := steps_addCoin hc h₁ fun _ _ => hnew
      simp only [hu, Bool.false_eq_true, if_false] at hstep htail
      rw [← hstep.utxos] at htail
      obtain ⟨c', h', hrest⟩ := ih hstep.ok hnull' htail (s.addCoin M ⟨txid, i⟩ ⟨out, cb, nHeight⟩)
      rw [hstep.utxos] at hrest
      refine ⟨c', ?_, ?_⟩
      · rw [attestOutputs, addAllFrom, hu]
        exact Outcome.bind_eq_ok.mpr ⟨c₁, h₁, h'⟩
      · rw [createFrom, hu]
        exact hstep.trans hrest

theorem attestTxs_spec {nHeight : Nat} (hc : c.Ok)
    (hspend : BlockSpends H nHeight txs c.utxos) (hfresh : BlockFresh H nHeight txs c.utxos)
    (s : UTXOMuHashState G) :
    ∃ c', attestTxs M H true nHeight txs s c =
        .ok (some (accTxs H M nHeight txs c.utxos s), c') ∧
      Steps c c' (applyTxs H nHeight txs c.utxos) := by
  induction txs generalizing c s with
  | nil => exact ⟨c, rfl, Steps.refl hc⟩
  | cons tx txs ih =>
    obtain ⟨hin, hnull, hspend⟩ := hspend
    obtain ⟨hfresh₁, hfresh⟩ := hfresh
    -- the inputs: nothing happens to those of a coinbase
    obtain ⟨c₁, h₁, hstep₁⟩ : ∃ c₁, (if tx.isCoinBase then (some s, c)
          else attestInputs M true tx.vin s c) =
            (some (if tx.isCoinBase then s
              else removeAll M tx.vin (spentCoins tx.vin c.utxos) s), c₁) ∧
        Steps c c₁ (if tx.isCoinBase then c.utxos else spendAll tx.vin c.utxos) := by
      cases hcb : tx.isCoinBase with
      | true => exact ⟨c, rfl, Steps.refl hc⟩
      | false => exact attestInputs_spec M hc (hin hcb) s
    rw [← hstep₁.utxos] at hfresh₁
    obtain ⟨c₂, h₂, hstep₂⟩ := attestOutputs_spec M nHeight tx.isCoinBase hstep₁.ok hnull hfresh₁
      (if tx.isCoinBase then s else removeAll M tx.vin (spentCoins tx.vin c.utxos) s)
    rw [hstep₁.utxos] at hstep₂
    have hstep : Steps c c₂ (applyTx H nHeight c.utxos tx) := hstep₁.trans hstep₂
    rw [← hstep.utxos] at hspend hfresh
    obtain ⟨c', h', hrest⟩ := ih hstep.ok hspend hfresh (accTx M H nHeight c.utxos tx s)
    rw [hstep.utxos] at h' hrest
    refine ⟨c', ?_, hstep.trans hrest⟩
    rw [attestTxs, h₁]
    exact Outcome.bind_eq_ok.mpr ⟨_, h₂, h'⟩

theorem updateCoinsAll_spec {nHeight : Nat} (hc : c.Ok)
    (hspend : BlockSpends H nHeight txs c.utxos) (hfresh : BlockFresh H nHeight txs c.utxos) :
    ∃ c', updateCoinsAll H nHeight txs c = .ok c' ∧ Steps c c' (applyTxs H nHeight txs c.utxos) := by
  induction txs generalizing c with
  | nil => exact ⟨c, rfl, Steps.refl hc⟩
  | cons tx txs ih =>
    obtain ⟨hin, hnull, hspend⟩ := hspend
    obtain ⟨hfresh₁, hfresh⟩ := hfresh
    have hfresh' : tx.isCoinBase = false →
        OutputsFresh (spendAll tx.vin c.utxos) (H.txid tx) 0 tx.vout := by
      intro hcb
      rw [hcb] at hfresh₁
      exact hfresh₁
    obtain ⟨⟨undo, c₁⟩, h₁⟩ := updateCoins_ok H nHeight hc hin hfresh' hnull
    obtain ⟨hstep, -⟩ := updateCoins_spec H hc h₁ hin hfresh'
    rw [← hstep.utxos] at hspend hfresh
    obtain ⟨c', h', hrest⟩ := ih hstep.ok hspend hfresh
    rw [hstep.utxos] at hrest
    exact ⟨c', Outcome.bind_eq_ok.mpr ⟨_, h₁, h'⟩, hstep.trans hrest⟩

end

/-! ## the block as it was checked and as it is hashed -/

/-- a transaction that passes `CheckTransaction` and, unless it is a coinbase, `CheckTxInputs` on a
view that shows `m` -/
def PassesChecks (nHeight : Nat) (m : Utxos) (tx : CTransaction) : Prop :=
  checkTransaction tx = .ok () ∧
    (tx.isCoinBase = false → ∃ (c : CCoinsViewCache) (fee : CAmount) (c' : CCoinsViewCache),
      c.Ok ∧ c.utxos = m ∧ checkTxInputs tx c nHeight = .ok (.ok fee, c'))

/-- the transactions pass one after the other, each on the coins the ones before it left -/
def ChecksInOrder (H : Hashes) (nHeight : Nat) : List CTransaction → Utxos → Prop
  | [], _ => True
  | tx :: txs, m => PassesChecks nHeight m tx ∧ ChecksInOrder H nHeight txs (applyTx H nHeight m tx)

def MatureIn (nHeight : Nat) (m m' : Utxos) : Prop :=
  ∀ o coin, m.get o = some coin → immature nHeight coin = false → m'.get o = some coin

section
variable {nHeight : Nat} {m m' : Utxos}

theorem MatureIn.refl (nHeight : Nat) (m : Utxos) : MatureIn nHeight m m :=
  fun _ _ h _ => h

section
variable (h : MatureIn nHeight m m')
include h

theorem MatureIn.erase (o : COutPoint) : MatureIn nHeight (m.erase o) (m'.erase o) := by
  intro k coin hk hm
  rw [FMap.erase_get] at hk ⊢
  split at hk
  · cases hk
  · rename_i hne
    rw [if_neg hne]
    exact h k coin hk hm

theorem MatureIn.insert (o : COutPoint) (c : Coin) :
    MatureIn nHeight (m.insert o c) (m'.insert o c) := by
  intro k coin hk hm
  rw [FMap.insert_get] at hk ⊢
  split at hk
  · rename_i he
    rw [if_pos he]
    exact hk
  · rename_i hne
    rw [if_neg hne]
    exact h k coin hk hm

theorem MatureIn.insert_left {c : Coin} (hc : immature nHeight c = true)
    (o : COutPoint) : MatureIn nHeight (m.insert o c) m' := by
  intro k coin hk hm
  rw [FMap.insert_get] at hk
  split at hk
  · cases hk
    rw [hc] at hm
    cases hm
  · exact h k coin hk hm

theorem MatureIn.insert_right {o : COutPoint} (ho : m'.get o = none)
    (c : Coin) : MatureIn nHeight m (m'.insert o c) := by
  intro k coin hk hm
  have hk' := h k coin hk hm
  rw [FMap.insert_get_ne, hk']
  rintro rfl
  rw [ho] at hk'
  cases hk'

theorem MatureIn.spend (vin : List CTxIn) : MatureIn nHeight (spendAll vin m) (spendAll vin m') := by
  induction vin generalizing m m' with
  | nil => exact h
  | cons txin vin ih => exact ih (h.erase txin.prevout)

theorem MatureIn.create (txid : Uint256) (cb : Bool) (i : Nat) (outs : List CTxOut) :
    MatureIn nHeight (createFrom txid nHeight cb i outs m) (createFrom txid nHeight cb i outs m') := by
  induction outs generalizing i m m' with
  | nil => exact h
  | cons out outs ih =>
    apply ih
    split
    · exact h
    · exact h.insert _ _

end

theorem immature_coinbase (nHeight : Nat) (out : CTxOut) :
    immature nHeight ⟨out, true, nHeight⟩ = true := by
  simp [immature, COINBASE_MATURITY]

theorem MatureIn.create_left (h : MatureIn nHeight m m') (txid : Uint256) (i : Nat)
    (outs : List CTxOut) : MatureIn nHeight (createFrom txid nHeight true i outs m) m' := by
  induction outs generalizing i m with
  | nil => exact h
  | cons out outs ih =>
    apply ih
    split
    · exact h
    · exact h.insert_left (immature_coinbase nHeight out) _

theorem MatureIn.create_right (h : MatureIn nHeight m m') {txid : Uint256} {i : Nat}
    {outs : List CTxOut} (hfresh : OutputsFresh m' txid i outs) :
    MatureIn nHeight m (createFrom txid nHeight true i outs m') := by
  induction outs generalizing i m' with
  | nil => exact h
  | cons out outs ih =>
    refine ih ?_ (outputsFresh_tail hfresh _)
    cases hu : isUnspendable out.scriptPubKey with
    | true => exact h
    | false => exact h.insert_right (outputsFresh_head hfresh hu) _

end

theorem stripped_cases (tx : CTransaction) (nHeight : Nat) :
    (tx.isCoinBase = false ∧ (stripAttestationOutput tx nHeight).getD tx = tx) ∨
      (tx.isCoinBase = true ∧ ((stripAttestationOutput tx nHeight).getD tx).isCoinBase = true ∧
        ∀ out ∈ ((stripAttestationOutput tx nHeight).getD tx).vout, out ∈ tx.vout) := by
  cases hcb : tx.isCoinBase with
  | false =>
    left
    rw [stripAttestationOutput, hcb]
    exact ⟨rfl, rfl⟩
  | true =>
    right
    rw [stripAttestationOutput_coinBase tx hcb]
    exact ⟨rfl, hcb, fun out hout => (List.mem_filter.mp hout).1⟩

/-- **what was checked of the block holds of the stripped block** -/
theorem blockSpends_of_checks {H : Hashes} {nHeight : Nat} {vtx : List CTransaction}
    {m m' : Utxos} (hm : MatureIn nHeight m m') (hchecks : ChecksInOrder H nHeight vtx m)
    (hfresh : BlockFresh H nHeight (strippedTxs vtx nHeight) m') :
    BlockSpends H nHeight (strippedTxs vtx nHeight) m' := by
  induction vtx generalizing m m' with
  | nil => trivial
  | cons tx vtx ih =>
    obtain ⟨⟨htx, hinputs⟩, hchecks⟩ := hchecks
    obtain ⟨hnodup, hnull⟩ := checkTransaction_ok htx
    rw [strippedTxs_cons] at hfresh ⊢
    obtain ⟨hfresh₁, hfresh⟩ := hfresh
    obtain ⟨hcb, hstrip⟩ | ⟨hcb, hcb', hsub⟩ := stripped_cases tx nHeight
    · rw [hstrip] at hfresh hfresh₁ ⊢
      obtain ⟨c, fee, c', hok, hut, hcheck⟩ := hinputs hcb
      have hspendable := ((checkTxInputs_spec hcheck).2 fee rfl).2.2
      rw [hut] at hspendable
      refine ⟨fun _ => inputsPresent_of_checked hnodup fun txin hmem => ?_, hnull, ih ?_ hchecks hfresh⟩
      · obtain ⟨coin, hcoin, hmature⟩ := hspendable txin hmem
        exact ⟨coin, hm _ coin hcoin hmature⟩
      · rw [applyTx, applyTx, hcb]
        exact (hm.spend tx.vin).create _ _ _ _
    · refine ⟨fun h => ?_, fun out hout => hnull out (hsub out hout), ih ?_ hchecks hfresh⟩
      · rw [hcb'] at h
        cases h
      · rw [hcb'] at hfresh₁
        rw [applyTx, applyTx, hcb, hcb']
        exact (hm.create_left _ _ _).create_right hfresh₁

section
variable {G : Type} [CommGroup G] (M : MuHash G)

theorem hashUTXOs_muhash (m : Utxos) : hashUTXOs M .MUHASH m = M.finalize (m.prod M.elem) := by
  rw [hashUTXOs, UTXOMuHashState.rebuild_eq_ofSet]
  rfl

/-- **the incremental attestation is the MuHash of the coins that the stripped block leaves**,
for every block that passes its checks in order and whose stripped transactions create no output
at an unspent outpoint.  The counter of the accumulator is free. -/
theorem incremental_attestation_eq_full (H : Hashes) (params : ConsensusParams) (known : Uint256 → Bool)
    (block : CBlock) (nHeight : Nat) (base_view : CCoinsView) (acc : UTXOMuHashState G)
    (hview : base_view.Ok) (hmuhash : isMuhashAttestationActive nHeight params = true)
    (hfix : isIntraBlockAttestationFixActive nHeight params = true)
    (hacc : acc.m_muhash = base_view.fetchEffectiveUTXOs.prod M.elem)
    (hchecks : ChecksInOrder H nHeight block.vtx base_view.fetchEffectiveUTXOs)
    (hfresh : BlockFresh H nHeight (strippedTxs block.vtx nHeight) base_view.fetchEffectiveUTXOs) :
    ∃ view w,
      updateCoinsAll H nHeight (strippedTxs block.vtx nHeight) (CCoinsViewCache.new base_view) =
        .ok view ∧
      computeBlockUTXOAttestationHash M H block nHeight base_view known params (some acc) =
        .ok (some (hashUTXOs M .MUHASH view.utxos), w) := by
  have hnew := new_utxos base_view
  have hok := new_ok hview
  have hspend := blockSpends_of_checks (MatureIn.refl nHeight _) hchecks hfresh
  rw [← hnew] at hspend hfresh
  obtain ⟨view, hfull, hsteps⟩ := updateCoinsAll_spec H hok hspend hfresh
  obtain ⟨lookup, hincr, -⟩ := attestTxs_spec M H hok hspend hfresh acc
  refine ⟨view, lookup.base, hfull, ?_⟩
  have hprod : (accTxs H M nHeight (strippedTxs block.vtx nHeight)
      (CCoinsViewCache.new base_view).utxos acc).m_muhash = view.utxos.prod M.elem := by
    rw [accTxs_muhash H M (t := UTXOMuHashState.ofSet M (CCoinsViewCache.new base_view).utxos)
      (by rw [hacc, hnew]; rfl), ← ofSet_applyTxs H M hspend hfresh, hsteps.utxos]
    rfl
  rw [computeBlockUTXOAttestationHash, hmuhash, hfix]
  refine Outcome.bind_eq_ok.mpr ⟨_, hincr, ?_⟩
  rw [hashUTXOs_muhash, ← hprod]
  rfl

end

/-! ## a block on a small set -/

def sampleTx (prevout : COutPoint) (nValue : CAmount) (nLockTime : Nat) : CTransaction :=
  ⟨[⟨prevout, [1, 1], 0, []⟩], [⟨nValue, [OP_1]⟩], 1, nLockTime⟩

/-- a coinbase with the attestation of block 120, and the transactions `txs` -/
def sampleBlock (txs : List CTransaction) : CBlock where
  nVersion := 1
  hashPrevBlock := Uint256.zero
  hashMerkleRoot := Uint256.zero
  nTime := 0
  nBits := 0
  nNonce := 0
  vtx := { sampleTx COutPoint.null 5 1 with
    vout := [⟨5, [OP_1]⟩, attestationOutput 120 Uint256.zero] } :: txs

def sampleDB (o : COutPoint) (nHeight : Nat) : CCoinsViewDB where
  coins := FMap.empty.insert o ⟨⟨10, [OP_1]⟩, false, nHeight⟩
  bestBlock := Uint256.zero
  headBlocks := []
  unspent := unspent_insert (by simp) o rfl

def sampleChain : List CTransaction :=
  [sampleTx ⟨Uint256.ofByte 9, 0⟩ 8 2, sampleTx ⟨Uint256.ofByte 2, 0⟩ 7 3]

theorem sampleChain_checks : ChecksInOrder sampleHashes 120 (sampleBlock sampleChain).vtx
    (sampleDB ⟨Uint256.ofByte 9, 0⟩ 5).coins := by
  have h₁ := unspent_insert (sampleDB ⟨Uint256.ofByte 9, 0⟩ 5).unspent ⟨Uint256.ofByte 1, 0⟩
    (show Coin.isSpent ⟨⟨5, [OP_1]⟩, true, 120⟩ = false from rfl)
  have h₂ := unspent_insert (unspent_erase h₁ ⟨Uint256.ofByte 9, 0⟩) ⟨Uint256.ofByte 2, 0⟩
    (show Coin.isSpent ⟨⟨8, [OP_1]⟩, false, 120⟩ = false from rfl)
  refine ⟨⟨rfl, fun h => by cases h⟩, ⟨rfl, fun _ => ?_⟩, ⟨rfl, fun _ => ?_⟩, trivial⟩
  · exact ⟨.new (.db ⟨_, Uint256.zero, [], h₁⟩), 2, _, new_ok trivial, new_utxos _, rfl⟩
  · exact ⟨.new (.db ⟨_, Uint256.zero, [], h₂⟩), 1, _, new_ok trivial, new_utxos _, rfl⟩

theorem incremental_attestation_eq_full_chain :
    ∃ view w,
      updateCoinsAll sampleHashes 120 (strippedTxs (sampleBlock sampleChain).vtx 120)
        (CCoinsViewCache.new (.db (sampleDB ⟨Uint256.ofByte 9, 0⟩ 5))) = .ok view ∧
      computeBlockUTXOAttestationHash sampleMuHash sampleHashes (sampleBlock sampleChain) 120
        (.db (sampleDB ⟨Uint256.ofByte 9, 0⟩ 5)) (fun _ => true) regTestParams
        (some (UTXOMuHashState.ofSet sampleMuHash (sampleDB ⟨Uint256.ofByte 9, 0⟩ 5).coins)) =
          .ok (some (hashUTXOs sampleMuHash .MUHASH view.utxos), w) :=
  incremental_attestation_eq_full sampleMuHash sampleHashes regTestParams (fun _ => true)
    (sampleBlock sampleChain) 120 (.db (sampleDB ⟨Uint256.ofByte 9, 0⟩ 5)) _ trivial (by decide)
    (by decide) rfl sampleChain_checks
    ⟨outputsFresh_singleton _ rfl, outputsFresh_singleton _ rfl, outputsFresh_singleton _ rfl, trivial⟩

/-- without the last hypothesis it fails: when a coin already stands where the stripped coinbase
creates one, the accumulator counts both and the set holds one -/
theorem incremental_attestation_counts_overwritten :
    ∃ view w,
      ChecksInOrder sampleHashes 120 (sampleBlock []).vtx (sampleDB ⟨Uint256.ofByte 1, 0⟩ 5).coins ∧
      updateCoinsAll sampleHashes 120 (strippedTxs (sampleBlock []).vtx 120)
        (CCoinsViewCache.new (.db (sampleDB ⟨Uint256.ofByte 1, 0⟩ 5))) = .ok view ∧
      computeBlockUTXOAttestationHash sampleMuHash sampleHashes (sampleBlock []) 120
        (.db (sampleDB ⟨Uint256.ofByte 1, 0⟩ 5)) (fun _ => true) regTestParams
        (some (UTXOMuHashState.ofSet sampleMuHash (sampleDB ⟨Uint256.ofByte 1, 0⟩ 5).coins)) =
          .ok (some (Uint256.ofByte 127), w) ∧
      hashUTXOs sampleMuHash .MUHASH view.utxos = Uint256.ofByte 121 ∧
      Uint256.ofByte 127 ≠ Uint256.ofByte 121 := by
  refine ⟨_, _, ⟨⟨rfl, fun h => by cases h⟩, trivial⟩, rfl, rfl, ?_, by decide⟩
  rfl

end ElektronNet
