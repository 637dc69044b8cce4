import ElektronNet.Coins.Update

/-!
# Checking a transaction

`CheckTransaction` of `consensus/tx_check.cpp`, which needs no context, and
`Consensus::CheckTxInputs` of `consensus/tx_verify.cpp`, which looks the inputs up in a cache.

* `checkTransaction_ok`     what the first check leaves: no input twice, no output below zero
* `Lookups`                 what a cache becomes that is only asked for coins
* `checkTxInputs_spec`      the second one is such lookups; when it passes, every input is unspent and,
                            if it is a coinbase output, mature, and the fee is what the outputs leave
* `inputsPresent_of_checked`   together they are what `UpdateCoins` needs
-/

namespace ElektronNet

open List Outcome CCoinsViewCache

def MAX_BLOCK_WEIGHT : Nat := 4000000
def WITNESS_SCALE_FACTOR : Nat := 4
def COINBASE_MATURITY : Int := 100

/-! ## sizes and amounts -/

def getSizeOfCompactSize (nSize : Nat) : Nat :=
  if nSize < 253 then 1 else if nSize ≤ 65535 then 3 else if nSize ≤ 4294967295 then 5 else 9

def bytesSize (b : Bytes) : Nat := getSizeOfCompactSize b.length + b.length

section
variable (tx : CTransaction)

def CTransaction.sizeNoWitness : Nat :=
  4 + getSizeOfCompactSize tx.vin.length + (tx.vin.map fun txin => 40 + bytesSize txin.scriptSig).sum +
    getSizeOfCompactSize tx.vout.length + (tx.vout.map fun out => 8 + bytesSize out.scriptPubKey).sum + 4

/-- the text of an amount, last character first, without the zeros that are trimmed -/
def trimZeros : List Char → List Char
  | c₀ :: c₁ :: c₂ :: cs =>
    if c₀ = '0' ∧ c₂.isDigit = true then trimZeros (c₁ :: c₂ :: cs) else c₀ :: c₁ :: c₂ :: cs
  | cs => cs

def formatMoney (n : CAmount) : String :=
  let quotient := toString (n.tdiv COIN).natAbs
  let remainder := (toString (n.tmod COIN).natAbs).toList
  let str := quotient.toList ++ '.' :: (List.replicate (8 - remainder.length) '0' ++ remainder)
  String.ofList ((if n < 0 then ['-'] else []) ++ (trimZeros str.reverse).reverse)

def sumValues : CAmount → List CTxOut → Except Fault CAmount
  | nValueOut, [] => pure nValueOut
  | nValueOut, out :: outs =>
    if !moneyRange out.nValue || !moneyRange (nValueOut + out.nValue) then
      throw (.runtimeError "GetValueOut: value out of range")
    else sumValues (nValueOut + out.nValue) outs

def CTransaction.getValueOut : Except Fault CAmount := sumValues 0 tx.vout

/-! ## CheckTransaction -/

def checkOutputs : CAmount → List CTxOut → Except Invalid Unit
  | _, [] => .ok ()
  | nValueOut, txout :: vout =>
    if txout.nValue < 0 then .error ⟨"bad-txns-vout-negative", ""⟩
    else if txout.nValue > MAX_MONEY then .error ⟨"bad-txns-vout-toolarge", ""⟩
    else if !moneyRange (nValueOut + txout.nValue) then
      .error ⟨"bad-txns-txouttotal-toolarge", ""⟩
    else checkOutputs (nValueOut + txout.nValue) vout

def checkTransaction : Except Invalid Unit :=
  if tx.vin.isEmpty then .error ⟨"bad-txns-vin-empty", ""⟩
  else if tx.vout.isEmpty then .error ⟨"bad-txns-vout-empty", ""⟩
  else if tx.sizeNoWitness * WITNESS_SCALE_FACTOR > MAX_BLOCK_WEIGHT then
    .error ⟨"bad-txns-oversize", ""⟩
  else
    match checkOutputs 0 tx.vout with
    | .error e => .error e
    | .ok _ =>
      if ¬ (tx.vin.map CTxIn.prevout).Nodup then .error ⟨"bad-txns-inputs-duplicate", ""⟩
      else if tx.isCoinBase then
        if tx.vin.any fun txin => decide (txin.scriptSig.length < 2 ∨ txin.scriptSig.length > 100) then
          .error ⟨"bad-cb-length", ""⟩
        else .ok ()
      else if tx.vin.any fun txin => txin.prevout.isNull then .error ⟨"bad-txns-prevout-null", ""⟩
      else .ok ()

/-! ## CheckTxInputs -/

def haveAll : List CTxIn → CCoinsViewCache → Bool × CCoinsViewCache
  | [], inputs => (true, inputs)
  | txin :: vin, inputs =>
    if inputs.haveCoin txin.prevout then haveAll vin (inputs.fetchCoin txin.prevout)
    else (false, inputs.fetchCoin txin.prevout)

def haveInputs (inputs : CCoinsViewCache) : Bool × CCoinsViewCache :=
  if tx.isCoinBase then (true, inputs) else haveAll tx.vin inputs

/-- a coin of a coinbase that may not be spent yet -/
def immature (nSpendHeight : Nat) (coin : Coin) : Bool :=
  coin.fCoinBase && decide ((nSpendHeight : Int) - coin.nHeight < COINBASE_MATURITY)

def sumInputs (nSpendHeight : Nat) : List CTxIn → CAmount → CCoinsViewCache →
    Except Fault (Except Invalid CAmount × CCoinsViewCache)
  | [], nValueIn, inputs => pure (.ok nValueIn, inputs)
  | txin :: vin, nValueIn, inputs =>
    let coin := inputs.accessCoin txin.prevout
    let inputs := inputs.fetchCoin txin.prevout
    if coin.isSpent then throw (.assertion "!coin.IsSpent()")
    else if immature nSpendHeight coin then
      pure (.error ⟨"bad-txns-premature-spend-of-coinbase",
        "tried to spend coinbase at depth " ++ toString ((nSpendHeight : Int) - coin.nHeight)⟩, inputs)
    else if !moneyRange coin.out.nValue || !moneyRange (nValueIn + coin.out.nValue) then
      pure (.error ⟨"bad-txns-inputvalues-outofrange", ""⟩, inputs)
    else sumInputs nSpendHeight vin (nValueIn + coin.out.nValue) inputs

def feeOf (nValueIn value_out : CAmount) : Except Invalid CAmount :=
  if nValueIn < value_out then
    .error ⟨"bad-txns-in-belowout",
      "value in (" ++ formatMoney nValueIn ++ ") < value out (" ++ formatMoney value_out ++ ")"⟩
  else if !moneyRange (nValueIn - value_out) then .error ⟨"bad-txns-fee-outofrange", ""⟩
  else .ok (nValueIn - value_out)

/-- the fee of the transaction, if it passes -/
def checkTxInputs (inputs : CCoinsViewCache) (nSpendHeight : Nat) :
    Except Fault (Except Invalid CAmount × CCoinsViewCache) :=
  match haveInputs tx inputs with
  | (false, inputs) =>
    pure (.error ⟨"bad-txns-inputs-missingorspent", "CheckTxInputs: inputs missing/spent"⟩, inputs)
  | (true, inputs) => do
    let r ← sumInputs nSpendHeight tx.vin 0 inputs
    match r.1 with
    | .error e => pure (.error e, r.2)
    | .ok nValueIn => do
      let value_out ← tx.getValueOut
      pure (feeOf nValueIn value_out, r.2)

end

/-! ## what a passed check leaves -/

theorem checkOutputs_range {vout : List CTxOut} {n : CAmount} (h : checkOutputs n vout = .ok ()) :
    ∀ out ∈ vout, moneyRange out.nValue = true := by
  induction vout generalizing n with
  | nil => simp
  | cons txout vout ih =>
    rw [checkOutputs] at h
    split at h
    · cases h
    · rename_i hneg
      split at h
      · cases h
      · rename_i hlarge
        split at h
        · cases h
        · intro out hout
          rcases mem_cons.mp hout with rfl | hmem
          · exact (moneyRange_iff _).mpr ⟨Int.not_lt.mp hneg, Int.not_lt.mp hlarge⟩
          · exact ih h out hmem

variable {tx : CTransaction} {c : CCoinsViewCache}

theorem checkTransaction_cases (h : checkTransaction tx = .ok ()) :
    (tx.vin.map CTxIn.prevout).Nodup ∧ checkOutputs 0 tx.vout = .ok () := by
  unfold checkTransaction at h
  split at h
  · cases h
  split at h
  · cases h
  split at h
  · cases h
  cases hout : checkOutputs 0 tx.vout with
  | error e => rw [hout] at h; cases h
  | ok u =>
    rw [hout] at h
    simp only at h
    split at h
    · cases h
    · rename_i hdup
      exact ⟨not_not.mp hdup, rfl⟩

theorem checkTransaction_size (h : checkTransaction tx = .ok ()) :
    tx.sizeNoWitness * WITNESS_SCALE_FACTOR ≤ MAX_BLOCK_WEIGHT := by
  unfold checkTransaction at h
  split at h
  · cases h
  split at h
  · cases h
  split at h
  · cases h
  · omega

theorem length_vout_le (tx : CTransaction) : 9 * tx.vout.length ≤ tx.sizeNoWitness := by
  have hout : ∀ outs : List CTxOut,
      9 * outs.length ≤ (outs.map fun out => 8 + bytesSize out.scriptPubKey).sum := by
    intro outs
    induction outs with
    | nil => simp
    | cons out outs ih =>
      have hsize : 1 ≤ bytesSize out.scriptPubKey := by
        unfold bytesSize getSizeOfCompactSize
        split_ifs <;> omega
      rw [map_cons, sum_cons, length_cons]
      omega
  have := hout tx.vout
  unfold CTransaction.sizeNoWitness
  omega

theorem checkTransaction_range (h : checkTransaction tx = .ok ()) :
    ∀ out ∈ tx.vout, moneyRange out.nValue = true :=
  checkOutputs_range (checkTransaction_cases h).2

theorem checkTransaction_ok (h : checkTransaction tx = .ok ()) :
    (tx.vin.map CTxIn.prevout).Nodup ∧ (∀ out ∈ tx.vout, out.isNull = false) := by
  refine ⟨(checkTransaction_cases h).1, fun out hmem => ?_⟩
  have hnn := ((moneyRange_iff _).mp (checkTransaction_range h out hmem)).1
  have hne : out.nValue ≠ -1 := by
    intro e
    rw [e] at hnn
    exact absurd hnn (by decide)
  simpa [CTxOut.isNull] using hne

/-! ## lookups -/

/-- lookups lead from one cache to the other -/
def Lookups : CCoinsViewCache → CCoinsViewCache → Prop :=
  Relation.ReflTransGen fun c c' => ∃ o, c' = c.fetchCoin o

theorem lookups_fetchCoin (c : CCoinsViewCache) (o : COutPoint) : Lookups c (c.fetchCoin o) :=
  .single ⟨o, rfl⟩

variable {c' : CCoinsViewCache}

theorem Lookups.peek (h : Lookups c c') (o : COutPoint) : c'.peek o = c.peek o := by
  induction h with
  | refl => rfl
  | tail _ hfetch ih =>
    obtain ⟨k, rfl⟩ := hfetch
    rw [fetchCoin_peek, ih]

theorem Lookups.sameStack (h : Lookups c c') : SameStack c.base c'.base := by
  induction h with
  | refl => exact SameStack.refl _
  | tail _ hfetch ih =>
    obtain ⟨k, rfl⟩ := hfetch
    exact ih.trans (sameStack_fetchCoin _ k)

theorem Lookups.steps (h : Lookups c c') (hc : c.Ok) : Steps c c' c.utxos := by
  induction h with
  | refl => exact Steps.refl hc
  | tail _ hfetch ih =>
    obtain ⟨k, rfl⟩ := hfetch
    exact ih.trans (ih.utxos ▸ steps_fetchCoin ih.ok k)

theorem peek_of_accessCoin {o : COutPoint} (h : (c.accessCoin o).isSpent = false) :
    c.peek o = some (c.accessCoin o) := by
  unfold accessCoin at h ⊢
  cases hg : (c.fetchCoin o).cacheCoins.get o with
  | none =>
    rw [hg] at h
    cases h
  | some e =>
    rw [hg] at h
    rw [peek_of_fetchCoin_some hg, CCoinsView.entryCoin, h]
    rfl

theorem haveAll_lookups (vin : List CTxIn) (c : CCoinsViewCache) : Lookups c (haveAll vin c).2 := by
  induction vin generalizing c with
  | nil => exact .refl
  | cons txin vin ih =>
    have hf := lookups_fetchCoin c txin.prevout
    rw [haveAll]
    split
    · exact hf.trans (ih _)
    · exact hf

theorem haveInputs_lookups (tx : CTransaction) (c : CCoinsViewCache) :
    Lookups c (haveInputs tx c).2 := by
  unfold haveInputs
  split
  · exact .refl
  · exact haveAll_lookups _ _

/-! ## what is spent -/

def coinValue (coin : Option Coin) : ℤ := coin.elim 0 fun c => c.out.nValue

def inputsValue (vin : List CTxIn) (c : CCoinsViewCache) : ℤ :=
  (vin.map fun txin => coinValue (c.peek txin.prevout)).sum

def outputsValue (vout : List CTxOut) : ℤ := (vout.map fun out => (out.nValue : ℤ)).sum

theorem coinValue_some (coin : Coin) : coinValue (some coin) = coin.out.nValue := rfl

theorem inputsValue_cons (txin : CTxIn) (vin : List CTxIn) (c : CCoinsViewCache) :
    inputsValue (txin :: vin) c = coinValue (c.peek txin.prevout) + inputsValue vin c := by
  simp [inputsValue]

theorem outputsValue_cons (out : CTxOut) (vout : List CTxOut) :
    outputsValue (out :: vout) = out.nValue + outputsValue vout := by
  simp [outputsValue]

variable {vin : List CTxIn}

theorem inputsValue_congr (h : ∀ txin ∈ vin, c'.peek txin.prevout = c.peek txin.prevout) :
    inputsValue vin c' = inputsValue vin c := by
  unfold inputsValue
  rw [map_congr_left fun txin hmem => by rw [h txin hmem]]

theorem sumValues_ok {outs : List CTxOut} {n value : CAmount} (h : sumValues n outs = .ok value) :
    value = n + outputsValue outs ∧ ∀ out ∈ outs, moneyRange out.nValue = true := by
  induction outs generalizing n with
  | nil =>
    cases h
    exact ⟨(Int.add_zero _).symm, by simp⟩
  | cons out outs ih =>
    rw [sumValues, ite_throw_eq_ok] at h
    obtain ⟨hrange, h⟩ := h
    obtain ⟨hvalue, hrest⟩ := ih h
    refine ⟨?_, fun o ho => ?_⟩
    · rw [hvalue]
      exact Int.add_assoc _ _ _
    · rcases mem_cons.mp ho with rfl | hmem
      · simp at hrange
        exact hrange.1
      · exact hrest o hmem

/-- every input is there and, if it is an output of a coinbase, mature -/
def InputsSpendable (nSpendHeight : Nat) (vin : List CTxIn) (m : Utxos) : Prop :=
  ∀ txin ∈ vin, ∃ coin, m.get txin.prevout = some coin ∧ immature nSpendHeight coin = false

variable {nSpendHeight : Nat} {r : Except Invalid CAmount}

theorem sumInputs_spec {n : CAmount} (h : sumInputs nSpendHeight vin n c = .ok (r, c')) :
    Lookups c c' ∧ ∀ value, r = .ok value → value = n + inputsValue vin c ∧
      (moneyRange n = true → moneyRange value = true) ∧
      InputsSpendable nSpendHeight vin c.utxos := by
  induction vin generalizing n c with
  | nil =>
    cases h
    refine ⟨.refl, fun value hv => ?_⟩
    cases hv
    exact ⟨(Int.add_zero n).symm, fun hn => hn, by simp [InputsSpendable]⟩
  | cons txin vin ih =>
    have hf := lookups_fetchCoin c txin.prevout
    rw [sumInputs, ite_throw_eq_ok] at h
    obtain ⟨hunspent, h⟩ := h
    -- the looked-up coin is unspent, so the view shows it
    have hpeek := peek_of_accessCoin (Bool.not_eq_true _ ▸ hunspent)
    split at h
    · cases h
      exact ⟨hf, fun _ hv => by cases hv⟩
    rename_i hmature
    split at h
    · cases h
      exact ⟨hf, fun _ hv => by cases hv⟩
    rename_i hrange
    obtain ⟨hlook, hrest⟩ := ih h
    refine ⟨hf.trans hlook, fun value hv => ?_⟩
    obtain ⟨hvalue, hmoney, hspend⟩ := hrest value hv
    refine ⟨?_, fun _ => hmoney (by simp at hrange; exact hrange.2), fun t ht => ?_⟩
    · rw [hvalue, inputsValue_congr fun t _ => hf.peek _, inputsValue_cons, hpeek]
      exact Int.add_assoc _ _ _
    · rcases mem_cons.mp ht with rfl | hmem
      · exact ⟨_, (utxos_get c _).trans hpeek, by simpa using hmature⟩
      · rw [← fetchCoin_utxos c txin.prevout]
        exact hspend t hmem

theorem checkTxInputs_spec (h : checkTxInputs tx c nSpendHeight = .ok (r, c')) :
    Lookups c c' ∧ ∀ fee, r = .ok fee → fee = inputsValue tx.vin c - outputsValue tx.vout ∧
      moneyRange fee = true ∧ InputsSpendable nSpendHeight tx.vin c.utxos := by
  have hhave := haveInputs_lookups tx c
  unfold checkTxInputs at h
  cases hi : haveInputs tx c with
  | mk present c₁ =>
    rw [hi] at h hhave
    cases present with
    | false =>
      cases h
      exact ⟨hhave, fun _ hv => by cases hv⟩
    | true =>
      obtain ⟨⟨value, c₂⟩, hsum, h⟩ := bind_eq_ok.mp h
      obtain ⟨hlook, hvalue⟩ := sumInputs_spec hsum
      cases value with
      | error e =>
        cases h
        exact ⟨hhave.trans hlook, fun _ hv => by cases hv⟩
      | ok nValueIn =>
        obtain ⟨value_out, hout, h⟩ := bind_eq_ok.mp h
        cases h
        refine ⟨hhave.trans hlook, fun fee hfee => ?_⟩
        obtain ⟨hin, -, hspend⟩ := hvalue nValueIn rfl
        have hvalue_out := (sumValues_ok hout).1
        rw [inputsValue_congr fun t _ => hhave.peek _] at hin
        rw [utxos_congr hhave.peek] at hspend
        unfold feeOf at hfee
        split at hfee
        · cases hfee
        split at hfee
        · cases hfee
        rename_i hmoney
        cases hfee
        refine ⟨?_, by simpa using hmoney, hspend⟩
        rw [hin, hvalue_out, Int.zero_add, Int.zero_add]

theorem inputsPresent_of_checked {m : Utxos} (hnodup : (vin.map CTxIn.prevout).Nodup)
    (hpresent : ∀ txin ∈ vin, ∃ coin, m.get txin.prevout = some coin) : InputsPresent vin m := by
  induction vin generalizing m with
  | nil => trivial
  | cons txin vin ih =>
    obtain ⟨hnot, hnodup⟩ := nodup_cons.mp hnodup
    obtain ⟨coin, hcoin⟩ := hpresent txin mem_cons_self
    refine ⟨by rw [hcoin]; rfl, ih hnodup fun txin' hmem => ?_⟩
    obtain ⟨coin', hcoin'⟩ := hpresent txin' (mem_cons_of_mem _ hmem)
    refine ⟨coin', ?_⟩
    rw [FMap.erase_get_ne, hcoin']
    intro e
    exact hnot (e ▸ mem_map_of_mem hmem)

end ElektronNet
