import ElektronNet.Accumulator
import ElektronNet.Supply

/-!
# No inflation

The coins of a chain are worth at most the subsidies of its blocks, every coin is in `MoneyRange`,
and no sum of amounts leaves an `int64_t`.

* `blockSums`       the sums that `CheckBlock` and `ConnectBlock` form, in the order of the code
* `blockSums_fit`   none of them overflows on a view whose coins are in range
* `ConnectRun`      the views on which a chain is connected, block after block
* `no_inflation`    over every chain
-/

namespace ElektronNet

open List Outcome CCoinsViewCache

/-! ## the sums of the code -/

def fitsInt64 (x : CAmount) : Prop := -(2 ^ 63) ≤ x ∧ x < 2 ^ 63

/-- `nValueOut` in `CheckTransaction` and in `GetValueOut`: an output is added once it is in range -/
def outputSums : CAmount → List CTxOut → List CAmount
  | _, [] => []
  | nValueOut, out :: outs =>
    if !moneyRange out.nValue then []
    else (nValueOut + out.nValue) ::
      if !moneyRange (nValueOut + out.nValue) then [] else outputSums (nValueOut + out.nValue) outs

/-- `nValueIn` in `CheckTxInputs`: a coin is added before its range is looked at -/
def inputSums (nSpendHeight : Nat) : List CTxIn → CAmount → CCoinsViewCache → List CAmount
  | [], _, _ => []
  | txin :: vin, nValueIn, inputs =>
    let coin := inputs.accessCoin txin.prevout
    let inputs := inputs.fetchCoin txin.prevout
    if coin.isSpent || immature nSpendHeight coin then []
    else (nValueIn + coin.out.nValue) ::
      if !moneyRange coin.out.nValue || !moneyRange (nValueIn + coin.out.nValue) then []
      else inputSums nSpendHeight vin (nValueIn + coin.out.nValue) inputs

def feeSums (nFees nValueIn value_out : CAmount) : List CAmount :=
  if nValueIn < value_out then []
  else (nValueIn - value_out) ::
    if !moneyRange (nValueIn - value_out) then [] else [nFees + (nValueIn - value_out)]

/-- one transaction: its inputs, its outputs, its fee -/
def spendSums (nSpendHeight : Nat) (tx : CTransaction) (nFees : CAmount) (view : CCoinsViewCache) :
    List CAmount :=
  if tx.isCoinBase then []
  else
    match haveInputs tx view with
    | (false, _) => []
    | (true, inputs) =>
      inputSums nSpendHeight tx.vin 0 inputs ++
        match sumInputs nSpendHeight tx.vin 0 inputs with
        | .ok (.ok nValueIn, _) =>
          outputSums 0 tx.vout ++
            match tx.getValueOut with
            | .ok value_out => feeSums nFees nValueIn value_out
            | .error _ => []
        | _ => []

section
variable (H : Hashes) (rules : BlockRules)

def txsSums (pos : BlockPlace) : Nat → List CTransaction → BlockProgress → List CAmount
  | _, [], _ => []
  | i, tx :: txs, st =>
    spendSums pos.nHeight tx st.nFees st.view ++
      match connectTx H rules pos i tx st with
      | .ok (none, st) => txsSums pos (i + 1) txs st
      | _ => []

/-- the value of the coinbase, and `blockReward` -/
def rewardSums (pos : BlockPlace) (block : CBlock) (nFees : CAmount) : List CAmount :=
  match block.vtx with
  | [] => []
  | coinbase :: _ =>
    outputSums 0 coinbase.vout ++ [nFees + getBlockSubsidy pos.nHeight rules.params]

def connectSums (m : BlockMap) (pos : BlockPlace) (pprev : Uint256) (block : CBlock)
    (view : CCoinsViewCache) : List CAmount :=
  (match bip30Lookup H rules m pos pprev block view with
    | (true, _) => []
    | (false, view) => txsSums H rules pos 0 block.vtx ⟨view, 0, 0, []⟩) ++
    match connectTransactions H rules m pos pprev block view with
    | .ok r => rewardSums rules pos block r.2.nFees
    | .error _ => []

def blockSums (m : BlockMap) (pos : BlockPlace) (pprev : Uint256) (block : CBlock)
    (view : CCoinsViewCache) : List CAmount :=
  (block.vtx.flatMap fun tx => outputSums 0 tx.vout) ++
    match checkContents H rules block with
    | .error _ => []
    | .ok _ => connectSums H rules m pos pprev block view

end

/-! ## the sums stay in range -/

theorem fitsInt64_of_le {x : CAmount} (h₀ : 0 ≤ x) (h : x ≤ 2 * MAX_MONEY + 5 * COIN) : fitsInt64 x := by
  have hmax : (2 * MAX_MONEY + 5 * COIN : ℤ) < 2 ^ 63 := by decide
  exact ⟨by linarith, by linarith⟩

theorem fitsInt64_add {x y : CAmount} (hx : moneyRange x = true) (hy : moneyRange y = true) :
    fitsInt64 (x + y) := by
  obtain ⟨hx₀, hx₁⟩ := (moneyRange_iff x).mp hx
  obtain ⟨hy₀, hy₁⟩ := (moneyRange_iff y).mp hy
  have hcoin : (0 : ℤ) ≤ 5 * COIN := by decide
  exact fitsInt64_of_le (by linarith) (by linarith)

theorem outputSums_fit {vout : List CTxOut} {n : CAmount} (hn : moneyRange n = true) :
    ∀ x ∈ outputSums n vout, fitsInt64 x := by
  induction vout generalizing n with
  | nil => simp [outputSums]
  | cons out vout ih =>
    rw [outputSums]
    split
    · simp
    · rename_i hout
      intro x hx
      rcases mem_cons.mp hx with rfl | hx
      · exact fitsInt64_add hn (by simpa using hout)
      · split at hx
        · cases hx
        · rename_i hsum
          exact ih (by simpa using hsum) x hx

variable {nSpendHeight : Nat} {nFees : CAmount}

theorem inputSums_fit {vin : List CTxIn} {n : CAmount} {c : CCoinsViewCache} (hc : Funded c)
    (hn : moneyRange n = true) : ∀ x ∈ inputSums nSpendHeight vin n c, fitsInt64 x := by
  induction vin generalizing n c with
  | nil => simp [inputSums]
  | cons txin vin ih =>
    rw [inputSums]
    split
    · simp
    · rename_i hcoin
      have hunspent : (c.accessCoin txin.prevout).isSpent = false := by
        simp at hcoin
        exact hcoin.1
      have hrange := hc.peek_range (peek_of_accessCoin hunspent)
      intro x hx
      rcases mem_cons.mp hx with rfl | hx
      · exact fitsInt64_add hn hrange
      · split at hx
        · cases hx
        · rename_i hsum
          simp at hsum
          exact ih (grows_fetchCoin hc _).funded hsum.2 x hx

theorem feeSums_fit {nValueIn value_out : CAmount} (hfees : moneyRange nFees = true)
    (hin : moneyRange nValueIn = true) (hout : 0 ≤ value_out) :
    ∀ x ∈ feeSums nFees nValueIn value_out, fitsInt64 x := by
  obtain ⟨hin₀, hin₁⟩ := (moneyRange_iff _).mp hin
  unfold feeSums
  split
  · simp
  · rename_i hle
    have hfee : moneyRange (nValueIn - value_out) = true :=
      (moneyRange_iff _).mpr ⟨by linarith, by linarith⟩
    intro x hx
    rcases mem_cons.mp hx with rfl | hx
    · rw [← Int.zero_add (nValueIn - value_out)]
      exact fitsInt64_add rfl hfee
    · rw [hfee] at hx
      obtain rfl := mem_singleton.mp hx
      exact fitsInt64_add hfees hfee

theorem outputsValue_nonneg {vout : List CTxOut} (h : ∀ out ∈ vout, moneyRange out.nValue = true) :
    0 ≤ outputsValue vout := by
  refine sum_nonneg fun x hx => ?_
  obtain ⟨out, hout, rfl⟩ := mem_map.mp hx
  exact ((moneyRange_iff _).mp (h out hout)).1

theorem spendSums_fit {tx : CTransaction} {c : CCoinsViewCache} (hc : Funded c)
    (hfees : moneyRange nFees = true) : ∀ x ∈ spendSums nSpendHeight tx nFees c, fitsInt64 x := by
  have hhave := (haveInputs_lookups tx c).grows hc
  unfold spendSums
  split
  · simp
  · cases hi : haveInputs tx c with
    | mk present c₁ =>
      rw [hi] at hhave
      cases present with
      | false => simp
      | true =>
        intro x hx
        rcases mem_append.mp hx with hx | hx
        · exact inputSums_fit hhave.funded rfl x hx
        · split at hx
          · rename_i nValueIn c₂ hsum
            obtain ⟨-, hrange, -⟩ := (sumInputs_spec hsum).2 nValueIn rfl
            rcases mem_append.mp hx with hx | hx
            · exact outputSums_fit rfl x hx
            · split at hx
              · rename_i value_out hout
                obtain ⟨hvalue_out, houts⟩ := sumValues_ok hout
                refine feeSums_fit hfees (hrange rfl) ?_ x hx
                rw [hvalue_out, Int.zero_add]
                exact outputsValue_nonneg houts
              · cases hx
          · cases hx

/-- the fees of a loop that ended early: in range before the last addition -/
def FeesBounded (nFees : CAmount) : Prop := 0 ≤ nFees ∧ nFees ≤ 2 * MAX_MONEY

theorem feesBounded_add {txfee : CAmount} (h : moneyRange nFees = true)
    (hfee : moneyRange txfee = true) : FeesBounded (nFees + txfee) := by
  obtain ⟨h₀, h₁⟩ := (moneyRange_iff _).mp h
  obtain ⟨hfee₀, hfee₁⟩ := (moneyRange_iff _).mp hfee
  exact ⟨by linarith, by linarith⟩

theorem feesBounded_of_range (h : moneyRange nFees = true) : FeesBounded nFees := by
  rw [← Int.add_zero nFees]
  exact feesBounded_add h rfl

section
variable {H : Hashes} {rules : BlockRules} {pos : BlockPlace}

variable {st : BlockProgress} {r : Option Invalid × BlockProgress} {block : CBlock}

theorem connectTx_fees {i : Nat} {tx : CTransaction} (hfees : moneyRange st.nFees = true)
    (h : connectTx H rules pos i tx st = .ok r) : FeesBounded r.2.nFees := by
  obtain ⟨c, hspends, hsame, -⟩ := connectTx_cases h
  obtain ⟨-, -, txfee, hfee, hadd, -⟩ := checkSpends_spec hspends
  rw [hsame, hadd]
  exact feesBounded_add hfees hfee

theorem connectTxs_fees {i : Nat} {txs : List CTransaction} (hv : Funded st.view)
    (hfees : moneyRange st.nFees = true) (hcheck : ∀ tx ∈ txs, checkTransaction tx = .ok ())
    (h : connectTxs H rules pos i txs st = .ok r) : FeesBounded r.2.nFees := by
  induction txs generalizing i st with
  | nil =>
    cases h
    exact feesBounded_of_range hfees
  | cons tx txs ih =>
    obtain ⟨⟨e, st₁⟩, h₁, h⟩ := bind_eq_ok.mp h
    cases e with
    | some e =>
      cases h
      exact connectTx_fees hfees h₁
    | none =>
      obtain ⟨hmoney, hgrow⟩ := connectTx_grows hv hfees (hcheck tx mem_cons_self) h₁
      exact ih hgrow.funded hmoney (fun t ht => hcheck t (mem_cons_of_mem _ ht)) h

theorem txsSums_fit {i : Nat} {txs : List CTransaction} (hv : Funded st.view)
    (hfees : moneyRange st.nFees = true) (hcheck : ∀ tx ∈ txs, checkTransaction tx = .ok ()) :
    ∀ x ∈ txsSums H rules pos i txs st, fitsInt64 x := by
  induction txs generalizing i st with
  | nil => simp [txsSums]
  | cons tx txs ih =>
    intro x hx
    rcases mem_append.mp hx with hx | hx
    · exact spendSums_fit hv hfees x hx
    · split at hx
      · rename_i st₁ h₁
        obtain ⟨hmoney, hgrow⟩ := connectTx_grows hv hfees (hcheck tx mem_cons_self) h₁
        exact ih hgrow.funded hmoney (fun t ht => hcheck t (mem_cons_of_mem _ ht)) x hx
      · cases hx

theorem getBlockSubsidy_le (p : ConsensusParams) (nHeight : Nat) : getBlockSubsidy nHeight p ≤ 5 * COIN := by
  rw [getBlockSubsidy_eq, epochSubsidy]
  split
  · decide
  · rw [Int.shiftRight_eq_div_pow]
    exact Int.ediv_le_self _ (by decide)

theorem rewardSums_fit (h : FeesBounded nFees) :
    ∀ x ∈ rewardSums rules pos block nFees, fitsInt64 x := by
  obtain ⟨h₀, h₁⟩ := h
  unfold rewardSums
  split
  · simp
  · intro x hx
    rcases mem_append.mp hx with hx | hx
    · exact outputSums_fit rfl x hx
    · obtain rfl := mem_singleton.mp hx
      have hpos := getBlockSubsidy_nonneg (p := rules.params) pos.nHeight
      have hle := getBlockSubsidy_le rules.params pos.nHeight
      exact fitsInt64_of_le (by linarith) (by linarith)

variable {view : CCoinsViewCache}

theorem connectSums_fit {m : BlockMap} {pprev : Uint256} (hv : Funded view)
    (hcheck : checkContents H rules block = .ok ()) :
    ∀ x ∈ connectSums H rules m pos pprev block view, fitsInt64 x := by
  have hchecks := (checkContents_ok hcheck).2
  have hlook : Grows view (bip30Lookup H rules m pos pprev block view).2 0 := bip30Lookup_grows hv
  intro x hx
  rw [connectSums, connectTransactions_eq] at hx
  cases hfound : bip30Lookup H rules m pos pprev block view with
  | mk found view₁ =>
    rw [hfound] at hx hlook
    rcases mem_append.mp hx with hx | hx
    · cases found with
      | true => cases hx
      | false =>
        have hstart : Funded (BlockProgress.mk view₁ 0 0 []).view := hlook.funded
        exact txsSums_fit hstart rfl hchecks x hx
    · split at hx
      · rename_i r hr
        refine rewardSums_fit ?_ x hx
        cases found with
        | true =>
          cases hr
          exact feesBounded_of_range rfl
        | false =>
          have hstart : Funded (BlockProgress.mk view₁ 0 0 []).view := hlook.funded
          exact connectTxs_fees hstart rfl hchecks hr
      · cases hx

theorem blockSums_fit {m : BlockMap} {pprev : Uint256} (hv : Funded view) :
    ∀ x ∈ blockSums H rules m pos pprev block view, fitsInt64 x := by
  intro x hx
  rcases mem_append.mp hx with hx | hx
  · obtain ⟨tx, -, hx⟩ := mem_flatMap.mp hx
    exact outputSums_fit rfl x hx
  · split at hx
    · cases hx
    · rename_i hcheck
      exact connectSums_fit hv hcheck x hx

end

/-! ## chains -/

section
variable {G : Type} [CommGroup G] (M : MuHash G) (H : Hashes) (rules : BlockRules)

/-- a view that may be handed to `ConnectBlock`: a new cache over anything, or one whose flags tell
the truth -/
def ViewReady (view : CCoinsViewCache) : Prop := view.cacheCoins = FMap.empty ∨ view.Ok

/-- the views on which a chain of blocks is connected after the genesis block, with the height that
is reached.  Between two blocks the set may be handed on to another view that shows it. -/
inductive ConnectRun : Nat → CCoinsViewCache → Prop where
  | genesis {view : CCoinsViewCache} (hset : view.utxos = FMap.empty) (hready : ViewReady view) :
      ConnectRun 0 view
  | handedOn {h : Nat} {view view' : CCoinsViewCache} (hrun : ConnectRun h view)
      (hset : view'.utxos = view.utxos) (hready : ViewReady view') : ConnectRun h view'
  | connected {h : Nat} {view : CCoinsViewCache} {s : CoinsState G} {undo : UndoStore} {m : BlockMap}
      {block : CBlock} {pos : BlockPlace} {writable just update : Bool} {out : Connected G}
      (hrun : ConnectRun h view) (hheight : pos.nHeight = h + 1)
      (hconnect : connectBlock M H rules s undo m block pos view writable just update = .ok out)
      (hvalid : out.verdict = .valid) : ConnectRun (h + 1) out.view

end

theorem holdings_of_ready (h : ViewReady view) : view.holdings = totalValue view.utxos := by
  rw [totalValue, FMap.total_eq_finsum]
  refine finsum_congr fun o => ?_
  rw [FMap.weight, utxos_get]
  show _ = coinValue (view.peek o)
  cases hg : view.cacheCoins.get o with
  | none => rw [worth_of_no_entry hg, peek_of_no_entry hg]
  | some e =>
    rcases h with hempty | hok
    · rw [hempty] at hg
      cases hg
    · rw [worth_of_entry hg, peek_of_entry hg, entryWorth]
      split
      · rename_i hfresh
        rw [((hok.2 o e hg).fresh hfresh).2]
        exact Int.add_zero _
      · exact Int.add_zero _

theorem funded_of_ready (h : ViewReady view)
    (hrange : ∀ o coin, view.peek o = some coin → moneyRange coin.out.nValue = true) :
    Funded view := by
  rcases h with hempty | hok
  · have hnone : ∀ o, view.cacheCoins.get o = none := fun o => by rw [hempty, FMap.empty_get]
    refine ⟨fun o coin _ hp => hrange o coin (by rw [peek_of_no_entry (hnone o), hp]),
      fun o e he => ?_, fun o e he => ?_⟩
    · rw [hnone o] at he
      cases he
    · rw [hnone o] at he
      cases he
  · refine ⟨fun o coin ho hp => ?_, fun o e he hs => ((hok.2 o e he).spent hs).2.1,
      fun o e he hs => hrange o e.coin ?_⟩
    · cases hg : view.cacheCoins.get o with
      | none => exact hrange o coin (by rw [peek_of_no_entry hg, hp])
      | some e =>
        rw [((hok.2 o e hg).fresh (ho e hg)).2] at hp
        cases hp
    · rw [peek_of_entry he, CCoinsView.entryCoin, hs]
      rfl

section
variable {G : Type} [CommGroup G] {M : MuHash G} {H : Hashes} {rules : BlockRules}

def subsidies (params : ConsensusParams) (h : Nat) : CAmount :=
  ∑ i ∈ Finset.Icc 1 h, getBlockSubsidy i params

theorem subsidies_succ (params : ConsensusParams) (h : Nat) :
    subsidies params (h + 1) = subsidies params h + getBlockSubsidy (h + 1) params :=
  Finset.sum_Icc_succ_top (by omega) _

theorem ConnectRun.covered {h : Nat} (hrun : ConnectRun M H rules h view) :
    Funded view ∧ view.holdings ≤ subsidies rules.params h := by
  induction hrun with
  | genesis hset hready =>
    refine ⟨funded_of_ready hready fun o coin hp => ?_, ?_⟩
    · rw [← utxos_get, hset] at hp
      cases hp
    · rw [holdings_of_ready hready, hset]
      exact le_rfl
  | @handedOn h view view' hrun hset hready ih =>
    obtain ⟨hfunded, hle⟩ := ih
    refine ⟨funded_of_ready hready fun o coin hp => ?_, ?_⟩
    · rw [← utxos_get, hset, utxos_get] at hp
      exact hfunded.peek_range hp
    · rw [holdings_of_ready hready, hset]
      exact hfunded.totalValue_le.trans hle
  | @connected h view s undo m block pos writable just update out hrun hheight hconnect hvalid ih =>
    obtain ⟨hfunded, hle⟩ := ih
    have hgrow := connectBlock_grows hfunded hconnect hvalid
    refine ⟨hgrow.funded, hgrow.holdings.trans ?_⟩
    rw [subsidies_succ, hheight]
    exact Int.add_le_add_right hle _

/-- **no inflation**: after any sequence of valid blocks the coins are worth at most the subsidies up
to that height, every coin is in range, and no sum overflows while the next block, valid or not, is
checked and connected -/
theorem no_inflation (h : Nat) (view : CCoinsViewCache) (hrun : ConnectRun M H rules h view) :
    totalValue view.utxos ≤ subsidies rules.params h ∧
      (∀ o coin, view.utxos.get o = some coin → moneyRange coin.out.nValue = true) ∧
      ∀ (m : BlockMap) (pos : BlockPlace) (pprev : Uint256) (block : CBlock),
        ∀ x ∈ blockSums H rules m pos pprev block view.loadBestBlock, fitsInt64 x := by
  obtain ⟨hfunded, hle⟩ := hrun.covered
  refine ⟨hfunded.totalValue_le.trans hle, fun o coin hp => ?_, fun m pos pprev block => ?_⟩
  · rw [utxos_get] at hp
    exact hfunded.peek_range hp
  · exact blockSums_fit (grows_loadBestBlock hfunded).funded

/-- the block 3 on top of the block 1, which attests the two coins it leaves -/
def sampleMinedNext : CBlock :=
  { sampleMined 3 with
    hashPrevBlock := sampleId 1
    vtx := [{ sampleTx COutPoint.null 5 3 with
      vout := [⟨5, [OP_1]⟩, attestationOutput 2 (Uint256.ofByte 2)] }] }

def connectSample (before : ChainCoins (Multiplicative ℤ)) (view : CCoinsView) (block : CBlock)
    (pos : BlockPlace) : Except Fault (Connected (Multiplicative ℤ)) :=
  connectBlock sampleMuHash sampleHashes sampleRules before.coins before.undo sampleFork block pos
    (new view) true false true

/-- a chain of two blocks, the second on a new cache over the view of the first -/
theorem no_inflation_two_blocks : ∃ out₁ out₂ : Connected (Multiplicative ℤ),
    connectSample (sampleAtGenesis none) (sampleAtGenesis none).coins.coinsTip.toView (sampleMined 1)
      (samplePlace 1) = .ok out₁ ∧ out₁.verdict = .valid ∧
    connectSample ⟨out₁.coins, some (sampleId 1), out₁.undo⟩ out₁.view.toView sampleMinedNext
      ⟨sampleId 3, some (sampleId 1), 2⟩ = .ok out₂ ∧ out₂.verdict = .valid ∧
    totalValue out₂.view.utxos ≤ subsidies sampleRules.params 2 := by
  have hgenesis : ConnectRun sampleMuHash sampleHashes sampleRules 0
      (new (sampleAtGenesis none).coins.coinsTip.toView) :=
    .genesis (FMap.ext_get fun o => rfl) (.inl rfl)
  have hbound : ∀ out₁ out₂ : Connected (Multiplicative ℤ),
      connectSample (sampleAtGenesis none) (sampleAtGenesis none).coins.coinsTip.toView (sampleMined 1)
        (samplePlace 1) = .ok out₁ → out₁.verdict = .valid →
      connectSample ⟨out₁.coins, some (sampleId 1), out₁.undo⟩ out₁.view.toView sampleMinedNext
        ⟨sampleId 3, some (sampleId 1), 2⟩ = .ok out₂ → out₂.verdict = .valid →
      totalValue out₂.view.utxos ≤ subsidies sampleRules.params 2 := by
    intro out₁ out₂ h₁ hv₁ h₂ hv₂
    have hfirst := ConnectRun.connected hgenesis rfl h₁ hv₁
    exact (no_inflation 2 _ (.connected (hfirst.handedOn (new_utxos _) (.inl rfl)) rfl h₂ hv₂)).1
  exact ⟨_, _, rfl, rfl, rfl, rfl, hbound _ _ rfl rfl rfl rfl⟩

end

end ElektronNet
