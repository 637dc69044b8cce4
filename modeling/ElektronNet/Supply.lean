import ElektronNet.ConnectRefine
import ElektronNet.Lib.Total

/-!
# What a block adds to the coins

What a cache holds is counted over all outpoints (`worth`): the coin of an entry, the coin of the
base where there is no entry, and both under a FRESH entry, since spending that one shows the base
again.  With this count a lookup changes nothing, a spent coin takes away its value, and an added
coin brings at most its own, also where it overwrites; the blocks that are excused from BIP30 need
no case of their own.

* `Funded c`             every coin of `c` is in `MoneyRange`
* `Grows c c' d`         from `c` to `c'` the holdings grow by at most `d`
* `connectTx_grows`      a transaction takes its fee away, the coinbase brings what it pays
* `connectBlock_grows`   a valid block brings at most its subsidy
-/

namespace ElektronNet

open List Outcome CCoinsViewCache

/-! ## what a cache holds -/

def totalValue (m : Utxos) : ℤ := m.total fun c => c.out.nValue

/-- an entry over a base that shows `below` -/
def entryWorth (e : CCoinsCacheEntry) (below : Option Coin) : ℤ :=
  coinValue (CCoinsView.entryCoin e) + if e.fresh then coinValue below else 0

def CCoinsViewCache.worth (c : CCoinsViewCache) (o : COutPoint) : ℤ :=
  match c.cacheCoins.get o with
  | none => coinValue (c.base.peekCoin o)
  | some e => entryWorth e (c.base.peekCoin o)

noncomputable def CCoinsViewCache.holdings (c : CCoinsViewCache) : ℤ := ∑ᶠ o, c.worth o

/-- the base is shown at `o`, or will be once the FRESH entry there is spent -/
def CCoinsViewCache.Uncovered (c : CCoinsViewCache) (o : COutPoint) : Prop :=
  ∀ e, c.cacheCoins.get o = some e → e.fresh = true

/-- every coin that is or can be shown is in range, and a spent entry is DIRTY -/
structure Funded (c : CCoinsViewCache) : Prop where
  below : ∀ o coin, c.Uncovered o → c.base.peekCoin o = some coin → moneyRange coin.out.nValue = true
  spent : ∀ o e, c.cacheCoins.get o = some e → e.coin.isSpent = true → e.dirty = true
  coins : ∀ o e, c.cacheCoins.get o = some e → e.coin.isSpent = false →
    moneyRange e.coin.out.nValue = true

theorem worth_of_entry {c : CCoinsViewCache} {o : COutPoint} {e : CCoinsCacheEntry}
    (h : c.cacheCoins.get o = some e) : c.worth o = entryWorth e (c.base.peekCoin o) := by
  rw [worth, h]

theorem worth_of_no_entry {c : CCoinsViewCache} {o : COutPoint} (h : c.cacheCoins.get o = none) :
    c.worth o = coinValue (c.base.peekCoin o) := by
  rw [worth, h]

theorem support_worth (c : CCoinsViewCache) : c.worth.support.Finite := by
  refine Set.Finite.subset
    (c.cacheCoins.dom ∪ c.base.fetchEffectiveUTXOs.dom).finite_toSet fun o ho => ?_
  rw [Finset.mem_coe, Finset.mem_union]
  by_contra hmem
  rw [not_or, ← FMap.get_eq_none_iff, ← FMap.get_eq_none_iff,
    fetchEffectiveUTXOs_get] at hmem
  exact ho (by rw [worth_of_no_entry hmem.1, hmem.2]; rfl)

section
variable {c c' c'' : CCoinsViewCache} {o : COutPoint}

theorem coinValue_nonneg {coin : Option Coin}
    (h : ∀ c, coin = some c → moneyRange c.out.nValue = true) : 0 ≤ coinValue coin := by
  cases coin with
  | none => exact le_rfl
  | some c => exact ((moneyRange_iff _).mp (h c rfl)).1

theorem uncovered_of_no_entry (h : c.cacheCoins.get o = none) : c.Uncovered o := by
  intro e he
  rw [h] at he
  cases he

theorem uncovered_of_fresh {e : CCoinsCacheEntry} (h : c.cacheCoins.get o = some e)
    (hf : e.fresh = true) : c.Uncovered o := by
  intro e' he
  rw [h] at he
  cases he
  exact hf

theorem Funded.below_nonneg (h : Funded c) (ho : c.Uncovered o) : 0 ≤ coinValue (c.base.peekCoin o) :=
  coinValue_nonneg fun coin => h.below o coin ho

variable {coin : Coin}

theorem Funded.peek_range (h : Funded c) (hp : c.peek o = some coin) :
    moneyRange coin.out.nValue = true := by
  cases hg : c.cacheCoins.get o with
  | none =>
    rw [peek_of_no_entry hg] at hp
    exact h.below o coin (uncovered_of_no_entry hg) hp
  | some e =>
    rw [peek_of_entry hg, CCoinsView.entryCoin] at hp
    split at hp
    · cases hp
    · rename_i hs
      cases hp
      exact h.coins o e hg (by simpa using hs)

theorem Funded.peek_le_worth (h : Funded c) (o : COutPoint) : coinValue (c.peek o) ≤ c.worth o := by
  cases hg : c.cacheCoins.get o with
  | none => rw [peek_of_no_entry hg, worth_of_no_entry hg]
  | some e =>
    rw [peek_of_entry hg, worth_of_entry hg, entryWorth]
    split
    · rename_i hf
      have := h.below_nonneg (uncovered_of_fresh hg hf)
      omega
    · omega

theorem Funded.totalValue_le (h : Funded c) : totalValue c.utxos ≤ c.holdings := by
  have hshown : ∀ o, FMap.weight (fun c : Coin => c.out.nValue) c.utxos o = coinValue (c.peek o) := by
    intro o
    rw [FMap.weight, utxos_get]
    rfl
  rw [totalValue, FMap.total_eq_finsum]
  refine finsum_le_finsum' ?_ (support_worth c) fun o => ?_
  · exact c.utxos.dom.finite_toSet.subset (FMap.support_weight _ _)
  · rw [hshown]
    exact h.peek_le_worth o

/-- from `c` to `c'` the holdings grow by at most `d`, over a base that shows the same -/
structure Grows (c c' : CCoinsViewCache) (d : ℤ) : Prop where
  funded : Funded c'
  below : ∀ o, c'.base.peekCoin o = c.base.peekCoin o
  holdings : c'.holdings ≤ c.holdings + d

theorem Grows.refl (h : Funded c) : Grows c c 0 := ⟨h, fun _ => rfl, by omega⟩

theorem Grows.trans {d d' : ℤ} (h : Grows c c' d) (h' : Grows c' c'' d') : Grows c c'' (d + d') := by
  refine ⟨h'.funded, fun o => (h'.below o).trans (h.below o), ?_⟩
  have h₁ := h.holdings
  have h₂ := h'.holdings
  omega

theorem Grows.mono {d d' : ℤ} (h : Grows c c' d) (hd : d ≤ d') : Grows c c' d' :=
  ⟨h.funded, h.below, by have := h.holdings; omega⟩

theorem grows_base (h : Funded c) {base : CCoinsView} (hb : ∀ o, base.peekCoin o = c.base.peekCoin o)
    {hash : Uint256} : Grows c { c with base := base, m_block_hash := hash } 0 := by
  refine ⟨⟨fun o coin ho hp => h.below o coin ho (by rw [← hb]; exact hp), h.spent, h.coins⟩, hb, ?_⟩
  have hw : worth { c with base := base, m_block_hash := hash } = worth c := by
    funext o
    show (match c.cacheCoins.get o with | none => _ | some e => _) = _
    rw [worth, hb]
  rw [CCoinsViewCache.holdings, hw, CCoinsViewCache.holdings]
  omega

theorem grows_insert (h : Funded c) {e : CCoinsCacheEntry} {d : ℤ}
    (hspent : e.coin.isSpent = true → e.dirty = true)
    (hcoin : e.coin.isSpent = false → moneyRange e.coin.out.nValue = true)
    (hfresh : e.fresh = true → c.Uncovered o)
    (hworth : entryWorth e (c.base.peekCoin o) ≤ c.worth o + d) :
    Grows c { c with cacheCoins := c.cacheCoins.insert o e } d := by
  refine ⟨⟨fun k coin hk => h.below k coin fun e' he' => ?_, fun k e' hk hs => ?_,
    fun k e' hk hs => ?_⟩, fun _ => rfl,
    Holdings.finsum_le_add (support_worth c) (support_worth _) (k := o) ?_ fun k hk => ?_⟩
  · by_cases hko : k = o
    · subst hko
      exact hfresh (hk e (FMap.insert_get_self k e _)) e' he'
    · exact hk e' ((FMap.insert_get_ne hko e _).trans he')
  · rw [FMap.insert_get] at hk
    split at hk
    · cases hk
      exact hspent hs
    · exact h.spent k e' hk hs
  · rw [FMap.insert_get] at hk
    split at hk
    · cases hk
      exact hcoin hs
    · exact h.coins k e' hk hs
  · rw [worth_of_entry (c := { c with cacheCoins := c.cacheCoins.insert o e })
      (FMap.insert_get_self o e _)]
    exact hworth
  · show (match (c.cacheCoins.insert o e).get k with | none => _ | some e => _) ≤ _
    rw [FMap.insert_get_ne hk]
    exact le_rfl

theorem grows_erase (h : Funded c) {d : ℤ} (ho : c.Uncovered o)
    (hworth : coinValue (c.base.peekCoin o) ≤ c.worth o + d) :
    Grows c { c with cacheCoins := c.cacheCoins.erase o } d := by
  have hold : ∀ {k e}, (c.cacheCoins.erase o).get k = some e → c.cacheCoins.get k = some e := by
    intro k e hk
    rw [FMap.erase_get] at hk
    split at hk
    · cases hk
    · exact hk
  have huncovered : ∀ k, Uncovered { c with cacheCoins := c.cacheCoins.erase o } k → c.Uncovered k := by
    intro k hk
    by_cases hko : k = o
    · exact hko ▸ ho
    · exact fun e he => hk e ((FMap.erase_get_ne hko _).trans he)
  refine ⟨⟨fun k coin hk => h.below k coin (huncovered k hk), fun k e hk => h.spent k e (hold hk),
    fun k e hk => h.coins k e (hold hk)⟩, fun _ => rfl,
    Holdings.finsum_le_add (support_worth c) (support_worth _) (k := o) ?_ fun k hk => ?_⟩
  · rw [worth_of_no_entry (c := { c with cacheCoins := c.cacheCoins.erase o }) (FMap.erase_get_self o _)]
    exact hworth
  · show (match (c.cacheCoins.erase o).get k with | none => _ | some e => _) ≤ _
    rw [FMap.erase_get_ne hk]
    exact le_rfl

/-! ## lookups, spending, adding -/

theorem grows_fetchCoin (h : Funded c) (o : COutPoint) : Grows c (c.fetchCoin o) 0 := by
  have hbelow : ∀ k, (c.fetchCoin o).base.peekCoin k = c.base.peekCoin k :=
    fetchCoin_base_peekCoin c o
  -- the entry that a lookup leaves is worth what the base shows
  have hfilled : Grows c { c with toCacheLayer := c.filled o (c.base.peekCoin o) } 0 := by
    cases hg : c.cacheCoins.get o with
    | some e =>
      have hfill : c.filled o (c.base.peekCoin o) = c.toCacheLayer := by
        unfold CacheLayer.filled
        rw [hg]
      rw [hfill]
      exact Grows.refl h
    | none =>
      cases hp : c.base.peekCoin o with
      | none =>
        have hfill : c.filled o none = c.toCacheLayer := by
          unfold CacheLayer.filled
          rw [hg]
        rw [hfill]
        exact Grows.refl h
      | some coin =>
        have hunspent : coin.isSpent = false := peekCoin_unspent hp
        have hfill : c.filled o (some coin) = { c.toCacheLayer with
            cacheCoins := c.cacheCoins.insert o ⟨coin, false, false⟩ } := by
          unfold CacheLayer.filled
          rw [hg]
        rw [hfill]
        refine grows_insert h (fun hs => ?_) (fun _ => h.below o coin (uncovered_of_no_entry hg) hp)
          (fun hf => by cases hf) ?_
        · rw [hunspent] at hs
          cases hs
        · rw [worth_of_no_entry hg, hp, entryWorth, CCoinsView.entryCoin, hunspent]
          simp
  have hbase : Grows _ (c.fetchCoin o) 0 := grows_base hfilled.funded hbelow
  exact (hfilled.trans hbase).mono (by omega)

theorem Lookups.grows (h : Lookups c c') (hc : Funded c) : Grows c c' 0 := by
  induction h with
  | refl => exact Grows.refl hc
  | tail _ hfetch ih =>
    obtain ⟨k, rfl⟩ := hfetch
    exact (ih.trans (grows_fetchCoin ih.funded k)).mono (by omega)

theorem spendCoin_grows (h : Funded c) (hp : c.peek o = some coin) :
    ∃ c', c.spendCoin o = (some coin, c') ∧ Grows c c' (-coin.out.nValue) ∧
      ∀ k, k ≠ o → c'.peek k = c.peek k := by
  have hlook := grows_fetchCoin h o
  have hf := hlook.funded
  obtain ⟨e, hg, hcoin⟩ : ∃ e, (c.fetchCoin o).cacheCoins.get o = some e ∧
      CCoinsView.entryCoin e = some coin := by
    cases hg : (c.fetchCoin o).cacheCoins.get o with
    | none =>
      rw [peek_of_fetchCoin_none hg] at hp
      cases hp
    | some e => exact ⟨e, rfl, by rw [← peek_of_fetchCoin_some hg, hp]⟩
  have hworth := worth_of_entry hg
  rw [entryWorth, hcoin] at hworth
  obtain ⟨hunspent, rfl⟩ : e.coin.isSpent = false ∧ e.coin = coin := by
    rw [CCoinsView.entryCoin] at hcoin
    split at hcoin
    · cases hcoin
    · rename_i hs
      exact ⟨by simpa using hs, Option.some.inj hcoin⟩
  rw [spendCoin, hg]
  refine ⟨_, rfl, ?_, fun k hk => ?_⟩
  · cases hfresh : e.fresh with
    | true =>
      rw [hfresh, if_pos rfl] at hworth
      have hgrow := grows_erase hf (d := -e.coin.out.nValue) (uncovered_of_fresh hg hfresh) (by
        rw [hworth, coinValue_some]
        omega)
      exact (hlook.trans hgrow).mono (by omega)
    | false =>
      rw [hfresh, if_neg (by simp)] at hworth
      have hgrow := grows_insert hf (o := o) (e := ⟨Coin.empty, true, false⟩)
        (d := -e.coin.out.nValue) (fun _ => rfl) (fun hs => by cases hs) (fun hf => by cases hf) (by
          rw [hworth, coinValue_some]
          show (0 : ℤ) + 0 ≤ _
          omega)
      exact (hlook.trans hgrow).mono (by omega)
  · rw [← fetchCoin_peek c o k]
    cases hfresh : e.fresh with
    | true => exact (peek_erase _ o k).trans (if_neg hk)
    | false => exact (peek_insert _ o _ k).trans (if_neg hk)

theorem addCoin_grows (h : Funded c) {ow : Bool} (hadd : c.addCoin o coin ow = .ok c')
    (hcoin : moneyRange coin.out.nValue = true) : Grows c c' coin.out.nValue := by
  have hnonneg := ((moneyRange_iff _).mp hcoin).1
  obtain ⟨hunspent, ⟨-, rfl⟩ | ⟨-, it, hit, hspent, rfl⟩⟩ := addCoin_eq_ok hadd
  · exact (Grows.refl h).mono hnonneg
  · have hval : coinValue (CCoinsView.entryCoin ⟨coin, true, it.fresh || (!ow && !it.dirty)⟩) =
        coin.out.nValue := by
      rw [CCoinsView.entryCoin, hunspent]
      rfl
    cases hg : c.cacheCoins.get o with
    | none =>
      -- no entry: the coin of the base stays under a FRESH one and is overwritten otherwise
      have ho := uncovered_of_no_entry hg
      have hbelow := h.below_nonneg ho
      refine grows_insert h (fun _ => rfl) (fun _ => hcoin) (fun _ => ho) ?_
      rw [entryWorth, worth_of_no_entry hg]
      split <;> omega
    | some e =>
      obtain rfl : it = e := by rw [hit, hg]; rfl
      -- FRESH only where it was before: an entry that may not be overwritten is spent, so DIRTY
      have hfresh : (it.fresh || (!ow && !it.dirty)) = it.fresh := by
        cases ow with
        | true => simp
        | false =>
          rw [h.spent o it hg (hspent rfl)]
          simp
      have hentry : 0 ≤ coinValue (CCoinsView.entryCoin it) := by
        refine coinValue_nonneg fun coin' hc' => ?_
        rw [CCoinsView.entryCoin] at hc'
        split at hc'
        · cases hc'
        · rename_i hs
          cases hc'
          exact h.coins o it hg (by simpa using hs)
      refine grows_insert h (fun _ => rfl) (fun _ => hcoin)
        (fun hf => uncovered_of_fresh hg (hfresh.symm.trans hf)) ?_
      rw [entryWorth, hval, worth_of_entry hg, entryWorth]
      simp only [hfresh]
      split <;> omega

end

/-! ## transactions -/

section
variable {c c' : CCoinsViewCache}

variable {vin : List CTxIn}

theorem spendInputs_grows (hc : Funded c) (hnodup : (vin.map CTxIn.prevout).Nodup)
    (hpresent : ∀ txin ∈ vin, ∃ coin, c.peek txin.prevout = some coin) :
    ∃ coins c', spendInputs vin c = .ok (coins, c') ∧ Grows c c' (-inputsValue vin c) := by
  induction vin generalizing c with
  | nil => exact ⟨[], c, rfl, Grows.refl hc⟩
  | cons txin vin ih =>
    obtain ⟨hnot, hnodup⟩ := nodup_cons.mp hnodup
    obtain ⟨coin, hcoin⟩ := hpresent txin mem_cons_self
    obtain ⟨c₁, hspend, hgrow, hothers⟩ := spendCoin_grows hc hcoin
    have hsame : ∀ t ∈ vin, c₁.peek t.prevout = c.peek t.prevout := fun t ht =>
      hothers _ fun e => hnot (e ▸ mem_map_of_mem ht)
    obtain ⟨coins, c₂, hrest, hgrow₂⟩ := ih hgrow.funded hnodup fun t ht => by
      rw [hsame t ht]
      exact hpresent t (mem_cons_of_mem _ ht)
    refine ⟨coin :: coins, c₂, ?_, (hgrow.trans hgrow₂).mono ?_⟩
    · rw [spendInputs, hspend]
      simp only [hrest]
      rfl
    · rw [inputsValue_congr hsame]
      rw [inputsValue_cons, hcoin, coinValue_some]
      omega

theorem addCoinsFrom_grows {txid : Uint256} {nHeight : Nat} {cb : Bool} {i : Nat}
    {outs : List CTxOut} (hc : Funded c) (hrange : ∀ out ∈ outs, moneyRange out.nValue = true)
    (h : addCoinsFrom txid nHeight cb false i outs c = .ok c') : Grows c c' (outputsValue outs) := by
  induction outs generalizing i c with
  | nil =>
    cases h
    exact Grows.refl hc
  | cons out outs ih =>
    obtain ⟨c₁, h₁, h₂⟩ := bind_eq_ok.mp h
    have hadd := addCoin_grows hc h₁ (hrange out mem_cons_self)
    have hrest := ih hadd.funded (fun o ho => hrange o (mem_cons_of_mem _ ho)) h₂
    exact (hadd.trans hrest).mono (by rw [outputsValue_cons])

theorem updateCoins_grows {H : Hashes} {tx : CTransaction} {nHeight : Nat}
    {u : CTxUndo × CCoinsViewCache} (hc : Funded c)
    (hrange : ∀ out ∈ tx.vout, moneyRange out.nValue = true) (hnodup : (tx.vin.map CTxIn.prevout).Nodup)
    (hpresent : tx.isCoinBase = false → ∀ txin ∈ tx.vin, ∃ coin, c.peek txin.prevout = some coin)
    (h : updateCoins H tx c nHeight = .ok u) :
    Grows c u.2 (outputsValue tx.vout - if tx.isCoinBase then 0 else inputsValue tx.vin c) := by
  obtain ⟨⟨coins, c₁⟩, h₁, h₂⟩ := bind_eq_ok.mp h
  obtain ⟨c₂, h₃, h₂⟩ := bind_eq_ok.mp h₂
  cases h₂
  rw [spendTxInputs] at h₁
  cases hcb : tx.isCoinBase with
  | true =>
    rw [hcb] at h₁
    cases h₁
    exact (addCoinsFrom_grows hc hrange h₃).mono (by simp)
  | false =>
    obtain ⟨coins', c₃, hspend, hgrow⟩ := spendInputs_grows hc hnodup (hpresent hcb)
    rw [hcb, hspend] at h₁
    cases h₁
    refine (hgrow.trans (addCoinsFrom_grows hgrow.funded hrange h₃)).mono ?_
    rw [if_neg (by simp)]
    omega

end

/-! ## blocks -/

section
variable {H : Hashes} {rules : BlockRules} {pos : BlockPlace}

variable {tx : CTransaction} {st st' : BlockProgress} {txs : List CTransaction} {m : BlockMap}
  {pprev : Uint256} {block : CBlock} {view : CCoinsViewCache}

theorem connectTx_grows {i : Nat} (hv : Funded st.view) (hfees : moneyRange st.nFees = true)
    (hcheck : checkTransaction tx = .ok ()) (h : connectTx H rules pos i tx st = .ok (none, st')) :
    moneyRange st'.nFees = true ∧
      Grows st.view st'.view (st.nFees - st'.nFees + if tx.isCoinBase then outputsValue tx.vout else 0) := by
  obtain ⟨⟨e, st₁⟩, hspends, hnFees, ⟨hsome, -⟩ | ⟨he, -, u, hupdate, hview, -⟩⟩ := connectTx_cases h
  · cases hsome
  obtain rfl : e = none := he
  obtain ⟨hlook, -, txfee, -, hadd, hnone⟩ := checkSpends_spec hspends
  obtain ⟨hcb, hspend⟩ := hnone rfl
  have hlooked := hlook.grows hv
  have hsame : inputsValue tx.vin st₁.view = inputsValue tx.vin st.view :=
    inputsValue_congr fun t _ => hlook.peek _
  have hpresent : tx.isCoinBase = false →
      ∀ txin ∈ tx.vin, ∃ coin, st₁.view.peek txin.prevout = some coin := by
    intro hc t ht
    obtain ⟨coin, hcoin, -⟩ := (hspend hc).2.2 t ht
    exact ⟨coin, by rw [hlook.peek, ← utxos_get, hcoin]⟩
  have hgrow := updateCoins_grows hlooked.funded (checkTransaction_range hcheck)
    (checkTransaction_cases hcheck).1 hpresent hupdate
  rw [hnFees]
  cases hc : tx.isCoinBase with
  | true =>
    rw [hcb hc] at hadd
    refine ⟨by rw [hadd, Int.add_zero]; exact hfees, hview ▸ (hlooked.trans hgrow).mono ?_⟩
    rw [hc, if_pos rfl, if_pos rfl, hadd]
    omega
  | false =>
    obtain ⟨hmoney, hfee, -⟩ := hspend hc
    refine ⟨hmoney, hview ▸ (hlooked.trans hgrow).mono ?_⟩
    rw [hc, if_neg (by simp), if_neg (by simp)]
    linarith

theorem connectTxs_grows {i : Nat} (hv : Funded st.view) (hfees : moneyRange st.nFees = true)
    (hcheck : ∀ tx ∈ txs, checkTransaction tx = .ok ()) (hcb : ∀ tx ∈ txs, tx.isCoinBase = false)
    (h : connectTxs H rules pos i txs st = .ok (none, st')) :
    Grows st.view st'.view (st.nFees - st'.nFees) := by
  induction txs generalizing i st with
  | nil =>
    cases h
    exact (Grows.refl hv).mono (by omega)
  | cons tx txs ih =>
    obtain ⟨⟨e, st₁⟩, h₁, h⟩ := bind_eq_ok.mp h
    cases e with
    | some e => cases h
    | none =>
      have htx := hcb tx mem_cons_self
      obtain ⟨hmoney, hgrow⟩ := connectTx_grows hv hfees (hcheck tx mem_cons_self) h₁
      have hrest := ih hgrow.funded hmoney (fun t ht => hcheck t (mem_cons_of_mem _ ht))
        (fun t ht => hcb t (mem_cons_of_mem _ ht)) h
      rw [htx, if_neg (by simp)] at hgrow
      exact (hgrow.trans hrest).mono (by omega)

/-- the BIP30 lookups: whether an output is there already, and the view they leave -/
def bip30Lookup (H : Hashes) (rules : BlockRules) (m : BlockMap) (pos : BlockPlace) (pprev : Uint256)
    (block : CBlock) (view : CCoinsViewCache) : Bool × CCoinsViewCache :=
  if enforceBIP30 rules m pos pprev then haveAnyOutput H block.vtx view else (false, view)

theorem bip30Lookup_grows (h : Funded view) :
    Grows view (bip30Lookup H rules m pos pprev block view).2 0 := by
  unfold bip30Lookup
  split
  · exact (haveAnyOutput_spec H block.vtx view).1.grows h
  · exact Grows.refl h

theorem connectTransactions_eq : connectTransactions H rules m pos pprev block view =
      match bip30Lookup H rules m pos pprev block view with
      | (true, view) =>
        pure (some ⟨"bad-txns-BIP30", "tried to overwrite transaction"⟩, ⟨view, 0, 0, []⟩)
      | (false, view) => connectTxs H rules pos 0 block.vtx ⟨view, 0, 0, []⟩ := by
  unfold connectTransactions bip30Lookup
  split <;> rfl

theorem connectTransactions_grows {coinbase : CTransaction} (hv : Funded view)
    (hcheck : checkContents H rules block = .ok ()) (hvtx : block.vtx = coinbase :: txs)
    (h : connectTransactions H rules m pos pprev block view = .ok (none, st)) :
    Grows view st.view (outputsValue coinbase.vout - st.nFees) := by
  obtain ⟨⟨coinbase', txs', hvtx', hfirst, hcb⟩, hchecks⟩ := checkContents_ok hcheck
  obtain ⟨rfl, rfl⟩ := List.cons.inj (hvtx.symm.trans hvtx')
  have hlook : Grows view (bip30Lookup H rules m pos pprev block view).2 0 := bip30Lookup_grows hv
  rw [connectTransactions_eq] at h
  cases hfound : bip30Lookup H rules m pos pprev block view with
  | mk found view₁ =>
    rw [hfound] at h hlook
    cases found with
    | true => cases h
    | false =>
      rw [hvtx] at h hchecks
      obtain ⟨⟨e, st₁⟩, h₁, h⟩ := bind_eq_ok.mp h
      cases e with
      | some e => cases h
      | none =>
        obtain ⟨hmoney, hgrow⟩ := connectTx_grows hlook.funded rfl
          (hchecks coinbase mem_cons_self) h₁
        have hrest := connectTxs_grows hgrow.funded hmoney
          (fun t ht => hchecks t (mem_cons_of_mem _ ht)) hcb h
        rw [hfirst] at hgrow
        refine (hlook.trans (hgrow.trans hrest)).mono ?_
        show 0 + (0 - st₁.nFees + outputsValue coinbase.vout + (st₁.nFees - st.nFees)) ≤ _
        linarith

theorem checkReward_paid {r : Option Invalid × BlockProgress} {coinbase : CTransaction}
    (hvtx : block.vtx = coinbase :: txs) (h : checkReward rules pos block r = .ok (none, st)) :
    r = (none, st) ∧
      outputsValue coinbase.vout ≤ st.nFees + getBlockSubsidy pos.nHeight rules.params := by
  obtain ⟨hst, hnone⟩ := checkReward_spec h
  obtain ⟨e, st'⟩ := r
  obtain rfl : st = st' := hst
  obtain rfl : e = none := hnone rfl
  rw [checkReward, hvtx] at h
  obtain ⟨value_out, hvalue, h⟩ := bind_eq_ok.mp h
  have hsum := (sumValues_ok hvalue).1
  refine ⟨rfl, ?_⟩
  simp only at h
  split at h
  · cases h
  · rename_i hle
    linarith

end

section
variable {G : Type} [CommGroup G] {M : MuHash G} {H : Hashes} {rules : BlockRules} {pos : BlockPlace}

variable {s : CoinsState G} {undo : UndoStore} {block : CBlock} {view : CCoinsViewCache}
  {writable just update : Bool}

theorem grows_commitBlock {vtxundo : List CTxUndo} (hv : Funded view) :
    Grows view (commitBlock M H s undo block pos view vtxundo writable just update).view 0 := by
  unfold commitBlock
  split
  · exact Grows.refl hv
  · split
    · exact Grows.refl hv
    · exact grows_base hv fun _ => rfl

theorem grows_loadBestBlock (hv : Funded view) : Grows view view.loadBestBlock 0 := by
  unfold loadBestBlock
  split
  · exact grows_base hv fun o => ((sameStack_loadBestBlock view.base).peek o).symm
  · exact Grows.refl hv

theorem connectContents_grows {m : BlockMap} {pprev : Uint256} {out : Connected G}
    (hv : Funded view) (hcheck : checkContents H rules block = .ok ())
    (h : connectContents M H rules s undo m block pos pprev view writable just update = .ok out)
    (hvalid : out.verdict = .valid) :
    Grows view out.view (getBlockSubsidy pos.nHeight rules.params) := by
  obtain ⟨⟨coinbase, txs, hvtx, -⟩, -⟩ := checkContents_ok hcheck
  obtain ⟨⟨e, st⟩, htxs, ⟨hnot, -⟩ | ⟨he, hreward, base, hb, rfl⟩⟩ := connectContents_cases h
  · exact absurd hvalid hnot
  obtain rfl : e = none := he
  have hpaid := (checkReward_paid hvtx hreward).2
  have hgrow := connectTransactions_grows hv hcheck hvtx htxs
  have hbase : Grows st.view { st.view with base := base } 0 :=
    grows_base hgrow.funded fun o => (hb.peek o).symm
  refine (hgrow.trans (hbase.trans (grows_commitBlock hbase.funded))).mono ?_
  linarith

theorem connectBlock_grows {m : BlockMap} {out : Connected G} (hv : Funded view)
    (h : connectBlock M H rules s undo m block pos view writable just update = .ok out)
    (hvalid : out.verdict = .valid) :
    Grows view out.view (getBlockSubsidy pos.nHeight rules.params) := by
  have hload := grows_loadBestBlock hv
  obtain ⟨hne, -⟩ | ⟨-, hcheck, -, ⟨-, rfl⟩ | ⟨-, pprev, -, hcontents⟩⟩ := connectBlock_cases h
  · exact absurd hvalid hne
  · -- the genesis block: none of its transactions is connected
    have hset : Grows view.loadBestBlock (view.loadBestBlock.setBestBlock pos.hash) 0 :=
      grows_base hload.funded fun _ => rfl
    have hsubsidy := getBlockSubsidy_nonneg (p := rules.params) pos.nHeight
    split
    · exact hload.mono hsubsidy
    · exact (hload.trans hset).mono (by linarith)
  · exact (hload.trans (connectContents_grows hload.funded (checkBlock_ok hcheck) hcontents
      hvalid)).mono (by linarith)

end

end ElektronNet
