import ElektronNet.CoinCursor
import ElektronNet.CoinsState

/-!
# Walking over a stack of caches

`FetchEffectiveUTXOs`, `Cursor` and `ForEachUnspent` of `coins.cpp` as the loops they are, and
`ComputeUTXOStats` of `kernel/coinstats.cpp` over them with every number it adds up.  `nDiskSize` is
left out, it is an estimate of the database library.

* `cursorEntries`        what the cursor of a view goes through: a database in the order of its keys, a
                         cache in the order of the outpoints
* `cursorEntries_spec`   that is what `GetCoin` answers, each outpoint once
* `flushAll`             every cache written into the one under it, down to the database
* `flushAll_spec`        the database then shows what the stack showed
* `utxoStats_eq`         the statistics of a view depend on what it shows and on its best block only
* `utxoStats_flushed`    so hashing before a flush and hashing behind it agree
-/

namespace ElektronNet

open List

namespace CCoinsView

/-! ## the cursor -/

/-- the first loop of `FetchEffectiveUTXOs`: the coins of the base that the cache has no entry for -/
def fromBase (cacheCoins : CCoinsMap) (entries : List CoinEntry) : Utxos :=
  entries.foldl (fun utxos e =>
    if cacheCoins.get e.1 = none ∧ e.2.isSpent = false then
      -- `emplace` leaves a coin that is there
      if utxos.get e.1 = none then utxos.insert e.1 e.2 else utxos
    else utxos) FMap.empty

def overlay (utxos : Utxos) (e : COutPoint × CCoinsCacheEntry) : Utxos :=
  if e.2.coin.isSpent = false then utxos.insert e.1 e.2.coin else utxos.erase e.1

def overlaid (entries : List (COutPoint × CCoinsCacheEntry)) (utxos : Utxos) : Utxos :=
  entries.foldl overlay utxos

/-- the entries of the cursor.  The map of a cache has no order; the keys of its entries differ, so
the order of the second loop does not matter. -/
def cursorEntries : CCoinsView → List CoinEntry
  | .db d => cursor d.coins
  | .cache l base => (overlaid l.cacheCoins.toList (fromBase l.cacheCoins base.cursorEntries)).toList

theorem fromBase_get {cacheCoins : CCoinsMap} {entries : List CoinEntry}
    (hnodup : (entries.map Prod.fst).Nodup) (o : COutPoint) (c : Coin) :
    (fromBase cacheCoins entries).get o = some c ↔
      (o, c) ∈ entries ∧ cacheCoins.get o = none ∧ c.isSpent = false := by
  -- from the back: the last coin is the one that is added
  induction entries using List.reverseRecOn generalizing o c with
  | nil =>
    show FMap.empty.get o = some c ↔ _
    simp
  | append_singleton entries e ih =>
    rw [map_append, nodup_append] at hnodup
    obtain ⟨hfront, -, hapart⟩ := hnodup
    have hnew : ∀ c, (e.1, c) ∉ entries := by
      intro c hc
      exact hapart e.1 (mem_map.mpr ⟨_, hc, rfl⟩) e.1 (mem_singleton_self _) rfl
    have ih := ih hfront
    have hfree : (fromBase cacheCoins entries).get e.1 = none := by
      cases hget : (fromBase cacheCoins entries).get e.1 with
      | none => rfl
      | some c => exact absurd ((ih e.1 c).mp hget).1 (hnew c)
    have hlast : fromBase cacheCoins (entries ++ [e]) =
        if cacheCoins.get e.1 = none ∧ e.2.isSpent = false then
          (fromBase cacheCoins entries).insert e.1 e.2 else fromBase cacheCoins entries := by
      unfold fromBase at hfree ⊢
      rw [foldl_append, foldl_cons, foldl_nil, if_pos hfree]
    rw [hlast, mem_append, mem_singleton]
    by_cases htaken : cacheCoins.get e.1 = none ∧ e.2.isSpent = false
    · rw [if_pos htaken, FMap.insert_get]
      by_cases ho : o = e.1
      · rw [if_pos ho]
        constructor
        · intro hc
          obtain rfl := Option.some.inj hc
          exact ⟨Or.inr (Prod.ext ho rfl), ho ▸ htaken.1, htaken.2⟩
        · rintro ⟨hmem | hmem, -⟩
          · exact absurd (ho ▸ hmem) (hnew c)
          · exact congrArg (fun x => some x.2) hmem.symm
      · rw [if_neg ho, ih o c]
        constructor
        · rintro ⟨hmem, hrest⟩
          exact ⟨Or.inl hmem, hrest⟩
        · rintro ⟨hmem | hmem, hrest⟩
          · exact ⟨hmem, hrest⟩
          · exact absurd (congrArg Prod.fst hmem) ho
    · rw [if_neg htaken, ih o c]
      constructor
      · rintro ⟨hmem, hrest⟩
        exact ⟨Or.inl hmem, hrest⟩
      · rintro ⟨hmem | rfl, hrest⟩
        · exact ⟨hmem, hrest⟩
        · exact absurd hrest htaken

variable {o : COutPoint}

theorem overlay_get_ne {e : COutPoint × CCoinsCacheEntry} (h : o ≠ e.1)
    (utxos : Utxos) : (overlay utxos e).get o = utxos.get o := by
  unfold overlay
  split
  · exact FMap.insert_get_ne h _ _
  · exact FMap.erase_get_ne h _

theorem overlay_get_self (o : COutPoint) (e : CCoinsCacheEntry) (utxos : Utxos) :
    (overlay utxos (o, e)).get o = entryCoin e := by
  unfold overlay entryCoin
  cases hs : e.coin.isSpent with
  | false => exact FMap.insert_get_self _ _ _
  | true => exact FMap.erase_get_self _ _

theorem overlaid_get_of_not_mem {entries : List (COutPoint × CCoinsCacheEntry)}
    {utxos : Utxos} (h : ∀ e, (o, e) ∉ entries) : (overlaid entries utxos).get o = utxos.get o := by
  induction entries generalizing utxos with
  | nil => rfl
  | cons x entries ih =>
    have hne : o ≠ x.1 := by
      rintro rfl
      exact h x.2 mem_cons_self
    exact (ih fun e he => h e (mem_cons_of_mem _ he)).trans (overlay_get_ne hne utxos)

theorem overlaid_get {entries : List (COutPoint × CCoinsCacheEntry)} {utxos : Utxos}
    (hnodup : (entries.map Prod.fst).Nodup) {e : CCoinsCacheEntry} (h : (o, e) ∈ entries) :
    (overlaid entries utxos).get o = entryCoin e := by
  induction entries generalizing utxos with
  | nil => cases h
  | cons x entries ih =>
    obtain ⟨hnot, hnodup⟩ := nodup_cons.mp hnodup
    rcases mem_cons.mp h with rfl | hmem
    · have hrest : ∀ e', (o, e') ∉ entries := fun e' he' => hnot (mem_map.mpr ⟨_, he', rfl⟩)
      exact (overlaid_get_of_not_mem hrest).trans (overlay_get_self o e utxos)
    · exact ih hnodup hmem

theorem toList_keys_nodup {V : Type} (m : FMap COutPoint V) : (m.toList.map Prod.fst).Nodup := by
  rw [List.Nodup, pairwise_map]
  exact (FMap.toList_pairwise m).imp fun {a b} hlt => ne_of_lt hlt

theorem overlaid_fromBase (l : CacheLayer) (base : CCoinsView)
    (hnodup : (base.cursorEntries.map Prod.fst).Nodup)
    (hmem : ∀ o c, (o, c) ∈ base.cursorEntries ↔ base.peekCoin o = some c) :
    overlaid l.cacheCoins.toList (fromBase l.cacheCoins base.cursorEntries) =
      (CCoinsView.cache l base).fetchEffectiveUTXOs := by
  refine FMap.ext_get fun o => ?_
  rw [fetchEffectiveUTXOs_get, peekCoin]
  cases hentry : l.cacheCoins.get o with
  | some e =>
    exact overlaid_get (toList_keys_nodup _) ((FMap.mem_toList _ _ _).mpr hentry)
  | none =>
    rw [overlaid_get_of_not_mem fun e he => by
      rw [FMap.mem_toList, hentry] at he
      cases he]
    refine Option.ext fun c => ?_
    rw [fromBase_get hnodup, hmem]
    constructor
    · exact fun h => h.1
    · exact fun h => ⟨h, hentry, peekCoin_unspent h⟩

theorem cursorEntries_spec (v : CCoinsView) : (v.cursorEntries.map Prod.fst).Nodup ∧
    ∀ o c, (o, c) ∈ v.cursorEntries ↔ v.peekCoin o = some c := by
  induction v with
  | db d =>
    refine ⟨cursor_nodup d.coins, fun o c => ?_⟩
    rw [cursorEntries, (cursor_perm d.coins).mem_iff, FMap.mem_toList]
    rfl
  | cache l base ih =>
    rw [cursorEntries, overlaid_fromBase l base ih.1 ih.2]
    refine ⟨toList_keys_nodup _, fun o c => ?_⟩
    rw [FMap.mem_toList, fetchEffectiveUTXOs_get]

theorem cursorEntries_cache (l : CacheLayer) (base : CCoinsView) :
    (CCoinsView.cache l base).cursorEntries = (CCoinsView.cache l base).fetchEffectiveUTXOs.toList := by
  obtain ⟨hnodup, hmem⟩ := cursorEntries_spec base
  rw [cursorEntries, overlaid_fromBase l base hnodup hmem]

theorem cursorEntries_perm (v : CCoinsView) : v.cursorEntries.Perm v.fetchEffectiveUTXOs.toList := by
  cases v with
  | db d => exact cursor_perm d.coins
  | cache l base => rw [cursorEntries_cache]

theorem cursorEntries_hash_le (v : CCoinsView) :
    v.cursorEntries.Pairwise fun a b => a.1.hash ≤ b.1.hash := by
  cases v with
  | db d => exact cursor_hash_le d.coins
  | cache l base =>
    refine (FMap.toList_pairwise _).imp fun {a b} hlt => ?_
    rcases Prod.Lex.toLex_lt_toLex.mp hlt with hhash | ⟨hhash, -⟩
    · exact hhash.le
    · exact hhash.le

/-! ## ForEachUnspent -/

/-- the loop over the cursor; `fn` is given what it has kept so far and says whether to go on -/
def visit {σ : Type} (fn : σ → COutPoint → Coin → Bool × σ) : List CoinEntry → σ → σ
  | [], s => s
  | e :: entries, s =>
    match fn s e.1 e.2 with
    | (true, s) => visit fn entries s
    | (false, s) => s

def forEachUnspent {σ : Type} (v : CCoinsView) (fn : σ → COutPoint → Coin → Bool × σ) (s : σ) : σ :=
  visit fn v.cursorEntries s

theorem visit_all {σ : Type} (f : σ → CoinEntry → σ) (entries : List CoinEntry) (s : σ) :
    visit (fun s o c => (true, f s (o, c))) entries s = entries.foldl f s := by
  induction entries generalizing s with
  | nil => rfl
  | cons e entries ih => exact ih (f s e)

def note (seen : List CoinEntry) (o : COutPoint) (c : Coin) : Bool × List CoinEntry :=
  (true, seen ++ [(o, c)])

theorem forEachUnspent_note (v : CCoinsView) : v.forEachUnspent note [] = v.cursorEntries := by
  have hfold : ∀ entries seen : List CoinEntry,
      entries.foldl (fun seen e => seen ++ [e]) seen = seen ++ entries := by
    intro entries
    induction entries with
    | nil => intro seen; rw [append_nil]; rfl
    | cons e entries ih => intro seen; rw [foldl_cons, ih, append_assoc]; rfl
  exact (visit_all (fun seen e => seen ++ [e]) _ _).trans (hfold _ [])

end CCoinsView

/-! ## the numbers -/

def checkedAdd (i j : Int) : Option Int :=
  if (i > 0 ∧ j > 2 ^ 63 - 1 - i) ∨ (i < 0 ∧ j < -2 ^ 63 - i) then none else some (i + j)

def getBogoSize (script_pub_key : CScript) : Nat := 32 + 4 + 4 + 8 + 2 + script_pub_key.length

/-- the sums in a `CCoinsStats` -/
structure CoinsTotals where
  nTransactions : UInt64
  nTransactionOutputs : UInt64
  nBogoSize : UInt64
  /-- `none` from the first overflow on -/
  total_amount : Option Int
deriving DecidableEq

def CoinsTotals.zero : CoinsTotals := ⟨0, 0, 0, some 0⟩

def CoinsTotals.counted (t : CoinsTotals) (nTransactions : UInt64) : CoinsTotals :=
  { t with nTransactions := nTransactions }

def CoinsTotals.applyOutput (t : CoinsTotals) (coin : Coin) : CoinsTotals :=
  { t with
    nTransactionOutputs := t.nTransactionOutputs + 1
    total_amount := t.total_amount.bind fun total => checkedAdd total coin.out.nValue
    nBogoSize := t.nBogoSize + UInt64.ofNat (getBogoSize coin.out.scriptPubKey) }

def applyStats (t : CoinsTotals) (outputs : FMap Nat Coin) : CoinsTotals :=
  outputs.toList.foldl (fun t e => t.applyOutput e.2) (t.counted (t.nTransactions + 1))

/-- the variables of `ComputeUTXOStats` -/
structure TotalsWalk extends StatsWalk where
  stats : CoinsTotals

def TotalsWalk.begin : TotalsWalk := ⟨StatsWalk.begin, CoinsTotals.zero⟩

/-- `ApplyStats` runs where `ApplyHash` does -/
def TotalsWalk.apply (st : TotalsWalk) (e : CoinEntry) : TotalsWalk where
  toStatsWalk := applyUTXOCoinsToStats st.toStatsWalk e
  stats := if st.outputs.dom ≠ ∅ ∧ e.1.hash ≠ st.prevkey then applyStats st.stats st.outputs else st.stats

/-- a `CCoinsStats` with the members that `ComputeUTXOStats` writes -/
structure UTXOStats extends CoinsTotals where
  nHeight : Nat
  hashBlock : Uint256
  hashSerialized : Uint256
  coins_count : UInt64
deriving DecidableEq

section
variable {G : Type} [CommGroup G] (M : MuHash G)

/-- the hash of the coins that a hash object was given, one after the other -/
def finalizeHash (hash_type : CoinStatsHashType) (coins : List CoinEntry) : Uint256 :=
  match hash_type with
  | .HASH_SERIALIZED => M.hashWriter coins
  | .MUHASH => (coins.foldl (fun s e => s.addCoin M e.1 e.2) UTXOMuHashState.empty).getHash M

/-- `ComputeUTXOStats`; `lookup` finds the height of a block of the index -/
def utxoStats (hash_type : CoinStatsHashType) (view : CCoinsView) (lookup : Uint256 → Option Nat) :
    Option UTXOStats :=
  match lookup view.getBestBlock with
  | none => none
  | some nHeight =>
    let st := view.forEachUnspent (fun st o c => (true, TotalsWalk.apply st (o, c))) TotalsWalk.begin
    some
      { toCoinsTotals := if st.outputs.dom ≠ ∅ then applyStats st.stats st.outputs else st.stats
        nHeight := nHeight
        hashBlock := view.getBestBlock
        hashSerialized := finalizeHash M hash_type
          (if st.outputs.dom ≠ ∅ then st.applyHash else st.hash_obj)
        coins_count := UInt64.ofNat st.coins_count }

end

/-! ## what the walk adds up -/

/-- the sums over coins that came in the order of their outpoints -/
def totalsOf (coins : List CoinEntry) : CoinsTotals :=
  (coins.foldl (fun t e => t.applyOutput e.2) CoinsTotals.zero).counted
    (UInt64.ofNat (coins.map fun e => e.1.hash).toFinset.card)

theorem foldl_applyOutput {α : Type} (f : α → Coin) (l : List α) (t : CoinsTotals) (n : UInt64) :
    l.foldl (fun t e => t.applyOutput (f e)) (t.counted n) =
      (l.foldl (fun t e => t.applyOutput (f e)) t).counted n := by
  induction l generalizing t with
  | nil => rfl
  | cons e l ih => exact ih (t.applyOutput (f e))

theorem outputsOf_hashes {outputs : FMap Nat Coin} (hash : Uint256) (h : outputs.dom ≠ ∅) :
    ((outputsOf hash outputs).map fun e => e.1.hash).toFinset = {hash} := by
  obtain ⟨n, hn⟩ := Finset.nonempty_iff_ne_empty.mpr h
  obtain ⟨coin, hcoin⟩ := FMap.exists_get_of_mem hn
  refine Finset.ext fun x => ?_
  rw [mem_toFinset, mem_map, Finset.mem_singleton]
  constructor
  · rintro ⟨e, he, rfl⟩
    exact (mem_outputsOf.mp he).1
  · rintro rfl
    exact ⟨(⟨x, n⟩, coin), mem_outputsOf.mpr ⟨rfl, hcoin⟩, rfl⟩

theorem totalsOf_append {coins : List CoinEntry} {hash : Uint256} {outputs : FMap Nat Coin}
    (hbelow : ∀ x ∈ coins, x.1.hash < hash) (h : outputs.dom ≠ ∅) :
    totalsOf (coins ++ outputsOf hash outputs) = applyStats (totalsOf coins) outputs := by
  have hcard : ((coins ++ outputsOf hash outputs).map fun e => e.1.hash).toFinset.card =
      (coins.map fun e => e.1.hash).toFinset.card + 1 := by
    rw [map_append, toFinset_append, outputsOf_hashes hash h, Finset.union_comm,
      ← Finset.insert_eq]
    refine Finset.card_insert_of_notMem fun hmem => ?_
    obtain ⟨x, hx, hhash⟩ := mem_map.mp (mem_toFinset.mp hmem)
    exact absurd (hhash ▸ hbelow x hx) (lt_irrefl _)
  unfold totalsOf applyStats
  rw [hcard, foldl_append, UInt64.ofNat_add, outputsOf, foldl_map]
  exact (foldl_applyOutput Prod.snd outputs.toList _ _).symm

theorem TotalsWalk.foldl_toStatsWalk (coins : List CoinEntry) (st : TotalsWalk) :
    (coins.foldl TotalsWalk.apply st).toStatsWalk = coins.foldl applyUTXOCoinsToStats st.toStatsWalk := by
  induction coins generalizing st with
  | nil => rfl
  | cons e coins ih => exact ih (st.apply e)

theorem totals_foldl {st : TotalsWalk} {l rest : List CoinEntry} (h : Walked st.toStatsWalk l)
    (hstats : st.stats = totalsOf st.hash_obj)
    (hle : (l ++ rest).Pairwise fun a b => a.1.hash ≤ b.1.hash)
    (hnew : ((l ++ rest).map Prod.fst).Nodup) :
    (rest.foldl TotalsWalk.apply st).stats = totalsOf (rest.foldl TotalsWalk.apply st).hash_obj := by
  induction rest generalizing st l with
  | nil => exact hstats
  | cons e rest ih =>
    have hstep : Walked (st.apply e).toStatsWalk (l ++ [e]) := by
      refine h.step (fun x hx => ?_) fun x hx => ?_
      · exact (pairwise_append.mp hle).2.2 x hx e mem_cons_self
      · rw [List.Nodup, pairwise_map] at hnew
        exact (pairwise_append.mp hnew).2.2 x hx e mem_cons_self
    rw [append_cons] at hle hnew
    refine ih hstep ?_ hle hnew
    show (if _ then _ else _) = totalsOf (applyUTXOCoinsToStats st.toStatsWalk e).hash_obj
    unfold applyUTXOCoinsToStats
    by_cases hturn : st.outputs.dom ≠ ∅ ∧ e.1.hash ≠ st.prevkey
    · rw [if_pos hturn, if_pos hturn, hstats]
      exact (totalsOf_append h.below hturn.1).symm
    · rw [if_neg hturn, if_neg hturn]
      exact hstats

theorem totals_walk {coins : List CoinEntry}
    (hle : coins.Pairwise fun a b => a.1.hash ≤ b.1.hash) (hnew : (coins.map Prod.fst).Nodup) :
    ∃ st, coins.foldl TotalsWalk.apply TotalsWalk.begin = st ∧ Walked st.toStatsWalk coins ∧
      (if st.outputs.dom ≠ ∅ then st.applyHash else st.hash_obj) = st.applyHash ∧
      (if st.outputs.dom ≠ ∅ then applyStats st.stats st.outputs else st.stats) = totalsOf st.applyHash := by
  have hwalked : Walked (coins.foldl TotalsWalk.apply TotalsWalk.begin).toStatsWalk coins := by
    rw [TotalsWalk.foldl_toStatsWalk]
    exact walked_begin.foldl hle hnew
  have hstats := @totals_foldl TotalsWalk.begin _ _ walked_begin rfl hle hnew
  refine ⟨_, rfl, hwalked, ?_, ?_⟩
  · split
    · rfl
    · rename_i hdom
      rw [StatsWalk.applyHash, outputsOf_empty _ (not_not.mp hdom), append_nil]
  · split
    · rename_i hdom
      rw [hstats]
      exact (totalsOf_append hwalked.below hdom).symm
    · rename_i hdom
      rw [StatsWalk.applyHash, outputsOf_empty _ (not_not.mp hdom), append_nil]
      exact hstats

section
variable {G : Type} [CommGroup G] (M : MuHash G)

/-- the statistics of a set of coins at a block -/
def statsOf (hash_type : CoinStatsHashType) (utxos : Utxos) (hashBlock : Uint256)
    (nHeight : Nat) : UTXOStats where
  toCoinsTotals := totalsOf utxos.toList
  nHeight := nHeight
  hashBlock := hashBlock
  hashSerialized := finalizeHash M hash_type utxos.toList
  coins_count := UInt64.ofNat utxos.card

theorem utxoStats_eq (hash_type : CoinStatsHashType) (view : CCoinsView) (lookup : Uint256 → Option Nat) :
    utxoStats M hash_type view lookup = (lookup view.getBestBlock).map
      (statsOf M hash_type view.fetchEffectiveUTXOs view.getBestBlock) := by
  obtain ⟨st, hst, hwalked, hhash, hstats⟩ :=
    totals_walk view.cursorEntries_hash_le view.cursorEntries_spec.1
  have hcoins : st.applyHash = view.fetchEffectiveUTXOs.toList :=
    FMap.eq_toList (hwalked.perm.trans view.cursorEntries_perm) hwalked.sorted
  have hcount : st.coins_count = view.fetchEffectiveUTXOs.card := by
    rw [hwalked.count, view.cursorEntries_perm.length_eq, FMap.length_toList]
  have hvisit : view.forEachUnspent (fun st o c => (true, TotalsWalk.apply st (o, c)))
      TotalsWalk.begin = st := (CCoinsView.visit_all _ _ _).trans hst
  unfold utxoStats
  cases lookup view.getBestBlock with
  | none => rfl
  | some nHeight =>
    dsimp only
    rw [hvisit, hhash, hstats, hcoins, hcount]
    rfl

end

/-! ## flushing the stack -/

namespace CCoinsView

/-- the caches of `v` flushed one after the other, `entries` having been written into the top one -/
def flushInto : CCoinsView → CCoinsMap → Uint256 → Except Fault CCoinsViewDB
  | .db d, entries, block_hash => d.batchWrite entries block_hash
  | .cache l base, entries, block_hash =>
    match l.batchWrite entries block_hash with
    | .error e => .error e
    | .ok l => base.flushInto l.cacheCoins l.m_block_hash

def flushAll : CCoinsView → Except Fault CCoinsViewDB
  | .db d => .ok d
  | .cache l base => base.flushInto l.cacheCoins l.m_block_hash

variable {entries : CCoinsMap} {block_hash : Uint256} {v : CCoinsView}

theorem batchWrite_block_hash {l l' : CacheLayer} (h : l.batchWrite entries block_hash = .ok l') :
    l'.m_block_hash = block_hash := by
  unfold CacheLayer.batchWrite at h
  split at h
  · cases h
  · cases h
    rfl

theorem flushInto_spec (hv : v.Ok) (he : EntriesOk entries v) {d : CCoinsViewDB}
    (h : v.flushInto entries block_hash = .ok d) :
    (∀ o, d.coins.get o = shown (entries.get o) (v.peekCoin o)) ∧ block_hash.isNull = false ∧
      d.bestBlock = block_hash := by
  induction v generalizing entries block_hash with
  | db d₀ =>
    have hnull : block_hash.isNull = false := by
      rw [flushInto, CCoinsViewDB.batchWrite] at h
      split at h
      · cases h
      · rename_i hn
        exact Bool.eq_false_iff.mpr hn
    have hw : (CCoinsView.db d₀).batchWrite entries block_hash = .ok (.db d) := by
      rw [flushInto] at h
      rw [CCoinsView.batchWrite, h]
    obtain ⟨-, hpeek, hbest⟩ := batchWrite_spec hv he hw
    exact ⟨hpeek, hnull, hbest hnull⟩
  | cache l base ih =>
    rw [flushInto] at h
    cases hl : l.batchWrite entries block_hash with
    | error e => rw [hl] at h; cases h
    | ok l' =>
      rw [hl] at h
      have hw : (CCoinsView.cache l base).batchWrite entries block_hash = .ok (.cache l' base) := by
        rw [CCoinsView.batchWrite, hl]
      have hhash := batchWrite_block_hash hl
      obtain ⟨hok, hpeek, -⟩ := batchWrite_spec hv he hw
      obtain ⟨hcoins, hnull, hbest⟩ := ih hok.1 hok.2 h
      rw [hhash] at hnull hbest
      refine ⟨fun o => ?_, hnull, hbest⟩
      rw [← hpeek o]
      exact hcoins o

theorem flushAll_spec (hv : v.Ok) {d : CCoinsViewDB} (h : v.flushAll = .ok d) :
    d.coins = v.fetchEffectiveUTXOs ∧ d.bestBlock = v.getBestBlock := by
  cases v with
  | db d₀ =>
    cases h
    exact ⟨rfl, rfl⟩
  | cache l base =>
    obtain ⟨hcoins, hnull, hbest⟩ := flushInto_spec hv.1 hv.2 h
    refine ⟨FMap.ext_get fun o => ?_, ?_⟩
    · rw [hcoins o, fetchEffectiveUTXOs_get]
      rfl
    · rw [hbest, CCoinsView.getBestBlock, hnull]
      rfl

/-- the only thing that can stop the batches is the database -/
theorem flushInto_ok (hv : v.Ok) (he : EntriesOk entries v) {tip : Uint256}
    (hnull : block_hash.isNull = false) (htip : v.database.oldTip block_hash = .ok tip) :
    ∃ d, v.flushInto entries block_hash = .ok d := by
  induction v generalizing entries with
  | db d₀ =>
    rw [flushInto, CCoinsViewDB.batchWrite, hnull]
    rw [database] at htip
    rw [htip]
    exact ⟨_, rfl⟩
  | cache l base ih =>
    obtain ⟨v', hw⟩ := batchWrite_cache_ok he block_hash
    have hok := (batchWrite_spec hv he hw).1
    rw [CCoinsView.batchWrite] at hw
    rw [flushInto]
    cases hl : l.batchWrite entries block_hash with
    | error e => rw [hl] at hw; cases hw
    | ok l' =>
      rw [hl] at hw
      cases hw
      have hhash := batchWrite_block_hash hl
      show ∃ d, base.flushInto l'.cacheCoins l'.m_block_hash = .ok d
      rw [hhash]
      exact ih hok.1 hok.2 htip

theorem loadBestBlock_database (v : CCoinsView) : v.loadBestBlock.database = v.database := by
  induction v with
  | db d => rfl
  | cache l base ih =>
    rw [loadBestBlock]
    split
    · exact ih
    · rfl

/-- once the best block was asked for, a stack over a database that is not in the middle of another
move can be flushed -/
theorem loadBestBlock_flushAll (hv : v.Ok) {tip : Uint256} (hbest : v.getBestBlock.isNull = false)
    (htip : v.database.oldTip v.getBestBlock = .ok tip) :
    ∃ d, v.loadBestBlock.flushAll = .ok d := by
  cases v with
  | db d => exact ⟨d, rfl⟩
  | cache l base =>
    rw [← loadBestBlock_database] at htip
    have hok := loadBestBlock_ok hv
    cases hnull : l.m_block_hash.isNull with
    | true =>
      have hbase : (CCoinsView.cache l base).getBestBlock = base.getBestBlock := by
        rw [CCoinsView.getBestBlock, hnull]
        rfl
      rw [hbase] at hbest htip
      rw [loadBestBlock, hnull] at hok htip ⊢
      exact flushInto_ok hok.1 hok.2 hbest htip
    | false =>
      have htop : (CCoinsView.cache l base).getBestBlock = l.m_block_hash := by
        rw [CCoinsView.getBestBlock, hnull]
        rfl
      rw [htop] at hbest htip
      rw [loadBestBlock, hnull] at hok htip ⊢
      exact flushInto_ok hok.1 hok.2 hbest htip

end CCoinsView

section
variable {G : Type} [CommGroup G] (M : MuHash G)

/-- **Hashing a stack of caches equals hashing the database it is flushed into**, and the walk over
the stack shows each coin that `GetCoin` finds once and nothing else.  `ComputeUTXOStats` asks for the best
block, so the stack it leaves can be flushed unless the database is in the middle of another move. -/
theorem utxoStats_flushed {v : CCoinsView} (hv : v.Ok) :
    ((v.forEachUnspent CCoinsView.note []).map Prod.fst).Nodup ∧
    (∀ o c, (o, c) ∈ v.forEachUnspent CCoinsView.note [] ↔ v.peekCoin o = some c) ∧
    (∀ d, v.flushAll = .ok d ∨ v.loadBestBlock.flushAll = .ok d → ∀ hash_type lookup,
      utxoStats M hash_type (.db d) lookup = utxoStats M hash_type v lookup) ∧
    ∀ tip, v.getBestBlock.isNull = false → v.database.oldTip v.getBestBlock = .ok tip →
      ∃ d, v.loadBestBlock.flushAll = .ok d := by
  have hwalk := v.cursorEntries_spec
  rw [CCoinsView.forEachUnspent_note]
  refine ⟨hwalk.1, hwalk.2, ?_, fun tip => CCoinsView.loadBestBlock_flushAll hv⟩
  intro d hd hash_type lookup
  have hshown : d.coins = v.fetchEffectiveUTXOs ∧ d.bestBlock = v.getBestBlock := by
    rcases hd with hd | hd
    · exact CCoinsView.flushAll_spec hv hd
    · have hsame := sameView_loadBestBlock v
      obtain ⟨hcoins, hbest⟩ := CCoinsView.flushAll_spec (loadBestBlock_ok hv) hd
      refine ⟨hcoins.trans (FMap.ext_get fun o => ?_), hbest.trans hsame.best.symm⟩
      rw [fetchEffectiveUTXOs_get, fetchEffectiveUTXOs_get, hsame.peek o]
  rw [utxoStats_eq, utxoStats_eq]
  show (lookup d.bestBlock).map (statsOf M hash_type d.coins d.bestBlock) = _
  rw [hshown.1, hshown.2]

end

/-- a coin that waits in the upper of two caches -/
def unflushedStack : CCoinsView :=
  .cache ⟨Uint256.zero, FMap.empty.insert ⟨Uint256.ofByte 1, 0⟩ ⟨⟨⟨10, [0x51]⟩, false, 1⟩, true, true⟩, false⟩
    (.cache ⟨Uint256.ofByte 7, FMap.empty, false⟩ (.db CCoinsViewDB.empty))

theorem unflushedStack_ok : unflushedStack.Ok := by
  refine ⟨⟨trivial, layerOk_empty rfl _⟩, fun o e he => ?_⟩
  rw [FMap.insert_get] at he
  split at he
  · cases he
    exact ⟨fun h => absurd h (by decide), fun _ => ⟨rfl, rfl⟩, fun h => absurd h (by decide)⟩
  · rw [FMap.empty_get] at he
    cases he

theorem utxoStats_flushed_stack :
    ∃ d, unflushedStack.loadBestBlock.flushAll = .ok d ∧ ∀ hash_type lookup,
      utxoStats sampleMuHash hash_type (.db d) lookup =
        utxoStats sampleMuHash hash_type unflushedStack lookup := by
  obtain ⟨-, -, hstats, hflush⟩ := utxoStats_flushed sampleMuHash unflushedStack_ok
  obtain ⟨d, hd⟩ := hflush Uint256.zero rfl rfl
  exact ⟨d, hd, hstats d (Or.inr hd)⟩

end ElektronNet
