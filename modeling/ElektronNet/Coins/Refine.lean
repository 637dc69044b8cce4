import ElektronNet.Coins.View

/-!
# A stack of caches shows one map

`EntryOk` is what the flags of a cache entry promise about the view under it (the comments of
`CCoinsCacheEntry` and the assertions of `SanityCheck`); a view is `Ok` when all its layers keep
that promise.  Under it the operations of the top cache act on the shown map `utxos` like the
operations of a plain finite map:

* `fetchCoin_utxos`, `accessCoin_eq`, `haveCoin_eq`     reading shows the map and keeps it
* `addCoin_spec`       an insertion, or nothing for an unspendable output
* `spendCoin_spec`     an erasure
* `flush_spec`, `sync_spec`   the map moves into the base
* `uncache_spec`     a clean entry can be forgotten
-/

set_option linter.unusedSimpArgs false

namespace ElektronNet

open CCoinsView

/-! ## what a view shows -/

theorem fetchEffectiveUTXOs_get (v : CCoinsView) (o : COutPoint) :
    v.fetchEffectiveUTXOs.get o = v.peekCoin o := by
  induction v with
  | db d => rfl
  | cache l base ih =>
    rw [fetchEffectiveUTXOs, FMap.build_get_of_cover, peekCoin]
    · cases l.cacheCoins.get o with
      | some e => rfl
      | none => exact ih
    · intro k hk
      rw [Finset.mem_union, not_or, ← FMap.get_eq_none_iff, ← FMap.get_eq_none_iff] at hk
      rw [hk.1, hk.2]

variable {e : CCoinsCacheEntry} {c : Coin} {v u w : CCoinsView} {l : CacheLayer}
  {below : Option Coin} {child us : Option CCoinsCacheEntry}

theorem entryCoin_unspent (h : entryCoin e = some c) : c.isSpent = false := by
  unfold entryCoin at h
  split at h
  · cases h
  · rename_i hs
    cases h
    simpa using hs

theorem peekCoin_unspent {o : COutPoint} (h : v.peekCoin o = some c) : c.isSpent = false := by
  induction v with
  | db d => exact d.unspent o c h
  | cache l base ih =>
    rw [peekCoin] at h
    cases hg : l.cacheCoins.get o with
    | some e =>
      rw [hg] at h
      exact entryCoin_unspent h
    | none =>
      rw [hg] at h
      exact ih h

/-! ## the promise of the flags -/

/-- `e` over a view that shows `below` for its outpoint -/
structure EntryOk (e : CCoinsCacheEntry) (below : Option Coin) : Prop where
  spent : e.coin.isSpent = true → e.coin = Coin.empty ∧ e.dirty = true ∧ e.fresh = false
  fresh : e.fresh = true → e.dirty = true ∧ below = none
  clean : e.dirty = false → below = some e.coin

def LayerOk (l : CacheLayer) (below : COutPoint → Option Coin) : Prop :=
  ∀ o e, l.cacheCoins.get o = some e → EntryOk e (below o)

namespace CCoinsView

def Ok : CCoinsView → Prop
  | .db _ => True
  | .cache l base => base.Ok ∧ LayerOk l base.peekCoin

end CCoinsView

theorem entryOk_fetched (h : c.isSpent = false) : EntryOk ⟨c, false, false⟩ (some c) :=
  ⟨fun hs => absurd (h.symm.trans hs) (by simp), fun hf => absurd hf (by simp), fun _ => rfl⟩

theorem layerOk_empty (h : l.cacheCoins = FMap.empty) (below : COutPoint → Option Coin) :
    LayerOk l below := by
  intro o e he
  rw [h] at he
  cases he

/-! ## filling caches -/

theorem filled_get (l : CacheLayer) (o : COutPoint) (b : Option Coin) (k : COutPoint) :
    (l.filled o b).cacheCoins.get k =
      if k = o then (match l.cacheCoins.get o with
        | some e => some e
        | none => b.map fun coin => ⟨coin, false, false⟩)
      else l.cacheCoins.get k := by
  unfold CacheLayer.filled
  by_cases hk : k = o
  · subst hk
    cases hg : l.cacheCoins.get k with
    | some e => simp [hg]
    | none => cases b <;> simp [hg]
  · cases hg : l.cacheCoins.get o with
    | some e => simp [hk]
    | none => cases b <;> simp [hk, FMap.insert_get_ne]

theorem filled_block_hash (l : CacheLayer) (o : COutPoint) (b : Option Coin) :
    (l.filled o b).m_block_hash = l.m_block_hash := by
  unfold CacheLayer.filled
  split <;> rfl

theorem filled_layerOk {base : CCoinsView} (h : LayerOk l base.peekCoin) (o : COutPoint) :
    LayerOk (l.filled o (base.peekCoin o)) base.peekCoin := by
  intro k e he
  rw [filled_get] at he
  split at he
  · rename_i hk
    subst hk
    cases hg : l.cacheCoins.get k with
    | some e' =>
      rw [hg] at he
      cases he
      exact h k e hg
    | none =>
      rw [hg] at he
      cases hb : base.peekCoin k with
      | none => rw [hb] at he; cases he
      | some coin =>
        rw [hb] at he
        cases he
        exact entryOk_fetched (peekCoin_unspent hb)
  · exact h k e he

theorem fetch_peekCoin (v : CCoinsView) (o k : COutPoint) : (v.fetch o).peekCoin k = v.peekCoin k := by
  induction v with
  | db d => rfl
  | cache l base ih =>
    have hbase : (if l.overlay || (l.cacheCoins.get o).isSome then base
        else base.fetch o).peekCoin k = base.peekCoin k := by
      split
      · rfl
      · exact ih
    rw [fetch, peekCoin, peekCoin, hbase, filled_get]
    by_cases hk : k = o
    · subst hk
      rw [if_pos rfl]
      cases hg : l.cacheCoins.get k with
      | some e => rfl
      | none =>
        cases hb : base.peekCoin k with
        | none => rfl
        | some coin => simp [entryCoin, peekCoin_unspent hb]
    · rw [if_neg hk]

theorem fetch_ok (h : v.Ok) (o : COutPoint) : (v.fetch o).Ok := by
  induction v with
  | db d => trivial
  | cache l base ih =>
    refine ⟨?_, ?_⟩
    · split
      · exact h.1
      · exact ih h.1
    · have hpeek : ∀ b : Bool, (if b then base else base.fetch o).peekCoin = base.peekCoin := by
        intro b
        funext k
        cases b
        · exact fetch_peekCoin base o k
        · rfl
      rw [hpeek]
      exact filled_layerOk h.2 o

/-! ## the same stack of views -/

theorem fetch_getBestBlock (v : CCoinsView) (o : COutPoint) :
    (v.fetch o).getBestBlock = v.getBestBlock := by
  induction v with
  | db d => rfl
  | cache l base ih =>
    have hbase : (if l.overlay || (l.cacheCoins.get o).isSome then base
        else base.fetch o).getBestBlock = base.getBestBlock := by
      split
      · rfl
      · exact ih
    rw [CCoinsView.fetch, CCoinsView.getBestBlock, CCoinsView.getBestBlock, hbase,
      filled_block_hash]

/-- the views show the same coins and name the same best block -/
structure SameView (v v' : CCoinsView) : Prop where
  peek : ∀ o, v.peekCoin o = v'.peekCoin o
  best : v.getBestBlock = v'.getBestBlock

theorem SameView.refl (v : CCoinsView) : SameView v v := ⟨fun _ => rfl, rfl⟩

theorem SameView.symm {v' : CCoinsView} (h : SameView v v') : SameView v' v :=
  ⟨fun o => (h.peek o).symm, h.best.symm⟩

theorem SameView.trans (h : SameView u v) (h' : SameView v w) : SameView u w :=
  ⟨fun o => (h.peek o).trans (h'.peek o), h.best.trans h'.best⟩

theorem sameView_fetch (v : CCoinsView) (o : COutPoint) : SameView v (v.fetch o) :=
  ⟨fun k => (fetch_peekCoin v o k).symm, (fetch_getBestBlock v o).symm⟩

theorem sameView_loadBestBlock (v : CCoinsView) : SameView v v.loadBestBlock := by
  induction v with
  | db d => exact SameView.refl _
  | cache l base ih =>
    rw [CCoinsView.loadBestBlock]
    split
    · rename_i hn
      refine ⟨fun o => ?_, ?_⟩
      · rw [peekCoin, peekCoin, ih.peek]
      · rw [CCoinsView.getBestBlock, if_pos hn, CCoinsView.getBestBlock]
        split
        · exact ih.best
        · rfl
    · exact SameView.refl _

theorem loadBestBlock_ok (h : v.Ok) : v.loadBestBlock.Ok := by
  induction v with
  | db d => trivial
  | cache l base ih =>
    rw [CCoinsView.loadBestBlock]
    split
    · refine ⟨ih h.1, fun o e he => ?_⟩
      rw [← (sameView_loadBestBlock base).peek]
      exact h.2 o e he
    · exact h

/-- the same caches over the same database, whatever they hold -/
def CCoinsView.Alike : CCoinsView → CCoinsView → Prop
  | .db d, .db d' => d = d'
  | .cache _ base, .cache _ base' => base.Alike base'
  | _, _ => False

theorem CCoinsView.Alike.refl (v : CCoinsView) : v.Alike v := by
  induction v with
  | db d => rfl
  | cache l base ih => exact ih

theorem CCoinsView.Alike.trans (h : u.Alike v) (h' : v.Alike w) : u.Alike w := by
  induction u generalizing v w with
  | db d =>
    cases v with
    | db d' =>
      obtain rfl : d = d' := h
      exact h'
    | cache l base => exact h.elim
  | cache l base ih =>
    cases v with
    | db d' => exact h.elim
    | cache l' base' =>
      cases w with
      | db d' => exact h'.elim
      | cache l'' base'' => exact ih h h'

theorem alike_fetch (v : CCoinsView) (o : COutPoint) : v.Alike (v.fetch o) := by
  induction v with
  | db d => rfl
  | cache l base ih =>
    show base.Alike (if _ then base else base.fetch o)
    split
    · exact CCoinsView.Alike.refl base
    · exact ih

theorem alike_loadBestBlock (v : CCoinsView) : v.Alike v.loadBestBlock := by
  induction v with
  | db d => rfl
  | cache l base ih =>
    rw [CCoinsView.loadBestBlock]
    split
    · exact ih
    · exact CCoinsView.Alike.refl _

/-- views that differ only in what their caches have looked up -/
structure SameStack (v v' : CCoinsView) : Prop extends SameView v v' where
  alike : v.Alike v'
  ok : v.Ok → v'.Ok

theorem SameStack.refl (v : CCoinsView) : SameStack v v :=
  ⟨SameView.refl v, CCoinsView.Alike.refl v, id⟩

theorem SameStack.trans (h : SameStack u v) (h' : SameStack v w) : SameStack u w :=
  ⟨h.toSameView.trans h'.toSameView, h.alike.trans h'.alike, fun hu => h'.ok (h.ok hu)⟩

theorem sameStack_fetch (v : CCoinsView) (o : COutPoint) : SameStack v (v.fetch o) :=
  ⟨sameView_fetch v o, alike_fetch v o, fun h => fetch_ok h o⟩

theorem sameStack_loadBestBlock (v : CCoinsView) : SameStack v v.loadBestBlock :=
  ⟨sameView_loadBestBlock v, alike_loadBestBlock v, loadBestBlock_ok⟩

/-! ## the top cache -/

namespace CCoinsViewCache

def peek (c : CCoinsViewCache) (o : COutPoint) : Option Coin := c.toView.peekCoin o

def utxos (c : CCoinsViewCache) : Utxos := c.toView.fetchEffectiveUTXOs

def Ok (c : CCoinsViewCache) : Prop := c.toView.Ok

@[simp] theorem utxos_get (c : CCoinsViewCache) (o : COutPoint) : c.utxos.get o = c.peek o :=
  fetchEffectiveUTXOs_get _ o

variable {c c' : CCoinsViewCache} {o : COutPoint} {e : CCoinsCacheEntry}

theorem peek_of_entry (h : c.cacheCoins.get o = some e) : c.peek o = entryCoin e := by
  rw [peek, toView, peekCoin, h]

theorem peek_of_no_entry (h : c.cacheCoins.get o = none) : c.peek o = c.base.peekCoin o := by
  rw [peek, toView, peekCoin, h]

theorem utxos_congr (h : ∀ o, c'.peek o = c.peek o) : c'.utxos = c.utxos :=
  FMap.ext_get fun o => by rw [utxos_get, utxos_get, h]

theorem fetchCoin_ok (h : c.Ok) (o : COutPoint) : (c.fetchCoin o).Ok :=
  fetch_ok h o

@[simp] theorem fetchCoin_peek (c : CCoinsViewCache) (o k : COutPoint) :
    (c.fetchCoin o).peek k = c.peek k := fetch_peekCoin c.toView o k

@[simp] theorem fetchCoin_utxos (c : CCoinsViewCache) (o : COutPoint) :
    (c.fetchCoin o).utxos = c.utxos := utxos_congr (fetchCoin_peek c o)

theorem fetchCoin_get (c : CCoinsViewCache) (o : COutPoint) :
    (c.fetchCoin o).cacheCoins.get o = match c.cacheCoins.get o with
      | some e => some e
      | none => (c.base.peekCoin o).map fun coin => ⟨coin, false, false⟩ := by
  show (c.filled o (c.base.peekCoin o)).cacheCoins.get o = _
  rw [filled_get, if_pos rfl]

theorem peek_of_fetchCoin_none (h : (c.fetchCoin o).cacheCoins.get o = none) : c.peek o = none := by
  rw [fetchCoin_get] at h
  cases hg : c.cacheCoins.get o with
  | some e => rw [hg] at h; cases h
  | none =>
    rw [hg] at h
    rw [peek_of_no_entry hg]
    exact Option.map_eq_none_iff.mp h

theorem peek_of_fetchCoin_some (h : (c.fetchCoin o).cacheCoins.get o = some e) :
    c.peek o = entryCoin e := by
  rw [← fetchCoin_peek c o o]
  exact peek_of_entry h

theorem new_utxos (v : CCoinsView) : (CCoinsViewCache.new v).utxos = v.fetchEffectiveUTXOs :=
  FMap.ext_get fun o => by
    rw [utxos_get, fetchEffectiveUTXOs_get]
    rfl

theorem new_ok (h : v.Ok) : (CCoinsViewCache.new v).Ok := ⟨h, layerOk_empty rfl _⟩

theorem entry_ok (h : c.Ok) (he : c.cacheCoins.get o = some e) :
    EntryOk e (c.base.peekCoin o) := h.2 o e he

theorem accessCoin_eq (h : c.Ok) (o : COutPoint) : c.accessCoin o = (c.peek o).getD Coin.empty := by
  unfold accessCoin
  cases hg : (c.fetchCoin o).cacheCoins.get o with
  | none => rw [peek_of_fetchCoin_none hg]; rfl
  | some e =>
    rw [peek_of_fetchCoin_some hg, entryCoin]
    cases hs : e.coin.isSpent with
    | false => simp
    | true => simpa using ((entry_ok (fetchCoin_ok h o) hg).spent hs).1

theorem haveCoin_eq (c : CCoinsViewCache) (o : COutPoint) : c.haveCoin o = (c.peek o).isSome := by
  unfold haveCoin
  cases hg : (c.fetchCoin o).cacheCoins.get o with
  | none => rw [peek_of_fetchCoin_none hg]; rfl
  | some e =>
    rw [peek_of_fetchCoin_some hg, entryCoin]
    cases hs : e.coin.isSpent <;> simp [hs]

/-! ## writing into the top cache -/

theorem peek_insert (c : CCoinsViewCache) (o : COutPoint) (e : CCoinsCacheEntry) (k : COutPoint) :
    peek { c with cacheCoins := c.cacheCoins.insert o e } k =
      if k = o then entryCoin e else c.peek k := by
  simp only [peek, toView, peekCoin, FMap.insert_get]
  by_cases hk : k = o <;> simp [hk]

theorem ok_insert (h : c.Ok) (he : EntryOk e (c.base.peekCoin o)) :
    Ok { c with cacheCoins := c.cacheCoins.insert o e } := by
  refine ⟨h.1, fun k e' hk => ?_⟩
  rw [FMap.insert_get] at hk
  split at hk
  · rename_i hko
    cases hk
    subst hko
    exact he
  · exact h.2 k e' hk

theorem addCoin_eq_ok {coin : Coin} {ow : Bool} (h : c.addCoin o coin ow = .ok c') :
    coin.isSpent = false ∧
      ((isUnspendable coin.out.scriptPubKey = true ∧ c' = c) ∨
        (isUnspendable coin.out.scriptPubKey = false ∧
          ∃ it, it = (c.cacheCoins.get o).getD CCoinsCacheEntry.new ∧
            (ow = false → it.coin.isSpent = true) ∧
            c' = { c with cacheCoins :=
              c.cacheCoins.insert o ⟨coin, true, it.fresh || (!ow && !it.dirty)⟩ })) := by
  unfold addCoin at h
  cases hs : coin.isSpent with
  | true => rw [hs] at h; cases h
  | false =>
    refine ⟨rfl, ?_⟩
    rw [hs] at h
    cases hu : isUnspendable coin.out.scriptPubKey with
    | true =>
      rw [hu] at h
      cases h
      exact Or.inl ⟨rfl, rfl⟩
    | false =>
      rw [hu] at h
      simp only [Bool.false_eq_true, if_false] at h
      split at h
      · cases h
      · rename_i hov
        refine Or.inr ⟨rfl, _, rfl, fun how => ?_, (Except.ok.inj h).symm⟩
        subst how
        simpa using hov

/-- **adding a coin inserts it into the shown map**; without `possible_overwrite` the caller
owes that the map does not show the outpoint -/
theorem addCoin_spec (hc : c.Ok) {coin : Coin} {ow : Bool} (h : c.addCoin o coin ow = .ok c')
    (hnew : ow = false → c.peek o = none) :
    c'.Ok ∧ c'.utxos = (if isUnspendable coin.out.scriptPubKey then c.utxos
      else c.utxos.insert o coin) ∧ c'.m_block_hash = c.m_block_hash ∧ c'.base = c.base := by
  obtain ⟨hspent, ⟨hu, rfl⟩ | ⟨hu, it, hit, how, rfl⟩⟩ := addCoin_eq_ok h
  · exact ⟨hc, by rw [hu]; rfl, rfl, rfl⟩
  · refine ⟨ok_insert hc ⟨?_, ?_, ?_⟩, ?_, rfl, rfl⟩
    · intro hs
      rw [hspent] at hs
      cases hs
    · intro hf
      refine ⟨rfl, ?_⟩
      -- FRESH is set anew only over a missing or clean spent entry, and kept only where it held
      cases hg : c.cacheCoins.get o with
      | none =>
        rw [hg] at hit
        subst hit
        simp only [Option.getD_none, CCoinsCacheEntry.new, Bool.not_false, Bool.and_true,
          Bool.false_or, Bool.not_eq_true'] at hf
        rw [← peek_of_no_entry hg]
        exact hnew hf
      | some e =>
        rw [hg] at hit
        obtain rfl : it = e := hit
        have he := entry_ok hc hg
        cases hfr : it.fresh with
        | true => exact (he.fresh hfr).2
        | false =>
          rw [hfr] at hf
          simp only [Bool.false_or, Bool.and_eq_true, Bool.not_eq_true'] at hf
          have hd := (he.spent (how hf.1)).2.1
          rw [hf.2] at hd
          cases hd
    · intro hd
      cases hd
    · refine FMap.ext_get fun k => ?_
      simp only [hu, Bool.false_eq_true, if_false]
      rw [utxos_get, peek_insert, FMap.insert_get]
      simp [entryCoin, hspent]

theorem peek_erase (c : CCoinsViewCache) (o k : COutPoint) :
    peek { c with cacheCoins := c.cacheCoins.erase o } k =
      if k = o then c.base.peekCoin o else c.peek k := by
  simp only [peek, toView, peekCoin, FMap.erase_get]
  by_cases hk : k = o <;> simp [hk]

theorem ok_erase (h : c.Ok) (o : COutPoint) : Ok { c with cacheCoins := c.cacheCoins.erase o } := by
  refine ⟨h.1, fun k e hk => ?_⟩
  rw [FMap.erase_get] at hk
  split at hk
  · cases hk
  · exact h.2 k e hk

theorem entryOk_spent (below : Option Coin) : EntryOk ⟨Coin.empty, true, false⟩ below :=
  ⟨fun _ => ⟨rfl, rfl, rfl⟩, fun hf => absurd hf (by simp), fun hd => absurd hd (by simp)⟩

section
variable (c : CCoinsViewCache)

@[simp] theorem fetchCoin_block_hash (o : COutPoint) :
    (c.fetchCoin o).m_block_hash = c.m_block_hash := filled_block_hash _ _ _

theorem loadBestBlock_toView : c.loadBestBlock.toView = c.toView.loadBestBlock := by
  show _ = (if c.m_block_hash.isNull then _ else _ : CCoinsView)
  unfold loadBestBlock
  split <;> rfl

theorem sameStack_fetchCoin (o : COutPoint) : SameStack c.base (c.fetchCoin o).base := by
  show SameStack c.base (if _ then _ else _ : CCoinsView)
  split
  · exact SameStack.refl _
  · exact sameStack_fetch _ _

@[simp] theorem fetchCoin_base_peekCoin (o k : COutPoint) :
    (c.fetchCoin o).base.peekCoin k = c.base.peekCoin k := ((sameStack_fetchCoin c o).peek k).symm

theorem sameStack_spendCoin (o : COutPoint) : SameStack c.base (c.spendCoin o).2.base := by
  unfold spendCoin
  simp only
  cases (c.fetchCoin o).cacheCoins.get o <;> exact sameStack_fetchCoin c o

end

theorem peek_spent (hc : c.Ok) {it : CCoinsCacheEntry} (hg : c.cacheCoins.get o = some it)
    (k : COutPoint) : peek { c with cacheCoins :=
        if it.fresh then c.cacheCoins.erase o else c.cacheCoins.insert o ⟨Coin.empty, true, false⟩ } k
      = if k = o then none else c.peek k := by
  cases hfr : it.fresh with
  | true =>
    -- an entry that never reached the base is dropped
    simp only [if_true]
    rw [peek_erase, ((entry_ok hc hg).fresh hfr).2]
  | false =>
    simp only [Bool.false_eq_true, if_false]
    rw [peek_insert]
    rfl

/-- **spending erases the outpoint from the shown map**; a `SpendCoin` that finds nothing unspent
returns false, or hands out an empty coin if the cache still holds the spent entry -/
theorem spendCoin_spec (hc : c.Ok) {r : Option Coin} (h : c.spendCoin o = (r, c')) :
    c'.Ok ∧ c'.utxos = c.utxos.erase o ∧ c'.m_block_hash = c.m_block_hash ∧
      SameStack c.base c'.base ∧ (∀ coin, c.peek o = some coin → r = some coin) ∧
      (c.peek o = none → r = none ∨ r = some Coin.empty) := by
  have hf := fetchCoin_ok hc o
  unfold spendCoin at h
  simp only at h
  cases hg : (c.fetchCoin o).cacheCoins.get o with
  | none =>
    rw [hg] at h
    cases h
    have hp := peek_of_fetchCoin_none hg
    refine ⟨hf, ?_, fetchCoin_block_hash c o, sameStack_fetchCoin c o, fun coin hcoin => ?_,
      fun _ => Or.inl rfl⟩
    · rw [fetchCoin_utxos, FMap.erase_of_get_none (by rw [utxos_get, hp])]
    · rw [hp] at hcoin
      cases hcoin
  | some it =>
    rw [hg] at h
    cases h
    have hp := peek_of_fetchCoin_some hg
    refine ⟨?_, FMap.ext_get fun k => ?_, fetchCoin_block_hash c o, sameStack_fetchCoin c o,
      fun coin hcoin => ?_, fun hnone => ?_⟩
    · cases it.fresh with
      | true => exact ok_erase hf o
      | false => exact ok_insert hf (entryOk_spent _)
    · rw [utxos_get, peek_spent hf hg, FMap.erase_get, utxos_get, fetchCoin_peek]
    · rw [hp, entryCoin] at hcoin
      split at hcoin
      · cases hcoin
      · exact hcoin
    · rw [hp, entryCoin] at hnone
      cases hs : it.coin.isSpent with
      | true => exact Or.inr (by rw [((entry_ok hf hg).spent hs).1])
      | false => rw [hs] at hnone; cases hnone

end CCoinsViewCache

/-! ## writing a cache into its base -/

/-- what is shown for an outpoint through an entry, if there is one -/
def shown (e : Option CCoinsCacheEntry) (below : Option Coin) : Option Coin :=
  match e with
  | some e => entryCoin e
  | none => below

/-- the entries of a cache that keep their promise over the view `v` -/
def EntriesOk (entries : CCoinsMap) (v : CCoinsView) : Prop :=
  ∀ o e, entries.get o = some e → EntryOk e (v.peekCoin o)

theorem entryCoin_of_clean (h : EntryOk e below) (hd : e.dirty = false) : entryCoin e = below := by
  rw [h.clean hd, entryCoin]
  cases hs : e.coin.isSpent with
  | false => rfl
  | true =>
    have := (h.spent hs).2.1
    rw [hd] at this
    cases this

theorem written_eq_shown {entry : Option CCoinsCacheEntry} (old : Option Coin)
    (h : ∀ e, entry = some e → EntryOk e old) :
    CCoinsViewDB.written entry old = shown entry old := by
  cases entry with
  | none => rfl
  | some e =>
    cases hd : e.dirty with
    | true => simp [CCoinsViewDB.written, shown, hd, entryCoin]
    | false => simp [CCoinsViewDB.written, shown, hd, entryCoin_of_clean (h e rfl) hd]

section
variable (hchild : ∀ e, child = some e → EntryOk e (shown us below))
include hchild

theorem misapplied_eq_false : CacheLayer.misapplied child us = false := by
  cases child with
  | none => rfl
  | some it =>
    cases us with
    | none => rfl
    | some p =>
      cases hf : it.fresh with
      | false => simp [CacheLayer.misapplied, hf]
      | true =>
        have hnone := ((hchild it rfl).fresh hf).2
        rw [shown, entryCoin] at hnone
        cases hs : p.coin.isSpent with
        | true => simp [CacheLayer.misapplied, hs]
        | false => rw [hs] at hnone; cases hnone

theorem merge_shown (hus : ∀ p, us = some p → EntryOk p below) :
    shown (CacheLayer.merge child us) below = shown child (shown us below) := by
  cases child with
  | none => rfl
  | some it =>
    have hit := hchild it rfl
    cases hd : it.dirty with
    | false =>
      simp only [CacheLayer.merge, hd, Bool.false_eq_true, if_false]
      exact (entryCoin_of_clean hit hd).symm
    | true =>
      simp only [CacheLayer.merge, hd, if_true]
      cases us with
      | none =>
        cases hs : it.coin.isSpent with
        | false => simp [shown, entryCoin, hs]
        | true => simp [shown, entryCoin, hs, (hit.spent hs).2.2]
      | some p =>
        cases hs : it.coin.isSpent with
        | false => simp [shown, entryCoin, hs]
        | true =>
          cases hf : p.fresh with
          | false => simp [shown, entryCoin, hs, hf]
          | true => simp [shown, entryCoin, hs, hf, ((hus p rfl).fresh hf).2]

theorem merge_entryOk (hus : ∀ p, us = some p → EntryOk p below)
    (h : CacheLayer.merge child us = some e) : EntryOk e below := by
  cases child with
  | none => exact hus e h
  | some it =>
    have hit := hchild it rfl
    cases hd : it.dirty with
    | false =>
      simp only [CacheLayer.merge, hd, Bool.false_eq_true, if_false] at h
      exact hus e h
    | true =>
      simp only [CacheLayer.merge, hd, if_true] at h
      cases us with
      | none =>
        simp only at h
        split at h
        · cases h
        · rename_i hfs
          cases h
          refine ⟨fun hs => ⟨(hit.spent hs).1, rfl, (hit.spent hs).2.2⟩, fun hf => ⟨rfl, ?_⟩,
            fun h => absurd h (by simp)⟩
          exact (hit.fresh hf).2
      | some p =>
        simp only at h
        split at h
        · cases h
        · rename_i hfs
          cases h
          refine ⟨fun hs => ⟨(hit.spent hs).1, rfl, ?_⟩, fun hf => ⟨rfl, ((hus p rfl).fresh hf).2⟩,
            fun h => absurd h (by simp)⟩
          have hs' : it.coin.isSpent = true := hs
          simpa [hs'] using hfs

end

/-- **a batch over any view**: the shown map takes the entries of the batch, and the best block
becomes that of the batch -/
theorem batchWrite_spec {v' : CCoinsView} (hv : v.Ok) {entries : CCoinsMap}
    (he : EntriesOk entries v) {h : Uint256} (hw : v.batchWrite entries h = .ok v') :
    v'.Ok ∧ (∀ o, v'.peekCoin o = shown (entries.get o) (v.peekCoin o)) ∧
      (h.isNull = false → v'.getBestBlock = h) := by
  cases v with
  | db d =>
    simp only [CCoinsView.batchWrite, CCoinsViewDB.batchWrite] at hw
    cases hn : h.isNull with
    | true => rw [hn] at hw; cases hw
    | false =>
      rw [hn] at hw
      cases ht : d.oldTip h with
      | error e => rw [ht] at hw; cases hw
      | ok t =>
        rw [ht] at hw
        cases hw
        refine ⟨trivial, fun o => ?_, fun _ => rfl⟩
        show (d.writeCoins entries.dom entries).get o = _
        rw [CCoinsViewDB.writeCoins_get, written_eq_shown (d.coins.get o) (he o)]
        by_cases ho : o ∈ entries.dom
        · rw [if_pos ho]
          rfl
        · rw [if_neg ho, (FMap.get_eq_none_iff _ _).mpr ho]
          rfl
  | cache l base =>
    simp only [CCoinsView.batchWrite, CacheLayer.batchWrite] at hw
    split at hw
    · cases hw
    · rename_i l' hl
      cases hw
      split at hl
      · cases hl
      · cases hl
        have hus : ∀ o p, l.cacheCoins.get o = some p → EntryOk p (base.peekCoin o) := hv.2
        have hget : ∀ o, (FMap.build (entries.dom ∪ l.cacheCoins.dom) fun o =>
            CacheLayer.merge (entries.get o) (l.cacheCoins.get o)).get o =
              CacheLayer.merge (entries.get o) (l.cacheCoins.get o) := by
          refine FMap.build_get_of_cover fun k hk => ?_
          rw [Finset.mem_union, not_or, ← FMap.get_eq_none_iff, ← FMap.get_eq_none_iff] at hk
          rw [hk.1, hk.2]
          rfl
        refine ⟨⟨hv.1, fun o e hoe => ?_⟩, fun o => ?_, fun hn => ?_⟩
        · rw [hget] at hoe
          exact merge_entryOk (he o) (hus o) hoe
        · show shown _ (base.peekCoin o) = _
          rw [hget, merge_shown (he o) (hus o)]
          rfl
        · simp [CCoinsView.getBestBlock, hn]

theorem batchWrite_cache_ok {base : CCoinsView} {entries : CCoinsMap}
    (he : EntriesOk entries (.cache l base)) (h : Uint256) :
    ∃ v', (CCoinsView.cache l base).batchWrite entries h = .ok v' := by
  have hno : ¬ ∃ o ∈ entries.dom,
      CacheLayer.misapplied (entries.get o) (l.cacheCoins.get o) = true := by
    rintro ⟨o, -, ho⟩
    rw [misapplied_eq_false (he o)] at ho
    cases ho
  rw [CCoinsView.batchWrite, CacheLayer.batchWrite, if_neg hno]
  exact ⟨_, rfl⟩

namespace CCoinsViewCache

variable {c c' : CCoinsViewCache}

/-- **flushing moves the shown map into the base and empties the cache** -/
theorem flush_spec (hc : c.Ok) (h : c.flush = .ok c') :
    c'.Ok ∧ c'.utxos = c.utxos ∧ c'.cacheCoins = FMap.empty ∧
      c'.m_block_hash = c.m_block_hash ∧ (∀ o, c'.base.peekCoin o = c.peek o) ∧
      (c.m_block_hash.isNull = false → c'.base.getBestBlock = c.m_block_hash) := by
  unfold flush at h
  cases hw : c.base.batchWrite c.cacheCoins c.m_block_hash with
  | error e => rw [hw] at h; cases h
  | ok b =>
    rw [hw] at h
    cases h
    obtain ⟨hb, hpeek, hbest⟩ := batchWrite_spec hc.1 hc.2 hw
    have hp : ∀ o, b.peekCoin o = c.peek o := fun o => hpeek o
    refine ⟨⟨hb, layerOk_empty rfl _⟩, utxos_congr fun o => ?_, rfl, rfl, hp, hbest⟩
    rw [← hp o, peek_of_no_entry (FMap.empty_get o)]

theorem synced_entryOk {e e' : CCoinsCacheEntry} (h : EntryOk e below)
    (hs : CacheLayer.synced (some e) = some e') : e' = ⟨e.coin, false, false⟩ ∧
      e.coin.isSpent = false := by
  simp only [CacheLayer.synced] at hs
  split at hs
  · cases hs
  · rename_i hfs
    cases hs
    refine ⟨rfl, ?_⟩
    cases hsp : e.coin.isSpent with
    | false => rfl
    | true =>
      rw [(h.spent hsp).2.1, hsp] at hfs
      simp at hfs

theorem synced_spec {entries m : CCoinsMap} {below below' : COutPoint → Option Coin}
    (he : ∀ o e, entries.get o = some e → EntryOk e (below o))
    (hm : ∀ o, m.get o = CacheLayer.synced (entries.get o))
    (hp : ∀ o, below' o = shown (entries.get o) (below o)) (o : COutPoint) :
    (∀ e, m.get o = some e → EntryOk e (below' o)) ∧ shown (m.get o) (below' o) = below' o := by
  have hkept : ∀ e', m.get o = some e' → e'.coin.isSpent = false ∧ e' = ⟨e'.coin, false, false⟩ ∧
      below' o = some e'.coin := by
    intro e' he'
    rw [hm] at he'
    cases hg : entries.get o with
    | none => rw [hg] at he'; cases he'
    | some e =>
      rw [hg] at he'
      obtain ⟨rfl, hsp⟩ := synced_entryOk (he o e hg) he'
      refine ⟨hsp, rfl, ?_⟩
      rw [hp o, hg, shown, entryCoin, hsp]
      rfl
  refine ⟨fun e' he' => ?_, ?_⟩
  · obtain ⟨hsp, heq, hbelow⟩ := hkept e' he'
    rw [heq, hbelow]
    exact entryOk_fetched hsp
  · cases hg : m.get o with
    | none => rfl
    | some e' =>
      obtain ⟨hsp, -, hbelow⟩ := hkept e' hg
      rw [hbelow, shown, entryCoin, hsp]
      rfl

/-- **syncing moves the shown map into the base and keeps the unspent entries, now clean** -/
theorem sync_spec (hc : c.Ok) (h : c.sync = .ok c') :
    c'.Ok ∧ c'.utxos = c.utxos ∧ c'.m_block_hash = c.m_block_hash ∧
      (∀ o, c'.base.peekCoin o = c.peek o) ∧
      (c.m_block_hash.isNull = false → c'.base.getBestBlock = c.m_block_hash) := by
  unfold sync at h
  cases hw : c.base.batchWrite c.cacheCoins c.m_block_hash with
  | error e => rw [hw] at h; cases h
  | ok b =>
    rw [hw] at h
    cases h
    obtain ⟨hb, hpeek, hbest⟩ := batchWrite_spec hc.1 hc.2 hw
    have hget : ∀ o, (FMap.build c.cacheCoins.dom fun o =>
        CacheLayer.synced (c.cacheCoins.get o)).get o = CacheLayer.synced (c.cacheCoins.get o) := by
      refine FMap.build_get_of_cover fun k hk => ?_
      rw [(FMap.get_eq_none_iff _ _).mpr hk]
      rfl
    have hsynced := synced_spec hc.2 hget hpeek
    refine ⟨⟨hb, fun o e' he' => (hsynced o).1 e' he'⟩, utxos_congr fun o => ?_, rfl,
      fun o => hpeek o, hbest⟩
    show shown _ (b.peekCoin o) = _
    rw [(hsynced o).2]
    exact hpeek o

/-- **forgetting a clean entry changes nothing that is shown** -/
theorem uncache_spec (hc : c.Ok) (o : COutPoint) : (c.uncache o).Ok ∧ (c.uncache o).utxos = c.utxos := by
  unfold uncache
  cases hg : c.cacheCoins.get o with
  | none => exact ⟨hc, rfl⟩
  | some it =>
    show (if it.dirty then c else _ : CCoinsViewCache).Ok ∧
      (if it.dirty then c else _ : CCoinsViewCache).utxos = c.utxos
    cases hd : it.dirty with
    | true => exact ⟨hc, rfl⟩
    | false =>
      refine ⟨ok_erase hc o, utxos_congr fun k => ?_⟩
      have hbase : entryCoin it = c.base.peekCoin o := entryCoin_of_clean (entry_ok hc hg) hd
      show peek { c with cacheCoins := c.cacheCoins.erase o } k = c.peek k
      rw [peek_erase]
      split
      · rename_i hk
        rw [hk, peek_of_entry hg, hbase]
      · rfl

end CCoinsViewCache

/-! ## a cache does not see how its base is layered -/

theorem addCoin_base {c c' : CCoinsViewCache} {o : COutPoint} {coin : Coin} {ow : Bool}
    (h : c.addCoin o coin ow = .ok c') : c'.base = c.base := by
  obtain ⟨-, ⟨-, rfl⟩ | ⟨-, it, -, -, rfl⟩⟩ := CCoinsViewCache.addCoin_eq_ok h <;> rfl

/-- the same entries over views that show the same -/
structure SameTop (c c' : CCoinsViewCache) : Prop where
  coins : c.cacheCoins = c'.cacheCoins
  block_hash : c.m_block_hash = c'.m_block_hash
  base : SameView c.base c'.base

namespace SameTop

variable {c c' : CCoinsViewCache}

theorem refl (c : CCoinsViewCache) : SameTop c c := ⟨rfl, rfl, SameView.refl _⟩

theorem new {v v' : CCoinsView} (h : SameView v v') :
    SameTop (CCoinsViewCache.new v) (CCoinsViewCache.new v') := ⟨rfl, rfl, h⟩

section
variable (h : SameTop c c')
include h

theorem toView : SameView c.toView c'.toView := by
  refine ⟨fun o => ?_, ?_⟩
  · rw [CCoinsViewCache.toView, CCoinsViewCache.toView, peekCoin, peekCoin, h.coins, h.base.peek]
  · rw [CCoinsViewCache.toView, CCoinsViewCache.toView, CCoinsView.getBestBlock,
      CCoinsView.getBestBlock, h.block_hash, h.base.best]

theorem utxos_eq : c.utxos = c'.utxos :=
  FMap.ext_get fun o => by
    rw [CCoinsViewCache.utxos_get, CCoinsViewCache.utxos_get]
    exact h.toView.peek o

theorem fetchCoin (o : COutPoint) : SameTop (c.fetchCoin o) (c'.fetchCoin o) := by
  refine ⟨FMap.ext_get fun k => ?_, ?_, fun k => ?_, ?_⟩
  · show (c.filled o (c.base.peekCoin o)).cacheCoins.get k =
      (c'.filled o (c'.base.peekCoin o)).cacheCoins.get k
    rw [filled_get, filled_get, h.coins, h.base.peek]
  · rw [CCoinsViewCache.fetchCoin_block_hash, CCoinsViewCache.fetchCoin_block_hash, h.block_hash]
  · rw [CCoinsViewCache.fetchCoin_base_peekCoin, CCoinsViewCache.fetchCoin_base_peekCoin,
      h.base.peek]
  · rw [← (CCoinsViewCache.sameStack_fetchCoin c o).best,
      ← (CCoinsViewCache.sameStack_fetchCoin c' o).best, h.base.best]

theorem accessCoin (o : COutPoint) : c.accessCoin o = c'.accessCoin o := by
  rw [CCoinsViewCache.accessCoin, CCoinsViewCache.accessCoin, (h.fetchCoin o).coins]

theorem addCoin {o : COutPoint} {coin : Coin} {ow : Bool} {d : CCoinsViewCache}
    (hd : c.addCoin o coin ow = .ok d) : ∃ d', c'.addCoin o coin ow = .ok d' ∧ SameTop d d' := by
  unfold CCoinsViewCache.addCoin at hd ⊢
  rw [← h.coins]
  split at hd
  · cases hd
  · rename_i hs
    rw [if_neg hs]
    split at hd
    · rename_i hu
      rw [if_pos hu]
      cases hd
      exact ⟨c', rfl, h⟩
    · rename_i hu
      rw [if_neg hu]
      simp only at hd ⊢
      split at hd
      · cases hd
      · rename_i how
        rw [if_neg how]
        cases hd
        exact ⟨_, rfl, rfl, h.block_hash, h.base⟩

theorem spendCoin (o : COutPoint) :
    (c.spendCoin o).1 = (c'.spendCoin o).1 ∧ SameTop (c.spendCoin o).2 (c'.spendCoin o).2 := by
  have hf := h.fetchCoin o
  unfold CCoinsViewCache.spendCoin
  simp only
  rw [← hf.coins]
  cases (c.fetchCoin o).cacheCoins.get o with
  | none => exact ⟨rfl, hf⟩
  | some it => exact ⟨rfl, rfl, hf.block_hash, hf.base⟩

end

end SameTop

end ElektronNet
