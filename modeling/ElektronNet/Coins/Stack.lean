import ElektronNet.Coins.Cache

/-!
# A stack of caches under any run of operations

Caches with their books (`CoinsCache`) over a `CCoinsViewDB`, or over the `CoinsViewEmpty` that
takes a batch and forgets it.  The top cache takes one operation after the other (`CoinsOp`); the
same operations act on a plain finite map (`CoinsOp.onMap`).

* `TopCache.abs`     the stack without the books is a `CCoinsViewCache`; every operation commutes
* `CoinsStack.Takes`   the bases that store what a `Flush` or `Sync` writes
* `step_spec`        one operation keeps legal flags and right books, and acts on the shown map
* `run_spec`         so does every run of them
-/

namespace ElektronNet

open List CCoinsView

inductive CoinsStack where
  /-- a `CoinsViewEmpty` -/
  | empty
  | db (d : CCoinsViewDB)
  | cache (c : CoinsCache) (base : CoinsStack)

/-- the entries that the cursor of a cache goes through, as a map -/
def CoinsCache.flagged (c : CoinsCache) : CCoinsMap :=
  FMap.build c.linked.toFinset c.cacheCoins.get

namespace CoinsStack

def view : CoinsStack → CCoinsView
  | .empty => .db CCoinsViewDB.empty
  | .db d => .db d
  | .cache c base => .cache c.layer base.view

def peekCoin (s : CoinsStack) (o : COutPoint) : Option Coin := s.view.peekCoin o

def utxos (s : CoinsStack) : Utxos := s.view.fetchEffectiveUTXOs

section
variable (usage : MemUsage)

/-- what a `GetCoin` leaves behind -/
def fetch : CoinsStack → COutPoint → CoinsStack
  | .empty, _ => .empty
  | .db d, _ => .db d
  | .cache c base, o =>
    .cache (c.filled usage o (base.peekCoin o))
      (if c.overlay || (c.cacheCoins.get o).isSome then base else base.fetch o)

/-- `BatchWrite` of the flagged entries of a cache above -/
def batchWrite (s : CoinsStack) (child : CoinsCache) : Except Fault CoinsStack :=
  match s with
  | .empty => .ok .empty
  | .db d =>
    match d.batchWrite child.flagged child.m_block_hash with
    | .error e => .error e
    | .ok d => .ok (.db d)
  | .cache c base =>
    match CoinsCache.writeEntries usage child.cursor c with
    | .error e => .error e
    | .ok c => .ok (.cache { c with m_block_hash := child.m_block_hash } base)

def Ok : CoinsStack → Prop
  | .empty => True
  | .db _ => True
  | .cache c base => base.Ok ∧ LayerOk c.layer base.peekCoin ∧ c.Accounted usage

def SanityChecked : CoinsStack → Prop
  | .empty => True
  | .db _ => True
  | .cache c base => base.SanityChecked ∧ c.sanityCheck usage = .ok ()

end

/-- the base stores a batch with this block hash; a database asserts that the hash is not null and,
in the middle of a replay, that it is the one it was moving to -/
def Takes : CoinsStack → Uint256 → Prop
  | .empty, _ => False
  | .db d, block_hash => block_hash.isNull = false ∧ ∃ old_tip, d.oldTip block_hash = .ok old_tip
  | .cache _ _, _ => True

end CoinsStack

structure TopCache where
  cache : CoinsCache
  base : CoinsStack

namespace TopCache

def stack (t : TopCache) : CoinsStack := .cache t.cache t.base

def peekCoin (t : TopCache) (o : COutPoint) : Option Coin := t.stack.peekCoin o

def utxos (t : TopCache) : Utxos := t.stack.utxos

section
variable (usage : MemUsage)

section
variable (t : TopCache) (o : COutPoint)

def fetchCoin : TopCache where
  cache := t.cache.filled usage o (t.base.peekCoin o)
  base := if t.cache.overlay || (t.cache.cacheCoins.get o).isSome then t.base
    else t.base.fetch usage o

def accessCoin : Coin :=
  match (t.fetchCoin usage o).cache.cacheCoins.get o with
  | some e => e.coin
  | none => Coin.empty

def haveCoin : Bool :=
  match (t.fetchCoin usage o).cache.cacheCoins.get o with
  | some e => !e.coin.isSpent
  | none => false

def addCoin (coin : Coin) (possible_overwrite : Bool) : Except Fault TopCache :=
  match t.cache.addCoin usage o coin possible_overwrite with
  | .error e => .error e
  | .ok c => .ok { t with cache := c }

def spendCoin : Option Coin × TopCache :=
  let t := t.fetchCoin usage o
  ((t.cache.spendEntry usage o).1, { t with cache := (t.cache.spendEntry usage o).2 })

def uncache : TopCache := { t with cache := t.cache.uncache usage o }

end

/-- `BatchWrite` of the entries of `child` -/
def batchWrite (t : TopCache) (child : CoinsCache) : Except Fault TopCache :=
  match CoinsCache.writeEntries usage child.cursor t.cache with
  | .error e => .error e
  | .ok c => .ok { t with cache := { c with m_block_hash := child.m_block_hash } }

def flush (t : TopCache) : Except Fault TopCache :=
  match t.base.batchWrite usage t.cache with
  | .error e => .error e
  | .ok base => .ok { cache := t.cache.flushed, base := base }

def sync (t : TopCache) : Except Fault TopCache :=
  match t.base.batchWrite usage t.cache with
  | .error e => .error e
  | .ok base =>
    let c := CoinsCache.advance t.cache.linked t.cache
    if c.linked ≠ [] then .error (.logicError "Not all unspent flagged entries were cleared")
    else .ok { cache := c, base := base }

def setBestBlock (t : TopCache) (h : Uint256) : TopCache :=
  { t with cache := { t.cache with m_block_hash := h } }

def Ok (t : TopCache) : Prop := t.stack.Ok usage

end

def abs (t : TopCache) : CCoinsViewCache := ⟨t.cache.layer, t.base.view⟩

end TopCache

/-! ## runs -/

inductive CoinsOp where
  | addCoin (o : COutPoint) (coin : Coin) (possible_overwrite : Bool)
  | spendCoin (o : COutPoint)
  | accessCoin (o : COutPoint)
  | haveCoin (o : COutPoint)
  | uncache (o : COutPoint)
  | batchWrite (child : CoinsCache)
  | flush
  | sync
  | setBestBlock (h : Uint256)

/-- a changed entry, on a plain map -/
def applyEntry (m : Utxos) (e : COutPoint × CCoinsCacheEntry) : Utxos :=
  if e.2.coin.isSpent then m.erase e.1 else m.insert e.1 e.2.coin

namespace CoinsOp

/-- the operation on a plain map -/
def onMap (m : Utxos) : CoinsOp → Utxos
  | .addCoin o coin _ => if isUnspendable coin.out.scriptPubKey then m else m.insert o coin
  | .spendCoin o => m.erase o
  | .batchWrite child => child.cursor.foldl applyEntry m
  | .accessCoin _ | .haveCoin _ | .uncache _ | .flush | .sync | .setBestBlock _ => m

def writesBase : CoinsOp → Bool
  | .flush | .sync => true
  | _ => false

section
variable (usage : MemUsage)

def step (t : TopCache) : CoinsOp → Except Fault TopCache
  | .addCoin o coin possible_overwrite => t.addCoin usage o coin possible_overwrite
  | .spendCoin o => .ok (t.spendCoin usage o).2
  | .accessCoin o => .ok (t.fetchCoin usage o)
  | .haveCoin o => .ok (t.fetchCoin usage o)
  | .uncache o => .ok (t.uncache usage o)
  | .batchWrite child => t.batchWrite usage child
  | .flush => t.flush usage
  | .sync => t.sync usage
  | .setBestBlock h => .ok (t.setBestBlock h)

/-- what the caller owes: an unspent coin, and one that is not shown yet unless it may be
overwritten; a child that is a cache over this one; a base that stores the batch -/
def Allowed (t : TopCache) : CoinsOp → Prop
  | .addCoin o coin possible_overwrite =>
    coin.isSpent = false ∧ (possible_overwrite = false → t.utxos.get o = none)
  | .batchWrite child => LayerOk child.layer t.peekCoin ∧ child.Accounted usage
  | .flush | .sync => t.base.Takes t.cache.m_block_hash
  | _ => True

def run : List CoinsOp → TopCache → Except Fault TopCache
  | [], t => .ok t
  | op :: ops, t =>
    match step usage t op with
    | .error e => .error e
    | .ok t => run ops t

/-- every operation of the run is allowed where it is made -/
def AllAllowed : List CoinsOp → TopCache → Prop
  | [], _ => True
  | op :: ops, t => Allowed usage t op ∧ ∀ t', step usage t op = .ok t' → AllAllowed ops t'

end

end CoinsOp

/-! ## every operation commutes with the forgetting of the books -/

section
variable {usage : MemUsage} {o : COutPoint} {s : CoinsStack}

namespace CoinsStack

theorem fetch_view (s : CoinsStack) (o : COutPoint) : (s.fetch usage o).view = s.view.fetch o := by
  induction s with
  | empty => rfl
  | db d => rfl
  | cache c base ih =>
    show CCoinsView.cache _ _ = CCoinsView.cache _ _
    rw [CoinsCache.filled_layer]
    congr 1
    show (if c.overlay || (c.cacheCoins.get o).isSome then base else base.fetch usage o).view =
      if c.overlay || (c.cacheCoins.get o).isSome then base.view else base.view.fetch o
    split
    · rfl
    · exact ih

theorem fetch_ok (h : s.Ok usage) (o : COutPoint) : (s.fetch usage o).Ok usage := by
  induction s with
  | empty => trivial
  | db d => trivial
  | cache c base ih =>
    obtain ⟨hb, hl, ha⟩ := h
    refine ⟨?_, ?_, ha.filled o _⟩
    · split
      · exact hb
      · exact ih hb
    · rw [CoinsCache.filled_layer]
      have hpeek : (if c.overlay || (c.cacheCoins.get o).isSome then base
          else base.fetch usage o).peekCoin = base.peekCoin := by
        split
        · rfl
        · funext k
          rw [peekCoin, fetch_view]
          exact fetch_peekCoin base.view o k
      rw [hpeek]
      exact filled_layerOk hl o

theorem Ok.view (h : s.Ok usage) : s.view.Ok := by
  induction s with
  | empty => trivial
  | db d => trivial
  | cache c base ih => exact ⟨ih h.1, h.2.1⟩

theorem Ok.sanityChecked (h : s.Ok usage) : s.SanityChecked usage := by
  induction s with
  | empty => trivial
  | db d => trivial
  | cache c base ih => exact ⟨ih h.1, CoinsCache.sanityCheck_ok h.2.2 h.2.1⟩

theorem utxos_get (s : CoinsStack) (o : COutPoint) : s.utxos.get o = s.peekCoin o :=
  fetchEffectiveUTXOs_get s.view o

theorem utxos_eq {s' : CoinsStack} (h : ∀ o, s'.peekCoin o = s.peekCoin o) : s'.utxos = s.utxos :=
  FMap.ext_get fun o => by rw [utxos_get, utxos_get, h]

end CoinsStack

/-! ### batches -/

section
variable {child : CoinsCache}

theorem flagged_get (c : CoinsCache) (o : COutPoint) :
    c.flagged.get o = if o ∈ c.linked then c.cacheCoins.get o else none := by
  exact if_congr mem_toFinset rfl rfl

theorem dirty_of_not_linked (h : child.Accounted usage) (ho : o ∉ child.linked)
    {e : CCoinsCacheEntry} (he : child.cacheCoins.get o = some e) : e.dirty = false := by
  rw [← Bool.not_eq_true]
  exact fun hd => ho ((h.mem_linked o).mpr ⟨e, he, hd⟩)

theorem merge_of_not_linked (h : child.Accounted usage) (ho : o ∉ child.linked)
    (us : Option CCoinsCacheEntry) : CacheLayer.merge (child.cacheCoins.get o) us = us := by
  cases hg : child.cacheCoins.get o with
  | none => rfl
  | some e =>
    show (if e.dirty then _ else us) = us
    rw [dirty_of_not_linked h ho hg]
    rfl

theorem shown_of_not_linked (h : child.Accounted usage) {below : COutPoint → Option Coin}
    (hl : LayerOk child.layer below) (ho : o ∉ child.linked) :
    shown (child.cacheCoins.get o) (below o) = below o := by
  cases hg : child.cacheCoins.get o with
  | none => rfl
  | some e => exact entryCoin_of_clean (hl o e hg) (dirty_of_not_linked h ho hg)

theorem shown_flagged (h : child.Accounted usage) {below : COutPoint → Option Coin}
    (hl : LayerOk child.layer below) (o : COutPoint) :
    shown (child.flagged.get o) (below o) = shown (child.cacheCoins.get o) (below o) := by
  rw [flagged_get]
  split
  · rfl
  · rename_i ho
    exact (shown_of_not_linked h hl ho).symm

theorem foldl_applyEntry_get (child : CoinsCache) {l : List COutPoint} (hl : l.Nodup)
    (m : Utxos) (k : COutPoint) : ((l.filterMap child.entryAt).foldl applyEntry m).get k =
      if k ∈ l then shown (child.cacheCoins.get k) (m.get k) else m.get k := by
  induction l generalizing m with
  | nil =>
    rfl
  | cons o l ih =>
    obtain ⟨hol, hl'⟩ := nodup_cons.mp hl
    cases hg : child.cacheCoins.get o with
    | none =>
      rw [filterMap_cons_none (by rw [CoinsCache.entryAt, hg]; rfl), ih hl']
      by_cases hk : k = o
      · subst hk
        rw [if_neg hol, if_pos mem_cons_self, hg]
        rfl
      · exact if_congr (by rw [mem_cons]; exact (or_iff_right hk).symm) rfl rfl
    | some e =>
      have hone : (applyEntry m (o, e)).get k = if k = o then entryCoin e else m.get k := by
        unfold applyEntry entryCoin
        cases e.coin.isSpent with
        | true => exact FMap.erase_get o m k
        | false => exact FMap.insert_get o e.coin m k
      rw [filterMap_cons_some (by rw [CoinsCache.entryAt, hg]; rfl), foldl_cons, ih hl',
        hone]
      by_cases hk : k = o
      · subst hk
        rw [if_neg hol, if_pos rfl, if_pos mem_cons_self, hg]
        rfl
      · rw [if_neg hk]
        exact if_congr (by rw [mem_cons]; exact (or_iff_right hk).symm) rfl rfl

theorem foldl_cursor_get (h : child.Accounted usage) {m : Utxos}
    (hl : LayerOk child.layer m.get) (k : COutPoint) :
    (child.cursor.foldl applyEntry m).get k = shown (child.cacheCoins.get k) (m.get k) := by
  rw [CoinsCache.cursor, foldl_applyEntry_get child h.nodup]
  split
  · rfl
  · rename_i hk
    exact (shown_of_not_linked h hl hk).symm

theorem writeEntries_cache {c : CoinsCache} {base : CoinsStack} (hs : (CoinsStack.cache c base).Ok usage)
    (hl : LayerOk child.layer (CoinsStack.cache c base).peekCoin) (h : child.Accounted usage) :
    ∃ c', CoinsCache.writeEntries usage child.cursor c = .ok c' ∧
      (CoinsStack.cache { c' with m_block_hash := child.m_block_hash } base).Ok usage ∧
      ∀ o, (CoinsStack.cache { c' with m_block_hash := child.m_block_hash } base).peekCoin o =
        shown (child.cacheCoins.get o) ((CoinsStack.cache c base).peekCoin o) := by
  obtain ⟨hb, hlayer, ha⟩ := hs
  have hus : ∀ o p, c.cacheCoins.get o = some p → EntryOk p (base.peekCoin o) := hlayer
  have hchild : ∀ o e, child.cacheCoins.get o = some e →
      EntryOk e (shown (c.cacheCoins.get o) (base.peekCoin o)) := hl
  obtain ⟨c', hrun, hw⟩ := CoinsCache.writeEntries_spec (CoinsCache.allTidy_of_layerOk hl) h.nodup ha
    (CoinsCache.allTidy_of_layerOk hlayer)
    fun k _ => misapplied_eq_false (hchild k)
  have hget : ∀ o, c'.cacheCoins.get o =
      CacheLayer.merge (child.cacheCoins.get o) (c.cacheCoins.get o) := by
    intro o
    by_cases ho : o ∈ child.linked
    · exact hw.merged o ho
    · rw [hw.elsewhere o ho, merge_of_not_linked h ho]
  refine ⟨c', hrun, ⟨hb, fun o e he => ?_, ?_⟩, fun o => ?_⟩
  · have he' : c'.cacheCoins.get o = some e := he
    rw [hget] at he'
    exact merge_entryOk (hchild o) (hus o) he'
  · exact ⟨hw.accounted.nodup, hw.accounted.mem_linked, hw.accounted.count, hw.accounted.usage_eq⟩
  · show shown (c'.cacheCoins.get o) (base.peekCoin o) = _
    rw [hget, merge_shown (hchild o) (hus o)]
    rfl

theorem batchWrite_db {d : CCoinsViewDB}
    (hl : LayerOk child.layer (CoinsStack.db d).peekCoin) (h : child.Accounted usage)
    (htakes : (CoinsStack.db d).Takes child.m_block_hash) :
    ∃ s', (CoinsStack.db d).batchWrite usage child = .ok s' ∧ s'.Ok usage ∧
      ∀ o, s'.peekCoin o = shown (child.cacheCoins.get o) ((CoinsStack.db d).peekCoin o) := by
  obtain ⟨hnull, old_tip, htip⟩ := htakes
  have hbatch : d.batchWrite child.flagged child.m_block_hash =
      .ok (d.finalBatch child.flagged child.m_block_hash) := by
    unfold CCoinsViewDB.batchWrite
    rw [hnull, htip]
    rfl
  refine ⟨.db (d.finalBatch child.flagged child.m_block_hash), ?_, trivial, fun o => ?_⟩
  · unfold CoinsStack.batchWrite
    dsimp only
    rw [hbatch]
  · have hentries : EntriesOk child.flagged (.db d) := by
      intro k e he
      rw [flagged_get] at he
      split at he
      · exact hl k e he
      · cases he
    have hwrite : (CCoinsView.db d).batchWrite child.flagged child.m_block_hash =
        .ok (.db (d.finalBatch child.flagged child.m_block_hash)) := by
      rw [CCoinsView.batchWrite, hbatch]
    exact ((batchWrite_spec (v := .db d) trivial hentries hwrite).2.1 o).trans (shown_flagged h hl o)

/-- **a base that takes the batch of a legal cache shows what the cache showed** -/
theorem batchWrite_takes (hs : s.Ok usage) (hl : LayerOk child.layer s.peekCoin)
    (h : child.Accounted usage) (htakes : s.Takes child.m_block_hash) :
    ∃ s', s.batchWrite usage child = .ok s' ∧ s'.Ok usage ∧
      ∀ o, s'.peekCoin o = shown (child.cacheCoins.get o) (s.peekCoin o) := by
  cases s with
  | empty => exact htakes.elim
  | db d => exact batchWrite_db hl h htakes
  | cache c base =>
    obtain ⟨c', hrun, hok, hpeek⟩ := writeEntries_cache hs hl h
    refine ⟨_, ?_, hok, hpeek⟩
    unfold CoinsStack.batchWrite
    dsimp only
    rw [hrun]

end

/-! ## one operation -/

namespace TopCache

variable {t : TopCache}

theorem Ok.abs (h : t.Ok usage) : t.abs.Ok := CoinsStack.Ok.view h

theorem Ok.allTidy (h : t.Ok usage) : t.cache.AllTidy := CoinsCache.allTidy_of_layerOk h.2.1

theorem abs_utxos (t : TopCache) : t.abs.utxos = t.utxos := rfl

theorem abs_cacheCoins (t : TopCache) : t.abs.cacheCoins = t.cache.cacheCoins := rfl

theorem abs_peek (t : TopCache) (o : COutPoint) : t.abs.peek o = t.peekCoin o := rfl

theorem fetchCoin_abs (t : TopCache) (o : COutPoint) :
    (t.fetchCoin usage o).abs = t.abs.fetchCoin o := by
  show CCoinsViewCache.mk _ _ = CCoinsViewCache.mk _ _
  congr 1
  · exact CoinsCache.filled_layer t.cache o _
  · show (if t.cache.overlay || (t.cache.cacheCoins.get o).isSome then t.base
      else t.base.fetch usage o).view = if t.cache.overlay || (t.cache.cacheCoins.get o).isSome
        then t.base.view else t.base.view.fetch o
    split
    · rfl
    · exact CoinsStack.fetch_view t.base o

theorem fetchCoin_ok (h : t.Ok usage) (o : COutPoint) : (t.fetchCoin usage o).Ok usage :=
  CoinsStack.fetch_ok h o

theorem fetchCoin_utxos (t : TopCache) (o : COutPoint) : (t.fetchCoin usage o).utxos = t.utxos := by
  rw [← abs_utxos, fetchCoin_abs, CCoinsViewCache.fetchCoin_utxos, abs_utxos]

theorem accessCoin_eq (h : t.Ok usage) (o : COutPoint) :
    t.accessCoin usage o = (t.utxos.get o).getD Coin.empty := by
  have habs : t.accessCoin usage o = t.abs.accessCoin o := by
    unfold CCoinsViewCache.accessCoin
    rw [← @fetchCoin_abs usage t o]
    rfl
  rw [habs, CCoinsViewCache.accessCoin_eq h.abs, ← abs_utxos, CCoinsViewCache.utxos_get]

theorem haveCoin_eq (t : TopCache) (o : COutPoint) : t.haveCoin usage o = (t.utxos.get o).isSome := by
  have habs : t.haveCoin usage o = t.abs.haveCoin o := by
    unfold CCoinsViewCache.haveCoin
    rw [← @fetchCoin_abs usage t o]
    rfl
  rw [habs, CCoinsViewCache.haveCoin_eq, ← abs_utxos, CCoinsViewCache.utxos_get]

theorem addCoin_abs {coin : Coin} {ow : Bool} {c : CoinsCache}
    (hc : t.cache.addCoin usage o coin ow = .ok c) :
    t.abs.addCoin o coin ow = .ok (TopCache.mk c t.base).abs := by
  unfold CoinsCache.addCoin at hc
  unfold CCoinsViewCache.addCoin
  split at hc
  · cases hc
  · rename_i hs
    rw [if_neg hs]
    split at hc
    · rename_i hu
      cases hc
      rw [if_pos hu]
    · rename_i hu
      dsimp only at hc
      rw [if_neg hu]
      split at hc
      · cases hc
      · rename_i how
        cases hc
        exact if_neg how

theorem isSpent_of_not_shown (h : t.peekCoin o = none) :
    ((t.cache.cacheCoins.get o).getD CCoinsCacheEntry.new).coin.isSpent = true := by
  cases hg : t.cache.cacheCoins.get o with
  | none => rfl
  | some e =>
    have hp : t.abs.peek o = entryCoin e := CCoinsViewCache.peek_of_entry (c := t.abs) hg
    rw [abs_peek, h, entryCoin] at hp
    split at hp
    · assumption
    · cases hp

theorem addCoin_ok {coin : Coin} {ow : Bool} (hs : coin.isSpent = false)
    (hnew : ow = false → t.peekCoin o = none) :
    ∃ c, t.cache.addCoin usage o coin ow = .ok c := by
  unfold CoinsCache.addCoin
  rw [hs, if_neg Bool.false_ne_true]
  split
  · exact ⟨_, rfl⟩
  · dsimp only
    rw [if_neg]
    · exact ⟨_, rfl⟩
    · cases ow with
      | true => exact Bool.false_ne_true
      | false =>
        rw [isSpent_of_not_shown (hnew rfl)]
        exact Bool.false_ne_true

theorem spendCoin_abs (t : TopCache) (o : COutPoint) :
    t.abs.spendCoin o = ((t.spendCoin usage o).1, (t.spendCoin usage o).2.abs) := by
  unfold CCoinsViewCache.spendCoin
  rw [← @fetchCoin_abs usage t o]
  unfold TopCache.spendCoin CoinsCache.spendEntry
  dsimp only
  rw [abs_cacheCoins]
  cases (t.fetchCoin usage o).cache.cacheCoins.get o with
  | none => rfl
  | some it =>
    dsimp only
    cases it.fresh with
    | true => rfl
    | false => rfl

theorem uncache_abs (t : TopCache) (o : COutPoint) : (t.uncache usage o).abs = t.abs.uncache o := by
  unfold uncache CoinsCache.uncache CCoinsViewCache.uncache
  rw [abs_cacheCoins]
  cases t.cache.cacheCoins.get o with
  | none => rfl
  | some it =>
    dsimp only
    cases it.dirty with
    | true => rfl
    | false => rfl

end TopCache

namespace CoinsOp

open TopCache

variable {t : TopCache}

/-- what an operation leaves behind -/
structure Stepped (usage : MemUsage) (t t' : TopCache) (op : CoinsOp) : Prop where
  ok : t'.Ok usage
  utxos : t'.utxos = op.onMap t.utxos
  base : op.writesBase = true → t'.base.utxos = t.utxos

section
variable (h : t.Ok usage)
include h

theorem addCoin_stepped {coin : Coin} {ow : Bool}
    (hs : coin.isSpent = false) (hnew : ow = false → t.utxos.get o = none) :
    ∃ t', t.addCoin usage o coin ow = .ok t' ∧ Stepped usage t t' (.addCoin o coin ow) := by
  have hfree : ow = false → t.peekCoin o = none := fun how => by
    rw [← hnew how]
    exact (CoinsStack.utxos_get t.stack o).symm
  obtain ⟨c, hc⟩ := @addCoin_ok usage o t coin ow hs hfree
  obtain ⟨hok, hutxos, -, -⟩ := CCoinsViewCache.addCoin_spec h.abs (addCoin_abs hc) hfree
  refine ⟨⟨c, t.base⟩, ?_, ⟨h.1, hok.2, h.2.2.addCoin h.allTidy hc⟩, hutxos, fun hw => by cases hw⟩
  unfold TopCache.addCoin
  rw [hc]

theorem spendCoin_stepped (o : COutPoint) : Stepped usage t (t.spendCoin usage o).2 (.spendCoin o) := by
  have hf := fetchCoin_ok h o
  obtain ⟨hok, hutxos, -⟩ := CCoinsViewCache.spendCoin_spec h.abs (spendCoin_abs t o)
  exact ⟨⟨hf.1, hok.2, hf.2.2.spendEntry hf.allTidy o⟩, hutxos, fun hw => by cases hw⟩

theorem uncache_stepped (o : COutPoint) : Stepped usage t (t.uncache usage o) (.uncache o) := by
  have hspec := CCoinsViewCache.uncache_spec h.abs o
  rw [← @uncache_abs usage t o] at hspec
  exact ⟨⟨h.1, hspec.1.2, h.2.2.uncache h.allTidy o⟩, hspec.2, fun hw => by cases hw⟩

theorem batchWrite_stepped {child : CoinsCache}
    (hl : LayerOk child.layer t.peekCoin) (ha : child.Accounted usage) :
    ∃ t', t.batchWrite usage child = .ok t' ∧ Stepped usage t t' (.batchWrite child) := by
  obtain ⟨c, hrun, hok, hpeek⟩ := writeEntries_cache h hl ha
  refine ⟨⟨{ c with m_block_hash := child.m_block_hash }, t.base⟩, ?_, hok, ?_, fun hw => by cases hw⟩
  · unfold TopCache.batchWrite
    rw [hrun]
  · have hbelow : LayerOk child.layer t.utxos.get := fun o e he => by
      rw [TopCache.utxos, CoinsStack.utxos_get]
      exact hl o e he
    refine FMap.ext_get fun o => ?_
    show _ = (child.cursor.foldl applyEntry t.utxos).get o
    rw [foldl_cursor_get ha hbelow, TopCache.utxos, TopCache.utxos, CoinsStack.utxos_get,
      CoinsStack.utxos_get]
    exact hpeek o

theorem flush_stepped (htakes : t.base.Takes t.cache.m_block_hash) :
    ∃ t', t.flush usage = .ok t' ∧ Stepped usage t t' .flush := by
  obtain ⟨base, hrun, hok, hpeek⟩ := batchWrite_takes h.1 h.2.1 h.2.2 htakes
  have hbase : base.utxos = t.utxos := CoinsStack.utxos_eq fun o => hpeek o
  refine ⟨⟨t.cache.flushed, base⟩, ?_, ⟨hok, layerOk_empty rfl _, ?_⟩, ?_, fun _ => hbase⟩
  · unfold TopCache.flush
    rw [hrun]
  · refine ⟨nodup_nil, fun o => ?_, CoinsCache.countDown_cursor h.2.2, rfl⟩
    refine ⟨fun ho => absurd ho not_mem_nil, ?_⟩
    rintro ⟨e, he, -⟩
    cases he
  · apply CoinsStack.utxos_eq
    intro o
    show shown (FMap.empty.get o) (base.peekCoin o) = _
    exact hpeek o

theorem sync_stepped (htakes : t.base.Takes t.cache.m_block_hash) :
    ∃ t', t.sync usage = .ok t' ∧ Stepped usage t t' .sync := by
  obtain ⟨base, hrun, hok, hpeek⟩ := batchWrite_takes h.1 h.2.1 h.2.2 htakes
  obtain ⟨ha, hnil, hget⟩ := CoinsCache.advance_linked h.2.2 h.allTidy
  have hsynced := CCoinsViewCache.synced_spec h.2.1 hget hpeek
  have hbase : base.utxos = t.utxos := CoinsStack.utxos_eq fun o => hpeek o
  refine ⟨⟨CoinsCache.advance t.cache.linked t.cache, base⟩, ?_,
    ⟨hok, fun o e he => (hsynced o).1 e he, ha⟩, ?_, fun _ => hbase⟩
  · unfold TopCache.sync
    rw [hrun]
    exact if_neg (not_not.mpr hnil)
  · apply CoinsStack.utxos_eq
    intro o
    show shown ((CoinsCache.advance t.cache.linked t.cache).cacheCoins.get o) (base.peekCoin o) = _
    rw [(hsynced o).2]
    exact hpeek o

/-- **one allowed operation returns, keeps the caches legal and their books right, and acts on the
shown map as on a plain one** -/
theorem step_spec {op : CoinsOp} (ha : Allowed usage t op) :
    ∃ t', step usage t op = .ok t' ∧ Stepped usage t t' op := by
  cases op with
  | addCoin o coin ow => exact addCoin_stepped h ha.1 ha.2
  | spendCoin o => exact ⟨_, rfl, spendCoin_stepped h o⟩
  | accessCoin o => exact ⟨_, rfl, fetchCoin_ok h o, fetchCoin_utxos t o, fun hw => by cases hw⟩
  | haveCoin o => exact ⟨_, rfl, fetchCoin_ok h o, fetchCoin_utxos t o, fun hw => by cases hw⟩
  | uncache o => exact ⟨_, rfl, uncache_stepped h o⟩
  | batchWrite child => exact batchWrite_stepped h ha.1 ha.2
  | flush => exact flush_stepped h ha
  | sync => exact sync_stepped h ha
  | setBestBlock hash =>
    have hbooks := h.2.2
    exact ⟨_, rfl, ⟨h.1, h.2.1, hbooks.nodup, hbooks.mem_linked, hbooks.count, hbooks.usage_eq⟩,
      rfl, fun hw => by cases hw⟩

end

theorem run_spec {ops : List CoinsOp} (h : t.Ok usage) (ha : AllAllowed usage ops t) :
    ∃ t', run usage ops t = .ok t' ∧ t'.Ok usage ∧ t'.utxos = ops.foldl onMap t.utxos ∧
      ∀ before op, ops = before ++ [op] → op.writesBase = true →
        t'.base.utxos = before.foldl onMap t.utxos := by
  induction ops generalizing t with
  | nil => exact ⟨t, rfl, h, rfl, fun before op heq => by simp at heq⟩
  | cons op ops ih =>
    obtain ⟨t₁, hstep, hs⟩ := step_spec h ha.1
    obtain ⟨t', hrun, hok, hutxos, hbase⟩ := ih hs.ok (ha.2 t₁ hstep)
    refine ⟨t', ?_, hok, ?_, fun before last heq hw => ?_⟩
    · rw [run, hstep]
      exact hrun
    · rw [hutxos, hs.utxos]
      rfl
    · cases before with
      | nil =>
        obtain ⟨rfl, rfl⟩ := cons.inj heq
        cases hrun
        exact hs.base hw
      | cons o before =>
        obtain ⟨rfl, hrest⟩ := cons.inj heq
        rw [hbase before last hrest hw, hs.utxos]
        rfl

end CoinsOp

end

namespace CoinsCache

def new (overlay : Bool) : CoinsCache := ⟨Uint256.zero, FMap.empty, [], 0, 0, overlay⟩

theorem new_accounted (usage : MemUsage) (overlay : Bool) : (new overlay).Accounted usage := by
  refine ⟨nodup_nil, fun o => ⟨fun ho => absurd ho not_mem_nil, ?_⟩, rfl, rfl⟩
  rintro ⟨e, he, -⟩
  cases he

end CoinsCache

theorem TopCache.new_ok {usage : MemUsage} {s : CoinsStack} (h : s.Ok usage) (overlay : Bool) :
    (TopCache.mk (CoinsCache.new overlay) s).Ok usage :=
  ⟨h, layerOk_empty rfl _, CoinsCache.new_accounted usage overlay⟩

namespace CoinsOp

/-- **a stack of caches behaves as one map**: every run of allowed operations returns, the shown map
and the answers are those of the same operations on a plain map, `SanityCheck` passes in every cache,
and a base that was just written shows the map that was shown before -/
theorem run_behaves_as_map (usage : MemUsage) {t : TopCache} (h : t.Ok usage) {ops : List CoinsOp}
    (ha : AllAllowed usage ops t) :
    ∃ t', run usage ops t = .ok t' ∧ t'.utxos = ops.foldl onMap t.utxos ∧
      (∀ o, t'.accessCoin usage o = ((ops.foldl onMap t.utxos).get o).getD Coin.empty ∧
        t'.haveCoin usage o = ((ops.foldl onMap t.utxos).get o).isSome) ∧
      t'.Ok usage ∧ t'.stack.SanityChecked usage ∧
      ∀ before op, ops = before ++ [op] → op.writesBase = true →
        t'.base.utxos = before.foldl onMap t.utxos := by
  obtain ⟨t', hrun, hok, hutxos, hbase⟩ := run_spec h ha
  refine ⟨t', hrun, hutxos, fun o => ?_, hok, CoinsStack.Ok.sanityChecked hok, hbase⟩
  rw [← hutxos]
  exact ⟨TopCache.accessCoin_eq hok o, TopCache.haveCoin_eq t' o⟩

/-- the bytes of a script count -/
def sampleUsage : MemUsage := ⟨fun coin => coin.out.scriptPubKey.length, rfl⟩

def sampleOut : COutPoint := ⟨Uint256.ofByte 1, 0⟩

def samplePaid : Coin := ⟨⟨10, [0x51]⟩, false, 1⟩

def sampleTower : TopCache :=
  ⟨CoinsCache.new false, .cache (CoinsCache.new false) (.db CCoinsViewDB.empty)⟩

/-- a coin that is added, flushed into the lower cache, spent and synced -/
def sampleOps : List CoinsOp :=
  [.addCoin sampleOut samplePaid false, .flush, .accessCoin sampleOut, .spendCoin sampleOut, .sync]

theorem run_behaves_as_map_tower :
    ∃ t', run sampleUsage sampleOps sampleTower = .ok t' ∧ t'.base.utxos = FMap.empty := by
  have hdb : (CoinsStack.db CCoinsViewDB.empty).Ok sampleUsage := trivial
  have hok : sampleTower.Ok sampleUsage := TopCache.new_ok (TopCache.new_ok hdb false) false
  have hallowed : AllAllowed sampleUsage sampleOps sampleTower := by
    refine ⟨⟨rfl, fun _ => rfl⟩, fun t₁ h₁ => ?_⟩
    cases h₁
    refine ⟨trivial, fun t₂ h₂ => ?_⟩
    cases h₂
    exact ⟨trivial, fun _ h₃ => ⟨trivial, fun _ h₄ => ⟨by cases h₃; cases h₄; trivial,
      fun _ _ => trivial⟩⟩⟩
  obtain ⟨t', hrun, hrest⟩ := run_behaves_as_map sampleUsage hok hallowed
  obtain ⟨-, -, -, -, hbase⟩ := hrest
  refine ⟨t', hrun, ?_⟩
  rw [hbase [.addCoin sampleOut samplePaid false, .flush, .accessCoin sampleOut,
    .spendCoin sampleOut] .sync rfl rfl]
  rfl

/-- **a `CoinsViewEmpty` forgets what is flushed into it, and a database stops at a batch whose
block was never set** -/
theorem flush_not_taken :
    (∃ t', run sampleUsage [.addCoin sampleOut samplePaid false, .flush]
        ⟨CoinsCache.new false, .empty⟩ = .ok t' ∧
      t'.base.utxos.get sampleOut = none ∧ t'.utxos.get sampleOut = none ∧
      ([.addCoin sampleOut samplePaid false].foldl onMap FMap.empty).get sampleOut =
        some samplePaid) ∧
    run sampleUsage [.addCoin sampleOut samplePaid false, .flush]
        ⟨CoinsCache.new false, .db CCoinsViewDB.empty⟩ =
      .error (.assertion "!block_hash.IsNull()") :=
  ⟨⟨_, rfl, rfl, rfl, rfl⟩, rfl⟩

end CoinsOp

end ElektronNet
