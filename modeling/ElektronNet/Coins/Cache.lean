import ElektronNet.Coins.Refine

/-!
# A coin cache with its books

`CCoinsViewCache` of `coins.cpp` with everything that `SanityCheck` looks at: the list of flagged
entries that starts at `m_sentinel`, `m_dirty_count` and `cachedCoinsUsage`.  A batch walks over
that list, entry by entry.

* `CoinsCache`     the members of a cache; `layer` forgets the books
* `Accounted`      the list links the dirty entries, each once, and both counters are right
* `writeEntry`, `nextAndMaybeErase`   what a batch does to the receiver and to its own cache

For every operation two lemmas: it is the operation of the layer (`_layer`), and the books stay right.
-/

namespace ElektronNet

open List

def trySub (a b : Nat) : Nat := if b ≤ a then a - b else a

theorem trySub_eq {a b : Nat} (h : b ≤ a) : trySub a b = a - b := if_pos h

/-- the entry is in the list -/
def CCoinsCacheEntry.flags (e : CCoinsCacheEntry) : Bool := e.dirty || e.fresh

/-- `AddFlags`: an entry that had none is linked at the end -/
def link (flags : Bool) (o : COutPoint) (l : List COutPoint) : List COutPoint :=
  if flags then l else l ++ [o]

def unlink (flags : Bool) (o : COutPoint) (l : List COutPoint) : List COutPoint :=
  if flags then l.erase o else l

/-- `DynamicMemoryUsage` of a coin: what its script has allocated, nothing once it is cleared -/
structure MemUsage where
  bytes : Coin → Nat
  cleared : bytes Coin.empty = 0

structure CoinsCache where
  m_block_hash : Uint256
  cacheCoins : CCoinsMap
  /-- the flagged entries, in the order of the list -/
  linked : List COutPoint
  m_dirty_count : Nat
  cachedCoinsUsage : Nat
  overlay : Bool

namespace CoinsCache

def layer (c : CoinsCache) : CacheLayer := ⟨c.m_block_hash, c.cacheCoins, c.overlay⟩

section
variable (usage : MemUsage)

/-! ## the operations -/

section
variable (c : CoinsCache) (o : COutPoint)

/-- `FetchCoin` with the answer of the base -/
def filled (fromBase : Option Coin) : CoinsCache :=
  match c.cacheCoins.get o, fromBase with
  | none, some coin =>
    { c with
      cacheCoins := c.cacheCoins.insert o ⟨coin, false, false⟩
      cachedCoinsUsage := c.cachedCoinsUsage + usage.bytes coin }
  | _, _ => c

def addCoin (coin : Coin) (possible_overwrite : Bool) : Except Fault CoinsCache :=
  if coin.isSpent then .error (.assertion "!coin.IsSpent()")
  else if isUnspendable coin.out.scriptPubKey then .ok c
  else
    let inserted := (c.cacheCoins.get o).isNone
    let it := (c.cacheCoins.get o).getD CCoinsCacheEntry.new
    if !possible_overwrite && !it.coin.isSpent then
      .error (.logicError
        "Attempted to overwrite an unspent coin (when possible_overwrite is false)")
    else
      let fresh := !possible_overwrite && !it.dirty
      let dirty_count := if inserted then c.m_dirty_count else trySub c.m_dirty_count it.dirty.toNat
      let coins_usage := if inserted then c.cachedCoinsUsage
        else trySub c.cachedCoinsUsage (usage.bytes it.coin)
      .ok { c with
        cacheCoins := c.cacheCoins.insert o ⟨coin, true, it.fresh || fresh⟩
        linked := link it.flags o c.linked
        m_dirty_count := dirty_count + 1
        cachedCoinsUsage := coins_usage + usage.bytes coin }

/-- `SpendCoin` behind its lookup -/
def spendEntry : Option Coin × CoinsCache :=
  match c.cacheCoins.get o with
  | none => (none, c)
  | some it =>
    let dirty_count := trySub c.m_dirty_count it.dirty.toNat
    let coins_usage := trySub c.cachedCoinsUsage (usage.bytes it.coin)
    (some it.coin,
      if it.fresh then
        { c with
          cacheCoins := c.cacheCoins.erase o
          linked := unlink it.flags o c.linked
          m_dirty_count := dirty_count
          cachedCoinsUsage := coins_usage }
      else
        { c with
          cacheCoins := c.cacheCoins.insert o ⟨Coin.empty, true, false⟩
          linked := link it.flags o c.linked
          m_dirty_count := dirty_count + 1
          cachedCoinsUsage := coins_usage })

def uncache : CoinsCache :=
  match c.cacheCoins.get o with
  | none => c
  | some it =>
    if it.dirty then c
    else
      { c with
        cacheCoins := c.cacheCoins.erase o
        linked := unlink it.flags o c.linked
        cachedCoinsUsage := trySub c.cachedCoinsUsage (usage.bytes it.coin) }

/-- one round of `BatchWrite`, for the entry `it` of the cache above -/
def writeEntry (it : CCoinsCacheEntry) : Except Fault CoinsCache :=
  if !it.dirty then .ok c
  else
    match c.cacheCoins.get o with
    | none =>
      if it.fresh && it.coin.isSpent then .ok c
      else
        .ok { c with
          cacheCoins := c.cacheCoins.insert o ⟨it.coin, true, it.fresh⟩
          linked := c.linked ++ [o]
          m_dirty_count := c.m_dirty_count + 1
          cachedCoinsUsage := c.cachedCoinsUsage + usage.bytes it.coin }
    | some p =>
      if it.fresh && !p.coin.isSpent then
        .error (.logicError "FRESH flag misapplied to coin that exists in parent cache")
      else if p.fresh && it.coin.isSpent then
        .ok { c with
          cacheCoins := c.cacheCoins.erase o
          linked := unlink p.flags o c.linked
          m_dirty_count := trySub c.m_dirty_count p.dirty.toNat
          cachedCoinsUsage := trySub c.cachedCoinsUsage (usage.bytes p.coin) }
      else
        .ok { c with
          cacheCoins := c.cacheCoins.insert o ⟨it.coin, true, p.fresh⟩
          linked := link p.flags o c.linked
          m_dirty_count := if p.dirty then c.m_dirty_count else c.m_dirty_count + 1
          cachedCoinsUsage := trySub c.cachedCoinsUsage (usage.bytes p.coin) + usage.bytes it.coin }

end

def writeEntries : List (COutPoint × CCoinsCacheEntry) → CoinsCache → Except Fault CoinsCache
  | [], c => pure c
  | e :: cursor, c => do
    let c ← c.writeEntry usage e.1 e.2
    writeEntries cursor c

def entryAt (c : CoinsCache) (o : COutPoint) : Option (COutPoint × CCoinsCacheEntry) :=
  (c.cacheCoins.get o).map fun e => (o, e)

/-- the entries that a `CoinsViewCacheCursor` goes through -/
def cursor (c : CoinsCache) : List (COutPoint × CCoinsCacheEntry) :=
  c.linked.filterMap c.entryAt

def nextAndMaybeErase (c : CoinsCache) (o : COutPoint) (current : CCoinsCacheEntry) : CoinsCache :=
  { c with
    cacheCoins := if current.coin.isSpent then c.cacheCoins.erase o
      else c.cacheCoins.insert o ⟨current.coin, false, false⟩
    linked := unlink current.flags o c.linked
    m_dirty_count := trySub c.m_dirty_count current.dirty.toNat }

/-- the cache under its own cursor -/
def advance : List COutPoint → CoinsCache → CoinsCache
  | [], c => c
  | o :: l, c =>
    match c.cacheCoins.get o with
    | none => advance l c
    | some current => advance l (c.nextAndMaybeErase o current)

/-- the dirty count when the cursor of a cache that will be cleared has come to its end -/
def countDown : List (COutPoint × CCoinsCacheEntry) → Nat → Nat
  | [], n => n
  | e :: cursor, n => countDown cursor (trySub n e.2.dirty.toNat)

/-- the cache after `Flush`: `clear` takes every entry out of the map and out of the list -/
def flushed (c : CoinsCache) : CoinsCache :=
  { c with
    cacheCoins := FMap.empty
    linked := []
    m_dirty_count := countDown c.cursor c.m_dirty_count
    cachedCoinsUsage := 0 }

def sanityCheck (c : CoinsCache) : Except Fault Unit :=
  if ∃ o ∈ c.cacheCoins.dom, ∃ e, c.cacheCoins.get o = some e ∧ e.coin.isSpent = true ∧
      ¬ (e.dirty = true ∧ e.fresh = false) then
    .error (.assertion "entry.IsDirty() && !entry.IsFresh()")
  else if ∃ o ∈ c.cacheCoins.dom, ∃ e, c.cacheCoins.get o = some e ∧ e.coin.isSpent = false ∧
      ¬ (e.dirty = true ∨ e.fresh = false) then
    .error (.assertion "entry.IsDirty() || !entry.IsFresh()")
  else if ∃ o ∈ c.linked, ¬ ∃ e, c.cacheCoins.get o = some e ∧ e.dirty = true then
    .error (.assertion "it->second.IsDirty()")
  else
    let count_dirty := (c.cacheCoins.dom.filter fun o =>
      ((c.cacheCoins.get o).map CCoinsCacheEntry.dirty).getD false = true).card
    if ¬ (count_dirty = c.linked.length ∧ count_dirty = c.m_dirty_count) then
      .error (.assertion "count_dirty == count_linked && count_dirty == m_dirty_count")
    else if ¬ (c.cacheCoins.sum (fun e => usage.bytes e.coin) = c.cachedCoinsUsage) then
      .error (.assertion "recomputed_usage == cachedCoinsUsage")
    else .ok ()

/-! ## the books -/

structure Accounted (c : CoinsCache) : Prop where
  nodup : c.linked.Nodup
  mem_linked : ∀ o, o ∈ c.linked ↔ ∃ e, c.cacheCoins.get o = some e ∧ e.dirty = true
  count : c.m_dirty_count = c.linked.length
  usage_eq : c.cachedCoinsUsage = c.cacheCoins.sum fun e => usage.bytes e.coin

end

/-- what a legal entry has by itself, whatever is under its cache -/
structure Tidy (e : CCoinsCacheEntry) : Prop where
  flags : e.flags = e.dirty
  spent : e.coin.isSpent = true → e.coin = Coin.empty

def AllTidy (c : CoinsCache) : Prop := ∀ o e, c.cacheCoins.get o = some e → Tidy e

theorem tidy_of_entryOk {e : CCoinsCacheEntry} {below : Option Coin} (h : EntryOk e below) :
    Tidy e := by
  refine ⟨?_, fun hs => (h.spent hs).1⟩
  unfold CCoinsCacheEntry.flags
  cases hf : e.fresh with
  | false => exact Bool.or_false _
  | true => rw [(h.fresh hf).1]; rfl

theorem allTidy_of_layerOk {c : CoinsCache} {below : COutPoint → Option Coin}
    (h : LayerOk c.layer below) : c.AllTidy := fun o e he => tidy_of_entryOk (h o e he)

section
variable {usage : MemUsage} {c : CoinsCache} {o : COutPoint}

variable {l : List COutPoint} {flags : Bool} {n u : Nat} {e : CCoinsCacheEntry}

theorem link_spec (hl : l.Nodup) (hflags : flags = true ↔ o ∈ l) :
    (link flags o l).Nodup ∧ (∀ k, k ∈ link flags o l ↔ k = o ∨ k ∈ l) ∧
      (link flags o l).length + flags.toNat = l.length + 1 := by
  unfold link
  cases flags with
  | true =>
    have hmem : o ∈ l := hflags.mp rfl
    refine ⟨hl, fun k => ⟨Or.inr, ?_⟩, rfl⟩
    rintro (rfl | hk)
    · exact hmem
    · exact hk
  | false =>
    have hnot : o ∉ l := fun hmem => Bool.false_ne_true (hflags.mpr hmem)
    rw [if_neg Bool.false_ne_true]
    refine ⟨?_, fun k => ?_, ?_⟩
    · exact nodup_append.mpr ⟨hl, nodup_singleton o, fun a ha b hb hab =>
        hnot (mem_singleton.mp hb ▸ hab ▸ ha)⟩
    · rw [mem_append, mem_singleton, or_comm]
    · rw [length_append]
      rfl

theorem unlink_spec (hl : l.Nodup) (hflags : flags = true ↔ o ∈ l) :
    (unlink flags o l).Nodup ∧ (∀ k, k ∈ unlink flags o l ↔ k ≠ o ∧ k ∈ l) ∧
      (unlink flags o l).length + flags.toNat = l.length := by
  unfold unlink
  cases flags with
  | true =>
    have hmem : o ∈ l := hflags.mp rfl
    refine ⟨hl.erase o, fun k => hl.mem_erase_iff, ?_⟩
    rw [if_pos rfl, length_erase_of_mem hmem]
    exact Nat.sub_add_cancel (length_pos_of_mem hmem)
  | false =>
    have hnot : o ∉ l := fun hmem => Bool.false_ne_true (hflags.mpr hmem)
    refine ⟨hl, fun k => ⟨fun hk => ⟨?_, hk⟩, And.right⟩, rfl⟩
    rintro rfl
    exact hnot hk

def heldBytes (usage : MemUsage) (c : CoinsCache) (o : COutPoint) : Nat :=
  (c.cacheCoins.get o).elim 0 fun e => usage.bytes e.coin

section
variable (h : c.Accounted usage)
include h

theorem Accounted.change {m : CCoinsMap}
    (hget : ∀ k, k ≠ o → m.get k = c.cacheCoins.get k) (hl : l.Nodup)
    (hmem : ∀ k, k ≠ o → (k ∈ l ↔ k ∈ c.linked))
    (ho : o ∈ l ↔ ∃ e, m.get o = some e ∧ e.dirty = true) (hn : n = l.length)
    (hu : u = m.sum fun e => usage.bytes e.coin) :
    Accounted usage
      { c with cacheCoins := m, linked := l, m_dirty_count := n, cachedCoinsUsage := u } := by
  refine ⟨hl, fun k => ?_, hn, hu⟩
  by_cases hk : k = o
  · subst hk
    exact ho
  · rw [hmem k hk, hget k hk]
    exact h.mem_linked k

theorem Accounted.put (hflags : flags = true ↔ o ∈ c.linked)
    (he : e.dirty = true) (hn : n + flags.toNat = c.m_dirty_count + 1)
    (hu : u + c.heldBytes usage o = c.cachedCoinsUsage + usage.bytes e.coin) :
    Accounted usage
      { c with
        cacheCoins := c.cacheCoins.insert o e
        linked := link flags o c.linked
        m_dirty_count := n
        cachedCoinsUsage := u } := by
  obtain ⟨hnodup, hmem, hlen⟩ := link_spec h.nodup hflags
  have hsum := FMap.sum_put (fun e : CCoinsCacheEntry => usage.bytes e.coin) o e c.cacheCoins
  apply h.change (fun k hk => FMap.insert_get_ne hk e c.cacheCoins) hnodup
  · intro k hk
    rw [hmem]
    exact or_iff_right hk
  · exact ⟨fun _ => ⟨e, FMap.insert_get_self o e c.cacheCoins, he⟩,
      fun _ => (hmem o).mpr (Or.inl rfl)⟩
  · rw [h.count] at hn
    omega
  · rw [h.usage_eq] at hu
    unfold heldBytes at hu
    omega

theorem Accounted.drop (hflags : flags = true ↔ o ∈ c.linked)
    (hn : n + flags.toNat = c.m_dirty_count) (hu : u + c.heldBytes usage o = c.cachedCoinsUsage) :
    Accounted usage
      { c with
        cacheCoins := c.cacheCoins.erase o
        linked := unlink flags o c.linked
        m_dirty_count := n
        cachedCoinsUsage := u } := by
  obtain ⟨hnodup, hmem, hlen⟩ := unlink_spec h.nodup hflags
  have hsum := FMap.sum_drop (fun e : CCoinsCacheEntry => usage.bytes e.coin) o c.cacheCoins
  apply h.change (fun k hk => FMap.erase_get_ne hk c.cacheCoins) hnodup
  · intro k hk
    rw [hmem]
    exact and_iff_right hk
  · constructor
    · intro ho
      exact absurd rfl ((hmem o).mp ho).1
    · rintro ⟨e, he, -⟩
      rw [FMap.erase_get_self] at he
      cases he
  · rw [h.count] at hn
    omega
  · rw [h.usage_eq] at hu
    unfold heldBytes at hu
    omega

theorem Accounted.clean (hflags : flags = true ↔ o ∈ c.linked)
    (he : e.dirty = false) (hn : n + flags.toNat = c.m_dirty_count)
    (hu : u + c.heldBytes usage o = c.cachedCoinsUsage + usage.bytes e.coin) :
    Accounted usage
      { c with
        cacheCoins := c.cacheCoins.insert o e
        linked := unlink flags o c.linked
        m_dirty_count := n
        cachedCoinsUsage := u } := by
  obtain ⟨hnodup, hmem, hlen⟩ := unlink_spec h.nodup hflags
  have hsum := FMap.sum_put (fun e : CCoinsCacheEntry => usage.bytes e.coin) o e c.cacheCoins
  apply h.change (fun k hk => FMap.insert_get_ne hk e c.cacheCoins) hnodup
  · intro k hk
    rw [hmem]
    exact and_iff_right hk
  · constructor
    · intro ho
      exact absurd rfl ((hmem o).mp ho).1
    · rintro ⟨e', he', hd⟩
      rw [FMap.insert_get_self] at he'
      cases he'
      rw [he] at hd
      cases hd
  · rw [h.count] at hn
    omega
  · rw [h.usage_eq] at hu
    unfold heldBytes at hu
    omega

theorem Accounted.not_mem (hg : c.cacheCoins.get o = none) : false = true ↔ o ∈ c.linked := by
  refine ⟨fun hf => absurd hf Bool.false_ne_true, fun hmem => ?_⟩
  obtain ⟨e, he, -⟩ := (h.mem_linked o).mp hmem
  rw [hg] at he
  cases he

theorem Accounted.flags_iff (ht : c.AllTidy)
    (hg : c.cacheCoins.get o = some e) : e.flags = true ↔ o ∈ c.linked := by
  rw [h.mem_linked, hg, (ht o e hg).flags]
  constructor
  · intro hd
    exact ⟨e, rfl, hd⟩
  · rintro ⟨e', he, hd⟩
    cases he
    exact hd

theorem Accounted.subtract (hg : c.cacheCoins.get o = some e) :
    trySub c.m_dirty_count e.dirty.toNat + e.dirty.toNat = c.m_dirty_count ∧
      trySub c.cachedCoinsUsage (usage.bytes e.coin) + c.heldBytes usage o = c.cachedCoinsUsage := by
  have hdirty : e.dirty.toNat ≤ c.m_dirty_count := by
    cases hd : e.dirty with
    | false => exact Nat.zero_le _
    | true =>
      rw [h.count]
      exact length_pos_of_mem ((h.mem_linked o).mpr ⟨e, hg, hd⟩)
  have hheld : c.heldBytes usage o = usage.bytes e.coin := by
    unfold heldBytes
    rw [hg]
    rfl
  have hbytes : usage.bytes e.coin ≤ c.cachedCoinsUsage := by
    have hsum := FMap.sum_drop (fun e : CCoinsCacheEntry => usage.bytes e.coin) o c.cacheCoins
    rw [hg, ← h.usage_eq] at hsum
    have : usage.bytes e.coin ≤ c.cachedCoinsUsage := by
      rw [← hsum]
      exact Nat.le_add_left _ _
    exact this
  rw [trySub_eq hdirty, trySub_eq hbytes]
  omega

end

theorem heldBytes_none (usage : MemUsage) (hg : c.cacheCoins.get o = none) :
    c.heldBytes usage o = 0 := by
  unfold heldBytes
  rw [hg]
  rfl

end

/-! ## every operation keeps the books -/

section
variable {usage : MemUsage} {c : CoinsCache} {o : COutPoint}

theorem filled_layer (c : CoinsCache) (o : COutPoint) (fromBase : Option Coin) :
    (c.filled usage o fromBase).layer = c.layer.filled o fromBase := by
  show _ = (match c.cacheCoins.get o, fromBase with
    | none, some coin => _
    | _, _ => _ : CacheLayer)
  unfold filled
  cases c.cacheCoins.get o with
  | some e => rfl
  | none =>
    cases fromBase with
    | none => rfl
    | some coin => rfl

theorem Accounted.filled (h : c.Accounted usage) (o : COutPoint) (fromBase : Option Coin) :
    (c.filled usage o fromBase).Accounted usage := by
  unfold CoinsCache.filled
  cases hg : c.cacheCoins.get o with
  | some e => exact h
  | none =>
    cases fromBase with
    | none => exact h
    | some coin =>
      apply h.clean (h.not_mem hg) rfl rfl
      rw [heldBytes_none usage hg]
      rfl

theorem Accounted.addCoin (h : c.Accounted usage) (ht : c.AllTidy) {coin : Coin} {ow : Bool}
    {c' : CoinsCache} (hc : c.addCoin usage o coin ow = .ok c') : c'.Accounted usage := by
  unfold CoinsCache.addCoin at hc
  split at hc
  · cases hc
  · split at hc
    · cases hc
      exact h
    · dsimp only at hc
      split at hc
      · cases hc
      · cases hc
        cases hg : c.cacheCoins.get o with
        | none =>
          apply h.put (h.not_mem hg) rfl rfl
          rw [heldBytes_none usage hg]
          rfl
        | some it =>
          obtain ⟨hcount, hbytes⟩ := h.subtract hg
          have hflags : it.flags = it.dirty := (ht o it hg).flags
          apply h.put (h.flags_iff ht hg) rfl
          · show trySub c.m_dirty_count it.dirty.toNat + 1 + it.flags.toNat = _
            rw [hflags]
            omega
          · show trySub c.cachedCoinsUsage (usage.bytes it.coin) + usage.bytes coin + _ =
              c.cachedCoinsUsage + usage.bytes coin
            omega

theorem Accounted.spendEntry (h : c.Accounted usage) (ht : c.AllTidy) (o : COutPoint) :
    (c.spendEntry usage o).2.Accounted usage := by
  unfold CoinsCache.spendEntry
  cases hg : c.cacheCoins.get o with
  | none => exact h
  | some it =>
    obtain ⟨hcount, hbytes⟩ := h.subtract hg
    have hflags : it.flags = it.dirty := (ht o it hg).flags
    show Accounted usage (if it.fresh then _ else _)
    split
    · apply h.drop (h.flags_iff ht hg)
      · rw [hflags]
        exact hcount
      · exact hbytes
    · apply h.put (h.flags_iff ht hg) rfl
      · rw [hflags]
        omega
      · rw [usage.cleared]
        exact hbytes

theorem Accounted.uncache (h : c.Accounted usage) (ht : c.AllTidy) (o : COutPoint) :
    (c.uncache usage o).Accounted usage := by
  unfold CoinsCache.uncache
  cases hg : c.cacheCoins.get o with
  | none => exact h
  | some it =>
    show Accounted usage (if it.dirty then _ else _)
    cases hd : it.dirty with
    | true => exact h
    | false =>
      have hflags : it.flags = false := (ht o it hg).flags.trans hd
      apply h.drop (h.flags_iff ht hg)
      · rw [hflags]
        rfl
      · exact (h.subtract hg).2

/-! ## a batch under its receiver -/

theorem tidy_dirty {coin : Coin} (fresh : Bool) (h : coin.isSpent = true → coin = Coin.empty) :
    Tidy ⟨coin, true, fresh⟩ := ⟨rfl, h⟩

variable {e it : CCoinsCacheEntry}

theorem AllTidy.insert (ht : c.AllTidy) (o : COutPoint) (he : Tidy e) :
    ∀ k e', (c.cacheCoins.insert o e).get k = some e' → Tidy e' := by
  intro k e' hk
  rw [FMap.insert_get] at hk
  split at hk
  · cases hk
    exact he
  · exact ht k e' hk

theorem AllTidy.erase (ht : c.AllTidy) (o : COutPoint) :
    ∀ k e', (c.cacheCoins.erase o).get k = some e' → Tidy e' := by
  intro k e' hk
  rw [FMap.erase_get] at hk
  split at hk
  · cases hk
  · exact ht k e' hk

/-- the receiver `c'` after a round of a batch at `o` -/
structure Wrote (usage : MemUsage) (c c' : CoinsCache) (o : COutPoint) (it : CCoinsCacheEntry) :
    Prop where
  accounted : c'.Accounted usage
  tidy : c'.AllTidy
  at_self : c'.cacheCoins.get o = CacheLayer.merge (some it) (c.cacheCoins.get o)
  elsewhere : ∀ k, k ≠ o → c'.cacheCoins.get k = c.cacheCoins.get k

section
variable (h : c.Accounted usage) (ht : c.AllTidy)
include h ht

theorem writeEntry_missing (hit : Tidy it) (hd : it.dirty = true) (hg : c.cacheCoins.get o = none) :
    ∃ c', c.writeEntry usage o it = .ok c' ∧ Wrote usage c c' o it := by
  have hmerge : CacheLayer.merge (some it) (c.cacheCoins.get o) =
      if it.fresh && it.coin.isSpent then none else some ⟨it.coin, true, it.fresh⟩ := by
    rw [hg]
    exact if_pos hd
  unfold writeEntry
  rw [hd, hg]
  show ∃ c', (if it.fresh && it.coin.isSpent then _ else _ : Except Fault CoinsCache) = .ok c' ∧ _
  cases hfs : it.fresh && it.coin.isSpent with
  | true =>
    rw [hfs] at hmerge
    exact ⟨c, rfl, h, ht, hg.trans hmerge.symm, fun _ _ => rfl⟩
  | false =>
    rw [hfs] at hmerge
    refine ⟨_, rfl, ?_, ht.insert o (tidy_dirty it.fresh hit.spent), ?_, ?_⟩
    · apply h.put (h.not_mem hg) rfl rfl
      rw [heldBytes_none usage hg]
      rfl
    · exact (FMap.insert_get_self o _ c.cacheCoins).trans hmerge.symm
    · intro k hk
      exact FMap.insert_get_ne hk _ c.cacheCoins

theorem writeEntry_present {p : CCoinsCacheEntry}
    (hit : Tidy it) (hd : it.dirty = true) (hg : c.cacheCoins.get o = some p)
    (hm : (it.fresh && !p.coin.isSpent) = false) :
    ∃ c', c.writeEntry usage o it = .ok c' ∧ Wrote usage c c' o it := by
  have hmerge : CacheLayer.merge (some it) (c.cacheCoins.get o) =
      if p.fresh && it.coin.isSpent then none else some ⟨it.coin, true, p.fresh⟩ := by
    rw [hg]
    exact if_pos hd
  obtain ⟨hcount, hbytes⟩ := h.subtract hg
  have hflags : p.flags = p.dirty := (ht o p hg).flags
  unfold writeEntry
  rw [hd, hg]
  show ∃ c', (if it.fresh && !p.coin.isSpent then _ else
    if p.fresh && it.coin.isSpent then _ else _ : Except Fault CoinsCache) = .ok c' ∧ _
  rw [hm]
  cases hfs : p.fresh && it.coin.isSpent with
  | true =>
    rw [hfs] at hmerge
    refine ⟨_, rfl, ?_, ht.erase o, ?_, ?_⟩
    · apply h.drop (h.flags_iff ht hg)
      · rw [hflags]
        exact hcount
      · exact hbytes
    · exact (FMap.erase_get_self o c.cacheCoins).trans hmerge.symm
    · intro k hk
      exact FMap.erase_get_ne hk c.cacheCoins
  | false =>
    rw [hfs] at hmerge
    refine ⟨_, rfl, ?_, ht.insert o (tidy_dirty p.fresh hit.spent), ?_, ?_⟩
    · apply h.put (h.flags_iff ht hg) rfl
      · rw [hflags]
        cases hpd : p.dirty with
        | true => rfl
        | false => rfl
      · show trySub c.cachedCoinsUsage (usage.bytes p.coin) + usage.bytes it.coin + _ =
          c.cachedCoinsUsage + usage.bytes it.coin
        omega
    · exact (FMap.insert_get_self o _ c.cacheCoins).trans hmerge.symm
    · intro k hk
      exact FMap.insert_get_ne hk _ c.cacheCoins

/-- **a round of a batch is the pointwise merge** of one outpoint, and the books follow it -/
theorem writeEntry_spec (hit : Tidy it)
    (hm : CacheLayer.misapplied (some it) (c.cacheCoins.get o) = false) :
    ∃ c', c.writeEntry usage o it = .ok c' ∧ Wrote usage c c' o it := by
  cases hd : it.dirty with
  | false =>
    refine ⟨c, ?_, h, ht, ?_, fun _ _ => rfl⟩
    · unfold writeEntry
      rw [hd]
      rfl
    · exact (if_neg (by rw [hd]; exact Bool.false_ne_true)).symm
  | true =>
    cases hg : c.cacheCoins.get o with
    | none => exact writeEntry_missing h ht hit hd hg
    | some p =>
      apply writeEntry_present h ht hit hd hg
      rw [hg, CacheLayer.misapplied, hd] at hm
      exact hm

end

/-- the receiver after the rounds for the outpoints of `l` -/
structure WroteAll (usage : MemUsage) (child c c' : CoinsCache) (l : List COutPoint) : Prop where
  accounted : c'.Accounted usage
  merged : ∀ k ∈ l, c'.cacheCoins.get k =
    CacheLayer.merge (child.cacheCoins.get k) (c.cacheCoins.get k)
  elsewhere : ∀ k, k ∉ l → c'.cacheCoins.get k = c.cacheCoins.get k

/-- the rounds are on different outpoints, so each one meets the entry that was there before -/
theorem writeEntries_spec {child : CoinsCache} (hchild : child.AllTidy) {l : List COutPoint}
    (hl : l.Nodup) (h : c.Accounted usage) (ht : c.AllTidy)
    (hm : ∀ k ∈ l, CacheLayer.misapplied (child.cacheCoins.get k) (c.cacheCoins.get k) = false) :
    ∃ c', writeEntries usage (l.filterMap child.entryAt) c = .ok c' ∧
      WroteAll usage child c c' l := by
  induction l generalizing c with
  | nil => exact ⟨c, rfl, h, fun k hk => absurd hk not_mem_nil, fun _ _ => rfl⟩
  | cons o l ih =>
    obtain ⟨hol, hl'⟩ := nodup_cons.mp hl
    cases hg : child.cacheCoins.get o with
    | none =>
      have hskip : (o :: l).filterMap child.entryAt = l.filterMap child.entryAt :=
        filterMap_cons_none (by rw [entryAt, hg]; rfl)
      obtain ⟨c', hrun, hall⟩ := ih hl' h ht fun k hk => hm k (mem_cons_of_mem o hk)
      rw [hskip]
      refine ⟨c', hrun, hall.accounted, fun k hk => ?_, fun k hk => ?_⟩
      · rcases mem_cons.mp hk with rfl | hk
        · rw [hall.elsewhere k hol, hg]
          rfl
        · exact hall.merged k hk
      · exact hall.elsewhere k fun hmem => hk (mem_cons_of_mem o hmem)
    | some it =>
      have hmeet : (o :: l).filterMap child.entryAt = (o, it) :: l.filterMap child.entryAt :=
        filterMap_cons_some (by rw [entryAt, hg]; rfl)
      have hmo := hm o mem_cons_self
      rw [hg] at hmo
      obtain ⟨c₁, hstep, hw⟩ := writeEntry_spec h ht (hchild o it hg) hmo
      have hne : ∀ k ∈ l, k ≠ o := fun k hk e => hol (e ▸ hk)
      obtain ⟨c', hrun, hall⟩ := ih hl' hw.accounted hw.tidy fun k hk => by
        rw [hw.elsewhere k (hne k hk)]
        exact hm k (mem_cons_of_mem o hk)
      refine ⟨c', ?_, hall.accounted, fun k hk => ?_, fun k hk => ?_⟩
      · rw [hmeet, writeEntries, hstep]
        exact hrun
      · rcases mem_cons.mp hk with rfl | hk
        · rw [hall.elsewhere k hol, hw.at_self, hg]
        · rw [hall.merged k hk, hw.elsewhere k (hne k hk)]
      · rw [mem_cons, not_or] at hk
        rw [hall.elsewhere k hk.2, hw.elsewhere k hk.1]

/-! ## a batch over its own cache -/

theorem nextAndMaybeErase_spec (h : c.Accounted usage) (ht : c.AllTidy)
    (hg : c.cacheCoins.get o = some e) (hd : e.dirty = true) :
    (c.nextAndMaybeErase o e).Accounted usage ∧ (c.nextAndMaybeErase o e).AllTidy ∧
      ∀ k, (c.nextAndMaybeErase o e).cacheCoins.get k =
        if k = o then CacheLayer.synced (some e) else c.cacheCoins.get k := by
  have hflags : e.flags = e.dirty := (ht o e hg).flags
  have hcount := (h.subtract hg).1
  rw [← hflags] at hcount
  have hheld : c.heldBytes usage o = usage.bytes e.coin := by
    unfold heldBytes
    rw [hg]
    rfl
  have hsynced : CacheLayer.synced (some e) =
      if e.coin.isSpent then none else some ⟨e.coin, false, false⟩ := by
    show (if (e.dirty || e.fresh) && e.coin.isSpent then _ else _) = _
    rw [hd]
    rfl
  rw [hsynced]
  unfold nextAndMaybeErase
  rw [← hflags]
  cases hs : e.coin.isSpent with
  | true =>
    refine ⟨h.drop (h.flags_iff ht hg) hcount ?_, ht.erase o, fun k => ?_⟩
    · -- a spent coin was cleared: it has no bytes in the books
      rw [hheld, (ht o e hg).spent hs, usage.cleared]
      rfl
    · exact FMap.erase_get o c.cacheCoins k
  | false =>
    have hclean : Tidy ⟨e.coin, false, false⟩ := ⟨rfl, fun h => (ht o e hg).spent h⟩
    refine ⟨h.clean (h.flags_iff ht hg) rfl hcount ?_, ht.insert o hclean, fun k => ?_⟩
    · rw [hheld]
    · exact FMap.insert_get o _ c.cacheCoins k

theorem advance_spec {l : List COutPoint} (hl : l.Nodup) (h : c.Accounted usage)
    (ht : c.AllTidy) (hdirty : ∀ k ∈ l, k ∈ c.linked) :
    (advance l c).Accounted usage ∧ ∀ k, (advance l c).cacheCoins.get k =
      if k ∈ l then CacheLayer.synced (c.cacheCoins.get k) else c.cacheCoins.get k := by
  induction l generalizing c with
  | nil =>
    refine ⟨h, fun k => ?_⟩
    rfl
  | cons o l ih =>
    obtain ⟨hol, hl'⟩ := nodup_cons.mp hl
    obtain ⟨e, hg, hd⟩ := (h.mem_linked o).mp (hdirty o mem_cons_self)
    obtain ⟨h₁, ht₁, hget₁⟩ := nextAndMaybeErase_spec h ht hg hd
    have hdirty₁ : ∀ k ∈ l, k ∈ (c.nextAndMaybeErase o e).linked := by
      intro k hk
      have hne : k ≠ o := fun he => hol (he ▸ hk)
      rw [h₁.mem_linked, hget₁, if_neg hne, ← h.mem_linked]
      exact hdirty k (mem_cons_of_mem o hk)
    obtain ⟨ha, hget⟩ := ih hl' h₁ ht₁ hdirty₁
    have hunfold : advance (o :: l) c = advance l (c.nextAndMaybeErase o e) := by
      rw [advance, hg]
    rw [hunfold]
    refine ⟨ha, fun k => ?_⟩
    rw [hget, hget₁]
    by_cases hk : k = o
    · subst hk
      rw [if_neg hol, if_pos rfl, if_pos mem_cons_self, hg]
    · rw [if_neg hk]
      by_cases hkl : k ∈ l
      · rw [if_pos hkl, if_pos (mem_cons_of_mem o hkl)]
      · rw [if_neg hkl, if_neg fun hmem => (mem_cons.mp hmem).elim hk hkl]

theorem synced_of_clean (he : Tidy e) (hd : e.dirty = false) : CacheLayer.synced (some e) = some e := by
  have hflags : (e.dirty || e.fresh) = false := he.flags.trans hd
  obtain ⟨coin, dirty, fresh⟩ := e
  obtain ⟨rfl, rfl⟩ := Bool.or_eq_false_iff.mp hflags
  rfl

theorem synced_dirty {entry : Option CCoinsCacheEntry} (h : CacheLayer.synced entry = some e) :
    e.dirty = false := by
  cases entry with
  | none => cases h
  | some e' =>
    rw [CacheLayer.synced] at h
    split at h
    · cases h
    · cases h
      rfl

/-- **a cursor that reaches its end has cleared every flag** -/
theorem advance_linked (h : c.Accounted usage) (ht : c.AllTidy) :
    (advance c.linked c).Accounted usage ∧ (advance c.linked c).linked = [] ∧
      ∀ k, (advance c.linked c).cacheCoins.get k = CacheLayer.synced (c.cacheCoins.get k) := by
  obtain ⟨ha, hget⟩ := advance_spec h.nodup h ht fun _ => id
  have hsynced : ∀ k, (advance c.linked c).cacheCoins.get k = CacheLayer.synced (c.cacheCoins.get k) := by
    intro k
    rw [hget]
    split
    · rfl
    · rename_i hk
      cases hg : c.cacheCoins.get k with
      | none => rfl
      | some e =>
        have hd : e.dirty = false := by
          rw [← Bool.not_eq_true]
          exact fun hd => hk ((h.mem_linked k).mpr ⟨e, hg, hd⟩)
        exact (synced_of_clean (ht k e hg) hd).symm
  refine ⟨ha, eq_nil_iff_forall_not_mem.mpr fun k hk => ?_, hsynced⟩
  obtain ⟨e, he, hd⟩ := (ha.mem_linked k).mp hk
  rw [hsynced] at he
  rw [synced_dirty he] at hd
  cases hd

theorem countDown_cursor (h : c.Accounted usage) : countDown c.cursor c.m_dirty_count = 0 := by
  have hall : ∀ e ∈ c.cursor, e.2.dirty = true := by
    intro e he
    obtain ⟨o, ho, hmap⟩ := mem_filterMap.mp he
    obtain ⟨e', hg, hd⟩ := (h.mem_linked o).mp ho
    rw [entryAt, hg] at hmap
    cases hmap
    exact hd
  have hlen : c.cursor.length = c.m_dirty_count := by
    rw [h.count, cursor, length_filterMap_eq_countP, countP_eq_length]
    intro o ho
    obtain ⟨e, hg, -⟩ := (h.mem_linked o).mp ho
    rw [entryAt, hg]
    rfl
  rw [← hlen]
  generalize c.cursor = l at hall
  induction l with
  | nil => rfl
  | cons e l ih =>
    rw [countDown, hall e mem_cons_self]
    show countDown l (trySub (l.length + 1) 1) = 0
    exact ih fun e he => hall e (mem_cons_of_mem _ he)

/-! ## the assertions -/

/-- **legal entries and right books pass `SanityCheck`** -/
theorem sanityCheck_ok (h : c.Accounted usage) {below : COutPoint → Option Coin}
    (hl : LayerOk c.layer below) : c.sanityCheck usage = .ok () := by
  have hok : ∀ o e, c.cacheCoins.get o = some e → EntryOk e (below o) := hl
  have hcount : (c.cacheCoins.dom.filter fun o =>
      ((c.cacheCoins.get o).map CCoinsCacheEntry.dirty).getD false = true).card = c.linked.length := by
    rw [← toFinset_card_of_nodup h.nodup]
    congr 1
    ext o
    rw [Finset.mem_filter, mem_toFinset, h.mem_linked]
    constructor
    · rintro ⟨hmem, hd⟩
      obtain ⟨e, he⟩ := FMap.exists_get_of_mem hmem
      rw [he] at hd
      exact ⟨e, he, hd⟩
    · rintro ⟨e, he, hd⟩
      refine ⟨FMap.mem_dom_of_get he, ?_⟩
      rw [he]
      exact hd
  unfold sanityCheck
  rw [if_neg, if_neg, if_neg]
  · dsimp only
    rw [hcount, if_neg (not_not.mpr ⟨rfl, h.count.symm⟩), if_neg (not_not.mpr h.usage_eq.symm)]
  · rintro ⟨o, ho, hno⟩
    exact hno ((h.mem_linked o).mp ho)
  · rintro ⟨o, -, e, he, -, hno⟩
    apply hno
    cases hf : e.fresh with
    | false => exact Or.inr rfl
    | true => exact Or.inl ((hok o e he).fresh hf).1
  · rintro ⟨o, -, e, he, hs, hno⟩
    exact hno ((hok o e he).spent hs).2

end

end CoinsCache

end ElektronNet
