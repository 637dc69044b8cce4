import ElektronNet.Lib.FMap
import ElektronNet.Lib.Outcome
import ElektronNet.Script

/-!
# Coins and the layers of coin caches

`coins.h`, `coins.cpp` and the coin part of `txdb.cpp`.  A view is a database (`CCoinsViewDB`)
under any number of caches; the top cache with its base is a `CCoinsViewCache`.

* `peekCoin`, `fetchEffectiveUTXOs`   what a view shows, for one outpoint and as a whole
* `fetchCoin`       fills a cache, and the caches under it unless it is a `CoinsViewOverlay`
* `addCoin`, `spendCoin`, `accessCoin`, `haveCoin`, `uncache`, `emplaceCoinInternalDANGER`
* `batchWrite`, `flush`, `sync`

Every key of a batch is treated on its own, so a batch is written as the pointwise map
(`CacheLayer.merge`, `CCoinsViewDB.writeCoins`) and not as a walk over the flagged entries; a
`CCoinsViewDB` that stops between two of its partial batches has written some set of keys.
A failed assertion and a thrown `logic_error` or `runtime_error` are the kinds of `Fault`.

Left out: memory accounting (`cachedCoinsUsage`, `m_dirty_count`, `ReallocateCache`) and the
read-error callbacks of `CCoinsViewErrorCatcher`.
-/

namespace ElektronNet

/-- how a call ends that does not return -/
inductive Fault where
  | assertion (condition : String)
  | logicError (what : String)
  | runtimeError (what : String)
deriving DecidableEq

/-! ## coins -/

structure Coin where
  out : CTxOut
  fCoinBase : Bool
  nHeight : Nat
deriving DecidableEq

namespace Coin

/-- `coinEmpty`, and what `Clear` leaves -/
def empty : Coin := ⟨CTxOut.null, false, 0⟩

def isSpent (coin : Coin) : Bool := coin.out.isNull

end Coin

abbrev CoinEntry := COutPoint × Coin

/-- the coins that a view shows -/
abbrev Utxos := FMap COutPoint Coin

/-! ## the coins database -/

/-- the records of `CCoinsViewDB`; the null hash and the empty list stand for an absent key.
Spent coins are never stored (`Coin::Serialize` asserts it). -/
structure CCoinsViewDB where
  coins : Utxos
  bestBlock : Uint256
  headBlocks : List Uint256
  unspent : ∀ o c, coins.get o = some c → c.isSpent = false

structure CCoinsCacheEntry where
  coin : Coin
  dirty : Bool
  fresh : Bool
deriving DecidableEq

/-- the entry that `try_emplace` creates -/
def CCoinsCacheEntry.new : CCoinsCacheEntry := ⟨Coin.empty, false, false⟩

abbrev CCoinsMap := FMap COutPoint CCoinsCacheEntry

namespace CCoinsViewDB

def empty : CCoinsViewDB := ⟨FMap.empty, Uint256.zero, [], by simp⟩

/-- the record of a key after a cache entry was written over it -/
def written (entry : Option CCoinsCacheEntry) (old : Option Coin) : Option Coin :=
  match entry with
  | none => old
  | some e => if e.dirty then (if e.coin.isSpent then none else some e.coin) else old

section
variable (d : CCoinsViewDB) (w : Finset COutPoint) (entries : CCoinsMap)

/-- the coins after the entries of the keys `w` were written -/
def writeCoins : Utxos :=
  FMap.build (w ∪ d.coins.dom) fun o =>
    if o ∈ w then written (entries.get o) (d.coins.get o) else d.coins.get o

theorem writeCoins_get (o : COutPoint) : (d.writeCoins w entries).get o =
      if o ∈ w then written (entries.get o) (d.coins.get o) else d.coins.get o := by
  refine FMap.build_get_of_cover (fun i hi => ?_) o
  rw [Finset.mem_union, not_or, ← FMap.get_eq_none_iff] at hi
  rw [if_neg hi.1, hi.2]

theorem written_unspent {entry : Option CCoinsCacheEntry} {old : Option Coin} {c : Coin}
    (hold : ∀ c, old = some c → c.isSpent = false) (h : written entry old = some c) :
    c.isSpent = false := by
  cases entry with
  | none => exact hold c h
  | some e =>
    simp only [written] at h
    split at h
    · split at h
      · cases h
      · rename_i hs
        cases h
        simpa using hs
    · exact hold c h

theorem writeCoins_unspent (o : COutPoint) (c : Coin) (h : (d.writeCoins w entries).get o = some c) :
    c.isSpent = false := by
  rw [writeCoins_get] at h
  split at h
  · exact written_unspent (d.unspent o) h
  · exact d.unspent o c h

end

/-- the tip the database moves away from: its best block, or the old head of an interrupted move -/
def oldTip (d : CCoinsViewDB) (block_hash : Uint256) : Except Fault Uint256 :=
  if d.bestBlock.isNull then
    match d.headBlocks with
    | [new, old] =>
      if new = block_hash then .ok old else .error (.assertion "old_heads[0] == block_hash")
    | _ => .ok d.bestBlock
  else .ok d.bestBlock

/-- the database when the entries of `w` are written and the last batch is not -/
def partialBatch (d : CCoinsViewDB) (w : Finset COutPoint) (entries : CCoinsMap)
    (block_hash old_tip : Uint256) : CCoinsViewDB where
  coins := d.writeCoins w entries
  bestBlock := Uint256.zero
  headBlocks := [block_hash, old_tip]
  unspent := writeCoins_unspent d w entries

/-- the database after the last batch -/
def finalBatch (d : CCoinsViewDB) (entries : CCoinsMap) (block_hash : Uint256) : CCoinsViewDB where
  coins := d.writeCoins entries.dom entries
  bestBlock := block_hash
  headBlocks := []
  unspent := writeCoins_unspent d entries.dom entries

def batchWrite (d : CCoinsViewDB) (entries : CCoinsMap) (block_hash : Uint256) :
    Except Fault CCoinsViewDB :=
  if block_hash.isNull then .error (.assertion "!block_hash.IsNull()")
  else
    match d.oldTip block_hash with
    | .error e => .error e
    | .ok _ => .ok (d.finalBatch entries block_hash)

end CCoinsViewDB

theorem unspent_insert {m : Utxos} (h : ∀ o c, m.get o = some c → c.isSpent = false)
    (o : COutPoint) {coin : Coin} (hcoin : coin.isSpent = false) :
    ∀ k c, (m.insert o coin).get k = some c → c.isSpent = false := by
  intro k c hk
  rw [FMap.insert_get] at hk
  split at hk
  · cases hk
    exact hcoin
  · exact h k c hk

theorem unspent_erase {m : Utxos} (h : ∀ o c, m.get o = some c → c.isSpent = false)
    (o : COutPoint) : ∀ k c, (m.erase o).get k = some c → c.isSpent = false := by
  intro k c hk
  rw [FMap.erase_get] at hk
  split at hk
  · cases hk
  · exact h k c hk

/-! ## one cache layer -/

structure CacheLayer where
  m_block_hash : Uint256
  cacheCoins : CCoinsMap
  /-- a `CoinsViewOverlay`: it peeks into its base and leaves the caches there alone -/
  overlay : Bool

namespace CacheLayer

def empty (overlay : Bool) : CacheLayer := ⟨Uint256.zero, FMap.empty, overlay⟩

/-- the layer after a lookup that had to ask the base -/
def filled (l : CacheLayer) (o : COutPoint) (fromBase : Option Coin) : CacheLayer :=
  match l.cacheCoins.get o, fromBase with
  | none, some coin => { l with cacheCoins := l.cacheCoins.insert o ⟨coin, false, false⟩ }
  | _, _ => l

/-- the entry of a key after the entry `child` of the cache above was written into it -/
def merge (child us : Option CCoinsCacheEntry) : Option CCoinsCacheEntry :=
  match child with
  | none => us
  | some it =>
    if it.dirty then
      match us with
      | none => if it.fresh && it.coin.isSpent then none else some ⟨it.coin, true, it.fresh⟩
      | some p => if p.fresh && it.coin.isSpent then none else some ⟨it.coin, true, p.fresh⟩
    else us

/-- a child entry marked FRESH over an unspent entry -/
def misapplied (child us : Option CCoinsCacheEntry) : Bool :=
  match child, us with
  | some it, some p => it.dirty && it.fresh && !p.coin.isSpent
  | _, _ => false

def batchWrite (l : CacheLayer) (entries : CCoinsMap) (block_hash : Uint256) :
    Except Fault CacheLayer :=
  if ∃ o ∈ entries.dom, misapplied (entries.get o) (l.cacheCoins.get o) = true then
    .error (.logicError "FRESH flag misapplied to coin that exists in parent cache")
  else .ok
    { l with
      m_block_hash := block_hash
      cacheCoins := FMap.build (entries.dom ∪ l.cacheCoins.dom) fun o =>
        merge (entries.get o) (l.cacheCoins.get o) }

/-- an entry after `Sync`: spent ones are erased, the others lose their flags -/
def synced (entry : Option CCoinsCacheEntry) : Option CCoinsCacheEntry :=
  match entry with
  | none => none
  | some e =>
    if (e.dirty || e.fresh) && e.coin.isSpent then none else some ⟨e.coin, false, false⟩

end CacheLayer

/-! ## views -/

inductive CCoinsView where
  | db (d : CCoinsViewDB)
  | cache (l : CacheLayer) (base : CCoinsView)

namespace CCoinsView

def entryCoin (e : CCoinsCacheEntry) : Option Coin := if e.coin.isSpent then none else some e.coin

def peekCoin : CCoinsView → COutPoint → Option Coin
  | .db d, o => d.coins.get o
  | .cache l base, o =>
    match l.cacheCoins.get o with
    | some e => entryCoin e
    | none => base.peekCoin o

/-- `GetCoin` returns what `PeekCoin` returns and leaves this view behind -/
def fetch : CCoinsView → COutPoint → CCoinsView
  | .db d, _ => .db d
  | .cache l base, o =>
    .cache (l.filled o (base.peekCoin o))
      (if l.overlay || (l.cacheCoins.get o).isSome then base else base.fetch o)

def getBestBlock : CCoinsView → Uint256
  | .db d => d.bestBlock
  | .cache l base => if l.m_block_hash.isNull then base.getBestBlock else l.m_block_hash

/-- the view after `GetBestBlock`, which remembers the answer in every cache that had to ask -/
def loadBestBlock : CCoinsView → CCoinsView
  | .db d => .db d
  | .cache l base =>
    if l.m_block_hash.isNull then
      .cache { l with m_block_hash := base.getBestBlock } base.loadBestBlock
    else .cache l base

def fetchEffectiveUTXOs : CCoinsView → Utxos
  | .db d => d.coins
  | .cache l base =>
    FMap.build (l.cacheCoins.dom ∪ base.fetchEffectiveUTXOs.dom) fun o =>
      match l.cacheCoins.get o with
      | some e => entryCoin e
      | none => base.fetchEffectiveUTXOs.get o

def batchWrite : CCoinsView → CCoinsMap → Uint256 → Except Fault CCoinsView
  | .db d, entries, block_hash =>
    match d.batchWrite entries block_hash with
    | .error e => .error e
    | .ok d => .ok (.db d)
  | .cache l base, entries, block_hash =>
    match l.batchWrite entries block_hash with
    | .error e => .error e
    | .ok l => .ok (.cache l base)

end CCoinsView

structure CCoinsViewCache extends CacheLayer where
  base : CCoinsView

namespace CCoinsViewCache

section
variable (c : CCoinsViewCache)

def toView : CCoinsView := .cache c.toCacheLayer c.base

def new (base : CCoinsView) : CCoinsViewCache := ⟨CacheLayer.empty false, base⟩

section
variable (o : COutPoint)

def fetchCoin : CCoinsViewCache where
  toCacheLayer := c.filled o (c.base.peekCoin o)
  base := if c.overlay || (c.cacheCoins.get o).isSome then c.base else c.base.fetch o

def accessCoin : Coin :=
  match (c.fetchCoin o).cacheCoins.get o with
  | some e => e.coin
  | none => Coin.empty

def haveCoin : Bool :=
  match (c.fetchCoin o).cacheCoins.get o with
  | some e => !e.coin.isSpent
  | none => false

def getBestBlock : Uint256 := c.toView.getBestBlock

def setBestBlock (h : Uint256) : CCoinsViewCache := { c with m_block_hash := h }

def addCoin (coin : Coin) (possible_overwrite : Bool) : Except Fault CCoinsViewCache :=
  if coin.isSpent then .error (.assertion "!coin.IsSpent()")
  else if isUnspendable coin.out.scriptPubKey then .ok c
  else
    let it := (c.cacheCoins.get o).getD CCoinsCacheEntry.new
    if !possible_overwrite && !it.coin.isSpent then
      .error (.logicError
        "Attempted to overwrite an unspent coin (when possible_overwrite is false)")
    else
      -- spentness that was not flushed yet must not be forgotten: no FRESH over a DIRTY entry
      let fresh := !possible_overwrite && !it.dirty
      .ok { c with cacheCoins := c.cacheCoins.insert o ⟨coin, true, it.fresh || fresh⟩ }

/-- an entry that exists is left as it is -/
def emplaceCoinInternalDANGER (coin : Coin) : CCoinsViewCache :=
  match c.cacheCoins.get o with
  | some _ => c
  | none => { c with cacheCoins := c.cacheCoins.insert o ⟨coin, true, false⟩ }

def spendCoin : Option Coin × CCoinsViewCache :=
  let c := c.fetchCoin o
  match c.cacheCoins.get o with
  | none => (none, c)
  | some it =>
    (some it.coin,
      { c with cacheCoins :=
          if it.fresh then c.cacheCoins.erase o
          else c.cacheCoins.insert o ⟨Coin.empty, true, false⟩ })

def uncache : CCoinsViewCache :=
  match c.cacheCoins.get o with
  | none => c
  | some it => if it.dirty then c else { c with cacheCoins := c.cacheCoins.erase o }

end

def flush : Except Fault CCoinsViewCache :=
  match c.base.batchWrite c.cacheCoins c.m_block_hash with
  | .error e => .error e
  | .ok base => .ok { c with base := base, cacheCoins := FMap.empty }

def sync : Except Fault CCoinsViewCache :=
  match c.base.batchWrite c.cacheCoins c.m_block_hash with
  | .error e => .error e
  | .ok base =>
    .ok { c with
      base := base
      cacheCoins := FMap.build c.cacheCoins.dom fun o => CacheLayer.synced (c.cacheCoins.get o) }

def loadBestBlock : CCoinsViewCache :=
  if c.m_block_hash.isNull then
    { c with m_block_hash := c.base.getBestBlock, base := c.base.loadBestBlock }
  else c

end

end CCoinsViewCache

end ElektronNet
