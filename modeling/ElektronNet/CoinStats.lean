import Mathlib.Algebra.Group.Basic
import Mathlib.Algebra.Group.Int.Defs
import Mathlib.Algebra.Group.TypeTags.Basic
import Mathlib.Data.UInt
import ElektronNet.Coins.Refine

/-!
# The UTXO accumulator and the statistics of a coins view

`kernel/utxo_muhash.h` and the parts of `kernel/coinstats.cpp` that hash a UTXO set.  The MuHash is
taken as given: a commutative group `G`, the element of a coin (`MuHash.elem`) and the final
hash of a group element.

* `UTXOMuHashState`    the running product and the 64-bit number of coins in it
* `ofSet M m`          the state that commits to exactly the set `m`
* `rebuild`            one pass over a set, adding each coin; it gives `ofSet` (`rebuild_eq_ofSet`)
* `computeUTXOStats`   `ComputeUTXOStats` for the two hash types

An added coin that is new and a removed coin that is present keep a state on its set
(`ofSet_insert`, `ofSet_erase`); the counter needs no bound because it wraps like the size does.
-/

namespace ElektronNet

/-- a MuHash with values in the group `G` -/
structure MuHash (G : Type) where
  /-- the element of a coin: its `TxOutSer` serialisation, hashed into the group -/
  elem : COutPoint → Coin → G
  finalize : G → Uint256
  /-- `HashWriter` over the `TxOutSer` serialisations of a list of coins -/
  hashWriter : List CoinEntry → Uint256

structure UTXOMuHashState (G : Type) where
  m_muhash : G
  m_coin_count : UInt64

namespace UTXOMuHashState

section
variable {G : Type} [CommGroup G] (M : MuHash G)

def empty : UTXOMuHashState G := ⟨1, 0⟩

def addCoin (s : UTXOMuHashState G) (o : COutPoint) (coin : Coin) : UTXOMuHashState G :=
  ⟨s.m_muhash * M.elem o coin, s.m_coin_count + 1⟩

/-- the counter is not stopped at zero: `Assume(m_coin_count > 0)` is not checked in a release -/
def removeCoin (s : UTXOMuHashState G) (o : COutPoint) (coin : Coin) : UTXOMuHashState G :=
  ⟨s.m_muhash / M.elem o coin, s.m_coin_count - 1⟩

def getHash (s : UTXOMuHashState G) : Uint256 := M.finalize s.m_muhash

def rebuild (m : Utxos) : UTXOMuHashState G :=
  m.toList.foldl (fun s e => s.addCoin M e.1 e.2) empty

def ofSet (m : Utxos) : UTXOMuHashState G :=
  ⟨m.prod M.elem, UInt64.ofNat m.card⟩

theorem ofSet_insert {m : Utxos} {o : COutPoint} (h : m.get o = none) (coin : Coin) :
    ofSet M (m.insert o coin) = (ofSet M m).addCoin M o coin := by
  rw [ofSet, FMap.prod_insert _ h, FMap.card_insert h, UInt64.ofNat_add, mul_comm]
  rfl

theorem removeCoin_addCoin (s : UTXOMuHashState G) (o : COutPoint) (coin : Coin) :
    (s.addCoin M o coin).removeCoin M o coin = s := by
  simp only [addCoin, removeCoin, mul_div_cancel_right, UInt64.add_sub_cancel]

theorem ofSet_erase {m : Utxos} {o : COutPoint} {coin : Coin} (h : m.get o = some coin) :
    ofSet M (m.erase o) = (ofSet M m).removeCoin M o coin := by
  have hi := ofSet_insert M (FMap.erase_get_self o m) coin
  rw [FMap.insert_erase h] at hi
  rw [hi, removeCoin_addCoin]

theorem foldl_addCoin (l : List CoinEntry) (s : UTXOMuHashState G) :
    l.foldl (fun s e => s.addCoin M e.1 e.2) s =
      ⟨s.m_muhash * (l.map fun e => M.elem e.1 e.2).prod,
        s.m_coin_count + UInt64.ofNat l.length⟩ := by
  induction l generalizing s with
  | nil => simp
  | cons e l ih =>
    rw [List.foldl_cons, ih, List.map_cons, List.prod_cons, List.length_cons, UInt64.ofNat_add,
      ← mul_assoc, UInt64.add_comm (UInt64.ofNat l.length), ← UInt64.add_assoc]
    rfl

theorem rebuild_eq_ofSet (m : Utxos) : rebuild M m = ofSet M m := by
  rw [rebuild, foldl_addCoin, FMap.prod_toList, FMap.length_toList, ofSet]
  simp [empty]

end

end UTXOMuHashState

/-! ## statistics of a view -/

inductive CoinStatsHashType where
  | HASH_SERIALIZED
  | MUHASH
deriving DecidableEq

/-- the members of `CCoinsStats` that are read -/
structure CCoinsStats where
  hashSerialized : Uint256
  coins_count : UInt64
deriving DecidableEq

section
variable {G : Type} [CommGroup G] (M : MuHash G)

def hashUTXOs (hash_type : CoinStatsHashType) (m : Utxos) : Uint256 :=
  match hash_type with
  | .HASH_SERIALIZED => M.hashWriter m.toList
  | .MUHASH => (UTXOMuHashState.rebuild M m).getHash M

/-- `known h`: the block index has an entry for the hash `h`.  The walk of `ForEachUnspent`
groups the outputs of a transaction by index, so both hashes see the outpoints in their order. -/
def computeUTXOStats (hash_type : CoinStatsHashType) (view : CCoinsView) (known : Uint256 → Bool) :
    Option CCoinsStats :=
  if known view.getBestBlock then
    some ⟨hashUTXOs M hash_type view.fetchEffectiveUTXOs,
      UInt64.ofNat view.fetchEffectiveUTXOs.toList.length⟩
  else none

end

/-- a MuHash in the integers, for closed statements -/
def sampleMuHash : MuHash (Multiplicative ℤ) where
  elem o coin := Multiplicative.ofAdd ((o.n : ℤ) + coin.nHeight + 1)
  finalize g := Uint256.ofByte (UInt8.ofNat g.toAdd.natAbs)
  hashWriter l := Uint256.ofByte (UInt8.ofNat l.length)

end ElektronNet
