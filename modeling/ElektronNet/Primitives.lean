import Mathlib.Data.Prod.Lex
import Mathlib.Data.List.Lex

/-!
# Amounts, hashes, transactions and blocks

The data types of `uint256.h`, `consensus/amount.h`, `primitives/transaction.h` and
`primitives/block.h`, field by field.

* `Uint256`        32 bytes, compared byte by byte from the first (`memcmp`)
* `COutPoint`      ordered by the transaction hash, then by the index
* `CTransaction.isCoinBase`, `COutPoint.isNull`, `CTxOut.isNull`, `moneyRange`

A `CAmount` is an integer: every sum of the code is checked against `MAX_MONEY` as it grows.
The members that only cache a result (`fChecked`, `m_has_witness`, the stored hashes) are left
out; the hashes themselves are parameters of the modules that need them.
-/

namespace ElektronNet

abbrev Bytes := List UInt8

/-! ## amounts -/

abbrev CAmount := Int

def COIN : CAmount := 100000000
def MAX_MONEY : CAmount := 21000000 * COIN

def moneyRange (nValue : CAmount) : Bool := decide (0 ≤ nValue) && decide (nValue ≤ MAX_MONEY)

theorem moneyRange_iff (v : CAmount) : moneyRange v = true ↔ 0 ≤ v ∧ v ≤ MAX_MONEY := by
  simp [moneyRange]

/-! ## 256-bit hashes -/

/-- a `base_blob<256>`: exactly 32 bytes -/
structure Uint256 where
  data : Bytes
  size_eq : data.length = 32
deriving DecidableEq

namespace Uint256

def ofByte (v : UInt8) : Uint256 := ⟨v :: List.replicate 31 0, by simp⟩

def zero : Uint256 := ofByte 0

instance : Inhabited Uint256 := ⟨zero⟩

def isNull (h : Uint256) : Bool := h.data.all (· == 0)

theorem data_injective : Function.Injective Uint256.data := by
  rintro ⟨a, ha⟩ ⟨b, hb⟩ (rfl : a = b)
  rfl

def hexDigit (n : Nat) : Char := Char.ofNat (if n < 10 then 48 + n else 87 + n)

def getHex (h : Uint256) : List Char :=
  h.data.reverse.flatMap fun b => [hexDigit (b.toNat / 16), hexDigit (b.toNat % 16)]

def toString (h : Uint256) : String := String.ofList h.getHex

def hexValue (c : Char) : Option Nat :=
  if '0' ≤ c ∧ c ≤ '9' then some (c.toNat - 48)
  else if 'a' ≤ c ∧ c ≤ 'f' then some (c.toNat - 87)
  else if 'A' ≤ c ∧ c ≤ 'F' then some (c.toNat - 55)
  else none

def hexBytes : List Char → Option Bytes
  | [] => some []
  | [_] => none
  | a :: b :: cs =>
    match hexValue a, hexValue b, hexBytes cs with
    | some x, some y, some bytes => some (UInt8.ofNat (16 * x + y) :: bytes)
    | _, _, _ => none

def fromHex (str : List Char) : Option Uint256 :=
  match hexBytes str with
  | none => none
  | some bytes => if h : bytes.reverse.length = 32 then some ⟨bytes.reverse, h⟩ else none

/-- the bytes as numbers, the form in which they are compared -/
def key (h : Uint256) : List Nat := h.data.map UInt8.toNat

theorem key_injective : Function.Injective key := by
  intro a b h
  have hb : Function.Injective UInt8.toNat := fun _ _ e => UInt8.toNat_inj.mp e
  exact data_injective (List.map_injective_iff.mpr hb h)

instance : LinearOrder Uint256 := LinearOrder.lift' key key_injective

end Uint256

/-! ## transactions -/

abbrev CScript := Bytes

structure COutPoint where
  hash : Uint256
  n : Nat
deriving DecidableEq

namespace COutPoint

def NULL_INDEX : Nat := 4294967295

def null : COutPoint := ⟨Uint256.zero, NULL_INDEX⟩

def isNull (o : COutPoint) : Bool := o.hash.isNull && o.n == NULL_INDEX

def toPair (o : COutPoint) : Uint256 ×ₗ Nat := toLex (o.hash, o.n)

theorem toPair_injective : Function.Injective toPair := by
  rintro ⟨a, i⟩ ⟨b, j⟩ h
  obtain ⟨rfl, rfl⟩ := Prod.mk.inj (toLex.injective h)
  rfl

instance : LinearOrder COutPoint := LinearOrder.lift' toPair toPair_injective

end COutPoint

structure CTxIn where
  prevout : COutPoint
  scriptSig : CScript
  nSequence : Nat
  scriptWitness : List Bytes
deriving DecidableEq

structure CTxOut where
  nValue : CAmount
  scriptPubKey : CScript
deriving DecidableEq

namespace CTxOut

/-- what the default constructor and `SetNull` leave -/
def null : CTxOut := ⟨-1, []⟩

def isNull (out : CTxOut) : Bool := out.nValue == -1

end CTxOut

structure CTransaction where
  vin : List CTxIn
  vout : List CTxOut
  version : Nat
  nLockTime : Nat
deriving DecidableEq

namespace CTransaction

/-- of a default `CMutableTransaction` -/
def CURRENT_VERSION : Nat := 2

def isCoinBase (tx : CTransaction) : Bool :=
  match tx.vin with
  | [txin] => txin.prevout.isNull
  | _ => false

def hasWitness (tx : CTransaction) : Bool := tx.vin.any fun txin => !txin.scriptWitness.isEmpty

end CTransaction

/-! ## blocks -/

structure CBlockHeader where
  nVersion : Int
  hashPrevBlock : Uint256
  hashMerkleRoot : Uint256
  nTime : Nat
  nBits : Nat
  nNonce : Nat
deriving DecidableEq

structure CBlock extends CBlockHeader where
  vtx : List CTransaction
deriving DecidableEq

/-! ## results -/

/-- the reason and the debug message of a validation state after `Invalid` -/
structure Invalid where
  reason : String
  debug : String
deriving DecidableEq

/-- the hash functions of the code, as far as they are taken as given -/
structure Hashes where
  /-- `CTransaction::GetHash`, the txid -/
  txid : CTransaction → Uint256
  /-- `CBlockHeader::GetHash` -/
  blockHash : CBlockHeader → Uint256
  blockMerkleRoot : CBlock → Uint256
  /-- the hash that the witness commitment of a block carries: `BlockWitnessMerkleRoot`, hashed
  once more with the 32 zero bytes of the reserved value -/
  witnessCommitment : CBlock → Uint256

/-- hash functions that only read a counter, small enough to evaluate closed statements with -/
def sampleHashes : Hashes where
  txid tx := Uint256.ofByte (UInt8.ofNat (tx.vin.length * tx.nLockTime))
  blockHash h := Uint256.ofByte (UInt8.ofNat h.nNonce)
  blockMerkleRoot b := Uint256.ofByte (UInt8.ofNat b.vtx.length)
  witnessCommitment b := Uint256.ofByte (UInt8.ofNat b.vtx.length)

end ElektronNet
