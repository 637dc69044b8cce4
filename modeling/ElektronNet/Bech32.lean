import ElektronNet.ConsensusParams
import ElektronNet.Lib.Regroup
import ElektronNet.Coins.View

/-!
# Addresses of witness programs

`bech32.cpp` and the part of `key_io.cpp` that makes the address of a witness program.

* `polymod`             the remainder that both encodings work with, over any list of generators
* `createChecksum`      six groups of five bits that make the remainder what it should be
* `encodeDestination`   the address of a destination, for each network
-/

namespace ElektronNet

/-! ## the remainder -/

def polymodRound (GEN : List Nat) (chk v : Nat) : Nat :=
  GEN.zipIdx.foldl (fun c g => if ((chk >>> 25) >>> g.2) &&& 1 = 1 then c ^^^ g.1 else c)
    (((chk &&& 0x1ffffff) <<< 5) ^^^ v)

def polymod (GEN : List Nat) (values : List Nat) : Nat := values.foldl (polymodRound GEN) 1

/-! ## the encoder -/

namespace Bech32

inductive Encoding where
  | BECH32
  | BECH32M
deriving DecidableEq

def encodingConstant : Encoding → Nat
  | .BECH32 => 1
  | .BECH32M => 0x2bc830a3

def CHARSET : List Char := "qpzry9x8gf2tvdw0s3jn54khce6mua7l".toList

def charOf (d : Nat) : Char := CHARSET.getD d ' '

def GENERATORS : List Nat := [0x3b6a57b2, 0x26508e6d, 0x1ea119fa, 0x3d4233dd, 0x2a1462b3]

def polyMod (v : List Nat) : Nat := polymod GENERATORS v

def preparePolynomialCoefficients (hrp : List Char) (values : List Nat) : List Nat :=
  hrp.map (fun c => c.toNat >>> 5) ++ 0 :: hrp.map (fun c => c.toNat &&& 0x1f) ++ values

def CHECKSUM_SIZE : Nat := 6

def createChecksum (encoding : Encoding) (hrp : List Char) (values : List Nat) : List Nat :=
  let enc := preparePolynomialCoefficients hrp values ++ List.replicate CHECKSUM_SIZE 0
  let mod := polyMod enc ^^^ encodingConstant encoding
  (List.range CHECKSUM_SIZE).map fun i => (mod >>> (5 * (5 - i))) &&& 31

def encode (encoding : Encoding) (hrp : List Char) (values : List Nat) : Except Fault (List Char) :=
  if hrp.any fun c => 'A' ≤ c && c ≤ 'Z' then .error (.assertion "c < 'A' || c > 'Z'")
  else .ok (hrp ++ '1' :: values.map charOf ++ (createChecksum encoding hrp values).map charOf)

theorem createChecksum_lt {encoding : Encoding} {hrp : List Char} {values : List Nat} :
    ∀ d ∈ createChecksum encoding hrp values, d < 2 ^ 5 := by
  intro d hd
  obtain ⟨i, -, rfl⟩ := List.mem_map.mp hd
  exact Regroup.and_mask_lt _ 5

end Bech32

/-! ## destinations -/

/-- the witness programs that a payout usually goes to -/
inductive WitnessDestination where
  | WitnessV0KeyHash (id : Bytes) (size : id.length = 20)
  | WitnessV0ScriptHash (id : Bytes) (size : id.length = 32)
  | WitnessV1Taproot (tap : Bytes) (size : tap.length = 32)

namespace WitnessDestination

def version : WitnessDestination → Nat
  | .WitnessV0KeyHash _ _ => 0
  | .WitnessV0ScriptHash _ _ => 0
  | .WitnessV1Taproot _ _ => 1

def program : WitnessDestination → Bytes
  | .WitnessV0KeyHash id _ => id
  | .WitnessV0ScriptHash id _ => id
  | .WitnessV1Taproot tap _ => tap

def scriptForDestination : WitnessDestination → Bytes
  | .WitnessV0KeyHash id _ => OP_0 :: pushData id
  | .WitnessV0ScriptHash id _ => OP_0 :: pushData id
  | .WitnessV1Taproot tap _ => OP_1 :: pushData tap

def encoding : WitnessDestination → Bech32.Encoding
  | .WitnessV0KeyHash _ _ => .BECH32
  | .WitnessV0ScriptHash _ _ => .BECH32
  | .WitnessV1Taproot _ _ => .BECH32M

/-- the version and the program in groups of five bits -/
def values (dest : WitnessDestination) : List Nat :=
  dest.version :: Regroup.regroup 8 5 true (dest.program.map UInt8.toNat)

end WitnessDestination

def ChainType.bech32_hrp : ChainType → List Char
  | .MAIN => ['b', 'e']
  | .TESTNET => ['t', 'b']
  | .SIGNET => ['t', 'b']
  | .REGTEST => ['b', 'c', 'r', 't']
  | .TESTNET4 => ['t', 'b']

def encodeDestination (chain : ChainType) (dest : WitnessDestination) : Except Fault (List Char) :=
  Bech32.encode dest.encoding chain.bech32_hrp dest.values

end ElektronNet
