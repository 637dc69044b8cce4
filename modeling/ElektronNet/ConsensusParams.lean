import ElektronNet.Primitives

/-!
# Consensus parameters

The members of `Consensus::Params` that the modelled code reads, with the values of
the networks, and the two height gates of `validation.h`.
-/

namespace ElektronNet

structure ConsensusParams where
  nSubsidyHalvingInterval : Nat
  /-- `-1`: never active -/
  MuhashAttestationActivationHeight : Int := -1
  IntraBlockAttestationFixActivationHeight : Int := -1
  MandatoryPruneDepth : Nat := 197280
deriving DecidableEq

def mainParams : ConsensusParams where
  nSubsidyHalvingInterval := 2102400
  MuhashAttestationActivationHeight := 137000
  IntraBlockAttestationFixActivationHeight := 170000
  MandatoryPruneDepth := 197280

def regTestParams : ConsensusParams where
  nSubsidyHalvingInterval := 150
  MuhashAttestationActivationHeight := 50
  IntraBlockAttestationFixActivationHeight := 110
  MandatoryPruneDepth := 100

def testNetParams : ConsensusParams where
  nSubsidyHalvingInterval := 2102400
  MuhashAttestationActivationHeight := 250
  IntraBlockAttestationFixActivationHeight := 260
  MandatoryPruneDepth := 300

def testNet4Params : ConsensusParams where
  nSubsidyHalvingInterval := 2102400
  MuhashAttestationActivationHeight := 250
  IntraBlockAttestationFixActivationHeight := 260
  MandatoryPruneDepth := 300

/-- the attestation heights and the depth are the defaults -/
def sigNetParams : ConsensusParams where
  nSubsidyHalvingInterval := 2102400

inductive ChainType where
  | MAIN
  | TESTNET
  | SIGNET
  | REGTEST
  | TESTNET4
deriving DecidableEq

def ChainType.consensus : ChainType → ConsensusParams
  | .MAIN => mainParams
  | .TESTNET => testNetParams
  | .SIGNET => sigNetParams
  | .REGTEST => regTestParams
  | .TESTNET4 => testNet4Params

def ChainType.pruneAfterHeight : ChainType → Nat
  | .MAIN => 197280
  | .TESTNET => 300
  | .SIGNET => 1000
  | .REGTEST => 100
  | .TESTNET4 => 300

def isMuhashAttestationActive (nHeight : Nat) (params : ConsensusParams) : Bool :=
  decide (params.MuhashAttestationActivationHeight ≥ 0) &&
    decide ((nHeight : Int) ≥ params.MuhashAttestationActivationHeight)

def isIntraBlockAttestationFixActive (nHeight : Nat) (params : ConsensusParams) : Bool :=
  decide (params.IntraBlockAttestationFixActivationHeight ≥ 0) &&
    decide ((nHeight : Int) ≥ params.IntraBlockAttestationFixActivationHeight)

end ElektronNet
