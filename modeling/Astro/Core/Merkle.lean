import Astro.Library.PairTree
import Astro.Core.Env

/-!
# merkle.cpp

Every function takes the hash function. `root` and `build_proof` share the
loop that builds the next level; `PairTree` has it with any operation in
place of `hash_pair`.
-/

namespace Astro

open PairTree (pairUp collapse)

structure ProofStep where
  sibling : Hash256
  siblingOnLeft : Bool
  deriving DecidableEq

structure MerkleProof where
  steps : List ProofStep
  deriving DecidableEq

section
variable (sha256 : Bytes → Hash256)

def hashConcat (left right : Bytes) : Hash256 := sha256 (left ++ right)

def hashPair (left right : Hash256) : Hash256 := hashConcat sha256 left.bytes right.bytes

def emptyRoot : Hash256 := sha256 []

/-- One turn of the level loop: `i += 2`, and the last node of an odd level
is its own sibling. -/
def nextLevel (levelHashes : List Hash256) : List Hash256 := pairUp (hashPair sha256) levelHashes

/-- `front()` of the last level; the level loop is entered with a non-empty
list and leaves one element, so the default is never taken. -/
def root (leaves : List Hash256) : Hash256 :=
  match leaves with
  | [] => emptyRoot sha256
  | [only] => hashPair sha256 only only
  | leaves => (collapse (hashPair sha256) leaves).headD Hash256.zero

/-- The index that `build_proof` reads the sibling from. -/
def siblingIndex (size proofIndex : Nat) : Nat :=
  let lastIndex := size - 1
  if proofIndex % 2 = 0 then
    if proofIndex + 1 ≤ lastIndex then proofIndex + 1 else proofIndex
  else proofIndex - 1

/-- The loop of `build_proof`; `none` is an access past the end of a level. -/
def buildLoop (levelHashes : List Hash256) (proofIndex : Nat) : Option (List ProofStep) :=
  if 1 < levelHashes.length then do
    let sibling ← levelHashes[siblingIndex levelHashes.length proofIndex]?
    let steps ← buildLoop (nextLevel sha256 levelHashes) (proofIndex / 2)
    return ⟨sibling, proofIndex % 2 = 1⟩ :: steps
  else some []
termination_by levelHashes.length
decreasing_by rw [nextLevel, PairTree.length_pairUp]; omega

/-- `none` is a failed assertion on the index, or an access past the end. -/
def buildProof (leaves : List Hash256) (index : Nat) : Option MerkleProof :=
  if leaves.isEmpty then some ⟨[]⟩
  else if index < leaves.length then (buildLoop sha256 leaves index).map MerkleProof.mk
  else none

/-- The node that verification starts from: the given bytes when they are
32, else their hash. -/
def startHash (leafHash : Bytes) : Hash256 :=
  if h : leafHash.length = 32 then ⟨leafHash, h⟩ else sha256 leafHash

def verifyLoop (currentHash : Hash256) : List ProofStep → Hash256
  | [] => currentHash
  | step :: steps =>
    if step.siblingOnLeft then verifyLoop (hashPair sha256 step.sibling currentHash) steps
    else verifyLoop (hashPair sha256 currentHash step.sibling) steps

def verifyProof (leafHash : Bytes) (proof : MerkleProof) (expectedRoot : Hash256) : Bool :=
  let currentHash := startHash sha256 leafHash
  if proof.steps.isEmpty then hashPair sha256 currentHash currentHash = expectedRoot
  else verifyLoop sha256 currentHash proof.steps = expectedRoot

end

end Astro
