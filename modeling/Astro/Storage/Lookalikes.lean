import Astro.Core.Inclusion
import Astro.Core.MerkleTrees
import Astro.Storage.Sessions

/-!
# What the tip hash does not commit to

No hash covers a signature, and the Merkle loop repeats the last node of a
level. So a log can be changed, checksums and all, into one with other
signatures that verify, or with transactions repeated, and is restored to a
chain with the same headers and the same tip hash.
-/

namespace Astro

open GrownList PairTree

variable {E : Env} {config : ChainConfig}

/-- A block with the same header, whose transactions are signed anew, or are
repeated the way that the Merkle loop repeats them. -/
structure Lookalike (E : Env) (block' block : Block) : Prop where
  header : block'.header = block.header
  transactions : block'.signedPart = block.signedPart ∨
    expand block'.signedPart = expand block.signedPart ∧
      ∀ tx ∈ block'.transactions, tx.fromPubPem ≠ []
  verified : ∀ tx ∈ block'.transactions, tx.fromPubPem ≠ [] → tx.verify E = .ok true

theorem root_eq_of_expand {leaves leaves' : List Hash256} (sha256 : Bytes → Hash256)
    (h : expand leaves' = expand leaves) : root sha256 leaves' = root sha256 leaves := by
  by_cases hne : leaves = []
  · rw [expand_eq_nil.mp (h.trans (expand_eq_nil.mpr hne)), hne]
  · have hne' : leaves' ≠ [] := fun hnil => hne (expand_eq_nil.mp (h ▸ expand_eq_nil.mpr hnil))
    exact root_eq_of_treeOf hne' hne (treeOf_eq_of_expand_eq hne' hne h)

theorem fromPubPem_eq {tx tx' : Transaction} (h : tx.unsigned = tx'.unsigned) :
    tx.fromPubPem = tx'.fromPubPem := by
  have hsender := congrArg Transaction.fromPubPem h
  exact hsender

/-- Blocks with the same repetitions have the same senders. -/
theorem exists_sender {block block' : Block}
    (h : expand block.signedPart = expand block'.signedPart) (htx : tx ∈ block.transactions) :
    ∃ tx' ∈ block'.transactions, tx'.fromPubPem = tx.fromPubPem := by
  have hmem : tx.unsigned ∈ expand block.signedPart :=
    mem_expand_of_mem (List.mem_map_of_mem htx)
  rw [h] at hmem
  obtain ⟨tx', htx', hunsigned⟩ := List.mem_map.mp (mem_of_mem_expand hmem)
  exact ⟨tx', htx', fromPubPem_eq hunsigned⟩

namespace Lookalike

variable {block block' : Block}

theorem expand_eq (h : Lookalike E block' block) :
    expand block'.signedPart = expand block.signedPart := by
  rcases h.transactions with heq | ⟨heq, -⟩
  · rw [heq]
  · exact heq

theorem merkle (h : Lookalike E block' block) (sha256 : Bytes → Hash256) :
    computeMerkleRoot sha256 block'.transactions = computeMerkleRoot sha256 block.transactions := by
  have hmap (b : Block) : b.transactions.map (·.txHash sha256) =
      b.signedPart.map (·.txHash sha256) := by
    simp [Block.signedPart, Transaction.txHash_unsigned]
  rw [computeMerkleRoot, computeMerkleRoot, hmap, hmap]
  refine root_eq_of_expand sha256 ?_
  rw [expand_map, expand_map, h.expand_eq]

/-- The coinbase of a first block is not repeated. -/
theorem coinbaseFirst (h : Lookalike E block' block) (hfirst : CoinbaseFirst block.transactions) :
    CoinbaseFirst block'.transactions := by
  rcases h.transactions with heq | ⟨-, hsenders⟩
  · intro i tx' htx'
    have hsigned := congrArg (·[i]?) heq
    simp only [Block.signedPart, List.getElem?_map, htx', Option.map_some] at hsigned
    obtain ⟨tx, htx, hunsigned⟩ := Option.map_eq_some_iff.mp hsigned.symm
    rw [← fromPubPem_eq hunsigned]
    exact hfirst i tx htx
  · -- A coinbase would have to be in the other block, where everybody has a sender.
    have hnone : block.transactions = [] := by
      by_contra hne
      obtain ⟨first, rest, htransactions⟩ := List.exists_cons_of_ne_nil hne
      have hcoinbase : first.fromPubPem = [] :=
        (hfirst 0 first (by simp [htransactions])).mpr rfl
      have hmem : first ∈ block.transactions := by simp [htransactions]
      obtain ⟨tx', htx', hsender⟩ := exists_sender h.expand_eq.symm hmem
      exact hsenders tx' htx' (hsender.trans hcoinbase)
    intro i tx' htx'
    obtain ⟨tx, htx, -⟩ := exists_sender h.expand_eq (List.mem_of_getElem? htx')
    simp [hnone] at htx

end Lookalike

-- ---------------------------------------------------------------------------
-- Whole chains
-- ---------------------------------------------------------------------------

/-- The same headers, with transactions that look alike. -/
def Alike (E : Env) : List Block → List Block → Prop := List.Forall₂ (Lookalike E)

theorem Alike.headers (h : Alike E blocks' blocks) :
    blocks'.map Block.header = blocks.map Block.header := by
  induction h with
  | nil => rfl
  | cons hblock _ ih => rw [List.map_cons, List.map_cons, hblock.header, ih]

theorem Lookalike.placed {block block' : Block} {parent parent' : Option Block}
    (h : Lookalike E block' block) (hplaced : Placed E.sha256 parent block)
    (hparent : parent'.map Block.header = parent.map Block.header) :
    Placed E.sha256 parent' block' := by
  cases parent with
  | none =>
    obtain rfl := Option.map_eq_none_iff.mp hparent
    exact ⟨h.header ▸ hplaced.1, h.coinbaseFirst hplaced.2⟩
  | some parent =>
    obtain ⟨parent', rfl, hsame⟩ := Option.map_eq_some_iff.mp hparent
    obtain ⟨hlink, htime, hsenders⟩ := hplaced
    refine ⟨?_, ?_, fun tx' htx' => ?_⟩
    · rw [h.header, hsame, hlink]
    · rwa [h.header, hsame]
    · obtain ⟨tx, htx, hsender⟩ := exists_sender h.expand_eq htx'
      exact hsender ▸ hsenders tx htx

end Astro
