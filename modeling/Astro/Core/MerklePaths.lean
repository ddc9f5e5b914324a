import Astro.Core.MerkleLaws

/-!
# Proofs at their position

`build_proof` walks up the tree over the leaves and combines only pairs that
`root` combines too. A proof that turns the same way at every step is
accepted, as long as nothing collides, only with the same leaf and the same
siblings.
-/

namespace Astro

open PairTree

variable {sha256 : Bytes → Hash256} {leaves levelHashes : List Hash256} {proof built : MerkleProof}

def ProofStep.toPair (step : ProofStep) : Hash256 × Bool := (step.sibling, step.siblingOnLeft)

theorem buildLoop_pairs (hx : levelHashes[i]? = some x)
    (h : buildLoop sha256 levelHashes i = some steps) :
    climbPairs (hashPair sha256) x (steps.map ProofStep.toPair) ⊆
      queries (hashPair sha256) levelHashes := by
  fun_induction buildLoop sha256 levelHashes i generalizing x steps with
  | case1 levelHashes i hl ih =>
    obtain ⟨hi, -⟩ := List.getElem?_eq_some_iff.mp hx
    have hs := List.getElem?_eq_getElem (siblingIndex_lt hi)
    simp only [hs, Option.bind_eq_bind, Option.bind_some, Option.bind_eq_some_iff,
      Option.pure_def, Option.some.injEq] at h
    obtain ⟨steps, hsteps, rfl⟩ := h
    have hup := ih (getElem?_nextLevel hx hs) hsteps
    have hfirst := List.mem_of_getElem? (getElem?_pairs_sibling hx hs)
    rw [queries, if_pos hl]
    simp only [List.map_cons, ProofStep.toPair, climbPairs, decide_eq_true_eq]
    refine List.cons_subset.mpr ⟨List.mem_append_left _ hfirst, ?_⟩
    exact List.subset_append_of_subset_right _ hup
  | case2 => cases h; simp [climbPairs]

theorem pathSteps_eq (x : Hash256) (h : proof.steps ≠ []) :
    pathSteps x proof = proof.steps.map ProofStep.toPair := by
  rw [pathSteps, if_neg (by simpa using h)]
  rfl

/-- What `build_proof` makes hashes only what `root` hashes. -/
theorem climbPairs_built (h : index < leaves.length)
    (hbuilt : buildProof sha256 leaves index = some built) :
    (climbPairs (hashPair sha256) leaves[index] (pathSteps leaves[index] built)).map pairBytes ⊆
      rootHashed sha256 leaves := by
  have hne : leaves ≠ [] := List.ne_nil_of_length_pos (Nat.zero_lt_of_lt h)
  have hsteps := (buildProof_eq_some h).mp hbuilt
  have hqueries := buildLoop_pairs (List.getElem?_eq_getElem h) hsteps
  rw [rootHashed_eq hne]
  refine List.map_subset _ ?_
  by_cases hl : 1 < leaves.length
  · have hsome : built.steps ≠ [] := by simpa using buildLoop_ne_nil hl hsteps
    rw [queries, if_pos hl] at hqueries
    rwa [pathSteps_eq _ hsome, nextLevel]
  · obtain ⟨only, rfl⟩ : ∃ only, leaves = [only] := by
      refine List.length_eq_one_iff.mp ?_
      omega
    rw [buildLoop, if_neg hl] at hsteps
    obtain rfl : index = 0 := by simpa using h
    simp [pathSteps, ← Option.some.inj hsteps, climbPairs, pairs]

theorem pathSteps_flags (x y : Hash256)
    (h : proof.steps.map ProofStep.siblingOnLeft = built.steps.map ProofStep.siblingOnLeft) :
    (pathSteps x proof).map Prod.snd = (pathSteps y built).map Prod.snd := by
  by_cases hp : proof.steps = []
  · have hb : built.steps = [] := List.map_eq_nil_iff.mp (by rw [← h, hp, List.map_nil])
    simp [pathSteps, hp, hb]
  · have hb : built.steps ≠ [] := by
      intro hb
      rw [hb, List.map_nil] at h
      exact hp (List.map_eq_nil_iff.mp h)
    simpa [pathSteps_eq, hp, hb, Function.comp_def, ProofStep.toPair] using h

theorem siblings_of_pathSteps (h : pathSteps x proof = pathSteps x built)
    (hflags : proof.steps.map ProofStep.siblingOnLeft = built.steps.map ProofStep.siblingOnLeft) :
    proof.steps.map ProofStep.sibling = built.steps.map ProofStep.sibling := by
  by_cases hp : proof.steps = []
  · have hb : built.steps = [] := List.map_eq_nil_iff.mp (by rw [← hflags, hp, List.map_nil])
    rw [hp, hb]
  · have hb : built.steps ≠ [] := by
      intro hb
      rw [hb, List.map_nil] at hflags
      exact hp (List.map_eq_nil_iff.mp hflags)
    rw [pathSteps_eq _ hp, pathSteps_eq _ hb] at h
    simpa [Function.comp_def, ProofStep.toPair] using congrArg (List.map Prod.fst) h

theorem steps_eq_of_maps {steps steps' : List ProofStep}
    (hsiblings : steps.map ProofStep.sibling = steps'.map ProofStep.sibling)
    (hflags : steps.map ProofStep.siblingOnLeft = steps'.map ProofStep.siblingOnLeft) :
    steps = steps' := by
  induction steps generalizing steps' with
  | nil => exact (List.map_eq_nil_iff.mp hsiblings.symm).symm
  | cons step steps ih =>
    cases steps' with
    | nil => simp at hsiblings
    | cons step' steps' =>
      obtain ⟨hsibling, htail⟩ := List.cons.inj hsiblings
      obtain ⟨hflag, htail'⟩ := List.cons.inj hflags
      cases step
      cases step'
      cases hsibling
      cases hflag
      rw [ih htail htail']

/-- A proof with the flags of the one that `build_proof` makes at an index is
accepted for the leaf there and with the same siblings, and for nothing else. -/
theorem verifyProof_iff_buildProof (sha256 : Bytes → Hash256) (leaves : List Hash256)
    (index : Nat) (x : Hash256) (proof built : MerkleProof) (h : index < leaves.length)
    (hbuilt : buildProof sha256 leaves index = some built)
    (hflags : proof.steps.map ProofStep.siblingOnLeft = built.steps.map ProofStep.siblingOnLeft)
    (hfree : CollisionFree sha256 (rootHashed sha256 leaves ++ verifyHashed sha256 x.bytes proof)) :
    verifyProof sha256 x.bytes proof (root sha256 leaves) = true ↔
      x = leaves[index] ∧
        proof.steps.map ProofStep.sibling = built.steps.map ProofStep.sibling := by
  have hstart (y : Hash256) : startHash sha256 y.bytes = y := by simp [startHash, y.size_eq]
  constructor
  · intro hverify
    have hbuiltRoot := verifyProof_iff.mp (verifyProof_built h hbuilt)
    rw [verifyProof_iff, hstart] at hverify
    rw [hstart] at hbuiltRoot
    let S := {p | pairBytes p ∈ rootHashed sha256 leaves ++ verifyHashed sha256 x.bytes proof}
    have hinj : S.InjOn fun p => hashPair sha256 p.1 p.2 :=
      fun p hp q hq heq => pairBytes_inj (hfree _ hp _ hq heq)
    have hpath : ∀ p ∈ climbPairs (hashPair sha256) x (pathSteps x proof), p ∈ S := by
      intro p hp
      refine List.mem_append_right _ (List.mem_append_right _ ?_)
      rw [hstart]
      exact List.mem_map_of_mem hp
    have hpath' : ∀ p ∈ climbPairs (hashPair sha256) leaves[index]
        (pathSteps leaves[index] built), p ∈ S := fun p hp =>
      List.mem_append_left _ (climbPairs_built h hbuilt (List.mem_map_of_mem hp))
    obtain ⟨rfl, hsteps⟩ := climb_unique hinj hpath hpath' (pathSteps_flags _ _ hflags)
      (hverify.trans hbuiltRoot.symm)
    exact ⟨rfl, siblings_of_pathSteps hsteps hflags⟩
  · rintro ⟨rfl, hsiblings⟩
    obtain rfl : proof = built := congrArg MerkleProof.mk (steps_eq_of_maps hsiblings hflags)
    exact verifyProof_built h hbuilt

theorem verifyProof_iff_buildProof_three :
    let leaves := [sampleLeaf 1, sampleLeaf 2, sampleLeaf 3]
    let proof := MerkleProof.mk [⟨sampleLeaf 3, false⟩, ⟨sampleLeaf 9, true⟩]
    verifyProof sampleSha256 (sampleLeaf 3).bytes proof (root sampleSha256 leaves) = true ↔
      sampleLeaf 3 = leaves[2] ∧ proof.steps.map ProofStep.sibling =
        [sampleLeaf 3, hashPair sampleSha256 (sampleLeaf 1) (sampleLeaf 2)] :=
  verifyProof_iff_buildProof sampleSha256 [sampleLeaf 1, sampleLeaf 2, sampleLeaf 3] 2
    (sampleLeaf 3) ⟨[⟨sampleLeaf 3, false⟩, ⟨sampleLeaf 9, true⟩]⟩
    ⟨[⟨sampleLeaf 3, false⟩, ⟨hashPair sampleSha256 (sampleLeaf 1) (sampleLeaf 2), true⟩]⟩
    (by decide) (by decide +kernel) (by decide) (by decide +kernel)

end Astro
