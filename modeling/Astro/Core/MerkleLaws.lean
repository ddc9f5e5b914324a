import Astro.Core.Merkle

/-!
# Merkle roots and proofs

A root is the last level of the tree over the leaves (`collapse_eq_root`).
`verify_proof` accepts every proof that `build_proof` makes. What it accepts
in general is a path of hashes that ends in the root: without a collision the
path starts at a node of the tree, on the level that its number of steps says,
and that level is the leaves only for proofs as long as the tree is high.
-/

namespace Astro

open PairTree

variable {sha256 : Bytes → Hash256} {leaves levelHashes : List Hash256}

-- ---------------------------------------------------------------------------
-- Completeness
-- ---------------------------------------------------------------------------

theorem collapse_eq_root (sha256 : Bytes → Hash256) (h : leaves ≠ []) :
    collapse (hashPair sha256) (nextLevel sha256 leaves) = [root sha256 leaves] := by
  match leaves with
  | [] => contradiction
  | [only] => simp [nextLevel, pairUp, collapse, root]
  | a :: b :: rest =>
    have hl : 1 < (a :: b :: rest).length := by simp
    obtain ⟨r, hr⟩ := collapse_eq_singleton (f := hashPair sha256) h
    have hroot : root sha256 (a :: b :: rest) = r := by simp [root, hr]
    rw [collapse, if_pos hl] at hr
    rw [hroot, nextLevel, hr]

theorem siblingIndex_even (h : 2 * j + 1 < size) : siblingIndex size (2 * j) = 2 * j + 1 := by
  have hle : 2 * j + 1 ≤ size - 1 := by omega
  simp [siblingIndex, hle]

theorem siblingIndex_last (h : ¬2 * j + 1 < size) (hj : 2 * j < size) :
    siblingIndex size (2 * j) = 2 * j := by
  have hle : ¬2 * j + 1 ≤ size - 1 := by omega
  simp [siblingIndex, hle]

theorem siblingIndex_odd : siblingIndex size (2 * j + 1) = 2 * j := by
  simp [siblingIndex, Nat.add_mod]

theorem siblingIndex_lt (h : i < size) : siblingIndex size i < size := by
  obtain ⟨j, rfl | rfl⟩ := Nat.even_or_odd' i
  · by_cases hj : 2 * j + 1 < size
    · rwa [siblingIndex_even hj]
    · rwa [siblingIndex_last hj h]
  · rw [siblingIndex_odd]
    omega

/-- A node and its sibling are combined in the order that the flag says. -/
theorem getElem?_pairs_sibling (hx : levelHashes[i]? = some x)
    (hs : levelHashes[siblingIndex levelHashes.length i]? = some s) :
    (pairs levelHashes)[i / 2]? = some (if i % 2 = 1 then (s, x) else (x, s)) := by
  obtain ⟨hi, rfl⟩ := List.getElem?_eq_some_iff.mp hx
  obtain ⟨j, rfl | rfl⟩ := Nat.even_or_odd' i
  · rw [Nat.mul_div_cancel_left j (by decide), getElem?_pairs hi]
    by_cases hj : 2 * j + 1 < levelHashes.length
    · rw [siblingIndex_even hj] at hs
      obtain ⟨_, rfl⟩ := List.getElem?_eq_some_iff.mp hs
      simp [hj]
    · rw [siblingIndex_last hj hi] at hs
      obtain ⟨_, rfl⟩ := List.getElem?_eq_some_iff.mp hs
      simp [hj]
  · rw [siblingIndex_odd] at hs
    obtain ⟨hj, rfl⟩ := List.getElem?_eq_some_iff.mp hs
    have hdiv : (2 * j + 1) / 2 = j := by omega
    rw [hdiv, getElem?_pairs hj]
    simp [hi, Nat.add_mod]

theorem getElem?_nextLevel (hx : levelHashes[i]? = some x)
    (hs : levelHashes[siblingIndex levelHashes.length i]? = some s) :
    (nextLevel sha256 levelHashes)[i / 2]? =
      some (if i % 2 = 1 then hashPair sha256 s x else hashPair sha256 x s) := by
  rw [nextLevel, pairUp_eq_map, List.getElem?_map, getElem?_pairs_sibling hx hs]
  split <;> rfl

/-- The loop of `build_proof` stays inside every level, and its steps lead
from the node to the last level. -/
theorem buildLoop_ok (sha256 : Bytes → Hash256) (hx : levelHashes[i]? = some x) :
    ∃ steps, buildLoop sha256 levelHashes i = some steps ∧
      collapse (hashPair sha256) levelHashes = [verifyLoop sha256 x steps] := by
  fun_induction buildLoop sha256 levelHashes i generalizing x with
  | case1 levelHashes i hl ih =>
    obtain ⟨hi, -⟩ := List.getElem?_eq_some_iff.mp hx
    have hs := List.getElem?_eq_getElem (siblingIndex_lt hi)
    obtain ⟨steps, hsteps, hcollapse⟩ := ih (getElem?_nextLevel hx hs)
    refine ⟨⟨_, _⟩ :: steps, by rw [hs, hsteps]; rfl, ?_⟩
    rw [collapse, if_pos hl]
    refine hcollapse.trans ?_
    by_cases hodd : i % 2 = 1 <;> simp [verifyLoop, hodd]
  | case2 levelHashes i hl =>
    obtain ⟨hi, rfl⟩ := List.getElem?_eq_some_iff.mp hx
    obtain ⟨only, rfl⟩ : ∃ only, levelHashes = [only] := by
      refine List.length_eq_one_iff.mp ?_
      omega
    obtain rfl : i = 0 := by simpa using hi
    exact ⟨[], rfl, by simp [collapse, verifyLoop]⟩

theorem buildLoop_ne_nil (hl : 1 < levelHashes.length)
    (h : buildLoop sha256 levelHashes i = some steps) : steps.isEmpty = false := by
  rw [buildLoop, if_pos hl] at h
  simp only [Option.bind_eq_bind, Option.bind_eq_some_iff, Option.pure_def,
    Option.some.injEq] at h
  obtain ⟨_, -, _, -, rfl⟩ := h
  rfl

theorem buildProof_eq_some (h : index < leaves.length) :
    buildProof sha256 leaves index = some proof ↔
      buildLoop sha256 leaves index = some proof.steps := by
  have hne : leaves ≠ [] := List.ne_nil_of_length_pos (Nat.zero_lt_of_lt h)
  simp only [buildProof, List.isEmpty_iff, hne, h, if_true, if_false, Option.map_eq_some_iff]
  constructor
  · rintro ⟨steps, hsteps, rfl⟩
    exact hsteps
  · intro hsteps
    exact ⟨_, hsteps, rfl⟩

theorem exists_buildProof (sha256 : Bytes → Hash256) (h : index < leaves.length) :
    ∃ proof, buildProof sha256 leaves index = some proof := by
  obtain ⟨steps, hsteps, -⟩ := buildLoop_ok sha256 (List.getElem?_eq_getElem h)
  exact ⟨⟨steps⟩, (buildProof_eq_some h).mpr hsteps⟩

theorem verifyProof_built (h : index < leaves.length)
    (hbuilt : buildProof sha256 leaves index = some proof) :
    verifyProof sha256 leaves[index].bytes proof (root sha256 leaves) = true := by
  have hne : leaves ≠ [] := List.ne_nil_of_length_pos (Nat.zero_lt_of_lt h)
  have hstart : startHash sha256 leaves[index].bytes = leaves[index] := by
    simp [startHash, leaves[index].size_eq]
  obtain ⟨steps, hsteps, hcollapse⟩ := buildLoop_ok sha256 (List.getElem?_eq_getElem h)
  obtain rfl : proof.steps = steps :=
    Option.some.inj (((buildProof_eq_some h).mp hbuilt).symm.trans hsteps)
  by_cases hl : 1 < leaves.length
  · have hroot := collapse_eq_root sha256 hne
    rw [collapse, if_pos hl, ← nextLevel, hroot] at hcollapse
    simp [verifyProof, buildLoop_ne_nil hl hsteps, hstart, List.singleton_inj.mp hcollapse]
  · -- A single leaf: the proof is empty and both sides hash the leaf twice.
    obtain ⟨only, rfl⟩ : ∃ only, leaves = [only] := by
      refine List.length_eq_one_iff.mp ?_
      omega
    rw [buildLoop, if_neg hl] at hsteps
    obtain rfl : index = 0 := by simpa using h
    simp [verifyProof, root, startHash, only.size_eq, ← Option.some.inj hsteps]

/-- `verify_proof` accepts what `build_proof` returns, for every leaf. -/
theorem verifyProof_buildProof (sha256 : Bytes → Hash256) (leaves : List Hash256) (index : Nat)
    (h : index < leaves.length) :
    ∃ proof, buildProof sha256 leaves index = some proof ∧
      verifyProof sha256 leaves[index].bytes proof (root sha256 leaves) = true := by
  obtain ⟨proof, hbuilt⟩ := exists_buildProof sha256 h
  exact ⟨proof, hbuilt, verifyProof_built h hbuilt⟩

def sampleLeaf (n : UInt8) : Hash256 := ⟨n :: List.replicate 31 0, by simp⟩

theorem verifyProof_buildProof_three :
    ∃ proof, buildProof sampleSha256 [sampleLeaf 1, sampleLeaf 2, sampleLeaf 3] 2 = some proof ∧
      verifyProof sampleSha256 (sampleLeaf 3).bytes proof
        (root sampleSha256 [sampleLeaf 1, sampleLeaf 2, sampleLeaf 3]) = true :=
  verifyProof_buildProof sampleSha256 [sampleLeaf 1, sampleLeaf 2, sampleLeaf 3] 2 (by decide)

-- ---------------------------------------------------------------------------
-- What is hashed
-- ---------------------------------------------------------------------------

def pairBytes (p : Hash256 × Hash256) : Bytes := p.1.bytes ++ p.2.bytes

theorem pairBytes_inj (h : pairBytes p = pairBytes q) : p = q := by
  obtain ⟨h1, h2⟩ := List.append_inj h (p.1.size_eq.trans q.1.size_eq.symm)
  exact Prod.ext (Hash256.ext_bytes h1) (Hash256.ext_bytes h2)

theorem length_pairBytes (p : Hash256 × Hash256) : (pairBytes p).length = 64 := by
  simp [pairBytes, p.1.size_eq, p.2.size_eq]

/-- The strings hashed by `root`. -/
def rootHashed (sha256 : Bytes → Hash256) : List Hash256 → List Bytes
  | [] => [[]]
  | [only] => [pairBytes (only, only)]
  | leaves => (queries (hashPair sha256) leaves).map pairBytes

theorem rootHashed_eq (h : leaves ≠ []) : rootHashed sha256 leaves =
    (pairs leaves ++ queries (hashPair sha256) (nextLevel sha256 leaves)).map pairBytes := by
  match leaves with
  | [] => contradiction
  | [only] => simp [rootHashed, nextLevel, pairs, pairUp, queries]
  | a :: b :: rest =>
    have hl : 1 < (a :: b :: rest).length := by simp
    have hq : rootHashed sha256 (a :: b :: rest) =
        (queries (hashPair sha256) (a :: b :: rest)).map pairBytes := rfl
    rw [hq, queries, if_pos hl, nextLevel]

/-- `root` depends on the hash function at these strings only. -/
theorem root_congr (h : ∀ s ∈ rootHashed sha256 leaves, sha256 s = sha256' s) :
    root sha256 leaves = root sha256' leaves := by
  match leaves with
  | [] => exact h [] (by simp [rootHashed])
  | [only] => exact h _ (by simp [rootHashed, pairBytes])
  | a :: b :: rest =>
    have hq : ∀ p ∈ queries (hashPair sha256) (a :: b :: rest),
        hashPair sha256 p.1 p.2 = hashPair sha256' p.1 p.2 :=
      fun p hp => h _ (List.mem_map_of_mem hp)
    simp only [root, collapse_congr hq]

/-- The steps of a path as pairs; a proof without steps hashes the node with
itself. -/
def pathSteps (currentHash : Hash256) (proof : MerkleProof) : List (Hash256 × Bool) :=
  if proof.steps.isEmpty then [(currentHash, false)]
  else proof.steps.map fun step => (step.sibling, step.siblingOnLeft)

/-- The number of times that `verify_proof` calls `hash_pair`. -/
def pathLength (proof : MerkleProof) : Nat := max 1 proof.steps.length

def verifyHashed (sha256 : Bytes → Hash256) (leafHash : Bytes) (proof : MerkleProof) : List Bytes :=
  (if leafHash.length = 32 then [] else [leafHash]) ++
    (climbPairs (hashPair sha256) (startHash sha256 leafHash)
      (pathSteps (startHash sha256 leafHash) proof)).map pairBytes

theorem length_pathSteps (x : Hash256) (proof : MerkleProof) :
    (pathSteps x proof).length = pathLength proof := by
  unfold pathSteps pathLength
  split
  next h => simp [List.isEmpty_iff.mp h]
  next h =>
    have hne : proof.steps ≠ [] := by simpa using h
    have := List.length_pos_iff.mpr hne
    simp
    omega

theorem verifyLoop_eq_climb : verifyLoop sha256 x steps =
    climb (hashPair sha256) x (steps.map fun step => (step.sibling, step.siblingOnLeft)) := by
  induction steps generalizing x with
  | nil => rfl
  | cons step steps ih => cases h : step.siblingOnLeft <;> simp [verifyLoop, climb, ih, h]

theorem verifyProof_iff : verifyProof sha256 leafHash proof expectedRoot = true ↔
    climb (hashPair sha256) (startHash sha256 leafHash)
      (pathSteps (startHash sha256 leafHash) proof) = expectedRoot := by
  unfold verifyProof pathSteps
  split
  next => simp [climb]
  next => simp [verifyLoop_eq_climb]

theorem verifyProof_congr (h : ∀ s ∈ verifyHashed sha256 leafHash proof, sha256 s = sha256' s) :
    verifyProof sha256 leafHash proof expectedRoot =
      verifyProof sha256' leafHash proof expectedRoot := by
  have hstart : startHash sha256 leafHash = startHash sha256' leafHash := by
    unfold startHash
    split
    next => rfl
    next hl => exact h leafHash (by simp [verifyHashed, hl])
  have hclimb := climb_congr (g := hashPair sha256') fun p hp =>
    h _ (List.mem_append_right _ (List.mem_map_of_mem hp))
  rw [Bool.eq_iff_iff, verifyProof_iff, verifyProof_iff, hclimb, hstart]

-- ---------------------------------------------------------------------------
-- Soundness
-- ---------------------------------------------------------------------------

/-- The number of hashing levels of the tree, one for a single leaf. -/
def treeHeight (leaves : List Hash256) : Nat := PairTree.height leaves.length

def treeLevel (sha256 : Bytes → Hash256) (leaves : List Hash256) (k : Nat) : List Hash256 :=
  level (hashPair sha256) leaves k

theorem treeLevel_treeHeight (sha256 : Bytes → Hash256) (h : leaves ≠ []) :
    treeLevel sha256 leaves (treeHeight leaves) = [root sha256 leaves] := by
  have hup := collapse_eq_root sha256 h
  rw [collapse_eq_level, nextLevel, length_pairUp] at hup
  rwa [treeLevel, treeHeight, PairTree.height, level_succ]

theorem pairs_treeLevel (h : leaves ≠ []) (hk : k < treeHeight leaves)
    (hp : p ∈ pairs (treeLevel sha256 leaves k)) : pairBytes p ∈ rootHashed sha256 leaves := by
  rw [rootHashed_eq h]
  refine List.mem_map_of_mem ?_
  cases k with
  | zero => exact List.mem_append_left _ hp
  | succ k =>
    refine List.mem_append_right _ (pairs_level_subset ?_ hp)
    rw [nextLevel, length_pairUp]
    exact Nat.lt_of_succ_lt_succ hk

/-- A verified path that is no longer than the tree is high starts at a node
of the level that its length says. -/
theorem mem_treeLevel_of_climb {S : List Bytes} {k : Nat} (hne : leaves ≠ [])
    (hfree : CollisionFree sha256 S) (hroot : rootHashed sha256 leaves ⊆ S)
    (hpath : (climbPairs (hashPair sha256) x steps).map pairBytes ⊆ S)
    (hk : k + steps.length = treeHeight leaves)
    (h : climb (hashPair sha256) x steps = root sha256 leaves) : x ∈ treeLevel sha256 leaves k := by
  have hinj : {p | pairBytes p ∈ S}.InjOn fun p => hashPair sha256 p.1 p.2 :=
    fun p hp q hq heq => pairBytes_inj (hfree _ hp _ hq heq)
  refine mem_level_of_climb hinj (fun p hp => hpath (List.mem_map_of_mem hp)) ?_ ?_
  · intro j hj p hp
    exact hroot (pairs_treeLevel hne (hk ▸ hj) hp)
  · have htop := treeLevel_treeHeight sha256 hne
    rw [treeLevel, ← hk] at htop
    rw [htop, h]
    exact List.mem_singleton_self _

/-- The rest of a long path, from where it has as many steps left as the tree
has levels, starts at a leaf. -/
theorem mem_leaves_of_climb {S : List Bytes} {below above : List (Hash256 × Bool)}
    (hne : leaves ≠ []) (hfree : CollisionFree sha256 S) (hroot : rootHashed sha256 leaves ⊆ S)
    (hpath : (climbPairs (hashPair sha256) x (below ++ above)).map pairBytes ⊆ S)
    (hlen : above.length = treeHeight leaves)
    (h : climb (hashPair sha256) x (below ++ above) = root sha256 leaves) :
    climb (hashPair sha256) x below ∈ leaves := by
  rw [climb_append] at h
  refine mem_treeLevel_of_climb (k := 0) hne hfree hroot ?_ (by omega) h
  rw [climbPairs_append, List.map_append] at hpath
  exact List.Subset.trans (List.subset_append_right _ _) hpath

theorem pathSteps_of_lt (x : Hash256) (h : 1 < pathLength proof) :
    pathSteps x proof = proof.steps.map fun step => (step.sibling, step.siblingOnLeft) := by
  unfold pathSteps
  split
  next hnil => simp [pathLength, List.isEmpty_iff.mp hnil] at h
  next => rfl

/-- What an accepted proof proves, whatever its steps: with as many hashes as
the tree has levels, that its start is a leaf; with fewer, that it is a node
that many levels below the root; with more, that the path passes a leaf. -/
theorem verifyProof_sound (sha256 : Bytes → Hash256) (leaves : List Hash256) (leafHash : Bytes)
    (proof : MerkleProof) (hne : leaves ≠ [])
    (hfree : CollisionFree sha256 (rootHashed sha256 leaves ++ verifyHashed sha256 leafHash proof))
    (h : verifyProof sha256 leafHash proof (root sha256 leaves) = true) :
    (pathLength proof = treeHeight leaves → startHash sha256 leafHash ∈ leaves) ∧
    (pathLength proof ≤ treeHeight leaves →
      startHash sha256 leafHash ∈
        treeLevel sha256 leaves (treeHeight leaves - pathLength proof)) ∧
    (treeHeight leaves < pathLength proof →
      verifyLoop sha256 (startHash sha256 leafHash)
        (proof.steps.take (pathLength proof - treeHeight leaves)) ∈ leaves) := by
  rw [verifyProof_iff] at h
  have hlen := length_pathSteps (startHash sha256 leafHash) proof
  have hpath : (climbPairs (hashPair sha256) (startHash sha256 leafHash)
      (pathSteps (startHash sha256 leafHash) proof)).map pairBytes ⊆
        rootHashed sha256 leaves ++ verifyHashed sha256 leafHash proof :=
    List.subset_append_of_subset_right _ (List.subset_append_right _ _)
  have hlow (hle : pathLength proof ≤ treeHeight leaves) : startHash sha256 leafHash ∈
      treeLevel sha256 leaves (treeHeight leaves - pathLength proof) :=
    mem_treeLevel_of_climb hne hfree (List.subset_append_left _ _) hpath (by omega) h
  refine ⟨fun heq => ?_, hlow, fun hlt => ?_⟩
  · simpa [heq, treeLevel] using hlow (Nat.le_of_eq heq)
  · -- A path longer than the tree: split it where as many steps are left as levels.
    have hpos : 0 < treeHeight leaves := Nat.succ_pos _
    rw [pathSteps_of_lt _ (Nat.lt_of_le_of_lt hpos hlt), List.length_map] at hlen
    rw [pathSteps_of_lt _ (Nat.lt_of_le_of_lt hpos hlt),
      ← List.take_append_drop (pathLength proof - treeHeight leaves) proof.steps,
      List.map_append] at hpath h
    rw [verifyLoop_eq_climb]
    refine mem_leaves_of_climb hne hfree (List.subset_append_left _ _) hpath ?_ h
    rw [List.length_map, List.length_drop]
    omega

/-- A node above the leaves of a three-leaf tree is accepted with the rest of
its path, and is no leaf. -/
theorem verifyProof_inner_node :
    let leaves := [sampleLeaf 1, sampleLeaf 2, sampleLeaf 3]
    let inner := hashPair sampleSha256 (sampleLeaf 1) (sampleLeaf 2)
    let proof := MerkleProof.mk [⟨hashPair sampleSha256 (sampleLeaf 3) (sampleLeaf 3), false⟩]
    verifyProof sampleSha256 inner.bytes proof (root sampleSha256 leaves) = true ∧
      CollisionFree sampleSha256
        (rootHashed sampleSha256 leaves ++ verifyHashed sampleSha256 inner.bytes proof) ∧
      startHash sampleSha256 inner.bytes ∉ leaves := by
  decide +kernel

theorem verifyProof_sound_three :
    let leaves := [sampleLeaf 1, sampleLeaf 2, sampleLeaf 3]
    let proof := MerkleProof.mk [⟨sampleLeaf 3, false⟩,
      ⟨hashPair sampleSha256 (sampleLeaf 1) (sampleLeaf 2), true⟩]
    pathLength proof = treeHeight leaves ∧ startHash sampleSha256 (sampleLeaf 3).bytes ∈ leaves :=
  ⟨by decide, (verifyProof_sound sampleSha256 [sampleLeaf 1, sampleLeaf 2, sampleLeaf 3]
    (sampleLeaf 3).bytes ⟨[⟨sampleLeaf 3, false⟩,
      ⟨hashPair sampleSha256 (sampleLeaf 1) (sampleLeaf 2), true⟩]⟩
    (by decide) (by decide +kernel) (by decide +kernel)).1 (by decide)⟩

-- ---------------------------------------------------------------------------
-- Binding
-- ---------------------------------------------------------------------------

theorem treeOf_root (sha256 : Bytes → Hash256) (h : leaves ≠ []) :
    ∃ t, treeOf leaves = [t] ∧ t.Perfect (treeHeight leaves) ∧
      t.eval (hashPair sha256) = root sha256 leaves ∧
      ∀ p ∈ t.pairs (hashPair sha256), pairBytes p ∈ rootHashed sha256 leaves := by
  obtain ⟨t, ht⟩ := treeOf_eq_singleton h
  have hmem : t ∈ treeOf leaves := by simp [ht]
  refine ⟨t, ht, perfect_treeOf hmem, ?_, fun p hp => ?_⟩
  · have heval := eval_treeOf (hashPair sha256) leaves
    rw [ht, ← nextLevel, collapse_eq_root sha256 h] at heval
    simpa using heval
  · rw [rootHashed_eq h]
    exact List.mem_map_of_mem (pairs_treeOf hmem hp)

theorem exists_root_eq (sha256 : Bytes → Hash256) (h : leaves ≠ []) :
    ∃ p, pairBytes p ∈ rootHashed sha256 leaves ∧ root sha256 leaves = sha256 (pairBytes p) := by
  obtain ⟨t, -, hperfect, heval, hpairs⟩ := treeOf_root sha256 h
  cases t with
  | leaf a => exact hperfect.elim
  | node l r => exact ⟨_, hpairs _ List.mem_cons_self, heval.symm⟩

/-- A leaf of one list is the hash of a string that the root of the other
hashes. -/
def LeafIsNode (sha256 : Bytes → Hash256) (leaves leaves' : List Hash256) : Prop :=
  ∃ a ∈ leaves, ∃ s ∈ rootHashed sha256 leaves', a = sha256 s

theorem root_inj_of_ne_nil {leaves' : List Hash256} (hne : leaves ≠ []) (hne' : leaves' ≠ [])
    (hfree : CollisionFree sha256 (rootHashed sha256 leaves ++ rootHashed sha256 leaves'))
    (h : root sha256 leaves = root sha256 leaves') :
    treeOf leaves = treeOf leaves' ∨
      (LeafIsNode sha256 leaves leaves' ∨ LeafIsNode sha256 leaves' leaves) ∧
        leaves.length ≠ leaves'.length := by
  obtain ⟨t, ht, hperfect, heval, hpairs⟩ := treeOf_root sha256 hne
  obtain ⟨t', ht', hperfect', heval', hpairs'⟩ := treeOf_root sha256 hne'
  let S := {p | pairBytes p ∈ rootHashed sha256 leaves ++ rootHashed sha256 leaves'}
  have hinj : S.InjOn fun p => hashPair sha256 p.1 p.2 :=
    fun p hp q hq heq => pairBytes_inj (hfree _ hp _ hq heq)
  have hl : ∀ p ∈ t.pairs (hashPair sha256), p ∈ S :=
    fun p hp => List.mem_append_left _ (hpairs p hp)
  have hr : ∀ p ∈ t'.pairs (hashPair sha256), p ∈ S :=
    fun p hp => List.mem_append_right _ (hpairs' p hp)
  rw [← heval, ← heval'] at h
  rcases Nat.lt_trichotomy (treeHeight leaves) (treeHeight leaves') with hlt | heq | hgt
  · obtain ⟨k, hk⟩ := Nat.exists_eq_add_of_lt hlt
    obtain ⟨a, ha, p, hp, hap⟩ := Tree.leaf_of_eval_eq hinj hperfect (hk ▸ hperfect') hl hr h
    have hmem : a ∈ leaves := mem_of_mem_leaves (by simp [ht]) ha
    refine .inr ⟨.inl ⟨a, hmem, _, hpairs' p hp, hap⟩, fun hlen => ?_⟩
    simp [treeHeight, hlen] at hlt
  · exact .inl (by rw [ht, ht', Tree.eq_of_eval_eq hinj hperfect (heq ▸ hperfect') hl hr h])
  · obtain ⟨k, hk⟩ := Nat.exists_eq_add_of_lt hgt
    obtain ⟨a, ha, p, hp, hap⟩ :=
      Tree.leaf_of_eval_eq hinj hperfect' (hk ▸ hperfect) hr hl h.symm
    have hmem : a ∈ leaves' := mem_of_mem_leaves (by simp [ht']) ha
    refine .inr ⟨.inr ⟨a, hmem, _, hpairs p hp, hap⟩, fun hlen => ?_⟩
    simp [treeHeight, hlen] at hgt

/-- What equal roots say: lists of one length are equal, and any lists are
equal up to the repetitions of the level loop unless a leaf is a node. -/
theorem root_inj {leaves' : List Hash256}
    (hfree : CollisionFree sha256 (rootHashed sha256 leaves ++ rootHashed sha256 leaves'))
    (h : root sha256 leaves = root sha256 leaves') :
    (leaves.length = leaves'.length → leaves = leaves') ∧
    (expand leaves = expand leaves' ∨
      LeafIsNode sha256 leaves leaves' ∨ LeafIsNode sha256 leaves' leaves) := by
  -- The root of the empty list hashes the empty string, every other root 64 bytes.
  have hempty (p : Hash256 × Hash256) : [] ≠ pairBytes p := fun hp => by
    simpa [← hp] using length_pairBytes p
  by_cases hne : leaves = []
  · by_cases hne' : leaves' = []
    · simp [hne, hne']
    · obtain ⟨p, hp, hroot⟩ := exists_root_eq sha256 hne'
      rw [hroot, hne] at h
      exact (hempty p (hfree _ (by simp [hne, rootHashed]) _ (by simp [hp]) h)).elim
  · by_cases hne' : leaves' = []
    · obtain ⟨p, hp, hroot⟩ := exists_root_eq sha256 hne
      rw [hroot, hne'] at h
      exact (hempty p (hfree _ (by simp [hne', rootHashed]) _ (by simp [hp]) h.symm)).elim
    · rcases root_inj_of_ne_nil hne hne' hfree h with htree | ⟨hnode, hlen⟩
      · exact ⟨fun hlen => treeOf_inj hlen htree, .inl (by rw [expand, expand, htree])⟩
      · exact ⟨fun heq => (hlen heq).elim, .inr hnode⟩

end Astro
