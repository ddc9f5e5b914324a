import Astro.Core.MerkleTrees
import Mathlib.Data.Nat.Bitwise

/-!
# The shape of a proof

Step `k` of the proof that `build_proof` makes for an index stands at level
`k` of the tree, at the position of the index shifted by `k`. Its flag is bit
`k` of the index, so that the flags spell the index, and its sibling is the
other node of the pair, or the node itself at the right edge of the level.
-/

namespace Astro

open PairTree

variable {sha256 : Bytes → Hash256} {leaves levelHashes : List Hash256}

/-- The lowest bit is flipped, unless that leads past the end of the level. -/
theorem siblingIndex_eq_xor (h : i < size) :
    siblingIndex size i = if i ^^^ 1 < size then i ^^^ 1 else i := by
  rcases Nat.even_or_odd i with heven | hodd
  · rw [Nat.xor_one_of_even heven]
    have hlast : i + 1 ≤ size - 1 ↔ i + 1 < size := by omega
    simp [siblingIndex, Nat.even_iff.mp heven, hlast]
  · rw [Nat.xor_one_of_odd hodd, if_pos (Nat.lt_of_le_of_lt (Nat.sub_le _ _) h)]
    simp [siblingIndex, Nat.odd_iff.mp hodd]

/-- One step for every level below the last, whose flag is the next bit of the
index and whose sibling is read from its level. -/
theorem buildLoop_shape (h : buildLoop sha256 levelHashes i = some steps) :
    steps.length = Nat.clog 2 levelHashes.length ∧
    ∀ (k : Nat) step, steps[k]? = some step → step.siblingOnLeft = i.testBit k ∧
      (treeLevel sha256 levelHashes k)[siblingIndex (treeLevel sha256 levelHashes k).length
        (i >>> k)]? = some step.sibling := by
  fun_induction buildLoop sha256 levelHashes i generalizing steps with
  | case1 levelHashes i hl ih =>
    simp only [Option.bind_eq_bind, Option.bind_eq_some_iff, Option.pure_def,
      Option.some.injEq] at h
    obtain ⟨sibling, hs, rest, hrest, rfl⟩ := h
    obtain ⟨hlen, hsteps⟩ := ih hrest
    refine ⟨?_, fun k step hk => ?_⟩
    · rw [List.length_cons, hlen, clog_pairUp (f := hashPair sha256) hl]
      rfl
    · cases k with
      | zero =>
        cases hk
        exact ⟨(Nat.testBit_zero i).symm, hs⟩
      | succ k =>
        obtain ⟨hflag, hsibling⟩ := hsteps k step hk
        exact ⟨hflag.trans (Nat.testBit_succ i k).symm,
          by rw [Nat.shiftRight_succ_inside]; exact hsibling⟩
  | case2 levelHashes i hl =>
    cases h
    exact ⟨(Nat.clog_of_right_le_one (by omega) 2).symm, by simp⟩

theorem flags_eq (h : buildLoop sha256 leaves i = some steps) :
    steps.map ProofStep.siblingOnLeft = (List.range steps.length).map i.testBit := by
  refine List.ext_getElem (by simp) fun k hk _ => ?_
  have hlt : k < steps.length := by simpa using hk
  simpa using ((buildLoop_shape h).2 k steps[k] (List.getElem?_eq_getElem hlt)).1

/-- Below a power of two, the bits spell the number. -/
theorem eq_of_map_testBit {i j d : Nat} (hi : i < 2 ^ d) (hj : j < 2 ^ d)
    (h : (List.range d).map i.testBit = (List.range d).map j.testBit) : i = j := by
  refine Nat.eq_of_testBit_eq fun k => ?_
  by_cases hk : k < d
  · exact List.map_inj_left.mp h k (List.mem_range.mpr hk)
  · have hpow : 2 ^ d ≤ 2 ^ k := Nat.pow_le_pow_right (by decide) (Nat.le_of_not_lt hk)
    rw [Nat.testBit_lt_two_pow (Nat.lt_of_lt_of_le hi hpow),
      Nat.testBit_lt_two_pow (Nat.lt_of_lt_of_le hj hpow)]

/-- Which steps the proof for an index consists of; and no other index of the
same leaves has the same flags. -/
theorem buildProof_shape (sha256 : Bytes → Hash256) (leaves : List Hash256) (index : Nat)
    (h : index < leaves.length) :
    ∃ proof, buildProof sha256 leaves index = some proof ∧
      IsLeast {d | leaves.length ≤ 2 ^ d} proof.steps.length ∧
      (∀ k < proof.steps.length,
        siblingIndex (treeLevel sha256 leaves k).length (index >>> k) <
          (treeLevel sha256 leaves k).length) ∧
      (∀ (k : Nat) step, proof.steps[k]? = some step →
        let nodes := treeLevel sha256 leaves k
        let position := index >>> k
        step.siblingOnLeft = index.testBit k ∧
        nodes[if position ^^^ 1 < nodes.length then position ^^^ 1 else position]? =
          some step.sibling) ∧
      proof.steps.map ProofStep.siblingOnLeft =
        (List.range proof.steps.length).map index.testBit ∧
      ∀ index' < leaves.length, ∀ proof', buildProof sha256 leaves index' = some proof' →
        proof'.steps.map ProofStep.siblingOnLeft = proof.steps.map ProofStep.siblingOnLeft →
        index' = index := by
  obtain ⟨proof, hproof⟩ := exists_buildProof sha256 h
  have hbuilt := (buildProof_eq_some h).mp hproof
  obtain ⟨hlen, hsteps⟩ := buildLoop_shape hbuilt
  have hposition (k : Nat) : index >>> k < (treeLevel sha256 leaves k).length :=
    shiftRight_lt_level h k
  have hwidth : leaves.length ≤ 2 ^ proof.steps.length :=
    hlen ▸ Nat.le_pow_clog (by decide) leaves.length
  refine ⟨proof, hproof, ⟨hwidth, fun d hd => ?_⟩, fun k _ => siblingIndex_lt (hposition k),
    fun k step hk => ?_, flags_eq hbuilt, fun index' h' proof' hproof' hflags => ?_⟩
  · rw [hlen]
    exact (Nat.clog_le_iff_le_pow (by decide)).mpr hd
  · obtain ⟨hflag, hsibling⟩ := hsteps k step hk
    rw [siblingIndex_eq_xor (hposition k)] at hsibling
    exact ⟨hflag, hsibling⟩
  · have hbuilt' := (buildProof_eq_some h').mp hproof'
    have hlen' := (buildLoop_shape hbuilt').1.trans hlen.symm
    rw [flags_eq hbuilt', flags_eq hbuilt, hlen'] at hflags
    exact eq_of_map_testBit (Nat.lt_of_lt_of_le h' hwidth) (Nat.lt_of_lt_of_le h hwidth) hflags

theorem buildProof_shape_five :
    let leaves := [sampleLeaf 1, sampleLeaf 2, sampleLeaf 3, sampleLeaf 4, sampleLeaf 5]
    ∃ proof, buildProof sampleSha256 leaves 4 = some proof ∧
      IsLeast {d | 5 ≤ 2 ^ d} proof.steps.length ∧
      proof.steps.map ProofStep.siblingOnLeft =
        (List.range proof.steps.length).map (Nat.testBit 4) := by
  intro leaves
  obtain ⟨proof, hproof, hleast, -, -, hflags, -⟩ :=
    buildProof_shape sampleSha256 leaves 4 (by decide)
  exact ⟨proof, hproof, hleast, hflags⟩

end Astro
