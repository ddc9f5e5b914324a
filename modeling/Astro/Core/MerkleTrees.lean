import Astro.Core.MerkleLaws
import Mathlib.Order.Bounds.Basic

/-!
# Which leaves share a root

Lists whose trees have the same height share a root, as long as nothing
collides, exactly when they are the same once the repetitions of the level
loop are written out (`PairTree.expand`). The root that the level loop builds
from the bottom is the one of splitting the leaves from the top
(`PairTree.splitEval`).
-/

namespace Astro

open PairTree

variable {sha256 : Bytes → Hash256} {leaves leaves' : List Hash256}

theorem root_eq_of_treeOf (hne : leaves ≠ []) (hne' : leaves' ≠ [])
    (h : treeOf leaves = treeOf leaves') : root sha256 leaves = root sha256 leaves' := by
  obtain ⟨t, ht, -, heval, -⟩ := treeOf_root sha256 hne
  obtain ⟨t', ht', -, heval', -⟩ := treeOf_root sha256 hne'
  rw [ht, ht'] at h
  rw [← heval, ← heval', List.singleton_inj.mp h]

theorem treeOf_eq_of_root (hne : leaves ≠ []) (hne' : leaves' ≠ [])
    (hheight : treeHeight leaves = treeHeight leaves')
    (hfree : CollisionFree sha256 (rootHashed sha256 leaves ++ rootHashed sha256 leaves'))
    (h : root sha256 leaves = root sha256 leaves') : treeOf leaves = treeOf leaves' := by
  obtain ⟨t, ht, hperfect, heval, hpairs⟩ := treeOf_root sha256 hne
  obtain ⟨t', ht', hperfect', heval', hpairs'⟩ := treeOf_root sha256 hne'
  let S := {p | pairBytes p ∈ rootHashed sha256 leaves ++ rootHashed sha256 leaves'}
  have hinj : S.InjOn fun p => hashPair sha256 p.1 p.2 :=
    fun p hp q hq heq => pairBytes_inj (hfree _ hp _ hq heq)
  rw [← heval, ← heval'] at h
  rw [ht, ht', Tree.eq_of_eval_eq hinj hperfect (hheight ▸ hperfect')
    (fun p hp => List.mem_append_left _ (hpairs p hp))
    (fun p hp => List.mem_append_right _ (hpairs' p hp)) h]

/-- Roots of trees of one height agree exactly when all their paths, read from
left to right, lead to the same leaves. -/
theorem root_eq_iff_expand (sha256 : Bytes → Hash256) (leaves leaves' : List Hash256)
    (hne : leaves ≠ []) (hne' : leaves' ≠ [])
    (hfree : CollisionFree sha256 (rootHashed sha256 leaves ++ rootHashed sha256 leaves')) :
    (expand leaves).length = 2 ^ treeHeight leaves ∧
    (treeHeight leaves = treeHeight leaves' →
      (root sha256 leaves = root sha256 leaves' ↔ expand leaves = expand leaves')) ∧
    (leaves.length = leaves'.length → root sha256 leaves = root sha256 leaves' →
      leaves = leaves') := by
  refine ⟨length_expand hne, ?_, ?_⟩
  · intro hheight
    constructor
    · intro h
      rw [expand, expand, treeOf_eq_of_root hne hne' hheight hfree h]
    · intro h
      exact root_eq_of_treeOf hne hne' (treeOf_eq_of_expand hne hne' hheight h)
  · intro hlen h
    have hheight : treeHeight leaves = treeHeight leaves' := by rw [treeHeight, treeHeight, hlen]
    exact treeOf_inj hlen (treeOf_eq_of_root hne hne' hheight hfree h)

/-- Five leaves, and the six with the last one repeated. -/
theorem root_eq_iff_expand_five :
    let leaves := [sampleLeaf 1, sampleLeaf 2, sampleLeaf 3, sampleLeaf 4, sampleLeaf 5]
    let leaves' := leaves ++ [sampleLeaf 5]
    root sampleSha256 leaves = root sampleSha256 leaves' ↔ expand leaves = expand leaves' :=
  (root_eq_iff_expand sampleSha256
    [sampleLeaf 1, sampleLeaf 2, sampleLeaf 3, sampleLeaf 4, sampleLeaf 5]
    ([sampleLeaf 1, sampleLeaf 2, sampleLeaf 3, sampleLeaf 4, sampleLeaf 5] ++ [sampleLeaf 5])
    (by decide) (by decide) (by decide +kernel)).2.1 (by decide)

-- ---------------------------------------------------------------------------
-- From the top
-- ---------------------------------------------------------------------------

theorem treeHeight_isLeast (h : leaves ≠ []) :
    IsLeast {d | 1 ≤ d ∧ leaves.length ≤ 2 ^ d} (treeHeight leaves) := by
  have hpos := List.length_pos_iff.mpr h
  have hceil := Nat.le_pow_clog (b := 2) (by decide) ((leaves.length + 1) / 2)
  refine ⟨⟨Nat.succ_pos _, ?_⟩, fun d hd => ?_⟩
  · rw [treeHeight, PairTree.height, Nat.pow_succ]
    omega
  · obtain ⟨hone, hle⟩ := hd
    obtain ⟨d, rfl⟩ := Nat.exists_eq_add_of_le' hone
    refine Nat.succ_le_succ ((Nat.clog_le_iff_le_pow (by decide)).mpr ?_)
    rw [Nat.pow_succ] at hle
    omega

/-- The level loop computes what the split at powers of two defines. -/
theorem root_eq_splitEval (sha256 : Bytes → Hash256) (leaves : List Hash256) (d : Nat)
    (hne : leaves ≠ []) (hd : IsLeast {d | 1 ≤ d ∧ leaves.length ≤ 2 ^ d} d) :
    root sha256 leaves = splitEval (hashPair sha256) Hash256.zero d leaves := by
  obtain rfl := hd.unique (treeHeight_isLeast hne)
  have hlevel := level_eq_splitEval (f := hashPair sha256) Hash256.zero hne hd.1.2
  exact List.singleton_inj.mp ((treeLevel_treeHeight sha256 hne).symm.trans hlevel)

theorem root_eq_splitEval_three :
    let leaves := [sampleLeaf 1, sampleLeaf 2, sampleLeaf 3]
    root sampleSha256 leaves = splitEval (hashPair sampleSha256) Hash256.zero 2 leaves := by
  refine root_eq_splitEval sampleSha256 [sampleLeaf 1, sampleLeaf 2, sampleLeaf 3] 2 (by decide)
    ⟨by decide, fun d hd => ?_⟩
  match d, hd with
  | 0, hd => exact absurd hd.1 (by decide)
  | 1, hd => exact absurd hd.2 (by decide)
  | d + 2, _ => exact Nat.le_add_left 2 d

end Astro
