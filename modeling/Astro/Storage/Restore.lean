import Astro.Core.Commitment
import Astro.Storage.Sessions

/-!
# Restoring twice

A second restore starts again with the first block of the store. It could
only be accepted again after a tip that has the hash of an earlier tip, and
along the links of a chain no hash comes back.
-/

namespace Astro

open GrownList

namespace Chain

/-- A block that was accepted on a chain is not accepted again after it. -/
theorem not_valid_again {c c' : Chain} {block : Block} {new : List Block}
    (hc : c.Reachable E) (hc' : c'.Reachable E) (hblocks : c'.blocks = c.blocks ++ block :: new)
    (hfree : CollisionFree E.sha256 (c'.headers.map BlockHeader.serialize))
    (hzero : ∀ header ∈ c'.headers, header.hash E.sha256 ≠ Hash256.zero)
    (hv : ValidBlock E c.config c.blocks block) : ¬ValidBlock E c'.config c'.blocks block := by
  intro hv'
  have hsub : c.headers ⊆ c'.headers := by
    intro header hmem
    rw [headers, hblocks, List.map_append]
    exact List.mem_append_left _ hmem
  have hlink : linkAfter (BlockHeader.hash E.sha256) Hash256.zero c.headers =
      linkAfter (BlockHeader.hash E.sha256) Hash256.zero c'.headers :=
    hv.prevHash_eq.symm.trans hv'.prevHash_eq
  have hlast := linkAfter_inj (fun x hx => hzero x (hsub hx)) hzero hlink
  have heq : c.headers = c'.headers := hc.linked.eq_of_last hc'.linked
    (fun x hx y hy => BlockHeader.hash_inj hfree (hsub hx) hy) (fun x hx => hzero x (hsub hx))
    hzero hlast
  have hlen := congrArg List.length heq
  simp only [headers, hblocks, List.length_map, List.length_append, List.length_cons] at hlen
  omega

end Chain

/-- A second restore adds nothing to the first. -/
theorem restoreFromStore_idempotent (E : Env) (c : Chain) (store : BlockStore)
    (stored : List Block) (hc : c.Reachable E) (hload : store.loadAllBlocks E = .ok stored)
    (hfree : CollisionFree E.sha256
      ((c.headers ++ stored.map Block.header).map BlockHeader.serialize))
    (hzero : ∀ header ∈ c.headers ++ stored.map Block.header,
      header.hash E.sha256 ≠ Hash256.zero) :
    let once := (c.restoreFromStore E store).2
    (once.restoreFromStore E store).2 = once := by
  intro once
  have honce : once = (c.restoreLoop E stored).2 := by
    simp only [once, Chain.restoreFromStore, hload]
  have hagain : (once.restoreFromStore E store).2 = (once.restoreLoop E stored).2 := by
    simp only [Chain.restoreFromStore, hload]
  have hreachable : once.Reachable E := hc.apply (.restoreFromStore store)
  rw [hagain]
  cases stored with
  | nil => rfl
  | cons block blocks =>
    by_cases hv : ValidBlock E c.config c.blocks block
    · obtain ⟨k, hk⟩ := Chain.restoreLoop_take (E := E) (c.push block) blocks
      rw [← Chain.restoreLoop_accept hv, ← honce] at hk
      have hblocks : once.blocks = c.blocks ++ block :: blocks.take k := by simp [hk, Chain.push]
      have hsub : once.headers ⊆ c.headers ++ (block :: blocks).map Block.header := by
        rw [Chain.headers, hblocks, List.map_append]
        refine List.append_subset.mpr ⟨List.subset_append_left _ _, ?_⟩
        exact List.subset_append_of_subset_right _
          (List.map_subset _ (List.cons_subset_cons _ (List.take_subset _ _)))
      exact Chain.restoreLoop_reject <| Chain.not_valid_again hc hreachable hblocks
        (hfree.mono (List.map_subset _ hsub)) (fun header hmem => hzero header (hsub hmem)) hv
    · rw [Chain.restoreLoop_reject hv] at honce
      rw [honce]
      exact Chain.restoreLoop_reject hv

/-- The store extends a chain that already has a block. -/
theorem restoreFromStore_idempotent_sample :
    let c := (ChainRun.start sampleEnv {} [.appendBlock sampleGenesis]).chain
    let store : BlockStore :=
      { log := some (BlockStore.record sampleSha256 (sampleChild [sampleTx 1])) }
    let once := (c.restoreFromStore sampleEnv store).2
    (once.restoreFromStore sampleEnv store).2 = once := by
  intro c store
  have hload : store.loadAllBlocks sampleEnv = .ok [sampleChild [sampleTx 1]] :=
    BlockStore.loadAllBlocks_complete sampleEnv_roomy
      (.single (BlockStore.storedRecord_record BlockStore.storable_sampleChild)) rfl rfl
  exact restoreFromStore_idempotent sampleEnv c store [sampleChild [sampleTx 1]] ⟨_, _, rfl⟩ hload
    (by decide +kernel) (by decide +kernel)

end Astro
