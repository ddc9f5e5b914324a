import Astro.Core.BlockLaws
import Astro.Core.ChainRuns
import Astro.Core.MerkleLaws

/-!
# What hashes commit to

As long as no two of the strings that were hashed collide, the tip hash of a
chain determines all its headers, and the hash of a valid block determines its
transactions up to the repetitions that the Merkle loop makes itself.
-/

namespace Astro

open GrownList

-- ---------------------------------------------------------------------------
-- The tip hash
-- ---------------------------------------------------------------------------

def Chain.headers (c : Chain) : List BlockHeader := c.blocks.map Block.header

theorem Chain.tipHash_eq (sha256 : Bytes → Hash256) (c : Chain) :
    c.tipHash sha256 = c.headers.getLast?.map (BlockHeader.hash sha256) := by
  simp [tipHash, tip, headers, Function.comp_def]

theorem ValidBlock.prevHash_eq (h : ValidBlock E config blocks block) : block.header.prevHash =
    linkAfter (BlockHeader.hash E.sha256) Hash256.zero (blocks.map Block.header) := by
  have hplaced := h.placed
  simp only [linkAfter, List.getLast?_map, Option.map_map]
  cases hl : blocks.getLast? with
  | none => rw [hl] at hplaced; exact hplaced.1
  | some parent => rw [hl] at hplaced; exact hplaced.1

theorem ChainRun.Valid.linked {run : ChainRun} (h : Valid E run) :
    Linked (BlockHeader.hash E.sha256) BlockHeader.prevHash Hash256.zero run.chain.headers := by
  have hmap : run.chain.headers = run.history.map (·.block.header) := by
    simp [Chain.headers, ← h.recorded, Function.comp_def]
  rw [hmap]
  refine Grown.map _ h.valid fun before a hv => ?_
  simpa [Function.comp_def] using hv.prevHash_eq

theorem Chain.Reachable.linked {c : Chain} (h : c.Reachable E) :
    Linked (BlockHeader.hash E.sha256) BlockHeader.prevHash Hash256.zero c.headers := by
  obtain ⟨config, ops, rfl⟩ := h
  exact (ChainRun.start_valid E config ops).linked

/-- Two chains with the same tip hash have the same headers, and no hash
occurs twice in a chain. -/
theorem tipHash_inj (E : Env) (c c' : Chain) (hc : c.Reachable E) (hc' : c'.Reachable E)
    (hfree : CollisionFree E.sha256 ((c.headers ++ c'.headers).map BlockHeader.serialize))
    (hzero : ∀ header ∈ c.headers ++ c'.headers, header.hash E.sha256 ≠ Hash256.zero) :
    (c.tipHash E.sha256 = c'.tipHash E.sha256 → c.height = c'.height ∧ c.headers = c'.headers) ∧
    (c.headers.map (BlockHeader.hash E.sha256)).Nodup ∧
    (c'.headers.map (BlockHeader.hash E.sha256)).Nodup := by
  have hinj {x y : BlockHeader} (hx : x ∈ c.headers ++ c'.headers)
      (hy : y ∈ c.headers ++ c'.headers) (h : x.hash E.sha256 = y.hash E.sha256) : x = y :=
    BlockHeader.hash_inj hfree hx hy h
  simp only [List.mem_append] at hinj hzero
  refine ⟨fun htip => ?_, ?_, ?_⟩
  · rw [Chain.tipHash_eq, Chain.tipHash_eq] at htip
    have heq := hc.linked.eq_of_last hc'.linked (fun x hx y hy => hinj (.inl hx) (.inr hy))
      (fun x hx => hzero x (.inl hx)) (fun y hy => hzero y (.inr hy)) htip
    have hheight (c : Chain) : c.height = c.headers.length := by simp [Chain.height, Chain.headers]
    exact ⟨by rw [hheight, hheight, heq], heq⟩
  · exact hc.linked.nodup (fun x hx y hy => hinj (.inl hx) (.inl hy)) fun x hx => hzero x (.inl hx)
  · exact hc'.linked.nodup (fun x hx y hy => hinj (.inr hx) (.inr hy)) fun x hx => hzero x (.inr hx)

def sampleChain : Chain :=
  (ChainRun.start sampleEnv {} [.appendBlock sampleGenesis, .appendBlock (sampleChild [])]).chain

def sampleChain' : Chain :=
  (ChainRun.start sampleEnv { difficultyBits := 7 } [.appendBlock sampleGenesis,
    .setDifficultyBits 0, .appendBlock sampleGenesis, .appendBlock (sampleChild [])]).chain

theorem tipHash_inj_two : sampleChain.height = sampleChain'.height ∧
    sampleChain.headers = sampleChain'.headers :=
  (tipHash_inj sampleEnv sampleChain sampleChain' ⟨_, _, rfl⟩ ⟨_, _, rfl⟩ (by decide +kernel)
    (by decide +kernel)).1 (by decide +kernel)

-- ---------------------------------------------------------------------------
-- The block hash
-- ---------------------------------------------------------------------------

/-- The strings hashed for the hash of a header and for the Merkle root. -/
def Block.hashed (sha256 : Bytes → Hash256) (block : Block) : List Bytes :=
  block.header.serialize :: (block.transactions.map (·.serialize true) ++
    rootHashed sha256 (block.transactions.map (·.txHash sha256)))

def Block.signedPart (block : Block) : List Transaction :=
  block.transactions.map Transaction.unsigned

/-- A transaction of the block signs a string that the Merkle root of the
other block hashes: the concatenation of two nodes. -/
def Block.SignsNode (sha256 : Bytes → Hash256) (block block' : Block) : Prop :=
  ∃ tx ∈ block.transactions, tx.serialize true ∈
    rootHashed sha256 (block'.transactions.map (·.txHash sha256))

theorem map_eq_of_map_eq {f : α → β} {g : α → γ} {xs ys : List α}
    (hfg : ∀ x ∈ xs, ∀ y ∈ ys, f x = f y → g x = g y) (h : xs.map f = ys.map f) :
    xs.map g = ys.map g := by
  induction xs generalizing ys with
  | nil =>
    cases ys with
    | nil => rfl
    | cons y ys => simp at h
  | cons x xs ih =>
    cases ys with
    | nil => simp at h
    | cons y ys =>
      obtain ⟨hx, hs⟩ := List.cons.inj h
      rw [List.map_cons, List.map_cons, hfg x (by simp) y (by simp) hx,
        ih (fun x hx y hy => hfg x (by simp [hx]) y (by simp [hy])) hs]

theorem signsNode_of_leafIsNode {block block' : Block}
    (hfree : CollisionFree sha256 (block.hashed sha256 ++ block'.hashed sha256))
    (h : LeafIsNode sha256 (block.transactions.map (·.txHash sha256))
      (block'.transactions.map (·.txHash sha256))) : block.SignsNode sha256 block' := by
  obtain ⟨a, ha, s, hs, has⟩ := h
  obtain ⟨tx, htx, rfl⟩ := List.mem_map.mp ha
  have hmem : tx.serialize true ∈ block.hashed sha256 :=
    List.mem_cons_of_mem _ (List.mem_append_left _ (List.mem_map_of_mem htx))
  have hmem' : s ∈ block'.hashed sha256 :=
    List.mem_cons_of_mem _ (List.mem_append_right _ hs)
  exact ⟨tx, htx, hfree _ (by simp [hmem]) _ (by simp [hmem']) has ▸ hs⟩

theorem collisionFree_roots {block block' : Block}
    (hfree : CollisionFree sha256 (block.hashed sha256 ++ block'.hashed sha256)) :
    CollisionFree sha256 (rootHashed sha256 (block.transactions.map (·.txHash sha256)) ++
      rootHashed sha256 (block'.transactions.map (·.txHash sha256))) := by
  have hsub (b : Block) :
      rootHashed sha256 (b.transactions.map (·.txHash sha256)) ⊆ b.hashed sha256 :=
    List.subset_cons_of_subset _ (List.subset_append_right _ _)
  exact hfree.mono (List.append_subset.mpr ⟨List.subset_append_of_subset_left _ (hsub block),
    List.subset_append_of_subset_right _ (hsub block')⟩)

/-- Equal hashes of transactions come from equal signing serializations. -/
theorem unsigned_eq_of_txHash_eq {block block' : Block}
    (hfits : ∀ tx ∈ block.transactions ++ block'.transactions, tx.Fits)
    (hfree : CollisionFree sha256 (block.hashed sha256 ++ block'.hashed sha256))
    {tx tx' : Transaction} (htx : tx ∈ block.transactions) (htx' : tx' ∈ block'.transactions)
    (h : tx.txHash sha256 = tx'.txHash sha256) : tx.unsigned = tx'.unsigned := by
  refine Transaction.serialize_signing_inj (hfits _ (by simp [htx])) (hfits _ (by simp [htx'])) ?_
  have hmem : tx.serialize true ∈ block.hashed sha256 :=
    List.mem_cons_of_mem _ (List.mem_append_left _ (List.mem_map_of_mem htx))
  have hmem' : tx'.serialize true ∈ block'.hashed sha256 :=
    List.mem_cons_of_mem _ (List.mem_append_left _ (List.mem_map_of_mem htx'))
  exact hfree _ (by simp [hmem]) _ (by simp [hmem']) h

/-- Valid blocks with the same hash carry the same signed transactions, if
they carry as many; in any case up to the repetitions of the Merkle loop, as
long as no signed string is taken for two nodes. -/
theorem blockHash_inj (E : Env) (c : Chain) (block block' : Block)
    (hv : Acknowledged (c.validateBlock E block)) (hv' : Acknowledged (c.validateBlock E block'))
    (hfits : ∀ tx ∈ block.transactions ++ block'.transactions, tx.Fits)
    (hfree : CollisionFree E.sha256 (block.hashed E.sha256 ++ block'.hashed E.sha256))
    (h : block.header.hash E.sha256 = block'.header.hash E.sha256) :
    (block.transactions.length = block'.transactions.length →
      block.signedPart = block'.signedPart) ∧
    (PairTree.expand block.signedPart = PairTree.expand block'.signedPart ∨
      block.SignsNode E.sha256 block' ∨ block'.SignsNode E.sha256 block) := by
  have hheader : block.header = block'.header := BlockHeader.serialize_inj <|
    hfree _ (by simp [Block.hashed]) _ (by simp [Block.hashed]) h
  have hroot : computeMerkleRoot E.sha256 block.transactions =
      computeMerkleRoot E.sha256 block'.transactions := by
    rw [← (Chain.valid_of_acknowledged hv).merkle, ← (Chain.valid_of_acknowledged hv').merkle,
      hheader]
  have hsigned : ∀ tx ∈ block.transactions, ∀ tx' ∈ block'.transactions,
      tx.txHash E.sha256 = tx'.txHash E.sha256 → tx.unsigned = tx'.unsigned :=
    fun tx htx tx' htx' => unsigned_eq_of_txHash_eq hfits hfree htx htx'
  obtain ⟨hsame, hexpand⟩ := root_inj (collisionFree_roots hfree) hroot
  constructor
  · intro hlen
    exact map_eq_of_map_eq hsigned (hsame (by simpa using hlen))
  · rcases hexpand with hexpand | hnode | hnode
    · left
      rw [PairTree.expand_map, PairTree.expand_map] at hexpand
      rw [Block.signedPart, Block.signedPart, PairTree.expand_map, PairTree.expand_map]
      exact map_eq_of_map_eq (fun x hx y hy => hsigned x (PairTree.mem_of_mem_expand hx) y
        (PairTree.mem_of_mem_expand hy)) hexpand
    · exact .inr (.inl (signsNode_of_leafIsNode hfree hnode))
    · have hswap : CollisionFree E.sha256 (block'.hashed E.sha256 ++ block.hashed E.sha256) :=
        hfree.mono fun s hs => by simpa [or_comm] using hs
      exact .inr (.inr (signsNode_of_leafIsNode hswap hnode))

/-- Two valid blocks with one header: a last transaction may be repeated. -/
theorem blockHash_repeated :
    let c := (ChainRun.start sampleEnv {} [.appendBlock sampleGenesis]).chain
    let block := sampleChild [sampleTx 1]
    let block' := sampleChild [sampleTx 1, sampleTx 1]
    c.Reachable sampleEnv ∧ Acknowledged (c.validateBlock sampleEnv block) ∧
      Acknowledged (c.validateBlock sampleEnv block') ∧
      (∀ tx ∈ block.transactions ++ block'.transactions, tx.Fits) ∧
      CollisionFree sampleSha256 (block.hashed sampleSha256 ++ block'.hashed sampleSha256) ∧
      block.header.hash sampleSha256 = block'.header.hash sampleSha256 ∧
      block.transactions.length ≠ block'.transactions.length :=
  ⟨⟨_, _, rfl⟩, by decide +kernel⟩

theorem blockHash_inj_three :
    let block := sampleChild [sampleTx 1, sampleTx 2, sampleTx 3]
    let block' := sampleChild [sampleTx 1, sampleTx 2, sampleTx 3, sampleTx 3]
    (block.transactions.length = block'.transactions.length →
      block.signedPart = block'.signedPart) ∧
    (PairTree.expand block.signedPart = PairTree.expand block'.signedPart ∨
      block.SignsNode sampleSha256 block' ∨ block'.SignsNode sampleSha256 block) :=
  blockHash_inj sampleEnv (ChainRun.start sampleEnv {} [.appendBlock sampleGenesis]).chain
    (sampleChild [sampleTx 1, sampleTx 2, sampleTx 3])
    (sampleChild [sampleTx 1, sampleTx 2, sampleTx 3, sampleTx 3])
    (by decide +kernel) (by decide +kernel) (by decide +kernel) (by decide +kernel)
    (by decide +kernel)

end Astro
