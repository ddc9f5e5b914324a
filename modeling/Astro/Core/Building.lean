import Astro.Core.ChainRuns

/-!
# Blocks that are built are valid

`build_block_from_transactions` fills in every field that `validate_block`
compares, so that what is left to validate is the timestamp, the senders, the
signatures and the work.
-/

namespace Astro

namespace Chain

/-- What is left to check of a block that was built for this chain. -/
def Buildable (E : Env) (c : Chain) (txs : List Transaction) (timestamp : UInt64) : Prop :=
  match c.tip with
  | some tip => tip.header.timestamp ≤ timestamp ∧
    ∀ tx ∈ txs, tx.fromPubPem ≠ [] ∧ tx.verify E = .ok true
  | none => match txs with
    | [] => True
    | first :: others => first.fromPubPem = [] ∧
      ∀ tx ∈ others, tx.fromPubPem ≠ [] ∧ tx.verify E = .ok true

/-- A header whose block is not exempt meets the difficulty. -/
def RequiredWork (E : Env) (c : Chain) (header : BlockHeader) : Prop :=
  0 < c.config.difficultyBits → ¬(c.blocks = [] ∧ c.config.enforceGenesisPow = false) →
    meetsDifficulty c.config.difficultyBits (header.hash E.sha256) = true

theorem worked_iff {c : Chain} :
    Worked E c.config c.blocks.isEmpty header ↔ c.RequiredWork E header := by
  unfold Worked RequiredWork
  rw [List.isEmpty_iff]
  by_cases hexempt : c.blocks = [] ∧ c.config.enforceGenesisPow = false
  · simp [hexempt]
  · by_cases hd : 0 < c.config.difficultyBits
    · simp [hexempt, hd]
    · have hzero : c.config.difficultyBits = 0 := by simpa using hd
      simp [hzero, meetsDifficulty_zero]

theorem requiredWork_iff {c : Chain} (h : c.blocks ≠ []) : c.RequiredWork E header ↔
    meetsDifficulty c.config.difficultyBits (header.hash E.sha256) = true := by
  rw [← worked_iff]
  simp [Worked, h]

theorem blocks_ne_nil {c : Chain} {parent : Block} (ht : c.tip = some parent) :
    c.blocks ≠ [] := by
  intro hnil
  simp [Chain.tip, hnil] at ht

theorem acknowledged_appendBlock {c : Chain} :
    Acknowledged (c.appendBlock E block).1 ↔ ValidBlock E c.config c.blocks block := by
  rcases appendBlock_cases E c block with ⟨hv, h⟩ | ⟨hv, outcome, hno, h⟩
  · simp [h, hv, Acknowledged]
  · simp [h, hv, hno]

/-- Senders and signatures of a first block, transaction by transaction. -/
theorem coinbaseFirst_signed_iff : CoinbaseFirst txs ∧ Signed E true txs ↔
    match txs with
    | [] => True
    | first :: others => first.fromPubPem = [] ∧
      ∀ tx ∈ others, tx.fromPubPem ≠ [] ∧ tx.verify E = .ok true := by
  cases txs with
  | nil => simp [CoinbaseFirst, Signed]
  | cons first others =>
    unfold CoinbaseFirst Signed
    simp only [forall_getElem?_cons, Nat.add_eq_zero_iff, one_ne_zero, and_false, iff_false,
      false_and, false_or, iff_true, true_and]
    constructor
    · rintro ⟨⟨hfirst, hsenders⟩, -, hsigned⟩
      refine ⟨hfirst, fun tx htx => ?_⟩
      obtain ⟨i, hi⟩ := List.getElem?_of_mem htx
      exact ⟨hsenders i tx hi, hsigned i tx hi⟩
    · rintro ⟨hfirst, hothers⟩
      exact ⟨⟨hfirst, fun i tx hi => (hothers tx (List.mem_of_getElem? hi)).1⟩, .inl hfirst,
        fun i tx hi => (hothers tx (List.mem_of_getElem? hi)).2⟩

theorem signed_false_iff : Signed E false txs ↔ ∀ tx ∈ txs, tx.verify E = .ok true := by
  unfold Signed
  constructor
  · intro h tx htx
    obtain ⟨i, hi⟩ := List.getElem?_of_mem htx
    simpa using h i tx hi
  · intro h i tx hi
    exact .inr (h tx (List.mem_of_getElem? hi))

/-- A block whose previous hash and Merkle root are filled in. -/
theorem validBlock_filled_iff {c : Chain}
    (hprev : block.header.prevHash = (c.tipHash E.sha256).getD Hash256.zero)
    (hmerkle : block.header.merkleRoot = computeMerkleRoot E.sha256 block.transactions) :
    ValidBlock E c.config c.blocks block ↔
      c.Buildable E block.transactions block.header.timestamp ∧ c.RequiredWork E block.header := by
  have hparts : ValidBlock E c.config c.blocks block ↔ (Placed E.sha256 c.tip block ∧
      Signed E c.blocks.isEmpty block.transactions) ∧ c.RequiredWork E block.header :=
    ⟨fun h => ⟨⟨h.placed, h.signed⟩, worked_iff.mp h.worked⟩,
      fun ⟨⟨hplaced, hsigned⟩, hwork⟩ => ⟨hplaced, hmerkle, hsigned, worked_iff.mpr hwork⟩⟩
  rw [hparts, and_congr_left_iff]
  intro _
  unfold Buildable
  cases ht : c.tip with
  | none =>
    have hnil : c.blocks = [] := List.getLast?_eq_none_iff.mp ht
    rw [← coinbaseFirst_signed_iff]
    simp [Placed, hprev, tipHash, ht, hnil]
  | some tip =>
    have hempty : c.blocks.isEmpty = false := by simpa using blocks_ne_nil ht
    rw [hempty, signed_false_iff]
    simp only [Placed, hprev, tipHash, ht, Option.map_some, Option.getD_some, true_and, and_assoc,
      ← forall_and]

theorem basicBlockSanity_iff : basicBlockSanity sha256 block true = true ↔
    block.header.merkleRoot = computeMerkleRoot sha256 block.transactions ∧
      block.header.prevHash = Hash256.zero := by
  have hzero : Block.isZeroHash block.header.prevHash = true ↔
      block.header.prevHash = Hash256.zero := isZeroHash_iff
  unfold basicBlockSanity
  by_cases hm : block.header.merkleRoot = computeMerkleRoot sha256 block.transactions
  · cases hz : Block.isZeroHash block.header.prevHash <;> simp [hm, hz, ← hzero]
  · simp [hm]

theorem validBlock_makeGenesisBlock {config : ChainConfig}
    (h : config.difficultyBits = 0 ∨ config.enforceGenesisPow = false) :
    ValidBlock E config [] (makeGenesisBlock E.sha256 note time) := by
  have hfilled : ValidBlock E config [] (makeGenesisBlock E.sha256 note time) ↔
      ({ config } : Chain).Buildable E (makeGenesisBlock E.sha256 note time).transactions time ∧
        ({ config } : Chain).RequiredWork E (makeGenesisBlock E.sha256 note time).header :=
    validBlock_filled_iff (c := { config }) rfl rfl
  refine hfilled.mpr ⟨⟨rfl, by simp⟩, fun hbits hexempt => ?_⟩
  rcases h with h | h
  · simp [h] at hbits
  · exact absurd ⟨rfl, h⟩ hexempt

/-- A built block is accepted exactly when what was not built into it is
right, and a made genesis block by every empty chain that asks for no work. -/
theorem appendBlock_build_iff (E : Env) :
    (∀ (c : Chain) (txs : List Transaction) (timestamp : UInt64),
      Acknowledged (c.appendBlock E (c.buildBlockFromTransactions E.sha256 txs timestamp)).1 ↔
        c.Buildable E txs timestamp ∧
          c.RequiredWork E (c.buildBlockFromTransactions E.sha256 txs timestamp).header) ∧
    ∀ (config : ChainConfig) (note : Bytes) (time : UInt64),
      (config.difficultyBits = 0 ∨ config.enforceGenesisPow = false →
        Acknowledged (({ config } : Chain).appendBlock E
          (makeGenesisBlock E.sha256 note time)).1) ∧
      basicBlockSanity E.sha256 (makeGenesisBlock E.sha256 note time) true = true := by
  refine ⟨fun c txs timestamp => ?_, fun config note time => ⟨fun h => ?_, ?_⟩⟩
  · rw [acknowledged_appendBlock, validBlock_filled_iff rfl rfl]
    rfl
  · exact acknowledged_appendBlock.mpr (validBlock_makeGenesisBlock h)
  · exact basicBlockSanity_iff.mpr ⟨rfl, rfl⟩

theorem appendBlock_build_sample :
    let c : Chain := { blocks := [sampleGenesis] }
    Acknowledged (c.appendBlock sampleEnv
      (c.buildBlockFromTransactions sampleEnv.sha256 [sampleTx 1] 5)).1 ∧
    Acknowledged (({} : Chain).appendBlock sampleEnv
      (makeGenesisBlock sampleEnv.sha256 [7] 1)).1 := by
  intro c
  obtain ⟨hbuilt, hgenesis⟩ := appendBlock_build_iff sampleEnv
  constructor
  · rw [hbuilt]
    exact ⟨⟨by decide, by decide⟩, fun h => absurd h (by decide)⟩
  · obtain ⟨h, -⟩ := hgenesis {} [7] 1
    exact h (.inl rfl)

end Chain

end Astro
