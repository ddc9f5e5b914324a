import Astro.Core.Building

/-!
# Transactions that come back

Nothing that `validate_block` checks of a transaction depends on the
transactions before it: nonces and amounts are only signed. What was accepted
once is accepted again.
-/

namespace Astro.Chain

/-- The transactions that a chain has accepted from a sender. -/
def Seen (c : Chain) (txs : List Transaction) : Prop :=
  ∀ tx ∈ txs, tx.fromPubPem ≠ [] ∧ ∃ block ∈ c.blocks, tx ∈ block.transactions

theorem Seen.verified {c : Chain} (h : c.Seen txs) (hc : c.Reachable E) :
    ∀ tx ∈ txs, tx.fromPubPem ≠ [] ∧ tx.verify E = .ok true := by
  obtain ⟨config, ops, rfl⟩ := hc
  have hvalid := ChainRun.start_valid E config ops
  intro tx htx
  obtain ⟨hsender, block, hblock, hmem⟩ := h tx htx
  obtain ⟨i, hi⟩ := List.getElem?_of_mem hblock
  obtain ⟨j, hj⟩ := List.getElem?_of_mem hmem
  exact ⟨hsender, hvalid.verified hi hj fun hij => hsender ((hvalid.coinbase hi hj).mpr hij)⟩

theorem Seen.push {c : Chain} (h : c.Seen txs) (block : Block) : (c.push block).Seen txs := by
  intro tx htx
  obtain ⟨hsender, earlier, hearlier, hmem⟩ := h tx htx
  exact ⟨hsender, earlier, List.mem_append_left _ hearlier, hmem⟩

/-- Builds a block of the transactions and appends it. -/
def resubmit (E : Env) (txs : List Transaction) (timestamp : UInt64) (c : Chain) : Chain :=
  (c.appendBlock E (c.buildBlockFromTransactions E.sha256 txs timestamp)).2

theorem resubmit_eq {c : Chain} {tip : Block} (hc : c.Reachable E) (htip : c.tip = some tip)
    (hseen : c.Seen txs) (htime : tip.header.timestamp ≤ timestamp)
    (hbits : c.config.difficultyBits = 0) : c.resubmit E txs timestamp =
      c.push (c.buildBlockFromTransactions E.sha256 txs timestamp) := by
  have hbuildable : c.Buildable E txs timestamp := by
    unfold Buildable
    rw [htip]
    exact ⟨htime, hseen.verified hc⟩
  have hv : ValidBlock E c.config c.blocks (c.buildBlockFromTransactions E.sha256 txs timestamp) :=
    (validBlock_filled_iff rfl rfl).mpr ⟨hbuildable, fun hpos => by simp [hbits] at hpos⟩
  rcases appendBlock_cases E c (c.buildBlockFromTransactions E.sha256 txs timestamp) with
    ⟨-, h⟩ | ⟨hno, -⟩
  · rw [resubmit, h]
  · exact absurd hv hno

/-- There is no protection against replay: any of the transactions that a
chain has accepted, in any order and any number, make a block that it accepts
again, and as often as one likes. -/
theorem replays_accepted (E : Env) (c : Chain) (txs : List Transaction) (timestamp : UInt64)
    (n : Nat) (tip : Block) (hc : c.Reachable E) (htip : c.tip = some tip) (hseen : c.Seen txs)
    (htime : tip.header.timestamp ≤ timestamp) (hbits : c.config.difficultyBits = 0) :
    ∃ new, ((resubmit E txs timestamp)^[n] c).blocks = c.blocks ++ new ∧ new.length = n ∧
      ∀ block ∈ new, block.transactions = txs ∧ block.header.timestamp = timestamp := by
  induction n generalizing c tip with
  | zero => exact ⟨[], by simp⟩
  | succ n ih =>
    have heq := resubmit_eq hc htip hseen htime hbits
    have hreachable : (c.resubmit E txs timestamp).Reachable E :=
      hc.apply (.appendBlock (c.buildBlockFromTransactions E.sha256 txs timestamp))
    rw [Function.iterate_succ_apply, heq]
    rw [heq] at hreachable
    let block := c.buildBlockFromTransactions E.sha256 txs timestamp
    have htip' : (c.push block).tip = some block := by simp [Chain.tip, push]
    obtain ⟨new, hnew, hlen, hall⟩ := ih (c.push block) block hreachable htip' (hseen.push block)
      (UInt64.le_refl _) hbits
    refine ⟨block :: new, ?_, by rw [List.length_cons, hlen], ?_⟩
    · rw [hnew]
      simp [push]
    · exact List.forall_mem_cons.mpr ⟨⟨rfl, rfl⟩, hall⟩

/-- The same transaction twice in one block, and three such blocks. -/
theorem replays_accepted_sample :
    let c := (ChainRun.start sampleEnv {} [.appendBlock sampleGenesis,
      .appendBlock (sampleChild [sampleTx 1])]).chain
    ((resubmit sampleEnv [sampleTx 1, sampleTx 1] 9)^[3] c).blocks.length = 5 := by
  intro c
  obtain ⟨new, hblocks, hlen, -⟩ := replays_accepted sampleEnv c [sampleTx 1, sampleTx 1] 9 3
    (sampleChild [sampleTx 1]) ⟨_, _, rfl⟩ (by decide +kernel) (by
      intro tx htx
      have hmem : sampleChild [sampleTx 1] ∈ c.blocks := by decide +kernel
      obtain rfl : tx = sampleTx 1 := by simpa using htx
      exact ⟨by decide, _, hmem, by simp [sampleChild]⟩) (by decide +kernel) (by decide +kernel)
  have htwo : c.blocks.length = 2 := by decide +kernel
  rw [hblocks, List.length_append, hlen, htwo]

end Astro.Chain
