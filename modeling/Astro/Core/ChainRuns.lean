import Astro.Core.Validity
import Astro.Library.GrownList
import Mathlib.Logic.Relation

/-!
# Runs of a chain

An operation of `Chain` only ever pushes blocks that are valid where they are
pushed (`Grows`), so that a run leaves a `ValidChain`: every block was valid
on the ones before it, under the configuration in force when it was accepted.
-/

namespace Astro

open GrownList

structure Accepted where
  block : Block
  /-- The configuration in force when the block was accepted. -/
  config : ChainConfig

def ValidChain (E : Env) : List Accepted → Prop :=
  Grown fun before a => ValidBlock E a.config (before.map Accepted.block) a.block

-- ---------------------------------------------------------------------------
-- Operation by operation
-- ---------------------------------------------------------------------------

/-- Whether an operation reports that the block is valid. -/
def Acknowledged : Except Exn ValidationResult → Prop
  | .ok result => result.isValid = true
  | .error _ => False

instance : DecidablePred Acknowledged
  | .ok result => inferInstanceAs (Decidable (result.isValid = true))
  | .error _ => isFalse id

namespace Chain

theorem validateBlock_cases (E : Env) (c : Chain) (block : Block) :
    (ValidBlock E c.config c.blocks block ∧
      c.validateBlock E block = .ok ⟨true, .none, noIndex⟩) ∨
    (¬ValidBlock E c.config c.blocks block ∧ (∃ e, c.validateBlock E block = .error e)) ∨
    (¬ValidBlock E c.config c.blocks block ∧
      ∃ r, c.validateBlock E block = .ok r ∧ r.isValid = false) := by
  by_cases hv : ValidBlock E c.config c.blocks block
  · exact .inl ⟨hv, validateBlock_ok hv⟩
  · cases h : c.validateBlock E block with
    | error e => exact .inr (.inl ⟨hv, e, rfl⟩)
    | ok r =>
      cases hr : r.isValid with
      | false => exact .inr (.inr ⟨hv, r, rfl, hr⟩)
      | true => exact absurd (of_validateBlock h hr) hv

theorem valid_of_acknowledged {c : Chain} (h : Acknowledged (c.validateBlock E block)) :
    ValidBlock E c.config c.blocks block := by
  rcases validateBlock_cases E c block with ⟨hv, -⟩ | ⟨-, e, he⟩ | ⟨-, r, hr, hinvalid⟩
  · exact hv
  · simp [he, Acknowledged] at h
  · simp [hr, hinvalid, Acknowledged] at h

theorem acknowledged_validateBlock {c : Chain} :
    Acknowledged (c.validateBlock E block) ↔ ValidBlock E c.config c.blocks block :=
  ⟨valid_of_acknowledged, fun h => by simp [validateBlock_ok h, Acknowledged]⟩

theorem appendBlock_cases (E : Env) (c : Chain) (block : Block) :
    (ValidBlock E c.config c.blocks block ∧
      c.appendBlock E block = (.ok ⟨true, .none, noIndex⟩, c.push block)) ∨
    (¬ValidBlock E c.config c.blocks block ∧
      ∃ outcome, ¬Acknowledged outcome ∧ c.appendBlock E block = (outcome, c)) := by
  rcases validateBlock_cases E c block with ⟨hv, h⟩ | ⟨hv, e, h⟩ | ⟨hv, r, h, hr⟩
  · exact .inl ⟨hv, by simp [appendBlock, h]⟩
  · exact .inr ⟨hv, .error e, id, by simp [appendBlock, h]⟩
  · exact .inr ⟨hv, .ok r, by simp [Acknowledged, hr], by simp [appendBlock, h, hr]⟩

theorem restoreLoop_reject {c : Chain} {blocks : List Block}
    (h : ¬ValidBlock E c.config c.blocks block) :
    (c.restoreLoop E (block :: blocks)).2 = c := by
  rcases appendBlock_cases E c block with ⟨hv, -⟩ | ⟨-, outcome, hno, happend⟩
  · exact (h hv).elim
  · rw [restoreLoop, happend]
    cases outcome with
    | error e => rfl
    | ok result => simp [show result.isValid = false by simpa [Acknowledged] using hno]

theorem restoreLoop_accept {c : Chain} {blocks : List Block}
    (h : ValidBlock E c.config c.blocks block) :
    c.restoreLoop E (block :: blocks) = (c.push block).restoreLoop E blocks := by
  have happend : c.appendBlock E block = (.ok ⟨true, .none, noIndex⟩, c.push block) := by
    simp [appendBlock, validateBlock_ok h]
  simp [restoreLoop, happend]

/-- What the loop adds to the chain are the first blocks that it is given. -/
theorem restoreLoop_take (c : Chain) (blocks : List Block) :
    ∃ k, (c.restoreLoop E blocks).2 = { c with blocks := c.blocks ++ blocks.take k } := by
  induction blocks generalizing c with
  | nil => exact ⟨0, by simp [restoreLoop]⟩
  | cons block blocks ih =>
    by_cases hv : ValidBlock E c.config c.blocks block
    · obtain ⟨k, hk⟩ := ih (c.push block)
      exact ⟨k + 1, by rw [restoreLoop_accept hv, hk]; simp [push]⟩
    · exact ⟨0, by rw [restoreLoop_reject hv]; simp⟩

/-- A block that does not validate never reaches the store. -/
theorem appendAndStore_cases (E : Env) (c : Chain) (block : Block) (io : AppendTransfers)
    (store : BlockStore) :
    (ValidBlock E c.config c.blocks block ∧ (store.appendBlock E io block).1 = .ok () ∧
      c.appendAndStore E block io store =
        (.ok ⟨true, .none, noIndex⟩, c.push block, (store.appendBlock E io block).2)) ∨
    (ValidBlock E c.config c.blocks block ∧ (∃ e, (store.appendBlock E io block).1 = .error e) ∧
      c.appendAndStore E block io store =
        (.ok ⟨false, .none, noIndex⟩, c, (store.appendBlock E io block).2)) ∨
    (¬ValidBlock E c.config c.blocks block ∧ ∃ outcome, ¬Acknowledged outcome ∧
      c.appendAndStore E block io store = (outcome, c, store)) := by
  rcases validateBlock_cases E c block with ⟨hv, h⟩ | ⟨hv, e, h⟩ | ⟨hv, r, h, hr⟩
  · rcases hs : store.appendBlock E io block with ⟨e | _, store'⟩
    · exact .inr (.inl ⟨hv, ⟨e, rfl⟩, by simp [appendAndStore, h, hs]⟩)
    · exact .inl ⟨hv, rfl, by simp [appendAndStore, h, hs]⟩
  · exact .inr (.inr ⟨hv, .error e, id, by simp [appendAndStore, h]⟩)
  · exact .inr (.inr ⟨hv, .ok r, by simp [Acknowledged, hr], by simp [appendAndStore, h, hr]⟩)

theorem acknowledged_appendAndStore {c : Chain} :
    Acknowledged (c.appendAndStore E block io store).1 ↔
      ValidBlock E c.config c.blocks block ∧ (store.appendBlock E io block).1 = .ok () := by
  rcases appendAndStore_cases E c block io store with
    ⟨hv, hs, h⟩ | ⟨hv, ⟨e, he⟩, h⟩ | ⟨hv, outcome, hno, h⟩
  · simp [h, hv, hs, Acknowledged]
  · simp [h, he, Acknowledged]
  · simp [h, hv, hno]

theorem store_of_acknowledged {c : Chain}
    (h : Acknowledged (c.appendAndStore E block io store).1) :
    (c.appendAndStore E block io store).2.2 = (store.appendBlock E io block).2 := by
  rcases appendAndStore_cases E c block io store with
    ⟨-, -, heq⟩ | ⟨-, -, heq⟩ | ⟨-, outcome, hno, heq⟩
  · rw [heq]
  · rw [heq]
  · rw [heq] at h
    exact absurd h hno

def Accepts (E : Env) (c c' : Chain) : Prop :=
  ∃ block, ValidBlock E c.config c.blocks block ∧ c' = c.push block

def Grows (E : Env) : Chain → Chain → Prop := Relation.ReflTransGen (Accepts E)

theorem appendBlock_grows : Grows E c (c.appendBlock E block).2 := by
  rcases appendBlock_cases E c block with ⟨hv, h⟩ | ⟨-, _, -, h⟩ <;> rw [h]
  · exact .single ⟨block, hv, rfl⟩
  · exact .refl

theorem restoreLoop_grows {blocks : List Block} : Grows E c (c.restoreLoop E blocks).2 := by
  induction blocks generalizing c with
  | nil => exact .refl
  | cons block blocks ih =>
    by_cases hv : ValidBlock E c.config c.blocks block
    · rw [restoreLoop_accept hv]
      exact .head ⟨block, hv, rfl⟩ ih
    · rw [restoreLoop_reject hv]
      exact .refl

theorem restoreFromStore_grows : Grows E c (c.restoreFromStore E store).2 := by
  unfold restoreFromStore
  split
  · exact .refl
  · exact restoreLoop_grows

theorem appendAndStore_grows : Grows E c (c.appendAndStore E block io store).2.1 := by
  rcases appendAndStore_cases E c block io store with
    ⟨hv, -, h⟩ | ⟨-, -, h⟩ | ⟨-, _, -, h⟩ <;> rw [h]
  · exact .single ⟨block, hv, rfl⟩
  · exact .refl
  · exact .refl

theorem Grows.validChain (h : Grows E c c') (hv : ValidChain E history)
    (hc : history.map Accepted.block = c.blocks) :
    c'.config = c.config ∧ ∃ new, c'.blocks = c.blocks ++ new ∧
      ValidChain E (history ++ new.map (Accepted.mk · c.config)) := by
  induction h with
  | refl => exact ⟨rfl, [], by simp, by simpa using hv⟩
  | tail _ haccepts ih =>
    obtain ⟨block, hblock, rfl⟩ := haccepts
    obtain ⟨hconfig, new, hnew, hvalid⟩ := ih
    refine ⟨hconfig, new ++ [block], by simp [push, hnew], ?_⟩
    have hblocks : (history ++ new.map (Accepted.mk · c.config)).map Accepted.block =
        c.blocks ++ new := by simp [hc, Function.comp_def]
    rw [List.map_append, List.map_singleton, ← List.append_assoc]
    refine hvalid.snoc ?_
    rwa [hblocks, ← hnew, ← hconfig]

end Chain

-- ---------------------------------------------------------------------------
-- Whole runs
-- ---------------------------------------------------------------------------

inductive ChainOp
  | appendBlock (block : Block)
  | appendAndStore (block : Block) (io : AppendTransfers) (store : BlockStore)
  | restoreFromStore (store : BlockStore)
  | setDifficultyBits (bits : UInt32)

def ChainOp.apply (E : Env) (c : Chain) : ChainOp → Chain
  | .appendBlock block => (c.appendBlock E block).2
  | .appendAndStore block io store => (c.appendAndStore E block io store).2.1
  | .restoreFromStore store => (c.restoreFromStore E store).2
  | .setDifficultyBits bits => c.setDifficultyBits bits

structure ChainRun where
  chain : Chain
  history : List Accepted := []

namespace ChainRun

/-- No operation both changes the configuration and adds blocks, so that the
blocks it added were accepted under the configuration it found. -/
def step (E : Env) (run : ChainRun) (op : ChainOp) : ChainRun :=
  let chain := op.apply E run.chain
  let added := chain.blocks.drop run.chain.height
  { chain, history := run.history ++ added.map (Accepted.mk · run.chain.config) }

def steps (E : Env) (run : ChainRun) (ops : List ChainOp) : ChainRun := ops.foldl (step E) run

def start (E : Env) (config : ChainConfig) (ops : List ChainOp) : ChainRun :=
  steps E { chain := { config } } ops

structure Valid (E : Env) (run : ChainRun) : Prop where
  recorded : run.history.map Accepted.block = run.chain.blocks
  valid : ValidChain E run.history

theorem step_valid (h : Valid E run) : Valid E (step E run op) := by
  have hgrows (c' : Chain) (hgrows : Chain.Grows E run.chain c') : Valid E
      { chain := c', history := run.history ++
        (c'.blocks.drop run.chain.height).map (Accepted.mk · run.chain.config) } := by
    obtain ⟨-, new, hnew, hvalid⟩ := hgrows.validChain h.valid h.recorded
    have hdrop : c'.blocks.drop run.chain.height = new := by simp [hnew, Chain.height]
    rw [hdrop]
    exact ⟨by simp [h.recorded, hnew, Function.comp_def], hvalid⟩
  cases op with
  | appendBlock block => exact hgrows _ Chain.appendBlock_grows
  | appendAndStore block io store => exact hgrows _ Chain.appendAndStore_grows
  | restoreFromStore store => exact hgrows _ Chain.restoreFromStore_grows
  | setDifficultyBits bits =>
    have hsame : step E run (.setDifficultyBits bits) =
        { run with chain := run.chain.setDifficultyBits bits } := by
      simp [step, ChainOp.apply, Chain.setDifficultyBits, Chain.height]
    rw [hsame]
    exact ⟨h.recorded, h.valid⟩

theorem steps_valid (h : Valid E run) : Valid E (steps E run ops) := by
  induction ops generalizing run with
  | nil => exact h
  | cons op ops ih => exact ih (step_valid h)

theorem start_valid (E : Env) (config : ChainConfig) (ops : List ChainOp) :
    Valid E (start E config ops) := steps_valid ⟨rfl, .nil⟩

end ChainRun

def Chain.Reachable (E : Env) (c : Chain) : Prop :=
  ∃ config ops, (ChainRun.start E config ops).chain = c

theorem Chain.Reachable.apply {c : Chain} (h : c.Reachable E) (op : ChainOp) :
    (op.apply E c).Reachable E := by
  obtain ⟨config, ops, rfl⟩ := h
  exact ⟨config, ops ++ [op], by simp [ChainRun.start, ChainRun.steps, ChainRun.step]⟩

-- ---------------------------------------------------------------------------
-- The invariant
-- ---------------------------------------------------------------------------

structure ChainInvariant (E : Env) (run : ChainRun) : Prop where
  recorded : run.history.map Accepted.block = run.chain.blocks
  genesis : ∀ block, run.chain.blocks[0]? = some block → block.header.prevHash = Hash256.zero
  linked : ∀ (i : Nat) parent block, run.chain.blocks[i]? = some parent →
    run.chain.blocks[i + 1]? = some block → block.header.prevHash = parent.header.hash E.sha256
  ordered : ∀ (i j : Nat) earlier later, i < j → run.chain.blocks[i]? = some earlier →
    run.chain.blocks[j]? = some later → earlier.header.timestamp ≤ later.header.timestamp
  merkle : ∀ block ∈ run.chain.blocks,
    block.header.merkleRoot = computeMerkleRoot E.sha256 block.transactions
  coinbase : ∀ (i j : Nat) block tx, run.chain.blocks[i]? = some block →
    block.transactions[j]? = some tx → (tx.fromPubPem = [] ↔ i = 0 ∧ j = 0)
  verified : ∀ (i j : Nat) block tx, run.chain.blocks[i]? = some block →
    block.transactions[j]? = some tx → ¬(i = 0 ∧ j = 0) → tx.verify E = .ok true
  worked : ∀ (i : Nat) accepted, run.history[i]? = some accepted →
    (i = 0 ∧ accepted.config.enforceGenesisPow = false) ∨
      meetsDifficulty accepted.config.difficultyBits
        (accepted.block.header.hash E.sha256) = true

namespace ChainRun.Valid

variable {E : Env} {run : ChainRun} {block : Block}

theorem accepted (h : Valid E run) (hb : run.chain.blocks[i]? = some block) :
    ∃ config, run.history[i]? = some ⟨block, config⟩ ∧
      ValidBlock E config (run.chain.blocks.take i) block := by
  rw [← h.recorded, List.getElem?_map, Option.map_eq_some_iff] at hb
  obtain ⟨⟨_, config⟩, ha, rfl⟩ := hb
  refine ⟨config, ha, ?_⟩
  have hadmitted := Grown.admitted h.valid ha
  rwa [List.map_take, h.recorded] at hadmitted

theorem placed_zero (h : Valid E run) (hb : run.chain.blocks[0]? = some block) :
    Placed E.sha256 none block := by
  obtain ⟨_, -, hv⟩ := h.accepted hb
  exact hv.placed

theorem placed_succ {parent : Block} (h : Valid E run) (hp : run.chain.blocks[i]? = some parent)
    (hb : run.chain.blocks[i + 1]? = some block) : Placed E.sha256 (some parent) block := by
  obtain ⟨_, -, hv⟩ := h.accepted hb
  rw [← getLast?_take_succ hp]
  exact hv.placed

theorem timestamp_le {i k : Nat} {earlier later : Block} (h : Valid E run)
    (hi : run.chain.blocks[i]? = some earlier) (hj : run.chain.blocks[i + k]? = some later) :
    earlier.header.timestamp ≤ later.header.timestamp := by
  induction k generalizing later with
  | zero =>
    cases hi.symm.trans hj
    exact UInt64.le_refl _
  | succ k ih =>
    obtain ⟨hlt, -⟩ := List.getElem?_eq_some_iff.mp hj
    have hk := List.getElem?_eq_getElem (Nat.lt_of_succ_lt hlt)
    exact UInt64.le_trans (ih hk) (h.placed_succ hk hj).2.1

theorem parent_some (hb : run.chain.blocks[i + 1]? = some block) :
    ∃ parent, run.chain.blocks[i]? = some parent := by
  obtain ⟨hlt, -⟩ := List.getElem?_eq_some_iff.mp hb
  exact ⟨_, List.getElem?_eq_getElem (Nat.lt_of_succ_lt hlt)⟩

theorem coinbase {tx : Transaction} (h : Valid E run) (hb : run.chain.blocks[i]? = some block)
    (htx : block.transactions[j]? = some tx) : tx.fromPubPem = [] ↔ i = 0 ∧ j = 0 := by
  cases i with
  | zero => simpa using (h.placed_zero hb).2 j tx htx
  | succ i =>
    obtain ⟨parent, hp⟩ := parent_some hb
    have hne := (h.placed_succ hp hb).2.2 tx (List.mem_of_getElem? htx)
    simp [hne]

theorem verified {tx : Transaction} (h : Valid E run) (hb : run.chain.blocks[i]? = some block)
    (htx : block.transactions[j]? = some tx) (hij : ¬(i = 0 ∧ j = 0)) : tx.verify E = .ok true := by
  obtain ⟨_, -, hv⟩ := h.accepted hb
  rcases hv.signed j tx htx with ⟨-, -, hempty⟩ | hok
  · exact absurd ((h.coinbase hb htx).mp hempty) hij
  · exact hok

theorem worked {a : Accepted} (h : Valid E run) (ha : run.history[i]? = some a) :
    (i = 0 ∧ a.config.enforceGenesisPow = false) ∨
      meetsDifficulty a.config.difficultyBits (a.block.header.hash E.sha256) = true := by
  rcases (Grown.admitted h.valid ha).worked with ⟨hg, he⟩ | hm
  · refine .inl ⟨?_, he⟩
    obtain ⟨hi, -⟩ := List.getElem?_eq_some_iff.mp ha
    have hempty : run.history.take i = [] := by simpa using hg
    rcases List.take_eq_nil_iff.mp hempty with rfl | hnil
    · rfl
    · simp [hnil] at hi
  · exact .inr hm

end ChainRun.Valid

/-- Every chain that any operations make of an empty one. -/
theorem chain_invariant (E : Env) (config : ChainConfig) (ops : List ChainOp) :
    ChainInvariant E (ChainRun.start E config ops) := by
  have h := ChainRun.start_valid E config ops
  refine
    { recorded := h.recorded
      genesis := fun block hb => (h.placed_zero hb).1
      linked := fun i parent block hp hb => (h.placed_succ hp hb).1
      ordered := ?_
      merkle := ?_
      coinbase := fun i j block tx hb htx => h.coinbase hb htx
      verified := fun i j block tx hb htx hij => h.verified hb htx hij
      worked := fun i accepted ha => h.worked ha }
  · intro i j earlier later hlt hi hj
    obtain ⟨k, rfl⟩ := Nat.le.dest (Nat.le_of_lt hlt)
    exact h.timestamp_le hi hj
  · intro block hb
    obtain ⟨i, hi⟩ := List.getElem?_of_mem hb
    obtain ⟨_, -, hv⟩ := h.accepted hi
    exact hv.merkle

end Astro
