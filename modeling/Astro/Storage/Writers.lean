import Astro.Library.Machine
import Astro.Storage.Damage
import Mathlib.Logic.Function.Basic

/-!
# Several programs with one log open

Nothing keeps two programs from opening ./data at once. Each has a chain of
its own, which it checks its blocks against, and all of them append to the one
log. The first block that is appended by a program that has not seen the whole
log ends what a restart makes of it, for good: that block and all later ones
are acknowledged, written, and lost.
-/

namespace Astro

open GrownList
open BlockStore (Storable)

structure Writers (ι : Type) where
  store : BlockStore
  chains : ι → Chain

inductive WriterOp (ι : Type)
  | restart (i : ι)
  | append (i : ι) (block : Block) (io : AppendTransfers)
  | setDifficultyBits (i : ι) (bits : UInt32)
  | clear (i : ι)

/-- The system serves the log, which can hold the block. -/
def WriterOp.Served : WriterOp ι → Prop
  | .append _ block io => io.Clean ∧ Storable block
  | _ => True

/-- The log is not cleared. -/
def WriterOp.Keeps : WriterOp ι → Prop
  | .clear _ => False
  | _ => True

namespace Writers

variable {ι : Type} {E : Env} {w w' : Writers ι} {blocks : List Block}

def setChain [DecidableEq ι] (w : Writers ι) (i : ι) (chain : Chain) : Writers ι :=
  { w with chains := Function.update w.chains i chain }

/-- What a program that starts makes of the log. -/
def restored (E : Env) (w : Writers ι) : Chain := (({} : Chain).restoreFromStore E w.store).2

def step [DecidableEq ι] (E : Env) (w : Writers ι) : WriterOp ι → Writers ι
  | .restart i => w.setChain i (w.restored E)
  | .append i block io =>
    let (_, chain, store) := (w.chains i).appendAndStore E block io w.store
    { w.setChain i chain with store }
  | .setDifficultyBits i bits => w.setChain i ((w.chains i).setDifficultyBits bits)
  | .clear i =>
    let (chain, store) := doClearStore (w.chains i) w.store
    { w.setChain i chain with store }

/-- Programs that have all started on one log. -/
def start (E : Env) (store : BlockStore) : Writers ι :=
  { store, chains := fun _ => (({} : Chain).restoreFromStore E store).2 }

/-- The log is one chain, and every program has some valid chain. -/
structure Whole (E : Env) (w : Writers ι) (blocks : List Block) : Prop where
  persisted : Persisted E w.store blocks []
  valid : ValidUnder E {} blocks
  views : ∀ i, ValidUnder E {} (w.chains i).blocks

/-- Behind the blocks that a restart finds, the log has a block that does not
fit there. -/
structure Forked (E : Env) (w : Writers ι) (blocks : List Block) (block : Block) : Prop where
  persisted : ∃ rest, Persisted E w.store (blocks ++ block :: rest) []
  valid : ValidUnder E {} blocks
  misplaced : ¬ValidBlock E {} blocks block
  views : ∀ i, ValidUnder E {} (w.chains i).blocks

theorem Whole.restored (h : Whole E w blocks) (hE : E.Roomy) : w.restored E = { blocks } := by
  rw [Writers.restored, h.persisted.restore hE h.valid]

/-- The loop stops at a block that does not fit. -/
theorem restoreLoop_stops {c : Chain} {front : List Block}
    (h : ValidUnder E c.config (c.blocks ++ front))
    (hno : ¬ValidBlock E c.config (c.blocks ++ front) block) :
    (c.restoreLoop E (front ++ block :: rest)).2 = { c with blocks := c.blocks ++ front } := by
  induction front generalizing c with
  | nil =>
    rw [List.append_nil] at hno ⊢
    exact Chain.restoreLoop_reject hno
  | cons first front ih =>
    rw [List.cons_append, Chain.restoreLoop_accept h.of_split]
    have hassoc : (c.push first).blocks ++ front = c.blocks ++ first :: front := by
      simp [Chain.push]
    have hrest := ih (c := c.push first) (hassoc ▸ h) (hassoc ▸ hno)
    rw [hrest, hassoc]
    rfl

theorem Forked.restored (h : Forked E w blocks block) (hE : E.Roomy) :
    w.restored E = { blocks } := by
  obtain ⟨rest, hstore⟩ := h.persisted
  rw [Writers.restored, Chain.restoreFromStore, hstore.load hE]
  exact restoreLoop_stops (c := {}) h.valid h.misplaced

variable [DecidableEq ι]

/-- An append is refused, or the block is valid behind the program's own chain
and stands at the end of both. -/
theorem append_cases {block : Block} (hstore : Persisted E w.store blocks []) (hio : io.Clean)
    (hstorable : Storable block) :
    (¬Acknowledged ((w.chains i).appendAndStore E block io w.store).1 ∧
      w.step E (.append i block io) = w.setChain i (w.chains i)) ∨
    (Acknowledged ((w.chains i).appendAndStore E block io w.store).1 ∧
      ValidBlock E {} (w.chains i).blocks block ∧
      (w.step E (.append i block io)).chains = (w.setChain i ((w.chains i).push block)).chains ∧
      Persisted E (w.step E (.append i block io)).store (blocks ++ [block]) []) := by
  have hclean := BlockStore.appendBlock_clean E block hio hstore.canWrite
  rcases Chain.appendAndStore_cases E (w.chains i) block io w.store with
    ⟨hv, -, h⟩ | ⟨-, ⟨e, he⟩, -⟩ | ⟨-, outcome, hno, h⟩
  · rw [hclean] at h
    refine .inr ⟨by rw [h]; rfl, validBlock_default hv, ?_, ?_⟩
    · simp [step, h]
    · simp only [step, h]
      exact hstore.append hstorable
  · rw [hclean] at he
    cases he
  · exact .inl ⟨by rwa [h], by simp [step, h, setChain]⟩

end Writers

end Astro
