import Astro.Library.Ledger
import Astro.Library.Simulation
import Astro.Tui.Effects
import Astro.Tui.Signers

/-!
# Any number of lifetimes over one log

The program may be killed between any two steps, while a worker is mining or a
block is pending, and started again on the log that it has left. As long as
the system does what the log is asked for, all of this refines a ledger: the
chain, the log and what a restart makes of the log are one list of blocks,
which grows at its end until it is cleared.
-/

namespace Astro

open GrownList
open Relation (ReflTransGen)
open BlockStore (Storable)

/-- No transfer to the log fails. -/
def Label.Clean : Label → Prop
  | .loopHead io | .key (.genesis _ io) | .key (.append _ _ io) => io.Clean
  | _ => True

namespace Tui

-- ---------------------------------------------------------------------------
-- Restarts
-- ---------------------------------------------------------------------------

/-- A step of the program, or its end and another start. -/
def lifetimes (E : Env) (t : Tui) : Option Label → Option Tui
  | some label => t.step E label
  | none => some (start E t.app.store)

/-- The system serves the log, and OpenSSL makes no giant keys. -/
def Served (_ : Tui) : Option Label → Prop
  | some label => label.Clean ∧ ∀ signer, label.signer = some signer → signer.Short
  | none => True

/-- What holds between steps, as long as the log is served. -/
structure Ledgered (E : Env) (t : Tui) : Prop where
  persisted : Persisted E t.app.store t.app.chain.blocks []
  valid : ValidUnder E {} t.app.chain.blocks
  slim : Carries Slim t

theorem start_restored (hE : E.Roomy) (hstore : Persisted E store blocks [])
    (hvalid : ValidUnder E {} blocks) : start E store = { app := { chain := { blocks }, store } } := by
  unfold start
  rw [hstore.restore hE hvalid]
  rfl

theorem start_ledgered (hE : E.Roomy) (hstore : Persisted E store blocks [])
    (hvalid : ValidUnder E {} blocks) : Ledgered E (start E store) := by
  rw [start_restored hE hstore hvalid]
  exact ⟨hstore, hvalid, ⟨Nat.zero_le 1, by simp⟩, by simp⟩

theorem Submits.storable {t : Tui} {c : Chain} (h : Submits E t label c block io)
    (hserved : Served t (some label)) (hslim : Carries Slim t) :
    Storable block ∧ io.Clean ∧ c.blocks = t.app.chain.blocks := by
  obtain ⟨hclean, hshort⟩ := hserved
  cases h with
  | genesis _ => exact ⟨storable_of_slim (slim_makeGenesisBlock (by decide)), hclean, rfl⟩
  | append _ hsigned =>
    have hlabel : (text "darth vader").length < 2 ^ 30 := by decide
    exact ⟨storable_of_slim ((hshort _ rfl).slim hlabel hsigned), hclean, rfl⟩
  | mined _ _ => exact ⟨storable_of_slim hslim.minedBlock, hclean, rfl⟩

theorem served_mines (h : Served t (some label)) (signer : Signer) (clock : Nat → UInt64)
    (tx : Transaction) (hlabel : label = .key (.mine signer clock))
    (hsigned : signer.signed App.minerReward = .ok tx) : Slim [tx] := by
  have hshort := h.2 signer (by rw [hlabel]; rfl)
  have hreward : (text "miner-reward").length < 2 ^ 30 := by decide
  exact hshort.slim hreward hsigned

/-- A step of the program keeps chain and log together, and adds at most one
valid block unless it clears them. -/
theorem step_ledgered {t t' : Tui} (h : Ledgered E t) (hserved : Served t (some label))
    (hs : t.step E label = some t') :
    Ledgered E t' ∧ (t'.app.chain.blocks = t.app.chain.blocks ∨
      Ledger.Appends (ValidBlock E {}) t.app.chain.blocks t'.app.chain.blocks ∨
      Clears t label ∧ t'.app.chain.blocks = []) := by
  have hslim := step_carries h.slim (served_mines hserved) hs
  have hsame (hblocks : t'.app.chain.blocks = t.app.chain.blocks)
      (hstore : t'.app.store = t.app.store) : Ledgered E t' :=
    ⟨hblocks ▸ hstore ▸ h.persisted, hblocks ▸ h.valid, hslim⟩
  cases effect_of_step hs with
  | keeps hchain hstore _ => exact ⟨hsame (by rw [hchain]) hstore, .inl (by rw [hchain])⟩
  | submits c block io hsubmits hresult _ =>
    obtain ⟨hblock, hio, hblocks⟩ := hsubmits.storable hserved h.slim
    have hstored := BlockStore.appendBlock_clean E block hio h.persisted.canWrite
    rcases Chain.appendAndStore_cases E c block io t.app.store with
      ⟨hv, -, heq⟩ | ⟨-, ⟨e, he⟩, -⟩ | ⟨-, outcome, -, heq⟩
    · rw [heq, hstored] at hresult
      obtain ⟨hchain, hstore⟩ := Prod.mk.inj hresult
      have hpushed : t'.app.chain.blocks = t.app.chain.blocks ++ [block] := by
        rw [hchain, Chain.push, hblocks]
      have hvalid := hblocks ▸ validBlock_default hv
      refine ⟨⟨?_, ?_, hslim⟩, .inr (.inl ?_)⟩
      · rw [hpushed, hstore]
        exact h.persisted.append hblock
      · rw [hpushed]
        exact h.valid.snoc hvalid
      · rw [hpushed]
        exact .append hvalid
    · rw [hstored] at he
      cases he
    · rw [heq] at hresult
      obtain ⟨hchain, hstore⟩ := Prod.mk.inj hresult
      exact ⟨hsame (by rw [hchain, hblocks]) hstore, .inl (by rw [hchain, hblocks])⟩
  | clears hclears hchain hstore _ =>
    have hempty : t'.app.chain.blocks = [] := by rw [hchain]
    refine ⟨⟨?_, hempty ▸ .nil, hslim⟩, .inr (.inr ⟨hclears, hempty⟩)⟩
    rw [hempty, hstore]
    exact ⟨h.persisted.canRead, h.persisted.canWrite, ⟨[], rfl, .nil⟩, torn_nil⟩

theorem restart_ledgered (hE : E.Roomy) {t : Tui} (h : Ledgered E t) :
    Ledgered E (start E t.app.store) ∧
      (start E t.app.store).app.chain.blocks = t.app.chain.blocks := by
  refine ⟨start_ledgered hE h.persisted h.valid, ?_⟩
  rw [start_restored hE h.persisted h.valid]

/-- Nothing is cleared. -/
def Keeps (t : Tui) (label : Option Label) : Prop := ∀ l, label = some l → ¬Clears t l

/-- The states of the program between which the log is always served. -/
def Lives (E : Env) (store : BlockStore) : Tui → Prop :=
  Machine.Run (lifetimes E) Served (start E store)

theorem Lives.ledgered (h : Lives E store t) (hE : E.Roomy) (hstore : Persisted E store blocks [])
    (hvalid : ValidUnder E {} blocks) : Ledgered E t :=
  h.invariant (start_ledgered hE hstore hvalid) fun t label t' h hserved hs => by
    cases label with
    | none =>
      cases hs
      exact (restart_ledgered hE h).1
    | some label => exact (step_ledgered h hserved hs).1

-- ---------------------------------------------------------------------------
-- A sample life
-- ---------------------------------------------------------------------------

def sampleIo : AppendTransfers := .buffered none none

/-- A worker mines a second block, and the main loop appends it. -/
def sampleMining : List Label :=
  sampleMineKey :: List.replicate 5 .worker ++ [.noKey, .loopHead sampleIo]

theorem served_sample {label : Label} (h : label ∈ sampleKeys ++ sampleMining) (t : Tui) :
    Served t (some label) ∧ Keeps t (some label) := by
  have hcases : label = .loopHead sampleIo ∨ label = sampleGenesisKey ∨ label = .key .easier ∨
      label = sampleMineKey ∨ label = .worker ∨ label = .noKey := by
    simp only [sampleKeys, sampleMining, sampleIo, List.mem_append, List.mem_cons,
      List.mem_replicate, List.not_mem_nil, or_false] at h ⊢
    tauto
  have hio : sampleIo.Clean := by decide
  refine ⟨?_, fun l hl hclears => ?_⟩
  · rcases hcases with rfl | rfl | rfl | rfl | rfl | rfl
    · exact ⟨hio, by simp [Label.signer]⟩
    · exact ⟨hio, by simp [Label.signer, sampleGenesisKey]⟩
    · exact ⟨trivial, by simp [Label.signer]⟩
    · refine ⟨trivial, fun signer hsigner => ?_⟩
      cases hsigner
      exact sampleSigner_short
    · exact ⟨trivial, by simp [Label.signer]⟩
    · exact ⟨trivial, by simp [Label.signer]⟩
  · cases hl
    rcases hcases with rfl | rfl | rfl | rfl | rfl | rfl <;> exact hclears

end Tui

end Astro
