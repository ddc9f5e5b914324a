import Astro.Core.Verdict
import Astro.Tui.Lifetimes

/-!
# What can end the program

Nothing in tui.cpp catches what `append_and_store`, `generate_ec_keypair` or
`sign` throw. As long as the system and OpenSSL do what they are asked for,
none of them throws, in any interleaving and after any restart: every block
that is submitted carries signatures that verify. What is left is the thread
that is assigned to a joinable one.
-/

namespace Astro

theorem Chain.appendAndStore_error {c : Chain} (h : (c.appendAndStore E block io store).1 = .error e) :
    c.validateBlock E block = .error e := by
  unfold appendAndStore at h
  cases hv : c.validateBlock E block with
  | error e' =>
    rw [hv] at h
    exact h
  | ok result =>
    rw [hv] at h
    dsimp only at h
    split at h
    · cases h
    · split at h <;> cases h

namespace Tui

/-- The log is served, and OpenSSL makes keys that work. -/
def Works (E : Env) (t : Tui) : Option Label → Prop
  | some label => Served t (some label) ∧
      ∀ signer, label.signer = some signer → signer.Matching E
  | none => True

theorem Works.served (h : Works E t label) : Served t label := by
  cases label with
  | none => trivial
  | some label => exact h.1

theorem works_mines (h : Works E t (some label)) (signer : Signer) (clock : Nat → UInt64)
    (tx : Transaction) (hlabel : label = .key (.mine signer clock))
    (hsigned : signer.signed App.minerReward = .ok tx) : Verifying E [tx] := by
  have hmatching := h.2 signer (by rw [hlabel]; rfl)
  obtain ⟨tx', htx', hverifying⟩ := hmatching.signed App.minerReward
  cases hsigned.symm.trans htx'
  exact hverifying

theorem Submits.keysParse {t : Tui} {c : Chain} (h : Submits E t label c block io)
    (hworks : Works E t (some label)) (hcarries : Carries (Verifying E) t) :
    KeysParse E c block := by
  cases h with
  | genesis hempty =>
    have hnil : t.app.chain.blocks.isEmpty = true := by
      simpa [Chain.height] using hempty
    intro i tx e htx hthrow
    have hfirst : i = 0 ∧ tx.fromPubPem = [] := by
      cases i with
      | zero =>
        cases htx
        exact ⟨rfl, rfl⟩
      | succ i => simp [makeGenesisBlock] at htx
    exact .inr (.inr (.inl ⟨hnil, hfirst⟩))
  | append htip hsigned =>
    obtain ⟨tx', htx', hverifying⟩ := (hworks.2 _ rfl).signed (App.nextTransfer _)
    cases hsigned.symm.trans htx'
    exact hverifying.keysParse
  | mined _ _ => exact hcarries.minedBlock.keysParse

/-- No handler throws. -/
theorem step_not_uncaught {t t' : Tui} (hcarries : Carries (Verifying E) t)
    (hworks : Works E t (some label)) (hs : t.step E label = some t') (e : Exn) :
    t'.pc ≠ .stopped (some (.uncaught e)) := by
  intro hpc
  cases effect_of_step hs with
  | keeps _ _ hfault =>
    obtain ⟨signer, tx, hsigner, herror⟩ := hfault e hpc
    obtain ⟨tx', htx', -⟩ := (hworks.2 signer hsigner).signed tx
    rw [htx'] at herror
    cases herror
  | submits c block io hsubmits _ hfault =>
    have huncaught := (hfault _).mp hpc
    cases hresult : (c.appendAndStore E block io t.app.store).1 with
    | error e' =>
      have hthrows := Chain.appendAndStore_error hresult
      exact Chain.validateBlock_ne_error (hsubmits.keysParse hworks hcarries) hthrows
    | ok result =>
      rw [hresult] at huncaught
      cases huncaught
  | clears _ _ _ hpc' => simp [hpc'] at hpc

/-- What holds between steps, as long as everything works. -/
structure Faultless (E : Env) (t : Tui) : Prop where
  ledgered : Ledgered E t
  sound : Sound t
  verifying : Carries (Verifying E) t
  caught : ∀ e, t.pc ≠ .stopped (some (.uncaught e))

theorem start_faultless (hE : E.Roomy) (hstore : Persisted E store blocks [])
    (hvalid : ValidUnder E {} blocks) : Faultless E (start E store) := by
  refine ⟨start_ledgered hE hstore hvalid, start_sound E store, ?_, ?_⟩ <;>
    rw [start_restored hE hstore hvalid]
  · exact ⟨by simp [Verifying], by simp⟩
  · simp

theorem step_faultless {t t' : Tui} (hE : E.Roomy) (h : Faultless E t) (hworks : Works E t label)
    (hs : t.lifetimes E label = some t') : Faultless E t' := by
  cases label with
  | none =>
    cases hs
    exact start_faultless hE h.ledgered.persisted h.ledgered.valid
  | some label =>
    exact ⟨(step_ledgered h.ledgered hworks.served hs).1, step_sound h.sound hs,
      step_carries h.verifying (works_mines hworks) hs, step_not_uncaught h.verifying hworks hs⟩

/-- The states of the program between which everything works. -/
def Prospers (E : Env) (store : BlockStore) : Tui → Prop :=
  Machine.Run (lifetimes E) (Works E) (start E store)

theorem Prospers.faultless (h : Prospers E store t) (hE : E.Roomy)
    (hstore : Persisted E store blocks []) (hvalid : ValidUnder E {} blocks) : Faultless E t :=
  h.invariant (start_faultless hE hstore hvalid) fun _ _ _ h hworks hs =>
    step_faultless hE h hworks hs

theorem works_sample {label : Label} (h : label ∈ sampleKeys ++ sampleMining) (t : Tui) :
    Works sampleEnv t (some label) := by
  refine ⟨(served_sample h t).1, fun signer hsigner => ?_⟩
  simp only [sampleKeys, sampleMining, List.mem_append, List.mem_cons, List.mem_replicate,
    List.not_mem_nil, or_false] at h
  rcases h with ((rfl | rfl) | ⟨-, rfl⟩) | (rfl | ⟨-, rfl⟩) | rfl | rfl <;> cases hsigner
  exact sampleSigner_matching

end Tui

end Astro
