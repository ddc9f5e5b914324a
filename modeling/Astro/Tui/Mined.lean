import Astro.Core.MinerLaws
import Astro.Tui.Moves

/-!
# The verdict on a mined block

Between the start of a worker and the verdict on its block, any keys may be
pressed that leave the chain as it is. The block was then mined for this chain
at the difficulty of the start, but it is judged by that of the verdict.
-/

namespace Astro

/-- The block is what `mine_block` returns to this worker when it is left alone. -/
def FoundBy (E : Env) (chain : Chain) (worker : Worker) (block : Block) : Prop :=
  ∃ fuel, mineBlock E chain worker.transactions worker.difficulty worker.clock (fun _ => false)
    fuel = some (.ok (block, worker.clockReadings))

/-- How far the worker is with a block for this chain. -/
def Progress (E : Env) (chain : Chain) (mining : MiningState) (worker : Worker) : Prop :=
  match worker.pc with
  | .building => mining.done = false
  | .searching miner => mining.done = false ∧
      ∃ n, miner.At E.sha256 chain worker.transactions worker.clock n ∧
        ∀ j < n, ¬Mined E chain worker.transactions worker.difficulty worker.clock j
  | .found miner => mining.done = false ∧ FoundBy E chain worker miner.block
  | .stored miner => mining.done = false ∧ FoundBy E chain worker miner.block ∧
      mining.minedBlock = miner.block
  | .clearing | .finished => mining.done = true → FoundBy E chain worker mining.minedBlock

theorem foundBy_of_mined {worker : Worker}
    (hmined : Mined E chain worker.transactions worker.difficulty worker.clock n)
    (hfirst : ∀ j < n, ¬Mined E chain worker.transactions worker.difficulty worker.clock j)
    (hreadings : worker.clockReadings = loopReadings n + 1) :
    FoundBy E chain worker (candidate E.sha256 chain worker.transactions worker.clock n) :=
  ⟨n + 1, mineBlock_ok_iff.mpr ⟨n, Nat.lt_succ_self n,
    ⟨Nat.zero_le n, hmined, fun j _ hj => hfirst j hj, fun _ _ _ => rfl⟩, rfl, hreadings⟩⟩

theorem FoundBy.mined (h : FoundBy E chain worker block) :
    ∃ n, Mined E chain worker.transactions worker.difficulty worker.clock n ∧
      block = candidate E.sha256 chain worker.transactions worker.clock n ∧
      worker.clockReadings = loopReadings n + 1 := by
  obtain ⟨fuel, hmine⟩ := h
  obtain ⟨n, -, hfirst, hblock, hreadings⟩ := mineBlock_ok_iff.mp hmine
  exact ⟨n, hfirst.hit, hblock, hreadings⟩

theorem Progress.foundBy (h : Progress E chain mining worker) (hdone : mining.done = true) :
    FoundBy E chain worker mining.minedBlock := by
  unfold Progress at h
  cases hpc : worker.pc <;> simp_all

/-- `done` may be cleared, but not set, and the mined block stays. -/
theorem Progress.mono {mining mining' : MiningState} (h : Progress E chain mining worker)
    (hdone : mining'.done = true → mining.done = true)
    (hmined : mining'.minedBlock = mining.minedBlock) : Progress E chain mining' worker := by
  have hclear : mining.done = false → mining'.done = false := by
    intro hfalse
    by_contra htrue
    simp [hdone (by simpa using htrue)] at hfalse
  unfold Progress at h ⊢
  generalize worker.pc = pc at h ⊢
  cases pc with
  | building => exact hclear h
  | searching miner => exact ⟨hclear h.1, h.2⟩
  | found miner => exact ⟨hclear h.1, h.2⟩
  | stored miner => exact ⟨hclear h.1, h.2.1, hmined.trans h.2.2⟩
  | clearing => exact fun htrue => hmined ▸ h (hdone htrue)
  | finished => exact fun htrue => hmined ▸ h (hdone htrue)

namespace Tui

-- ---------------------------------------------------------------------------
-- Undisturbed runs
-- ---------------------------------------------------------------------------

/-- The step leaves the chain as it is, and is not a join, which only follows
the clearing of the store or the end of the loop. -/
def Undisturbed (E : Env) (t : Tui) (label : Label) : Prop :=
  label ≠ .join ∧ ∀ t', t.step E label = some t' → t'.app.chain = t.app.chain

/-- Nothing is appended, cleared, joined or handed over. -/
def Quiet (t : Tui) : Label → Prop
  | .loopHead _ => t.app.mining.done = false
  | .key (.genesis ..) => t.app.chain.height > 0
  | .key (.append ..) | .key (.clear _) | .join => False
  | _ => True

instance (t : Tui) (label : Label) : Decidable (Quiet t label) := by
  unfold Quiet
  split <;> infer_instance

theorem startMining_chain (signer : Signer) (clock : Nat → UInt64) (app : App) :
    (app.startMining signer clock).2.chain = app.chain := by
  unfold App.startMining
  split
  · rfl
  · split
    · rfl
    · split <;> rfl

theorem stopMining_chain (app : App) : app.stopMining.chain = app.chain := by
  unfold App.stopMining
  split <;> rfl

theorem workerStep_chain {t t' : Tui} (h : t.workerStep E worker = some t') :
    t'.app.chain = t.app.chain := by
  unfold workerStep at h
  split at h
  · cases h; rfl
  · split at h <;> cases h <;> rfl
  · cases h; rfl
  · cases h; rfl
  · cases h; rfl
  · cases h

theorem workerThrows_chain {t t' : Tui} (h : t.workerThrows worker = some t') :
    t'.app.chain = t.app.chain := by
  unfold workerThrows at h
  split at h <;> cases h <;> rfl

theorem pressKey_chain (h : Quiet t (.key key)) : (t.pressKey E key).app.chain = t.app.chain := by
  cases key with
  | quit => rfl
  | genesis unixTime io =>
    have hheight : t.app.chain.height > 0 := h
    rw [pressKey, conclude_app, App.doGenesis, if_pos hheight]
  | append => exact h.elim
  | mine signer clock => rw [pressKey, conclude_app, startMining_chain]
  | easier =>
    dsimp only [pressKey]
    split <;> rfl
  | harder =>
    dsimp only [pressKey]
    split <;> rfl
  | clear => exact h.elim
  | view => rfl

theorem loopHead_chain {t : Tui} (h : t.app.mining.done = false) :
    (t.loopHead E io).app.chain = t.app.chain := by
  unfold loopHead
  split
  · exact stopMining_chain t.app
  · rw [h]
    rfl

theorem undisturbed_of_quiet (h : Quiet t label) : Undisturbed E t label := by
  refine ⟨fun hjoin => by simp [hjoin, Quiet] at h, fun t' hs => ?_⟩
  unfold step at hs
  split at hs
  · cases hs
  · cases hs; rfl
  · cases hs; exact loopHead_chain h
  · cases hs; exact pressKey_chain h
  · cases hs; rfl
  · exact h.elim
  · exact h.elim
  · obtain ⟨worker, -, hs⟩ := Option.bind_eq_some_iff.mp hs
    exact workerStep_chain hs
  · obtain ⟨worker, -, hs⟩ := Option.bind_eq_some_iff.mp hs
    exact workerThrows_chain hs
  · cases hs

/-- The worker is the one that was started, and mines for this chain. -/
structure MinesFor (E : Env) (chain : Chain) (started : Worker) (t : Tui) : Prop where
  chain_eq : t.app.chain = chain
  worker : ∃ worker, t.app.mining.worker = some worker ∧ Progress E chain t.app.mining worker ∧
    worker.difficulty = started.difficulty ∧ worker.transactions = started.transactions ∧
    worker.clock = started.clock

/-- A step of the main loop that leaves the worker where it is. -/
theorem MinesFor.mono {t t' : Tui} (h : MinesFor E chain started t) (hchain : t'.app.chain = chain)
    (hworker : t'.app.mining.worker = t.app.mining.worker)
    (hdone : t'.app.mining.done = true → t.app.mining.done = true)
    (hmined : t'.app.mining.minedBlock = t.app.mining.minedBlock) :
    MinesFor E chain started t' := by
  obtain ⟨-, worker, hw, hprogress, htask⟩ := h
  exact ⟨hchain, worker, hworker.trans hw, hprogress.mono hdone hmined, htask⟩

theorem step_minesFor {t t' : Tui} (h : MinesFor E chain started t)
    (hl : Undisturbed E t label) (hs : t.step E label = some t') :
    MinesFor E chain started t' := by
  have hchain := h.chain_eq
  have hchain' : t'.app.chain = chain := (hl.2 t' hs).trans hchain
  obtain ⟨worker, hworker, hprogress, htask⟩ := h.worker
  have hsame : ∀ {worker'}, t.app.mining.worker = some worker' → worker' = worker :=
    fun hw => Option.some.inj (hw.symm.trans hworker)
  cases move_of_step hs with
  | idle cancel hmining _ _ =>
    exact h.mono hchain' (by rw [hmining]) (by simp [hmining]) (by rw [hmining])
  | handsOver hdone hmining _ _ =>
    exact h.mono hchain' (by rw [hmining]) (by simp [hmining]) (by rw [hmining])
  | starts _ _ _ hold =>
    rw [hworker] at hold
    cases hold
  | startFails _ _ _ _ hmining _ _ =>
    exact h.mono hchain' (by rw [hmining]) (by simp [hmining]) (by rw [hmining])
  | clearJoins _ hlabel _ => exact absurd hlabel hl.1
  | quitJoins hlabel _ => exact absurd hlabel hl.1
  | builds hw hpc =>
    obtain rfl := hsame hw
    simp only [Progress, hpc] at hprogress
    refine ⟨hchain', _, rfl, ?_, htask⟩
    exact ⟨hprogress, 0, hchain ▸ Miner.start_at, fun j hj => absurd hj (Nat.not_lt_zero j)⟩
  | searches hw hpc hturn =>
    obtain rfl := hsame hw
    simp only [Progress, hpc] at hprogress
    obtain ⟨hdone, n, hat, hfirst⟩ := hprogress
    obtain ⟨hmiss, hat'⟩ := Miner.of_turn_next hat hturn
    refine ⟨hchain', _, rfl, ?_, htask⟩
    refine ⟨hdone, n + 1, hat', fun j hj => ?_⟩
    rcases Nat.lt_succ_iff_lt_or_eq.mp hj with hlt | rfl
    · exact hfirst j hlt
    · exact hmiss
  | finds hw hpc hturn =>
    obtain rfl := hsame hw
    simp only [Progress, hpc] at hprogress
    obtain ⟨hdone, n, hat, hfirst⟩ := hprogress
    obtain ⟨hmined, rfl⟩ := Miner.of_turn_found hat hturn
    refine ⟨hchain', _, rfl, ⟨hdone, ?_⟩, htask⟩
    rw [hat.block]
    exact foundBy_of_mined hmined hfirst hat.readings
  | givesUp hw hpc =>
    obtain rfl := hsame hw
    refine ⟨hchain', _, rfl, ?_, htask⟩
    intro hdone
    exact hprogress.foundBy hdone
  | stores hw hpc =>
    obtain rfl := hsame hw
    simp only [Progress, hpc] at hprogress
    refine ⟨hchain', _, rfl, ?_, htask⟩
    exact ⟨hprogress.1, hprogress.2, rfl⟩
  | publishes hw hpc =>
    obtain rfl := hsame hw
    simp only [Progress, hpc] at hprogress
    obtain ⟨-, hfound, hmined⟩ := hprogress
    refine ⟨hchain', _, rfl, ?_, htask⟩
    exact fun _ => hmined ▸ hfound
  | clears hw hpc =>
    obtain rfl := hsame hw
    simp only [Progress, hpc] at hprogress
    exact ⟨hchain', _, rfl, hprogress, htask⟩

-- ---------------------------------------------------------------------------
-- From the start to the verdict
-- ---------------------------------------------------------------------------

theorem signed_sender {signer : Signer} (h : signer.signed tx = .ok tx') :
    tx'.fromPubPem ≠ [] := by
  unfold Signer.signed Transaction.sign at h
  split at h
  · cases h
  next keyPair _ =>
    split at h
    · cases h
    · cases h
      exact keyPair.exported

theorem startMining_returns {app : App} (hahead : app.goesAhead = true)
    (hreturns : (app.startMining signer clock).1 = none) :
    ∃ tx, tx.fromPubPem ≠ [] ∧ (app.startMining signer clock).2.chain = app.chain ∧
      (app.startMining signer clock).2.mining.done = false ∧
      (app.startMining signer clock).2.mining.worker =
        some { difficulty := app.uiDifficultyBits, transactions := [tx], clock } := by
  unfold App.startMining at hreturns ⊢
  simp only [hahead, Bool.not_true, Bool.false_eq_true, if_false] at hreturns ⊢
  cases hsigned : signer.signed App.minerReward with
  | error e => simp [hsigned] at hreturns
  | ok tx =>
    simp only [hsigned] at hreturns ⊢
    split at hreturns
    · cases hreturns
    next hjoinable =>
      rw [if_neg hjoinable]
      exact ⟨tx, signed_sender hsigned, rfl, rfl, rfl⟩

theorem start_minesFor {t₀ t₁ : Tui} (htip : t₀.app.chain.tip = some tip)
    (hidle : t₀.app.mining.mining = false)
    (hstart : t₀.step E (.key (.mine signer clock)) = some t₁) (hreturns : t₁.pc = .keys) :
    ∃ tx, tx.fromPubPem ≠ [] ∧ MinesFor E t₀.app.chain
      { difficulty := t₀.app.uiDifficultyBits, transactions := [tx], clock } t₁ := by
  have hahead : t₀.app.goesAhead = true := by simp [App.goesAhead, hidle, htip]
  obtain rfl := step_key hstart
  obtain ⟨tx, hsender, hchain, hdone, hworker⟩ :=
    startMining_returns hahead (of_conclude_keys hreturns)
  refine ⟨tx, hsender, by rw [pressKey, conclude_app, hchain], ?_⟩
  refine ⟨_, by rw [pressKey, conclude_app, hworker], ?_, rfl, rfl, rfl⟩
  show (t₀.pressKey E (.mine signer clock)).app.mining.done = false
  rw [pressKey, conclude_app, hdone]

theorem acknowledged_handleDone {app : App} :
    Acknowledged (app.handleDone E io).1 ↔
      ValidBlock E (app.chain.setDifficultyBits app.uiDifficultyBits).config app.chain.blocks
        app.mining.minedBlock ∧
      (app.store.appendBlock E io app.mining.minedBlock).1 = .ok () :=
  Chain.acknowledged_appendAndStore

theorem acknowledged_mined_iff {app : App} (htip : app.chain.tip = some tip)
    (hfound : FoundBy E app.chain worker app.mining.minedBlock)
    (hsigned : ∀ tx ∈ worker.transactions, tx.fromPubPem ≠ [] ∧ tx.verify E = .ok true)
    (hclock : ∀ k < worker.clockReadings, tip.header.timestamp ≤ worker.clock k)
    (hstore : (app.store.appendBlock E io app.mining.minedBlock).1 = .ok ()) :
    Acknowledged (app.handleDone E io).1 ↔
      meetsDifficulty app.uiDifficultyBits (app.mining.minedBlock.header.hash E.sha256) = true := by
  obtain ⟨n, -, hmined, hreadings⟩ := hfound.mined
  obtain ⟨k, hk, hforce⟩ := inForce_eq worker.clock n
  have htime : tip.header.timestamp ≤ inForce worker.clock n :=
    hforce ▸ hclock k (hreadings ▸ hk)
  rw [acknowledged_handleDone, and_iff_left hstore, hmined]
  have htip' : (app.chain.setDifficultyBits app.uiDifficultyBits).tip = some tip := htip
  exact (validBlock_candidate_iff htip' hsigned).trans (and_iff_right htime)

/-- A worker was started on this tip, nothing has changed the chain since, and
its block is pending; the outside does what is asked of it. -/
structure MinedOn (E : Env) (signer : Signer) (clock : Nat → UInt64) (io : AppendTransfers)
    (tip : Block) (t₀ t : Tui) : Prop where
  onTip : t₀.app.chain.tip = some tip
  idle : t₀.app.mining.mining = false
  run : ∃ t₁, t₀.step E (.key (.mine signer clock)) = some t₁ ∧ t₁.pc = .keys ∧
    Machine.Run (step E) (Undisturbed E) t₁ t
  done : t.app.mining.done = true
  signed : ∀ worker, t.app.mining.worker = some worker →
    ∀ tx ∈ worker.transactions, tx.verify E = .ok true
  clock : ∀ worker, t.app.mining.worker = some worker →
    ∀ k < worker.clockReadings, tip.header.timestamp ≤ clock k
  store : (t.app.store.appendBlock E io t.app.mining.minedBlock).1 = .ok ()

/-- The verdict on a block that was mined for an unchanged chain depends only
on whether its hash meets the difficulty shown when the block is handled; it
does as long as that is not above the difficulty of the start. -/
theorem mined_accepted_iff (E : Env) (signer : Signer) (clock : Nat → UInt64)
    (io : AppendTransfers) (tip : Block) (t₀ t : Tui) (h : MinedOn E signer clock io tip t₀ t) :
    (Acknowledged (t.app.handleDone E io).1 ↔ meetsDifficulty t.app.uiDifficultyBits
      (t.app.mining.minedBlock.header.hash E.sha256) = true) ∧
    (t.app.uiDifficultyBits ≤ t₀.app.uiDifficultyBits →
      Acknowledged (t.app.handleDone E io).1) := by
  obtain ⟨t₁, hstart, hreturns, hrun⟩ := h.run
  obtain ⟨tx, hsender, hfirst⟩ := start_minesFor h.onTip h.idle hstart hreturns
  obtain ⟨hchain, worker, hworker, hprogress, hdifficulty, htransactions, hclock⟩ :=
    hrun.invariant hfirst fun _ _ _ h hl hs => step_minesFor h hl hs
  have hfound : FoundBy E t.app.chain worker t.app.mining.minedBlock :=
    hchain ▸ hprogress.foundBy h.done
  have hsenders : ∀ tx ∈ worker.transactions, tx.fromPubPem ≠ [] := by
    rw [htransactions]
    simpa using hsender
  have hiff := acknowledged_mined_iff (hchain ▸ h.onTip) hfound
    (fun tx htx => ⟨hsenders tx htx, h.signed worker hworker tx htx⟩)
    (by rw [hclock]; exact h.clock worker hworker) h.store
  refine ⟨hiff, fun hbits => hiff.mpr ?_⟩
  obtain ⟨n, hmined, hblock, -⟩ := hfound.mined
  rw [hblock]
  exact hmined.meets (hdifficulty ▸ hbits)

/-- The part of `MinedOn` that can be computed. -/
def MinedOnSample (E : Env) (clock : Nat → UInt64) (io : AppendTransfers) (tip : Block)
    (t₀ t₁ t : Tui) : Prop :=
  (t₀.app.chain.tip = some tip ∧ t₀.app.mining.mining = false ∧ t₁.pc = .keys ∧
    t.app.mining.done = true) ∧
  (∀ worker ∈ t.app.mining.worker, (∀ tx ∈ worker.transactions, tx.verify E = .ok true) ∧
    ∀ k < worker.clockReadings, tip.header.timestamp ≤ clock k) ∧
  (t.app.store.appendBlock E io t.app.mining.minedBlock).1 = .ok ()

instance : Decidable (MinedOnSample E clock io tip t₀ t₁ t) := by
  unfold MinedOnSample
  infer_instance

theorem minedOn_sample {t₀ t₁ t : Tui} (h : MinedOnSample E clock io tip t₀ t₁ t)
    (hstart : t₀.step E (.key (.mine signer clock)) = some t₁)
    (hrun : Machine.runLabels (step E) Quiet t₁ labels = some t) :
    MinedOn E signer clock io tip t₀ t := by
  obtain ⟨⟨hon, hidle, hreturns, hdone⟩, hworker, hstore⟩ := h
  have hquiet : Machine.Run (step E) Quiet t₁ t := .of_runLabels .refl hrun
  exact ⟨hon, hidle, ⟨t₁, hstart, hreturns, hquiet.mono fun _ _ => undisturbed_of_quiet⟩, hdone,
    fun worker hw => (hworker worker hw).1, fun worker hw => (hworker worker hw).2, hstore⟩

/-- The difficulty is raised while the block is pending. -/
theorem mined_rejected :
    let io := AppendTransfers.buffered none none
    let tip := makeGenesisBlock sampleSha256 (text "Astro: Born from bytes.") 1
    let labels := List.replicate 5 .worker ++ [.key .harder, .noKey]
    ∃ t₀ ∈ sampleRun sampleKeys,
    ∃ t₁ ∈ t₀.step sampleEnv sampleMineKey,
    ∃ t ∈ Machine.runLabels (step sampleEnv) Quiet t₁ labels,
      MinedOn sampleEnv sampleSigner (fun _ => 5) io tip t₀ t ∧
      (t.app.handleDone sampleEnv io).1 = .ok ⟨false, .insufficientPOW, noIndex⟩ := by
  intro io tip labels
  have hrun : ∃ t₀ ∈ sampleRun sampleKeys, ∃ t₁ ∈ t₀.step sampleEnv sampleMineKey,
      ∃ t ∈ Machine.runLabels (step sampleEnv) Quiet t₁ labels,
        MinedOnSample sampleEnv (fun _ => 5) io tip t₀ t₁ t ∧
        (t.app.handleDone sampleEnv io).1 = .ok ⟨false, .insufficientPOW, noIndex⟩ := by
    decide +kernel
  obtain ⟨t₀, ht₀, t₁, ht₁, t, ht, hsample, hverdict⟩ := hrun
  exact ⟨t₀, ht₀, t₁, ht₁, t, ht, minedOn_sample hsample ht₁ ht, hverdict⟩

theorem mined_accepted_sample :
    let io := AppendTransfers.buffered none none
    let tip := makeGenesisBlock sampleSha256 (text "Astro: Born from bytes.") 1
    ∃ t₀ t, MinedOn sampleEnv sampleSigner (fun _ => 5) io tip t₀ t ∧
      Acknowledged (t.app.handleDone sampleEnv io).1 := by
  intro io tip
  have hrun : ∃ t₀ ∈ sampleRun sampleKeys, ∃ t₁ ∈ t₀.step sampleEnv sampleMineKey,
      ∃ t ∈ Machine.runLabels (step sampleEnv) Quiet t₁ (List.replicate 5 .worker),
        MinedOnSample sampleEnv (fun _ => 5) io tip t₀ t₁ t ∧
        t.app.uiDifficultyBits ≤ t₀.app.uiDifficultyBits := by
    decide +kernel
  obtain ⟨t₀, -, t₁, ht₁, t, ht, hsample, hbits⟩ := hrun
  have hmined := minedOn_sample hsample ht₁ ht
  obtain ⟨-, haccepted⟩ := mined_accepted_iff sampleEnv sampleSigner _ io tip t₀ t hmined
  exact ⟨t₀, t, hmined, haccepted hbits⟩

end Tui

end Astro
