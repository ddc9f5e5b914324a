import Astro.Core.Commitment
import Astro.Tui.Effects

/-!
# Where a mined block comes from

Between the moment in which a worker looks at the chain and the handover of its
block, the chain may have grown, been cleared and begun anew. A pending block
is nevertheless what `mine_block` returns for the chain of one earlier state,
and the handover appends it only to a chain with the headers of that one.
-/

namespace Astro

open GrownList

namespace Tui

-- ---------------------------------------------------------------------------
-- The chain that a worker has seen
-- ---------------------------------------------------------------------------

/-- In `t₀`, this worker was about to build its block; `t` comes later. -/
structure Began (E : Env) (store : BlockStore) (t₀ : Tui) (worker : Worker) (t : Tui) : Prop where
  reachable : Reachable E store t₀
  later : Machine.Run (step E) (fun _ _ => True) t₀ t
  tip : t₀.app.chain.tip.isSome = true
  task : ∃ w, t₀.app.mining.worker = some w ∧ w.pc = .building ∧
    w.difficulty = worker.difficulty ∧ w.transactions = worker.transactions ∧
    w.clock = worker.clock

theorem Began.next {t t' : Tui} (h : Began E store t₀ worker t) (hs : t.step E label = some t')
    (htask : worker'.difficulty = worker.difficulty ∧
      worker'.transactions = worker.transactions ∧ worker'.clock = worker.clock) :
    Began E store t₀ worker' t' := by
  obtain ⟨w, hw, hpc, hdifficulty, htransactions, hclock⟩ := h.task
  refine ⟨h.reachable, h.later.step trivial hs, h.tip, w, hw, hpc, ?_, ?_, ?_⟩
  · rw [hdifficulty, htask.1]
  · rw [htransactions, htask.2.1]
  · rw [hclock, htask.2.2]

/-- A worker has not begun, or mines for the chain of an earlier state; a
pending block was mined for one. -/
structure Origin (E : Env) (store : BlockStore) (t : Tui) : Prop where
  tip : ∀ worker, t.app.mining.worker = some worker → worker.pc = .building →
    t.app.chain.tip.isSome = true
  mines : ∀ worker, t.app.mining.worker = some worker → worker.pc.miner.isSome = true →
    ∃ t₀, Began E store t₀ worker t ∧ Progress E t₀.app.chain t.app.mining worker
  pending : t.app.mining.done = true →
    ∃ t₀ worker, Began E store t₀ worker t ∧ FoundBy E t₀.app.chain worker t.app.mining.minedBlock

theorem start_origin (E : Env) (store : BlockStore) : Origin E store (start E store) :=
  ⟨by simp [start], by simp [start], by simp [start]⟩

theorem joins_not_tries {mining : MiningState} (h : mining.joins = true)
    (hworker : mining.worker = some worker) : worker.pc.tries = false := by
  unfold MiningState.joins at h
  rw [hworker] at h
  dsimp only at h
  split at h
  next hpc => rw [hpc]; rfl
  · cases h

/-- While a worker is in its `try` block, nothing clears the chain. -/
theorem clears_not_tries {t : Tui} (hsound : Sound t) (h : Clears t label)
    (hworker : t.app.mining.worker = some worker) : worker.pc.tries = false := by
  unfold Clears at h
  split at h
  · by_contra htries
    have hmining := (hsound.flags worker hworker (by simpa using htries)).1
    rw [h.2] at hmining
    cases hmining
  · exact joins_not_tries h.2 hworker
  · exact h.elim

theorem tip_isSome {c : Chain} : c.tip.isSome = true ↔ c.blocks ≠ [] := by
  simp [Chain.tip, List.getLast?_isSome]

theorem step_tip {t t' : Tui} (hsound : Sound t) (hs : t.step E label = some t')
    (hworker : t.app.mining.worker = some worker) (htries : worker.pc.tries = true)
    (htip : t.app.chain.tip.isSome = true) : t'.app.chain.tip.isSome = true := by
  cases effect_of_step hs with
  | keeps hchain _ _ => rwa [hchain]
  | submits c block io hsubmits hresult _ =>
    have hchain := congrArg (fun result => result.1.blocks) hresult
    have hblocks : c.blocks ≠ [] := by
      cases hsubmits <;> exact tip_isSome.mp htip
    rw [tip_isSome, hchain]
    rcases Chain.appendAndStore_cases E c block io t.app.store with
      ⟨-, -, h⟩ | ⟨-, -, h⟩ | ⟨-, _, -, h⟩ <;> rw [h]
    · simp [Chain.push]
    · exact hblocks
    · exact hblocks
  | clears hclears _ _ _ =>
    rw [clears_not_tries hsound hclears hworker] at htries
    cases htries

/-- What a worker goes on with is mined for the same chain. -/
theorem Origin.continues {t t' : Tui} {worker worker' : Worker} (h : Origin E store t)
    (hs : t.step E label = some t') (hworker : t.app.mining.worker = some worker)
    (hminer : worker.pc.miner.isSome = true)
    (htask : worker'.difficulty = worker.difficulty ∧
      worker'.transactions = worker.transactions ∧ worker'.clock = worker.clock)
    (hprogress : ∀ chain, Progress E chain t.app.mining worker →
      Progress E chain t'.app.mining worker') :
    ∃ t₀, Began E store t₀ worker' t' ∧ Progress E t₀.app.chain t'.app.mining worker' := by
  obtain ⟨t₀, hbegan, hold⟩ := h.mines worker hworker hminer
  exact ⟨t₀, hbegan.next hs htask, hprogress _ hold⟩

/-- The pending block stays where it is. -/
theorem Origin.still {t t' : Tui} (h : Origin E store t) (hs : t.step E label = some t')
    (hdone : t'.app.mining.done = true → t.app.mining.done = true)
    (hmined : t'.app.mining.minedBlock = t.app.mining.minedBlock)
    (hdone' : t'.app.mining.done = true) :
    ∃ t₀ worker, Began E store t₀ worker t' ∧
      FoundBy E t₀.app.chain worker t'.app.mining.minedBlock := by
  obtain ⟨t₀, worker, hbegan, hfound⟩ := h.pending (hdone hdone')
  exact ⟨t₀, worker, hbegan.next hs ⟨rfl, rfl, rfl⟩, hmined ▸ hfound⟩

/-- The step leaves the worker alone. -/
theorem Origin.mono {t t' : Tui} (h : Origin E store t) (hsound : Sound t)
    (hs : t.step E label = some t')
    (hworker : t'.app.mining.worker = t.app.mining.worker)
    (hdone : t'.app.mining.done = true → t.app.mining.done = true)
    (hmined : t'.app.mining.minedBlock = t.app.mining.minedBlock) : Origin E store t' where
  tip worker hw hpc := by
    rw [hworker] at hw
    exact step_tip hsound hs hw (by rw [hpc]; rfl) (h.tip worker hw hpc)
  mines worker hw hminer := by
    rw [hworker] at hw
    exact h.continues hs hw hminer ⟨rfl, rfl, rfl⟩ fun chain hold => hold.mono hdone hmined
  pending := h.still hs hdone hmined

/-- A step of a worker that is not about to begin. -/
theorem Origin.of_worker {t' : Tui} {worker : Worker}
    (hworker : t'.app.mining.worker = some worker) (hpc : worker.pc ≠ .building)
    (hmines : worker.pc.miner.isSome = true →
      ∃ t₀, Began E store t₀ worker t' ∧ Progress E t₀.app.chain t'.app.mining worker)
    (hpending : t'.app.mining.done = true → ∃ t₀ worker, Began E store t₀ worker t' ∧
      FoundBy E t₀.app.chain worker t'.app.mining.minedBlock) : Origin E store t' where
  tip worker' hw hpc' := by
    cases hworker.symm.trans hw
    exact absurd hpc' hpc
  mines worker' hw hminer := by
    cases hworker.symm.trans hw
    exact hmines hminer
  pending := hpending

theorem step_origin {t t' : Tui} (hreach : Reachable E store t) (hsound : Sound t)
    (h : Origin E store t) (hs : t.step E label = some t') : Origin E store t' := by
  cases move_of_step hs with
  | idle cancel hmining _ _ =>
    exact h.mono hsound hs (by rw [hmining]) (by simp [hmining]) (by rw [hmining])
  | handsOver hdone hmining _ _ =>
    exact h.mono hsound hs (by rw [hmining]) (by simp [hmining]) (by rw [hmining])
  | starts worker hlabel hahead _ hnew hmining _ _ =>
    have hworker : t'.app.mining.worker = some worker := by rw [hmining]
    refine ⟨fun worker' _ _ => ?_, fun worker' hw hminer => ?_, by simp [hmining]⟩
    · obtain ⟨signer, clock, rfl⟩ := step_of_mines hlabel hs
      rw [pressKey, conclude_app, startMining_chain]
      simp only [App.goesAhead, Bool.and_eq_true] at hahead
      exact hahead.2
    · cases hworker.symm.trans hw
      simp [hnew, WorkerPc.miner] at hminer
  | startFails _ _ _ _ hmining _ _ =>
    exact h.mono hsound hs (by rw [hmining]) (by simp [hmining]) (by rw [hmining])
  | clearJoins truncates _ _ =>
    refine ⟨by simp [clearJoined_mining], by simp [clearJoined_mining], ?_⟩
    exact h.still hs (by simp [clearJoined_mining]) (by rw [clearJoined_mining])
  | quitJoins _ _ =>
    exact ⟨by simp [quitJoined], by simp [quitJoined], h.still hs id rfl⟩
  | @builds worker hworker hpc =>
    have hdone := (hsound.flags worker hworker (by rw [hpc]; rfl)).2
    refine .of_worker rfl (by simp [Worker.mining]) (fun _ => ⟨t, ?_, hdone, 0, Miner.start_at, ?_⟩)
      (h.still hs id rfl)
    · exact ⟨hreach, .step .refl trivial hs, h.tip worker hworker hpc,
        worker, hworker, hpc, rfl, rfl, rfl⟩
    · exact fun j hj => absurd hj (Nat.not_lt_zero j)
  | searches hworker hpc hturn =>
    refine .of_worker rfl (by simp [Worker.mining]) (fun _ => ?_) (h.still hs id rfl)
    refine h.continues hs hworker (by rw [hpc]; rfl) ⟨rfl, rfl, rfl⟩ fun chain hold => ?_
    simp only [Progress, hpc] at hold
    obtain ⟨hdone, n, hat, hfirst⟩ := hold
    obtain ⟨hmiss, hat'⟩ := Miner.of_turn_next hat hturn
    refine ⟨hdone, n + 1, hat', fun j hj => ?_⟩
    rcases Nat.lt_succ_iff_lt_or_eq.mp hj with hlt | rfl
    · exact hfirst j hlt
    · exact hmiss
  | finds hworker hpc hturn =>
    refine .of_worker rfl (by simp [Worker.mining]) (fun _ => ?_) (h.still hs id rfl)
    refine h.continues hs hworker (by rw [hpc]; rfl) ⟨rfl, rfl, rfl⟩ fun chain hold => ?_
    simp only [Progress, hpc] at hold
    obtain ⟨hdone, n, hat, hfirst⟩ := hold
    obtain ⟨hmined, rfl⟩ := Miner.of_turn_found hat hturn
    refine ⟨hdone, ?_⟩
    rw [hat.block]
    exact foundBy_of_mined hmined hfirst hat.readings
  | givesUp hworker _ =>
    exact .of_worker rfl (by simp) (by simp [WorkerPc.miner]) (h.still hs id rfl)
  | stores hworker hpc =>
    have hdone := (hsound.flags _ hworker (by rw [hpc]; rfl)).2
    refine .of_worker rfl (by simp) (fun _ => ?_) fun hdone' => ?_
    · refine h.continues hs hworker (by rw [hpc]; rfl) ⟨rfl, rfl, rfl⟩ fun chain hold => ?_
      simp only [Progress, hpc] at hold
      exact ⟨hold.1, hold.2, rfl⟩
    · exact absurd (hdone.symm.trans hdone') (by simp)
  | publishes hworker hpc =>
    obtain ⟨t₀, hbegan, hold⟩ := h.mines _ hworker (by rw [hpc]; rfl)
    simp only [Progress, hpc] at hold
    obtain ⟨-, hfound, hmined⟩ := hold
    refine .of_worker rfl (by simp) (by simp [WorkerPc.miner]) fun _ => ?_
    exact ⟨t₀, _, hbegan.next hs ⟨rfl, rfl, rfl⟩, hmined ▸ hfound⟩
  | clears hworker _ =>
    exact .of_worker rfl (by simp) (by simp [WorkerPc.miner]) (h.still hs id rfl)

theorem Reachable.origin (h : Reachable E store t) : Origin E store t := by
  induction h with
  | refl => exact start_origin E store
  | step hrun _ hs ih => exact step_origin hrun (run_sound hrun) ih hs

-- ---------------------------------------------------------------------------
-- The chain of the program
-- ---------------------------------------------------------------------------

/-- Whatever the threads do, the chain is one that operations of `Chain` make. -/
theorem Reachable.chain (h : Reachable E store t) : t.app.chain.Reachable E := by
  induction h with
  | refl =>
    have hempty : ({} : Chain).Reachable E := ⟨{}, [], rfl⟩
    exact hempty.apply (.restoreFromStore store)
  | @step t t' label hrun _ hs ih =>
    cases effect_of_step hs with
    | keeps hchain _ _ => rwa [hchain]
    | submits c block io hsubmits hresult _ =>
      have hc : c.Reachable E := by
        cases hsubmits with
        | genesis _ => exact ih
        | append _ _ => exact ih
        | mined _ _ => exact ih.apply (.setDifficultyBits t.app.uiDifficultyBits)
      have hchain : t'.app.chain = (c.appendAndStore E block io t.app.store).2.1 :=
        congrArg Prod.fst hresult
      rw [hchain]
      exact hc.apply (.appendAndStore block io t.app.store)
    | clears _ hchain _ _ =>
      rw [hchain]
      exact ⟨t.app.chain.config, [], rfl⟩

/-- A block that was mined for one chain is only ever accepted after the same
headers. -/
theorem headers_eq_of_found {c c' : Chain} (hc : c.Reachable E) (hc' : c'.Reachable E)
    (hfound : FoundBy E c worker block) (hvalid : ValidBlock E config c'.blocks block)
    (hfree : CollisionFree E.sha256 ((c.headers ++ c'.headers).map BlockHeader.serialize))
    (hzero : ∀ header ∈ c.headers ++ c'.headers, header.hash E.sha256 ≠ Hash256.zero) :
    c'.headers = c.headers := by
  obtain ⟨n, -, rfl, -⟩ := hfound.mined
  have hlink : linkAfter (BlockHeader.hash E.sha256) Hash256.zero c.headers =
      linkAfter (BlockHeader.hash E.sha256) Hash256.zero c'.headers := by
    rw [linkAfter, ← Chain.tipHash_eq]
    exact hvalid.prevHash_eq
  have hzero₁ (x : BlockHeader) (hx : x ∈ c.headers) := hzero x (List.mem_append_left _ hx)
  have hzero₂ (x : BlockHeader) (hx : x ∈ c'.headers) := hzero x (List.mem_append_right _ hx)
  have heq : c.headers = c'.headers := hc.linked.eq_of_last hc'.linked
    (fun x hx y hy => BlockHeader.hash_inj hfree (List.mem_append_left _ hx)
      (List.mem_append_right _ hy)) hzero₁ hzero₂ (linkAfter_inj hzero₁ hzero₂ hlink)
  exact heq.symm

/-- In whatever order the threads and the keys take their turns, a pending
block is what `mine_block` returned for the chain of one earlier state, and it
is appended only if the chain has the same headers again. -/
theorem pending_mined (E : Env) (store : BlockStore) (t : Tui) (h : Reachable E store t)
    (hdone : t.app.mining.done = true) :
    ∃ t₀, Reachable E store t₀ ∧ Machine.Run (step E) (fun _ _ => True) t₀ t ∧
      (∃ tip, t₀.app.chain.tip = some tip) ∧
      (∃ worker fuel readings, t₀.app.mining.worker = some worker ∧ worker.pc = .building ∧
        mineBlock E t₀.app.chain worker.transactions worker.difficulty worker.clock
          (fun _ => false) fuel = some (.ok (t.app.mining.minedBlock, readings))) ∧
      (CollisionFree E.sha256
          ((t₀.app.chain.headers ++ t.app.chain.headers).map BlockHeader.serialize) →
        (∀ header ∈ t₀.app.chain.headers ++ t.app.chain.headers,
          header.hash E.sha256 ≠ Hash256.zero) →
        ∀ io, Acknowledged (t.app.handleDone E io).1 →
          t.app.chain.headers = t₀.app.chain.headers) := by
  obtain ⟨t₀, worker, hbegan, hfound⟩ := h.origin.pending hdone
  obtain ⟨w, hw, hpc, hdifficulty, htransactions, hclock⟩ := hbegan.task
  refine ⟨t₀, hbegan.reachable, hbegan.later, Option.isSome_iff_exists.mp hbegan.tip, ?_, ?_⟩
  · obtain ⟨fuel, hmine⟩ := hfound
    refine ⟨w, fuel, worker.clockReadings, hw, hpc, ?_⟩
    rw [hdifficulty, htransactions, hclock]
    exact hmine
  · intro hfree hzero io hack
    exact headers_eq_of_found hbegan.reachable.chain h.chain hfound
      (acknowledged_handleDone.mp hack).1 hfree hzero

/-- A block that is pending while another one is appended. -/
theorem pending_mined_sample :
    ∃ t ∈ sampleRun (sampleKeys ++ [sampleMineKey] ++ List.replicate 5 .worker ++
        [.key (.append sampleSigner 1 (.buffered none none))]),
      t.app.chain.height = 2 ∧
      ∃ t₀, Reachable sampleEnv {} t₀ ∧ ∃ (worker : Worker) (fuel readings : Nat),
        mineBlock sampleEnv t₀.app.chain worker.transactions worker.difficulty worker.clock
          (fun _ => false) fuel = some (.ok (t.app.mining.minedBlock, readings)) := by
  have hrun : ∃ t ∈ sampleRun (sampleKeys ++ [sampleMineKey] ++ List.replicate 5 .worker ++
      [.key (.append sampleSigner 1 (.buffered none none))]),
      t.app.chain.height = 2 ∧ t.app.mining.done = true := by decide +kernel
  obtain ⟨t, ht, hheight, hdone⟩ := hrun
  obtain ⟨t₀, hreach, -, -, ⟨worker, fuel, readings, -, -, hmine⟩, -⟩ :=
    pending_mined sampleEnv {} t (.of_runLabels .refl ht) hdone
  exact ⟨t, ht, hheight, t₀, hreach, worker, fuel, readings, hmine⟩

end Tui

end Astro
