import Astro.Tui.Moves

/-!
# The worker over a whole run

The mining flag is set as long as the worker has not published a block or given
up. No thread is ever assigned to a joinable one as long as `start_mining` goes
ahead only once between two joins, and no published block is lost as long as it
does not go ahead while `done` is set.
-/

namespace Astro

/-- The worker has not left its `try` block. -/
def WorkerPc.tries : WorkerPc → Bool
  | .clearing | .finished => false
  | _ => true

namespace Tui

/-- What holds in every reachable state. -/
structure Sound (t : Tui) : Prop where
  flags : ∀ worker, t.app.mining.worker = some worker → worker.pc.tries = true →
    t.app.mining.mining = true ∧ t.app.mining.done = false
  joinable : (∀ fault, t.pc ≠ .stopped fault) →
    t.app.mining.worker.isSome = t.history.startedSinceJoin
  stored : ∀ worker miner, t.app.mining.worker = some worker → worker.pc = .stored miner →
    t.app.mining.minedBlock = miner.block

theorem start_sound (E : Env) (store : BlockStore) : Sound (start E store) where
  flags _ h := by simp [start] at h
  joinable _ := rfl
  stored _ _ h := by simp [start] at h

theorem step_live {t t' : Tui} (h : t.step E label = some t') (fault : Option Fault) :
    t.pc ≠ .stopped fault := by
  intro hpc
  simp [step, hpc] at h

theorem searches_tries {pc : WorkerPc} (h : pc.searches = true) : pc.tries = true := by
  cases pc <;> simp_all [WorkerPc.searches, WorkerPc.tries]

/-- A state in which the worker, which is still joinable, is `worker`. -/
theorem sound_of_worker {t : Tui} (hworker : t.app.mining.worker = some worker)
    (hstarted : t.history.startedSinceJoin = true)
    (hflags : worker.pc.tries = true → t.app.mining.mining = true ∧ t.app.mining.done = false)
    (hstored : ∀ miner, worker.pc = .stored miner → t.app.mining.minedBlock = miner.block) :
    Sound t where
  flags worker' hw htries := by
    cases hworker.symm.trans hw
    exact hflags htries
  joinable _ := by rw [hworker, hstarted, Option.isSome_some]
  stored worker' miner hw hpc := by
    cases hworker.symm.trans hw
    exact hstored miner hpc

theorem step_sound {t t' : Tui} (h : Sound t) (hs : t.step E label = some t') : Sound t' := by
  have hlive := h.joinable (step_live hs)
  have hstarted : ∀ {worker}, t.app.mining.worker = some worker →
      t.history.startedSinceJoin = true := fun hw => by simpa [hw] using hlive.symm
  have hflags : ∀ {worker}, t.app.mining.worker = some worker → worker.pc.tries = true →
      t.app.mining.mining = true ∧ t.app.mining.done = false := fun hw => h.flags _ hw
  cases move_of_step hs with
  | idle cancel hmining hhistory _ =>
    exact ⟨by simpa [hmining] using h.flags, fun _ => by simpa [hmining, hhistory] using hlive,
      by simpa [hmining] using h.stored⟩
  | handsOver hdone hmining hhistory _ =>
    refine ⟨fun worker hw htries => ?_, fun _ => by simpa [hmining, hhistory] using hlive,
      by simpa [hmining] using h.stored⟩
    have hw' : t.app.mining.worker = some worker := by simpa [hmining] using hw
    simp [(hflags hw' htries).2] at hdone
  | starts worker _ _ _ hnew hmining hhistory _ =>
    have hworker : t'.app.mining.worker = some worker := by rw [hmining]
    exact sound_of_worker hworker (by rw [hhistory]) (fun _ => by simp [hmining]) (by simp [hnew])
  | startFails fault _ _ _ hmining _ hpc =>
    exact ⟨by simp [hmining], fun hno => absurd hpc (hno _), by simpa [hmining] using h.stored⟩
  | clearJoins truncates _ _ =>
    have hnone : (t.clearJoined truncates).app.mining.worker = none := by
      rw [clearJoined_mining]
    exact ⟨by simp [hnone], fun _ => by rw [hnone]; rfl, by simp [hnone]⟩
  | quitJoins _ _ =>
    exact ⟨by simp [quitJoined], fun hno => absurd rfl (hno none), by simp [quitJoined]⟩
  | builds hworker hpc =>
    exact sound_of_worker rfl (hstarted hworker)
      (fun _ => hflags hworker (by simp [hpc, WorkerPc.tries])) (by simp [Worker.mining])
  | searches hworker hpc _ =>
    exact sound_of_worker rfl (hstarted hworker)
      (fun _ => hflags hworker (by simp [hpc, WorkerPc.tries])) (by simp [Worker.mining])
  | finds hworker hpc _ =>
    exact sound_of_worker rfl (hstarted hworker)
      (fun _ => hflags hworker (by simp [hpc, WorkerPc.tries])) (by simp [Worker.mining])
  | givesUp hworker _ =>
    exact sound_of_worker rfl (hstarted hworker) (by simp [WorkerPc.tries]) (by simp)
  | stores hworker hpc =>
    exact sound_of_worker rfl (hstarted hworker)
      (fun _ => hflags hworker (by simp [hpc, WorkerPc.tries])) (by simp)
  | publishes hworker _ =>
    exact sound_of_worker rfl (hstarted hworker) (by simp [WorkerPc.tries]) (by simp)
  | clears hworker _ =>
    exact sound_of_worker rfl (hstarted hworker) (by simp [WorkerPc.tries]) (by simp)

theorem run_sound (h : Machine.Run (step E) Allowed (start E store) t) : Sound t :=
  h.invariant (start_sound E store) fun _ _ _ hsound _ hs => step_sound hsound hs

-- ---------------------------------------------------------------------------
-- One worker
-- ---------------------------------------------------------------------------

/-- `start_mining` does not go ahead again before `do_clear_store` has joined
the worker. -/
def StartsOnce (t : Tui) (label : Label) : Prop :=
  label.mines = true → t.app.goesAhead = true → t.history.startedSinceJoin = false

instance (t : Tui) (label : Label) : Decidable (StartsOnce t label) :=
  inferInstanceAs (Decidable (_ → _ → _))

/-- No thread was assigned to a joinable one, and the mining flag is set while
a worker is searching. -/
def OneWorker (t : Tui) : Prop :=
  t.pc ≠ .stopped (some .joinableAssigned) ∧
    ∀ worker, t.app.mining.worker = some worker → worker.pc.searches = true →
      t.app.mining.mining = true

theorem start_pc (E : Env) (store : BlockStore) :
    (start E store).pc ≠ .stopped (some .joinableAssigned) := by
  have hne := uncaught_ne (({} : Chain).restoreFromStore E store).1
  unfold start
  dsimp only
  split <;> simp_all

theorem step_not_overwritten {t t' : Tui} (hsound : Sound t) (hl : StartsOnce t label)
    (hs : t.step E label = some t') : t'.pc ≠ .stopped (some .joinableAssigned) := by
  have hlive := step_live hs
  cases move_of_step hs with
  | idle _ _ _ hfault => exact hfault
  | handsOver _ _ _ hfault => exact hfault
  | starts _ _ _ _ _ _ _ hpc => simp [hpc]
  | startFails fault hlabel hahead hjoinable _ _ hpc =>
    intro hstopped
    obtain rfl : fault = .joinableAssigned := by simpa [hpc] using hstopped
    have hstarted := hsound.joinable hlive
    rw [hjoinable rfl, hl hlabel hahead] at hstarted
    cases hstarted
  | clearJoins => simp [clearJoined]
  | quitJoins => simp [quitJoined]
  | _ => exact hlive _

theorem run_not_overwritten (h : Machine.Run (step E) StartsOnce (start E store) t) :
    t.pc ≠ .stopped (some .joinableAssigned) := by
  induction h with
  | refl => exact start_pc E store
  | step hrun hl hs _ => exact step_not_overwritten (run_sound hrun) hl hs

/-- Once the transaction is signed, all depends on the old thread. -/
theorem oneWorker_startMining_iff {t : Tui} {signer : Signer}
    (hahead : t.app.goesAhead = true) (hsigned : signer.signed App.minerReward = .ok tx) :
    OneWorker (t.pressKey E (.mine signer clock)) ↔ t.app.mining.worker = none := by
  dsimp only [pressKey, App.startMining]
  rw [hahead, hsigned]
  by_cases hjoinable : t.app.mining.worker.isSome = true
  · have hsome : t.app.mining.worker ≠ none := Option.isSome_iff_ne_none.mp hjoinable
    simp [hjoinable, hsome, conclude, OneWorker]
  · have hnone : t.app.mining.worker = none := Option.not_isSome_iff_eq_none.mp hjoinable
    simp [hnone, conclude, OneWorker]

/-- There is one worker in every run that starts mining once between joins,
and any other call of `start_mining` that gets to its thread ends the program. -/
theorem one_worker_iff (E : Env) (store : BlockStore) :
    (∀ t, Machine.Run (step E) StartsOnce (start E store) t → OneWorker t) ∧
    ∀ t, Reachable E store t → t.pc = .keys → t.app.goesAhead = true →
      ∀ signer clock tx, signer.signed App.minerReward = .ok tx →
        (OneWorker (t.pressKey E (.mine signer clock)) ↔
          StartsOnce t (.key (.mine signer clock))) := by
  constructor
  · intro t hrun
    refine ⟨run_not_overwritten hrun, fun worker hw hpc => ?_⟩
    exact ((run_sound hrun).flags worker hw (searches_tries hpc)).1
  · intro t hreach hkeys hahead signer clock tx hsigned
    have hjoinable := (run_sound hreach).joinable (by simp [hkeys])
    have hnone : t.app.mining.worker = none ↔ t.history.startedSinceJoin = false := by
      rw [← hjoinable]
      simp
    rw [oneWorker_startMining_iff hahead hsigned, hnone]
    simp [StartsOnce, Label.mines, hahead]

/-- The second worker, when the first has published its block and finished. -/
theorem worker_overwritten :
    let labels := sampleKeys ++ [sampleMineKey] ++ List.replicate 5 .worker ++
      [.noKey, .loopHead (.buffered none none), sampleMineKey]
    ∃ t ∈ sampleRun labels, Reachable sampleEnv {} t ∧ ¬OneWorker t := by
  intro labels
  have hpc : ∃ t ∈ sampleRun labels, t.pc = .stopped (some .joinableAssigned) := by
    decide +kernel
  obtain ⟨t, ht, hpc⟩ := hpc
  exact ⟨t, ht, .of_runLabels .refl ht, fun h => h.1 hpc⟩

/-- A session that the first worker survives. -/
theorem one_worker_sample :
    ∃ t ∈ Machine.runLabels (step sampleEnv) StartsOnce (start sampleEnv {})
        (sampleKeys ++ [sampleMineKey] ++ List.replicate 5 .worker),
      t.history.published.length = 1 ∧ OneWorker t := by
  have hrun : ∃ t ∈ Machine.runLabels (step sampleEnv) StartsOnce (start sampleEnv {})
      (sampleKeys ++ [sampleMineKey] ++ List.replicate 5 .worker),
      t.history.published.length = 1 := by decide +kernel
  obtain ⟨t, ht, hpublished⟩ := hrun
  exact ⟨t, ht, hpublished, (one_worker_iff sampleEnv {}).1 t (.of_runLabels .refl ht)⟩

-- ---------------------------------------------------------------------------
-- Published blocks
-- ---------------------------------------------------------------------------

/-- The published block that the main loop has not seen yet. -/
def pending (t : Tui) : List Block :=
  if t.app.mining.done then [t.app.mining.minedBlock] else []

/-- Every published block was handed to `append_and_store`, once and in its
turn, or is still pending. -/
def Accounted (t : Tui) : Prop := t.history.published = t.history.handed ++ t.pending

/-- `start_mining` does not go ahead while a block is pending. -/
def KeepsPending (t : Tui) (label : Label) : Prop :=
  label.mines = true → t.app.goesAhead = true → t.app.mining.done = false

instance (t : Tui) (label : Label) : Decidable (KeepsPending t label) :=
  inferInstanceAs (Decidable (_ → _ → _))

theorem step_accounted {t t' : Tui} (hsound : Sound t) (h : Accounted t)
    (hl : KeepsPending t label) (hs : t.step E label = some t') : Accounted t' := by
  have hkept : ∀ {t' : Tui}, t'.app.mining.done = t.app.mining.done →
      t'.app.mining.minedBlock = t.app.mining.minedBlock →
      t'.history.published = t.history.published → t'.history.handed = t.history.handed →
      Accounted t' := by
    intro t' hdone hmined hpublished hhanded
    rw [Accounted, pending, hdone, hmined, hpublished, hhanded]
    exact h
  cases move_of_step hs with
  | idle cancel hmining hhistory _ =>
    exact hkept (by rw [hmining]) (by rw [hmining]) (by rw [hhistory]) (by rw [hhistory])
  | handsOver hdone hmining hhistory _ =>
    simp only [Accounted, pending, hdone, if_true] at h
    simp [Accounted, pending, hmining, hhistory, h]
  | starts _ hlabel hahead _ _ hmining hhistory _ =>
    simp only [Accounted, pending, hl hlabel hahead] at h
    simpa [Accounted, pending, hmining, hhistory] using h
  | startFails _ hlabel hahead _ hmining hhistory _ =>
    simp only [Accounted, pending, hl hlabel hahead] at h
    simpa [Accounted, pending, hmining, hhistory] using h
  | clearJoins truncates _ _ =>
    exact hkept (by rw [clearJoined_mining]) (by rw [clearJoined_mining]) rfl rfl
  | quitJoins _ _ => exact h
  | builds => exact h
  | searches => exact h
  | finds => exact h
  | givesUp => exact h
  | stores hworker hpc =>
    have hdone := (hsound.flags _ hworker (by simp [hpc, WorkerPc.tries])).2
    simpa [Accounted, pending, setWorker, hdone] using h
  | publishes hworker hpc =>
    have hdone := (hsound.flags _ hworker (by simp [hpc, WorkerPc.tries])).2
    have hmined := hsound.stored _ _ hworker hpc
    simpa [Accounted, pending, setWorker, hdone, hmined] using h
  | clears => exact h

theorem startMining_done {app : App} (hahead : app.goesAhead = true) :
    (app.startMining signer clock).2.mining.done = false := by
  unfold App.startMining
  simp only [hahead, Bool.not_true, Bool.false_eq_true, if_false]
  cases signer.signed App.minerReward with
  | error e => rfl
  | ok tx => cases app.mining.worker <;> rfl

theorem run_accounted (h : Machine.Run (step E) KeepsPending (start E store) t) :
    Accounted t := by
  induction h with
  | refl => rfl
  | step hrun hl hs ih => exact step_accounted (run_sound hrun) ih hl hs

theorem step_of_mines {t t' : Tui} (hmines : label.mines = true)
    (hs : t.step E label = some t') :
    ∃ signer clock, t' = t.pressKey E (.mine signer clock) := by
  unfold Label.mines at hmines
  split at hmines
  next signer clock => exact ⟨signer, clock, step_key hs⟩
  · cases hmines

theorem step_lost {t t' : Tui} (h : Accounted t) (hl : ¬KeepsPending t label)
    (hs : t.step E label = some t') : ¬Accounted t' := by
  simp only [KeepsPending, Classical.not_imp, Bool.not_eq_false] at hl
  obtain ⟨hmines, hahead, hdone⟩ := hl
  obtain ⟨signer, clock, rfl⟩ := step_of_mines hmines hs
  have hdone' : (t.pressKey E (.mine signer clock)).app.mining.done = false := by
    rw [pressKey, conclude_app]
    exact startMining_done hahead
  have hpublished : (t.pressKey E (.mine signer clock)).history.published =
      t.history.published := by rw [pressKey, conclude_history]
  have hhanded : (t.pressKey E (.mine signer clock)).history.handed = t.history.handed := by
    rw [pressKey, conclude_history]
  simp only [Accounted, pending, hdone, if_true] at h
  simp [Accounted, pending, hdone', hpublished, hhanded, h]

theorem loopHead_hands {t : Tui} (h : Accounted t) (hrunning : t.running = true)
    (E : Env) (io : AppendTransfers) :
    (t.loopHead E io).history.published = (t.loopHead E io).history.handed := by
  unfold loopHead
  cases hdone : t.app.mining.done with
  | false => simpa [Accounted, pending, hrunning, hdone] using h
  | true => simpa [Accounted, pending, hrunning, hdone, conclude_history] using h

/-- In every run in which `start_mining` never goes ahead while a block is
pending, each published block is handed over once, and at the latest by the
next look at `done`; where it does go ahead, the pending block is lost. -/
theorem published_handed_iff (E : Env) (store : BlockStore) :
    ∀ t, Machine.Run (step E) KeepsPending (start E store) t →
      Accounted t ∧
      (t.running = true → ∀ io,
        (t.loopHead E io).history.published = (t.loopHead E io).history.handed) ∧
      ∀ label t', t.step E label = some t' → (Accounted t' ↔ KeepsPending t label) := by
  intro t hrun
  have h := run_accounted hrun
  refine ⟨h, fun hrunning io => loopHead_hands h hrunning E io, fun label t' hs => ?_⟩
  constructor
  · intro h'
    by_contra hl
    exact step_lost h hl hs h'
  · intro hl
    exact step_accounted (run_sound hrun) h hl hs

/-- The worker publishes its block before the log is cleared, and the next
worker is started before the main loop has looked at `done`. -/
theorem published_lost :
    let labels := sampleKeys ++ [sampleMineKey] ++ List.replicate 4 .worker ++
      [.key (.clear true), .worker, .join, sampleGenesisKey, sampleMineKey]
    ∃ t ∈ sampleRun labels, Reachable sampleEnv {} t ∧ (t.pc = .keys ∧ t.running = true) ∧
      t.history.published.length = 1 ∧ t.history.handed = [] ∧ ¬Accounted t := by
  intro labels
  have hrun : ∃ t ∈ sampleRun labels, (t.pc = .keys ∧ t.running = true) ∧
      t.history.published.length = 1 ∧ t.history.handed = [] ∧ t.pending = [] := by
    decide +kernel
  obtain ⟨t, ht, hpc, hpublished, hhanded, hpending⟩ := hrun
  refine ⟨t, ht, .of_runLabels .refl ht, hpc, hpublished, hhanded, fun h => ?_⟩
  rw [Accounted, hhanded, hpending] at h
  simp [h] at hpublished

/-- A block that is published and pending. -/
theorem published_handed_sample :
    ∃ t ∈ Machine.runLabels (step sampleEnv) KeepsPending (start sampleEnv {})
        (sampleKeys ++ [sampleMineKey] ++ List.replicate 5 .worker),
      t.pending.length = 1 ∧ Accounted t := by
  have hrun : ∃ t ∈ Machine.runLabels (step sampleEnv) KeepsPending (start sampleEnv {})
      (sampleKeys ++ [sampleMineKey] ++ List.replicate 5 .worker),
      t.pending.length = 1 := by decide +kernel
  obtain ⟨t, ht, hpending⟩ := hrun
  exact ⟨t, ht, hpending, (published_handed_iff sampleEnv {} t (.of_runLabels .refl ht)).1⟩

end Tui

end Astro
