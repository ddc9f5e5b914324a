import Astro.Tui.Runs

/-!
# The joins return

`do_clear_store` and the end of the loop wait for the worker. The cancel flag
is set whenever they wait for one that is still searching, so that no schedule
keeps them waiting for more than three of its steps.
-/

namespace Astro

/-- How many steps a cancelled worker is from its end. -/
def WorkerPc.left : WorkerPc → Nat
  | .building | .found _ => 3
  | .searching _ | .stored _ => 2
  | .clearing => 1
  | .finished => 0

def Worker.left (worker : Worker) : Nat := worker.pc.left

/-- Whether the label is a step of the worker. -/
def Label.works : Label → Bool
  | .worker | .workerThrows => true
  | _ => false

namespace Tui

def Waits (t : Tui) : Prop := (∃ truncates, t.pc = .joining truncates) ∨ t.pc = .quitting

/-- The steps of the worker that a join may still have to wait for. -/
def left (t : Tui) : Nat := (t.app.mining.worker.map Worker.left).getD 0

/-- A join only ever waits for a worker that has been told to stop. -/
def Stops (t : Tui) : Prop :=
  t.Waits → ∀ worker, t.app.mining.worker = some worker → worker.pc.searches = true →
    t.app.mining.cancel = true

-- ---------------------------------------------------------------------------
-- Steps of a worker
-- ---------------------------------------------------------------------------

theorem workerStep_left {t t' : Tui} (hworker : t.app.mining.worker = some worker)
    (hcancel : worker.pc.searches = true → t.app.mining.cancel = true)
    (h : t.workerStep E worker = some t') : t'.left + 1 = t.left := by
  unfold workerStep at h
  cases hpc : worker.pc with
  | building =>
    rw [hpc] at h
    cases h
    simp [left, setWorker, Worker.mining, Worker.left, WorkerPc.left, hworker, hpc]
  | searching miner =>
    rw [hpc] at h
    have hturn : miner.turn E worker.difficulty worker.clock t.app.mining.cancel = .cancelled := by
      rw [hcancel (by rw [hpc]; rfl)]
      rfl
    dsimp only at h
    rw [hturn] at h
    cases h
    simp [left, setWorker, Worker.left, WorkerPc.left, hworker, hpc]
  | found miner =>
    rw [hpc] at h
    cases h
    simp [left, setWorker, Worker.left, WorkerPc.left, hworker, hpc]
  | stored miner =>
    rw [hpc] at h
    cases h
    simp [left, setWorker, Worker.left, WorkerPc.left, hworker, hpc]
  | clearing =>
    rw [hpc] at h
    cases h
    simp [left, setWorker, Worker.left, WorkerPc.left, hworker, hpc]
  | finished =>
    rw [hpc] at h
    cases h

theorem workerThrows_left {t t' : Tui} (hworker : t.app.mining.worker = some worker)
    (h : t.workerThrows worker = some t') : t'.left < t.left := by
  unfold workerThrows at h
  split at h
  next hpc =>
    cases h
    simp [left, setWorker, Worker.left, WorkerPc.left, hworker, hpc]
  next hpc =>
    cases h
    simp [left, setWorker, Worker.left, WorkerPc.left, hworker, hpc]
  · cases h

/-- The worker that a join waits for can go on. -/
theorem workerStep_isSome {t : Tui} {worker : Worker} (h : worker.pc ≠ .finished) :
    (t.workerStep E worker).isSome = true := by
  unfold workerStep
  split
  · rfl
  · split <;> rfl
  · rfl
  · rfl
  · rfl
  next hpc => exact absurd hpc h

/-- A step of the worker touches neither the main thread nor the cancel flag,
and does not bring it back into `mine_block`. -/
theorem workerStep_frame {t t' : Tui} (h : t.workerStep E worker = some t') :
    t'.pc = t.pc ∧ t'.app.mining.cancel = t.app.mining.cancel ∧
      ∀ worker', t'.app.mining.worker = some worker' → worker'.pc.searches = true →
        worker.pc.searches = true := by
  unfold workerStep at h
  split at h
  next hpc => cases h; exact ⟨rfl, rfl, fun _ _ _ => by rw [hpc]; rfl⟩
  next hpc => split at h <;> cases h <;> exact ⟨rfl, rfl, fun _ _ _ => by rw [hpc]; rfl⟩
  · cases h; exact ⟨rfl, rfl, fun _ hw hpc => by cases hw; cases hpc⟩
  · cases h; exact ⟨rfl, rfl, fun _ hw hpc => by cases hw; cases hpc⟩
  · cases h; exact ⟨rfl, rfl, fun _ hw hpc => by cases hw; cases hpc⟩
  · cases h

theorem workerThrows_frame {t t' : Tui} (h : t.workerThrows worker = some t') :
    t'.pc = t.pc ∧ t'.app.mining.cancel = t.app.mining.cancel ∧
      ∀ worker', t'.app.mining.worker = some worker' → worker'.pc.searches = true →
        worker.pc.searches = true := by
  unfold workerThrows at h
  split at h <;> cases h <;> exact ⟨rfl, rfl, fun _ hw hpc => by cases hw; cases hpc⟩

-- ---------------------------------------------------------------------------
-- Steps of a join
-- ---------------------------------------------------------------------------

/-- While the main thread waits, only the worker and the signal handler step. -/
inductive Waiting (E : Env) (t : Tui) : Label → Tui → Prop
  | joins {t' : Tui} : Waiting E t .join t'
  | interrupted : Waiting E t .interrupt { t with running := false }
  | works {t' : Tui} (hworker : t.app.mining.worker = some worker)
      (h : t.workerStep E worker = some t') : Waiting E t .worker t'
  | throws {t' : Tui} (hworker : t.app.mining.worker = some worker)
      (h : t.workerThrows worker = some t') : Waiting E t .workerThrows t'

theorem waiting_of_step {t t' : Tui} (hwaits : t.Waits) (hs : t.step E label = some t') :
    Waiting E t label t' := by
  have hlive := step_live hs
  have htop : t.pc ≠ .top := by
    rintro hpc
    rcases hwaits with ⟨truncates, h⟩ | h <;> rw [hpc] at h <;> cases h
  have hkeys : t.pc ≠ .keys := by
    rintro hpc
    rcases hwaits with ⟨truncates, h⟩ | h <;> rw [hpc] at h <;> cases h
  unfold step at hs
  split at hs
  next hpc => exact absurd hpc (hlive _)
  · cases hs
    exact .interrupted
  next hpc => exact absurd hpc htop
  next hpc => exact absurd hpc hkeys
  next hpc => exact absurd hpc hkeys
  · exact .joins
  · exact .joins
  · obtain ⟨worker, hworker, hs⟩ := Option.bind_eq_some_iff.mp hs
    exact .works hworker hs
  · obtain ⟨worker, hworker, hs⟩ := Option.bind_eq_some_iff.mp hs
    exact .throws hworker hs
  · cases hs

theorem Waits.of_pc {t t' : Tui} (h : t.Waits) (hpc : t'.pc = t.pc) : t'.Waits := by
  unfold Waits
  rw [hpc]
  exact h

theorem Stops.of_frame {t t' : Tui} {worker : Worker} (h : Stops t)
    (hworker : t.app.mining.worker = some worker)
    (hframe : t'.pc = t.pc ∧ t'.app.mining.cancel = t.app.mining.cancel ∧
      ∀ worker', t'.app.mining.worker = some worker' → worker'.pc.searches = true →
        worker.pc.searches = true) : Stops t' := by
  obtain ⟨hpc, hcancel, hsearches⟩ := hframe
  intro hwaits worker' hw htrue
  rw [hcancel]
  exact h (hwaits.of_pc hpc.symm) worker hworker (hsearches worker' hw htrue)

/-- A step of a wait that does not end it, with the steps that are left. -/
theorem waiting_step {t t' : Tui} (hwaits : t.Waits) (hstops : Stops t)
    (hs : t.step E label = some t') (hjoin : label ≠ .join) :
    (t'.Waits ∧ Stops t') ∧ (if label.works then 1 else 0) + t'.left ≤ t.left := by
  cases waiting_of_step hwaits hs with
  | joins => exact absurd rfl hjoin
  | interrupted => exact ⟨⟨hwaits.of_pc rfl, fun _ => hstops hwaits⟩, Nat.le_of_eq (Nat.zero_add _)⟩
  | works hworker h =>
    have hframe := workerStep_frame h
    have hleft := workerStep_left hworker (hstops hwaits _ hworker) h
    refine ⟨⟨hwaits.of_pc hframe.1, hstops.of_frame hworker hframe⟩, ?_⟩
    simp only [Label.works, if_true]
    omega
  | throws hworker h =>
    have hframe := workerThrows_frame h
    have hleft := workerThrows_left hworker h
    refine ⟨⟨hwaits.of_pc hframe.1, hstops.of_frame hworker hframe⟩, ?_⟩
    simp only [Label.works, if_true]
    omega

-- ---------------------------------------------------------------------------
-- The cancel flag
-- ---------------------------------------------------------------------------

theorem conclude_not_waits (t : Tui) (result : Option Fault × App) :
    ¬(t.conclude result).Waits := by
  obtain ⟨_ | fault, app⟩ := result <;> simp [conclude, Waits]

theorem loopHead_stops {t : Tui} (hsound : Sound t) : Stops (t.loopHead E io) := by
  unfold loopHead
  split
  · intro _ worker hworker hsearches
    obtain ⟨cancel, hcancel⟩ := stopMining_mining t.app
    have hw : t.app.mining.worker = some worker := by
      simpa [hcancel] using hworker
    have hmining := (hsound.flags worker hw (searches_tries hsearches)).1
    simp [App.stopMining, hmining]
  · split
    · exact fun hwaits => absurd hwaits (conclude_not_waits _ _)
    · rintro (⟨truncates, h⟩ | h) <;> cases h

theorem pressKey_stops {t : Tui} (hkeys : t.pc = .keys) (key : Key) :
    Stops (t.pressKey E key) := by
  have hstays : ∀ {t' : Tui}, t'.pc = .keys → Stops t' := by
    rintro t' hpc (⟨truncates, h⟩ | h) <;> rw [hpc] at h <;> cases h
  cases key with
  | genesis => exact fun hwaits => absurd hwaits (conclude_not_waits _ _)
  | append => exact fun hwaits => absurd hwaits (conclude_not_waits _ _)
  | mine => exact fun hwaits => absurd hwaits (conclude_not_waits _ _)
  | clear truncates =>
    unfold pressKey
    dsimp only
    split
    · exact fun _ _ _ _ => rfl
    · exact hstays hkeys
  | easier =>
    dsimp only [pressKey]
    split <;> exact hstays hkeys
  | harder =>
    dsimp only [pressKey]
    split <;> exact hstays hkeys
  | quit => exact hstays hkeys
  | view => exact hstays hkeys

theorem step_stops {t t' : Tui} (hsound : Sound t) (h : Stops t)
    (hs : t.step E label = some t') : Stops t' := by
  unfold step at hs
  split at hs
  · cases hs
  · cases hs
    exact h
  · cases hs
    exact loopHead_stops hsound
  next hkeys =>
    cases hs
    exact pressKey_stops hkeys _
  · cases hs
    rintro (⟨truncates, hpc⟩ | hpc) <;> cases hpc
  · split at hs
    · cases hs
      rintro (⟨truncates, hpc⟩ | hpc) <;> cases hpc
    · cases hs
  · split at hs
    · cases hs
      rintro (⟨truncates, hpc⟩ | hpc) <;> cases hpc
    · cases hs
  · obtain ⟨worker, hworker, hs⟩ := Option.bind_eq_some_iff.mp hs
    exact h.of_frame hworker (workerStep_frame hs)
  · obtain ⟨worker, hworker, hs⟩ := Option.bind_eq_some_iff.mp hs
    exact h.of_frame hworker (workerThrows_frame hs)
  · cases hs

theorem start_not_waits (E : Env) (store : BlockStore) : ¬(start E store).Waits := by
  unfold start Waits
  dsimp only
  split <;> simp

theorem Reachable.stops (h : Reachable E store t) : Stops t := by
  induction h with
  | refl => exact fun hwaits => absurd hwaits (start_not_waits E store)
  | step hrun _ hs ih => exact step_stops (run_sound hrun) ih hs

-- ---------------------------------------------------------------------------
-- The joins
-- ---------------------------------------------------------------------------

theorem left_le (t : Tui) : t.left ≤ 3 := by
  unfold left
  cases t.app.mining.worker with
  | none => exact Nat.zero_le 3
  | some worker =>
    show worker.pc.left ≤ 3
    cases worker.pc <;> simp [WorkerPc.left]

/-- A join that cannot return leaves a step to the worker. -/
theorem join_or_worker {t : Tui} (hwaits : t.Waits) :
    (t.step E .join).isSome = true ∨
      0 < t.left ∧ (t.step E .worker).isSome = true := by
  by_cases hjoins : t.app.mining.joins = true
  · left
    rcases hwaits with ⟨truncates, hpc⟩ | hpc <;> simp [step, hpc, hjoins]
  · right
    unfold MiningState.joins at hjoins
    cases hworker : t.app.mining.worker with
    | none => simp [hworker] at hjoins
    | some worker =>
      rw [hworker] at hjoins
      have hpc : worker.pc ≠ .finished := by
        intro hpc
        simp [hpc] at hjoins
      have hstep : (t.step E .worker) = t.workerStep E worker := by
        rcases hwaits with ⟨truncates, h⟩ | h <;> simp [step, h, hworker]
      refine ⟨?_, by rw [hstep]; exact workerStep_isSome hpc⟩
      have hleft : t.left = worker.pc.left := by simp [left, hworker, Worker.left]
      rw [hleft]
      cases h : worker.pc <;> simp_all [WorkerPc.left]

/-- However long the main thread waits in a join, the worker makes at most
three steps, and it can make the next one until the join can return. -/
theorem joins_return (E : Env) (store : BlockStore) (t t' : Tui) (labels : List Label)
    (h : Reachable E store t) (hwaits : t.Waits)
    (hrun : Machine.runLabels (step E) (fun _ _ => True) t labels = some t')
    (hjoin : ∀ label ∈ labels, label ≠ .join) :
    labels.countP Label.works ≤ 3 ∧
    ((t'.step E .join).isSome = true ∨
      labels.countP Label.works < 3 ∧ (t'.step E .worker).isSome = true) := by
  obtain ⟨⟨hwaits', -⟩, hrank⟩ := Machine.countP_add_rank_le Label.works
    (fun s l s' hl hs hstep => waiting_step hs.1 hs.2 hstep (hjoin l hl)) hrun
    ⟨hwaits, h.stops⟩
  have hleft := left_le t
  refine ⟨by omega, ?_⟩
  rcases join_or_worker (E := E) hwaits' with hjoins | ⟨hpos, hworker⟩
  · exact .inl hjoins
  · exact .inr ⟨by omega, hworker⟩

/-- The store is cleared before the worker has looked at the chain. -/
theorem joins_return_sample :
    ∃ t ∈ sampleRun (sampleKeys ++ [sampleMineKey, .key (.clear true)]),
    ∃ t' ∈ Machine.runLabels (step sampleEnv) (fun _ _ => True) t
        [.worker, .interrupt, .worker, .worker],
      t'.Waits ∧ (t'.step sampleEnv .join).isSome = true := by
  have hrun : ∃ t ∈ sampleRun (sampleKeys ++ [sampleMineKey, .key (.clear true)]),
      t.pc = .joining true ∧ ∃ t' ∈ Machine.runLabels (step sampleEnv) (fun _ _ => True) t
        [.worker, .interrupt, .worker, .worker], t'.pc = .joining true := by decide +kernel
  obtain ⟨t, ht, hpc, t', ht', hpc'⟩ := hrun
  have hjoins := (joins_return sampleEnv {} t t' [.worker, .interrupt, .worker, .worker]
    (.of_runLabels .refl ht) (.inl ⟨true, hpc⟩) ht' (by simp)).2
  refine ⟨t, ht, t', ht', .inl ⟨true, hpc'⟩, hjoins.resolve_right fun hworks => ?_⟩
  exact absurd hworks.1 (by decide)

end Tui

end Astro
