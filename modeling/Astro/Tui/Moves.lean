import Astro.Tui.Threads

/-!
# What a step does

`Move` lists the steps by what they do to the mining state and to the history.
Most handlers are idle moves: of what the threads share, they touch nothing
but the cancel flag.
-/

namespace Astro

/-- The worker is in `mine_block`. -/
def WorkerPc.searches : WorkerPc → Bool
  | .building | .searching _ => true
  | _ => false

namespace Tui

inductive Move (E : Env) (t : Tui) (label : Label) : Tui → Prop
  | idle {t' : Tui} (cancel : Bool) (hmining : t'.app.mining = { t.app.mining with cancel })
      (hhistory : t'.history = t.history) (hfault : t'.pc ≠ .stopped (some .joinableAssigned)) :
      Move E t label t'
  | handsOver {t' : Tui} (hdone : t.app.mining.done = true)
      (hmining : t'.app.mining = { t.app.mining with done := false, mining := false })
      (hhistory : t'.history =
        { t.history with handed := t.history.handed ++ [t.app.mining.minedBlock] })
      (hfault : t'.pc ≠ .stopped (some .joinableAssigned)) : Move E t label t'
  | starts {t' : Tui} (worker : Worker) (hlabel : label.mines = true)
      (hahead : t.app.goesAhead = true) (hold : t.app.mining.worker = none)
      (hnew : worker.pc = .building)
      (hmining : t'.app.mining = { t.app.mining with
        cancel := false, done := false, mining := true, worker := some worker })
      (hhistory : t'.history = { t.history with startedSinceJoin := true })
      (hpc : t'.pc = .keys) : Move E t label t'
  | startFails {t' : Tui} (fault : Fault) (hlabel : label.mines = true)
      (hahead : t.app.goesAhead = true)
      (hjoinable : fault = .joinableAssigned → t.app.mining.worker.isSome = true)
      (hmining : t'.app.mining = { t.app.mining with
        cancel := false, done := false, mining := true })
      (hhistory : t'.history = { t.history with startedSinceJoin := true })
      (hpc : t'.pc = .stopped (some fault)) : Move E t label t'
  | clearJoins (truncates : Bool) (hlabel : label = .join) (hjoins : t.app.mining.joins = true) :
      Move E t label (t.clearJoined truncates)
  | quitJoins (hlabel : label = .join) (hjoins : t.app.mining.joins = true) :
      Move E t label t.quitJoined
  | builds (hworker : t.app.mining.worker = some worker) (hpc : worker.pc = .building) :
      Move E t label (t.setWorker (worker.mining .searching
        (.start E.sha256 t.app.chain worker.transactions worker.clock)))
  | searches (hworker : t.app.mining.worker = some worker) (hpc : worker.pc = .searching miner)
      (hturn : miner.turn E worker.difficulty worker.clock t.app.mining.cancel = .next next) :
      Move E t label (t.setWorker (worker.mining .searching next))
  | finds (hworker : t.app.mining.worker = some worker) (hpc : worker.pc = .searching miner)
      (hturn : miner.turn E worker.difficulty worker.clock t.app.mining.cancel = .found found) :
      Move E t label (t.setWorker (worker.mining .found found))
  | givesUp (hworker : t.app.mining.worker = some worker) (hpc : worker.pc.searches = true) :
      Move E t label (t.setWorker { worker with pc := .clearing })
  | stores (hworker : t.app.mining.worker = some worker) (hpc : worker.pc = .found miner) :
      Move E t label { t.setWorker { worker with pc := .stored miner } with
        app.mining.minedBlock := miner.block }
  | publishes (hworker : t.app.mining.worker = some worker) (hpc : worker.pc = .stored miner) :
      Move E t label { t.setWorker { worker with pc := .clearing } with
        app.mining.done := true
        history.published := t.history.published ++ [miner.block] }
  | clears (hworker : t.app.mining.worker = some worker) (hpc : worker.pc = .clearing) :
      Move E t label { t.setWorker { worker with pc := .finished } with app.mining.mining := false }

-- ---------------------------------------------------------------------------
-- Handlers
-- ---------------------------------------------------------------------------

theorem uncaught_ne (r : Except Exn α) : uncaught r ≠ some .joinableAssigned := by
  cases r <;> simp [uncaught]

@[simp] theorem conclude_app (t : Tui) (result : Option Fault × App) :
    (t.conclude result).app = result.2 := by
  obtain ⟨_ | fault, app⟩ := result <;> rfl

@[simp] theorem conclude_history (t : Tui) (result : Option Fault × App) :
    (t.conclude result).history = t.history := by
  obtain ⟨_ | fault, app⟩ := result <;> rfl

theorem of_conclude_keys {t : Tui} {result : Option Fault × App}
    (h : (t.conclude result).pc = .keys) : result.1 = none := by
  obtain ⟨_ | fault, app⟩ := result
  · rfl
  · cases h

theorem conclude_idle {t t' : Tui} {result : Option Fault × App} (cancel : Bool)
    (hmining : result.2.mining = { t.app.mining with cancel })
    (hhistory : t'.history = t.history) (hfault : result.1 ≠ some .joinableAssigned) :
    Move E t label (t'.conclude result) := by
  obtain ⟨fault, app⟩ := result
  cases fault with
  | none => exact .idle cancel hmining hhistory (by simp [conclude])
  | some fault => exact .idle cancel hmining hhistory (by simpa [conclude] using hfault)

theorem doGenesis_mining (E : Env) (unixTime : UInt64) (io : AppendTransfers) (app : App) :
    (app.doGenesis E unixTime io).2.mining = app.mining ∧
      (app.doGenesis E unixTime io).1 ≠ some .joinableAssigned := by
  unfold App.doGenesis
  split
  · simp
  · exact ⟨rfl, uncaught_ne _⟩

theorem doAppendSignedBlock_mining (E : Env) (signer : Signer) (unixTime : UInt64)
    (io : AppendTransfers) (app : App) :
    (app.doAppendSignedBlock E signer unixTime io).2.mining = app.mining ∧
      (app.doAppendSignedBlock E signer unixTime io).1 ≠ some .joinableAssigned := by
  unfold App.doAppendSignedBlock
  split
  · simp
  · dsimp only
    split
    · simp
    · exact ⟨rfl, uncaught_ne _⟩

theorem truncateLog_mining (truncates : Bool) (app : App) :
    (app.truncateLog truncates).mining = app.mining := by
  unfold App.truncateLog
  split <;> rfl

theorem clearJoined_mining (truncates : Bool) (t : Tui) : (t.clearJoined truncates).app.mining =
    { t.app.mining with worker := none, mining := false } :=
  truncateLog_mining truncates _

theorem stopMining_mining (app : App) :
    ∃ cancel, app.stopMining.mining = { app.mining with cancel } := by
  unfold App.stopMining
  split
  · exact ⟨app.mining.cancel, rfl⟩
  · exact ⟨true, rfl⟩

theorem loopHead_move (E : Env) (io : AppendTransfers) (t : Tui) :
    Move E t label (t.loopHead E io) := by
  unfold loopHead
  split
  · obtain ⟨cancel, hcancel⟩ := stopMining_mining t.app
    exact .idle cancel hcancel rfl (by simp)
  · split
    next hdone =>
      dsimp only
      cases h : uncaught (t.app.handleDone E io).1 with
      | none => exact .handsOver hdone rfl rfl (by simp [conclude])
      | some fault =>
        have hne := uncaught_ne (t.app.handleDone E io).1
        exact .handsOver hdone rfl rfl (by simpa [conclude, h] using hne)
    · exact .idle t.app.mining.cancel rfl rfl (by simp)

theorem startMining_move (E : Env) (signer : Signer) (clock : Nat → UInt64) (t : Tui) :
    Move E t (.key (.mine signer clock)) (t.pressKey E (.mine signer clock)) := by
  unfold pressKey App.startMining
  cases hahead : t.app.goesAhead with
  | false =>
    exact .idle t.app.mining.cancel rfl (by simp [conclude]) (by simp [conclude])
  | true =>
    simp only [Bool.not_true, Bool.false_eq_true, if_false, Bool.true_or]
    cases signer.signed App.minerReward with
    | error e => exact .startFails (.uncaught e) rfl hahead (by simp) rfl rfl rfl
    | ok tx =>
      dsimp only
      split
      next hjoinable =>
        exact .startFails .joinableAssigned rfl hahead (fun _ => hjoinable) rfl rfl rfl
      next hjoinable =>
        exact .starts { difficulty := t.app.uiDifficultyBits, transactions := [tx], clock } rfl
          hahead (Option.not_isSome_iff_eq_none.mp hjoinable) rfl rfl rfl rfl

theorem pressKey_move (E : Env) (t : Tui) (hkeys : t.pc = .keys) (key : Key) :
    Move E t (.key key) (t.pressKey E key) := by
  cases key with
  | quit => exact .idle t.app.mining.cancel rfl rfl (by simp [pressKey, hkeys])
  | genesis unixTime io =>
    obtain ⟨hmining, hfault⟩ := doGenesis_mining E unixTime io t.app
    exact conclude_idle t.app.mining.cancel hmining rfl hfault
  | append signer unixTime io =>
    obtain ⟨hmining, hfault⟩ := doAppendSignedBlock_mining E signer unixTime io t.app
    exact conclude_idle t.app.mining.cancel hmining rfl hfault
  | mine signer clock => exact startMining_move E signer clock t
  | easier =>
    dsimp only [pressKey]
    split <;> exact .idle t.app.mining.cancel rfl rfl (by simp [hkeys])
  | harder =>
    dsimp only [pressKey]
    split <;> exact .idle t.app.mining.cancel rfl rfl (by simp [hkeys])
  | clear truncates =>
    dsimp only [pressKey]
    split
    · exact .idle true rfl rfl (by simp)
    · exact .idle t.app.mining.cancel (truncateLog_mining truncates t.app) rfl (by simp [hkeys])
  | view => exact .idle t.app.mining.cancel rfl rfl (by simp [pressKey, hkeys])

-- ---------------------------------------------------------------------------
-- The worker
-- ---------------------------------------------------------------------------

theorem workerStep_move {t' : Tui} (hworker : t.app.mining.worker = some worker)
    (h : t.workerStep E worker = some t') : Move E t label t' := by
  unfold workerStep at h
  cases hpc : worker.pc with
  | building =>
    rw [hpc] at h
    cases h
    exact .builds hworker hpc
  | searching miner =>
    rw [hpc] at h
    dsimp only at h
    cases hturn : miner.turn E worker.difficulty worker.clock t.app.mining.cancel with
    | cancelled =>
      rw [hturn] at h
      cases h
      exact .givesUp hworker (by simp [hpc, WorkerPc.searches])
    | found miner =>
      rw [hturn] at h
      cases h
      exact .finds hworker hpc hturn
    | next miner =>
      rw [hturn] at h
      cases h
      exact .searches hworker hpc hturn
  | found miner =>
    rw [hpc] at h
    cases h
    exact .stores hworker hpc
  | stored miner =>
    rw [hpc] at h
    cases h
    exact .publishes hworker hpc
  | clearing =>
    rw [hpc] at h
    cases h
    exact .clears hworker hpc
  | finished =>
    rw [hpc] at h
    cases h

theorem workerThrows_move {t' : Tui} (hworker : t.app.mining.worker = some worker)
    (h : t.workerThrows worker = some t') : Move E t label t' := by
  unfold workerThrows at h
  split at h
  next hpc =>
    cases h
    exact .givesUp hworker (by simp [hpc, WorkerPc.searches])
  next hpc =>
    cases h
    exact .givesUp hworker (by simp [hpc, WorkerPc.searches])
  · cases h

-- ---------------------------------------------------------------------------
-- Steps
-- ---------------------------------------------------------------------------

theorem move_of_step {t' : Tui} (h : t.step E label = some t') : Move E t label t' := by
  unfold step at h
  split at h
  · cases h
  next hpc =>
    cases h
    exact .idle t.app.mining.cancel rfl rfl (hpc _)
  · cases h
    exact loopHead_move E _ t
  next hpc =>
    cases h
    exact pressKey_move E t hpc _
  · cases h
    exact .idle t.app.mining.cancel rfl rfl (by simp)
  next truncates hpc =>
    split at h
    next hjoins =>
      cases h
      exact .clearJoins truncates rfl hjoins
    · cases h
  next hpc =>
    split at h
    next hjoins =>
      cases h
      exact .quitJoins rfl hjoins
    · cases h
  · obtain ⟨worker, hworker, h⟩ := Option.bind_eq_some_iff.mp h
    exact workerStep_move hworker h
  · obtain ⟨worker, hworker, h⟩ := Option.bind_eq_some_iff.mp h
    exact workerThrows_move hworker h
  · cases h

theorem step_key {t t' : Tui} (h : t.step E (.key key) = some t') :
    t' = t.pressKey E key := by
  unfold step at h
  split at h <;> simp_all

end Tui

end Astro
