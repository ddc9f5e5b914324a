import Astro.Tui.Mined
import Astro.Tui.Runs

/-!
# What a step does to chain and log

Three handlers submit a block to `append_and_store`, `do_clear_store` resets
chain and log together, and nothing else touches either of them. `Effect` says
which of these a step comes to, and which exceptions can end the program.
`Carries` follows the transactions from `start_mining` to the mined block.
-/

namespace Astro

/-- The signer that the handler of a key is given. -/
def Label.signer : Label → Option Signer
  | .key (.append signer _ _) | .key (.mine signer _) => some signer
  | _ => none

namespace App

/-- The transaction that `do_append_signed_block` signs on this tip. -/
def nextTransfer (tip : Block) : Transaction :=
  { version := 1
    nonce := 1 + (tip.transactions.getLast?.map (·.nonce)).getD 0
    amount := 42
    toLabel := text "darth vader" }

theorem doAppendSignedBlock_error {app : App} (htip : app.chain.tip = some tip)
    (hsigned : signer.signed (nextTransfer tip) = .error e) :
    app.doAppendSignedBlock E signer unixTime io = (some (.uncaught e), app) := by
  unfold nextTransfer at hsigned
  simp only [doAppendSignedBlock, htip, hsigned]

theorem doAppendSignedBlock_ok {app : App} (htip : app.chain.tip = some tip)
    (hsigned : signer.signed (nextTransfer tip) = .ok tx) :
    app.doAppendSignedBlock E signer unixTime io =
      let block := app.chain.buildBlockFromTransactions E.sha256 [tx] unixTime
      (uncaught (app.submit E block io).1, (app.submit E block io).2) := by
  unfold nextTransfer at hsigned
  simp only [doAppendSignedBlock, htip, hsigned]

end App

namespace Tui

/-- The block that a step submits, and the chain that is to take it. -/
inductive Submits (E : Env) (t : Tui) : Label → Chain → Block → AppendTransfers → Prop
  | genesis (hempty : t.app.chain.height = 0) : Submits E t (.key (.genesis unixTime io))
      t.app.chain (makeGenesisBlock E.sha256 (text "Astro: Born from bytes.") unixTime) io
  | append (htip : t.app.chain.tip = some tip)
      (hsigned : signer.signed (App.nextTransfer tip) = .ok tx) :
      Submits E t (.key (.append signer unixTime io)) t.app.chain
        (t.app.chain.buildBlockFromTransactions E.sha256 [tx] unixTime) io
  | mined (hrunning : t.running = true) (hdone : t.app.mining.done = true) :
      Submits E t (.loopHead io) (t.app.chain.setDifficultyBits t.app.uiDifficultyBits)
        t.app.mining.minedBlock io

/-- `do_clear_store` truncates the log, at once or behind the join. -/
def Clears (t : Tui) : Label → Prop
  | .key (.clear truncates) => truncates = true ∧ t.app.mining.mining = false
  | .join => t.pc = .joining true ∧ t.app.mining.joins = true
  | _ => False

inductive Effect (E : Env) (t : Tui) (label : Label) (t' : Tui) : Prop
  | keeps (hchain : t'.app.chain = t.app.chain) (hstore : t'.app.store = t.app.store)
      (hfault : ∀ e, t'.pc = .stopped (some (.uncaught e)) →
        ∃ signer tx, label.signer = some signer ∧ signer.signed tx = .error e)
  | submits (c : Chain) (block : Block) (io : AppendTransfers)
      (hsubmits : Submits E t label c block io)
      (hresult : (t'.app.chain, t'.app.store) = (c.appendAndStore E block io t.app.store).2)
      (hfault : ∀ fault, t'.pc = .stopped (some fault) ↔
        uncaught (c.appendAndStore E block io t.app.store).1 = some fault)
  | clears (hclears : Clears t label) (hchain : t'.app.chain = { config := t.app.chain.config })
      (hstore : t'.app.store = { t.app.store with log := some [] }) (hpc : t'.pc = .keys)

-- ---------------------------------------------------------------------------
-- Handlers
-- ---------------------------------------------------------------------------

theorem conclude_stopped {t : Tui} {result : Option Fault × App} :
    (t.conclude result).pc = .stopped (some fault) ↔ result.1 = some fault := by
  obtain ⟨_ | fault', app⟩ := result <;> simp [conclude]

/-- A step that submits a block and goes on with what became of it. -/
theorem submits_effect {t t' : Tui} {c : Chain} {app : App}
    (hsubmits : Submits E t label c block io)
    (hstart : app.chain = c ∧ app.store = t.app.store) :
    Effect E t label
      (t'.conclude (uncaught (app.submit E block io).1, (app.submit E block io).2)) := by
  obtain ⟨rfl, hstore⟩ := hstart
  refine .submits _ block io hsubmits ?_ fun fault => ?_
  · rw [conclude_app, ← hstore]
    rfl
  · rw [conclude_stopped, ← hstore]
    rfl

theorem genesis_effect (E : Env) (unixTime : UInt64) (io : AppendTransfers) (t : Tui) :
    Effect E t (.key (.genesis unixTime io)) (t.pressKey E (.genesis unixTime io)) := by
  rw [pressKey, App.doGenesis]
  by_cases hheight : t.app.chain.height > 0
  · rw [if_pos hheight]
    exact .keeps rfl rfl (by simp [conclude])
  · rw [if_neg hheight]
    exact submits_effect (.genesis (Nat.eq_zero_of_not_pos hheight)) ⟨rfl, rfl⟩

theorem append_effect (E : Env) (signer : Signer) (unixTime : UInt64) (io : AppendTransfers)
    (t : Tui) :
    Effect E t (.key (.append signer unixTime io)) (t.pressKey E (.append signer unixTime io)) := by
  rw [pressKey]
  cases htip : t.app.chain.tip with
  | none =>
    rw [App.doAppendSignedBlock, htip]
    exact .keeps rfl rfl (by simp [conclude])
  | some tip =>
    cases hsigned : signer.signed (App.nextTransfer tip) with
    | error e =>
      rw [App.doAppendSignedBlock_error htip hsigned]
      refine .keeps rfl rfl fun e' he' => ⟨signer, App.nextTransfer tip, rfl, ?_⟩
      obtain rfl : e = e' := by simpa [conclude] using he'
      exact hsigned
    | ok tx =>
      rw [App.doAppendSignedBlock_ok htip hsigned]
      exact submits_effect (.append htip hsigned) ⟨rfl, rfl⟩

theorem startMining_store (signer : Signer) (clock : Nat → UInt64) (app : App) :
    (app.startMining signer clock).2.store = app.store := by
  unfold App.startMining
  split
  · rfl
  · split
    · rfl
    · split <;> rfl

theorem startMining_fault {app : App} (h : (app.startMining signer clock).1 = some fault) :
    fault = .joinableAssigned ∨
      ∃ e, fault = .uncaught e ∧ signer.signed App.minerReward = .error e := by
  unfold App.startMining at h
  split at h
  · cases h
  · split at h
    next e he =>
      cases h
      exact .inr ⟨e, rfl, he⟩
    · split at h
      · cases h
        exact .inl rfl
      · cases h

theorem mine_effect (E : Env) (signer : Signer) (clock : Nat → UInt64) (t : Tui) :
    Effect E t (.key (.mine signer clock)) (t.pressKey E (.mine signer clock)) := by
  refine .keeps ?_ ?_ fun e he => ⟨signer, App.minerReward, rfl, ?_⟩
  · rw [pressKey, conclude_app, startMining_chain]
  · rw [pressKey, conclude_app, startMining_store]
  · rw [pressKey, conclude_stopped] at he
    rcases startMining_fault he with hne | ⟨e', heq, hsigned⟩
    · cases hne
    · cases heq
      exact hsigned

theorem truncateLog_effect {t t' : Tui} (truncates : Bool) {app : App}
    (hclears : truncates = true → Clears t label) (ht' : t'.app = app.truncateLog truncates)
    (happ : app.chain = t.app.chain ∧ app.store = t.app.store) (hpc : t'.pc = .keys) : Effect E t label t' := by
  obtain ⟨hchain, hstore⟩ := happ
  cases truncates with
  | false => exact .keeps (by rw [ht', ← hchain]; rfl) (by rw [ht', ← hstore]; rfl) (by simp [hpc])
  | true => exact .clears (hclears rfl) (by rw [ht', ← hchain]; rfl) (by rw [ht', ← hstore]; rfl) hpc

theorem pressKey_effect {t : Tui} (hkeys : t.pc = .keys) (key : Key) :
    Effect E t (.key key) (t.pressKey E key) := by
  cases key with
  | quit => exact .keeps rfl rfl (by simp [pressKey, hkeys])
  | genesis unixTime io => exact genesis_effect E unixTime io t
  | append signer unixTime io => exact append_effect E signer unixTime io t
  | mine signer clock => exact mine_effect E signer clock t
  | easier =>
    dsimp only [pressKey]
    split <;> exact .keeps rfl rfl (by simp [hkeys])
  | harder =>
    dsimp only [pressKey]
    split <;> exact .keeps rfl rfl (by simp [hkeys])
  | clear truncates =>
    dsimp only [pressKey]
    split
    · exact .keeps rfl rfl (by simp)
    next hmining =>
      exact truncateLog_effect truncates (fun h => ⟨h, by simpa using hmining⟩) rfl ⟨rfl, rfl⟩ hkeys
  | view => exact .keeps rfl rfl (by simp [pressKey, hkeys])

theorem loopHead_effect (E : Env) (io : AppendTransfers) (t : Tui) :
    Effect E t (.loopHead io) (t.loopHead E io) := by
  unfold loopHead
  cases hrunning : t.running with
  | false =>
    refine .keeps (stopMining_chain t.app) ?_ (by simp)
    show t.app.stopMining.store = t.app.store
    unfold App.stopMining
    split <;> rfl
  | true =>
    cases hdone : t.app.mining.done with
    | false => exact .keeps rfl rfl (by simp)
    | true => exact submits_effect (.mined hrunning hdone) ⟨rfl, rfl⟩

-- ---------------------------------------------------------------------------
-- Steps
-- ---------------------------------------------------------------------------

theorem workerStep_keeps {t t' : Tui} (h : t.workerStep E worker = some t') :
    t'.app.store = t.app.store ∧ t'.pc = t.pc := by
  unfold workerStep at h
  split at h
  · cases h; exact ⟨rfl, rfl⟩
  · split at h <;> cases h <;> exact ⟨rfl, rfl⟩
  · cases h; exact ⟨rfl, rfl⟩
  · cases h; exact ⟨rfl, rfl⟩
  · cases h; exact ⟨rfl, rfl⟩
  · cases h

theorem workerThrows_keeps {t t' : Tui} (h : t.workerThrows worker = some t') :
    t'.app.store = t.app.store ∧ t'.pc = t.pc := by
  unfold workerThrows at h
  split at h <;> cases h <;> exact ⟨rfl, rfl⟩

theorem effect_of_step {t t' : Tui} (h : t.step E label = some t') : Effect E t label t' := by
  have hlive := step_live h
  unfold step at h
  split at h
  · cases h
  · cases h
    exact .keeps rfl rfl fun e he => absurd he (hlive _)
  · cases h
    exact loopHead_effect E _ t
  next hkeys =>
    cases h
    exact pressKey_effect hkeys _
  · cases h
    exact .keeps rfl rfl (by simp)
  next truncates hpc =>
    split at h
    next hjoins =>
      cases h
      exact truncateLog_effect truncates (fun h => ⟨h ▸ hpc, hjoins⟩) rfl ⟨rfl, rfl⟩ rfl
    · cases h
  · split at h
    · cases h
      exact .keeps rfl rfl (by simp [quitJoined])
    · cases h
  · obtain ⟨worker, -, h⟩ := Option.bind_eq_some_iff.mp h
    obtain ⟨hstore, hpc⟩ := workerStep_keeps h
    exact .keeps (workerStep_chain h) hstore fun e he => absurd (hpc ▸ he) (hlive _)
  · obtain ⟨worker, -, h⟩ := Option.bind_eq_some_iff.mp h
    obtain ⟨hstore, hpc⟩ := workerThrows_keeps h
    exact .keeps (workerThrows_chain h) hstore fun e he => absurd (hpc ▸ he) (hlive _)
  · cases h

end Tui

-- ---------------------------------------------------------------------------
-- The transactions of the worker
-- ---------------------------------------------------------------------------

def WorkerPc.miner : WorkerPc → Option Miner
  | .searching miner | .found miner | .stored miner => some miner
  | _ => none

theorem Miner.bumpTimestamp_transactions (clock : Nat → UInt64) (miner : Miner) :
    (miner.bumpTimestamp clock).block.transactions = miner.block.transactions := by
  unfold bumpTimestamp
  split
  · dsimp only
    split <;> rfl
  · rfl

theorem Miner.turn_transactions {miner next : Miner} {cancelled : Bool}
    (h : miner.turn E difficultyBits clock cancelled = .found next ∨
      miner.turn E difficultyBits clock cancelled = .next next) :
    next.block.transactions = miner.block.transactions := by
  unfold turn at h
  dsimp only at h
  split at h
  · rcases h with h | h <;> cases h
  · split at h
    · rcases h with h | h <;> cases h
      rfl
    · rcases h with h | h <;> cases h
      exact bumpTimestamp_transactions clock _

namespace Tui

/-- Whatever the threads mine or have mined carries transactions of a kind. -/
structure Carries (P : List Transaction → Prop) (t : Tui) : Prop where
  minedBlock : P t.app.mining.minedBlock.transactions
  worker : ∀ worker, t.app.mining.worker = some worker → P worker.transactions ∧
    ∀ miner, worker.pc.miner = some miner → P miner.block.transactions

theorem Carries.mono {t t' : Tui} (h : Carries P t)
    (hmined : t'.app.mining.minedBlock = t.app.mining.minedBlock)
    (hworker : t'.app.mining.worker = t.app.mining.worker) : Carries P t' :=
  ⟨hmined ▸ h.minedBlock, hworker ▸ h.worker⟩

/-- Goes on with the same transactions. -/
theorem Carries.setWorker {t : Tui} {worker : Worker} (h : Carries P t)
    (htransactions : P worker.transactions)
    (hminer : ∀ miner, worker.pc.miner = some miner → P miner.block.transactions) :
    Carries P (t.setWorker worker) := by
  refine ⟨h.minedBlock, fun worker' hw => ?_⟩
  obtain rfl : worker = worker' := Option.some.inj hw
  exact ⟨htransactions, hminer⟩

theorem startMining_carries {t : Tui} (h : Carries P t)
    (hsigned : ∀ tx, signer.signed App.minerReward = .ok tx → P [tx]) :
    Carries P (t.pressKey E (.mine signer clock)) := by
  rw [pressKey]
  unfold App.startMining
  split
  · exact h.mono (by rw [conclude_app]) (by rw [conclude_app])
  · split
    · exact h.mono (by rw [conclude_app]) (by rw [conclude_app])
    next tx htx =>
      dsimp only
      split
      · exact h.mono (by rw [conclude_app]) (by rw [conclude_app])
      · refine ⟨by simpa [conclude] using h.minedBlock, fun worker hw => ?_⟩
        rw [conclude_app] at hw
        cases hw
        exact ⟨hsigned tx htx, fun miner hpc => by cases hpc⟩

theorem step_carries {t t' : Tui} (h : Carries P t)
    (hmines : ∀ signer clock tx, label = .key (.mine signer clock) →
      signer.signed App.minerReward = .ok tx → P [tx])
    (hs : t.step E label = some t') : Carries P t' := by
  have hmined : label.mines = true → Carries P t' := by
    intro hlabel
    unfold Label.mines at hlabel
    split at hlabel
    next signer clock =>
      rw [step_key hs]
      exact startMining_carries h fun tx => hmines signer clock tx rfl
    · cases hlabel
  cases move_of_step hs with
  | idle cancel hmining _ _ => exact h.mono (by rw [hmining]) (by rw [hmining])
  | handsOver _ hmining _ _ => exact h.mono (by rw [hmining]) (by rw [hmining])
  | starts _ hlabel => exact hmined hlabel
  | startFails _ hlabel => exact hmined hlabel
  | clearJoins truncates _ _ =>
    exact ⟨by rw [clearJoined_mining]; exact h.minedBlock, by simp [clearJoined_mining]⟩
  | quitJoins _ _ => exact ⟨h.minedBlock, by simp [quitJoined]⟩
  | builds hworker _ =>
    refine h.setWorker (h.worker _ hworker).1 fun miner hminer => ?_
    cases hminer
    exact (h.worker _ hworker).1
  | searches hworker hpc hturn =>
    obtain ⟨htransactions, hminer⟩ := h.worker _ hworker
    refine h.setWorker htransactions fun miner hnext => ?_
    cases hnext
    rw [Miner.turn_transactions (.inr hturn)]
    exact hminer _ (by rw [hpc]; rfl)
  | finds hworker hpc hturn =>
    obtain ⟨htransactions, hminer⟩ := h.worker _ hworker
    refine h.setWorker htransactions fun miner hfound => ?_
    cases hfound
    rw [Miner.turn_transactions (.inl hturn)]
    exact hminer _ (by rw [hpc]; rfl)
  | givesUp hworker _ =>
    exact h.setWorker (h.worker _ hworker).1 fun miner hminer => by cases hminer
  | stores hworker hpc =>
    obtain ⟨htransactions, hminer⟩ := h.worker _ hworker
    have hblock := hminer _ (by rw [hpc]; rfl)
    refine ⟨hblock, fun worker' hw => ?_⟩
    cases hw
    refine ⟨htransactions, fun miner hstored => ?_⟩
    cases hstored
    exact hblock
  | publishes hworker _ =>
    refine ⟨h.minedBlock, fun worker' hw => ?_⟩
    cases hw
    exact ⟨(h.worker _ hworker).1, fun miner hminer => by cases hminer⟩
  | clears hworker _ =>
    refine ⟨h.minedBlock, fun worker' hw => ?_⟩
    cases hw
    exact ⟨(h.worker _ hworker).1, fun miner hminer => by cases hminer⟩

end Tui

end Astro
