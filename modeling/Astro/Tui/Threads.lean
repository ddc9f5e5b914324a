import Astro.Library.Machine
import Astro.Tui.App

/-!
# The threads of tui.cpp

The main thread looks at the `done` flag at the head of its loop and then
handles keys; the worker mines. A handler is one step, and so is each access
of the worker to what the threads share, its unsynchronised look at the chain
included. A join is a step of its own, which waits until the worker has
finished.
-/

namespace Astro

/-- Where the main thread is: at the head of the loop, at the key loop, in the
join of `do_clear_store`, in the join after the loop, or at its end. -/
inductive MainPc
  | top
  | keys
  | joining (truncates : Bool)
  | quitting
  | stopped (fault : Option Fault)
  deriving DecidableEq

/-- What has happened, for statements about runs; no step looks at it. -/
structure History where
  /-- Whether `start_mining` has gone ahead and no `do_clear_store` has joined
  the worker since. -/
  startedSinceJoin : Bool := false
  /-- The blocks with which a worker has set `done`. -/
  published : List Block := []
  /-- The blocks for which the main loop has called `append_and_store`. -/
  handed : List Block := []

structure Tui where
  app : App
  pc : MainPc := .top
  running : Bool := true
  history : History := {}

/-- `clear` says whether the log opens for truncation; `view` is every key
that changes nothing but what is shown. -/
inductive Key
  | quit
  | genesis (unixTime : UInt64) (io : AppendTransfers)
  | append (signer : Signer) (unixTime : UInt64) (io : AppendTransfers)
  | mine (signer : Signer) (clock : Nat → UInt64)
  | easier
  | harder
  | clear (truncates : Bool)
  | view

inductive Label
  | interrupt
  | loopHead (io : AppendTransfers)
  | key (key : Key)
  | noKey
  | join
  | worker
  /-- An exception that leaves `mine_block` for another reason than the cancel flag. -/
  | workerThrows

/-- Whether the label is a call of `start_mining`. -/
def Label.mines : Label → Bool
  | .key (.mine _ _) => true
  | _ => false

namespace Tui

/-- Goes on with the keys, unless the handler was left by a fault. -/
def conclude (t : Tui) : Option Fault × App → Tui
  | (none, app) => { t with app, pc := .keys }
  | (some fault, app) => { t with app, pc := .stopped (some fault) }

def loopHead (E : Env) (io : AppendTransfers) (t : Tui) : Tui :=
  if !t.running then { t with app := t.app.stopMining, pc := .quitting }
  else if t.app.mining.done then
    let handed := t.history.handed ++ [t.app.mining.minedBlock]
    let (result, app) := t.app.handleDone E io
    { t with history.handed := handed }.conclude (uncaught result, app)
  else { t with pc := .keys }

def pressKey (E : Env) (t : Tui) : Key → Tui
  | .quit => { t with running := false }
  | .genesis unixTime io => t.conclude (t.app.doGenesis E unixTime io)
  | .append signer unixTime io => t.conclude (t.app.doAppendSignedBlock E signer unixTime io)
  | .mine signer clock =>
    let started := t.app.goesAhead || t.history.startedSinceJoin
    { t with history.startedSinceJoin := started }.conclude (t.app.startMining signer clock)
  | .easier =>
    if t.app.uiDifficultyBits > 0 then
      { t with app.uiDifficultyBits := t.app.uiDifficultyBits - 1 }
    else t
  | .harder =>
    if t.app.uiDifficultyBits < 32 then
      { t with app.uiDifficultyBits := t.app.uiDifficultyBits + 1 }
    else t
  | .clear truncates =>
    if t.app.mining.mining then { t with app.mining.cancel := true, pc := .joining truncates }
    else { t with app := t.app.truncateLog truncates }
  | .view => t

-- ---------------------------------------------------------------------------
-- The worker
-- ---------------------------------------------------------------------------

def setWorker (t : Tui) (worker : Worker) : Tui :=
  { t with app.mining.worker := some worker }

def workerStep (E : Env) (t : Tui) (worker : Worker) : Option Tui :=
  match worker.pc with
  | .building =>
    some (t.setWorker (worker.mining .searching
      (.start E.sha256 t.app.chain worker.transactions worker.clock)))
  | .searching miner =>
    match miner.turn E worker.difficulty worker.clock t.app.mining.cancel with
    | .cancelled => some (t.setWorker { worker with pc := .clearing })
    | .found miner => some (t.setWorker (worker.mining .found miner))
    | .next miner => some (t.setWorker (worker.mining .searching miner))
  | .found miner =>
    let t := t.setWorker { worker with pc := .stored miner }
    some { t with app.mining.minedBlock := miner.block }
  | .stored miner =>
    let t := t.setWorker { worker with pc := .clearing }
    let published := t.history.published ++ [miner.block]
    some { t with app.mining.done := true, history.published := published }
  | .clearing =>
    let t := t.setWorker { worker with pc := .finished }
    some { t with app.mining.mining := false }
  | .finished => none

def workerThrows (t : Tui) (worker : Worker) : Option Tui :=
  match worker.pc with
  | .building | .searching _ => some (t.setWorker { worker with pc := .clearing })
  | _ => none

-- ---------------------------------------------------------------------------
-- Joins
-- ---------------------------------------------------------------------------

/-- The join of `do_clear_store`, and what is behind it. -/
def clearJoined (t : Tui) (truncates : Bool) : Tui :=
  let app := { t.app with mining.worker := none, mining.mining := false }
  { t with
    app := app.truncateLog truncates
    pc := .keys
    history.startedSinceJoin := false }

def quitJoined (t : Tui) : Tui := { t with app.mining.worker := none, pc := .stopped none }

-- ---------------------------------------------------------------------------
-- Steps
-- ---------------------------------------------------------------------------

def step (E : Env) (t : Tui) (label : Label) : Option Tui :=
  match t.pc, label with
  | .stopped _, _ => none
  | _, .interrupt => some { t with running := false }
  | .top, .loopHead io => some (t.loopHead E io)
  | .keys, .key key => some (t.pressKey E key)
  | .keys, .noKey => some { t with pc := .top }
  | .joining truncates, .join =>
    if t.app.mining.joins then some (t.clearJoined truncates) else none
  | .quitting, .join => if t.app.mining.joins then some t.quitJoined else none
  | _, .worker => t.app.mining.worker.bind (t.workerStep E)
  | _, .workerThrows => t.app.mining.worker.bind t.workerThrows
  | _, _ => none

/-- The main thread before its loop, with the log as an earlier session left it. -/
def start (E : Env) (store : BlockStore) : Tui :=
  let (result, chain) := ({} : Chain).restoreFromStore E store
  { app := { chain, store }
    pc := match uncaught result with
      | none => .top
      | some fault => .stopped (some fault) }

/-- A state that some interleaving reaches. -/
def Reachable (E : Env) (store : BlockStore) : Tui → Prop :=
  Machine.Run (step E) (fun _ _ => True) (start E store)

end Tui

-- ---------------------------------------------------------------------------
-- A sample run
-- ---------------------------------------------------------------------------

def sampleSigner : Signer where
  keyPair := .ok ⟨[1], [1], by simp⟩
  signMessage := fun privkeyPem _ => .ok privkeyPem

def sampleGenesisKey : Label := .key (.genesis 1 (.buffered none none))

def sampleMineKey : Label := .key (.mine sampleSigner fun _ => 5)

/-- A first block, and a difficulty of 0. -/
def sampleKeys : List Label :=
  [.loopHead (.buffered none none), sampleGenesisKey] ++ List.replicate 16 (.key .easier)

def sampleRun (labels : List Label) : Option Tui :=
  Machine.runLabels (Tui.step sampleEnv) (fun _ _ => True) (Tui.start sampleEnv {}) labels

end Astro
