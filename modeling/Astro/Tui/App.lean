import Astro.Core.Miner
import Astro.Storage.Sessions

/-!
# The App of tui.cpp

The handlers of tui.cpp, each as one step of the main thread. What they are
given from outside is an argument: the clock, OpenSSL's answers, and how the
system serves the log. A handler returns the fault that ends the program, if
any, and the `App` that it leaves. Drawing, log lines and toasts are left out,
and the system is taken to start every thread that it is asked for.
-/

namespace Astro

/-- The bytes of a `std::string`. -/
def text (s : String) : Bytes := s.toUTF8.data.toList

/-- Key pairs come from `export_key_pem`, which throws when there is nothing
to export. -/
structure KeyPair where
  privkeyPem : Bytes
  pubkeyPem : Bytes
  exported : pubkeyPem ≠ []

/-- What `generate_ec_keypair` does, and `sign_message` with that key. -/
structure Signer where
  keyPair : Except Exn KeyPair
  signMessage : Bytes → Bytes → Except Exn Bytes

/-- Both handlers that make a transaction put a fresh key into it and sign it. -/
def Signer.signed (signer : Signer) (tx : Transaction) : Except Exn Transaction :=
  match signer.keyPair with
  | .error e => .error e
  | .ok keyPair =>
    { tx with fromPubPem := keyPair.pubkeyPem }.sign signer.signMessage keyPair.privkeyPem

-- ---------------------------------------------------------------------------
-- Shared state
-- ---------------------------------------------------------------------------

/-- Where the worker is: in `mine_block`, with the block still to be built or
at the head of the loop; behind it, about to store the block or to set `done`;
about to clear the mining flag; or at its end. -/
inductive WorkerPc
  | building
  | searching (miner : Miner)
  | found (miner : Miner)
  | stored (miner : Miner)
  | clearing
  | finished

structure Worker where
  difficulty : UInt32
  transactions : List Transaction
  clock : Nat → UInt64
  pc : WorkerPc := .building
  /-- How often the clock has been read so far. -/
  clockReadings : Nat := 0

/-- Goes on with `mine_block`, or leaves it with a block. -/
def Worker.mining (pc : Miner → WorkerPc) (miner : Miner) (worker : Worker) : Worker :=
  { worker with pc := pc miner, clockReadings := miner.clockReadings }

structure MiningState where
  mining : Bool := false
  cancel : Bool := false
  done : Bool := false
  minedBlock : Block := {}
  /-- The worker while its thread is joinable. -/
  worker : Option Worker := none

/-- Whether the worker is not joinable, or its join does not wait. -/
def MiningState.joins (mining : MiningState) : Bool :=
  match mining.worker with
  | none => true
  | some worker => match worker.pc with
    | .finished => true
    | _ => false

structure App where
  chain : Chain
  store : BlockStore
  uiDifficultyBits : UInt32 := 16
  mining : MiningState := {}

/-- Why the program was terminated: an exception that nothing catches, or an
assignment to a joinable `std::thread`. -/
inductive Fault
  | uncaught (e : Exn)
  | joinableAssigned
  deriving DecidableEq

def uncaught : Except Exn α → Option Fault
  | .error e => some (.uncaught e)
  | .ok _ => none

-- ---------------------------------------------------------------------------
-- Handlers
-- ---------------------------------------------------------------------------

namespace App

def submit (E : Env) (block : Block) (io : AppendTransfers) (app : App) :
    Except Exn ValidationResult × App :=
  let (result, chain, store) := app.chain.appendAndStore E block io app.store
  (result, { app with chain, store })

def doGenesis (E : Env) (unixTime : UInt64) (io : AppendTransfers) (app : App) :
    Option Fault × App :=
  if app.chain.height > 0 then (none, app)
  else
    let genesisBlock := makeGenesisBlock E.sha256 (text "Astro: Born from bytes.") unixTime
    let (result, app) := app.submit E genesisBlock io
    (uncaught result, app)

def doAppendSignedBlock (E : Env) (signer : Signer) (unixTime : UInt64) (io : AppendTransfers)
    (app : App) : Option Fault × App :=
  match app.chain.tip with
  | none => (none, app)
  | some tip =>
    let nonce := 1 + (tip.transactions.getLast?.map (·.nonce)).getD 0
    match signer.signed { version := 1, nonce, amount := 42, toLabel := text "darth vader" } with
    | .error e => (some (.uncaught e), app)
    | .ok transaction =>
      let newBlock := app.chain.buildBlockFromTransactions E.sha256 [transaction] unixTime
      let (result, app) := app.submit E newBlock io
      (uncaught result, app)

/-- The conditions under which `start_mining` does not return at once. -/
def goesAhead (app : App) : Bool := !app.mining.mining && app.chain.tip.isSome

/-- The transaction that `start_mining` signs. -/
def minerReward : Transaction :=
  { version := 1, nonce := 1, amount := 1, toLabel := text "miner-reward" }

def startMining (signer : Signer) (clock : Nat → UInt64) (app : App) : Option Fault × App :=
  if !app.goesAhead then (none, app)
  else
    let mining := { app.mining with cancel := false, done := false, mining := true }
    match signer.signed minerReward with
    | .error e => (some (.uncaught e), { app with mining })
    | .ok tx =>
      let worker := { difficulty := app.uiDifficultyBits, transactions := [tx], clock }
      if app.mining.worker.isSome then (some .joinableAssigned, { app with mining })
      else (none, { app with mining := { mining with worker := some worker } })

def stopMining (app : App) : App :=
  if !app.mining.mining then app else { app with mining.cancel := true }

/-- `do_clear_store` from where the log is truncated. -/
def truncateLog (truncates : Bool) (app : App) : App :=
  if !truncates then app
  else
    let (chain, store) := doClearStore app.chain app.store
    { app with chain, store }

/-- The main loop when it finds `done` set. -/
def handleDone (E : Env) (io : AppendTransfers) (app : App) : Except Exn ValidationResult × App :=
  let mined := app.mining.minedBlock
  let app := { app with mining.done := false, mining.mining := false }
  let app := { app with chain := app.chain.setDifficultyBits app.uiDifficultyBits }
  app.submit E mined io

end App

end Astro
