import Astro.Cli.Numbers
import Astro.Core.Reports
import Astro.Core.Threshold

/-!
# mine.cpp

`main` mines one block on a genesis block of its own, at the difficulty of its
argument, and appends it under that difficulty. What it prints of its rate and
of the time that it took is given, and so is the clock.
-/

namespace Astro.Cli.Mine

/-- Without an argument, the difficulty is 18. -/
def difficultyOf : Option Bytes → UInt32
  | none => 18
  | some argument => UInt32.ofInt (atoi argument)

def transfer : Transaction :=
  { version := 1, nonce := 1, amount := 42, toLabel := text "darth vader" }

/-- One line of progress, which overwrites the one before it. -/
def progressLine (rate : Bytes) (report : Report) : Bytes :=
  text "\r[⚙] attempts=" ++ number report.attempts.toNat ++ text " lz=" ++
    number report.leadingZeros.toNat ++ text " rate=" ++ rate ++ text " KH/s" ++ text " hash=" ++
    report.hashHex.take 10 ++ text "..."

def foundLine (duration : Bytes) (reports : List Report) : Bytes :=
  text "\n[✅] found in " ++ duration ++ text "s, attempts=" ++
    number (shownAttempts reports).toNat ++ text "\n"

/-- What is printed up to the line that says how long it took. -/
def mined (rates : Nat → Bytes) (duration : Bytes) (reports : List Report) : Bytes :=
  (reports.zipIdx.flatMap fun (report, i) => progressLine (rates i) report) ++
    foundLine duration reports

def heightLine (E : Env) (chain : Chain) (block : Block) : Bytes :=
  text "height: " ++ number chain.height ++ text " hash: " ++ shortHex (block.header.hash E.sha256)

/-- `main` from `set_difficulty_bits` on. -/
def finish (E : Env) (difficultyBits : UInt32) (chain : Chain) (block : Block) (out : Bytes) :
    Ended :=
  match (chain.setDifficultyBits difficultyBits).appendBlock E block with
  | (.error e, _) => { out, status := .error (.exn e) }
  | (.ok result, chain) =>
    if !result.isValid then { out, err := text "Failed to append block\n", status := .ok 3 }
    else { out := out ++ heightLine E chain block, status := .ok 0 }

/-- `none` when nothing has been found after `fuel` attempts. -/
def main (E : Env) (cryptoInit : Bool) (signer : Signer) (argument : Option Bytes) (now : UInt64)
    (clock : Nat → UInt64) (rates : Nat → Bytes) (duration : Bytes) (fuel : Nat) : Option Ended :=
  if !cryptoInit then some initFailed
  else
    let difficultyBits := difficultyOf argument
    let genesis := makeGenesisBlock E.sha256 (text "Astro Born") now
    match ({ config := { difficultyBits := 0 } } : Chain).appendBlock E genesis with
    | (.error e, _) => some { status := .error (.exn e) }
    | (.ok validationResult, chain) =>
      if !validationResult.isValid then
        some { err := text "Failed to append genesis block\n", status := .ok 2 }
      else match signer.signed transfer with
        | .error e => some { status := .error (.exn e) }
        | .ok transaction =>
          match reportBlock E chain [transaction] difficultyBits clock (fun _ => false) true 25000
              fuel with
          | none => none
          | some (.error e, _) => some { status := .error (.exn e) }
          | some (.ok (block, _), reports) =>
            some (finish E difficultyBits chain block (mined rates duration reports))

-- ---------------------------------------------------------------------------
-- Difficulties
-- ---------------------------------------------------------------------------

variable {E : Env} {signer : Signer} {argument : Option Bytes} {now : UInt64}
  {clock : Nat → UInt64} {rates : Nat → Bytes} {duration : Bytes}

end Astro.Cli.Mine
