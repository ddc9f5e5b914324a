import Astro.Core.Hex
import Astro.Core.MinerLaws

/-!
# The progress of mine_block

`mine_block` with its callback. The callback is told of every attempt whose
number is a multiple of `tick_every_ms`, unless it finds the block, and has no
other effect. Both tui.cpp and mine.cpp show the number that it was told last.
-/

namespace Astro

/-- One call of the callback. -/
structure Report where
  attempts : UInt64
  leadingZeros : UInt32
  hashHex : Bytes
  deriving DecidableEq

/-- The callback in a turn that has hashed this block and has not found it,
and the number of attempts after it. -/
def reportTurn (E : Env) (onProgress : Bool) (tickEveryMs attempts : UInt64) (block : Block) :
    UInt64 × List Report :=
  if onProgress then
    let attempts := attempts + 1
    if attempts % tickEveryMs = 0 then
      let hash := block.header.hash E.sha256
      (attempts, [⟨attempts, leadingZeroBits hash, toHex hash.bytes⟩])
    else (attempts, [])
  else (attempts, [])

/-- `mineLoop`, with what the callback is told until the loop is left. -/
def reportLoop (E : Env) (difficultyBits : UInt32) (clock : Nat → UInt64) (cancelFlag : Nat → Bool)
    (onProgress : Bool) (tickEveryMs : UInt64) (i : Nat) (attempts : UInt64) (miner : Miner) :
    Nat → Option (Except Exn (Block × Nat) × List Report)
  | 0 => none
  | fuel + 1 =>
    match miner.turn E difficultyBits clock (cancelFlag i) with
    | .cancelled => some (.error (.runtimeError "Mining cancelled"), [])
    | .found miner => some (.ok (miner.block, miner.clockReadings), [])
    | .next next =>
      let (attempts, reports) := reportTurn E onProgress tickEveryMs attempts miner.setNonce.block
      (reportLoop E difficultyBits clock cancelFlag onProgress tickEveryMs (i + 1) attempts next
        fuel).map fun (result, later) => (result, reports ++ later)

def reportBlock (E : Env) (chain : Chain) (transactions : List Transaction)
    (difficultyBits : UInt32) (clock : Nat → UInt64) (cancelFlag : Nat → Bool) (onProgress : Bool)
    (tickEveryMs : UInt64) (fuel : Nat) : Option (Except Exn (Block × Nat) × List Report) :=
  reportLoop E difficultyBits clock cancelFlag onProgress tickEveryMs 0 0
    (Miner.start E.sha256 chain transactions clock) fuel

/-- What the counters of tui.cpp and mine.cpp hold in the end. -/
def shownAttempts (reports : List Report) : UInt64 := (reports.getLast?.map (·.attempts)).getD 0

-- ---------------------------------------------------------------------------
-- The result
-- ---------------------------------------------------------------------------

section
variable {E : Env} {chain : Chain} {transactions : List Transaction} {difficultyBits : UInt32}
  {clock : Nat → UInt64} {cancelFlag : Nat → Bool} {onProgress : Bool} {tickEveryMs : UInt64}

end

end Astro
