import Astro.Core.Chain

/-!
# miner.cpp

The clock is a function from the number of a reading to what it reads, and the
cancel flag one from the number of a turn to what the loop finds in it. The
progress callback is only told numbers to show, and is left out.
-/

namespace Astro

/-- The local variables of `mine_block`, and how often it has read the clock. -/
structure Miner where
  block : Block
  nonce : UInt64 := 0
  lastTransactionBump : UInt64 := 0
  clockReadings : Nat := 1

/-- What one turn of the loop comes to. -/
inductive MinerTurn
  | cancelled
  | found (miner : Miner)
  | next (miner : Miner)

namespace Miner

def start (sha256 : Bytes → Hash256) (chain : Chain) (transactions : List Transaction)
    (clock : Nat → UInt64) : Miner :=
  let now := clock 0
  { block := chain.buildBlockFromTransactions sha256 transactions now }

def setNonce (miner : Miner) : Miner :=
  { miner with block.header.nonce := miner.nonce }

def bumpTimestamp (clock : Nat → UInt64) (miner : Miner) : Miner :=
  if miner.nonce % 1000000 = 0 then
    let newTimestamp := clock miner.clockReadings
    if newTimestamp > miner.lastTransactionBump then
      { miner with
        block.header.timestamp := newTimestamp
        lastTransactionBump := newTimestamp
        clockReadings := miner.clockReadings + 1 }
    else { miner with clockReadings := miner.clockReadings + 1 }
  else miner

def turn (E : Env) (difficultyBits : UInt32) (clock : Nat → UInt64) (cancelFlag : Bool)
    (miner : Miner) : MinerTurn :=
  if cancelFlag then .cancelled
  else
    let miner := miner.setNonce
    let leadingZeros := leadingZeroBits (miner.block.header.hash E.sha256)
    if leadingZeros ≥ difficultyBits then .found miner
    else
      let miner := miner.bumpTimestamp clock
      .next { miner with nonce := miner.nonce + 1 }

end Miner

/-- The loop of `mine_block`, from the turn of number `i`; `none` when it has
not ended after `fuel` turns. A block is returned with the number of readings
that the clock has given. -/
def mineLoop (E : Env) (difficultyBits : UInt32) (clock : Nat → UInt64) (cancelFlag : Nat → Bool)
    (i : Nat) (miner : Miner) : Nat → Option (Except Exn (Block × Nat))
  | 0 => none
  | fuel + 1 =>
    match miner.turn E difficultyBits clock (cancelFlag i) with
    | .cancelled => some (.error (.runtimeError "Mining cancelled"))
    | .found miner => some (.ok (miner.block, miner.clockReadings))
    | .next miner => mineLoop E difficultyBits clock cancelFlag (i + 1) miner fuel

def mineBlock (E : Env) (chain : Chain) (transactions : List Transaction) (difficultyBits : UInt32)
    (clock : Nat → UInt64) (cancelFlag : Nat → Bool) (fuel : Nat) :
    Option (Except Exn (Block × Nat)) :=
  mineLoop E difficultyBits clock cancelFlag 0 (Miner.start E.sha256 chain transactions clock) fuel

end Astro
