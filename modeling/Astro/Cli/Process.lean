import Astro.Core.Hex
import Astro.Library.Decimal
import Astro.Tui.Signers

/-!
# Command-line programs

Each of the programs is a function from its arguments, and what it is given
from outside, to what it writes and how it ends.
-/

namespace Astro.Cli

/-- An exception that leaves `main`: of the program itself, or of
`std::stoull`. -/
inductive Uncaught
  | exn (e : Exn)
  | invalidArgument
  | outOfRange
  deriving DecidableEq

structure Ended where
  out : Bytes := []
  err : Bytes := []
  /-- The exit status, unless an exception ends the program. -/
  status : Except Uncaught Nat

/-- A 64-bit number on `std::cout`. -/
def number (n : Nat) : Bytes := Decimal.digits n

/-- A hash on `std::cout`, and the first digits of one. -/
def hexOf (hash : Hash256) : Bytes := toHex hash.bytes

def shortHex (hash : Hash256) : Bytes := (hexOf hash).take 16 ++ text "...\n"

def initFailed : Ended := { err := text "OpenSSL init failed\n", status := .ok 1 }

end Astro.Cli
