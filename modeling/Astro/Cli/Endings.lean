import Astro.Cli.Demos

/-!
# How the demonstrations end

The exit status of `main` says how it went: 1 comes with a message on the
error stream, 2 is left to a chain that refused its second block, and an
exception gets out only from a number that `std::stoull` cannot convert.
-/

namespace Astro.Cli.Node

open Options

variable {E : Env} {signer : Signer} {now : UInt64}

-- ---------------------------------------------------------------------------
-- Endings
-- ---------------------------------------------------------------------------

/-- An exit status of 0 without a message, or of 1 with one. -/
def Plain (ended : Ended) : Prop :=
  (ended.status = .ok 0 ∧ ended.err = []) ∨ (ended.status = .ok 1 ∧ ended.err ≠ [])

end Astro.Cli.Node
