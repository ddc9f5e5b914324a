import Astro.Cli.Store
import Astro.Tui.Lifetimes

/-!
# ./data, whoever uses it

tui.cpp and store.cpp keep their log in the same place. One after the other,
and even if tui.cpp is killed every time, they use it as one ledger.
-/

namespace Astro.Cli

open Relation (ReflTransGen)
open Store (Served)

variable {E : Env} {store store' : BlockStore} {blocks : List Block}

end Astro.Cli
