import Mathlib.Logic.Relation

/-!
# Ledgers

A ledger is a list of entries. It grows at its end, by an entry that is valid
behind the entries before it, or it is cleared as a whole.
-/

namespace Ledger

open Relation

inductive Appends (Valid : List β → β → Prop) : List β → List β → Prop
  | append {xs : List β} {x : β} (h : Valid xs x) : Appends Valid xs (xs ++ [x])

inductive Step (Valid : List β → β → Prop) : List β → List β → Prop
  | appends {xs ys : List β} (h : Appends Valid xs ys) : Step Valid xs ys
  | clears {xs : List β} : Step Valid xs []

variable {β : Type} {Valid : List β → β → Prop} {xs ys : List β}

theorem Step.append (h : Valid xs x) : Step Valid xs (xs ++ [x]) := .appends (.append h)

end Ledger
