import TokenForest.Fold.Links

/-!
Folding by splicing: each marker in turn is looked up in the shrinking list, and the three entries
around it become one. Every fold walks the list.
-/

set_option autoImplicit false

namespace TokenForest

/-- A list in the course of folding. Each entry keeps the place it had at first, a folded one the
place of its operator. -/
abbrev Splice (α : Type) := List (α × Nat)

namespace Splice

variable {α ε : Type}

def around (items : Splice α) (index : Nat) : Splice α × Splice α :=
  (items.takeWhile fun e => e.2 != index, (items.dropWhile fun e => e.2 != index).drop 1)

def fold (join : Joining ε α) (items : Splice α) (m : Marker) : Except ε (Splice α) :=
  let (before, after) := items.around m.index
  (join m.operator (before.getLast?.map Prod.fst) (after.head?.map Prod.fst)).map fun e =>
    before.dropLast ++ (e, m.index) :: after.drop 1

def foldAll (join : Joining ε α) : Splice α → List Marker → Except ε (Splice α)
  | items, [] => .ok items
  | items, m :: ms =>
    match items.fold join m with
    | .ok items => items.foldAll join ms
    | .error f => .error f

end Splice

end TokenForest
