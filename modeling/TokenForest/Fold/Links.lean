import TokenForest.Fold.Order

/-!
Folding with links: the entries stay in their slots, and each slot knows its nearest neighbours
that still hold an entry. A fold empties two slots and relinks, whatever the length of the list.
-/

set_option autoImplicit false

namespace TokenForest

/-- What becomes of an operator and the entries on its two sides, where there are any. -/
abbrev Joining (ε α : Type) := Operator → Option α → Option α → Except ε α

/-- The links of an emptied slot are never followed again. -/
structure Slot (α : Type) where
  entry : Option α
  before : Option Nat
  after : Option Nat
  deriving Repr, Inhabited

abbrev Links (α : Type) := Array (Slot α)

namespace Links

variable {α ε : Type}

def ofList (entries : List α) : Links α :=
  (entries.zipIdx.map fun (e, i) =>
    Slot.mk (some e) (if i = 0 then none else some (i - 1))
      (if i + 1 < entries.length then some (i + 1) else none)).toArray

def live (links : Links α) : List α := links.toList.filterMap Slot.entry

def slot? (links : Links α) (at? : Option Nat) : Option (Slot α) := at?.bind fun i => links[i]?

def entry? (links : Links α) (at? : Option Nat) : Option α := (links.slot? at?).bind Slot.entry

def before? (links : Links α) (at? : Option Nat) : Option Nat := (links.slot? at?).bind Slot.before

def after? (links : Links α) (at? : Option Nat) : Option Nat := (links.slot? at?).bind Slot.after

def update (links : Links α) (at? : Option Nat) (f : Slot α → Slot α) : Links α :=
  match at? with
  | some i => links.modify i f
  | none => links

/-- Joins a marker with its two neighbours: they leave their slots, the folded operator takes the
slot of the marker, and the next slots on either side are linked to it. -/
def fold (join : Joining ε α) (links : Links α) (m : Marker) : Except ε (Links α) :=
  let left := links.before? (some m.index)
  let right := links.after? (some m.index)
  (join m.operator (links.entry? left) (links.entry? right)).map fun e =>
    let before := links.before? left
    let after := links.after? right
    (links.update left fun s => { s with entry := none })
      |>.update right (fun s => { s with entry := none })
      |>.update (some m.index) (fun _ => ⟨some e, before, after⟩)
      |>.update before (fun s => { s with after := some m.index })
      |>.update after (fun s => { s with before := some m.index })

def foldAll (join : Joining ε α) : Links α → List Marker → Except ε (Links α)
  | links, [] => .ok links
  | links, m :: ms =>
    match links.fold join m with
    | .ok links => links.foldAll join ms
    | .error f => .error f

end Links

/-- Folds every marker of a list, in processing order. A list without markers stays as it is. -/
def foldMarkers (limit : Nat) (entries : List Entry) : Except Fault (List Entry) :=
  (Links.foldAll (Operator.join limit) (Links.ofList entries) (Marker.ordered entries)).map Links.live

end TokenForest
