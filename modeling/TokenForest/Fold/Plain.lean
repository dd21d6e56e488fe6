import TokenForest.Fold.Words

/-!
The plain way to fold, by places in a list that gets shorter. Nothing here is shared with the
folding by links but the data.
-/

set_option autoImplicit false

namespace TokenForest

namespace Tracked

variable {w : Nat}

def markers (entries : List (Tracked w)) : List Marker :=
  entries.zipIdx.filterMap fun x => x.1.node.marker?.map (Marker.mk x.2)

/-- Tighter operators come first. Sorting is stable. -/
def inTurn (entries : List (Tracked w)) : List Marker :=
  (markers entries).mergeSort fun m n => n.operator.precedence ≤ m.operator.precedence

/-- Finds a marker by the place it had at first, and puts the folded operator in its place and in
the places on both sides of it. -/
def splice (overflow : Overflow) (limit : BitVec w) (items : List (Tracked w × Nat)) (m : Marker) :
    Except Halt (List (Tracked w × Nat)) :=
  let op := m.operator
  let place := items.findIdx fun x => x.2 == m.index
  match (if place = 0 then none else items[place - 1]?), items[place + 1]? with
  | some (left, _), some (right, _) =>
    if left.node.isMarker || right.node.isMarker then
      .error (.fault ⟨.missingOperand op.symbol, op.position⟩)
    else
      match overflow.next? (if right.depth < left.depth then left.depth else right.depth) with
      | none => .error .overflow
      | some depth =>
        if depth ≤ limit then
          .ok (items.take (place - 1) ++ (⟨.binary op left.node right.node, depth⟩, m.index)
            :: items.drop (place + 2))
        else .error (.fault ⟨.tooDeep limit.toNat, op.position⟩)
  | _, _ => .error (.fault ⟨.missingOperand op.symbol, op.position⟩)

end Tracked

def spliceWords {w : Nat} (overflow : Overflow) (limit : BitVec w) (entries : List (Tracked w)) :
    Except Halt (List (Tracked w)) :=
  ((Tracked.inTurn entries).foldlM (Tracked.splice overflow limit) entries.zipIdx).map fun items =>
    items.map Prod.fst

end TokenForest
