import TokenForest.Fold.Links

/-!
Folding entries from outside. Their depths are machine words and need not be true, so that the
depth of a new tree may not fit into a word any more.
-/

set_option autoImplicit false

namespace TokenForest

/-- What a machine does with a sum that is too large for a word: it drops the carry, or it stops. -/
inductive Overflow where
  | wraps | stops
  deriving DecidableEq, Repr, Inhabited

def Overflow.next? {w : Nat} : Overflow → BitVec w → Option (BitVec w)
  | .wraps, d => some (d + 1)
  | .stops, d => if d = .allOnes w then none else some (d + 1)

/-- Why folding came to no end: there is a fault in the list, or the machine stopped. -/
inductive Halt where
  | fault (f : Fault)
  | overflow
  deriving DecidableEq, Repr, Inhabited

structure Tracked (w : Nat) where
  node : Node
  depth : BitVec w
  deriving Repr, Inhabited

namespace Tracked

variable {w : Nat}

def entry (t : Tracked w) : Entry := ⟨t.node, t.depth.toNat⟩

/-- The depth is counted only where both operands are there. -/
def join (overflow : Overflow) (limit : BitVec w) (op : Operator) :
    Option (Tracked w) → Option (Tracked w) → Except Halt (Tracked w)
  | some left, some right =>
    if left.node.isOperand && right.node.isOperand then
      match overflow.next? (if left.depth ≤ right.depth then right.depth else left.depth) with
      | none => .error .overflow
      | some depth =>
        if limit < depth then .error (.fault ⟨.tooDeep limit.toNat, op.position⟩)
        else .ok ⟨.binary op left.node right.node, depth⟩
    else .error (.fault ⟨.missingOperand op.symbol, op.position⟩)
  | _, _ => .error (.fault ⟨.missingOperand op.symbol, op.position⟩)

end Tracked

/-- Folds as `foldMarkers` does, but counts in words. -/
def foldWords {w : Nat} (overflow : Overflow) (limit : BitVec w) (entries : List (Tracked w)) :
    Except Halt (List (Tracked w)) :=
  (Links.foldAll (Tracked.join overflow limit) (Links.ofList entries)
    (Marker.ordered (entries.map Tracked.entry))).map Links.live

end TokenForest
