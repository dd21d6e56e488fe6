import TokenForest.Fold.Order

/-!
Expression trees over a list of entries, apart from the nodes they become: here an operator that
was folded is told from one that came folded already.
-/

set_option autoImplicit false

namespace TokenForest

/-- A leaf is an entry kept whole, an inner node a marker between its operands. -/
inductive Expression where
  | leaf (entry : Entry)
  | join (operator : Operator) (left right : Expression)
  deriving Repr, Inhabited

/-- What is counted for the depth of a marker is never looked at. -/
def Entry.normal (e : Entry) : Entry := if e.isOperand then e else ⟨e.node, 0⟩

namespace Expression

def node : Expression → Node
  | .leaf e => e.node
  | .join op left right => .binary op left.node right.node

def depth : Expression → Nat
  | .leaf e => e.depth
  | .join _ left right => max left.depth right.depth + 1

def entry (x : Expression) : Entry := ⟨x.node, x.depth⟩

def flatten : Expression → List Entry
  | .leaf e => [e.normal]
  | .join op left right => left.flatten ++ ⟨.marker op, 0⟩ :: right.flatten

def operators : Expression → List Operator
  | .leaf _ => []
  | .join op left right => left.operators ++ op :: right.operators

/-- No leaf is a marker, and no operator is looser than the one above it; to the right of an
operator all are tighter. -/
def Ordered : Expression → Prop
  | .leaf e => e.isOperand = true
  | .join op left right =>
    left.Ordered ∧ right.Ordered ∧
      (∀ o ∈ left.operators, op.precedence ≤ o.precedence) ∧
      ∀ o ∈ right.operators, op.precedence < o.precedence

theorem length_flatten (x : Expression) : x.flatten.length = 2 * x.operators.length + 1 := by
  induction x with
  | leaf e => rfl
  | join op left right hl hr => simp [flatten, operators, hl, hr]; omega

end Expression

/-- A forest that reads as the list does and keeps the order of precedence in every tree. -/
structure Expression.Forest (entries : List Entry) (forest : List Expression) : Prop where
  reads : forest.flatMap flatten = entries.map Entry.normal
  ordered : ∀ x ∈ forest, x.Ordered

end TokenForest
