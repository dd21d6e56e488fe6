import TokenForest.Binary64
import TokenForest.Operator

/-!
Syntax trees. An operator stands in a node list as a bare marker until it is folded with its two
neighbours into a binary node. A tree handed in from outside may also hold an operator with one
side only; reading tokens never builds one.
-/

set_option autoImplicit false

namespace TokenForest

inductive Side where
  | left | right
  deriving DecidableEq, Repr, Inhabited

inductive Node where
  | identifier (name : String)
  | number (value : Binary64)
  | string (value : String)
  | comment (text : String)
  | call (callee : Node) (arguments : List Node)
  | group (content : List Node)
  | block (content : List Node)
  | function (name : Option String) (parameters body : List Node)
  | set (content : List Node)
  | index (target : Node) (content : List Node)
  | member (target name : Node)
  | range (start stop : Node)
  | statement (content : List Node)
  | ternary (condition left right : Node)
  | marker (operator : Operator)
  | dangling (operator : Operator) (side : Side) (operand : Node)
  | binary (operator : Operator) (left right : Node)
  deriving Repr, Inhabited

/-- The form of a node, without its content. An operator has one form, folded or not. -/
inductive NodeKind where
  | identifier | number | string | comment | call | group | block | function | set | index
  | member | range | statement | ternary | operator
  deriving DecidableEq, Repr, Inhabited

def NodeKind.name : NodeKind → String
  | .identifier => "Identifier"
  | .number => "Number"
  | .string => "String"
  | .comment => "Comment"
  | .call => "FunctionCall"
  | .group => "ParenthesisGroup"
  | .block => "BraceGroup"
  | .function => "FunctionExpression"
  | .set => "Set"
  | .index => "Accessor"
  | .member => "Period"
  | .range => "Range"
  | .statement => "Statement"
  | .ternary => "Ternary"
  | .operator => "Operator"

def NodeKind.all : List NodeKind :=
  [.identifier, .number, .string, .comment, .call, .group, .block, .function, .set, .index,
    .member, .range, .statement, .ternary, .operator]

def NodeKind.ofName? (name : String) : Option NodeKind :=
  all.find? fun k => k.name == name

namespace Node

def kind : Node → NodeKind
  | .identifier _ => .identifier
  | .number _ => .number
  | .string _ => .string
  | .comment _ => .comment
  | .call _ _ => .call
  | .group _ => .group
  | .block _ => .block
  | .function _ _ _ => .function
  | .set _ => .set
  | .index _ _ => .index
  | .member _ _ => .member
  | .range _ _ => .range
  | .statement _ => .statement
  | .ternary _ _ _ => .ternary
  | .marker _ | .dangling _ _ _ | .binary _ _ _ => .operator

def marker? : Node → Option Operator
  | .marker op => some op
  | _ => none

def isMarker (n : Node) : Bool := n.marker?.isSome

/-- Whether a later construct may take the node as its operand: all but markers may be taken. -/
def isOperand (n : Node) : Bool := !n.isMarker

theorem isMarker_iff {n : Node} : n.isMarker = true ↔ ∃ op, n = .marker op := by
  cases n <;> simp [isMarker, marker?]

theorem isOperand_iff {n : Node} : n.isOperand = true ↔ ∀ op, n ≠ .marker op := by
  cases n <;> simp [isOperand, isMarker, marker?]

def children : Node → List Node
  | .identifier _ | .number _ | .string _ | .comment _ | .marker _ => []
  | .call callee arguments => callee :: arguments
  | .group content | .block content | .set content | .statement content => content
  | .function _ parameters body => parameters ++ body
  | .index target content => target :: content
  | .member target name => [target, name]
  | .range start stop => [start, stop]
  | .ternary condition left right => [condition, left, right]
  | .dangling _ _ operand => [operand]
  | .binary _ left right => [left, right]

def isLeaf : Node → Bool
  | .identifier _ | .number _ | .string _ | .comment _ | .marker _ => true
  | _ => false

mutual

/-- Edges on the longest way down to a leaf. A node that is no leaf counts one edge even when it
has no parts. -/
def depth : Node → Nat
  | .identifier _ | .number _ | .string _ | .comment _ | .marker _ => 0
  | .call callee arguments => max callee.depth (deepest arguments) + 1
  | .group content | .block content | .set content | .statement content => deepest content + 1
  | .function _ parameters body => max (deepest parameters) (deepest body) + 1
  | .index target content => max target.depth (deepest content) + 1
  | .member target name => max target.depth name.depth + 1
  | .range start stop => max start.depth stop.depth + 1
  | .ternary condition left right => max condition.depth (max left.depth right.depth) + 1
  | .dangling _ _ operand => operand.depth + 1
  | .binary _ left right => max left.depth right.depth + 1

def deepest : List Node → Nat
  | [] => 0
  | n :: ns => max n.depth (deepest ns)

end

theorem deepest_append (ns ms : List Node) :
    deepest (ns ++ ms) = max (deepest ns) (deepest ms) := by
  induction ns with
  | nil => simp [deepest]
  | cons n ns ih => simp [deepest, ih, Nat.max_assoc]

theorem depth_le_deepest {n : Node} {ns : List Node} (h : n ∈ ns) : n.depth ≤ deepest ns := by
  induction ns with
  | nil => cases h
  | cons m ms ih =>
    rw [deepest]
    cases List.mem_cons.1 h with
    | inl h =>
      subst h
      omega
    | inr h =>
      have := ih h
      omega

theorem depth_eq (n : Node) : n.depth = if n.isLeaf then 0 else deepest n.children + 1 := by
  cases n <;> simp [depth, isLeaf, children, deepest, deepest_append]

theorem depth_lt_of_mem_children {n c : Node} (h : c ∈ n.children) : c.depth < n.depth := by
  have hleaf : n.isLeaf = false := by
    cases n <;> first | rfl | cases h
  have hc := depth_le_deepest h
  rw [n.depth_eq, hleaf]
  exact Nat.lt_succ_of_le hc

def nest : Nat → Node → Node
  | 0, n => n
  | k + 1, n => .group [nest k n]

end Node

end TokenForest
