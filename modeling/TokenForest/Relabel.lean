import TokenForest.Row

/-!
Trees and faults under other labels. A label is what a leaf, an operator or a fault quotes of the
tokens; the form that is left without it is told by the kinds of the tokens.
-/

set_option autoImplicit false

namespace TokenForest

/-- What takes the place of the labels. An operator keeps its symbol, by which a choice knows its
colon. -/
structure Relabelling where
  text : String → String
  number : Binary64 → Binary64
  operator : Operator → Operator
  symbol_operator : ∀ op, (operator op).symbol = op.symbol

namespace Relabelling

theorem symbol_eq (f : Relabelling) {o p : Operator} (h : f.operator o = f.operator p) :
    o.symbol = p.symbol := by
  rw [← f.symbol_operator o, h, f.symbol_operator p]

/-- Forgets all texts and values of leaves, and all places. -/
def shape : Relabelling where
  text _ := ""
  number _ := .nan
  operator op := { op with position := .nowhere }
  symbol_operator _ := rfl

def same : Relabelling where
  text := id
  number := id
  operator := id
  symbol_operator _ := rfl

def unranked : Relabelling where
  text := id
  number := id
  operator op := { op with precedence := 0 }
  symbol_operator _ := rfl

def unplaced : Relabelling where
  text := id
  number := id
  operator op := { op with position := .nowhere }
  symbol_operator _ := rfl

end Relabelling

namespace Node

mutual

def relabel (f : Relabelling) : Node → Node
  | .identifier name => .identifier (f.text name)
  | .number value => .number (f.number value)
  | .string value => .string (f.text value)
  | .comment text => .comment (f.text text)
  | .call callee arguments => .call (callee.relabel f) (relabelAll f arguments)
  | .group content => .group (relabelAll f content)
  | .block content => .block (relabelAll f content)
  | .function name parameters body =>
    .function (name.map f.text) (relabelAll f parameters) (relabelAll f body)
  | .set content => .set (relabelAll f content)
  | .index target content => .index (target.relabel f) (relabelAll f content)
  | .member target name => .member (target.relabel f) (name.relabel f)
  | .range start stop => .range (start.relabel f) (stop.relabel f)
  | .statement content => .statement (relabelAll f content)
  | .ternary condition left right =>
    .ternary (condition.relabel f) (left.relabel f) (right.relabel f)
  | .marker op => .marker (f.operator op)
  | .dangling op side operand => .dangling (f.operator op) side (operand.relabel f)
  | .binary op left right => .binary (f.operator op) (left.relabel f) (right.relabel f)

def relabelAll (f : Relabelling) : List Node → List Node
  | [] => []
  | n :: ns => n.relabel f :: relabelAll f ns

end

variable {f : Relabelling}

@[simp] theorem relabelAll_eq_map (ns : List Node) : relabelAll f ns = ns.map (relabel f) := by
  induction ns with
  | nil => rfl
  | cons n ns ih => rw [relabelAll, ih, List.map_cons]

@[simp] theorem kind_relabel (n : Node) : (n.relabel f).kind = n.kind := by
  cases n <;> rfl

@[simp] theorem marker?_relabel (n : Node) :
    (n.relabel f).marker? = n.marker?.map f.operator := by
  cases n <;> rfl

@[simp] theorem isOperand_relabel (n : Node) : (n.relabel f).isOperand = n.isOperand := by
  simp [isOperand, isMarker]

mutual

theorem relabel_same : ∀ n : Node, n.relabel .same = n
  | .identifier _ | .number _ | .string _ | .comment _ | .marker _ => rfl
  | .call callee arguments => by
    simp only [relabel, relabel_same callee, relabelAll_same arguments]
  | .group content | .block content | .set content | .statement content => by
    simp only [relabel, relabelAll_same content]
  | .function none parameters body | .function (some _) parameters body => by
    simp only [relabel, relabelAll_same parameters, relabelAll_same body]
    rfl
  | .index target content => by
    simp only [relabel, relabel_same target, relabelAll_same content]
  | .member left right | .range left right => by
    simp only [relabel, relabel_same left, relabel_same right]
  | .ternary condition left right => by
    simp only [relabel, relabel_same condition, relabel_same left, relabel_same right]
  | .dangling _ _ operand => by
    simp only [relabel, relabel_same operand]
    rfl
  | .binary _ left right => by
    simp only [relabel, relabel_same left, relabel_same right]
    rfl

theorem relabelAll_same : ∀ ns : List Node, relabelAll .same ns = ns
  | [] => rfl
  | n :: ns => by rw [relabelAll, relabel_same n, relabelAll_same ns]

end

theorem relabel_eq_identifier {n : Node} {name : String} (h : n.relabel f = .identifier name) :
    ∃ name', n = .identifier name' ∧ f.text name' = name := by
  cases n <;> simp [relabel] at h
  exact ⟨_, rfl, h⟩

theorem relabel_eq_call {n callee : Node} {arguments : List Node}
    (h : n.relabel f = .call callee arguments) :
    ∃ callee' arguments', n = .call callee' arguments' ∧ callee'.relabel f = callee ∧
      arguments'.map (relabel f) = arguments := by
  cases n <;> simp [relabel] at h
  exact ⟨_, _, rfl, h⟩

theorem relabel_eq_group {n : Node} {content : List Node} (h : n.relabel f = .group content) :
    ∃ content', n = .group content' ∧ content'.map (relabel f) = content := by
  cases n <;> simp [relabel] at h
  exact ⟨_, rfl, h⟩

end Node

def Entry.relabel (f : Relabelling) (e : Entry) : Entry := ⟨e.node.relabel f, e.depth⟩

/-- Of an operator a fault quotes the symbol, which stays. -/
def Cause.relabel (f : Relabelling) : Cause → Cause
  | .unknownToken text => .unknownToken (f.text text)
  | .unexpectedToken text => .unexpectedToken (f.text text)
  | .invalidNumber text => .invalidNumber (f.text text)
  | .unclosedGroup close => .unclosedGroup close
  | .missingOperand symbol => .missingOperand symbol
  | .unknownOperator symbol => .unknownOperator symbol
  | .tooDeep limit => .tooDeep limit

theorem Cause.relabel_of_text {f : Relabelling} (h : f.text = id) (c : Cause) :
    c.relabel f = c := by
  cases c <;> simp [relabel, h]

end TokenForest
