import TokenForest.Decimal.Literal
import TokenForest.Node.Sexpr
import TokenForest.Sexpr

/-!
The display of a tree as an s-expression, and the tree that an s-expression displays. A display
shows no places, and of an operator only the symbol: the rest is looked up in the standard table.
-/

set_option autoImplicit false

namespace TokenForest

def Sexpr.headed (head : String) (elements : List Sexpr) : Sexpr :=
  .list (.bare head.toList :: elements)

namespace Node

mutual

def toSexpr : Node → Sexpr
  | .identifier name => .bare name.toList
  | .number value => .bare value.render.toList
  | .string value => .quoted value
  | .comment text => .headed "comment" [.quoted text]
  | .call callee arguments => .headed "call" (callee.toSexpr :: toSexprs arguments)
  | .group content => .headed "group" (toSexprs content)
  | .block content => .headed "block" (toSexprs content)
  | .function none parameters body =>
    .headed "fn" [.list (toSexprs parameters), .list (toSexprs body)]
  | .function (some name) parameters body =>
    .headed "fn" [.bare name.toList, .list (toSexprs parameters), .list (toSexprs body)]
  | .set content => .headed "set" (toSexprs content)
  | .index target content => .headed "index" (target.toSexpr :: toSexprs content)
  | .member target name => .headed "." [target.toSexpr, name.toSexpr]
  | .range start stop => .headed ".." [start.toSexpr, stop.toSexpr]
  | .statement content => .headed "stmt" (toSexprs content)
  | .ternary condition left right =>
    .headed "?" [condition.toSexpr, left.toSexpr, right.toSexpr]
  | .marker op => .bare op.symbol.toList
  | .dangling op _ _ => .bare op.symbol.toList
  | .binary op left right => .headed op.symbol [left.toSexpr, right.toSexpr]

def toSexprs : List Node → List Sexpr
  | [] => []
  | n :: ns => n.toSexpr :: toSexprs ns

end

theorem toSexprs_eq_map (ns : List Node) : toSexprs ns = ns.map toSexpr := by
  induction ns with
  | nil => rfl
  | cons n ns ih => rw [toSexprs, ih, List.map_cons]

end Node

theorem Sexpr.text_headed (head : String) (elements : List Sexpr) :
    (headed head elements).text = Node.headed head (spaced elements) := by
  simp [headed, Node.headed, text, spaced]

namespace Node

mutual

/-- The text of the display is what is rendered. -/
theorem text_toSexpr : ∀ n : Node, n.toSexpr.text = n.sexpr
  | .identifier _ | .number _ | .string _ | .marker _ | .dangling _ _ _ => rfl
  | .comment _ => by
    simp only [toSexpr, Sexpr.text_headed, Sexpr.spaced, Sexpr.text, sexpr, List.append_nil]
  | .call callee arguments => by
    simp only [toSexpr, Sexpr.text_headed, Sexpr.spaced, sexpr, text_toSexpr callee,
      spaced_toSexprs arguments]
  | .group content | .block content | .set content | .statement content => by
    simp only [toSexpr, Sexpr.text_headed, sexpr, spaced_toSexprs content]
  | .function none parameters body => by
    simp only [toSexpr, Sexpr.text_headed, Sexpr.spaced, Sexpr.text, sexpr, unheaded,
      spaced_toSexprs parameters, spaced_toSexprs body, List.append_nil]
  | .function (some name) parameters body => by
    simp only [toSexpr, Sexpr.text_headed, Sexpr.spaced, Sexpr.text, sexpr, unheaded,
      spaced_toSexprs parameters, spaced_toSexprs body, List.append_nil, List.append_assoc,
      List.cons_append]
  | .index target content => by
    simp only [toSexpr, Sexpr.text_headed, Sexpr.spaced, sexpr, text_toSexpr target,
      spaced_toSexprs content]
  | .member left right | .range left right | .binary _ left right => by
    simp only [toSexpr, Sexpr.text_headed, Sexpr.spaced, sexpr, text_toSexpr left,
      text_toSexpr right, List.append_nil]
  | .ternary condition left right => by
    simp only [toSexpr, Sexpr.text_headed, Sexpr.spaced, sexpr, text_toSexpr condition,
      text_toSexpr left, text_toSexpr right, List.append_nil, List.append_assoc, List.cons_append]

theorem spaced_toSexprs : ∀ ns : List Node, Sexpr.spaced (toSexprs ns) = spaced ns
  | [] => rfl
  | n :: ns => by
    simp only [toSexprs, Sexpr.spaced, spaced, text_toSexpr n, spaced_toSexprs ns]

end

end Node

def Node.name? : Node → Option String
  | .identifier name => some name
  | _ => none

/-- The heads of the forms that have one of their own. Every other head is an operator. -/
def NodeKind.heads : List (String × NodeKind) :=
  [("comment", .comment), ("call", .call), ("group", .group), ("block", .block),
    ("fn", .function), ("set", .set), ("index", .index), (".", .member), ("..", .range),
    ("stmt", .statement), ("?", .ternary)]

def NodeKind.ofHead (head : String) : NodeKind := (heads.lookup head).getD .operator

def Operator.ofSymbol (symbol : String) : Operator :=
  let info := (OperatorTable.standard.get? symbol).getD default
  ⟨symbol, info.name, info.precedence, .nowhere⟩

namespace Sexpr

def leaf (word : List Char) : Node :=
  if word.head?.any Decimal.isDigit then
    .number ((Binary64.ofLiteral? (String.ofList word)).getD .nan)
  else .identifier (String.ofList word)

/-- Each element of a form is given as a node and as a list of nodes. -/
def compose (kind : NodeKind) (head : String) (elements : List (Node × List Node)) : Node :=
  match kind, elements with
  | .comment, [(.string text, _)] => .comment text
  | .call, (callee, _) :: arguments => .call callee (arguments.map Prod.fst)
  | .group, content => .group (content.map Prod.fst)
  | .block, content => .block (content.map Prod.fst)
  | .function, [(_, parameters), (_, body)] => .function none parameters body
  | .function, [(name, _), (_, parameters), (_, body)] =>
    .function name.name? parameters body
  | .set, content => .set (content.map Prod.fst)
  | .index, (target, _) :: content => .index target (content.map Prod.fst)
  | .member, [(target, _), (name, _)] => .member target name
  | .range, [(start, _), (stop, _)] => .range start stop
  | .statement, content => .statement (content.map Prod.fst)
  | .ternary, [(condition, _), (left, _), (right, _)] => .ternary condition left right
  | .operator, [(left, _), (right, _)] => .binary (.ofSymbol head) left right
  | _, _ => default

def head : List Sexpr → String
  | .bare word :: _ => String.ofList word
  | _ => ""

mutual

/-- The node that is displayed, and the nodes that are displayed if this is a list without a
head. -/
def read : Sexpr → Node × List Node
  | .bare word => (leaf word, [])
  | .quoted text => (.string text, [])
  | .list elements =>
    (compose (NodeKind.ofHead (head elements)) (head elements) (reads elements).tail,
      (reads elements).map Prod.fst)

def reads : List Sexpr → List (Node × List Node)
  | [] => []
  | x :: xs => x.read :: reads xs

end

def node (x : Sexpr) : Node := x.read.1

theorem reads_eq_map (xs : List Sexpr) : reads xs = xs.map read := by
  induction xs with
  | nil => rfl
  | cons x xs ih => rw [reads, ih, List.map_cons]

theorem read_list (xs : List Sexpr) : (list xs).read.2 = (xs.map read).map Prod.fst := by
  rw [read, reads_eq_map]

theorem node_headed (h : String) (elements : List Sexpr) :
    (headed h elements).node = compose (NodeKind.ofHead h) h (elements.map read) := by
  simp [node, headed, read, reads_eq_map, head, String.ofList_toList]

end Sexpr

end TokenForest
