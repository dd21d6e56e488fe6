import TokenForest.Lexeme
import TokenForest.Node.Basic

set_option autoImplicit false

namespace TokenForest.Node

mutual

/-- An operator stands between its operands, a colon between the branches of a choice. -/
def lexemes : Node → List Lexeme
  | .identifier name => [.word name]
  | .number value => [.number value]
  | .string value => [.string value]
  | .comment text => [.comment text]
  | .call callee arguments => callee.lexemes ++ reading arguments
  | .group content | .block content | .set content | .statement content => reading content
  | .function none parameters body => reading parameters ++ reading body
  | .function (some name) parameters body => .word name :: reading parameters ++ reading body
  | .index target content => target.lexemes ++ reading content
  | .member target name => target.lexemes ++ name.lexemes
  | .range start stop => start.lexemes ++ stop.lexemes
  | .ternary condition left right =>
    condition.lexemes ++ left.lexemes ++ .symbol ":" none :: right.lexemes
  | .marker op => [.symbol op.symbol (some op.position)]
  | .dangling op .left operand => operand.lexemes ++ [.symbol op.symbol (some op.position)]
  | .dangling op .right operand => .symbol op.symbol (some op.position) :: operand.lexemes
  | .binary op left right =>
    left.lexemes ++ .symbol op.symbol (some op.position) :: right.lexemes

def reading : List Node → List Lexeme
  | [] => []
  | n :: ns => n.lexemes ++ reading ns

end

theorem reading_append (ns ms : List Node) : reading (ns ++ ms) = reading ns ++ reading ms := by
  induction ns with
  | nil => rfl
  | cons n ns ih => simp [reading, ih]

end TokenForest.Node
