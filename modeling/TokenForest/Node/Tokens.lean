import TokenForest.Decimal.Shortest
import TokenForest.Node.Basic
import TokenForest.Token

set_option autoImplicit false

namespace TokenForest

def Token.plain (kind : TokenKind) (text : String) : Token := ⟨kind, text, .nowhere, false⟩

def Operator.token (op : Operator) : Token := ⟨.operator, op.symbol, op.position, false⟩

def Bracket.enclose (b : Bracket) (inside : List Token) : List Token :=
  .plain (.opening b) b.openText :: (inside ++ [.plain (.closing b) b.closeText])

namespace Node

mutual

/-- Literals are written with margins or digits that read back as the same value. -/
def tokens : Node → List Token
  | .identifier name => [.plain .word name]
  | .number value => [.plain .number value.render]
  | .string value => [.plain .string ("\"" ++ value ++ "\"")]
  | .comment text => [.plain .comment ("/*" ++ text ++ "*/")]
  | .call callee arguments => callee.tokens ++ Bracket.parenthesis.enclose (listed arguments)
  | .group content => Bracket.parenthesis.enclose (listed content)
  | .block content => Bracket.brace.enclose (listed content)
  | .function none parameters body =>
    Bracket.parenthesis.enclose (listed parameters) ++ Bracket.brace.enclose (listed body)
  | .function (some name) parameters body =>
    .plain .word name
      :: (Bracket.parenthesis.enclose (listed parameters) ++ Bracket.brace.enclose (listed body))
  | .set content => Bracket.square.enclose (listed content)
  | .index target content => target.tokens ++ Bracket.square.enclose (listed content)
  | .member target name => target.tokens ++ .plain .period "." :: name.tokens
  | .range start stop =>
    start.tokens ++ .plain .period "." :: .plain .period "." :: stop.tokens
  | .statement content => listed content ++ [.plain .semicolon ";"]
  | .ternary condition left right =>
    condition.tokens ++ .plain .questionMark "?" :: left.tokens
      ++ .plain .operator ":" :: right.tokens
  | .marker op => [op.token]
  | .dangling op .left operand => operand.tokens ++ [op.token]
  | .dangling op .right operand => op.token :: operand.tokens
  | .binary op left right => left.tokens ++ op.token :: right.tokens

def listed : List Node → List Token
  | [] => []
  | [n] => n.tokens
  | n :: m :: ns => n.tokens ++ .plain .delimiter "," :: listed (m :: ns)

end

theorem tokens_ne_nil (n : Node) : n.tokens ≠ [] := by
  cases n with
  | function name parameters body => cases name <;> simp [tokens, Bracket.enclose]
  | dangling op side operand => cases side <;> simp [tokens]
  | _ => simp [tokens, Bracket.enclose]

end Node

end TokenForest
