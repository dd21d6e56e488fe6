import TokenForest.Bracket
import TokenForest.Position

set_option autoImplicit false

namespace TokenForest

inductive TokenKind where
  | word | number | string | operator | comment
  | delimiter | semicolon | period | questionMark
  | opening (bracket : Bracket)
  | closing (bracket : Bracket)
  deriving DecidableEq, Repr, Inhabited

def TokenKind.name : TokenKind → String
  | .word => "Word"
  | .number => "Number"
  | .string => "String"
  | .operator => "Operator"
  | .comment => "Comment"
  | .delimiter => "Delimiter"
  | .semicolon => "Semicolon"
  | .period => "Period"
  | .questionMark => "QuestionMark"
  | .opening .parenthesis => "ParenthesisOpen"
  | .closing .parenthesis => "ParenthesisClose"
  | .opening .brace => "BraceOpen"
  | .closing .brace => "BraceClose"
  | .opening .square => "SquareBraceOpen"
  | .closing .square => "SquareBraceClose"

def TokenKind.all : List TokenKind :=
  [.word, .number, .string, .operator, .comment, .delimiter, .semicolon, .period, .questionMark,
    .opening .parenthesis, .closing .parenthesis, .opening .brace, .closing .brace,
    .opening .square, .closing .square]

def TokenKind.ofName? (name : String) : Option TokenKind :=
  all.find? fun k => k.name == name

/-- A grouping parenthesis opens a group of its own, whatever stands before it. Only an opening
parenthesis is ever asked. -/
structure Token where
  kind : TokenKind
  text : String
  position : Position
  grouping : Bool := false
  deriving DecidableEq, Repr, Inhabited

def Token.render (t : Token) : String :=
  t.kind.name ++ " `" ++ t.text ++ "` at " ++ toString t.position.offset.toNat

end TokenForest
