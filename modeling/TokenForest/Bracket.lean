set_option autoImplicit false

namespace TokenForest

inductive Bracket where
  | parenthesis | brace | square
  deriving DecidableEq, Repr, Inhabited

def Bracket.openText : Bracket → String
  | .parenthesis => "("
  | .brace => "\x7b"
  | .square => "["

def Bracket.closeText : Bracket → String
  | .parenthesis => ")"
  | .brace => "\x7d"
  | .square => "]"

end TokenForest
