import TokenForest.Lexeme
import TokenForest.Scan.Basic

set_option autoImplicit false

namespace TokenForest

namespace Scan

def leaf (rest : List Token) (row : Row) (n : Node) : Step := ⟨.ok (), rest, ⟨n, 0⟩ :: row⟩

def identifier : Scan := fun token rest row => leaf rest row (.identifier token.text)

def number : Scan := fun token rest row =>
  match Binary64.ofLiteral? token.text with
  | some value => leaf rest row (.number value)
  | none => ⟨.error ⟨.invalidNumber token.text, token.position⟩, rest, row⟩

def string : Scan := fun token rest row => leaf rest row (.string (Text.inner 1 token.text))

def comment : Scan := fun token rest row => leaf rest row (.comment (Text.inner 2 token.text))

/-- The marker keeps what the table says of its symbol now. -/
def operator (table : OperatorTable) : Scan := fun token rest row =>
  match table.get? token.text with
  | some info =>
    leaf rest row (.marker ⟨token.text, info.name, info.precedence, token.position⟩)
  | none => ⟨.error ⟨.unknownOperator token.text, token.position⟩, rest, row⟩

end Scan

end TokenForest
