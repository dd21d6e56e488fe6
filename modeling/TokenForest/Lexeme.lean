import TokenForest.Decimal.Literal
import TokenForest.Token

set_option autoImplicit false

namespace TokenForest

/-- A text without so many characters at either end. -/
def Text.inner (margin : Nat) (text : String) : String :=
  String.ofList ((text.toList.drop margin).take (text.toList.length - 2 * margin))

/-- A symbol may come without a place, as the colon of a choice does. -/
inductive Lexeme where
  | word (text : String)
  | number (value : Binary64)
  | string (value : String)
  | comment (text : String)
  | symbol (text : String) (position : Option Position)
  deriving DecidableEq, Repr

/-- A string token still has its quotes and a comment token its two marks on either side. A number
token whose text is no literal brings nothing. -/
def Token.lexeme? (t : Token) : Option Lexeme :=
  match t.kind with
  | .word => some (.word t.text)
  | .number => (Binary64.ofLiteral? t.text).map .number
  | .string => some (.string (Text.inner 1 t.text))
  | .comment => some (.comment (Text.inner 2 t.text))
  | .operator => some (.symbol t.text (some t.position))
  | _ => none

def Lexeme.Stands : Lexeme → Lexeme → Prop
  | .symbol a none, .symbol b _ => a = b
  | a, b => a = b

theorem Lexeme.stands_self (x : Lexeme) : x.Stands x := by
  cases x with
  | symbol a p => cases p <;> rfl
  | _ => rfl

theorem Text.toList_inner_append (left middle right : List Char) (h : left.length = right.length) :
    (Text.inner left.length (String.ofList (left ++ middle ++ right))).toList = middle := by
  have hl : (left ++ middle ++ right).length - 2 * left.length = middle.length := by
    simp only [List.length_append]
    omega
  rw [inner, String.toList_ofList, String.toList_ofList, hl, List.append_assoc, List.drop_left,
    List.take_left]

end TokenForest
