import TokenForest.Excerpt
import TokenForest.Text.Quoted
import TokenForest.Token

set_option autoImplicit false

namespace TokenForest

inductive Cause where
  | unclosedGroup (close : String)
  | unknownToken (text : String)
  | unexpectedToken (text : String)
  | missingOperand (symbol : String)
  | unknownOperator (symbol : String)
  | invalidNumber (text : String)
  | tooDeep (limit : Nat)
  deriving DecidableEq, Repr, Inhabited

def Cause.name : Cause → String
  | .unclosedGroup _ => "UnterminatedGroup"
  | .unknownToken _ => "UnknownToken"
  | .unexpectedToken _ => "UnexpectedToken"
  | .missingOperand _ => "MalformedOperatorExpression"
  | .unknownOperator _ => "UnknownOperator"
  | .invalidNumber _ => "NumberParseError"
  | .tooDeep _ => "NestingTooDeep"

def Cause.message : Cause → String
  | .unclosedGroup close => "invalid nesting. No closing `" ++ close ++ "` was found"
  | .unknownToken text => "unknown token: " ++ Text.quote text
  | .unexpectedToken text => "unexpected token: " ++ Text.quote text
  | .missingOperand symbol => "operator " ++ Text.quote symbol ++ " is missing an operand"
  | .unknownOperator symbol => "unknown operator: " ++ Text.quote symbol
  | .invalidNumber text => "error parsing number: " ++ Text.quote text
  | .tooDeep limit => "expression nested deeper than " ++ toString limit ++ " levels"

def Cause.tip? : Cause → Option String
  | .unclosedGroup close => some ("Add the missing `" ++ close ++ "`")
  | .unknownToken _ | .unexpectedToken _ => none
  | .missingOperand symbol => some ("Operator `" ++ symbol ++ "` needs an operand on both sides")
  | .unknownOperator symbol =>
    some ("Operator `" ++ symbol ++ "` is missing from the operator table")
  | .invalidNumber text => some ("Invalid number: `" ++ text ++ "`")
  | .tooDeep limit =>
    some ("Split long operator or member chains; trees may be at most " ++ toString limit
      ++ " levels deep")

structure Fault where
  cause : Cause
  position : Position
  deriving DecidableEq, Repr, Inhabited

/-- The offset is shown as it was given, even where the excerpt marks a character before it. -/
def Fault.render (f : Fault) (style : MarkerStyle) : String :=
  "Parse error, " ++ f.cause.message ++ "\nAt " ++ toString f.position.offset.toNat ++ "\n"
    ++ f.position.excerpt style

def Token.unexpected (t : Token) : Fault := ⟨.unexpectedToken t.text, t.position⟩

end TokenForest
