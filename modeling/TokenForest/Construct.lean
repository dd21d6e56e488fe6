import TokenForest.Scan.Atom
import TokenForest.Scan.Choice
import TokenForest.Scan.Dot
import TokenForest.Scan.Enclosed
import TokenForest.Scan.Separator

set_option autoImplicit false

namespace TokenForest

inductive Construct where
  | delimiter | comment | number | string | identifier | parenthesis | set | block | dot
  | operator | semicolon | choice
  deriving DecidableEq, Repr, Inhabited

namespace Construct

def name : Construct → String
  | .delimiter => "Delimiter"
  | .comment => "Comment"
  | .number => "Number"
  | .string => "String"
  | .identifier => "Identifier"
  | .parenthesis => "Parenthesis"
  | .set => "Set"
  | .block => "Block"
  | .dot => "Period"
  | .operator => "Operator"
  | .semicolon => "Semicolon"
  | .choice => "Ternary"

def opener : Construct → TokenKind
  | .delimiter => .delimiter
  | .comment => .comment
  | .number => .number
  | .string => .string
  | .identifier => .word
  | .parenthesis => .opening .parenthesis
  | .set => .opening .square
  | .block => .opening .brace
  | .dot => .period
  | .operator => .operator
  | .semicolon => .semicolon
  | .choice => .questionMark

/-- The table, in the order it is searched. A choice is not in it: a question mark is seen to
before the table is asked. -/
def table : List Construct :=
  [.delimiter, .comment, .number, .string, .identifier, .parenthesis, .set, .block, .dot,
    .operator, .semicolon]

def accepts (c : Construct) (token : Token) : Bool := token.kind == c.opener

def find? (token : Token) : Option Construct := table.find? fun c => c.accepts token

def matching (token : Token) : List Construct := table.filter fun c => c.accepts token

def scan (ctx : Context) : Construct → Scan
  | .delimiter => Scan.delimiter
  | .comment => Scan.comment
  | .number => Scan.number
  | .string => Scan.string
  | .identifier => Scan.identifier
  | .parenthesis => Scan.enclosed ctx .parenthesis
  | .set => Scan.enclosed ctx .square
  | .block => Scan.enclosed ctx .brace
  | .dot => Scan.dot ctx
  | .operator => Scan.operator ctx.settings.operators
  | .semicolon => Scan.semicolon ctx
  | .choice => Scan.choice ctx

def of? (token : Token) : Option Construct :=
  if token.kind = .questionMark then some .choice else find? token

theorem of?_eq_some_iff {token : Token} {c : Construct} :
    of? token = some c ↔ token.kind = c.opener := by
  constructor
  · intro h
    unfold of? at h
    split at h
    · rename_i hk
      cases h
      exact hk
    · have hc := List.find?_some h
      simpa [accepts] using hc
  · intro h
    cases c with
    | choice => simp [of?, h, opener]
    | _ => simp [of?, h, find?, table, accepts, opener]

theorem of?_eq_none_iff {token : Token} :
    of? token = none ↔ ∃ b, token.kind = .closing b := by
  obtain ⟨kind, text, position, grouping⟩ := token
  cases kind with
  | opening b => cases b <;> simp [of?, find?, table, accepts, opener]
  | closing b => cases b <;> simp [of?, find?, table, accepts, opener]
  | _ => simp [of?, find?, table, accepts, opener]

end Construct

def Context.scan (ctx : Context) : Scan := fun token rest row =>
  match Construct.of? token with
  | some c => c.scan ctx token rest row
  | none => ⟨.error ⟨.unknownToken token.text, token.position⟩, rest, row⟩

end TokenForest
