import TokenForest.Decimal.Nearest

/-!
Number literals. After an optional sign stands inf, infinity or nan in any case, or digits with an
optional point and an optional exponent; at least one digit stands on one side of the point. Only
ASCII digits count, and nothing may follow.
-/

set_option autoImplicit false

namespace TokenForest

namespace Decimal

def splitSign : List Char → Bool × List Char
  | '-' :: cs => (true, cs)
  | '+' :: cs => (false, cs)
  | cs => (false, cs)

def splitDigits (cs : List Char) : List Char × List Char :=
  (cs.takeWhile isDigit, cs.dropWhile isDigit)

def wholeNumber? (cs : List Char) : Option Nat :=
  if cs ≠ [] ∧ cs.all isDigit then some (natOfDigits cs) else none

def exponent? : List Char → Option Int
  | [] => some 0
  | c :: cs =>
    if c = 'e' ∨ c = 'E' then
      (wholeNumber? (splitSign cs).2).map fun n => if (splitSign cs).1 then -(n : Int) else n
    else none

def splitFraction : List Char → List Char × List Char
  | '.' :: cs => splitDigits cs
  | cs => ([], cs)

def ofLiteral? (cs : List Char) : Option Decimal :=
  let whole := splitDigits cs
  let fraction := splitFraction whole.2
  if whole.1 = [] ∧ fraction.1 = [] then none
  else (exponent? fraction.2).map fun e =>
    ⟨natOfDigits (whole.1 ++ fraction.1), e - fraction.1.length⟩

end Decimal

namespace Binary64

def ofUnsigned? (negative : Bool) (cs : List Char) : Option Binary64 :=
  let word := cs.map Char.toLower
  if word = ['i', 'n', 'f'] ∨ word = ['i', 'n', 'f', 'i', 'n', 'i', 't', 'y'] then
    some (.ofRank negative infinityRank)
  else if word = ['n', 'a', 'n'] then some .nan
  else (Decimal.ofLiteral? cs).map (Decimal.toBinary64 negative)

/-- The value of a literal: too large becomes infinity and too small becomes zero. -/
def ofLiteral? (text : String) : Option Binary64 :=
  let signed := Decimal.splitSign text.toList
  ofUnsigned? signed.1 signed.2

end Binary64

end TokenForest
