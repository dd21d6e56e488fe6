import TokenForest.Decimal.Nearest

/-!
The shortest decimal text of a double: the fewest digits that read back as the same value, and of
the candidates with that many digits the nearest. Only the two neighbours of the value on each
decimal grid can be nearest, so only they are tried.
-/

set_option autoImplicit false

namespace TokenForest

namespace Decimal

def ratio (rank : Nat) (exponent : Int) : Nat × Nat :=
  match exponent with
  | .ofNat n => (Binary64.steps rank, Nat.pow 2 1074 * Nat.pow 10 n)
  | .negSucc n => (Binary64.steps rank * Nat.pow 10 (n + 1), Nat.pow 2 1074)

/-- The least k with value < 10^k. The value is scaled until its leading digit stands before the
point, which 10^324 does for the least double. -/
def leadingExponent (rank : Nat) : Int :=
  (width (Binary64.steps rank * Nat.pow 10 324 / Nat.pow 2 1074) : Int) - 324

/-- The neighbour that reads back; of two that do, the nearer, and of two at the same distance the
upper one. -/
def onGrid? (rank : Nat) (exponent : Int) : Option Decimal :=
  let (num, den) := ratio rank exponent
  let lower := stripZeros 17 ⟨num / den, exponent⟩
  let upper := stripZeros 17 ⟨num / den + 1, exponent⟩
  match decide (lower.nearest = rank), decide (upper.nearest = rank) with
  | true, true => some (if 2 * (num % den) < den then lower else upper)
  | true, false => some lower
  | false, true => some upper
  | false, false => none

def exact (rank : Nat) : Decimal :=
  ⟨Binary64.steps rank * Nat.pow 5 1074, -1074⟩

/-- The first grid, coarsest first, with a point that reads back; 17 digits always suffice. -/
def shortest (rank : Nat) : Decimal :=
  let k := leadingExponent rank
  ((List.range 17).findSome? fun n => onGrid? rank (k - (n + 1 : Nat))).getD (exact rank)

end Decimal

namespace Binary64

def renderRank (rank : Nat) : List Char :=
  if rank = 0 then ['0']
  else if rank = infinityRank then ['i', 'n', 'f']
  else (Decimal.shortest rank).positional

def render : Binary64 → String
  | .nan => "NaN"
  | .signed false r => String.ofList (renderRank r.val)
  | .signed true r => String.ofList ('-' :: renderRank r.val)

end Binary64

end TokenForest
