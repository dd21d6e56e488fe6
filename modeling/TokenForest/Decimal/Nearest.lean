import TokenForest.Binary64
import TokenForest.Decimal

/-!
The double nearest to a decimal number, ties to even. Every step is exact integer arithmetic on
one quotient: a rank and its rounding are read off the value in steps of 2^-1074.
-/

set_option autoImplicit false

namespace TokenForest

/-- The integer nearest to num / den; of two at the same distance, the even one. -/
def roundEven (num den : Nat) : Nat :=
  let q := num / den
  let twice := 2 * (num % den)
  if den < twice ∨ (twice = den ∧ q % 2 = 1) then q + 1 else q

/-- The rank nearest to num / den steps. A quotient of more than 53 bits is rounded at its 53rd,
and each bit dropped moves the rank up by one block of 2^52; a carry out of the 53 bits lands on
the next block by itself. -/
def nearestRank (num den : Nat) : Nat :=
  let shift := (num / den).log2 - 52
  shift * Nat.pow 2 52 + roundEven num (den * Nat.pow 2 shift)

namespace Decimal

/-- The rank of the nearest double. From 10^310 on that is infinity, below 10^-330 zero; the two
guards keep the powers of ten small. -/
def nearest (d : Decimal) : Nat :=
  let magnitude := width d.digits + d.exponent
  if d.digits = 0 ∨ magnitude < -330 then 0
  else if 310 < magnitude then Binary64.infinityRank
  else match d.exponent with
    | .ofNat n => nearestRank (d.digits * Nat.pow 10 n * Nat.pow 2 1074) 1
    | .negSucc n => nearestRank (d.digits * Nat.pow 2 1074) (Nat.pow 10 (n + 1))

def toBinary64 (negative : Bool) (d : Decimal) : Binary64 :=
  .ofRank negative d.nearest

end Decimal

end TokenForest
