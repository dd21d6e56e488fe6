/-!
Double-precision numbers as exact values. A number other than NaN is a sign and a rank: its place
among the non-negative doubles, zero first and infinity last. The rank is also the bit pattern
without its sign bit, so nothing is lost and nothing has to be decoded.
-/

set_option autoImplicit false

namespace TokenForest

def Binary64.infinityRank : Nat := 0x7FF0000000000000

/-- There is one NaN, without a sign. -/
inductive Binary64 where
  | nan
  | signed (negative : Bool) (rank : Fin (Binary64.infinityRank + 1))
  deriving DecidableEq, Repr

namespace Binary64

instance : Inhabited Binary64 := ⟨.nan⟩

def ofRank (negative : Bool) (rank : Nat) : Binary64 :=
  .signed negative ⟨min rank infinityRank, Nat.lt_succ_of_le (Nat.min_le_right _ _)⟩

def bits : Binary64 → Nat
  | .nan => 0x7FF8000000000000
  | .signed false r => r.val
  | .signed true r => Nat.pow 2 63 + r.val

/-- Numeric equality: NaN differs from itself, and the two zeros are equal. -/
def equals : Binary64 → Binary64 → Bool
  | .signed s r, .signed t q => r == q && (s == t || r.val == 0)
  | _, _ => false

/-- The value of a finite rank in steps of 2^-1074, the least positive double. The first 2^53 ranks
are one step apart; from there on every 2^52 ranks double the distance. Of infinity it is the value
that would come next. -/
def steps (rank : Nat) : Nat :=
  if rank < Nat.pow 2 53 then rank
  else (Nat.pow 2 52 + rank % Nat.pow 2 52) * Nat.pow 2 (rank / Nat.pow 2 52 - 1)

end Binary64

end TokenForest
