set_option autoImplicit false

namespace TokenForest

/-- A byte offset into a UTF-8 text. It may point inside a character or past the end. -/
structure Position where
  offset : UInt32
  source : String
  deriving DecidableEq, Repr, Inhabited

def Position.ofInt (offset : Int) (source : String) : Position :=
  ⟨UInt32.ofInt offset, source⟩

/-- The start of the empty text, for a fault that belongs to no token. -/
def Position.nowhere : Position := ⟨0, ""⟩

end TokenForest
