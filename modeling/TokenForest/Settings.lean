import TokenForest.Excerpt
import TokenForest.Operator

set_option autoImplicit false

namespace TokenForest

/-- The depth limit holds for the recursion of the reader as well as for the trees it builds. The
style is for showing faults and changes no tree. -/
structure Settings where
  operators : OperatorTable := .standard
  maxDepth : Nat := 256
  style : MarkerStyle := .plain
  deriving Repr, Inhabited

def Settings.standard : Settings where

end TokenForest
