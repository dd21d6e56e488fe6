import TokenForest.Fold.Links
import TokenForest.Settings

set_option autoImplicit false

namespace TokenForest

def foldNodes (nodes : List Node) : Except Fault (List Node) :=
  (foldMarkers Settings.standard.maxDepth (nodes.map Entry.ofNode)).map fun entries =>
    entries.map Entry.node

end TokenForest
