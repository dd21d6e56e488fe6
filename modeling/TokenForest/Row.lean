import TokenForest.Fault
import TokenForest.Node.Basic

/-!
Rows: the nodes read so far on one level, the newest first. Each carries the depth of its tree, so
that a parent is built without walking its children again.
-/

set_option autoImplicit false

namespace TokenForest

/-- A node with the depth that is counted for it. The reader counts no further than one past its
limit, so a plain number will do; `foldWords` is for depths that come from elsewhere. -/
structure Entry where
  node : Node
  depth : Nat
  deriving Repr, Inhabited

def Entry.ofNode (n : Node) : Entry := ⟨n, n.depth⟩

theorem Entry.map_node_ofNode (ns : List Node) : (ns.map Entry.ofNode).map Entry.node = ns := by
  rw [List.map_map]
  exact List.map_id _

def Entry.isOperand (e : Entry) : Bool := e.node.isOperand

def Entry.deepest (entries : List Entry) : Nat :=
  entries.foldr (fun e d => max e.depth d) 0

@[simp] theorem Entry.deepest_nil : deepest [] = 0 := rfl

theorem Entry.deepest_cons (e : Entry) (es : List Entry) :
    deepest (e :: es) = max e.depth (deepest es) := rfl

theorem Entry.deepest_le_iff {es : List Entry} {k : Nat} :
    deepest es ≤ k ↔ ∀ e ∈ es, e.depth ≤ k := by
  induction es with
  | nil => simp
  | cons e es ih => rw [deepest_cons, Nat.max_le, ih, List.forall_mem_cons]

theorem Entry.depth_le_deepest {es : List Entry} {e : Entry} (h : e ∈ es) :
    e.depth ≤ deepest es :=
  deepest_le_iff.1 (Nat.le_refl _) e h

abbrev Row := List Entry

namespace Row

def take? (row : Row) (p : Node → Bool) : Option (Entry × Row) :=
  match row with
  | [] => none
  | e :: below => if p e.node then some (e, below) else none

def push? (row : Row) (limit : Nat) (token : Token) (e : Entry) : Except Fault Row :=
  if limit < e.depth then .error ⟨.tooDeep limit, token.position⟩ else .ok (e :: row)

theorem take?_eq_some {row below : Row} {p : Node → Bool} {e : Entry} :
    row.take? p = some (e, below) ↔ row = e :: below ∧ p e.node = true := by
  cases row with
  | nil => simp [take?]
  | cons d ds =>
    simp only [take?]
    split
    · rename_i h
      constructor
      · rintro ⟨rfl, rfl⟩
        exact ⟨rfl, h⟩
      · rintro ⟨⟨rfl, rfl⟩, _⟩
        rfl
    · rename_i h
      simp only [reduceCtorEq, false_iff, not_and]
      rintro ⟨rfl, rfl⟩
      exact h

def nodes (row : Row) : List Node := row.reverse.map Entry.node

end Row

end TokenForest
