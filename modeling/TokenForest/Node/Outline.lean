import TokenForest.Node.Basic

set_option autoImplicit false

namespace TokenForest.Node

mutual

/-- A node at the given level, then its parts one level further down, from left to right. -/
def outline (level : Nat) : Node → List (Nat × Node)
  | .identifier name => [(level, .identifier name)]
  | .number value => [(level, .number value)]
  | .string value => [(level, .string value)]
  | .comment text => [(level, .comment text)]
  | .call callee arguments =>
    (level, .call callee arguments)
      :: (callee.outline (level + 1) ++ outlines (level + 1) arguments)
  | .group content => (level, .group content) :: outlines (level + 1) content
  | .block content => (level, .block content) :: outlines (level + 1) content
  | .function name parameters body =>
    (level, .function name parameters body)
      :: (outlines (level + 1) parameters ++ outlines (level + 1) body)
  | .set content => (level, .set content) :: outlines (level + 1) content
  | .index target content =>
    (level, .index target content) :: (target.outline (level + 1) ++ outlines (level + 1) content)
  | .member target name =>
    (level, .member target name) :: (target.outline (level + 1) ++ name.outline (level + 1))
  | .range start stop =>
    (level, .range start stop) :: (start.outline (level + 1) ++ stop.outline (level + 1))
  | .statement content => (level, .statement content) :: outlines (level + 1) content
  | .ternary condition left right =>
    (level, .ternary condition left right) :: (condition.outline (level + 1)
      ++ left.outline (level + 1) ++ right.outline (level + 1))
  | .marker op => [(level, .marker op)]
  | .dangling op side operand => (level, .dangling op side operand) :: operand.outline (level + 1)
  | .binary op left right =>
    (level, .binary op left right) :: (left.outline (level + 1) ++ right.outline (level + 1))

def outlines (level : Nat) : List Node → List (Nat × Node)
  | [] => []
  | n :: ns => n.outline level ++ outlines level ns

end

theorem outlines_append (level : Nat) (ns ms : List Node) :
    outlines level (ns ++ ms) = outlines level ns ++ outlines level ms := by
  induction ns with
  | nil => rfl
  | cons n ns ih => simp [outlines, ih]

theorem outline_eq (level : Nat) (n : Node) :
    n.outline level = (level, n) :: outlines (level + 1) n.children := by
  cases n <;> simp [outline, outlines, children, outlines_append]

def subtrees (n : Node) : List Node := (n.outline 0).map Prod.snd

theorem mem_outlines {level : Nat} {ns : List Node} {x : Nat × Node} :
    x ∈ outlines level ns ↔ ∃ n ∈ ns, x ∈ n.outline level := by
  induction ns with
  | nil => simp [outlines]
  | cons n ns ih => simp [outlines, ih]

theorem outlines_eq_flatMap (level : Nat) (ns : List Node) :
    outlines level ns = ns.flatMap (outline level) := by
  induction ns with
  | nil => rfl
  | cons n ns ih => rw [outlines, ih, List.flatMap_cons]

/-- What holds of a node as soon as it holds of its parts holds of every node. -/
theorem children_induction {P : Node → Prop} (step : ∀ n, (∀ c ∈ n.children, P c) → P n)
    (n : Node) : P n := by
  induction hd : n.depth using Nat.strongRecOn generalizing n with
  | ind d ih => exact step n fun c hc => ih c.depth (hd ▸ depth_lt_of_mem_children hc) c rfl

theorem forall_mem_outline {P : Node → Prop} (step : ∀ n, P n → ∀ c ∈ n.children, P c) (n : Node)
    (h : P n) (level : Nat) : ∀ x ∈ n.outline level, P x.2 := by
  induction n using children_induction generalizing level with
  | step n ih =>
    intro x hx
    rw [n.outline_eq] at hx
    rcases List.mem_cons.1 hx with rfl | hx
    · exact h
    · obtain ⟨c, hc, hx⟩ := mem_outlines.1 hx
      exact ih c hc (step n h c hc) _ x hx

theorem forall_mem_subtrees {P : Node → Prop} (step : ∀ n, P n → ∀ c ∈ n.children, P c)
    {n : Node} (h : P n) : ∀ s ∈ n.subtrees, P s := by
  intro s hs
  obtain ⟨x, hx, rfl⟩ := List.mem_map.1 hs
  exact forall_mem_outline step n h 0 x hx

end TokenForest.Node
