import TokenForest.Proofs.Roles
import TokenForest.Proofs.Spelling

/-!
The brackets that trees are written with, each at its place in the writing. The place tells which
bracket of the tokens it was read from, the node what became of that bracket.
-/

set_option autoImplicit false

namespace TokenForest

/-- A bracket of the trees: the node that it belongs to, what is written before that node, and what
the bracket means. -/
structure Site where
  front : List TokenKind
  role : Role
  node : Node

namespace Node

/-- What the node writes before its bracket of the role. -/
def ahead : Role → Node → List TokenKind
  | .call, .call callee _ => callee.spelling
  | .call, .function (some _) _ _ => [.word]
  | .index, .index target _ => target.spelling
  | .named, .function (some _) parameters _ =>
    .word :: .opening .parenthesis :: (parameters.flatMap spelling ++ [.closing .parenthesis])
  | .anonymous, .function none parameters _ =>
    .opening .parenthesis :: (parameters.flatMap spelling ++ [.closing .parenthesis])
  | _, _ => []

end Node

def Site.place (s : Site) : List TokenKind := s.front ++ s.node.ahead s.role

namespace Node

mutual

/-- The opening brackets of a tree that is written after the given front. -/
def sites (front : List TokenKind) : Node → List Site
  | .identifier _ | .number _ | .string _ | .comment _ | .marker _ => []
  | .call callee arguments =>
    sites front callee ++ ⟨front, .call, .call callee arguments⟩
      :: sitesOf (front ++ callee.spelling ++ [.opening .parenthesis]) arguments
  | .group content =>
    ⟨front, .group, .group content⟩ :: sitesOf (front ++ [.opening .parenthesis]) content
  | .block content =>
    ⟨front, .block, .block content⟩ :: sitesOf (front ++ [.opening .brace]) content
  | .function (some name) parameters body =>
    ⟨front, .call, .function (some name) parameters body⟩
      :: (sitesOf (front ++ [.word, .opening .parenthesis]) parameters
        ++ ⟨front, .named, .function (some name) parameters body⟩
        :: sitesOf (front ++ ahead .named (.function (some name) parameters body)
          ++ [.opening .brace]) body)
  | .function none parameters body =>
    ⟨front, .group, .function none parameters body⟩
      :: (sitesOf (front ++ [.opening .parenthesis]) parameters
        ++ ⟨front, .anonymous, .function none parameters body⟩
        :: sitesOf (front ++ ahead .anonymous (.function none parameters body)
          ++ [.opening .brace]) body)
  | .set content =>
    ⟨front, .set, .set content⟩ :: sitesOf (front ++ [.opening .square]) content
  | .index target content =>
    sites front target ++ ⟨front, .index, .index target content⟩
      :: sitesOf (front ++ target.spelling ++ [.opening .square]) content
  | .member target name =>
    sites front target ++ sites (front ++ target.spelling ++ [.period]) name
  | .range start stop =>
    sites front start ++ sites (front ++ start.spelling ++ [.period, .period]) stop
  | .statement content => sitesOf front content
  | .ternary condition left right =>
    sites front condition ++ sites (front ++ condition.spelling ++ [.questionMark]) left
      ++ sites (front ++ condition.spelling ++ .questionMark :: left.spelling ++ [.operator]) right
  | .dangling _ .left operand => sites front operand
  | .dangling _ .right operand => sites (front ++ [.operator]) operand
  | .binary _ left right =>
    sites front left ++ sites (front ++ left.spelling ++ [.operator]) right

def sitesOf (front : List TokenKind) : List Node → List Site
  | [] => []
  | n :: ns => sites front n ++ sitesOf (front ++ n.spelling) ns

end

end Node

/-- What is written before each of the opening brackets, after the given front. -/
def fronts (front : List TokenKind) : List TokenKind → List (List TokenKind)
  | [] => []
  | .opening b :: ks => front :: fronts (front ++ [.opening b]) ks
  | k :: ks => fronts (front ++ [k]) ks

theorem fronts_append (front ks ls : List TokenKind) :
    fronts front (ks ++ ls) = fronts front ks ++ fronts (front ++ ks) ls := by
  induction ks generalizing front with
  | nil => simp [fronts]
  | cons k ks ih => cases k <;> simp [fronts, ih]

theorem length_le_of_mem_fronts {front ks x : List TokenKind} (h : x ∈ fronts front ks) :
    front.length ≤ x.length := by
  induction ks generalizing front with
  | nil => cases h
  | cons k ks ih =>
    have hlater : x ∈ fronts (front ++ [k]) ks → front.length ≤ x.length := fun hx => by
      have hle := ih hx
      rw [List.length_append] at hle
      omega
    cases k with
    | opening b =>
      rcases List.mem_cons.1 h with rfl | hx
      · exact Nat.le_refl _
      · exact hlater hx
    | _ => exact hlater h

theorem nodup_fronts (front ks : List TokenKind) : (fronts front ks).Nodup := by
  induction ks generalizing front with
  | nil => exact List.nodup_nil
  | cons k ks ih =>
    cases k with
    | opening b =>
      refine List.nodup_cons.2 ⟨fun hx => ?_, ih _⟩
      have hle := length_le_of_mem_fronts hx
      rw [List.length_append, List.length_singleton] at hle
      omega
    | _ => exact ih _

namespace Node

mutual

theorem map_role_sites (front : List TokenKind) :
    ∀ n : Node, (n.sites front).map Site.role = n.roles
  | .identifier _ | .number _ | .string _ | .comment _ | .marker _ => rfl
  | .call callee arguments => by
    simp [sites, roles, map_role_sites front callee, map_role_sitesOf _ arguments]
  | .group content | .block content | .set content | .statement content => by
    simp [sites, roles, map_role_sitesOf _ content]
  | .function name parameters body => by
    cases name <;>
      simp [sites, roles, map_role_sitesOf _ parameters, map_role_sitesOf _ body]
  | .index target content => by
    simp [sites, roles, map_role_sites front target, map_role_sitesOf _ content]
  | .member target name => by
    simp [sites, roles, map_role_sites _ target, map_role_sites _ name]
  | .range start stop => by
    simp [sites, roles, map_role_sites _ start, map_role_sites _ stop]
  | .ternary condition left right => by
    simp [sites, roles, map_role_sites _ condition, map_role_sites _ left, map_role_sites _ right]
  | .dangling _ side operand => by
    cases side <;> simp [sites, roles, map_role_sites _ operand]
  | .binary _ left right => by
    simp [sites, roles, map_role_sites _ left, map_role_sites _ right]

theorem map_role_sitesOf (front : List TokenKind) :
    ∀ ns : List Node, (sitesOf front ns).map Site.role = rolesOf ns
  | [] => rfl
  | n :: ns => by simp [sitesOf, rolesOf, map_role_sites front n, map_role_sitesOf _ ns]

end

mutual

/-- The sites are at the opening brackets of the writing, one at each. -/
theorem map_place_sites (front : List TokenKind) :
    ∀ n : Node, (n.sites front).map Site.place = fronts front n.spelling
  | .identifier _ | .number _ | .string _ | .comment _ | .marker _ => rfl
  | .call callee arguments => by
    simp [sites, spelling, tokens, fronts_append, fronts, Site.place, ahead,
      map_place_sites front callee, map_place_sitesOf _ arguments]
  | .group content | .block content | .set content | .statement content => by
    simp [sites, spelling, tokens, fronts_append, fronts, Site.place, ahead,
      map_place_sitesOf _ content]
  | .function name parameters body => by
    cases name <;>
      simp [sites, spelling, tokens, fronts_append, fronts, Site.place, ahead,
        map_place_sitesOf _ parameters, map_place_sitesOf _ body]
  | .index target content => by
    simp [sites, spelling, tokens, fronts_append, fronts, Site.place, ahead,
      map_place_sites front target, map_place_sitesOf _ content]
  | .member target name => by
    simp [sites, spelling, tokens, fronts_append, fronts, map_place_sites _ target,
      map_place_sites _ name]
  | .range start stop => by
    simp [sites, spelling, tokens, fronts_append, fronts, map_place_sites _ start,
      map_place_sites _ stop]
  | .ternary condition left right => by
    simp [sites, spelling, tokens, fronts_append, fronts, map_place_sites _ condition,
      map_place_sites _ left, map_place_sites _ right]
  | .dangling _ side operand => by
    cases side <;> simp [sites, spelling, tokens, fronts_append, fronts, map_place_sites _ operand]
  | .binary _ left right => by
    simp [sites, spelling, tokens, fronts_append, fronts, map_place_sites _ left,
      map_place_sites _ right]

theorem map_place_sitesOf (front : List TokenKind) :
    ∀ ns : List Node, (sitesOf front ns).map Site.place = fronts front (ns.flatMap spelling)
  | [] => rfl
  | n :: ns => by
    simp [sitesOf, fronts_append, map_place_sites front n, map_place_sitesOf _ ns]

end

end Node

/-- The node is one of the given ones, the bracket is its own, and the writing begins with the
front and the node. -/
structure Site.Stands (writing : List TokenKind) (nodes : List Node) (s : Site) : Prop where
  part : s.node ∈ nodes
  owned : s.role ∈ s.node.ownRoles
  written : s.front ++ s.node.spelling <+: writing

theorem Site.Stands.mono {writing writing' : List TokenKind} {nodes nodes' : List Node} {s : Site}
    (h : s.Stands writing nodes) (hw : writing <+: writing') (hn : nodes ⊆ nodes') :
    s.Stands writing' nodes' :=
  ⟨hn h.part, h.owned, h.written.trans hw⟩

namespace Node

theorem subset_subtrees {n c : Node} (h : c ∈ n.children) : c.subtrees ⊆ n.subtrees := by
  intro s hs
  rw [n.subtrees_eq]
  exact List.mem_cons_of_mem _ (List.mem_flatMap_of_mem h hs)

theorem flatMap_subset_subtrees {n : Node} {ns : List Node} (h : ns ⊆ n.children) :
    ns.flatMap subtrees ⊆ n.subtrees := by
  intro s hs
  obtain ⟨c, hc, hs⟩ := List.mem_flatMap.1 hs
  exact subset_subtrees (h hc) hs

theorem self_mem_subtrees (n : Node) : n ∈ n.subtrees := by
  rw [n.subtrees_eq]
  exact List.mem_cons_self

theorem forall_stands_sites_of_child {front later : List TokenKind} {n c : Node}
    (h : ∀ s ∈ c.sites later, s.Stands (later ++ c.spelling) c.subtrees) (hc : c ∈ n.children)
    (hw : later ++ c.spelling <+: front ++ n.spelling) :
    ∀ s ∈ c.sites later, s.Stands (front ++ n.spelling) n.subtrees :=
  fun s hs => (h s hs).mono hw (subset_subtrees hc)

theorem forall_stands_sitesOf_of_children {front later : List TokenKind} {n : Node}
    {ns : List Node}
    (h : ∀ s ∈ sitesOf later ns, s.Stands (later ++ ns.flatMap spelling) (ns.flatMap subtrees))
    (hc : ns ⊆ n.children) (hw : later ++ ns.flatMap spelling <+: front ++ n.spelling) :
    ∀ s ∈ sitesOf later ns, s.Stands (front ++ n.spelling) n.subtrees :=
  fun s hs => (h s hs).mono hw (flatMap_subset_subtrees hc)

theorem stands_own {front : List TokenKind} {r : Role} {n : Node} (h : r ∈ n.ownRoles) :
    (Site.mk front r n).Stands (front ++ n.spelling) n.subtrees :=
  ⟨n.self_mem_subtrees, h, List.prefix_refl _⟩

mutual

theorem stands_sites (front : List TokenKind) :
    ∀ n : Node, ∀ s ∈ n.sites front, s.Stands (front ++ n.spelling) n.subtrees
  | .identifier _ | .number _ | .string _ | .comment _ | .marker _ => by simp [sites]
  | .call callee arguments => by
    rw [sites, List.forall_mem_append, List.forall_mem_cons]
    exact ⟨forall_stands_sites_of_child (stands_sites _ callee) (by simp [children])
        (by simp [spelling, tokens]),
      stands_own (by simp [ownRoles]),
      forall_stands_sitesOf_of_children (stands_sitesOf _ arguments) (by simp [children])
        (by simp [spelling, tokens])⟩
  | .group content | .block content | .set content => by
    rw [sites, List.forall_mem_cons]
    exact ⟨stands_own (by simp [ownRoles]),
      forall_stands_sitesOf_of_children (stands_sitesOf _ content) (by simp [children])
        (by simp [spelling, tokens])⟩
  | .function name parameters body => by
    cases name with
    | _ =>
      rw [sites, List.forall_mem_cons, List.forall_mem_append, List.forall_mem_cons]
      exact ⟨stands_own (by simp [ownRoles]),
        forall_stands_sitesOf_of_children (stands_sitesOf _ parameters) (by simp [children])
          (by simp [spelling, tokens]),
        stands_own (by simp [ownRoles]),
        forall_stands_sitesOf_of_children (stands_sitesOf _ body) (by simp [children])
          (by simp [spelling, tokens, ahead])⟩
  | .index target content => by
    rw [sites, List.forall_mem_append, List.forall_mem_cons]
    exact ⟨forall_stands_sites_of_child (stands_sites _ target) (by simp [children])
        (by simp [spelling, tokens]),
      stands_own (by simp [ownRoles]),
      forall_stands_sitesOf_of_children (stands_sitesOf _ content) (by simp [children])
        (by simp [spelling, tokens])⟩
  | .member target name => by
    rw [sites, List.forall_mem_append]
    exact ⟨forall_stands_sites_of_child (stands_sites _ target) (by simp [children])
        (by simp [spelling, tokens]),
      forall_stands_sites_of_child (stands_sites _ name) (by simp [children])
        (by simp [spelling, tokens])⟩
  | .range start stop => by
    rw [sites, List.forall_mem_append]
    exact ⟨forall_stands_sites_of_child (stands_sites _ start) (by simp [children])
        (by simp [spelling, tokens]),
      forall_stands_sites_of_child (stands_sites _ stop) (by simp [children])
        (by simp [spelling, tokens])⟩
  | .statement content =>
    forall_stands_sitesOf_of_children (stands_sitesOf _ content) (by simp [children])
      (by simp [spelling, tokens])
  | .ternary condition left right => by
    rw [sites, List.forall_mem_append, List.forall_mem_append]
    exact ⟨⟨forall_stands_sites_of_child (stands_sites _ condition) (by simp [children])
          (by simp [spelling, tokens]),
        forall_stands_sites_of_child (stands_sites _ left) (by simp [children])
          (by simp [spelling, tokens])⟩,
      forall_stands_sites_of_child (stands_sites _ right) (by simp [children])
        (by simp [spelling, tokens])⟩
  | .dangling _ side operand => by
    cases side with
    | _ =>
      rw [sites]
      exact forall_stands_sites_of_child (stands_sites _ operand) (by simp [children])
        (by simp [spelling, tokens])
  | .binary _ left right => by
    rw [sites, List.forall_mem_append]
    exact ⟨forall_stands_sites_of_child (stands_sites _ left) (by simp [children])
        (by simp [spelling, tokens]),
      forall_stands_sites_of_child (stands_sites _ right) (by simp [children])
        (by simp [spelling, tokens])⟩

theorem stands_sitesOf (front : List TokenKind) :
    ∀ ns : List Node, ∀ s ∈ sitesOf front ns,
      s.Stands (front ++ ns.flatMap spelling) (ns.flatMap subtrees)
  | [] => by simp [sitesOf]
  | n :: ns => by
    rw [sitesOf, List.forall_mem_append]
    exact ⟨fun s hs => (stands_sites front n s hs).mono (by simp) (by simp),
      fun s hs => (stands_sitesOf _ ns s hs).mono (by simp) (by simp)⟩

end

end Node

end TokenForest
