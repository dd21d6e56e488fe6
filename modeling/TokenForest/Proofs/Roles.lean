import TokenForest.Node.Outline
import TokenForest.Proofs.Grammar
import TokenForest.Proofs.Precedence

/-!
What an opening bracket stands for. The trees tell it by their forms, each form being written with
certain brackets; the tokens tell it by what stands before the bracket. Inside an enclosure nothing
is told by the tokens outside.
-/

set_option autoImplicit false

namespace TokenForest

/-- A function has two brackets: the one of its parameters, which are first read as a call of its
name, or as a group if it has none, and the one of its body. -/
inductive Role where
  | call | group | index | set | named | anonymous | block
  deriving DecidableEq, Repr

/-- The list ends with a parenthesis group, or with delimiters after one, and what stands before
the group is so. -/
def AfterGroup (p : List Token → Prop) (before : List Token) : Prop :=
  ∃ callee, Grouped callee before ∧ p callee

/-- A parenthesis right after the list is neither a call nor the right operand of a period. -/
def Standalone (before : List Token) : Prop := ¬ Callable before ∧ Undotted before

/-- The ways to cut the list at one of its tokens: what stands before it, the token itself, and
what stands after it. -/
def Token.cuts : List Token → List (List Token × Token × List Token)
  | [] => []
  | t :: ts => ([], t, ts) :: (cuts ts).map fun x => (t :: x.1, x.2)

section Decidable

variable {before ts : List Token} {p : List Token → Prop}

theorem Token.mem_cuts {x : List Token × Token × List Token} :
    x ∈ cuts ts ↔ ts = x.1 ++ x.2.1 :: x.2.2 := by
  obtain ⟨front, s, back⟩ := x
  induction ts generalizing front with
  | nil => simp [cuts]
  | cons t ts ih =>
    cases front with
    | nil => simp [cuts, eq_comm]
    | cons r front => simp [cuts, ih, and_comm, eq_comm]

theorem afterGroup_iff_cuts : AfterGroup p before ↔
    ∃ x ∈ Token.cuts before, x.2.1.kind = .opening .parenthesis ∧ p x.1 ∧
      ∃ y ∈ Token.cuts x.2.2, y.2.1.kind = .closing .parenthesis ∧ Balanced y.1 ∧
        ∀ t ∈ y.2.2, t.kind = .delimiter := by
  constructor
  · intro h
    obtain ⟨callee, ⟨opener, closer, inside, gap, ho, hc, hi, hg, rfl⟩, hp⟩ := h
    exact ⟨(callee, opener, inside ++ closer :: gap), Token.mem_cuts.2 rfl, ho, hp,
      (inside, closer, gap), Token.mem_cuts.2 rfl, hc, hi, hg⟩
  · intro h
    obtain ⟨⟨callee, opener, rest⟩, hx, ho, hp, ⟨inside, closer, gap⟩, hy, hc, hi, hg⟩ := h
    refine ⟨callee, ⟨opener, closer, inside, gap, ho, hc, hi, hg, ?_⟩, hp⟩
    rw [Token.mem_cuts.1 hx, Token.mem_cuts.1 hy]

instance : DecidablePred OperandBefore := fun before =>
  inferInstanceAs (Decidable (∃ t ∈ (Token.solid before).getLast?, t.endsOperand = true))

instance : DecidablePred Callable := fun before =>
  inferInstanceAs (Decidable (∃ t ∈ before.getLast?, t.endsOperand = true ∧ t.kind ≠ .semicolon))

instance : DecidablePred Standalone := fun before =>
  inferInstanceAs (Decidable (¬ Callable before ∧ ∀ p ∈ before.getLast?, p.kind ≠ .period))

instance [DecidablePred p] : DecidablePred (AfterGroup p) := fun _ =>
  decidable_of_iff _ afterGroup_iff_cuts.symm

end Decidable

def Token.role? (before : List Token) (t : Token) : Option Role :=
  match t.kind with
  | .opening .parenthesis => some (if Callable before then .call else .group)
  | .opening .square => some (if OperandBefore before then .index else .set)
  | .opening .brace =>
    some (if AfterGroup Callable before then .named
      else if AfterGroup Standalone before then .anonymous else .block)
  | _ => none

def Role.bracket : Role → Bracket
  | .call | .group => .parenthesis
  | .index | .set => .square
  | .named | .anonymous | .block => .brace

def Role.Fits : Role → List Token → Prop
  | .call, before => Callable before
  | .group, before => ¬ Callable before
  | .index, before => OperandBefore before
  | .set, before => ¬ OperandBefore before
  | .named, before => AfterGroup Callable before
  | .anonymous, before => AfterGroup Standalone before
  | .block, before => ¬ AfterGroup Callable before ∧ ¬ AfterGroup Standalone before

instance (r : Role) : DecidablePred r.Fits := fun before =>
  match r with
  | .call => inferInstanceAs (Decidable (Callable before))
  | .group => inferInstanceAs (Decidable (¬ Callable before))
  | .index => inferInstanceAs (Decidable (OperandBefore before))
  | .set => inferInstanceAs (Decidable (¬ OperandBefore before))
  | .named => inferInstanceAs (Decidable (AfterGroup Callable before))
  | .anonymous => inferInstanceAs (Decidable (AfterGroup Standalone before))
  | .block =>
    inferInstanceAs (Decidable (¬ AfterGroup Callable before ∧ ¬ AfterGroup Standalone before))

/-- How many brackets of the family open where what stands before them is so. -/
def Token.opened (b : Bracket) (p : List Token → Prop) [DecidablePred p] (tokens : List Token) :
    Nat :=
  (cuts tokens).countP fun x => x.2.1.kind = .opening b ∧ p x.1

def Token.roles (before ts : List Token) : List Role :=
  (cuts ts).filterMap fun x => x.2.1.role? (before ++ x.1)

section Laws

variable {t q opener closer : Token} {b : Bracket} {p : List Token → Prop}
  {before pre front back inside ts : List Token}

theorem not_afterGroup_nil : ¬ AfterGroup p [] := by
  intro h
  obtain ⟨callee, ⟨opener, closer, inside, gap, -, -, -, -, he⟩, -⟩ := h
  simp at he

theorem afterGroup_concat_delimiter (h : t.kind = .delimiter) :
    AfterGroup p (before ++ [t]) ↔ AfterGroup p before := by
  simp only [AfterGroup, grouped_concat_delimiter h]

theorem not_afterGroup_concat (hd : t.kind ≠ .delimiter) (hc : t.kind ≠ .closing .parenthesis) :
    ¬ AfterGroup p (before ++ [t]) := by
  intro h
  obtain ⟨callee, hg, -⟩ := h
  rcases hg.of_concat with ⟨hk, -⟩ | hk
  · exact hd hk
  · exact hc hk

theorem afterGroup_group (ho : opener.kind = .opening .parenthesis)
    (hc : closer.kind = .closing .parenthesis) (hi : Balanced inside) :
    AfterGroup p (before ++ opener :: (inside ++ [closer])) ↔ p before := by
  constructor
  · intro h
    obtain ⟨callee, hg, hp⟩ := h
    rwa [hg.callee_eq ho hc hi] at hp
  · intro h
    exact ⟨before, ⟨opener, closer, inside, [], ho, hc, hi, by simp, rfl⟩, h⟩

theorem afterGroup_inside (hq : q.Bar) (hi : Balanced (front ++ back))
    (hp : ∀ rest, p (pre ++ q :: rest) ↔ p rest) :
    AfterGroup p (pre ++ q :: front) ↔ AfterGroup p front := by
  constructor
  · intro h
    obtain ⟨callee, hg, hcallee⟩ := h
    obtain ⟨rest, rfl, hrest⟩ := (grouped_inside hq hi).1 hg
    exact ⟨rest, hrest, (hp rest).1 hcallee⟩
  · intro h
    obtain ⟨rest, hrest, hcallee⟩ := h
    exact ⟨pre ++ q :: rest, (grouped_inside hq hi).2 ⟨rest, rfl, hrest⟩, (hp rest).2 hcallee⟩

theorem Grouped.unique {callee other : List Token} (h : Grouped callee before)
    (h' : Grouped other before) : other = callee := by
  obtain ⟨opener, closer, inside, gap, ho, hc, hi, hg, rfl⟩ := h
  induction gap using List.reverseRecOn with
  | nil => exact h'.callee_eq ho hc hi
  | append_singleton gap t ih =>
    have hsplit : callee ++ opener :: (inside ++ closer :: (gap ++ [t])) =
        (callee ++ opener :: (inside ++ closer :: gap)) ++ [t] := by simp
    rw [hsplit, grouped_concat_delimiter (hg t (by simp))] at h'
    exact ih (fun s hs => hg s (by simp [hs])) h'

theorem AfterGroup.not_of_not {q : List Token → Prop} (h : AfterGroup p before)
    (hq : ∀ callee, p callee → ¬ q callee) : ¬ AfterGroup q before := by
  intro h'
  obtain ⟨callee, hg, hp⟩ := h
  obtain ⟨other, hg', hother⟩ := h'
  rw [hg.unique hg'] at hother
  exact hq callee hp hother

theorem standalone_inside (hq : q.Bar) : Standalone (pre ++ q :: front) ↔ Standalone front :=
  and_congr (not_congr (callable_inside hq)) (undotted_inside hq)

namespace Token

theorem role?_inside (hq : q.Bar) (hi : Balanced (front ++ t :: back)) :
    t.role? (pre ++ q :: front) = t.role? front := by
  have hcall : AfterGroup Callable (pre ++ q :: front) ↔ AfterGroup Callable front :=
    afterGroup_inside hq hi fun _ => callable_inside hq
  have halone : AfterGroup Standalone (pre ++ q :: front) ↔ AfterGroup Standalone front :=
    afterGroup_inside hq hi fun _ => standalone_inside hq
  simp only [role?, callable_inside hq, operandBefore_inside hq, hcall, halone]

theorem role?_eq_some_iff {r : Role} :
    t.role? before = some r ↔ t.kind = .opening r.bracket ∧ r.Fits before := by
  have hexclusive : AfterGroup Standalone before → ¬ AfterGroup Callable before := fun h =>
    h.not_of_not fun _ hs => hs.1
  unfold role?
  split
  · rename_i hk
    by_cases hc : Callable before <;> cases r <;> simp [hk, hc, Role.bracket, Role.Fits]
  · rename_i hk
    by_cases ho : OperandBefore before <;> cases r <;> simp [hk, ho, Role.bracket, Role.Fits]
  · rename_i hk
    by_cases hc : AfterGroup Callable before
    · have hs : ¬ AfterGroup Standalone before := fun h => hexclusive h hc
      cases r <;> simp [hk, hc, hs, Role.bracket, Role.Fits]
    · by_cases hs : AfterGroup Standalone before <;>
        cases r <;> simp [hk, hc, hs, Role.bracket, Role.Fits]
  · rename_i hp hsq hb
    refine iff_of_false (by simp) fun h => ?_
    cases r <;> first | exact hp h.1 | exact hsq h.1 | exact hb h.1

theorem role?_eq_none (h : ∀ b, t.kind ≠ .opening b) : t.role? before = none := by
  unfold role?
  split <;> simp_all

theorem roles_cons (before : List Token) (t : Token) (ts : List Token) :
    roles before (t :: ts) = (t.role? before).toList ++ roles (before ++ [t]) ts := by
  simp only [roles, cuts, List.filterMap_cons, List.filterMap_map, Function.comp_def,
    List.append_nil, List.append_assoc, List.singleton_append]
  cases t.role? before <;> rfl

@[simp] theorem roles_nil (before : List Token) : roles before [] = [] := rfl

theorem roles_append (before xs ys : List Token) :
    roles before (xs ++ ys) = roles before xs ++ roles (before ++ xs) ys := by
  induction xs generalizing before with
  | nil => simp
  | cons x xs ih => simp [roles_cons, ih]

theorem roles_single (h : ∀ b, t.kind ≠ .opening b) : roles before [t] = [] := by
  rw [roles_cons, role?_eq_none h]
  rfl

theorem count_roles_eq_opened (r : Role) (tokens : List Token) :
    (roles [] tokens).count r = opened r.bracket r.Fits tokens := by
  rw [roles, List.count_filterMap, opened]
  refine List.countP_congr fun x _ => ?_
  rw [beq_iff_eq, decide_eq_true_iff]
  exact role?_eq_some_iff

theorem roles_plain (h : t.isBracket = false) : roles before [t] = [] := by
  refine roles_single fun b hk => ?_
  simp [isBracket, hk] at h

/-- Across a bar no role is told by what stands there. -/
theorem roles_inside (hq : q.Bar) (hi : Balanced ts) : roles (pre ++ [q]) ts = roles [] ts := by
  refine List.filterMap_congr fun x hx => ?_
  rw [List.append_assoc, List.singleton_append, List.nil_append]
  exact role?_inside hq (mem_cuts.1 hx ▸ hi)

theorem roles_enclosed (ho : opener.kind = .opening b) (hc : closer.kind = .closing b)
    (hi : Balanced inside) : roles before (opener :: (inside ++ [closer])) =
      (opener.role? before).toList ++ roles [] inside := by
  rw [roles_cons, roles_append, roles_inside (bar_opening ho) hi, roles_single (by simp [hc]),
    List.append_nil]

end Token

end Laws

namespace Node

mutual

/-- The roles of the brackets that the node is written with, from left to right. -/
def roles : Node → List Role
  | .identifier _ | .number _ | .string _ | .comment _ | .marker _ => []
  | .call callee arguments => callee.roles ++ .call :: rolesOf arguments
  | .group content => .group :: rolesOf content
  | .block content => .block :: rolesOf content
  | .function (some _) parameters body =>
    .call :: (rolesOf parameters ++ .named :: rolesOf body)
  | .function none parameters body =>
    .group :: (rolesOf parameters ++ .anonymous :: rolesOf body)
  | .set content => .set :: rolesOf content
  | .index target content => target.roles ++ .index :: rolesOf content
  | .member target name => target.roles ++ name.roles
  | .range start stop => start.roles ++ stop.roles
  | .statement content => rolesOf content
  | .ternary condition left right => condition.roles ++ left.roles ++ right.roles
  | .dangling _ _ operand => operand.roles
  | .binary _ left right => left.roles ++ right.roles

def rolesOf : List Node → List Role
  | [] => []
  | n :: ns => n.roles ++ rolesOf ns

end

theorem rolesOf_eq_flatMap (ns : List Node) : rolesOf ns = ns.flatMap roles := by
  induction ns with
  | nil => rfl
  | cons n ns ih => rw [rolesOf, ih, List.flatMap_cons]

theorem rolesOf_append (ns ms : List Node) : rolesOf (ns ++ ms) = rolesOf ns ++ rolesOf ms := by
  simp [rolesOf_eq_flatMap]

theorem roles_of_isLeaf {n : Node} (h : n.isLeaf = true) : n.roles = [] := by
  cases n <;> first | rfl | cases h

theorem kind_ne_of_isLeaf {n : Node} (h : n.isLeaf = true) :
    n.kind ≠ .call ∧ n.kind ≠ .group := by
  cases n with
  | call | group => cases h
  | _ => simp [kind]

theorem rolesOf_foldMarkers {limit : Nat} {entries out : List Entry}
    (h : foldMarkers limit entries = .ok out) :
    rolesOf (out.map Entry.node) = rolesOf (entries.map Entry.node) := by
  rw [rolesOf_eq_flatMap, rolesOf_eq_flatMap]
  exact Expression.flatMap_foldMarkers (fun op left right => by simp [roles]) h

def ownRoles : Node → List Role
  | .call _ _ => [.call]
  | .group _ => [.group]
  | .block _ => [.block]
  | .function (some _) _ _ => [.call, .named]
  | .function none _ _ => [.group, .anonymous]
  | .set _ => [.set]
  | .index _ _ => [.index]
  | _ => []

def isNamed : Node → Bool
  | .function (some _) _ _ => true
  | _ => false

def isAnonymous : Node → Bool
  | .function none _ _ => true
  | _ => false

theorem map_snd_outline (n : Node) (level : Nat) : (n.outline level).map Prod.snd = n.subtrees := by
  induction n using children_induction generalizing level with
  | step n ih =>
    have hparts : ∀ k, (outlines k n.children).map Prod.snd = n.children.flatMap subtrees := by
      intro k
      rw [outlines_eq_flatMap, List.map_flatMap]
      exact List.flatMap_congr fun c hc => ih c hc k
    rw [subtrees, n.outline_eq, n.outline_eq, List.map_cons, List.map_cons, hparts, hparts]

theorem subtrees_eq (n : Node) : n.subtrees = n :: n.children.flatMap subtrees := by
  rw [subtrees, n.outline_eq, List.map_cons, outlines_eq_flatMap, List.map_flatMap]
  exact congrArg _ (List.flatMap_congr fun c _ => c.map_snd_outline _)

theorem count_roles_eq_add (r : Role) (n : Node) :
    n.roles.count r = n.ownRoles.count r + (n.children.flatMap roles).count r := by
  have hlist := rolesOf_eq_flatMap
  cases n with
  | function name parameters body =>
    cases name <;> simp [roles, ownRoles, children, hlist, List.count_cons] <;> omega
  | _ => simp [roles, ownRoles, children, hlist, List.count_cons] <;> omega

theorem count_roles (r : Role) (n : Node) :
    n.roles.count r = (n.subtrees.flatMap ownRoles).count r := by
  induction n using children_induction with
  | step n ih =>
    have hparts : (n.children.flatMap roles).count r =
        ((n.children.flatMap subtrees).flatMap ownRoles).count r := by
      rw [List.flatMap_assoc, List.count_flatMap, List.count_flatMap]
      exact congrArg List.sum (List.map_congr_left ih)
    rw [count_roles_eq_add, hparts, n.subtrees_eq, List.flatMap_cons, List.count_append]

def occurrences (p : Node → Bool) (nodes : List Node) : Nat := (nodes.flatMap subtrees).countP p

theorem occurrences_or {p q : Node → Bool} (h : ∀ n, p n = true → q n = false)
    (nodes : List Node) :
    occurrences (fun n => p n || q n) nodes = occurrences p nodes + occurrences q nodes := by
  unfold occurrences
  induction nodes.flatMap subtrees with
  | nil => rfl
  | cons n ns ih =>
    rw [List.countP_cons, List.countP_cons, List.countP_cons, ih]
    cases hp : p n with
    | false => simp [Nat.add_assoc]
    | true =>
      simp [h n hp]
      omega

def plays : Role → Node → Bool
  | .call, n => n.kind == .call || n.isNamed
  | .group, n => n.kind == .group || n.isAnonymous
  | .index, n => n.kind == .index
  | .set, n => n.kind == .set
  | .named, n => n.isNamed
  | .anonymous, n => n.isAnonymous
  | .block, n => n.kind == .block

theorem count_ownRoles (r : Role) (n : Node) :
    n.ownRoles.count r = if n.plays r then 1 else 0 := by
  cases n with
  | function name parameters body => cases name <;> cases r <;> rfl
  | _ => cases r <;> rfl

theorem count_rolesOf (r : Role) (nodes : List Node) :
    (rolesOf nodes).count r = occurrences (plays r) nodes := by
  have hown : ∀ ns : List Node, (ns.flatMap ownRoles).count r = ns.countP (plays r) := by
    intro ns
    induction ns with
    | nil => rfl
    | cons n ns ih =>
      rw [List.flatMap_cons, List.count_append, ih, count_ownRoles, List.countP_cons, Nat.add_comm]
  rw [occurrences, ← hown, List.flatMap_assoc, rolesOf_eq_flatMap, List.count_flatMap,
    List.count_flatMap]
  exact congrArg List.sum (List.map_congr_left fun n _ => n.count_roles r)

end Node

end TokenForest
