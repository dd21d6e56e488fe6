import TokenForest.Fold.Nodes
import TokenForest.Node.Outline
import TokenForest.Proofs.Image
import TokenForest.Proofs.Reading

/-!
The form of what is read, told node by node: which trees may be the parts of which, how operators
lie under one another, and where a choice may stand. No rule of it is ever checked; all follow from
the order in which tokens are read and markers folded. A list of such trees has nothing left to
fold.
-/

set_option autoImplicit false

namespace TokenForest

namespace Node

def lists : Node → List (List Node)
  | .call _ arguments => [arguments]
  | .group content | .block content | .set content | .statement content => [content]
  | .function _ parameters body => [parameters, body]
  | .index _ content => [content]
  | _ => []

def Binds (p : Int → Prop) : Node → Prop
  | .binary op _ _ => p op.precedence
  | _ => True

/-- The parts of a node are of the right kinds, and operators bind no looser than what they lie
under; to the right of an operator they bind tighter. No operator lacks an operand. -/
def Formed (table : OperatorTable) : Node → Prop
  | .identifier _ | .number _ | .string _ | .comment _ => True
  | .group _ | .block _ | .set _ | .function _ _ _ => True
  | .call callee _ => callee.kind.isUnit = true ∧ callee.kind ≠ .statement
  | .index target _ => target.kind.isUnit = true
  | .member target name => target.kind.isUnit = true ∧ name.kind.isPrimary = true
  | .range start stop => start.kind.isUnit = true ∧ stop.kind.isPrimary = true
  | .statement content => ∃ n, content = [n] ∧ n.kind.isUnit = true
  | .ternary condition left right => condition.kind.isUnit = true ∧ left.kind ≠ .ternary ∧
    ∃ colon, table.get? ":" = some colon ∧ left.Binds (colon.precedence ≤ ·) ∧
      right.Binds (colon.precedence < ·)
  | .marker _ | .dangling _ _ _ => False
  | .binary op left right => table.get? op.symbol = some ⟨op.name, op.precedence⟩ ∧
    left.kind ≠ .ternary ∧ left.Binds (op.precedence ≤ ·) ∧ right.Binds (op.precedence < ·)

def ChoiceLast (ns : List Node) : Prop := ∀ n ∈ ns.dropLast, n.kind ≠ .ternary

variable {table : OperatorTable} {n : Node} {ns : List Node}

theorem Readable.forall_children (h : n.Readable table) : ∀ c ∈ n.children, c.Readable table := by
  cases h with
  | identifier | number | string | comment => simp [children]
  | call hc _ _ hs => exact List.forall_mem_cons.2 ⟨hc, hs⟩
  | group hs | block hs | set hs => exact hs
  | function hp _ hb _ =>
    intro c hc
    cases List.mem_append.1 hc with
    | inl hc => exact hp c hc
    | inr hc => exact hb c hc
  | index ht _ hs => exact List.forall_mem_cons.2 ⟨ht, hs⟩
  | member ht _ hn => simpa [children] using ⟨ht, hn⟩
  | range hs _ ht => simpa [children] using ⟨hs, ht⟩
  | statement hn => simpa [children] using hn
  | ternary hc _ _ hb =>
    cases hb with
    | binary hl _ hr => simpa [children] using ⟨hc, hl, hr⟩
  | binary hl _ hr => simpa [children] using ⟨hl, hr⟩

theorem Readable.of_mem_lists (h : n.Readable table) (hs : ns ∈ n.lists) :
    (∀ m ∈ ns, m.Readable table) ∧ Parted ns := by
  cases h with
  | call _ _ _ hr hp | index _ _ hr hp | group hr hp | block hr hp | set hr hp =>
    obtain rfl := List.mem_singleton.1 hs
    exact ⟨hr, hp⟩
  | function hr hp hr' hp' =>
    simp only [lists, List.mem_cons, List.not_mem_nil, or_false] at hs
    rcases hs with rfl | rfl
    · exact ⟨hr, hp⟩
    · exact ⟨hr', hp'⟩
  | statement hn =>
    obtain rfl := List.mem_singleton.1 hs
    exact ⟨by simpa using hn, List.isChain_singleton _⟩
  | identifier | number | string | comment | member | range | ternary | binary => cases hs

theorem kind_ne_ternary_of_rightmost (h : n.rightmost.kind ≠ .ternary) : n.kind ≠ .ternary := by
  cases n with
  | ternary => exact h
  | _ => simp [kind]

theorem binds_of_operators {p : Int → Prop}
    (h : ∀ o ∈ n.expression.operators, p o.precedence) : n.Binds p := by
  cases n with
  | binary op left right => exact h op (by simp [expression, Expression.operators])
  | _ => trivial

theorem Readable.binds {op : Operator} {left right : Node}
    (h : (Node.binary op left right).Readable table) :
    table.get? op.symbol = some ⟨op.name, op.precedence⟩ ∧ left.kind ≠ .ternary ∧
      left.Binds (op.precedence ≤ ·) ∧ right.Binds (op.precedence < ·) := by
  cases h with
  | binary _ hne _ hk ho =>
    exact ⟨hk, kind_ne_ternary_of_rightmost hne, binds_of_operators ho.2.2.1,
      binds_of_operators ho.2.2.2⟩

theorem Readable.formed (h : n.Readable table) : n.Formed table := by
  cases h with
  | identifier | number | string | comment | group | block | set | function => trivial
  | call _ hu hs => exact ⟨hu, hs⟩
  | index _ hu => exact hu
  | member _ hu _ hp | range _ hu _ hp => exact ⟨hu, hp⟩
  | statement _ hu => exact ⟨_, rfl, hu⟩
  | ternary _ hu hs hb =>
    obtain ⟨hk, hne, hl, hr⟩ := hb.binds
    exact ⟨hu, hne, _, hs ▸ hk, hl, hr⟩
  | binary hl hne hr hk ho => exact (Readable.binary hl hne hr hk ho).binds

theorem Parted.choiceLast (h : Parted ns) : ChoiceLast ns := by
  induction ns with
  | nil => simp [ChoiceLast]
  | cons n ns ih =>
    cases ns with
    | nil => simp [ChoiceLast]
    | cons m ms =>
      obtain ⟨hadmits, hms⟩ := List.isChain_cons_cons.1 h
      exact List.forall_mem_cons.2 ⟨kind_ne_ternary_of_rightmost hadmits.1, ih hms⟩

end Node

theorem Marker.scan_eq_nil {entries : List Entry} (h : ∀ e ∈ entries, e.isOperand = true)
    (start : Nat) : scan start entries = [] := by
  induction entries generalizing start with
  | nil => rfl
  | cons e es ih =>
    obtain ⟨he, hes⟩ := List.forall_mem_cons.1 h
    rw [scan, Entry.marker?_of_isOperand he]
    exact ih hes _

theorem foldMarkers_of_operands {limit : Nat} {entries : List Entry}
    (h : ∀ e ∈ entries, e.isOperand = true) : foldMarkers limit entries = .ok entries := by
  refine foldMarkers_eq_ok_iff.2 ⟨entries.zipIdx, ?_, (List.zipIdx_map_fst 0 entries).symm⟩
  rw [Marker.ordered, Marker.scan_eq_nil h]
  rfl

theorem foldNodes_of_operands {ns : List Node} (h : ∀ n ∈ ns, n.isOperand = true) :
    foldNodes ns = .ok ns := by
  rw [foldNodes, foldMarkers_of_operands]
  · rw [Except.map, Entry.map_node_ofNode]
  · intro e he
    obtain ⟨n, hn, rfl⟩ := List.mem_map.1 he
    exact h n hn

/-- Every node of every tree that is read is formed as it should be. In every node list, the
outermost one included, a choice can only be the last element, and folding gives the list back. -/
theorem formed_parseWith {settings : Settings} {tokens : List Token} {nodes : List Node}
    (h : parseWith settings tokens = .ok nodes) :
    (∀ n ∈ nodes, ∀ s ∈ n.subtrees, s.Formed settings.operators) ∧
      ∀ ns, (ns = nodes ∨ ∃ n ∈ nodes, ∃ s ∈ n.subtrees, ns ∈ s.lists) →
        Node.ChoiceLast ns ∧ foldNodes ns = .ok ns := by
  obtain ⟨hr, hp, -⟩ := readable_parseWith h
  have hsub : ∀ n ∈ nodes, ∀ s ∈ n.subtrees, s.Readable settings.operators := fun n hn =>
    Node.forall_mem_subtrees (fun _ hm => hm.forall_children) (hr n hn)
  refine ⟨fun n hn s hs => (hsub n hn s hs).formed, fun ns hns => ?_⟩
  obtain ⟨hns, hparted⟩ : (∀ m ∈ ns, m.Readable settings.operators) ∧ Node.Parted ns := by
    rcases hns with rfl | ⟨n, hn, s, hs, hl⟩
    · exact ⟨hr, hp⟩
    · exact (hsub n hn s hs).of_mem_lists hl
  exact ⟨hparted.choiceLast, foldNodes_of_operands fun m hm => (hns m hm).isOperand⟩

theorem formed_parseWith_choice :
    parseWith .standard choiceTokens = .ok choiceNodes ∧
      (∀ n ∈ choiceNodes, ∀ s ∈ n.subtrees, s.Formed .standard) ∧
        ∀ ns, (ns = choiceNodes ∨ ∃ n ∈ choiceNodes, ∃ s ∈ n.subtrees, ns ∈ s.lists) →
          Node.ChoiceLast ns ∧ foldNodes ns = .ok ns := by
  have h : parseWith .standard choiceTokens = .ok choiceNodes := rfl
  exact ⟨h, formed_parseWith h⟩

end TokenForest
