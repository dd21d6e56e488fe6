import TokenForest.Proofs.Grammar
import TokenForest.Proofs.Steps

set_option autoImplicit false

namespace TokenForest

/-- Whether the tokens end with a delimiter, so that the next one is marked. -/
def Token.delimited (before : List Token) : Bool :=
  before.getLast?.any fun t => t.kind == .delimiter

def Node.Nameable (n : Node) : Prop :=
  ∀ callee arguments, n = .call callee arguments → callee.kind = .identifier

structure Mirrors (before : List Token) (row : Row) : Prop where
  undotted : Undotted before
  empty : Token.solid before = [] ↔ row = []
  operand : OperandBefore before ↔ ∃ e ∈ row.head?, e.isOperand = true
  callable : Token.delimited before = false →
    (Callable before ↔ ∃ e ∈ row.head?, e.isOperand = true ∧ e.node.kind ≠ .statement)
  named : Callable before → (Named before ↔ ∃ e ∈ row.head?, e.node.kind = .identifier)
  nameable : Nameable before ↔ ∀ e ∈ row.head?, e.node.Nameable

section Delimited

variable {t : Token} {before : List Token}

theorem Token.delimited_concat (h : t.kind ≠ .delimiter) : delimited (before ++ [t]) = false := by
  simp [delimited, h]

theorem Token.delimited_concat_delimiter (h : t.kind = .delimiter) :
    delimited (before ++ [t]) = true := by
  simp [delimited, h]

theorem Callable.delimited_eq (h : Callable before) : Token.delimited before = false := by
  obtain ⟨t, ht, he, -⟩ := h
  have hk := Token.kind_ne_delimiter_of_endsOperand he
  simp [Token.delimited, Option.mem_def.1 ht, hk]

end Delimited

theorem Node.nameable_of_kind {n : Node} (h : n.kind ≠ .call) : n.Nameable := by
  rintro callee arguments rfl
  exact absurd rfl h

@[simp] theorem Node.nameable_call {callee : Node} {arguments : List Node} :
    (Node.call callee arguments).Nameable ↔ callee.kind = .identifier := by
  constructor
  · intro h
    exact h callee arguments rfl
  · rintro h _ _ ⟨⟩
    exact h

section Leaves

variable {t : Token}

theorem Token.Leaf.kind_ne (h : t.Leaf) :
    t.kind ≠ .semicolon ∧ t.kind ≠ .closing .parenthesis := by
  rcases h.kind with hk | hk | hk | hk <;> simp [hk]

theorem Token.Leaf.node_of_atom? {table : OperatorTable} {n : Node} (h : t.Leaf)
    (hn : t.atom? table = some n) :
    n.isOperand = true ∧ n.kind ≠ .statement ∧ n.kind ≠ .call ∧
      (t.kind = .word ↔ n.kind = .identifier) := by
  rcases h.kind with hk | hk | hk | hk <;> simp only [Token.atom?, hk] at hn
  · cases hn
    exact ⟨rfl, by simp [Node.kind, hk]⟩
  · obtain ⟨value, -, rfl⟩ := Option.map_eq_some_iff.1 hn
    exact ⟨rfl, by simp [Node.kind, hk]⟩
  · cases hn
    exact ⟨rfl, by simp [Node.kind, hk]⟩
  · cases hn
    exact ⟨rfl, by simp [Node.kind, hk]⟩

end Leaves

namespace Mirrors

variable {t opener closer token : Token} {before front dots inside : List Token} {row below : Row}
  {e left right : Entry} {b : Bracket} {content : List Entry}

theorem start : Mirrors [] [] where
  undotted := undotted_nil
  empty := by simp [Token.solid]
  operand := by simp [OperandBefore, Token.solid]
  callable := by simp [Callable]
  named h := by simp [Callable] at h
  nameable := by simp [nameable_nil]

theorem delimiter (h : Mirrors before row) (hk : t.kind = .delimiter) :
    Mirrors (before ++ [t]) row where
  undotted := undotted_concat.2 (by simp [hk])
  empty := by rw [Token.solid_concat_delimiter hk, h.empty]
  operand := by rw [operandBefore_concat_delimiter hk, h.operand]
  callable hd := by simp [Token.delimited_concat_delimiter hk] at hd
  named hc := by
    have hd := hc.delimited_eq
    rw [Token.delimited_concat_delimiter hk] at hd
    cases hd
  nameable := by rw [nameable_concat_delimiter hk, h.nameable]

theorem marker (hk : t.kind = .operator) (he : e.isOperand = false) :
    Mirrors (before ++ [t]) (e :: row) where
  undotted := undotted_concat.2 (by simp [hk])
  empty := by simp [Token.solid_concat, hk]
  operand := by simp [operandBefore_concat, hk, he, Token.endsOperand]
  callable _ := by simp [callable_concat, hk, he, Token.endsOperand]
  named hc := by simp [callable_concat, hk, Token.endsOperand] at hc
  nameable := by
    obtain ⟨op, hop⟩ := Node.isMarker_iff.1 (by simpa [Entry.isOperand, Node.isOperand] using he)
    have hn : e.node.Nameable := Node.nameable_of_kind (by simp [hop, Node.kind])
    simp [nameable_concat, hk, hn]

theorem push (ht : t.endsOperand = true) (ho : e.isOperand = true)
    (hs : t.kind = .semicolon ↔ e.node.kind = .statement)
    (hn : Named (front ++ [t]) ↔ e.node.kind = .identifier)
    (hb : Nameable (front ++ [t]) ↔ e.node.Nameable) : Mirrors (front ++ [t]) (e :: below) where
  undotted := undotted_concat.2 fun hk => by simp [Token.endsOperand, hk] at ht
  empty := by simp [Token.solid_concat (Token.kind_ne_delimiter_of_endsOperand ht)]
  operand := by simp [operandBefore_concat (Token.kind_ne_delimiter_of_endsOperand ht), ht, ho]
  callable _ := by simp [callable_concat, ht, ho, hs]
  named _ := by simp [hn]
  nameable := by simp [hb]

theorem push_of_nameable (ht : t.endsOperand = true) (ho : e.isOperand = true)
    (hs : t.kind = .semicolon ↔ e.node.kind = .statement)
    (hn : Named (front ++ [t]) ↔ e.node.kind = .identifier) (hb : Nameable (front ++ [t]))
    (hc : e.node.kind ≠ .call) : Mirrors (front ++ [t]) (e :: below) :=
  push ht ho hs hn (iff_of_true hb (Node.nameable_of_kind hc))

theorem semicolon (hk : t.kind = .semicolon) (ns : List Node) (depth : Nat) :
    Mirrors (before ++ [t]) (⟨.statement ns, depth⟩ :: below) := by
  refine push_of_nameable (by simp [Token.endsOperand, hk]) rfl (by simp [hk, Node.kind]) ?_ ?_
    (by simp [Node.kind])
  · simp [named_concat, hk, Node.kind]
  · exact nameable_concat (by simp [hk]) (by simp [hk])

theorem atom {table : OperatorTable} {n : Node} (hu : Undotted before) (hl : t.Leaf)
    (hn : t.atom? table = some n) : Mirrors (before ++ [t]) (⟨n, 0⟩ :: below) := by
  obtain ⟨ho, hs, hc, hw⟩ := hl.node_of_atom? hn
  refine push_of_nameable hl.endsOperand ho (iff_of_false hl.kind_ne.1 hs) ?_ ?_ hc
  · rw [named_concat, ← hw]
    exact and_iff_left hu
  · exact nameable_concat (Token.kind_ne_delimiter_of_endsOperand hl.endsOperand) hl.kind_ne.2

theorem dotted (isRange : Bool) (ht : t.endsOperand = true) (hs : t.kind ≠ .semicolon)
    (hn : ¬ Named (front ++ [t])) (hb : Nameable (front ++ [t])) :
    Mirrors (front ++ [t]) (Scan.dotted isRange left right :: below) := by
  cases isRange with
  | false | true =>
    exact push_of_nameable ht rfl (iff_of_false hs (by simp [Scan.dotted, Node.kind]))
      (iff_of_false hn (by simp [Scan.dotted, Node.kind])) hb (by simp [Scan.dotted, Node.kind])

theorem closed (hc : closer.kind = .closing b) (ho : e.isOperand = true)
    (hs : e.node.kind ≠ .statement) (hi : e.node.kind ≠ .identifier)
    (hb : Nameable (front ++ [closer]) ↔ e.node.Nameable) :
    Mirrors (front ++ [closer]) (e :: below) := by
  refine push (Token.endsOperand_closing hc) ho (by simp [hc, hs]) ?_ hb
  simp [named_concat, hc, hi]

/-- A parenthesis becomes a call right after what can be called, and else a group. -/
theorem callable_iff_call (h : Mirrors before row) (hg : token.grouping = Token.delimited before)
    (ha : Bracket.Attaches token content .parenthesis row e below) :
    Callable before ↔ e.node.kind = .call := by
  cases ha with
  | @call f below hf hfo hfk =>
    exact iff_of_true ((h.callable (hg.symm.trans hf)).2 ⟨f, rfl, hfo, hfk⟩) rfl
  | group hf =>
    refine iff_of_false (fun hcall => ?_) (by simp [Node.kind])
    have hd := hcall.delimited_eq
    obtain ⟨f, hfrow, hfo, hfk⟩ := (h.callable hd).1 hcall
    exact absurd (hf (hg.trans hd) f hfrow hfo) hfk

theorem attach (h : Mirrors before row) (ho : opener.kind = .opening b)
    (hc : closer.kind = .closing b) (hi : Balanced inside)
    (hg : b = .parenthesis → token.grouping = Token.delimited before)
    (ha : b.Attaches token content row e below) :
    Mirrors (before ++ opener :: (inside ++ [closer])) (e :: below) := by
  have hcallable : b = .parenthesis → (Callable before ↔ e.node.kind = .call) := by
    rintro rfl
    exact h.callable_iff_call (hg rfl) ha
  rw [concat_closer]
  have hfree : b ≠ .parenthesis → Nameable ((before ++ opener :: inside) ++ [closer]) := fun hp =>
    nameable_concat (by simp [hc]) (by simpa [hc] using hp)
  cases ha with
  | call =>
    have hcall : Callable before := (hcallable rfl).2 rfl
    refine closed hc rfl (by simp [Node.kind]) (by simp [Node.kind]) ?_
    rw [← concat_closer, nameable_group ho hc hi, Node.nameable_call, imp_iff_right hcall,
      h.named hcall]
    simp
  | group =>
    refine closed hc rfl (by simp [Node.kind]) (by simp [Node.kind]) ?_
    rw [← concat_closer, nameable_group ho hc hi]
    refine iff_of_true (fun hcall => ?_) (Node.nameable_of_kind (by simp [Node.kind]))
    cases (hcallable rfl).1 hcall
  | index | set | named | anonymous | block =>
    exact closed hc rfl (by simp [Node.kind]) (by simp [Node.kind])
      (iff_of_true (hfree (by simp)) (Node.nameable_of_kind (by simp [Node.kind])))

theorem ended_iff (h : Mirrors before row) :
    Ended before ↔ ∀ e ∈ row.head?, e.isOperand = true := by
  cases hlast : (Token.solid before).getLast? with
  | none =>
    have hrow : row = [] := h.empty.1 (List.getLast?_eq_none_iff.1 hlast)
    simp [Ended, hlast, hrow]
  | some t =>
    cases row with
    | nil => simp [h.empty.2 rfl] at hlast
    | cons e below => simpa [Ended, OperandBefore, hlast] using h.operand

end Mirrors

theorem Bracket.Attaches.nameable {token : Token} {content : List Entry} {row below : Row}
    {e : Entry} (h : Attaches token content .brace row e below) :
    ∀ f ∈ row.head?, f.node.Nameable := by
  cases h with
  | named =>
    rintro f ⟨⟩
    exact Node.nameable_call.2 rfl
  | anonymous =>
    rintro f ⟨⟩
    exact Node.nameable_of_kind (by simp [Node.kind])
  | block hk => exact fun f hf => Node.nameable_of_kind (hk f hf).1

theorem Bracket.exists_attach {b : Bracket} {row : Row} (token : Token) (content : List Entry)
    (h : b = .brace → ∀ f ∈ row.head?, f.node.Nameable) :
    ∃ e below, b.attach token content row = (.ok e, below) := by
  cases b with
  | parenthesis | square => exact ⟨_, _, rfl⟩
  | brace =>
    simp only [attach, attachBrace]
    split
    · exact ⟨_, _, rfl⟩
    · rename_i callee parameters depth below hne
      have hname : callee.kind = .identifier := Node.nameable_call.1 (h rfl _ rfl)
      cases callee with
      | identifier name => exact absurd rfl (hne name)
      | _ => cases hname
    · exact ⟨_, _, rfl⟩
    · exact ⟨_, _, rfl⟩

end TokenForest
