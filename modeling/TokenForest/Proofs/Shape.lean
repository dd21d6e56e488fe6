import TokenForest.Node.Tokens
import TokenForest.Proofs.Placement
import TokenForest.Proofs.Steps

/-!
The shape of what is read: which trees come out of reading at all, and which may stand side by
side. Writing such trees again loses nothing, because every choice that the reader makes by
looking at what stands before is settled by the shape.
-/

set_option autoImplicit false

namespace TokenForest

/-- Whether a later construct may take the node over. A choice comes last on its level. -/
def NodeKind.isUnit : NodeKind → Bool
  | .operator | .ternary => false
  | _ => true

theorem NodeKind.isUnit_iff {k : NodeKind} :
    k.isUnit = true ↔ k ≠ .operator ∧ k ≠ .ternary := by
  cases k <;> simp [isUnit]

/-- The forms of a node that is read as one construct on an empty row. -/
def NodeKind.isPrimary : NodeKind → Bool
  | .identifier | .number | .string | .comment | .group | .block | .set => true
  | _ => false

theorem NodeKind.isUnit_of_isPrimary {k : NodeKind} (h : k.isPrimary = true) :
    k.isUnit = true := by
  cases k with
  | operator | ternary => cases h
  | _ => rfl

def Operator.Known (table : OperatorTable) (op : Operator) : Prop :=
  table.get? op.symbol = some ⟨op.name, op.precedence⟩

namespace Node

def lead (n : Node) : Option TokenKind := n.tokens.head?.map Token.kind

def rightmost : Node → Node
  | .binary _ _ right => right.rightmost
  | n => n

/-- The operator tree of a node, down to the parts that are no operators. -/
def expression : Node → Expression
  | .binary op left right => .join op left.expression right.expression
  | n => .leaf (Entry.ofNode n)

/-- What begins with such a token may stand right after the node, a delimiter between them: it
takes nothing over. -/
def Admits (n : Node) (next : Option TokenKind) : Prop :=
  n.kind ≠ .ternary ∧ (n.isOperand = true → next ≠ some (.opening .square)) ∧
    (next = some (.opening .brace) → n.kind ≠ .call ∧ n.kind ≠ .group)

def Parted (ns : List Node) : Prop := ns.IsChain fun n m => n.rightmost.Admits m.lead

/-- The trees that reading yields. -/
inductive Readable (table : OperatorTable) : Node → Prop where
  | identifier (name : String) : Readable table (.identifier name)
  | number (value : Binary64) : Readable table (.number value)
  | string (value : String) : Readable table (.string value)
  | comment (text : String) : Readable table (.comment text)
  | call {callee : Node} {arguments : List Node} : Readable table callee →
      callee.kind.isUnit = true → callee.kind ≠ .statement →
      (∀ n ∈ arguments, Readable table n) → Parted arguments →
      Readable table (.call callee arguments)
  | group {content : List Node} : (∀ n ∈ content, Readable table n) → Parted content →
      Readable table (.group content)
  | block {content : List Node} : (∀ n ∈ content, Readable table n) → Parted content →
      Readable table (.block content)
  | function {name : Option String} {parameters body : List Node} :
      (∀ n ∈ parameters, Readable table n) → Parted parameters →
      (∀ n ∈ body, Readable table n) → Parted body →
      Readable table (.function name parameters body)
  | set {content : List Node} : (∀ n ∈ content, Readable table n) → Parted content →
      Readable table (.set content)
  | index {target : Node} {content : List Node} : Readable table target →
      target.kind.isUnit = true → (∀ n ∈ content, Readable table n) → Parted content →
      Readable table (.index target content)
  | member {target name : Node} : Readable table target → target.kind.isUnit = true →
      Readable table name → name.kind.isPrimary = true → Readable table (.member target name)
  | range {start stop : Node} : Readable table start → start.kind.isUnit = true →
      Readable table stop → stop.kind.isPrimary = true → Readable table (.range start stop)
  | statement {n : Node} : Readable table n → n.kind.isUnit = true →
      Readable table (.statement [n])
  | ternary {condition left right : Node} {op : Operator} : Readable table condition →
      condition.kind.isUnit = true → op.symbol = ":" → Readable table (.binary op left right) →
      Readable table (.ternary condition left right)
  | binary {op : Operator} {left right : Node} : Readable table left →
      left.rightmost.kind ≠ .ternary → Readable table right → op.Known table →
      (Node.binary op left right).expression.Ordered → Readable table (.binary op left right)

theorem lead_append (n : Node) (ts : List Token) :
    (n.tokens ++ ts).head?.map Token.kind = n.lead := by
  rw [lead, List.head?_append_of_ne_nil _ n.tokens_ne_nil]

@[simp] theorem lead_call (callee : Node) (arguments : List Node) :
    (call callee arguments).lead = callee.lead := by
  rw [lead, tokens, lead_append]

@[simp] theorem lead_index (target : Node) (content : List Node) :
    (index target content).lead = target.lead := by
  rw [lead, tokens, lead_append]

@[simp] theorem lead_member (target name : Node) : (member target name).lead = target.lead := by
  rw [lead, tokens, lead_append]

@[simp] theorem lead_range (start stop : Node) : (range start stop).lead = start.lead := by
  rw [lead, tokens, lead_append]

@[simp] theorem lead_statement (n : Node) : (statement [n]).lead = n.lead := by
  rw [lead, tokens, listed, lead_append]

@[simp] theorem lead_ternary (condition left right : Node) :
    (ternary condition left right).lead = condition.lead := by
  rw [lead, tokens, List.append_assoc, lead_append]

@[simp] theorem lead_binary (op : Operator) (left right : Node) :
    (binary op left right).lead = left.lead := by
  rw [lead, tokens, lead_append]

theorem lead_enclose (b : Bracket) (inside ts : List Token) :
    (b.enclose inside ++ ts).head?.map Token.kind = some (.opening b) := rfl

@[simp] theorem lead_group (content : List Node) :
    (group content).lead = some (.opening .parenthesis) := rfl

@[simp] theorem lead_block (content : List Node) :
    (block content).lead = some (.opening .brace) := rfl

@[simp] theorem lead_set (content : List Node) :
    (set content).lead = some (.opening .square) := rfl

@[simp] theorem lead_function_none (parameters body : List Node) :
    (function none parameters body).lead = some (.opening .parenthesis) := by
  rw [lead, tokens, lead_enclose]

theorem admits_of_lead {n : Node} {next : Option TokenKind} (hk : n.kind ≠ .ternary)
    (hs : next ≠ some (.opening .square)) (hb : next ≠ some (.opening .brace)) :
    n.Admits next := ⟨hk, fun _ => hs, fun h => absurd h hb⟩

theorem Readable.isOperand {table : OperatorTable} {n : Node} (h : n.Readable table) :
    n.isOperand = true := by
  cases h <;> rfl

theorem expression_of_kind {n : Node} (h : n.kind ≠ .operator) :
    n.expression = .leaf (Entry.ofNode n) := by
  cases n <;> first | rfl | exact absurd rfl h

/-- The operator tree of a node builds the node again, and is as deep. -/
theorem expression_entry (n : Node) : n.expression.entry = Entry.ofNode n := by
  cases n with
  | binary op left right =>
    have hl := left.expression_entry
    have hr := right.expression_entry
    simp only [Expression.entry, Entry.ofNode, Entry.mk.injEq] at hl hr ⊢
    simp [expression, Expression.node, Expression.depth, depth, hl, hr]
  | _ => rfl

theorem normal_ofNode {n : Node} (h : n.isOperand = true) :
    (Entry.ofNode n).normal = Entry.ofNode n := if_pos h

variable {table : OperatorTable} {n : Node}

theorem Readable.ordered (h : n.Readable table) : n.expression.Ordered := by
  cases h with
  | binary _ _ _ _ ho => exact ho
  | _ => rfl

theorem flatten_of_kind (h : n.isOperand = true) (hk : n.kind ≠ .operator) :
    n.expression.flatten = [Entry.ofNode n] := by
  rw [expression_of_kind hk, Expression.flatten, normal_ofNode h]

theorem Readable.getLast_flatten (h : n.Readable table) :
    n.expression.flatten.getLast? = some (Entry.ofNode n.rightmost) := by
  induction h with
  | @binary op left right hl hne hr hk ho ihl ihr =>
    rw [expression, Expression.flatten, List.getLast?_append, List.getLast?_cons, ihr]
    rfl
  | _ => rfl

theorem Readable.head_flatten (h : n.Readable table) :
    ∃ e, n.expression.flatten.head? = some e ∧ e.node.lead = n.lead := by
  induction h with
  | @binary op left right hl hne hr hk ho ihl ihr =>
    obtain ⟨e, he, hlead⟩ := ihl
    refine ⟨e, ?_, by rw [hlead, lead_binary]⟩
    rw [expression, Expression.flatten,
      List.head?_append_of_ne_nil _ left.expression.flatten_ne_nil, he]
  | _ => exact ⟨_, rfl, rfl⟩

end Node

/-- An entry that reading puts on a row: it knows its depth, and it is a marker of the table or a
tree that is no operator. -/
structure Entry.Legible (settings : Settings) (e : Entry) : Prop where
  measured : e.depth = e.node.depth
  bounded : e.depth ≤ settings.maxDepth
  shaped : (∃ op, e.node = .marker op ∧ op.Known settings.operators) ∨
    (e.node.Readable settings.operators ∧ e.node.kind ≠ .operator)

def Entry.Beside (older newer : Entry) : Prop := older.node.Admits newer.node.lead

structure Row.Legible (settings : Settings) (row : Row) : Prop where
  each : ∀ e ∈ row, e.Legible settings
  beside : row.IsChain fun newer older => older.Beside newer

def Row.Open (row : Row) : Prop := ∀ e ∈ row.head?, e.node.kind ≠ .ternary

structure Entry.Settled (settings : Settings) (content : List Entry) : Prop where
  measured : ∀ e ∈ content, e.depth = e.node.depth
  bounded : ∀ e ∈ content, e.depth ≤ settings.maxDepth
  readable : ∀ n ∈ content.map Entry.node, n.Readable settings.operators
  parted : Node.Parted (content.map Entry.node)

theorem Entry.deepest_eq {content : List Entry} (h : ∀ e ∈ content, e.depth = e.node.depth) :
    deepest content = Node.deepest (content.map Entry.node) := by
  induction content with
  | nil => rfl
  | cons e es ih =>
    have he := h e List.mem_cons_self
    have hes := ih fun x hx => h x (List.mem_cons_of_mem _ hx)
    rw [List.map_cons, Node.deepest, ← he, ← hes]
    rfl

section Folding

variable {settings : Settings} {x : Expression}

theorem Expression.readable (ho : x.Ordered) (he : ∀ e ∈ x.flatten, e.Legible settings)
    (hb : x.flatten.IsChain Entry.Beside) :
    x.node.Readable settings.operators ∧ x.depth = x.node.depth ∧ x.node.expression = x := by
  induction x with
  | leaf e =>
    have hn : e.normal = e := Entry.normal_of_isOperand ho
    have hl : e.Legible settings := he e (by simp [flatten, hn])
    rcases hl.shaped with ⟨op, hm, -⟩ | ⟨hr, hk⟩
    · have hf : e.isOperand = false := Entry.not_isOperand_of_marker hm
      simp [Ordered, hf] at ho
    · refine ⟨hr, hl.measured, ?_⟩
      have heq : Entry.ofNode e.node = e := by rw [Entry.ofNode, ← hl.measured]
      rw [Node.expression_of_kind (n := (leaf e).node) hk, node, heq]
  | join op left right ihl ihr =>
    obtain ⟨hol, hor, hle, hlt⟩ := id ho
    simp only [flatten] at he hb
    obtain ⟨hbl, hbm, hlm⟩ := List.isChain_append.1 hb
    obtain ⟨hrl, hdl, hxl⟩ := ihl hol (fun e h => he e (by simp [h])) hbl
    obtain ⟨hrr, hdr, hxr⟩ := ihr hor (fun e h => he e (by simp [h])) hbm.tail
    have hm : (⟨.marker op, 0⟩ : Entry).Legible settings := he _ (by simp)
    have hk : op.Known settings.operators := by
      rcases hm.shaped with ⟨op', ⟨⟩, hk⟩ | ⟨-, hk⟩
      · exact hk
      · exact absurd rfl hk
    have hx : (join op left right).node.expression = join op left right := by
      rw [node, Node.expression, hxl, hxr]
    have hlast := hrl.getLast_flatten
    rw [hxl] at hlast
    have hne : left.node.rightmost.kind ≠ .ternary := (hlm _ hlast ⟨.marker op, 0⟩ rfl).1
    refine ⟨.binary hrl hne hrr hk (hx ▸ ho), ?_, hx⟩
    simp [depth, Node.depth, node, hdl, hdr]

theorem Expression.readable_forest {forest : List Expression} (ho : ∀ x ∈ forest, x.Ordered)
    (he : ∀ e ∈ forest.flatMap flatten, e.Legible settings)
    (hb : (forest.flatMap flatten).IsChain Entry.Beside) :
    (∀ x ∈ forest, x.node.Readable settings.operators ∧ x.depth = x.node.depth) ∧
      Node.Parted (forest.map node) := by
  induction forest with
  | nil => exact ⟨by simp, List.isChain_nil⟩
  | cons x xs ih =>
    rw [List.flatMap_cons] at he hb
    obtain ⟨hbx, hbxs, hlast⟩ := List.isChain_append.1 hb
    have hx := readable (ho x List.mem_cons_self) (fun e h => he e (by simp [h])) hbx
    obtain ⟨hxs, hp⟩ := ih (fun y hy => ho y (List.mem_cons_of_mem _ hy))
      (fun e h => he e (List.mem_append_right _ h)) hbxs
    constructor
    · intro y hy
      cases List.mem_cons.1 hy with
      | inl h =>
        subst h
        exact ⟨hx.1, hx.2.1⟩
      | inr h => exact hxs y h
    · refine List.isChain_cons.2 ⟨?_, hp⟩
      intro m hm
      cases xs with
      | nil => cases hm
      | cons y ys =>
        obtain rfl : y.node = m := by simpa using hm
        have hy := readable (ho y (by simp)) (fun e h => he e (by simp [h]))
          (List.isChain_append.1 hbxs).1
        have hl := hx.1.getLast_flatten
        obtain ⟨e, hh, hlead⟩ := hy.1.head_flatten
        rw [hx.2.2] at hl
        rw [hy.2.2] at hh
        rw [← hlead]
        refine hlast _ hl e ?_
        rw [List.flatMap_cons, List.head?_append_of_ne_nil _ y.flatten_ne_nil, hh]
        rfl

theorem Entry.Legible.normal_eq {e : Entry} (h : e.Legible settings) : e.normal = e := by
  unfold Entry.normal
  split
  · rfl
  · rcases h.shaped with ⟨op, hm, -⟩ | ⟨hr, -⟩
    · have hd := h.measured
      rw [hm] at hd
      obtain ⟨n, d⟩ := e
      exact congrArg (Entry.mk n) hd.symm
    · exact absurd hr.isOperand ‹_›

theorem Row.Legible.map_normal {row : Row} (h : row.Legible settings) :
    row.reverse.map Entry.normal = row.reverse := by
  refine (List.map_congr_left (g := id) fun e he => ?_).trans (List.map_id _)
  exact (h.each e (List.mem_reverse.1 he)).normal_eq

/-- A legible row folds to operator trees that read as it stands. -/
theorem Row.Legible.exists_forest {row : Row} {content : List Entry} {limit : Nat}
    (h : row.Legible settings) (hf : foldMarkers limit row.reverse = .ok content) :
    ∃ forest : List Expression, (∀ x ∈ forest, x.Ordered) ∧
      forest.flatMap Expression.flatten = row.reverse ∧ content = forest.map Expression.entry ∧
      ∀ x ∈ forest, x.depth ≤ limit ∨ x.depth ≤ settings.maxDepth := by
  obtain ⟨forest, hforest, rfl, hd⟩ := Expression.exists_forest hf
  refine ⟨forest, hforest.ordered, by rw [hforest.reads, h.map_normal], rfl, fun x hx => ?_⟩
  cases hd x hx with
  | inl hmem => exact .inr (h.each _ (List.mem_reverse.1 hmem)).bounded
  | inr hle => exact .inl hle

theorem Row.Legible.settled {row : Row} {content : List Entry} (h : row.Legible settings)
    (hf : foldMarkers settings.maxDepth row.reverse = .ok content) :
    Entry.Settled settings content := by
  obtain ⟨forest, ho, hflat, rfl, hd⟩ := h.exists_forest hf
  obtain ⟨hr, hp⟩ := Expression.readable_forest ho
    (by rw [hflat]; exact fun e he => h.each e (List.mem_reverse.1 he))
    (by rw [hflat]; exact List.isChain_reverse.2 h.beside)
  have hn : (forest.map Expression.entry).map Entry.node = forest.map Expression.node := by
    rw [List.map_map]
    rfl
  refine ⟨fun e he => ?_, fun e he => ?_, fun n hm => ?_, by rwa [hn]⟩
  · obtain ⟨x, hx, rfl⟩ := List.mem_map.1 he
    exact (hr x hx).2
  · obtain ⟨x, hx, rfl⟩ := List.mem_map.1 he
    exact (hd x hx).elim id id
  · rw [hn] at hm
    obtain ⟨x, hx, rfl⟩ := List.mem_map.1 hm
    exact (hr x hx).1

end Folding

section Growing

variable {settings : Settings} {row below : Row} {e f : Entry}

theorem Row.Legible.push (h : row.Legible settings) (he : e.Legible settings)
    (hb : ∀ f ∈ row.head?, f.Beside e) : Row.Legible settings (e :: row) where
  each := by
    intro x hx
    rcases List.mem_cons.1 hx with rfl | hx
    · exact he
    · exact h.each x hx
  beside := List.isChain_cons.2 ⟨hb, h.beside⟩

theorem Row.Legible.replace (h : Row.Legible settings (f :: below)) (he : e.Legible settings)
    (hl : e.node.lead = f.node.lead) : Row.Legible settings (e :: below) := by
  obtain ⟨hb, hc⟩ := List.isChain_cons.1 h.beside
  have hbelow : Row.Legible settings below := ⟨fun x hx => h.each x (by simp [hx]), hc⟩
  refine hbelow.push he fun g hg => ?_
  rw [Entry.Beside, hl]
  exact hb g hg

theorem Row.Legible.unit (h : Row.Legible settings (f :: below)) (hopen : Row.Open (f :: below))
    (ho : f.isOperand = true) :
    f.node.Readable settings.operators ∧ f.node.kind.isUnit = true := by
  have hk : f.node.kind ≠ .ternary := hopen f rfl
  rcases (h.each f List.mem_cons_self).shaped with ⟨op, hm, -⟩ | ⟨hr, hop⟩
  · rw [Entry.not_isOperand_of_marker hm] at ho
    cases ho
  · exact ⟨hr, NodeKind.isUnit_iff.2 ⟨hop, hk⟩⟩

end Growing

end TokenForest
