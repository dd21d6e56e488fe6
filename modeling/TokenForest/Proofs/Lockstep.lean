import TokenForest.Proofs.Failures
import TokenForest.Proofs.Likeness
import TokenForest.Proofs.Nesting

set_option autoImplicit false

namespace TokenForest

theorem Bracket.attachBrace_unnamed {token : Token} {body : List Entry} {callee : Node}
    {parameters : List Node} {depth : Nat} {below : Row} (h : ∀ name, callee ≠ .identifier name) :
    attachBrace token body (⟨.call callee parameters, depth⟩ :: below) =
      (.error token.unexpected, below) := by
  cases callee with
  | identifier name => exact absurd rfl (h name)
  | _ => rfl

namespace Likeness

structure Tokens (L : Likeness) (s t : Token) : Prop where
  kind : s.kind = t.kind
  grouping : s.grouping = t.grouping
  position : L.Positions s.position t.position
  text : L.labels.text s.text = L.labels.text t.text
  symbol : s.kind = .operator → s.text = t.text
  atom : Option.Rel (fun n m => L.Entries ⟨n, 0⟩ ⟨m, 0⟩) (s.atom? L.first) (t.atom? L.second)

inductive Steps (L : Likeness) : Step → Step → Prop where
  | ok {rest rest' : List Token} {row row' : Row} : List.Forall₂ L.Tokens rest rest' →
      List.Forall₂ L.Entries row row' → Steps L ⟨.ok (), rest, row⟩ ⟨.ok (), rest', row'⟩
  | error {f g : Fault} {rest rest' : List Token} {row row' : Row} : L.Faults f g →
      Steps L ⟨.error f, rest, row⟩ ⟨.error g, rest', row'⟩

inductive Readings (L : Likeness) : Reading (List Entry) → Reading (List Entry) → Prop where
  | ok {rest rest' : List Token} {content content' : List Entry} :
      List.Forall₂ L.Entries content content' → List.Forall₂ L.Tokens rest rest' →
      Readings L ⟨.ok content, rest⟩ ⟨.ok content', rest'⟩
  | error {f g : Fault} {rest rest' : List Token} : L.Faults f g →
      Readings L ⟨.error f, rest⟩ ⟨.error g, rest'⟩

def Scans (L : Likeness) (scan scan' : Scan) : Prop :=
  ∀ ⦃s t : Token⦄ ⦃stream stream' : List Token⦄ ⦃row row' : Row⦄, L.Tokens s t →
    List.Forall₂ L.Tokens stream stream' → List.Forall₂ L.Entries row row' →
    L.Steps (scan s stream row) (scan' t stream' row')

structure Contexts (L : Likeness) (ctx ctx' : Context) : Prop where
  first : ctx.settings.operators = L.first
  second : ctx'.settings.operators = L.second
  maxDepth : ctx.settings.maxDepth = ctx'.settings.maxDepth
  below : Option.Rel L.Scans ctx.below ctx'.below

variable {L : Likeness} {s t : Token} {stream stream' rest rest' : List Token}
  {row row' : Row} {content content' : List Entry} {d e : Entry} {ctx ctx' : Context} {b : Bracket}

section Streams

theorem map_kind_eq (h : List.Forall₂ L.Tokens stream stream') :
    stream.map Token.kind = stream'.map Token.kind := by
  induction h with
  | nil => rfl
  | cons ht _ ih => rw [List.map_cons, List.map_cons, ht.kind, ih]

theorem closeFrom_eq (h : List.Forall₂ L.Tokens stream stream') (extra : Nat) :
    b.closeFrom extra stream = b.closeFrom extra stream' :=
  Bracket.closeFrom_congr (map_kind_eq h)

theorem Tokens.grouped (h : L.Tokens s t) : L.Tokens s.grouped t.grouped := by
  unfold Token.grouped
  by_cases hk : s.kind = .opening .parenthesis
  · have hk' := h.kind ▸ hk
    rw [if_pos hk, if_pos hk']
    exact ⟨h.kind, rfl, h.position, h.text, h.symbol, by simp [Token.atom?, hk, hk']⟩
  · rwa [if_neg hk, if_neg (h.kind ▸ hk)]

theorem Tokens.atom?_eq_none (h : L.Tokens s t) (hs : s.atom? L.first = none) :
    t.atom? L.second = none := by
  have hatom := h.atom
  rw [hs] at hatom
  generalize t.atom? L.second = y at hatom
  cases hatom
  rfl

theorem secondPeriod_alike (h : List.Forall₂ L.Tokens stream stream') :
    (secondPeriod stream).1 = (secondPeriod stream').1 ∧
      List.Forall₂ L.Tokens (secondPeriod stream).2 (secondPeriod stream').2 := by
  cases h with
  | nil => exact ⟨rfl, .nil⟩
  | cons ht h =>
    simp only [secondPeriod, ht.kind]
    split
    · exact ⟨rfl, h⟩
    · exact ⟨rfl, .cons ht h⟩

theorem last_alike (ht : L.Tokens s t) (h : List.Forall₂ L.Tokens stream stream') :
    L.Tokens (stream.getLast?.getD s) (stream'.getLast?.getD t) := by
  have hlast := rel_getLast? h
  generalize stream.getLast? = x at hlast ⊢
  generalize stream'.getLast? = y at hlast ⊢
  cases hlast with
  | none => exact ht
  | some h => exact h

end Streams

section Rows

theorem map_relabel_eq (h : List.Forall₂ L.Entries content content') :
    (content.map Entry.node).map (Node.relabel L.labels) =
      (content'.map Entry.node).map (Node.relabel L.labels) := by
  induction h with
  | nil => rfl
  | cons hd _ ih => simp only [List.map_cons, hd.node, ih]

theorem deepest_eq (h : List.Forall₂ L.Entries content content') :
    Entry.deepest content = Entry.deepest content' := by
  induction h with
  | nil => rfl
  | cons hd _ ih => rw [Entry.deepest_cons, Entry.deepest_cons, hd.depth, ih]

theorem alone_alike (wrap : List Node → Node)
    (hw : ∀ ns, (wrap ns).relabel L.labels = wrap (ns.map (Node.relabel L.labels)))
    (ho : ∀ ns, (wrap ns).isOperand = true) (h : List.Forall₂ L.Entries content content') :
    L.Entries ⟨wrap (content.map Entry.node), Entry.deepest content + 1⟩
      ⟨wrap (content'.map Entry.node), Entry.deepest content' + 1⟩ :=
  .of_operand (by rw [hw, hw, map_relabel_eq h]) (by rw [deepest_eq h]) (ho _)

theorem upon_alike (wrap : Node → List Node → Node)
    (hw : ∀ n ns, (wrap n ns).relabel L.labels =
      wrap (n.relabel L.labels) (ns.map (Node.relabel L.labels)))
    (ho : ∀ n ns, (wrap n ns).isOperand = true) (hd : L.Entries d e)
    (h : List.Forall₂ L.Entries content content') :
    L.Entries ⟨wrap d.node (content.map Entry.node), max d.depth (Entry.deepest content) + 1⟩
      ⟨wrap e.node (content'.map Entry.node), max e.depth (Entry.deepest content') + 1⟩ :=
  .of_operand (by rw [hw, hw, hd.node, map_relabel_eq h]) (by rw [hd.depth, deepest_eq h]) (ho _ _)

/-- What is asked of an entry before it is taken may not depend on labels. -/
theorem take?_alike {p : Node → Bool} (hp : ∀ n : Node, p (n.relabel L.labels) = p n)
    (h : List.Forall₂ L.Entries row row') :
    Option.Rel (fun x y => L.Entries x.1 y.1 ∧ List.Forall₂ L.Entries x.2 y.2) (row.take? p)
      (row'.take? p) := by
  cases h with
  | nil => exact .none
  | @cons d e below below' hd h =>
    have hpe : p d.node = p e.node := by rw [← hp, hd.node, hp]
    simp only [Row.take?, hpe]
    split
    · exact .some ⟨hd, h⟩
    · exact .none

theorem branches?_relabel (f : Relabelling) (content : List Entry) :
    branches? (content.map (Entry.relabel f)) = (branches? content).map fun (left, right, depth) =>
      (left.relabel f, right.relabel f, depth) := by
  rcases content with _ | ⟨⟨n, depth⟩, _ | ⟨e, es⟩⟩
  · rfl
  · cases n with
    | binary op left right =>
      simp only [List.map_cons, List.map_nil, Entry.relabel, Node.relabel, branches?,
        f.symbol_operator]
      split <;> rfl
    | _ => rfl
  · cases n <;> rfl

theorem branches?_alike (h : List.Forall₂ L.Entries content content') :
    Option.Rel (fun x y => x.1.relabel L.labels = y.1.relabel L.labels ∧
        x.2.1.relabel L.labels = y.2.1.relabel L.labels ∧ x.2.2 = y.2.2)
      (branches? content) (branches? content') := by
  have hmap : content.map (Entry.relabel L.labels) = content'.map (Entry.relabel L.labels) := by
    induction h with
    | nil => rfl
    | cons hd _ ih => simp only [List.map_cons, Entry.relabel, hd.node, hd.depth, ih]
  have heq := congrArg branches? hmap
  rw [branches?_relabel, branches?_relabel] at heq
  generalize branches? content = x at heq ⊢
  generalize branches? content' = y at heq ⊢
  cases x with
  | none =>
    rw [Option.map_eq_none_iff.1 heq.symm]
    exact .none
  | some x =>
    obtain ⟨y, rfl, hxy⟩ := Option.map_eq_some_iff.1 heq.symm
    simp only [Prod.mk.injEq] at hxy
    exact .some ⟨hxy.1.symm, hxy.2.1.symm, hxy.2.2.symm⟩

theorem dotted_alike {left right left' right' : Entry} (isRange : Bool)
    (hl : L.Entries left left') (hr : L.Entries right right') :
    L.Entries (Scan.dotted isRange left right) (Scan.dotted isRange left' right') := by
  cases isRange <;>
    exact .of_operand (by simp [Scan.dotted, Node.relabel, hl.node, hr.node])
      (by simp [Scan.dotted, hl.depth, hr.depth]) rfl

end Rows

section Faults

theorem unexpected_alike (h : L.Tokens s t) : L.Faults s.unexpected t.unexpected :=
  ⟨congrArg Cause.unexpectedToken h.text, h.position⟩

theorem tooDeep_alike (hc : L.Contexts ctx ctx') (h : L.Tokens s t) :
    L.Faults (ctx.tooDeep s) (ctx'.tooDeep t) :=
  ⟨congrArg Cause.tooDeep hc.maxDepth, h.position⟩

theorem below?_alike (hc : L.Contexts ctx ctx') (h : L.Tokens s t) :
    L.Outcomes L.Scans (ctx.below? s) (ctx'.below? t) := by
  have hb := hc.below
  simp only [Context.below?]
  generalize ctx.below = x at hb ⊢
  generalize ctx'.below = y at hb ⊢
  cases hb with
  | none => exact .error (tooDeep_alike hc h)
  | some hs => exact .ok hs

theorem finish_alike (hc : L.Contexts ctx ctx') (h : L.Tokens s t)
    (hrest : List.Forall₂ L.Tokens rest rest') (hrow : List.Forall₂ L.Entries row row')
    (he : L.Entries d e) : L.Steps (ctx.finish s rest row d) (ctx'.finish t rest' row' e) := by
  simp only [Context.finish, Row.push?, he.depth, hc.maxDepth]
  split
  · exact .error ⟨rfl, h.position⟩
  · exact .ok hrest (.cons he hrow)

end Faults

section Runs

variable {scan scan' : Scan} (h : L.Scans scan scan')

include h

theorem one_alike (hs : List.Forall₂ L.Tokens stream stream')
    (hr : List.Forall₂ L.Entries row row') : L.Steps (scan.one stream row)
    (scan'.one stream' row') := by
  cases hs with
  | nil => exact .ok .nil hr
  | cons ht hs => exact h ht hs hr

theorem drain_alike (fuel : Nat) (hs : List.Forall₂ L.Tokens stream stream')
    (hr : List.Forall₂ L.Entries row row') : L.Steps (scan.drain fuel stream row)
    (scan'.drain fuel stream' row') := by
  induction fuel generalizing stream stream' row row' with
  | zero => exact .ok hs hr
  | succ fuel ih =>
    cases hs with
    | nil => exact .ok .nil hr
    | @cons s t stream stream' ht hs =>
      have hstep := h ht hs hr
      rw [Scan.drain, Scan.drain]
      generalize scan s stream row = x at hstep ⊢
      generalize scan' t stream' row' = y at hstep ⊢
      cases hstep with
      | ok hrest hrow => exact ih hrest hrow
      | error hf => exact .error hf

theorem level_alike (limit : Nat) (hs : List.Forall₂ L.Tokens stream stream') :
    L.Readings (scan.level limit stream) (scan'.level limit stream') := by
  have hdrain := drain_alike h stream.length hs .nil
  rw [Scan.level, Scan.level, ← hs.length_eq]
  generalize scan.drain stream.length stream [] = x at hdrain ⊢
  generalize scan'.drain stream.length stream' [] = y at hdrain ⊢
  cases hdrain with
  | error hf => exact .error hf
  | @ok rest rest' row row' hrest hrow =>
    have hfold := foldMarkers_alike (List.rel_reverse hrow) limit
    simp only
    generalize foldMarkers limit row.reverse = x at hfold ⊢
    generalize foldMarkers limit row'.reverse = y at hfold ⊢
    cases hfold with
    | ok hcontent => exact .ok hcontent hrest
    | error hf => exact .error hf

end Runs

section Enclosures

theorem attachParenthesis_alike (hg : s.grouping = t.grouping)
    (hcontent : List.Forall₂ L.Entries content content') (hr : List.Forall₂ L.Entries row row') :
    L.Entries (Bracket.attachParenthesis s content row).1
        (Bracket.attachParenthesis t content' row').1 ∧
      List.Forall₂ L.Entries (Bracket.attachParenthesis s content row).2
        (Bracket.attachParenthesis t content' row').2 := by
  have hgroup := alone_alike .group (by simp [Node.relabel]) (fun _ => rfl) hcontent
  have htake := take?_alike (p := fun n => n.isOperand && n.kind != .statement) (by simp) hr
  simp only [Bracket.attachParenthesis, hg]
  cases t.grouping with
  | true => exact ⟨hgroup, hr⟩
  | false =>
    simp only [Bool.false_eq_true, if_false]
    generalize row.take? _ = x at htake ⊢
    generalize row'.take? _ = y at htake ⊢
    cases htake with
    | none => exact ⟨hgroup, hr⟩
    | some hxy =>
      exact ⟨upon_alike .call (by simp [Node.relabel]) (fun _ _ => rfl) hxy.1 hcontent, hxy.2⟩

theorem attachSquare_alike (hcontent : List.Forall₂ L.Entries content content')
    (hr : List.Forall₂ L.Entries row row') :
    L.Entries (Bracket.attachSquare content row).1 (Bracket.attachSquare content' row').1 ∧
      List.Forall₂ L.Entries (Bracket.attachSquare content row).2
        (Bracket.attachSquare content' row').2 := by
  have htake := take?_alike (p := Node.isOperand) Node.isOperand_relabel hr
  simp only [Bracket.attachSquare]
  generalize row.take? Node.isOperand = x at htake ⊢
  generalize row'.take? Node.isOperand = y at htake ⊢
  cases htake with
  | none => exact ⟨alone_alike .set (by simp [Node.relabel]) (fun _ => rfl) hcontent, hr⟩
  | some hxy =>
    exact ⟨upon_alike .index (by simp [Node.relabel]) (fun _ _ => rfl) hxy.1 hcontent, hxy.2⟩

theorem attachBrace_block (hcontent : List.Forall₂ L.Entries content content')
    (hr : List.Forall₂ L.Entries row row')
    (hk : ∀ e ∈ row.head?, e.node.kind ≠ .call ∧ e.node.kind ≠ .group) :
    L.Outcomes L.Entries (Bracket.attachBrace s content row).1
        (Bracket.attachBrace t content' row').1 ∧
      List.Forall₂ L.Entries (Bracket.attachBrace s content row).2
        (Bracket.attachBrace t content' row').2 := by
  have hk' : ∀ e ∈ row'.head?, e.node.kind ≠ .call ∧ e.node.kind ≠ .group := by
    intro e he
    have hhead := rel_head? hr
    rw [Option.mem_def.1 he] at hhead
    generalize hx : row.head? = x at hhead
    cases hhead with
    | @some d _ hd =>
      rw [← hd.kind_eq]
      exact hk d hx
  have hs : Bracket.attachBrace s content row = _ := (Bracket.Attaches.block hk).attach_eq
  have ht : Bracket.attachBrace t content' row' = _ := (Bracket.Attaches.block hk').attach_eq
  rw [hs, ht]
  exact ⟨.ok (alone_alike .block (by simp [Node.relabel]) (fun _ => rfl) hcontent), hr⟩

theorem attachBrace_alike (ht : L.Tokens s t)
    (hcontent : List.Forall₂ L.Entries content content') (hr : List.Forall₂ L.Entries row row') :
    L.Outcomes L.Entries (Bracket.attachBrace s content row).1
        (Bracket.attachBrace t content' row').1 ∧
      List.Forall₂ L.Entries (Bracket.attachBrace s content row).2
        (Bracket.attachBrace t content' row').2 := by
  have hall := hr
  cases hr with
  | nil => exact attachBrace_block hcontent hall nofun
  | @cons d e below below' hd hr =>
    obtain ⟨n, depth⟩ := d
    obtain ⟨m, depth'⟩ := e
    obtain rfl : depth = depth' := hd.depth
    have hn : n.relabel L.labels = m.relabel L.labels := hd.node
    cases n with
    | call callee arguments =>
      obtain ⟨callee', arguments', rfl, hcallee, harguments⟩ := Node.relabel_eq_call hn.symm
      by_cases hk : ∃ name, callee = .identifier name
      · obtain ⟨name, rfl⟩ := hk
        obtain ⟨name', rfl, hname⟩ := Node.relabel_eq_identifier hcallee
        refine ⟨.ok (.of_operand ?_ ?_ rfl), hr⟩
        · simp only [Node.relabel, Node.relabelAll_eq_map, Option.map_some, hname, harguments,
            map_relabel_eq hcontent]
        · simp only [deepest_eq hcontent]
      · -- Nothing but an identifier is relabelled to one, so neither callee has a name.
        have hk' : ∀ name, callee' ≠ .identifier name := by
          rintro name rfl
          obtain ⟨name', rfl, -⟩ := Node.relabel_eq_identifier hcallee.symm
          exact hk ⟨name', rfl⟩
        rw [Bracket.attachBrace_unnamed fun name hname => hk ⟨name, hname⟩,
          Bracket.attachBrace_unnamed hk']
        exact ⟨.error (unexpected_alike ht), hr⟩
    | group parameters =>
      obtain ⟨parameters', rfl, hparameters⟩ := Node.relabel_eq_group hn.symm
      refine ⟨.ok (.of_operand ?_ ?_ rfl), hr⟩
      · simp only [Node.relabel, Node.relabelAll_eq_map, Option.map_none, hparameters,
          map_relabel_eq hcontent]
      · simp only [deepest_eq hcontent]
    | _ =>
      refine attachBrace_block hcontent hall ?_
      rintro _ ⟨⟩
      exact ⟨nofun, nofun⟩

theorem attach_alike (ht : L.Tokens s t) (hcontent : List.Forall₂ L.Entries content content')
    (hr : List.Forall₂ L.Entries row row') (b : Bracket) :
    L.Outcomes L.Entries (b.attach s content row).1 (b.attach t content' row').1 ∧
      List.Forall₂ L.Entries (b.attach s content row).2 (b.attach t content' row').2 := by
  cases b with
  | parenthesis =>
    obtain ⟨he, hbelow⟩ := attachParenthesis_alike ht.grouping hcontent hr
    exact ⟨.ok he, hbelow⟩
  | brace => exact attachBrace_alike ht hcontent hr
  | square =>
    obtain ⟨he, hbelow⟩ := attachSquare_alike hcontent hr
    exact ⟨.ok he, hbelow⟩

theorem interior_alike (hc : L.Contexts ctx ctx') (ht : L.Tokens s t) (b : Bracket)
    (hs : List.Forall₂ L.Tokens stream stream') :
    L.Readings (ctx.interior b s stream) (ctx'.interior b t stream') := by
  have hbelow := below?_alike hc ht
  simp only [Context.interior, Bracket.findClose, closeFrom_eq hs, ← hc.maxDepth]
  cases hclose : b.closeFrom 0 stream' with
  | none => exact .error ⟨rfl, (last_alike ht hs).position⟩
  | some close =>
    generalize ctx.below? s = x at hbelow ⊢
    generalize ctx'.below? t = y at hbelow ⊢
    have hrest := List.forall₂_drop (close + 1) hs
    cases hbelow with
    | error hf => exact .error hf
    | @ok scan scan' hscan =>
      have hlevel := level_alike hscan ctx.settings.maxDepth (List.forall₂_take close hs)
      simp only
      generalize scan.level ctx.settings.maxDepth (stream.take close) = x at hlevel ⊢
      generalize scan'.level ctx.settings.maxDepth (stream'.take close) = y at hlevel ⊢
      cases hlevel with
      | error hf => exact .error hf
      | ok hcontent _ => exact .ok hcontent hrest

end Enclosures

section Handlers

variable (hc : L.Contexts ctx ctx') (ht : L.Tokens s t)
  (hs : List.Forall₂ L.Tokens stream stream') (hr : List.Forall₂ L.Entries row row')

include hc ht hs hr

theorem semicolon_alike : L.Steps (Scan.semicolon ctx s stream row)
    (Scan.semicolon ctx' t stream' row') := by
  have htake := take?_alike (p := Node.isOperand) Node.isOperand_relabel hr
  simp only [Scan.semicolon]
  generalize row.take? Node.isOperand = x at htake ⊢
  generalize row'.take? Node.isOperand = y at htake ⊢
  cases htake with
  | none => exact .error (unexpected_alike ht)
  | @some x y hxy =>
    obtain ⟨hd, hbelow⟩ := hxy
    refine finish_alike hc ht hs hbelow (.of_operand ?_ (congrArg (· + 1) hd.depth) rfl)
    simp [Node.relabel, hd.node]

theorem dot_alike : L.Steps (Scan.dot ctx s stream row) (Scan.dot ctx' t stream' row') := by
  obtain ⟨hrange, hs⟩ := secondPeriod_alike hs
  have htake := take?_alike (p := Node.isOperand) Node.isOperand_relabel hr
  have hbelow := below?_alike hc ht
  simp only [Scan.dot, hrange]
  generalize row.take? Node.isOperand = x at htake ⊢
  generalize row'.take? Node.isOperand = y at htake ⊢
  cases htake with
  | none => exact .error (unexpected_alike ht)
  | @some x y hxy =>
    obtain ⟨hleft, hr⟩ := hxy
    generalize ctx.below? s = x at hbelow ⊢
    generalize ctx'.below? t = y at hbelow ⊢
    cases hbelow with
    | error hf => exact .error hf
    | @ok scan scan' hscan =>
      have hone := one_alike hscan hs .nil
      simp only
      generalize scan.one (secondPeriod stream).2 [] = x at hone ⊢
      generalize scan'.one (secondPeriod stream').2 [] = y at hone ⊢
      cases hone with
      | error hf => exact .error hf
      | @ok rest rest' found found' hrest hfound =>
        have htake := take?_alike (p := Node.isOperand) Node.isOperand_relabel hfound
        simp only
        generalize Row.take? found Node.isOperand = x at htake ⊢
        generalize Row.take? found' Node.isOperand = y at htake ⊢
        cases htake with
        | none => exact .error (unexpected_alike ht)
        | some hxy => exact finish_alike hc ht hrest hr (dotted_alike _ hleft hxy.1)

theorem choice_alike : L.Steps (Scan.choice ctx s stream row)
    (Scan.choice ctx' t stream' row') := by
  have htake := take?_alike (p := Node.isOperand) Node.isOperand_relabel hr
  have hbelow := below?_alike hc ht
  simp only [Scan.choice, ← hc.maxDepth]
  generalize row.take? Node.isOperand = x at htake ⊢
  generalize row'.take? Node.isOperand = y at htake ⊢
  cases htake with
  | none => exact .error (unexpected_alike ht)
  | @some x y hxy =>
    obtain ⟨hcondition, hr⟩ := hxy
    generalize ctx.below? s = x at hbelow ⊢
    generalize ctx'.below? t = y at hbelow ⊢
    cases hbelow with
    | error hf => exact .error hf
    | @ok scan scan' hscan =>
      have hlevel := level_alike hscan ctx.settings.maxDepth hs
      simp only
      generalize scan.level ctx.settings.maxDepth stream = x at hlevel ⊢
      generalize scan'.level ctx.settings.maxDepth stream' = y at hlevel ⊢
      cases hlevel with
      | error hf => exact .error hf
      | @ok rest rest' content content' hcontent hrest =>
        have hbranches := branches?_alike hcontent
        simp only
        generalize branches? content = x at hbranches ⊢
        generalize branches? content' = y at hbranches ⊢
        cases hbranches with
        | none => exact .error (unexpected_alike ht)
        | some hxy =>
          obtain ⟨hleft, hright, hdepth⟩ := hxy
          refine finish_alike hc ht hrest hr (.of_operand ?_ ?_ rfl)
          · simp only [Node.relabel, hcondition.node, hleft, hright]
          · simp only [hcondition.depth, hdepth]

theorem enclosed_alike (b : Bracket) : L.Steps (Scan.enclosed ctx b s stream row)
    (Scan.enclosed ctx' b t stream' row') := by
  have hinterior := interior_alike hc ht b hs
  simp only [Scan.enclosed]
  generalize ctx.interior b s stream = x at hinterior ⊢
  generalize ctx'.interior b t stream' = y at hinterior ⊢
  cases hinterior with
  | error hf => exact .error hf
  | @ok rest rest' content content' hcontent hrest =>
    obtain ⟨houtcome, hbelow⟩ := attach_alike ht hcontent hr b
    simp only
    generalize b.attach s content row = x at houtcome hbelow ⊢
    generalize b.attach t content' row' = y at houtcome hbelow ⊢
    obtain ⟨x, below⟩ := x
    obtain ⟨y, below'⟩ := y
    cases houtcome with
    | error hf => exact .error hf
    | ok he => exact finish_alike hc ht hrest hbelow he

theorem atom_alike {n : Node} (hn : s.atom? L.first = some n) :
    L.Steps (ctx.scan s stream row) (ctx'.scan t stream' row') := by
  have hatom := ht.atom
  rw [hn] at hatom
  generalize hm : t.atom? L.second = y at hatom
  cases hatom with
  | some hnm =>
    rw [Context.scan_of_atom (hc.first ▸ hn), Context.scan_of_atom (hc.second ▸ hm)]
    exact .ok hs (.cons hnm hr)

theorem number_alike (hk : s.kind = .number) :
    L.Steps (ctx.scan s stream row) (ctx'.scan t stream' row') := by
  cases hn : s.atom? L.first with
  | some n => exact atom_alike hc ht hs hr hn
  | none =>
    have hk' := ht.kind ▸ hk
    have hm := ht.atom?_eq_none hn
    simp only [Token.atom?, hk, Option.map_eq_none_iff] at hn
    simp only [Token.atom?, hk', Option.map_eq_none_iff] at hm
    rw [(Context.Fails.number hk hn).scan_eq, (Context.Fails.number hk' hm).scan_eq]
    exact .error ⟨congrArg Cause.invalidNumber ht.text, ht.position⟩

theorem operator_alike (hk : s.kind = .operator) :
    L.Steps (ctx.scan s stream row) (ctx'.scan t stream' row') := by
  cases hn : s.atom? L.first with
  | some n => exact atom_alike hc ht hs hr hn
  | none =>
    have hk' := ht.kind ▸ hk
    have hm := ht.atom?_eq_none hn
    simp only [Token.atom?, hk, Option.map_eq_none_iff, ← hc.first] at hn
    simp only [Token.atom?, hk', Option.map_eq_none_iff, ← hc.second] at hm
    rw [(Context.Fails.operator hk hn).scan_eq, (Context.Fails.operator hk' hm).scan_eq]
    exact .error ⟨congrArg Cause.unknownOperator (ht.symbol hk), ht.position⟩

/-- Whatever construct the tokens begin, it does alike in both readings. Either kind of token that
may be read or not, a number and an operator, is so in both or in neither. -/
theorem construct_alike : L.Steps (ctx.scan s stream row) (ctx'.scan t stream' row') := by
  have hkind := ht.kind
  cases hk : s.kind with
  | word | string | comment =>
    cases hn : s.atom? L.first with
    | some n => exact atom_alike hc ht hs hr hn
    | none => simp [Token.atom?, hk] at hn
  | number => exact number_alike hc ht hs hr hk
  | operator => exact operator_alike hc ht hs hr hk
  | delimiter =>
    rw [Context.scan_of_kind (c := .delimiter) hk,
      Context.scan_of_kind (c := .delimiter) (hkind ▸ hk)]
    cases hs with
    | nil => exact .ok .nil hr
    | cons hu hs => exact .ok (.cons hu.grouped hs) hr
  | semicolon =>
    rw [Context.scan_of_kind (c := .semicolon) hk,
      Context.scan_of_kind (c := .semicolon) (hkind ▸ hk)]
    exact semicolon_alike hc ht hs hr
  | period =>
    rw [Context.scan_of_kind (c := .dot) hk, Context.scan_of_kind (c := .dot) (hkind ▸ hk)]
    exact dot_alike hc ht hs hr
  | questionMark =>
    rw [Context.scan_of_kind (c := .choice) hk, Context.scan_of_kind (c := .choice) (hkind ▸ hk)]
    exact choice_alike hc ht hs hr
  | opening b =>
    rw [Context.scan_enclosed_of_kind hk, Context.scan_enclosed_of_kind (hkind ▸ hk)]
    exact enclosed_alike hc ht hs hr b
  | closing b =>
    rw [(Context.Fails.unknown hk).scan_eq, (Context.Fails.unknown (hkind ▸ hk)).scan_eq]
    exact .error ⟨congrArg Cause.unknownToken ht.text, ht.position⟩

end Handlers

variable {settings settings' : Settings}

/-- Every level does as the same level of the other reading. The induction is on the room, not by
`scanWithin_induction`: two levels go down together. -/
theorem scanWithin_alike (hfirst : settings.operators = L.first)
    (hsecond : settings'.operators = L.second) (hmax : settings.maxDepth = settings'.maxDepth)
    (room : Nat) : L.Scans (scanWithin settings room) (scanWithin settings' room) := by
  induction room with
  | zero => exact fun _ _ _ _ _ _ => construct_alike ⟨hfirst, hsecond, hmax, .none⟩
  | succ room ih => exact fun _ _ _ _ _ _ => construct_alike ⟨hfirst, hsecond, hmax, .some ih⟩

/-- Token lists that are alike have the same forest up to labels, or the same fault. -/
theorem parseWith_alike (hfirst : settings.operators = L.first)
    (hsecond : settings'.operators = L.second) (hmax : settings.maxDepth = settings'.maxDepth)
    (hs : List.Forall₂ L.Tokens stream stream') :
    L.Outcomes (fun ns ms => ns.map (Node.relabel L.labels) = ms.map (Node.relabel L.labels))
      (parseWith settings stream) (parseWith settings' stream') := by
  have hscan := scanWithin_alike hfirst hsecond hmax settings'.maxDepth
  have hlevel := level_alike hscan settings'.maxDepth hs
  rw [parseWith_eq, parseWith_eq, hmax]
  generalize (scanWithin settings settings'.maxDepth).level settings'.maxDepth stream = x
    at hlevel ⊢
  generalize (scanWithin settings' settings'.maxDepth).level settings'.maxDepth stream' = y
    at hlevel ⊢
  cases hlevel with
  | ok hcontent _ => exact .ok (map_relabel_eq hcontent)
  | error hf => exact .error hf

end Likeness

end TokenForest
