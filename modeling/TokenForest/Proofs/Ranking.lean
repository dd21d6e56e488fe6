import TokenForest.Proofs.Lockstep

set_option autoImplicit false

namespace TokenForest

def Token.symbols (tokens : List Token) : List String :=
  (tokens.filter fun t => t.kind == .operator).map Token.text

theorem Token.mem_symbols {tokens : List Token} {t : Token} (h : t ∈ tokens)
    (hk : t.kind = .operator) : t.text ∈ symbols tokens :=
  List.mem_map_of_mem (List.mem_filter.2 ⟨h, by simp [hk]⟩)

/-- Whether the table knows both symbols and lets the second bind tighter. -/
def OperatorTable.looser (table : OperatorTable) (a b : String) : Bool :=
  match table.get? a, table.get? b with
  | some i, some j => decide (i.precedence < j.precedence)
  | _, _ => false

theorem OperatorTable.looser_iff {table : OperatorTable} {o p : Operator}
    (ho : table.get? o.symbol = some ⟨o.name, o.precedence⟩)
    (hp : table.get? p.symbol = some ⟨p.name, p.precedence⟩) :
    table.looser o.symbol p.symbol = true ↔ o.precedence < p.precedence := by
  simp [looser, ho, hp]

/-- Tables that know the given symbols alike and rank them in one order. -/
structure OperatorTable.Agree (symbols : List String) (first second : OperatorTable) : Prop where
  name : ∀ a ∈ symbols,
    (first.get? a).map OperatorInfo.name = (second.get? a).map OperatorInfo.name
  order : ∀ a ∈ symbols, ∀ b ∈ symbols, first.looser a b = second.looser a b

def Likeness.ranked (labels : Relabelling) {symbols : List String} {first second : OperatorTable}
    (h : OperatorTable.Agree symbols first second) : Likeness where
  labels := labels
  first := first
  second := second
  Operators o p := labels.operator o = labels.operator p ∧ o.position = p.position ∧
    o.symbol ∈ symbols ∧ first.get? o.symbol = some ⟨o.name, o.precedence⟩ ∧
    second.get? p.symbol = some ⟨p.name, p.precedence⟩
  Positions := Eq
  label h := h.1
  position h := h.2.1
  compare {o p o' p'} ho ho' := by
    obtain ⟨hlabel, -, hmem, hfirst, hsecond⟩ := ho
    obtain ⟨hlabel', -, hmem', hfirst', hsecond'⟩ := ho'
    -- Each side reads the order off its own table; there it is an order of symbols.
    rw [← OperatorTable.looser_iff hfirst hfirst', h.order _ hmem _ hmem',
      labels.symbol_eq hlabel, labels.symbol_eq hlabel', OperatorTable.looser_iff hsecond hsecond']

variable {labels : Relabelling} {symbols : List String} {first second : OperatorTable}
  {settings settings' : Settings} {tokens : List Token} {t : Token}

/-- The labels of a symbol's operators do not tell the tables apart. -/
def Relabelling.Blends (labels : Relabelling) (symbols : List String)
    (first second : OperatorTable) : Prop :=
  ∀ a ∈ symbols, ∀ (i j : OperatorInfo) (p : Position), first.get? a = some i →
    second.get? a = some j →
    labels.operator ⟨a, i.name, i.precedence, p⟩ = labels.operator ⟨a, j.name, j.precedence, p⟩

theorem Token.atom_ranked (h : OperatorTable.Agree symbols first second)
    (hl : labels.Blends symbols first second) (ht : t.kind = .operator → t.text ∈ symbols) :
    Option.Rel (fun n m => (Likeness.ranked labels h).Entries ⟨n, 0⟩ ⟨m, 0⟩) (t.atom? first)
      (t.atom? second) := by
  cases hk : t.kind with
  | word | string | comment =>
    simp only [atom?, hk]
    exact .some (.of_operand rfl rfl rfl)
  | number =>
    simp only [atom?, hk]
    cases Binary64.ofLiteral? t.text with
    | none => exact .none
    | some value => exact .some (.of_operand rfl rfl rfl)
  | operator =>
    have hmem := ht hk
    have hname := h.name t.text hmem
    simp only [atom?, hk]
    cases hi : first.get? t.text with
    | none =>
      rw [hi, Option.map_none] at hname
      rw [Option.map_eq_none_iff.1 hname.symm]
      exact .none
    | some i =>
      rw [hi, Option.map_some] at hname
      obtain ⟨j, hj, -⟩ := Option.map_eq_some_iff.1 hname.symm
      rw [hj]
      have hlabel := hl _ hmem i j t.position hi hj
      refine .some ⟨congrArg Node.marker hlabel, rfl, ?_⟩
      rintro _ _ ⟨⟩ ⟨⟩
      exact ⟨hlabel, rfl, hmem, hi, hj⟩
  | _ =>
    simp only [atom?, hk]
    exact .none

theorem Likeness.parseWith_ranked (hmax : settings.maxDepth = settings'.maxDepth)
    (h : OperatorTable.Agree (Token.symbols tokens) settings.operators settings'.operators)
    (hl : labels.Blends (Token.symbols tokens) settings.operators settings'.operators)
    (htext : labels.text = id) :
    (parseWith settings tokens).map (List.map (Node.relabel labels)) =
      (parseWith settings' tokens).map (List.map (Node.relabel labels)) := by
  have htokens : List.Forall₂ (ranked labels h).Tokens tokens tokens := by
    refine List.forall₂_same.2 fun t ht => ⟨rfl, rfl, rfl, rfl, fun _ => rfl, ?_⟩
    exact Token.atom_ranked h hl (Token.mem_symbols ht)
  have halike : Outcomes _ _ (parseWith settings tokens) (parseWith settings' tokens) :=
    parseWith_alike rfl rfl hmax htokens
  generalize parseWith settings tokens = x at halike ⊢
  generalize parseWith settings' tokens = y at halike ⊢
  cases halike with
  | ok hmap => exact congrArg Except.ok hmap
  | @error f g hf =>
    obtain ⟨cause, position⟩ := f
    obtain ⟨cause', position'⟩ := g
    have hcause : cause.relabel labels = cause'.relabel labels := hf.cause
    rw [Cause.relabel_of_text htext, Cause.relabel_of_text htext] at hcause
    obtain rfl : position = position' := hf.position
    rw [hcause]

theorem map_relabel_same (x : Except Fault (List Node)) :
    x.map (List.map (Node.relabel .same)) = x := by
  have hid : Node.relabel .same = id := funext Node.relabel_same
  cases x <;> simp [Except.map, hid]

/-- Tables that rank the operators of a list in one order give forests that differ in nothing but
the precedences noted in them, or one fault. Tables that say the same of these operators give one
forest, whatever else is in them. -/
theorem parseWith_unranked (hmax : settings.maxDepth = settings'.maxDepth)
    (hname : ∀ a ∈ Token.symbols tokens, (settings.operators.get? a).map OperatorInfo.name =
      (settings'.operators.get? a).map OperatorInfo.name)
    (horder : ∀ a ∈ Token.symbols tokens, ∀ b ∈ Token.symbols tokens,
      settings.operators.looser a b = settings'.operators.looser a b) :
    (parseWith settings tokens).map (List.map (Node.relabel .unranked)) =
        (parseWith settings' tokens).map (List.map (Node.relabel .unranked)) ∧
      ((∀ a ∈ Token.symbols tokens, settings.operators.get? a = settings'.operators.get? a) →
        parseWith settings tokens = parseWith settings' tokens) := by
  have hagree : OperatorTable.Agree (Token.symbols tokens) settings.operators
      settings'.operators := ⟨hname, horder⟩
  constructor
  · refine Likeness.parseWith_ranked hmax hagree ?_ rfl
    intro a ha i j p hi hj
    have hij := hname a ha
    simp only [hi, hj, Option.map_some, Option.some.injEq] at hij
    simp only [Relabelling.unranked, hij]
  · intro hsame
    have hforest := @Likeness.parseWith_ranked .same settings settings' tokens hmax hagree ?_ rfl
    · simpa only [map_relabel_same] using hforest
    · intro a ha i j p hi hj
      rw [hsame a ha, hj] at hi
      cases hi
      rfl

def scaledTokens : List Token :=
  [.plain .word "a", .plain .operator "+", .plain .word "b", .plain .operator "*",
    .plain .word "c"]

/-- The least and the greatest precedence there are, and a symbol that does not occur. -/
def extremeTable : OperatorTable :=
  .ofList [("+", ⟨"add", -2147483648⟩), ("*", ⟨"multiply", 2147483647⟩), ("@", ⟨"at", 0⟩)]

theorem parseWith_unranked_extremes :
    parseWith .standard scaledTokens = .ok [.binary ⟨"+", "add", 13, .nowhere⟩ (.identifier "a")
        (.binary ⟨"*", "multiply", 14, .nowhere⟩ (.identifier "b") (.identifier "c"))] ∧
      (parseWith .standard scaledTokens).map (List.map (Node.relabel .unranked)) =
        (parseWith ⟨extremeTable, 256, .plain⟩ scaledTokens).map
          (List.map (Node.relabel .unranked)) ∧
      parseWith .standard scaledTokens =
        parseWith ⟨.insert .standard "@" ⟨"at", 14⟩, 256, .plain⟩ scaledTokens := by
  have hextreme := @parseWith_unranked .standard ⟨extremeTable, 256, .plain⟩ scaledTokens rfl
    (by decide) (by decide)
  have hinsert := @parseWith_unranked .standard ⟨.insert .standard "@" ⟨"at", 14⟩, 256, .plain⟩
    scaledTokens rfl (by decide) (by decide)
  exact ⟨rfl, hextreme.1, hinsert.2 (by decide)⟩

end TokenForest
