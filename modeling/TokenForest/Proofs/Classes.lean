import TokenForest.Proofs.Lockstep

set_option autoImplicit false

namespace TokenForest

structure Token.SameClass (s t : Token) : Prop where
  kind : s.kind = t.kind
  grouping : s.grouping = t.grouping
  symbol : s.kind = .operator → s.text = t.text
  number : s.kind = .number →
    (Binary64.ofLiteral? s.text).isSome = (Binary64.ofLiteral? t.text).isSome

def Facing (ts us : List Token) (p q : Position) : Prop :=
  ∃ (i : Nat) (s t : Token), ts[i]? = some s ∧ us[i]? = some t ∧ s.position = p ∧ t.position = q

def Likeness.classes (table : OperatorTable) (ts us : List Token) : Likeness where
  labels := .shape
  first := table
  second := table
  Operators o p := Relabelling.shape.operator o = Relabelling.shape.operator p ∧
    Facing ts us o.position p.position
  Positions := Facing ts us
  label h := h.1
  position h := h.2
  compare h h' := by
    have hleft := congrArg Operator.precedence h.1
    have hright := congrArg Operator.precedence h'.1
    simp only [Relabelling.shape] at hleft hright
    rw [hleft, hright]

variable {table : OperatorTable} {ts us : List Token} {s t : Token}

theorem Token.SameClass.atom (h : s.SameClass t) (hp : Facing ts us s.position t.position) :
    Option.Rel (fun n m => (Likeness.classes table ts us).Entries ⟨n, 0⟩ ⟨m, 0⟩)
      (s.atom? table) (t.atom? table) := by
  have hkind := h.kind
  cases hk : s.kind with
  | word | string | comment =>
    simp only [Token.atom?, hk, ← hkind]
    exact .some (.of_operand rfl rfl rfl)
  | number =>
    have hnumber := h.number hk
    simp only [Token.atom?, hk, ← hkind]
    generalize Binary64.ofLiteral? s.text = x at hnumber ⊢
    generalize Binary64.ofLiteral? t.text = y at hnumber ⊢
    cases x <;> cases y <;> cases hnumber
    · exact .none
    · exact .some (.of_operand rfl rfl rfl)
  | operator =>
    simp only [Token.atom?, hk, ← hkind, h.symbol hk]
    cases table.get? t.text with
    | none => exact .none
    | some info =>
      refine .some ⟨rfl, rfl, ?_⟩
      rintro _ _ ⟨⟩ ⟨⟩
      exact ⟨rfl, hp⟩
  | _ =>
    simp only [Token.atom?, hk, ← hkind]
    exact .none

theorem Token.SameClass.tokens (h : s.SameClass t) (hp : Facing ts us s.position t.position) :
    (Likeness.classes table ts us).Tokens s t :=
  ⟨h.kind, h.grouping, hp, rfl, h.symbol, h.atom hp⟩

/-- Lists of one class are read alike: both give forests of one form, or both fail with one kind of
fault, at tokens of the same index. -/
theorem parseWith_sameClass {settings : Settings} {ts us : List Token}
    (h : List.Forall₂ Token.SameClass ts us) :
    (∃ ns ms, parseWith settings ts = .ok ns ∧ parseWith settings us = .ok ms ∧
      ns.map (Node.relabel .shape) = ms.map (Node.relabel .shape)) ∨
    ∃ f g, parseWith settings ts = .error f ∧ parseWith settings us = .error g ∧
      f.cause.relabel .shape = g.cause.relabel .shape ∧ Facing ts us f.position g.position := by
  have htokens : List.Forall₂ (Likeness.classes settings.operators ts us).Tokens ts us := by
    rw [List.forall₂_iff_get] at h ⊢
    refine ⟨h.1, fun i hi hi' => (h.2 i hi hi').tokens ?_⟩
    exact ⟨i, _, _, List.getElem?_eq_getElem hi, List.getElem?_eq_getElem hi', rfl, rfl⟩
  have halike : Likeness.Outcomes _ _ (parseWith settings ts) (parseWith settings us) :=
    Likeness.parseWith_alike rfl rfl rfl htokens
  generalize parseWith settings ts = x at halike ⊢
  generalize parseWith settings us = y at halike ⊢
  cases halike with
  | @ok ns ms hmap => exact .inl ⟨ns, ms, rfl, rfl, hmap⟩
  | @error f g hf => exact .inr ⟨f, g, rfl, rfl, hf.cause, hf.position⟩

def areaTokens (callee argument value : String) (start : UInt32) : List Token :=
  let token (kind : TokenKind) (text : String) (offset : UInt32) : Token :=
    ⟨kind, text, ⟨start + offset, ""⟩, false⟩
  [token .word callee 0, token (.opening .parenthesis) "(" 4, token .word argument 5,
    token .delimiter "," 6, token .number value 8, token .operator "+" 9,
    token (.closing .parenthesis) ")" 10]

/-- The plus has no right operand, whatever stands around it. -/
theorem parseWith_sameClass_operand :
    ∃ f g, parseWith .standard (areaTokens "area" "w" "1" 0) = .error f ∧
      parseWith .standard (areaTokens "sum" "total" "2.5" 40) = .error g ∧
      f.cause.relabel .shape = g.cause.relabel .shape ∧
      Facing (areaTokens "area" "w" "1" 0) (areaTokens "sum" "total" "2.5" 40) f.position
        g.position := by
  have hclass : List.Forall₂ Token.SameClass (areaTokens "area" "w" "1" 0)
      (areaTokens "sum" "total" "2.5" 40) := by
    refine .cons ?_ (.cons ?_ (.cons ?_ (.cons ?_ (.cons ?_ (.cons ?_ (.cons ?_ .nil)))))) <;>
      exact ⟨rfl, rfl, by decide, by decide⟩
  rcases @parseWith_sameClass .standard _ _ hclass with ⟨ns, _, hns, -⟩ | h
  · have herror : parseWith .standard (areaTokens "area" "w" "1" 0) =
        .error ⟨.missingOperand "+", ⟨9, ""⟩⟩ := rfl
    rw [herror] at hns
    cases hns
  · exact h

end TokenForest
