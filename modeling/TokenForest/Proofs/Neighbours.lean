import TokenForest.Balance
import TokenForest.Decimal.Literal
import TokenForest.Operator
import Mathlib.Tactic.MkIffOfInductiveProp

/-!
Which token lists are accepted, told by the neighbours of each token alone. Delimiters are passed
over where the next operand is looked for, but not before a parenthesis or after a period.
-/

set_option autoImplicit false

namespace TokenForest

namespace Token

def endsOperand (t : Token) : Bool :=
  match t.kind with
  | .word | .number | .string | .comment | .semicolon | .closing _ => true
  | _ => false

def startsOperand (t : Token) : Bool :=
  match t.kind with
  | .word | .number | .string | .comment | .opening _ => true
  | _ => false

def isPeriod (t : Token) : Bool := t.kind == .period

def solid (ts : List Token) : List Token := ts.filter fun t => t.kind != .delimiter

end Token

def OperandBefore (before : List Token) : Prop :=
  ∃ t ∈ (Token.solid before).getLast?, t.endsOperand = true

def OperandAfter (after : List Token) : Prop :=
  ∃ t ∈ (Token.solid after).head?, t.startsOperand = true

/-- The list ends with a parenthesis group, or with delimiters after one; what stands before the
group is the callee. -/
def Grouped (callee before : List Token) : Prop :=
  ∃ (opener closer : Token) (inside gap : List Token),
    opener.kind = .opening .parenthesis ∧ closer.kind = .closing .parenthesis ∧
      Balanced inside ∧ (∀ t ∈ gap, t.kind = .delimiter) ∧
      before = callee ++ opener :: (inside ++ closer :: gap)

/-- A parenthesis right after the list is a call. -/
def Callable (before : List Token) : Prop :=
  ∃ t ∈ before.getLast?, t.endsOperand = true ∧ t.kind ≠ .semicolon

/-- The list ends with a word that is no member and no end of a range. -/
def Named (before : List Token) : Prop :=
  ∃ front t, before = front ++ [t] ∧ t.kind = .word ∧ ∀ p ∈ front.getLast?, p.kind ≠ .period

def Nameable (before : List Token) : Prop :=
  ∀ callee, Grouped callee before → Callable callee → Named callee

/-- What a token asks of the tokens before and after it. A run of periods is asked at its first
one. -/
@[mk_iff]
structure Token.Fits (table : OperatorTable) (before : List Token) (t : Token)
    (after : List Token) : Prop where
  literal : t.kind = .number → (Binary64.ofLiteral? t.text).isSome = true
  known : t.kind = .operator → table.contains t.text = true
  operator : t.kind = .operator → OperandBefore before ∧ OperandAfter after
  semicolon : t.kind = .semicolon → OperandBefore before
  period : t.kind = .period → (∀ p ∈ before.getLast?, p.kind ≠ .period) →
    (t :: after.takeWhile Token.isPeriod).length ≤ 2 ∧ OperandBefore before ∧
      ∃ s ∈ (after.dropWhile Token.isPeriod).head?, s.startsOperand = true
  brace : t.kind = .opening .brace → Nameable before

structure Acceptable (table : OperatorTable) (tokens : List Token) : Prop where
  balanced : Balanced tokens
  fits : ∀ before t after, tokens = before ++ t :: after → t.Fits table before after

section Laws

variable {t : Token} {before after : List Token}

theorem Token.solid_append (xs ys : List Token) : solid (xs ++ ys) = solid xs ++ solid ys :=
  List.filter_append _ _

theorem Token.solid_cons_delimiter (h : t.kind = .delimiter) (ts : List Token) :
    solid (t :: ts) = solid ts := by
  simp [solid, h]

theorem Token.solid_cons (h : t.kind ≠ .delimiter) (ts : List Token) :
    solid (t :: ts) = t :: solid ts := by
  simp [solid, h]

theorem Token.solid_concat (h : t.kind ≠ .delimiter) :
    solid (before ++ [t]) = solid before ++ [t] := by
  rw [solid_append, solid_cons h]
  rfl

theorem Token.solid_concat_delimiter (h : t.kind = .delimiter) :
    solid (before ++ [t]) = solid before := by
  rw [solid_append, solid_cons_delimiter h]
  exact List.append_nil _

theorem Token.kind_ne_delimiter_of_endsOperand (h : t.endsOperand = true) :
    t.kind ≠ .delimiter := by
  intro hk
  simp [endsOperand, hk] at h

theorem operandBefore_concat (h : t.kind ≠ .delimiter) :
    OperandBefore (before ++ [t]) ↔ t.endsOperand = true := by
  simp [OperandBefore, Token.solid_concat h]

theorem operandBefore_concat_delimiter (h : t.kind = .delimiter) :
    OperandBefore (before ++ [t]) ↔ OperandBefore before := by
  rw [OperandBefore, Token.solid_concat_delimiter h, OperandBefore]

theorem operandAfter_cons (h : t.kind ≠ .delimiter) :
    OperandAfter (t :: after) ↔ t.startsOperand = true := by
  simp [OperandAfter, Token.solid_cons h]

theorem operandAfter_cons_delimiter (h : t.kind = .delimiter) :
    OperandAfter (t :: after) ↔ OperandAfter after := by
  rw [OperandAfter, Token.solid_cons_delimiter h, OperandAfter]

theorem callable_concat :
    Callable (before ++ [t]) ↔ t.endsOperand = true ∧ t.kind ≠ .semicolon := by
  simp [Callable]

theorem named_concat :
    Named (before ++ [t]) ↔ t.kind = .word ∧ ∀ p ∈ before.getLast?, p.kind ≠ .period := by
  constructor
  · intro h
    obtain ⟨front, s, he, hs, hp⟩ := h
    obtain ⟨rfl, hts⟩ := List.append_inj' he rfl
    obtain rfl : t = s := by simpa using hts
    exact ⟨hs, hp⟩
  · intro h
    exact ⟨before, t, rfl, h⟩

theorem Grouped.of_concat {callee : List Token} (h : Grouped callee (before ++ [t])) :
    (t.kind = .delimiter ∧ Grouped callee before) ∨ t.kind = .closing .parenthesis := by
  obtain ⟨opener, closer, inside, gap, ho, hc, hi, hg, he⟩ := h
  rcases List.eq_nil_or_concat gap with rfl | ⟨gap, s, rfl⟩
  · have hends : before ++ [t] = (callee ++ opener :: inside) ++ [closer] := by simpa using he
    obtain ⟨-, hlast⟩ := List.append_inj' hends rfl
    obtain rfl : t = closer := by simpa using hlast
    exact .inr hc
  · have hends : before ++ [t] = (callee ++ opener :: (inside ++ closer :: gap)) ++ [s] := by
      simpa using he
    obtain ⟨rfl, hlast⟩ := List.append_inj' hends rfl
    obtain rfl : t = s := by simpa using hlast
    exact .inl ⟨hg t (by simp),
      opener, closer, inside, gap, ho, hc, hi, fun s hs => hg s (by simp [hs]), rfl⟩

theorem grouped_concat_delimiter {callee : List Token} (h : t.kind = .delimiter) :
    Grouped callee (before ++ [t]) ↔ Grouped callee before := by
  constructor
  · intro hg
    exact (hg.of_concat.resolve_right (by simp [h])).2
  · intro hg
    obtain ⟨opener, closer, inside, gap, ho, hc, hi, hgap, rfl⟩ := hg
    refine ⟨opener, closer, inside, gap ++ [t], ho, hc, hi, fun s hs => ?_, by simp⟩
    rcases List.mem_append.1 hs with hs | hs
    · exact hgap s hs
    · rwa [List.mem_singleton.1 hs]

theorem nameable_concat_delimiter (h : t.kind = .delimiter) :
    Nameable (before ++ [t]) ↔ Nameable before := by
  simp only [Nameable, grouped_concat_delimiter h]

theorem nameable_concat (hd : t.kind ≠ .delimiter) (hc : t.kind ≠ .closing .parenthesis) :
    Nameable (before ++ [t]) := by
  intro callee hg
  rcases hg.of_concat with ⟨hk, -⟩ | hk
  · exact absurd hk hd
  · exact absurd hk hc

theorem nameable_nil : Nameable [] := by
  intro callee hg
  obtain ⟨opener, closer, inside, gap, -, -, -, -, he⟩ := hg
  simp at he

end Laws

end TokenForest
