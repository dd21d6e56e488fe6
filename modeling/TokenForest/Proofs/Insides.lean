import Mathlib.Algebra.Ring.Int.Defs
import TokenForest.Proofs.Neighbours

set_option autoImplicit false

namespace TokenForest

namespace Token

def rise (t : Token) : Int :=
  match t.kind with
  | .opening _ => 1
  | .closing _ => -1
  | _ => 0

def height (ts : List Token) : Int := (ts.map rise).sum

@[simp] theorem height_nil : height [] = 0 := rfl

@[simp] theorem height_cons (t : Token) (ts : List Token) :
    height (t :: ts) = t.rise + height ts := by
  simp [height]

@[simp] theorem height_append (xs ys : List Token) : height (xs ++ ys) = height xs + height ys := by
  simp [height]

variable {t : Token} {b : Bracket}

theorem rise_opening (h : t.kind = .opening b) : t.rise = 1 := by simp [rise, h]

theorem rise_closing (h : t.kind = .closing b) : t.rise = -1 := by simp [rise, h]

theorem rise_plain (h : t.isBracket = false) : t.rise = 0 := by
  unfold isBracket at h
  unfold rise
  split at h <;> first | rfl | simp_all

end Token

namespace Balanced

variable {t : Token} {b : Bracket} {ts xs ys : List Token}

theorem height_eq_zero (h : Balanced ts) : Token.height ts = 0 := by
  induction h with
  | nil => rfl
  | plain ht _ ih => simp [Token.rise_plain ht, ih]
  | enclosed ho hc _ _ ihi iht =>
    simp [Token.rise_opening ho, Token.rise_closing hc, ihi, iht]

theorem height_prefix (h : Balanced ts) (hs : ts = xs ++ ys) : 0 ≤ Token.height xs := by
  induction h generalizing xs ys with
  | nil =>
    obtain rfl : xs = [] := (List.append_eq_nil_iff.1 hs.symm).1
    exact Int.le_refl _
  | plain ht _ ih =>
    cases xs with
    | nil => exact Int.le_refl _
    | cons x xs =>
      obtain ⟨rfl, htail⟩ := List.cons.inj hs
      simpa [Token.rise_plain ht] using ih htail
  | @enclosed b opener closer inside ts ho hc hi _ ihi iht =>
    cases xs with
    | nil => exact Int.le_refl _
    | cons x xs =>
      obtain ⟨rfl, htail⟩ := List.cons.inj hs
      rw [Token.height_cons, Token.rise_opening ho]
      rcases List.append_eq_append_iff.1 htail with ⟨mid, rfl, hm⟩ | ⟨mid, hm, -⟩
      · rw [Token.height_append, hi.height_eq_zero]
        cases mid with
        | nil => simp
        | cons c mid =>
          obtain ⟨rfl, hts⟩ := List.cons.inj hm
          have := iht hts
          simp only [Token.height_cons, Token.rise_closing hc]
          omega
      · have := ihi hm
        omega

theorem of_plain (h : Balanced (t :: ts)) (ht : t.isBracket = false) : Balanced ts := by
  cases h with
  | plain _ h => exact h
  | enclosed ho => simp [Token.isBracket, ho] at ht

theorem of_opening (h : Balanced (t :: ts)) (ht : t.kind = .opening b) :
    ∃ inside closer rest, ts = inside ++ closer :: rest ∧ closer.kind = .closing b ∧
      Balanced inside ∧ Balanced rest := by
  cases h with
  | plain hp => simp [Token.isBracket, ht] at hp
  | enclosed ho hc hi hr =>
    obtain rfl : _ = b := TokenKind.opening.inj (ho.symm.trans ht)
    exact ⟨_, _, _, rfl, hc, hi, hr⟩

theorem not_closing (h : Balanced (t :: ts)) : t.kind ≠ .closing b := by
  intro ht
  cases h with
  | plain hp => simp [Token.isBracket, ht] at hp
  | enclosed ho => simp [ht] at ho

/-- What is balanced does not reach out of an enclosure that is still open. -/
theorem inside {opener : Token} {pre front : List Token} (h : Balanced ts)
    (ho : opener.kind = .opening b) (hx : Balanced (xs ++ ys))
    (he : pre ++ opener :: xs = front ++ ts) :
    ∃ rest, front = pre ++ opener :: rest ∧ xs = rest ++ ts := by
  have reaches : ∀ mid, ts ≠ mid ++ opener :: xs := by
    intro mid hm
    have hsum := h.height_eq_zero
    have hmid := h.height_prefix hm
    have hxs := hx.height_prefix rfl
    rw [hm, Token.height_append, Token.height_cons, Token.rise_opening ho] at hsum
    omega
  rcases List.append_eq_append_iff.1 he with ⟨mid, rfl, hm⟩ | ⟨mid, -, hm⟩
  · cases mid with
    | nil => exact (reaches [] hm.symm).elim
    | cons o rest =>
      obtain ⟨rfl, hxs⟩ := List.cons.inj hm
      exact ⟨rest, rfl, hxs⟩
  · exact (reaches mid hm).elim

end Balanced

theorem concat_closer (before inside : List Token) (opener closer : Token) :
    before ++ opener :: (inside ++ [closer]) = (before ++ opener :: inside) ++ [closer] := by
  simp

theorem Grouped.callee_eq {opener closer : Token} {callee before inside : List Token} {b : Bracket}
    (h : Grouped callee (before ++ opener :: (inside ++ [closer])))
    (ho : opener.kind = .opening b) (hc : closer.kind = .closing b) (hi : Balanced inside) :
    callee = before := by
  obtain ⟨opener', closer', inside', gap, ho', hc', hi', hg, he⟩ := h
  have hgap : gap = [] := by
    rcases List.eq_nil_or_concat gap with rfl | ⟨front, t, rfl⟩
    · rfl
    · have hlast := congrArg List.getLast? he
      obtain rfl : closer = t := by simpa [List.getLast?_append, List.getLast?_cons] using hlast
      simp [hg closer (by simp)] at hc
  subst hgap
  have hcut : before ++ opener :: inside = (callee ++ [opener']) ++ inside' := by
    have hends : (before ++ opener :: inside) ++ [closer] =
        ((callee ++ [opener']) ++ inside') ++ [closer'] := by simpa using he
    exact (List.append_inj' hends rfl).1
  have hwhole : Balanced (inside ++ []) := by rwa [List.append_nil]
  obtain ⟨rest, hf, hin⟩ := hi'.inside ho hwhole hcut
  rcases List.eq_nil_or_concat rest with rfl | ⟨front, t, rfl⟩
  · exact (List.append_inj' hf rfl).1
  · -- The group would have to begin inside the enclosure that it ends.
    rw [List.concat_eq_append, ← List.cons_append, ← List.append_assoc] at hf
    obtain ⟨-, ht⟩ := List.append_inj' hf rfl
    obtain rfl : opener' = t := by simpa using ht
    have hsum := hi.height_eq_zero
    have hsplit : inside = front ++ opener' :: inside' := by simp [hin]
    have hfront := hi.height_prefix hsplit
    rw [hsplit] at hsum
    simp only [Token.height_append, Token.height_cons, Token.rise_opening ho',
      hi'.height_eq_zero] at hsum
    omega

theorem nameable_group {opener closer : Token} {before inside : List Token}
    (ho : opener.kind = .opening .parenthesis) (hc : closer.kind = .closing .parenthesis)
    (hi : Balanced inside) :
    Nameable (before ++ opener :: (inside ++ [closer])) ↔ (Callable before → Named before) := by
  constructor
  · intro h
    exact h before ⟨opener, closer, inside, [], ho, hc, hi, by simp, rfl⟩
  · intro h callee hg
    rwa [hg.callee_eq ho hc hi]

/-- No neighbour is seen through such a token, and no operand ends with it. -/
structure Token.Bar (t : Token) : Prop where
  ends : t.endsOperand = false
  solid : t.kind ≠ .delimiter
  undotted : t.kind ≠ .period

theorem Token.bar_opening {t : Token} {b : Bracket} (h : t.kind = .opening b) : t.Bar :=
  ⟨by simp [endsOperand, h], by simp [h], by simp [h]⟩

theorem Token.Bar.rise_nonneg {t : Token} (h : t.Bar) : 0 ≤ t.rise := by
  unfold rise
  split
  · decide
  · rename_i hk
    have he := h.ends
    simp [endsOperand, hk] at he
  · exact Int.le_refl _

section Inside

variable {opener closer t q : Token} {b : Bracket} {pre front inside back post callee : List Token}

theorem operandBefore_inside (hq : q.Bar) :
    OperandBefore (pre ++ q :: front) ↔ OperandBefore front := by
  simp only [OperandBefore, Token.solid_append, Token.solid_cons hq.solid, List.getLast?_append,
    List.getLast?_cons]
  cases (Token.solid front).getLast? <;> simp [hq.ends]

theorem operandAfter_inside (hc : closer.kind = .closing b) :
    OperandAfter (back ++ closer :: post) ↔ OperandAfter back := by
  have hk : closer.kind ≠ .delimiter := by simp [hc]
  have hs : closer.startsOperand = false := by simp [Token.startsOperand, hc]
  simp only [OperandAfter, Token.solid_append, Token.solid_cons hk, List.head?_append]
  cases (Token.solid back).head? <;> simp [hs]

theorem callable_inside (hq : q.Bar) : Callable (pre ++ q :: front) ↔ Callable front := by
  simp only [Callable, List.getLast?_append, List.getLast?_cons]
  cases front.getLast? <;> simp [hq.ends]

theorem undotted_inside (hq : q.Bar) :
    (∀ p ∈ (pre ++ q :: front).getLast?, p.kind ≠ .period) ↔
      ∀ p ∈ front.getLast?, p.kind ≠ .period := by
  simp only [List.getLast?_append, List.getLast?_cons]
  cases front.getLast? <;> simp [hq.undotted]

theorem named_inside (hq : q.Bar) : Named (pre ++ q :: front) ↔ Named front := by
  rcases List.eq_nil_or_concat front with rfl | ⟨front, t, rfl⟩
  · have hword : q.kind ≠ .word := by
      intro hk
      simpa [Token.endsOperand, hk] using hq.ends
    rw [named_concat]
    simp [hword, Named]
  · rw [List.concat_eq_append, ← List.cons_append, ← List.append_assoc, named_concat, named_concat,
      undotted_inside hq]

/-- A group at the end does not reach over a bar, if what stands after the bar is balanced. -/
theorem grouped_inside (hq : q.Bar) (hi : Balanced (front ++ back)) :
    Grouped callee (pre ++ q :: front) ↔
      ∃ rest, callee = pre ++ q :: rest ∧ Grouped rest front := by
  constructor
  · intro h
    obtain ⟨o, c, inside, gap, ho, hc, hin, hgap, he⟩ := h
    have hbar : q ∉ c :: gap := by
      intro hm
      rcases List.mem_cons.1 hm with rfl | hm
      · simpa [Token.endsOperand, hc] using hq.ends
      · exact hq.solid (hgap q hm)
    have hafter : ∀ {xs}, front = xs ++ c :: gap → 1 ≤ Token.height xs := by
      intro xs hf
      have hsplit : front ++ back = (xs ++ [c]) ++ (gap ++ back) := by simp [hf]
      have := hi.height_prefix hsplit
      simp only [Token.height_append, Token.height_cons, Token.rise_closing hc,
        Token.height_nil] at this
      omega
    -- A group over the bar would close after the bar what was opened before it.
    have reaches : ∀ mid, o :: (inside ++ c :: gap) ≠ mid ++ q :: front := by
      intro mid hm
      cases mid with
      | nil =>
        have := hafter (List.cons.inj hm).2.symm
        have := hin.height_eq_zero
        omega
      | cons o mid =>
        rcases List.append_eq_append_iff.1 (List.cons.inj hm).2 with
          ⟨xs, -, hxs⟩ | ⟨xs, rfl, hxs⟩
        · exact hbar (hxs ▸ by simp)
        · cases xs with
          | nil => exact hbar ((List.cons.inj hxs).1 ▸ List.mem_cons_self)
          | cons q xs =>
            obtain ⟨rfl, hf⟩ := List.cons.inj hxs
            have := hafter hf
            have := hin.height_eq_zero
            have := hin.height_prefix rfl
            have := hq.rise_nonneg
            simp only [Token.height_append, Token.height_cons] at *
            omega
    rcases List.append_eq_append_iff.1 he with ⟨mid, rfl, hm⟩ | ⟨mid, -, hm⟩
    · cases mid with
      | nil => exact (reaches [] hm.symm).elim
      | cons q rest =>
        obtain ⟨rfl, hf⟩ := List.cons.inj hm
        exact ⟨rest, rfl, o, c, inside, gap, ho, hc, hin, hgap, hf⟩
    · exact (reaches mid hm).elim
  · intro h
    obtain ⟨rest, rfl, o, c, inside, gap, ho, hc, hin, hgap, rfl⟩ := h
    exact ⟨o, c, inside, gap, ho, hc, hin, hgap, by simp⟩

theorem nameable_inside (hq : q.Bar) (hi : Balanced (front ++ back)) :
    Nameable (pre ++ q :: front) ↔ Nameable front := by
  constructor
  · intro h callee hg hc
    have hgroup : Grouped (pre ++ q :: callee) (pre ++ q :: front) :=
      (grouped_inside hq hi).2 ⟨callee, rfl, hg⟩
    exact (named_inside hq).1 (h _ hgroup ((callable_inside hq).2 hc))
  · intro h callee hg hc
    obtain ⟨rest, rfl, hgroup⟩ := (grouped_inside hq hi).1 hg
    exact (named_inside hq).2 (h rest hgroup ((callable_inside hq).1 hc))

theorem takeWhile_inside (hc : closer.kind = .closing b) :
    (back ++ closer :: post).takeWhile Token.isPeriod = back.takeWhile Token.isPeriod := by
  have hp : closer.isPeriod = false := by simp [Token.isPeriod, hc]
  induction back with
  | nil => simp [hp]
  | cons t back ih => simp [List.takeWhile_cons, ih]

theorem dropWhile_inside (hc : closer.kind = .closing b) :
    (back ++ closer :: post).dropWhile Token.isPeriod =
      back.dropWhile Token.isPeriod ++ closer :: post := by
  have hp : closer.isPeriod = false := by simp [Token.isPeriod, hc]
  induction back with
  | nil => simp [hp]
  | cons t back ih =>
    simp only [List.cons_append, List.dropWhile_cons, ih]
    split <;> rfl

theorem Token.fits_inside {table : OperatorTable} (ho : opener.kind = .opening b)
    (hc : closer.kind = .closing b) (hi : Balanced (front ++ t :: back)) :
    t.Fits table (pre ++ opener :: front) (back ++ closer :: post) ↔ t.Fits table front back := by
  have hq : opener.Bar := Token.bar_opening ho
  have hbefore : OperandBefore (pre ++ opener :: front) ↔ OperandBefore front :=
    operandBefore_inside hq
  have hafter : OperandAfter (back ++ closer :: post) ↔ OperandAfter back := operandAfter_inside hc
  have hnext : (∃ s ∈ ((back ++ closer :: post).dropWhile Token.isPeriod).head?,
      s.startsOperand = true) ↔
      ∃ s ∈ (back.dropWhile Token.isPeriod).head?, s.startsOperand = true := by
    have hs : closer.startsOperand = false := by simp [Token.startsOperand, hc]
    rw [dropWhile_inside hc, List.head?_append]
    cases (back.dropWhile Token.isPeriod).head? <;> simp [hs]
  simp only [Token.fits_iff, hbefore, hafter, hnext, undotted_inside hq, takeWhile_inside hc,
    nameable_inside hq hi]

end Inside

end TokenForest
