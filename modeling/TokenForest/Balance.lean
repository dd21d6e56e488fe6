import TokenForest.Token

set_option autoImplicit false

namespace TokenForest

def Token.isBracket (t : Token) : Bool :=
  match t.kind with
  | .opening _ | .closing _ => true
  | _ => false

inductive Balanced : List Token → Prop where
  | nil : Balanced []
  | plain {t : Token} {ts : List Token} : t.isBracket = false → Balanced ts → Balanced (t :: ts)
  | enclosed {b : Bracket} {opener closer : Token} {inside ts : List Token} :
      opener.kind = .opening b → closer.kind = .closing b →
      Balanced inside → Balanced ts → Balanced (opener :: (inside ++ closer :: ts))

theorem Balanced.append {ts us : List Token} (ht : Balanced ts) (hu : Balanced us) :
    Balanced (ts ++ us) := by
  induction ht with
  | nil => exact hu
  | plain h _ ih => exact .plain h ih
  | enclosed ho hc hi _ _ ih =>
    rw [List.cons_append, List.append_assoc, List.cons_append]
    exact .enclosed ho hc hi ih

/-- Whether the list closes the brackets that are still open, the innermost first, and leaves no
other one open. -/
def Token.closes : List Bracket → List Token → Bool
  | opened, [] => opened.isEmpty
  | opened, t :: ts =>
    match t.kind with
    | .opening b => closes (b :: opened) ts
    | .closing b =>
      match opened with
      | [] => false
      | c :: opened => c == b && closes opened ts
    | _ => closes opened ts

/-- The closers of the open brackets, with balanced parts between them. -/
def Token.Closes : List Bracket → List Token → Prop
  | [], ts => Balanced ts
  | b :: opened, ts => ∃ inside closer rest, ts = inside ++ closer :: rest ∧
      closer.kind = .closing b ∧ Balanced inside ∧ Closes opened rest

section Closes

variable {t : Token} {b : Bracket} {ts us : List Token} {opened : List Bracket}

theorem Token.closes_plain (h : t.isBracket = false) :
    closes opened (t :: ts) = closes opened ts := by
  rw [closes]
  split <;> simp_all [isBracket]

theorem Token.closes_opening (h : t.kind = .opening b) :
    closes opened (t :: ts) = closes (b :: opened) ts := by
  rw [closes, h]

theorem Token.closes_closing (h : t.kind = .closing b) :
    closes (b :: opened) (t :: ts) = closes opened ts := by
  simp [closes, h]

theorem Balanced.closes_append (us : List Token) (h : Balanced ts) :
    Token.closes opened (ts ++ us) = Token.closes opened us := by
  induction h generalizing opened us with
  | nil => rfl
  | plain ht _ ih => rw [List.cons_append, Token.closes_plain ht, ih]
  | enclosed ho hc _ _ ihi iht =>
    rw [List.cons_append, List.append_assoc, List.cons_append, Token.closes_opening ho, ihi,
      Token.closes_closing hc, iht]

theorem Token.Closes.plain (ht : t.isBracket = false) (h : Closes opened ts) :
    Closes opened (t :: ts) := by
  cases opened with
  | nil => exact Balanced.plain ht h
  | cons b opened =>
    obtain ⟨inside, closer, rest, rfl, hc, hi, hr⟩ := h
    exact ⟨t :: inside, closer, rest, rfl, hc, .plain ht hi, hr⟩

theorem Token.Closes.opening (ho : t.kind = .opening b) (h : Closes (b :: opened) ts) :
    Closes opened (t :: ts) := by
  obtain ⟨inside, closer, rest, rfl, hc, hi, hr⟩ := h
  cases opened with
  | nil => exact Balanced.enclosed ho hc hi hr
  | cons d opened =>
    obtain ⟨inside', closer', rest', rfl, hc', hi', hr'⟩ := hr
    exact ⟨t :: (inside ++ closer :: inside'), closer', rest', by simp, hc',
      .enclosed ho hc hi hi', hr'⟩

theorem Token.closes_iff : closes opened ts = true ↔ Closes opened ts := by
  constructor
  · intro h
    induction ts generalizing opened with
    | nil =>
      cases opened with
      | nil => exact Balanced.nil
      | cons b opened => cases h
    | cons t ts ih =>
      cases hk : t.kind with
      | opening b => exact .opening hk (ih (by rwa [closes_opening hk] at h))
      | closing b =>
        cases opened with
        | nil => simp [closes, hk] at h
        | cons c opened =>
          simp only [closes, hk, Bool.and_eq_true, beq_iff_eq] at h
          obtain ⟨rfl, h⟩ := h
          exact ⟨[], t, ts, rfl, hk, .nil, ih h⟩
      | _ =>
        have hp : t.isBracket = false := by simp [isBracket, hk]
        exact .plain hp (ih (by rwa [closes_plain hp] at h))
  · intro h
    induction opened generalizing ts with
    | nil =>
      have hall : closes [] (ts ++ []) = closes [] [] := Balanced.closes_append [] h
      rwa [List.append_nil] at hall
    | cons b opened ih =>
      obtain ⟨inside, closer, rest, rfl, hc, hi, hr⟩ := h
      rw [hi.closes_append, closes_closing hc, ih hr]

instance : DecidablePred Balanced := fun _ => decidable_of_iff _ (@Token.closes_iff _ [])

end Closes

end TokenForest
