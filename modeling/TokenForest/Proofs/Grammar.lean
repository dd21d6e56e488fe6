import TokenForest.Proofs.Insides

/-!
A grammar of the accepted token lists. It reads a level from left to right and looks back at the
tokens before, never ahead; that every operator finds its right operand shows only at the end.
-/

set_option autoImplicit false

namespace TokenForest

structure Token.Leaf (t : Token) : Prop where
  kind : t.kind = .word ∨ t.kind = .number ∨ t.kind = .string ∨ t.kind = .comment
  literal : t.kind = .number → (Binary64.ofLiteral? t.text).isSome = true

/-- The last token that is no delimiter can end an operand, if there is one. -/
def Ended (before : List Token) : Prop := ∀ t ∈ (Token.solid before).getLast?, t.endsOperand = true

def Undotted (before : List Token) : Prop := ∀ p ∈ before.getLast?, p.kind ≠ .period

inductive Dots (before : List Token) : List Token → Prop where
  | none : Dots before []
  | one {p : Token} : p.kind = .period → OperandBefore before → Dots before [p]
  | two {p q : Token} : p.kind = .period → q.kind = .period → OperandBefore before →
      Dots before [p, q]

/-- How the tokens of a level may go on after those that were read. -/
inductive Completes (table : OperatorTable) : List Token → List Token → Prop where
  | done {before : List Token} : Ended before → Completes table before []
  | delimiter {t : Token} {before ts : List Token} : t.kind = .delimiter →
      Completes table (before ++ [t]) ts → Completes table before (t :: ts)
  | operator {t : Token} {before ts : List Token} : t.kind = .operator →
      table.contains t.text = true → OperandBefore before →
      Completes table (before ++ [t]) ts → Completes table before (t :: ts)
  | semicolon {t : Token} {before ts : List Token} : t.kind = .semicolon →
      OperandBefore before → Completes table (before ++ [t]) ts → Completes table before (t :: ts)
  | leaf {t : Token} {before dots ts : List Token} : Dots before dots → t.Leaf →
      Completes table (before ++ dots ++ [t]) ts → Completes table before (dots ++ t :: ts)
  | enclosed {b : Bracket} {opener closer : Token} {before dots inside ts : List Token} :
      Dots before dots → opener.kind = .opening b → closer.kind = .closing b →
      (b = .brace → Nameable (before ++ dots)) → Completes table [] inside →
      Completes table (before ++ dots ++ opener :: (inside ++ [closer])) ts →
      Completes table before (dots ++ opener :: (inside ++ closer :: ts))

section Kinds

variable {t : Token} {b : Bracket}

theorem Token.Leaf.endsOperand (h : t.Leaf) : t.endsOperand = true := by
  rcases h.kind with hk | hk | hk | hk <;> simp [Token.endsOperand, hk]

theorem Token.Leaf.startsOperand (h : t.Leaf) : t.startsOperand = true := by
  rcases h.kind with hk | hk | hk | hk <;> simp [Token.startsOperand, hk]

theorem Token.Leaf.isBracket (h : t.Leaf) : t.isBracket = false := by
  rcases h.kind with hk | hk | hk | hk <;> simp [Token.isBracket, hk]

theorem Token.startsOperand_opening (h : t.kind = .opening b) : t.startsOperand = true := by
  simp [startsOperand, h]

theorem Token.endsOperand_closing (h : t.kind = .closing b) : t.endsOperand = true := by
  simp [endsOperand, h]

theorem Token.kind_ne_of_startsOperand (h : t.startsOperand = true) :
    t.kind ≠ .delimiter ∧ t.kind ≠ .period := by
  constructor <;>
    · intro hk
      simp [startsOperand, hk] at h

end Kinds

section Ends

variable {t : Token} {before : List Token}

theorem OperandBefore.ended (h : OperandBefore before) : Ended before := by
  obtain ⟨t, ht, he⟩ := h
  intro s hs
  rwa [Option.some.inj (hs.symm.trans ht)]

theorem ended_nil : Ended [] := by simp [Ended, Token.solid]

theorem ended_concat (h : t.kind ≠ .delimiter) :
    Ended (before ++ [t]) ↔ t.endsOperand = true := by
  simp [Ended, Token.solid_concat h]

theorem ended_concat_delimiter (h : t.kind = .delimiter) :
    Ended (before ++ [t]) ↔ Ended before := by
  rw [Ended, Token.solid_concat_delimiter h, Ended]

theorem undotted_nil : Undotted [] := by simp [Undotted]

theorem undotted_concat : Undotted (before ++ [t]) ↔ t.kind ≠ .period := by simp [Undotted]

end Ends

def FitBetween (table : OperatorTable) (before ts after : List Token) : Prop :=
  ∀ front t back, ts = front ++ t :: back → t.Fits table (before ++ front) (back ++ after)

section FitBetween

variable {table : OperatorTable} {t : Token} {before ts us after : List Token}

theorem fitBetween_nil : FitBetween table before [] after := by
  intro front t back h
  simp at h

theorem fitBetween_cons : FitBetween table before (t :: ts) after ↔
    t.Fits table before (ts ++ after) ∧ FitBetween table (before ++ [t]) ts after := by
  constructor
  · intro h
    refine ⟨by simpa using h [] t ts rfl, fun front s back hs => ?_⟩
    have := h (t :: front) s back (by rw [hs]; rfl)
    simpa using this
  · intro h front s back hs
    cases front with
    | nil =>
      obtain ⟨rfl, rfl⟩ := List.cons.inj hs
      simpa using h.1
    | cons u front =>
      obtain ⟨rfl, htail⟩ := List.cons.inj hs
      have := h.2 front s back htail
      simpa using this

theorem fitBetween_append : FitBetween table before (ts ++ us) after ↔
    FitBetween table before ts (us ++ after) ∧ FitBetween table (before ++ ts) us after := by
  induction ts generalizing before with
  | nil => simp [fitBetween_nil]
  | cons t ts ih => simp [fitBetween_cons, ih, and_assoc]

theorem fitBetween_inside {opener closer : Token} {b : Bracket} {inside post : List Token}
    (ho : opener.kind = .opening b) (hc : closer.kind = .closing b) (hi : Balanced inside) :
    FitBetween table (before ++ [opener]) inside (closer :: post) ↔
      FitBetween table [] inside [] := by
  refine forall_congr' fun front => forall_congr' fun t => forall_congr' fun back => ?_
  refine imp_congr_right fun hs => ?_
  rw [hs] at hi
  rw [List.append_assoc, List.singleton_append, List.nil_append, List.append_nil]
  exact Token.fits_inside ho hc hi

end FitBetween

section Sound

variable {table : OperatorTable} {t s : Token} {before dots ts : List Token} {b : Bracket}

theorem Completes.operandAfter (h : Completes table before ts) (hb : ¬ Ended before) :
    OperandAfter ts := by
  induction h with
  | done he => exact absurd he hb
  | delimiter hk _ ih =>
    exact (operandAfter_cons_delimiter hk).2 (ih (by rwa [ended_concat_delimiter hk]))
  | operator _ _ ho => exact absurd ho.ended hb
  | semicolon _ ho => exact absurd ho.ended hb
  | leaf hd hl =>
    cases hd with
    | none =>
      exact (operandAfter_cons (Token.kind_ne_of_startsOperand hl.startsOperand).1).2
        hl.startsOperand
    | one _ ho => exact absurd ho.ended hb
    | two _ _ ho => exact absurd ho.ended hb
  | enclosed hd ho =>
    cases hd with
    | none => exact (operandAfter_cons (by simp [ho])).2 (Token.startsOperand_opening ho)
    | one _ ho => exact absurd ho.ended hb
    | two _ _ ho => exact absurd ho.ended hb

theorem Token.fits_of_kind {after : List Token} (h : t.kind = .delimiter ∨ t.kind = .word ∨
    t.kind = .string ∨ t.kind = .comment ∨ ∃ b, t.kind = .closing b) :
    t.Fits table before after := by
  rcases h with hk | hk | hk | hk | ⟨b, hk⟩ <;> simp [Token.fits_iff, hk]

theorem Token.Leaf.fits {after : List Token} (h : t.Leaf) : t.Fits table before after := by
  rcases h.kind with hk | hk | hk | hk
  · exact fits_of_kind (by simp [hk])
  · simpa [Token.fits_iff, hk] using h.literal hk
  · exact fits_of_kind (by simp [hk])
  · exact fits_of_kind (by simp [hk])

theorem Token.fits_opening {after : List Token} (hk : t.kind = .opening b)
    (h : b = .brace → Nameable before) : t.Fits table before after := by
  simpa [Token.fits_iff, hk] using h

theorem Dots.fitBetween (h : Dots before dots)
    (hs : s.startsOperand = true) : FitBetween table before dots (s :: ts) := by
  have hp : s.isPeriod = false := by
    simpa [Token.isPeriod] using (Token.kind_ne_of_startsOperand hs).2
  cases h with
  | none => exact fitBetween_nil
  | @one p hk ho =>
    refine fitBetween_cons.2 ⟨?_, fitBetween_nil⟩
    simp [Token.fits_iff, hk, hp, hs, ho]
  | @two p q hk hk' ho =>
    have hq : q.isPeriod = true := by simp [Token.isPeriod, hk']
    refine fitBetween_cons.2 ⟨?_, fitBetween_cons.2 ⟨?_, fitBetween_nil⟩⟩
    · simp [Token.fits_iff, hk, hq, hp, hs, ho]
    · simp [Token.fits_iff, hk, hk']

theorem Dots.append_balanced (h : Dots before dots) (ht : Balanced ts) : Balanced (dots ++ ts) := by
  cases h with
  | none => exact ht
  | one hk => exact .plain (by simp [Token.isBracket, hk]) ht
  | two hk hk' =>
    exact .plain (by simp [Token.isBracket, hk]) (.plain (by simp [Token.isBracket, hk']) ht)

theorem Completes.fits (h : Completes table before ts) :
    Balanced ts ∧ FitBetween table before ts [] := by
  induction h with
  | done => exact ⟨.nil, fitBetween_nil⟩
  | delimiter hk _ ih =>
    obtain ⟨hb, hf⟩ := ih
    exact ⟨.plain (by simp [Token.isBracket, hk]) hb,
      fitBetween_cons.2 ⟨Token.fits_of_kind (.inl hk), hf⟩⟩
  | @operator t before ts hk ht ho hts ih =>
    obtain ⟨hb, hf⟩ := ih
    have hafter : OperandAfter ts := by
      refine hts.operandAfter ?_
      rw [ended_concat (by simp [hk])]
      simp [Token.endsOperand, hk]
    refine ⟨.plain (by simp [Token.isBracket, hk]) hb, fitBetween_cons.2 ⟨?_, hf⟩⟩
    simp [Token.fits_iff, hk, ht, ho, hafter]
  | semicolon hk ho _ ih =>
    obtain ⟨hb, hf⟩ := ih
    refine ⟨.plain (by simp [Token.isBracket, hk]) hb, fitBetween_cons.2 ⟨?_, hf⟩⟩
    simp [Token.fits_iff, hk, ho]
  | leaf hd hl _ ih =>
    have hs := hl.startsOperand
    obtain ⟨hb, hf⟩ := ih
    refine ⟨hd.append_balanced (.plain hl.isBracket hb), fitBetween_append.2 ⟨?_, ?_⟩⟩
    · exact hd.fitBetween hs
    · exact fitBetween_cons.2 ⟨hl.fits, hf⟩
  | @enclosed b opener closer before dots inside ts hd ho hc hn _ _ ihi iht =>
    obtain ⟨hbi, hfi⟩ := ihi
    obtain ⟨hbt, hft⟩ := iht
    have hf : FitBetween table (before ++ dots) (opener :: (inside ++ closer :: ts)) [] := by
      refine fitBetween_cons.2 ⟨Token.fits_opening ho hn, fitBetween_append.2 ⟨?_, ?_⟩⟩
      · exact (fitBetween_inside ho hc hbi).2 hfi
      · refine fitBetween_cons.2 ⟨Token.fits_of_kind (by simp [hc]), ?_⟩
        simpa using hft
    exact ⟨hd.append_balanced (.enclosed ho hc hbi hbt),
      fitBetween_append.2 ⟨hd.fitBetween (Token.startsOperand_opening ho), hf⟩⟩

end Sound

section Complete

variable {table : OperatorTable} {t s : Token} {before dots ts : List Token}

/-- Tokens that fit after others, where no operand is missing or one is to come. -/
structure Fitting (table : OperatorTable) (before ts : List Token) : Prop where
  undotted : Undotted before
  balanced : Balanced ts
  fits : FitBetween table before ts []
  plain : ∀ t ∈ ts, t.kind ≠ .questionMark
  ready : Ended before ∨ OperandAfter ts

theorem Fitting.of_ends (ht : t.endsOperand = true) (hb : Balanced ts)
    (hf : FitBetween table (before ++ [t]) ts []) (hq : ∀ s ∈ ts, s.kind ≠ .questionMark) :
    Fitting table (before ++ [t]) ts where
  undotted := undotted_concat.2 fun hk => by simp [Token.endsOperand, hk] at ht
  balanced := hb
  fits := hf
  plain := hq
  ready := .inl ((ended_concat (Token.kind_ne_delimiter_of_endsOperand ht)).2 ht)

theorem Token.startsOperand_cases (h : t.startsOperand = true) :
    (t.kind = .word ∨ t.kind = .number ∨ t.kind = .string ∨ t.kind = .comment) ∨
      ∃ b, t.kind = .opening b := by
  unfold startsOperand at h
  split at h <;> simp_all

theorem Completes.of_operand (hd : Dots before dots) (hs : s.startsOperand = true)
    (hb : Balanced (s :: ts)) (hf : FitBetween table (before ++ dots) (s :: ts) [])
    (hq : ∀ t ∈ ts, t.kind ≠ .questionMark)
    (ih : ∀ before' ts' : List Token, ts'.length ≤ ts.length → Fitting table before' ts' →
      Completes table before' ts') : Completes table before (dots ++ s :: ts) := by
  obtain ⟨hfs, hfts⟩ := fitBetween_cons.1 hf
  rcases Token.startsOperand_cases hs with hk | ⟨b, hk⟩
  · have hl : s.Leaf := ⟨hk, hfs.literal⟩
    exact .leaf hd hl (ih _ ts (Nat.le_refl _)
      (.of_ends hl.endsOperand (hb.of_plain hl.isBracket) hfts hq))
  · obtain ⟨inside, closer, rest, rfl, hc, hbi, hbr⟩ := hb.of_opening hk
    obtain ⟨hfi, hfc⟩ := fitBetween_append.1 hfts
    have hfr := (fitBetween_cons.1 hfc).2
    rw [List.append_nil] at hfi
    have hlen : (inside ++ closer :: rest).length = inside.length + (rest.length + 1) := by simp
    refine .enclosed hd hk hc (fun hbrace => hfs.brace (by rw [hk, hbrace])) ?_ ?_
    · refine ih [] inside (by omega) ⟨undotted_nil, hbi, ?_, ?_, .inl ended_nil⟩
      · exact (fitBetween_inside hk hc hbi).1 hfi
      · exact fun t ht => hq t (by simp [ht])
    · rw [← List.cons_append, ← List.append_assoc]
      refine ih _ rest (by omega) (.of_ends (Token.endsOperand_closing hc) hbr ?_ ?_)
      · simpa using hfr
      · exact fun t ht => hq t (by simp [ht])

theorem Token.Fits.exists_dots {p : Token} (h : p.Fits table before (ts ++ []))
    (hk : p.kind = .period) (hu : Undotted before) :
    ∃ dots s rest, Dots before dots ∧ s.startsOperand = true ∧ p :: ts = dots ++ s :: rest := by
  obtain ⟨hlen, ho, s, hs, hstart⟩ := h.period hk hu
  rw [List.append_nil] at hlen hs
  cases ts with
  | nil => simp at hs
  | cons q ts =>
    cases hq : q.isPeriod with
    | false =>
      rw [List.dropWhile_cons, hq] at hs
      obtain rfl : q = s := by simpa using hs
      exact ⟨[p], q, ts, .one hk ho, hstart, rfl⟩
    | true =>
      have hqk : q.kind = .period := by simpa [isPeriod] using hq
      cases ts with
      | nil => simp [hq] at hs
      | cons r ts =>
        cases hr : r.isPeriod with
        | true => simp [hq, hr] at hlen
        | false =>
          obtain rfl : r = s := by simpa [hq, hr] using hs
          exact ⟨[p, q], r, ts, .two hk hqk ho, hstart, rfl⟩

theorem Balanced.of_dots (h : Balanced (dots ++ ts)) (hd : Dots before dots) : Balanced ts := by
  cases hd with
  | none => exact h
  | one hk => exact h.of_plain (by simp [Token.isBracket, hk])
  | two hk hk' =>
    exact (h.of_plain (by simp [Token.isBracket, hk])).of_plain (by simp [Token.isBracket, hk'])

theorem Fitting.completes (h : Fitting table before ts) : Completes table before ts := by
  -- By length, since an operand takes several tokens and an inside is a list of its own.
  obtain ⟨n, hn⟩ : ∃ n, ts.length ≤ n := ⟨_, Nat.le_refl _⟩
  induction n generalizing before ts with
  | zero =>
    obtain rfl := List.eq_nil_of_length_eq_zero (Nat.le_zero.1 hn)
    exact .done (h.ready.resolve_right (by simp [OperandAfter, Token.solid]))
  | succ n ih =>
    cases ts with
    | nil => exact .done (h.ready.resolve_right (by simp [OperandAfter, Token.solid]))
    | cons t ts =>
      have hts : ts.length ≤ n := by simpa using hn
      obtain ⟨hft, hfts⟩ := fitBetween_cons.1 h.fits
      have hq : ∀ s ∈ ts, s.kind ≠ .questionMark := fun s hs => h.plain s (by simp [hs])
      have hoperand : t.startsOperand = true → Completes table before (t :: ts) := fun hs =>
        .of_operand .none hs h.balanced (by simpa using h.fits) hq
          fun before' ts' hle hf => ih hf (Nat.le_trans hle hts)
      cases hk : t.kind with
      | word | number | string | comment | opening =>
        exact hoperand (by simp [Token.startsOperand, hk])
      | closing => exact absurd hk h.balanced.not_closing
      | questionMark => exact absurd hk (h.plain t List.mem_cons_self)
      | delimiter =>
        refine .delimiter hk (ih ⟨undotted_concat.2 (by simp [hk]), ?_, hfts, hq, ?_⟩ hts)
        · exact h.balanced.of_plain (by simp [Token.isBracket, hk])
        · rw [ended_concat_delimiter hk, ← operandAfter_cons_delimiter hk]
          exact h.ready
      | operator =>
        obtain ⟨hbefore, hafter⟩ := hft.operator hk
        refine .operator hk (hft.known hk) hbefore
          (ih ⟨undotted_concat.2 (by simp [hk]), ?_, hfts, hq, .inr (by simpa using hafter)⟩ hts)
        exact h.balanced.of_plain (by simp [Token.isBracket, hk])
      | semicolon =>
        refine .semicolon hk (hft.semicolon hk) (ih (.of_ends ?_ ?_ hfts hq) hts)
        · simp [Token.endsOperand, hk]
        · exact h.balanced.of_plain (by simp [Token.isBracket, hk])
      | period =>
        obtain ⟨dots, s, rest, hd, hs, he⟩ := hft.exists_dots hk h.undotted
        have hb := h.balanced
        have hf := h.fits
        rw [he] at hb hf hn ⊢
        refine .of_operand hd hs (hb.of_dots hd) (fitBetween_append.1 hf).2 ?_ ?_
        · intro r hr
          exact h.plain r (by simp [he, hr])
        · intro before' ts' hle hf'
          refine ih hf' ?_
          simp only [List.length_append, List.length_cons] at hn
          omega

end Complete

theorem completes_iff_acceptable {table : OperatorTable} {tokens : List Token}
    (hq : ∀ t ∈ tokens, t.kind ≠ .questionMark) :
    Completes table [] tokens ↔ Acceptable table tokens := by
  constructor
  · intro h
    obtain ⟨hb, hf⟩ := h.fits
    refine ⟨hb, fun before t after hs => ?_⟩
    simpa using hf before t after hs
  · intro h
    refine Fitting.completes ⟨undotted_nil, h.balanced, fun before t after hs => ?_, hq,
      .inl ended_nil⟩
    simpa using h.fits before t after hs

end TokenForest
