import TokenForest.Proofs.Separation

/-!
Faults that nothing after them can undo. A construct that leaves something of the stream has not
looked beyond its own end, so whatever is appended, a list is read alike up to its first fault.
Where one token is enough for the fault, it stays the first one.
-/

set_option autoImplicit false

namespace TokenForest

/-- A fault that one token is enough for: a closing bracket out of place, a number that is none, or
an operator that is not in the table. -/
def Cause.isLexical : Cause → Bool
  | .unknownToken _ | .invalidNumber _ | .unknownOperator _ => true
  | _ => false

theorem Operator.Blames.isLexical_eq {op : Operator} {limit : Nat} {f : Fault}
    (h : op.Blames limit f) : f.cause.isLexical = false := by
  rcases h with rfl | rfl <;> rfl

/-- A scan that meets with the same lexical fault, whatever is appended to the stream. -/
structure Scan.Insists (scan : Scan) : Prop where
  stops : scan.Stops
  step : ∀ ⦃t : Token⦄ ⦃ts rest : List Token⦄ ⦃row row' : Row⦄ ⦃f : Fault⦄,
    scan t ts row = ⟨.error f, rest, row'⟩ → f.cause.isLexical = true →
      ∀ us, ∃ rest', scan t (ts ++ us) row = ⟨.error f, rest', row'⟩

namespace Scan

variable {scan : Scan} {t : Token} {ts stream rest : List Token} {row row' : Row} {limit : Nat}
  {f : Fault}

theorem Runs.ne_nil (h : Runs scan stream row rest row') (hr : rest ≠ []) : stream ≠ [] := by
  cases h with
  | refl => exact hr
  | step => exact List.cons_ne_nil _ _

theorem Stops.runs_append (h : scan.Stops) (hrun : Runs scan stream row rest row')
    (hr : rest ≠ []) (us : List Token) : Runs scan (stream ++ us) row (rest ++ us) row' := by
  induction hrun with
  | refl => exact .refl _ _
  | step ht hlater ih =>
    have hmid := hlater.ne_nil hr
    exact .step (h.step ht fun hnil => absurd hnil hmid) (ih hr)

theorem Insists.one (h : scan.Insists) (hs : scan.one stream row = ⟨.error f, rest, row'⟩)
    (hf : f.cause.isLexical = true) (us : List Token) :
    stream ≠ [] ∧ ∃ rest', scan.one (stream ++ us) row = ⟨.error f, rest', row'⟩ := by
  cases stream with
  | nil => cases hs
  | cons t ts => exact ⟨List.cons_ne_nil _ _, h.step hs hf us⟩

theorem Insists.level (h : scan.Insists) (hl : (scan.level limit stream).outcome = .error f)
    (hf : f.cause.isLexical = true) (us : List Token) :
    ∃ rest, scan.level limit (stream ++ us) = ⟨.error f, rest⟩ := by
  have hs := h.stops.regular.shrinks
  rcases level_eq_error hs hl with ⟨t, ts, mid, rest, row', hrun, ht⟩ | ⟨row, -, hfold⟩
  · obtain ⟨rest', ht'⟩ := h.step ht hf us
    have hrun' := h.stops.runs_append hrun (List.cons_ne_nil _ _) us
    exact ⟨rest', Runs.level_eq_error hs hrun' ht' limit⟩
  · obtain ⟨m, -, hb⟩ := exists_blames_of_foldMarkers hfold
    rw [hb.isLexical_eq] at hf
    cases hf

end Scan

theorem Context.Fails.append_stream {ctx : Context} {token : Token} {stream rest : List Token}
    {row row' : Row} {f : Fault} (hb : ∀ scan, ctx.below = some scan → scan.Insists)
    (h : ctx.Fails token stream row f rest row') (hf : f.cause.isLexical = true)
    (us : List Token) : ∃ rest', ctx.Fails token (stream ++ us) row f rest' row' := by
  cases h with
  | unknown hk => exact ⟨_, .unknown hk⟩
  | number hk hv => exact ⟨_, .number hk hv⟩
  | operator hk hi => exact ⟨_, .operator hk hi⟩
  | @inside b close scan f hk hc hbs hl =>
    have htake : (stream ++ us).take close = stream.take close :=
      List.take_append_of_le_length (Nat.le_of_lt (Bracket.closeFrom_lt hc))
    exact ⟨_, .inside hk (Bracket.closeFrom_append_right us hc) hbs (by rwa [htake])⟩
  | @right left below found scan f rest hk hr ho hbs hone =>
    obtain ⟨hne, rest', hone'⟩ := (hb scan hbs).one hone hf us
    have hstream : stream ≠ [] := by
      rintro rfl
      exact hne rfl
    have hsecond := congrArg Prod.snd (secondPeriod_append us hstream)
    exact ⟨rest', .right hk hr ho hbs (by rw [hsecond]; exact hone')⟩
  | @branches condition below scan f rest hk hr ho hbs hl =>
    obtain ⟨rest', hl'⟩ := (hb scan hbs).level (congrArg Reading.outcome hl) hf us
    exact ⟨rest', .branches hk hr ho hbs hl'⟩
  | unattached hk hc hbs hl ha =>
    obtain ⟨-, rfl, -⟩ := Bracket.attach_eq_error ha
    cases hf
  | bare | bareDot | unclosed | bottomEnclosed | bottomDot | bottomChoice | noRight | noColon
  | tallEnclosed | tallDot | tallStatement | tallChoice => cases hf

theorem insists_scanWithin (settings : Settings) (room : Nat) :
    (scanWithin settings room).Insists := by
  refine scanWithin_induction settings (P := Scan.Insists) ?_ room
  intro below hb
  refine ⟨Context.stops_scan fun scan hs => (hb scan hs).stops, ?_⟩
  intro t ts rest row row' f h hf us
  obtain ⟨rest', h'⟩ := (Context.fails_of_scan h).append_stream hb hf us
  exact ⟨rest', h'.scan_eq⟩

/-- A lexical fault stays the first fault of a list, whatever is appended. -/
theorem parseWith_append_lexical {settings : Settings} {as : List Token} {f : Fault}
    (h : parseWith settings as = .error f) (hf : f.cause.isLexical = true) (bs : List Token) :
    parseWith settings (as ++ bs) = .error f := by
  have hl := parseWith_eq_error_iff.1 h
  obtain ⟨rest, hl'⟩ := (insists_scanWithin settings _).level hl hf bs
  exact parseWith_eq_error_iff.2 (congrArg Reading.outcome hl')

def misreadTokens : List Token :=
  .plain .word "a" :: .plain .questionMark "?"
    :: Bracket.brace.enclose [⟨.number, "1x", ⟨5, "a ? \x7b1x\x7d"⟩, false⟩]

/-- No colon comes, and then a closing bracket that closes nothing; still the number is at fault. -/
theorem parseWith_append_lexical_branch :
    ∃ f, parseWith .standard misreadTokens = .error f ∧ f.cause.isLexical = true ∧
      parseWith .standard (misreadTokens ++ [.plain (.closing .parenthesis) ")"]) = .error f := by
  have h : parseWith .standard misreadTokens =
      .error ⟨.invalidNumber "1x", ⟨5, "a ? \x7b1x\x7d"⟩⟩ := rfl
  exact ⟨_, h, rfl, parseWith_append_lexical h rfl _⟩

end TokenForest
