import TokenForest.Proofs.Bracketing
import TokenForest.Proofs.Image
import TokenForest.Proofs.Reading

/-!
Where faults come from. Every fault is at a token of the list that is read and carries what that
token says. Only a missing closer is found out elsewhere: at the end of the list, or of the group
around the opener that lacks it.
-/

set_option autoImplicit false

namespace TokenForest

/-- What a fault tells of the token it is at. Where a closer is missing that is nothing: the token
only marks how far the search went. -/
def Cause.Suits (settings : Settings) (t : Token) : Cause → Prop
  | .unclosedGroup _ => True
  | .unknownToken text => (∃ b, t.kind = .closing b) ∧ text = t.text
  | .unexpectedToken text =>
    t.kind ∈ [.period, .questionMark, .semicolon, .opening .brace] ∧ text = t.text
  | .missingOperand symbol =>
    t.kind = .operator ∧ settings.operators.contains t.text = true ∧ symbol = t.text
  | .unknownOperator symbol =>
    t.kind = .operator ∧ settings.operators.contains t.text = false ∧ symbol = t.text
  | .invalidNumber text =>
    t.kind = .number ∧ Binary64.ofLiteral? t.text = none ∧ text = t.text
  | .tooDeep limit =>
    limit = settings.maxDepth ∧
      ((∃ b, t.kind = .opening b) ∨
        t.kind ∈ [.period, .questionMark, .semicolon, .operator])

/-- The group around a part of a list ends right after that part. Its opener stands before the part
with only closed groups in between, and its closer is the first token after the part. -/
def Confined (before part after : List Token) : Prop :=
  ∃ (b : Bracket) (outer : List Token) (opener : Token) (front : List Token),
    before = outer ++ opener :: front ∧ opener.kind = .opening b ∧ Balanced front ∧
      b.closeFrom 0 (front ++ part ++ after) = some (front ++ part).length

/-- An opener of the family that lacks a closer, and how far that was searched: to the end of the
list if no group is open around the opener, and else to the end of that group. -/
def Unclosed (close : String) (searched after : List Token) : Prop :=
  ∃ (b : Bracket) (before : List Token) (opener : Token) (inside : List Token),
    searched = before ++ opener :: inside ∧ opener.kind = .opening b ∧ close = b.closeText ∧
      b.closeFrom 0 inside = none ∧
      (Balanced before ∧ after = [] ∨ Confined before (opener :: inside) after)

/-- The fault is at a token of the list and suits it. A closer is missing in what comes up to that
token. -/
def Fault.Within (settings : Settings) (tokens : List Token) (f : Fault) : Prop :=
  ∃ before t after, tokens = before ++ t :: after ∧ f.position = t.position ∧
    f.cause.Suits settings t ∧
      ∀ close, f.cause = .unclosedGroup close → Unclosed close (before ++ [t]) after

def Token.unmarked (t : Token) : Token := { t with grouping := false }

section Within

variable {settings : Settings} {f : Fault} {t token opener : Token} {close : String} {b : Bracket}
  {i : Nat} {ts us read before part after searched stream rest : List Token} {delimited : Bool}

theorem Cause.Suits.congr {cause : Cause} (h : cause.Suits settings t) (hk : token.kind = t.kind)
    (ht : token.text = t.text) : cause.Suits settings token := by
  cases cause with
  | unclosedGroup => trivial
  | _ => simpa only [Suits, hk, ht] using h

theorem Confined.prepend (h : Confined before part after) (read : List Token) :
    Confined (read ++ before) part after := by
  obtain ⟨b, outer, opener, front, rfl, ho, hf, hc⟩ := h
  exact ⟨b, read ++ outer, opener, front, by simp, ho, hf, hc⟩

theorem Confined.append (h : Confined before part after) (rest : List Token) :
    Confined before part (after ++ rest) := by
  obtain ⟨b, outer, opener, front, rfl, ho, hf, hc⟩ := h
  refine ⟨b, outer, opener, front, rfl, ho, hf, ?_⟩
  rw [← List.append_assoc]
  exact Bracket.closeFrom_append_right rest hc

theorem Fault.Within.here (hp : f.position = token.position) (hs : f.cause.Suits settings token)
    (hc : ∀ close, f.cause ≠ .unclosedGroup close) : f.Within settings (token :: stream) :=
  ⟨[], token, stream, rfl, hp, hs, fun close h => absurd h (hc close)⟩

theorem Fault.Within.prepend (h : f.Within settings ts) (hr : Balanced read) :
    f.Within settings (read ++ ts) := by
  obtain ⟨before, t, after, rfl, hp, hs, hu⟩ := h
  refine ⟨read ++ before, t, after, by simp, hp, hs, fun close hc => ?_⟩
  obtain ⟨b, pre, opener, inside, hsearched, ho, hclose, hnone, hend⟩ := hu close hc
  refine ⟨b, read ++ pre, opener, inside, by simp [hsearched], ho, hclose, hnone, ?_⟩
  rcases hend with ⟨hb, rfl⟩ | hconf
  · exact .inl ⟨hr.append hb, rfl⟩
  · exact .inr (hconf.prepend read)

theorem Fault.Within.enclose (h : f.Within settings (stream.take i))
    (ho : opener.kind = .opening b) (hc : b.closeFrom 0 stream = some i) :
    f.Within settings (opener :: stream) := by
  obtain ⟨before, t, after, htake, hp, hs, hu⟩ := h
  have hi : (stream.take i).length = i := by
    have := Bracket.closeFrom_lt hc
    rw [List.length_take]
    omega
  have hstream : stream = before ++ t :: (after ++ stream.drop i) := by
    conv_lhs => rw [← List.take_append_drop i stream, htake]
    simp
  refine ⟨opener :: before, t, after ++ stream.drop i, by rw [List.cons_append, ← hstream], hp, hs,
    fun close hclose => ?_⟩
  obtain ⟨c, pre, o, inside, hsearched, hok, htext, hnone, hend⟩ := hu close hclose
  refine ⟨c, opener :: pre, o, inside, by simp [hsearched], hok, htext, hnone, .inr ?_⟩
  rcases hend with ⟨hb, rfl⟩ | hconf
  · have hpart : pre ++ o :: inside = stream.take i := by rw [htake, hsearched]
    refine ⟨b, [], opener, pre, rfl, ho, hb, ?_⟩
    rw [hpart, hi, List.nil_append, List.take_append_drop]
    exact hc
  · exact (hconf.prepend [opener]).append _

theorem Token.map_kind_eq (h : ts.map unmarked = us.map unmarked) :
    ts.map kind = us.map kind := by
  have hk : Token.kind ∘ Token.unmarked = Token.kind := rfl
  rw [← hk, ← List.map_map, h, List.map_map]

theorem Confined.congr {before' part' after' : List Token} (h : Confined before part after)
    (hb : before'.map Token.unmarked = before.map Token.unmarked)
    (hp : part'.map Token.unmarked = part.map Token.unmarked)
    (ha : after'.map Token.unmarked = after.map Token.unmarked) :
    Confined before' part' after' := by
  obtain ⟨b, outer, opener, front, rfl, ho, hf, hc⟩ := h
  rw [List.map_append, List.map_cons] at hb
  obtain ⟨outer', tail, rfl, -, hb⟩ := List.map_eq_append_iff.1 hb
  obtain ⟨opener', front', rfl, hok, hb⟩ := List.map_eq_cons_iff.1 hb
  have hlen := congrArg List.length (congrArg₂ (· ++ ·) hb hp)
  simp only [← List.map_append, List.length_map] at hlen
  refine ⟨b, outer', opener', front', rfl, ?_, hf.congr (Token.map_kind_eq hb.symm), ?_⟩
  · exact (congrArg Token.kind hok :).trans ho
  · rw [hlen, ← hc]
    refine Bracket.closeFrom_congr (Token.map_kind_eq ?_)
    simp only [List.map_append, hb, hp, ha]

theorem Fault.Within.congr (h : f.Within settings ts)
    (hu : us.map Token.unmarked = ts.map Token.unmarked) : f.Within settings us := by
  obtain ⟨before, t, after, rfl, hp, hs, hc⟩ := h
  rw [List.map_append, List.map_cons] at hu
  obtain ⟨before', tail, rfl, hb, hu⟩ := List.map_eq_append_iff.1 hu
  obtain ⟨u, after', rfl, ht, ha⟩ := List.map_eq_cons_iff.1 hu
  have hkind : u.kind = t.kind := (congrArg Token.kind ht :)
  have htext : u.text = t.text := (congrArg Token.text ht :)
  have hplace : u.position = t.position := (congrArg Token.position ht :)
  refine ⟨before', u, after', rfl, hp.trans hplace.symm, ?_, fun close hclose => ?_⟩
  · exact hs.congr hkind htext
  · obtain ⟨b, pre, o, inside, hsearched, hok, hclose, hnone, hend⟩ := hc close hclose
    have hmap : (before' ++ [u]).map Token.unmarked =
        pre.map Token.unmarked ++ o.unmarked :: inside.map Token.unmarked := by
      rw [← List.map_cons, ← List.map_append, ← hsearched]
      simp [hb, ht]
    obtain ⟨pre', tail, hsplit, hpre, hmap⟩ := List.map_eq_append_iff.1 hmap
    obtain ⟨o', inside', rfl, ho, hin⟩ := List.map_eq_cons_iff.1 hmap
    refine ⟨b, pre', o', inside', hsplit, (congrArg Token.kind ho :).trans hok, hclose, ?_, ?_⟩
    · rwa [Bracket.closeFrom_congr (Token.map_kind_eq hin)]
    · rcases hend with ⟨hbal, rfl⟩ | hconf
      · exact .inl ⟨hbal.congr (Token.map_kind_eq hpre.symm), List.map_eq_nil_iff.1 ha⟩
      · refine .inr (hconf.congr hpre ?_ ha)
        rw [List.map_cons, List.map_cons, ho, hin]

theorem Fault.Within.of_after (h : f.Within settings (Token.after delimited ts)) :
    f.Within settings ts := by
  refine h.congr ?_
  cases ts with
  | nil => cases delimited <;> rfl
  | cons t ts =>
    rw [Token.after_eq_cons, List.map_cons, List.map_cons]
    congr 1
    cases delimited with
    | false => rfl
    | true =>
      simp only [Token.mark, if_true, Token.grouped]
      split <;> rfl

end Within

theorem Lexeme.Of.operator {t : Token} {symbol : String} {position : Position}
    (h : Lexeme.Of (.symbol symbol (some position)) t) :
    t.kind = .operator ∧ symbol = t.text ∧ position = t.position := by
  obtain ⟨y, hy, hs⟩ := h
  obtain rfl : Lexeme.symbol symbol (some position) = y := hs
  unfold Token.lexeme? at hy
  split at hy <;> simp_all

structure Scan.Locates (settings : Settings) (scan : Scan) : Prop where
  nests : scan.Nests
  faithful : scan.Faithful
  legible : scan.Legible settings
  step : ∀ ⦃t : Token⦄ ⦃ts rest : List Token⦄ ⦃row row' : Row⦄ ⦃f : Fault⦄,
    scan t ts row = ⟨.error f, rest, row'⟩ → f.Within settings (t :: ts)

namespace Scan.Locates

variable {settings : Settings} {scan : Scan} {stream rest : List Token} {row row' : Row}
  {f : Fault} {m : Marker}

theorem exists_operator (h : scan.Locates settings) (hrun : Runs scan stream [] [] row)
    (hm : m ∈ Marker.ordered row.reverse) :
    ∃ t ∈ stream, t.kind = .operator ∧ settings.operators.contains t.text = true ∧
      m.operator.symbol = t.text ∧ m.operator.position = t.position := by
  have hscan := (Marker.ordered_perm _).mem_iff.1 hm
  rw [Splice.scan_eq_waiting] at hscan
  obtain ⟨e, he, hop⟩ := Splice.mem_waiting.1 hscan
  have hrow : e ∈ row := List.mem_reverse.1 (List.fst_mem_of_mem_zipIdx he)
  have hknown : settings.operators.contains m.operator.symbol = true := by
    have hlegible := h.legible.runs hrun legible_nil fun _ => open_nil
    rcases (hlegible.each e hrow).shaped with ⟨op, hop', hk⟩ | ⟨-, hk⟩
    · obtain rfl : m.operator = op := Node.marker.inj (hop.symm.trans hop')
      rw [OperatorTable.contains, hk]
      rfl
    · rw [hop] at hk
      exact absurd rfl hk
  obtain ⟨new, used, hnew, hused, hall⟩ := h.faithful.runs hrun
  have hlexeme : Lexeme.symbol m.operator.symbol (some m.operator.position) ∈ new := by
    have hreading : Node.reading row.nodes = new := by simpa [Row.nodes, Node.reading] using hnew
    rw [← hreading, Node.reading_eq_flatMap]
    refine List.mem_flatMap.2 ⟨e.node, List.mem_map.2 ⟨e, List.mem_reverse.2 hrow, rfl⟩, ?_⟩
    simp [hop, Node.lexemes]
  obtain ⟨i, hi, hx⟩ := List.mem_iff_getElem.1 hlexeme
  have hi' : i < used.length := hall.length_eq ▸ hi
  have hof : Lexeme.Of new[i] used[i] := hall.get hi hi'
  rw [hx] at hof
  obtain ⟨hkind, htext, hplace⟩ := hof.operator
  have hmem : used[i] ∈ Token.lexical stream := by
    rw [hused]
    exact List.mem_append_left _ (List.getElem_mem hi')
  exact ⟨used[i], (List.mem_filter.1 hmem).1, hkind, htext ▸ hknown, htext, hplace⟩

theorem runs (h : scan.Locates settings) (hrun : Runs scan stream row rest row')
    (hf : f.Within settings rest) : f.Within settings stream := by
  induction hrun with
  | refl => exact hf
  | step ht _ ih =>
    obtain ⟨read, left, hsplit, -, hread, rfl⟩ := h.nests.reads ht
    rw [hsplit]
    exact (ih hf).of_after.prepend hread

theorem one (h : scan.Locates settings) (hs : scan.one stream row = ⟨.error f, rest, row'⟩) :
    f.Within settings stream := by
  cases stream with
  | nil => cases hs
  | cons t ts => exact h.step hs

theorem level (h : scan.Locates settings)
    (hl : (scan.level settings.maxDepth stream).outcome = .error f) :
    f.Within settings stream := by
  rcases level_eq_error h.nests.regular.shrinks hl with
    ⟨t, ts, mid, rest, row', hrun, ht⟩ | ⟨row, hrun, hfold⟩
  · exact h.runs hrun (h.step ht)
  · obtain ⟨m, hm, hblame⟩ := exists_blames_of_foldMarkers hfold
    obtain ⟨t, ht, hk, hknown, hsymbol, hplace⟩ := h.exists_operator hrun hm
    obtain ⟨before, after, rfl⟩ := List.append_of_mem ht
    refine ⟨before, t, after, rfl, ?_⟩
    rcases hblame with rfl | rfl
    · exact ⟨hplace, ⟨hk, hknown, hsymbol⟩, nofun⟩
    · exact ⟨hplace, ⟨rfl, .inr (by simp [hk])⟩, nofun⟩

end Scan.Locates

theorem Context.Fails.within {ctx : Context} {token : Token} {stream rest : List Token}
    {row row' : Row} {f : Fault}
    (hb : ∀ scan, ctx.below = some scan → scan.Locates ctx.settings)
    (h : ctx.Fails token stream row f rest row') : f.Within ctx.settings (token :: stream) := by
  have unexpected (hk : token.kind ∈ [TokenKind.period, .questionMark, .semicolon,
      .opening .brace]) : token.unexpected.Within ctx.settings (token :: stream) :=
    .here rfl ⟨hk, rfl⟩ nofun
  have tooDeep (hk : (∃ b, token.kind = .opening b) ∨
      token.kind ∈ [TokenKind.period, .questionMark, .semicolon, .operator]) :
      (ctx.tooDeep token).Within ctx.settings (token :: stream) :=
    .here rfl ⟨rfl, hk⟩ nofun
  cases h with
  | unknown hk => exact .here rfl ⟨⟨_, hk⟩, rfl⟩ nofun
  | number hk hv => exact .here rfl ⟨hk, hv, rfl⟩ nofun
  | operator hk hi => exact .here rfl ⟨hk, by simp [OperatorTable.contains, hi], rfl⟩ nofun
  | bare hk => exact unexpected (by rcases hk with hk | hk <;> simp [hk])
  | bareDot hk | noRight hk => exact unexpected (by simp [hk])
  | noColon hk => exact unexpected (by simp [hk])
  | bottomEnclosed hk | tallEnclosed hk => exact tooDeep (.inl ⟨_, hk⟩)
  | bottomDot hk | bottomChoice hk | tallDot hk | tallStatement hk | tallChoice hk =>
    exact tooDeep (.inr (by simp [hk]))
  | @unclosed b hk hc =>
    -- The search went on to the last token of the stream, or never left its opener.
    obtain ⟨before, hlast⟩ := List.getLast?_eq_some_iff.1
      (List.getLast?_cons : (token :: stream).getLast? = some (stream.getLast?.getD token))
    refine ⟨before, stream.getLast?.getD token, [], hlast, rfl, trivial, ?_⟩
    rintro close ⟨⟩
    exact ⟨b, [], token, stream, hlast.symm, hk, rfl, hc, .inl ⟨.nil, rfl⟩⟩
  | inside hk hc hbs hl => exact ((hb _ hbs).level hl).enclose hk hc
  | right hk hr ho hbs hone =>
    obtain ⟨dots, hdots, hsplit⟩ := secondPeriod_split stream
    have hread : Balanced (token :: dots) := .plain (by simp [Token.isBracket, hk]) hdots
    rw [hsplit]
    exact ((hb _ hbs).one hone).prepend hread
  | branches hk hr ho hbs hl =>
    have hread : Balanced [token] := .single (by simp [Token.isBracket, hk])
    exact ((hb _ hbs).level (congrArg Reading.outcome hl)).prepend hread
  | unattached hk hc hbs hl ha =>
    obtain ⟨rfl, rfl, -⟩ := Bracket.attach_eq_error ha
    exact unexpected (by simp [hk])

theorem locates_scanWithin (settings : Settings) (room : Nat) :
    (scanWithin settings room).Locates settings := by
  refine scanWithin_induction settings (P := Scan.Locates settings) ?_ room
  intro below hb
  refine ⟨Context.nests_scan fun scan hs => (hb scan hs).nests, ?_,
    @Context.legible_scan ⟨settings, below⟩ fun scan hs => (hb scan hs).legible, ?_⟩
  · intro t ts rest row row' h
    refine (Context.reads_of_scan h).faithful fun scan hs => ?_
    exact ⟨(hb scan hs).faithful, (hb scan hs).nests.regular⟩
  · exact fun _ _ _ _ _ _ h => (Context.fails_of_scan h).within hb

/-- Every fault is at a token of the list and carries what that token says, or the limit that was
set. A missing closer is that of an opener at or before the token, and the token is the last one of
the list or of the group around the opener. -/
theorem parseWith_within {settings : Settings} {tokens : List Token} {f : Fault}
    (h : parseWith settings tokens = .error f) : f.Within settings tokens :=
  (locates_scanWithin settings _).level (parseWith_eq_error_iff.1 h)

/-- The tokens of x.f(y, [z), each at its own place. -/
def unclosedTokens : List Token :=
  let token (kind : TokenKind) (text : String) (offset : UInt32) : Token :=
    ⟨kind, text, ⟨offset, "x.f(y, [z)"⟩, false⟩
  [token .word "x" 0, token .period "." 1, token .word "f" 2,
    token (.opening .parenthesis) "(" 3, token .word "y" 4, token .delimiter "," 5,
    token (.opening .square) "[" 7, token .word "z" 8, token (.closing .parenthesis) ")" 9]

/-- The square bracket is searched for up to the end of the call. -/
theorem parseWith_within_unclosed :
    ∃ f, parseWith .standard unclosedTokens = .error f ∧ f.cause = .unclosedGroup "]" ∧
      f.position.offset = 8 ∧ f.Within .standard unclosedTokens := by
  have h : parseWith .standard unclosedTokens =
      .error ⟨.unclosedGroup "]", ⟨8, "x.f(y, [z)"⟩⟩ := rfl
  exact ⟨_, h, rfl, rfl, parseWith_within h⟩

end TokenForest
