import TokenForest.Proofs.Admission
import TokenForest.Proofs.Failures

set_option autoImplicit false

namespace TokenForest

namespace Balanced

variable {s t opener closer : Token} {b : Bracket} {ts us inside rest stream : List Token}
  {close : Nat}

theorem of_kind_eq (h : Balanced (s :: ts)) (hk : s.kind = t.kind) : Balanced (t :: ts) := by
  cases h with
  | plain hs hts => exact .plain (by rwa [Token.isBracket, ← hk]) hts
  | enclosed ho hc hi hr => exact .enclosed (hk ▸ ho) hc hi hr

theorem after_iff {delimited : Bool} : Balanced (Token.after delimited ts) ↔ Balanced ts := by
  cases ts with
  | nil => cases delimited <;> exact Iff.rfl
  | cons t ts =>
    rw [Token.after_eq_cons]
    exact ⟨fun h => h.of_kind_eq Token.mark_kind, fun h => h.of_kind_eq Token.mark_kind.symm⟩

/-- The search for the closer cuts a balanced stream into a balanced inside and a balanced rest. -/
theorem cut (h : Balanced (opener :: stream)) (ho : opener.kind = .opening b)
    (hc : b.closeFrom 0 stream = some close) :
    Balanced (stream.take close) ∧ Balanced (stream.drop (close + 1)) := by
  obtain ⟨inside, closer, rest, rfl, hk, hi, hr⟩ := h.of_opening ho
  rw [Bracket.closeFrom_balanced rest hi hk, Option.some.injEq] at hc
  subst hc
  simpa using ⟨hi, hr⟩

theorem of_append (h : Balanced (ts ++ us)) (ht : Balanced ts) : Balanced us := by
  induction ht with
  | nil => exact h
  | plain hp _ ih => exact ih (h.of_plain hp)
  | @enclosed b opener closer inside ts ho hc hi _ _ ih =>
    have hlist : opener :: (inside ++ closer :: ts) ++ us =
        opener :: (inside ++ closer :: (ts ++ us)) := by simp
    rw [hlist] at h
    have hrest := (h.cut ho (Bracket.closeFrom_balanced (ts ++ us) hi hc)).2
    exact ih (by simpa using hrest)

theorem append_iff (h : Balanced ts) : Balanced (ts ++ us) ↔ Balanced us :=
  ⟨fun hb => hb.of_append h, fun hu => h.append hu⟩

end Balanced

theorem secondPeriod_split (stream : List Token) :
    ∃ dots, Balanced dots ∧ stream = dots ++ (secondPeriod stream).2 := by
  unfold secondPeriod
  split
  · exact ⟨[], .nil, rfl⟩
  · rename_i t ts
    split
    · rename_i hk
      exact ⟨[t], .single (by simp [Token.isBracket, hk]), rfl⟩
    · exact ⟨[], .nil, rfl⟩

theorem Token.delimited_append {xs ys : List Token} (h : ys ≠ []) :
    delimited (xs ++ ys) = delimited ys := by
  rw [delimited, List.getLast?_append_of_ne_nil _ h, delimited]

/-- A fault of brackets: an enclosure without an end, or a closing bracket without an opener. -/
def Cause.isBracket : Cause → Bool
  | .unclosedGroup _ | .unknownToken _ => true
  | _ => false

/-- A scan that takes balanced parts off the stream, and meets with no fault of brackets where the
stream is balanced. All that it does to the rest is to mark its first token. -/
structure Scan.Nests (scan : Scan) : Prop where
  regular : scan.Regular
  reads : ∀ ⦃t : Token⦄ ⦃ts rest : List Token⦄ ⦃row row' : Row⦄,
    scan t ts row = ⟨.ok (), rest, row'⟩ →
      ∃ read left, t :: ts = read ++ left ∧ read ≠ [] ∧ Balanced read ∧
        rest = Token.after (Token.delimited read) left
  fails : ∀ ⦃t : Token⦄ ⦃ts rest : List Token⦄ ⦃row row' : Row⦄ ⦃f : Fault⦄,
    scan t ts row = ⟨.error f, rest, row'⟩ → Balanced (t :: ts) → f.cause.isBracket = false

namespace Scan.Nests

variable {scan : Scan} {t : Token} {ts stream rest : List Token} {row row' : Row} {limit : Nat}
  {content : List Entry} {f : Fault}

theorem balanced_iff (h : scan.Nests) (hs : scan t ts row = ⟨.ok (), rest, row'⟩) :
    Balanced (t :: ts) ↔ Balanced rest := by
  obtain ⟨read, left, hsplit, -, hread, rfl⟩ := h.reads hs
  rw [hsplit, hread.append_iff, Balanced.after_iff]

theorem runs (h : scan.Nests) (hrun : Runs scan stream row rest row') :
    Balanced stream ↔ Balanced rest := by
  induction hrun with
  | refl => exact Iff.rfl
  | step ht _ ih => exact (h.balanced_iff ht).trans ih

theorem level (h : scan.Nests) (hl : (scan.level limit stream).outcome = .ok content) :
    Balanced stream := by
  obtain ⟨-, row, hrun, -⟩ := (level_eq_ok_iff h.regular.shrinks).1 (h.regular.level_of_outcome hl)
  exact (h.runs hrun).2 .nil

theorem one (h : scan.Nests) (hs : scan.one stream row = ⟨.error f, rest, row'⟩)
    (hb : Balanced stream) : f.cause.isBracket = false := by
  cases stream with
  | nil => cases hs
  | cons t ts => exact h.fails hs hb

theorem level_fails (h : scan.Nests) (hl : (scan.level limit stream).outcome = .error f)
    (hb : Balanced stream) : f.cause.isBracket = false := by
  rcases level_eq_error h.regular.shrinks hl with ⟨t, ts, mid, rest, row', hrun, ht⟩ | ⟨row, -, hf⟩
  · exact h.fails ht ((h.runs hrun).1 hb)
  · obtain ⟨m, -, rfl | rfl⟩ := exists_blames_of_foldMarkers hf <;> rfl

end Scan.Nests

namespace Context

variable {ctx : Context} {token : Token} {stream rest : List Token} {row row' : Row} {f : Fault}

theorem Reads.exists_read (hb : ∀ scan, ctx.below = some scan → scan.Nests)
    (h : ctx.Reads token stream row rest row') :
    ∃ read left, token :: stream = read ++ left ∧ read ≠ [] ∧ Balanced read ∧
      rest = Token.after (Token.delimited read) left := by
  have alone (hk : token.isBracket = false) (hd : token.kind ≠ .delimiter) :
      ∃ read left, token :: stream = read ++ left ∧ read ≠ [] ∧ Balanced read ∧
        stream = Token.after (Token.delimited read) left := by
    refine ⟨[token], stream, rfl, by simp, .single hk, ?_⟩
    have hlast : Token.delimited [token] = false := by simp [Token.delimited, hd]
    rw [hlast]
    rfl
  cases h with
  | delimiter hk =>
    refine ⟨[token], stream, rfl, by simp, .single (by simp [Token.isBracket, hk]), ?_⟩
    have hlast : Token.delimited [token] = true := by simp [Token.delimited, hk]
    rw [hlast]
    rfl
  | atom hn =>
    rcases Token.atom?_cases hn with ⟨hk, -⟩ | hl
    · exact alone (by simp [Token.isBracket, hk]) (by simp [hk])
    · exact alone hl.isBracket (Token.kind_ne_delimiter_of_endsOperand hl.endsOperand)
  | @enclosed b close scan content e below hk hc hbs hl ha hd =>
    obtain ⟨closer, hck, hsplit⟩ := Bracket.closeFrom_split hc
    refine ⟨token :: (stream.take close ++ [closer]), stream.drop (close + 1), ?_, by simp,
      .enclosed hk hck ((hb scan hbs).level hl) .nil, ?_⟩
    · simpa using hsplit
    · rw [← List.cons_append, Token.delimited_concat (by simp [hck])]
      rfl
  | @dot left right below found scan rest hk hr hlo hbs ho hro hd =>
    obtain ⟨u, us, hus, -, hone⟩ := (hb scan hbs).regular.one_eq_ok ho
    obtain ⟨read, left, hsplit, hne, hread, rfl⟩ := (hb scan hbs).reads hone
    obtain ⟨dots, hdots, hd⟩ := secondPeriod_split stream
    refine ⟨token :: (dots ++ read), left, ?_, by simp, .plain ?_ (hdots.append hread), ?_⟩
    · rw [hd, hus, hsplit]
      simp
    · simp [Token.isBracket, hk]
    · rw [← List.cons_append, Token.delimited_append hne]
  | semicolon hk => exact alone (by simp [Token.isBracket, hk]) (by simp [hk])
  | @choice condition below scan op left right depth rest hk hr ho hbs hl hs hd =>
    obtain ⟨rfl, -⟩ := (Scan.level_eq_ok_iff (hb scan hbs).regular.shrinks).1 hl
    have hstream : Balanced stream := (hb scan hbs).level (congrArg Reading.outcome hl)
    refine ⟨token :: stream, [], by simp, by simp, .plain ?_ hstream, ?_⟩
    · simp [Token.isBracket, hk]
    · cases Token.delimited (token :: stream) <;> rfl

theorem Fails.isBracket_eq (hb : ∀ scan, ctx.below = some scan → scan.Nests)
    (h : ctx.Fails token stream row f rest row') (hs : Balanced (token :: stream)) :
    f.cause.isBracket = false := by
  cases h with
  | unknown hk => exact absurd hk hs.not_closing
  | unclosed hk hc =>
    obtain ⟨inside, closer, after, rfl, hck, hi, -⟩ := hs.of_opening hk
    rw [Bracket.closeFrom_balanced after hi hck] at hc
    cases hc
  | inside hk hc hbs hl => exact (hb _ hbs).level_fails hl (hs.cut hk hc).1
  | right hk hr ho hbs hone =>
    obtain ⟨dots, hdots, hd⟩ := secondPeriod_split stream
    have hstream : Balanced stream := hs.of_plain (by simp [Token.isBracket, hk])
    rw [hd] at hstream
    exact (hb _ hbs).one hone (hdots.append_iff.1 hstream)
  | branches hk hr ho hbs hl =>
    refine (hb _ hbs).level_fails (congrArg Reading.outcome hl) (hs.of_plain ?_)
    simp [Token.isBracket, hk]
  | unattached hk hc hbs hl ha =>
    obtain ⟨-, rfl, -⟩ := Bracket.attach_eq_error ha
    rfl
  | number | operator | bare | bareDot | bottomEnclosed | bottomDot | bottomChoice | noRight
  | noColon | tallEnclosed | tallDot | tallStatement | tallChoice => rfl

theorem nests_scan (hb : ∀ scan, ctx.below = some scan → scan.Nests) : ctx.scan.Nests where
  regular := regular_scan fun scan hs => (hb scan hs).regular
  reads _ _ _ _ _ h := (reads_of_scan h).exists_read hb
  fails _ _ _ _ _ _ h := (fails_of_scan h).isBracket_eq hb

end Context

theorem nests_scanWithin (settings : Settings) (room : Nat) :
    (scanWithin settings room).Nests :=
  scanWithin_induction settings (P := Scan.Nests) (fun _ hb => Context.nests_scan hb) room

/-- What is read is properly nested in all three families together, and what is properly nested is
not refused for a bracket. -/
theorem parseWith_balanced (settings : Settings) (tokens : List Token) :
    ((∃ nodes, parseWith settings tokens = .ok nodes) → Balanced tokens) ∧
      (Balanced tokens → ∀ cause position, parseWith settings tokens = .error ⟨cause, position⟩ →
        (∀ close, cause ≠ .unclosedGroup close) ∧ ∀ text, cause ≠ .unknownToken text) := by
  have hn := nests_scanWithin settings settings.maxDepth
  constructor
  · intro h
    obtain ⟨nodes, h⟩ := h
    obtain ⟨content, hl, -⟩ := parseWith_eq_ok_iff.1 h
    exact hn.level (congrArg Reading.outcome hl)
  · intro hb cause position h
    have hfree := hn.level_fails (parseWith_eq_error_iff.1 h) hb
    constructor
    · rintro close rfl
      cases hfree
    · rintro text rfl
      cases hfree

/-- The list f([a, {b}]); with the operator + in place of b it is balanced still, but the operator
has no operands. -/
def bracketTokens (inner : Token) : List Token :=
  .plain .word "f" :: Bracket.parenthesis.enclose (Bracket.square.enclose
    (.plain .word "a" :: .plain .delimiter "," :: Bracket.brace.enclose [inner]))

theorem parseWith_balanced_mixed :
    Balanced (bracketTokens (.plain .word "b")) ∧
      ∃ cause position, parseWith .standard (bracketTokens (.plain .operator "+")) =
          .error ⟨cause, position⟩ ∧
        (∀ close, cause ≠ .unclosedGroup close) ∧ ∀ text, cause ≠ .unknownToken text := by
  refine ⟨(parseWith_balanced .standard _).1 ⟨_, rfl⟩, _, _, rfl, ?_⟩
  refine (parseWith_balanced .standard (bracketTokens (.plain .operator "+"))).2 ?_ _ _ rfl
  have hb : Balanced (Bracket.brace.enclose [.plain .operator "+"]) := .enclose _ (.single rfl)
  exact .plain rfl (.enclose _ (.enclose _ (.plain rfl (.plain rfl hb))))

end TokenForest
