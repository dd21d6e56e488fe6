import TokenForest.Proofs.Bracketing

/-!
How the stream gets shorter. Each construct takes a token at least and leaves the others as they
are, also where it fails, so the reader comes to an end. The one thing that it may leave changed is
the parenthesis after a delimiter that it took last.
-/

set_option autoImplicit false

namespace TokenForest

/-- What is left of the tokens after some of them were taken: the others, but that a delimiter
taken last marks the parenthesis right after it. -/
def Remains (ts rest : List Token) : Prop :=
  ∃ read left, ts = read ++ left ∧ read ≠ [] ∧
    (rest = left ∨ ∃ d t later, read.getLast? = some d ∧ d.kind = .delimiter ∧
      left = t :: later ∧ t.kind = .opening .parenthesis ∧
      rest = { t with grouping := true } :: later)

/-- The same, where it is told exactly when there is a mark. -/
def Shortens (ts rest : List Token) : Prop :=
  ∃ read left, ts = read ++ left ∧ read ≠ [] ∧ rest = Token.after (Token.delimited read) left

namespace Shortens

variable {t : Token} {ts us rest read left : List Token} {delimited : Bool}

theorem remains (h : Shortens ts rest) : Remains ts rest := by
  obtain ⟨read, left, hsplit, hne, rfl⟩ := h
  refine ⟨read, left, hsplit, hne, ?_⟩
  cases hd : Token.delimited read with
  | false => exact .inl rfl
  | true =>
    cases left with
    | nil => exact .inl rfl
    | cons t later =>
      rw [Token.after_eq_cons]
      by_cases hk : t.kind = .opening .parenthesis
      · rw [Token.delimited, Option.any_eq_true] at hd
        obtain ⟨d, hlast, hdk⟩ := hd
        refine .inr ⟨d, t, later, hlast, by simpa using hdk, rfl, hk, ?_⟩
        rw [Token.mark, if_pos rfl, Token.grouped, if_pos hk]
      · exact .inl (by rw [Token.mark_of_kind hk])

theorem taken (read : List Token) (hne : read ≠ []) (hd : Token.delimited read = false) :
    Shortens (read ++ left) left :=
  ⟨read, left, rfl, hne, by rw [hd]; rfl⟩

theorem all (hne : ts ≠ []) : Shortens ts [] :=
  ⟨ts, [], by simp, hne, by cases Token.delimited ts <;> rfl⟩

theorem append (h : Shortens ts rest) (us : List Token) : Shortens (us ++ ts) rest := by
  obtain ⟨read, left, rfl, hne, rfl⟩ := h
  refine ⟨us ++ read, left, by simp, by simp [hne], ?_⟩
  rw [Token.delimited_append hne]

theorem of_after (h : Shortens (Token.after delimited ts) rest) : Shortens ts rest := by
  obtain ⟨read, left, hsplit, hne, rfl⟩ := h
  cases read with
  | nil => exact absurd rfl hne
  | cons s read =>
    obtain ⟨t, rfl, rfl⟩ := Token.exists_of_after_eq_cons hsplit
    refine ⟨t :: read, left, rfl, by simp, ?_⟩
    cases read with
    | nil => simp [Token.delimited]
    | cons r read => rfl

end Shortens

/-- A scan that gets on, whatever comes out. -/
structure Scan.Proceeds (scan : Scan) : Prop where
  nests : scan.Nests
  step : ∀ (t : Token) (ts : List Token) (row : Row), Shortens (t :: ts) (scan t ts row).rest

namespace Scan.Proceeds

variable {scan : Scan} {stream mid rest : List Token} {row row' found : Row} {limit : Nat}
  {f : Fault} {outcome : Except Fault Unit} {token : Token}

theorem runs (h : scan.Proceeds) (hrun : Runs scan stream row mid row')
    (hmid : Shortens mid rest) : Shortens stream rest := by
  induction hrun with
  | refl => exact hmid
  | step ht _ ih =>
    obtain ⟨read, left, hsplit, -, -, rfl⟩ := h.nests.reads ht
    rw [hsplit]
    exact (ih hmid).of_after.append read

theorem level (h : scan.Proceeds) (hl : scan.level limit stream = ⟨.error f, rest⟩) :
    Shortens stream rest := by
  unfold Scan.level at hl
  split at hl
  · rename_i rest₁ row hd
    obtain ⟨rfl, -⟩ := runs_of_drain h.nests.regular.shrinks (Nat.le_refl _) hd
    simp only [Reading.mk.injEq] at hl
    obtain ⟨hf, rfl⟩ := hl
    refine .all ?_
    rintro rfl
    cases hd
    cases hf
  · rename_i g rest₁ row hd
    simp only [Reading.mk.injEq] at hl
    obtain ⟨-, rfl⟩ := hl
    obtain ⟨t, ts, mid, hrun, ht⟩ := exists_runs_of_drain hd
    have hlast := h.step t ts mid
    rw [ht] at hlast
    exact h.runs hrun hlast

theorem dots (hk : token.kind = .period) (stream : List Token) :
    Shortens (token :: stream) (secondPeriod stream).2 := by
  unfold secondPeriod
  split
  · exact .all (by simp)
  · rename_i p ts
    split
    · rename_i hp
      exact .taken [token, p] (by simp) (by simp [Token.delimited, hp])
    · exact .taken [token] (by simp) (by simp [Token.delimited, hk])

theorem right (h : scan.Proceeds)
    (hone : scan.one (secondPeriod stream).2 row = ⟨outcome, rest, found⟩) :
    Shortens (token :: stream) rest := by
  cases hsecond : (secondPeriod stream).2 with
  | nil =>
    rw [hsecond] at hone
    cases hone
    exact .all (by simp)
  | cons u us =>
    obtain ⟨dots, -, hsplit⟩ := secondPeriod_split stream
    rw [hsecond] at hone hsplit
    have hlast := h.step u us row
    rw [show scan u us row = ⟨outcome, rest, found⟩ from hone] at hlast
    rw [hsplit]
    exact hlast.append (token :: dots)

end Scan.Proceeds

namespace Context

variable {ctx : Context} {token : Token} {stream rest : List Token} {row row' : Row} {f : Fault}

theorem Fails.shortens (hb : ∀ scan, ctx.below = some scan → scan.Proceeds)
    (h : ctx.Fails token stream row f rest row') : Shortens (token :: stream) rest := by
  have alone (hk : token.kind ≠ .delimiter) : Shortens (token :: stream) stream :=
    .taken [token] (by simp) (by simp [Token.delimited, hk])
  have cut {b : Bracket} {close : Nat} (hc : b.closeFrom 0 stream = some close) :
      Shortens (token :: stream) (stream.drop (close + 1)) := by
    obtain ⟨closer, hck, hsplit⟩ := Bracket.closeFrom_split hc
    have hread : token :: stream =
        (token :: (stream.take close ++ [closer])) ++ stream.drop (close + 1) := by
      simpa using hsplit
    rw [hread]
    refine .taken _ (by simp) ?_
    rw [← List.cons_append, Token.delimited_concat (by simp [hck])]
  have rest_nil {scan : Scan} {limit : Nat} {content : List Entry}
      (hbs : ctx.below = some scan) (hl : scan.level limit stream = ⟨.ok content, rest⟩) :
      rest = [] :=
    ((Scan.level_eq_ok_iff (hb scan hbs).nests.regular.shrinks).1 hl).1
  cases h with
  | unknown hk | number hk | operator hk | unclosed hk | bottomChoice hk | tallStatement hk =>
    exact alone (by simp [hk])
  | bare hk => exact alone (by rcases hk with hk | hk <;> simp [hk])
  | bareDot hk | bottomDot hk => exact Scan.Proceeds.dots hk stream
  | bottomEnclosed hk hc | inside hk hc | unattached hk hc | tallEnclosed hk hc => exact cut hc
  | right hk hr ho hbs hone | noRight hk hr ho hbs hone | tallDot hk hr ho hbs hone =>
    exact (hb _ hbs).right hone
  | branches hk hr ho hbs hl => exact ((hb _ hbs).level hl).append [token]
  | noColon hk hr ho hbs hl | tallChoice hk hr ho hbs hl =>
    rw [rest_nil hbs hl]
    exact .all (by simp)

theorem proceeds_scan (hb : ∀ scan, ctx.below = some scan → scan.Proceeds) :
    ctx.scan.Proceeds where
  nests := nests_scan fun scan hs => (hb scan hs).nests
  step t ts row := by
    cases hs : ctx.scan t ts row with
    | mk outcome rest row' =>
      cases outcome with
      | error f => exact (fails_of_scan hs).shortens hb
      | ok u =>
        obtain ⟨read, left, hsplit, hne, -, hrest⟩ :=
          (reads_of_scan hs).exists_read fun scan hs => (hb scan hs).nests
        exact ⟨read, left, hsplit, hne, hrest⟩

end Context

theorem proceeds_scanWithin (settings : Settings) (room : Nat) :
    (scanWithin settings room).Proceeds :=
  scanWithin_induction settings (P := Scan.Proceeds) (fun _ hb => Context.proceeds_scan hb) room

/-- One construct takes something off a stream that has anything, read or failed. A whole level takes
all of it, or fails and has taken something. -/
theorem Reader.progress (r : Reader) (stream : List Token) :
    (∀ row, stream ≠ [] → Remains stream (r.one stream row).rest) ∧
      (∀ content, (r.stream stream).outcome = .ok content → (r.stream stream).rest = []) ∧
      ∀ f, (r.stream stream).outcome = .error f → Remains stream (r.stream stream).rest := by
  have hscan : r.scan.Proceeds := r.scan_eq ▸ proceeds_scanWithin r.settings r.room
  refine ⟨fun row hne => ?_, fun content hl => ?_, fun f hl => ?_⟩
  · cases stream with
    | nil => exact absurd rfl hne
    | cons t ts => exact (hscan.step t ts row).remains
  · rw [Reader.stream, hscan.nests.regular.level_of_outcome hl]
  · have hlevel : r.scan.level r.settings.maxDepth stream =
        ⟨.error f, (r.stream stream).rest⟩ := by
      rw [← hl]
      rfl
    exact (hscan.level hlevel).remains

/-- The tokens of .,(b, where the delimiter is no right side for the period. -/
def cutTokens : List Token :=
  [.plain .period ".", .plain .delimiter ",", .plain (.opening .parenthesis) "(", .plain .word "b"]

/-- The fault comes after the delimiter, so the parenthesis is left with its mark. -/
theorem Reader.progress_marked :
    cutTokens ≠ [] ∧
      ((Reader.top .standard).one cutTokens [⟨.identifier "a", 0⟩]).rest =
        [⟨.opening .parenthesis, "(", .nowhere, true⟩, .plain .word "b"] ∧
      Remains cutTokens ((Reader.top .standard).one cutTokens [⟨.identifier "a", 0⟩]).rest ∧
      ((Reader.top .standard).stream (.plain .word "a" :: cutTokens)).outcome =
        .error ⟨.unexpectedToken ".", .nowhere⟩ ∧
      Remains (.plain .word "a" :: cutTokens)
        ((Reader.top .standard).stream (.plain .word "a" :: cutTokens)).rest ∧
      ((Reader.top .standard).stream [.plain .word "a"]).rest = [] := by
  have hfault : ((Reader.top .standard).stream (.plain .word "a" :: cutTokens)).outcome =
      .error ⟨.unexpectedToken ".", .nowhere⟩ := rfl
  refine ⟨by simp [cutTokens], rfl, ?_, hfault, ?_, ?_⟩
  · exact (Reader.progress (.top .standard) cutTokens).1 _ (by simp [cutTokens])
  · exact (Reader.progress (.top .standard) (.plain .word "a" :: cutTokens)).2.2 _ hfault
  · exact (Reader.progress (.top .standard) [.plain .word "a"]).2.1 _ rfl

end TokenForest
