import TokenForest.Proofs.Bracketing
import TokenForest.Proofs.Spacing

/-!
Lists put side by side with a delimiter between them. No construct but a choice looks past its own
end on the stream, and none looks below the newest entry of the row. So the first list is read as
if nothing came after it, and the second one as if it stood alone, unless it begins with what
would take the newest entry over.
-/

set_option autoImplicit false

namespace TokenForest

/-- The token stands inside a bracket group. -/
def Enclosed (before : List Token) (t : Token) (after : List Token) : Prop :=
  ∃ (b : Bracket) (opener closer : Token) (pre front back post : List Token),
    opener.kind = .opening b ∧ closer.kind = .closing b ∧ before = pre ++ opener :: front ∧
      after = back ++ closer :: post ∧ Balanced (front ++ t :: back)

def Token.Sheltered (ts : List Token) : Prop :=
  ∀ before q after, ts = before ++ q :: after → q.kind = .questionMark → ¬ Balanced before

/-- What the list begins with takes nothing over, if a delimiter stands before it. -/
def Token.Aloof (ts : List Token) : Prop :=
  ∀ t ∈ (solid ts).head?, t.kind ≠ .opening .square ∧ t.kind ≠ .opening .brace

section Enclosed

variable {t q : Token} {b : Bracket} {before after inside ts us xs ys : List Token}
  {delimited : Bool}

theorem Enclosed.not_balanced (h : Enclosed before t after) : ¬ Balanced before := by
  intro hb
  obtain ⟨b, opener, closer, pre, front, back, post, ho, -, rfl, -, hin⟩ := h
  have hsum := hb.height_eq_zero
  have hpre := hb.height_prefix rfl
  have hfront := hin.height_prefix rfl
  simp only [Token.height_append, Token.height_cons, Token.rise_opening ho] at hsum
  omega

theorem enclosed_of_enclose (hi : Balanced inside) (ht : t.isBracket = false)
    (he : b.enclose inside = before ++ t :: after) : Enclosed before t after := by
  cases before with
  | nil =>
    cases he
    cases ht
  | cons opener front =>
    obtain ⟨rfl, htail⟩ := List.cons.inj he
    rcases List.eq_nil_or_concat after with rfl | ⟨back, closer, rfl⟩
    · obtain ⟨-, hlast⟩ := List.append_inj' htail rfl
      cases hlast
      cases ht
    · have hends : inside ++ [.plain (.closing b) b.closeText] =
          (front ++ t :: back) ++ [closer] := by simpa using htail
      obtain ⟨rfl, hlast⟩ := List.append_inj' hends rfl
      cases hlast
      exact ⟨b, _, .plain (.closing b) b.closeText, [], front, back, [], rfl, rfl, rfl, by simp, hi⟩

namespace Token

theorem Sheltered.head_kind (h : Sheltered (t :: ts)) : t.kind ≠ .questionMark :=
  fun hk => h [] t ts rfl hk .nil

theorem Sheltered.of_append (h : Sheltered (xs ++ ys)) (hx : Balanced xs) : Sheltered ys := by
  rintro before q after rfl hk hb
  exact h (xs ++ before) q after (by simp) hk (hx.append hb)

theorem Sheltered.mark_head (h : Sheltered ts) : Sheltered (Token.after delimited ts) := by
  cases ts with
  | nil => cases delimited <;> exact h
  | cons t ts =>
    rw [after_eq_cons]
    intro before q rest he hk hb
    cases before with
    | nil =>
      obtain ⟨rfl, rfl⟩ := List.cons.inj he
      exact h.head_kind (mark_kind.symm.trans hk)
    | cons s before =>
      obtain ⟨rfl, rfl⟩ := List.cons.inj he
      exact h (t :: before) q rest rfl hk (hb.of_kind_eq mark_kind)

theorem regroup_append (h : ts = [] → Unmarkable us) :
    regroup (ts ++ us) = regroup ts ++ us := by
  cases ts with
  | nil => exact (h rfl).regroup_eq
  | cons t ts => rfl

@[simp] theorem regroup_regroup (ts : List Token) : regroup (regroup ts) = regroup ts := by
  cases ts with
  | nil => rfl
  | cons t ts =>
    by_cases h : t.kind = .opening .parenthesis <;> simp [regroup, grouped, h]

theorem Aloof.of_delimiter (h : Aloof (t :: ts)) (hk : t.kind = .delimiter) :
    Aloof (regroup ts) := by
  rw [Aloof, solid_cons_delimiter hk] at h
  cases ts with
  | nil => exact h
  | cons s ts =>
    rw [regroup]
    by_cases hd : s.kind = .delimiter
    · rwa [Aloof, solid_cons_delimiter (by simpa using hd), ← solid_cons_delimiter hd]
    · rw [solid_cons hd] at h
      rw [Aloof, solid_cons (by simpa using hd)]
      rintro r ⟨⟩
      simpa using h s rfl

end Token

end Enclosed

section Streams

variable {ts us : List Token}

theorem secondPeriod_append (us : List Token) (h : ts ≠ []) :
    secondPeriod (ts ++ us) = ((secondPeriod ts).1, (secondPeriod ts).2 ++ us) := by
  cases ts with
  | nil => exact absurd rfl h
  | cons t ts =>
    rw [List.cons_append, secondPeriod, secondPeriod]
    split <;> rfl

/-- A scan that leaves what is appended to the stream. It might take more only where it leaves
nothing: a choice reads on to the end, and a delimiter there marks what comes next. -/
structure Scan.Stops (scan : Scan) : Prop where
  regular : scan.Regular
  step : ∀ ⦃t : Token⦄ ⦃ts us rest : List Token⦄ ⦃row row' : Row⦄,
    scan t ts row = ⟨.ok (), rest, row'⟩ →
      (rest = [] → (row ≠ [] → t.kind ≠ .questionMark) ∧ Token.Unmarkable us) →
        scan t (ts ++ us) row = ⟨.ok (), rest ++ us, row'⟩

theorem Context.Reads.append_stream {ctx : Context} {token : Token} {stream rest : List Token}
    {row row' : Row} (hb : ∀ scan, ctx.below = some scan → scan.Stops)
    (h : ctx.Reads token stream row rest row')
    (hend : rest = [] → (row ≠ [] → token.kind ≠ .questionMark) ∧ Token.Unmarkable us) :
    ctx.Reads token (stream ++ us) row (rest ++ us) row' := by
  cases h with
  | delimiter hk =>
    rw [← Token.regroup_append fun hs => (hend (by rw [hs]; rfl)).2]
    exact .delimiter hk
  | atom hn => exact .atom hn
  | @enclosed b close scan content e below hk hclose hbs hl ha hd =>
    have hlt := Bracket.closeFrom_lt hclose
    have htake : (stream ++ us).take close = stream.take close :=
      List.take_append_of_le_length (Nat.le_of_lt hlt)
    have hdrop : (stream ++ us).drop (close + 1) = stream.drop (close + 1) ++ us :=
      List.drop_append_of_le_length hlt
    rw [← hdrop]
    exact .enclosed hk (Bracket.closeFrom_append_right us hclose) hbs (by rwa [htake]) ha hd
  | @dot left right below found scan rest hk hr hlo hbs ho hro hd =>
    obtain ⟨u, us', hsecond, rfl, hone⟩ := (hb scan hbs).regular.one_eq_ok ho
    have hne : stream ≠ [] := by
      rintro rfl
      cases hsecond
    have hpair := secondPeriod_append us hne
    have hfirst : (secondPeriod (stream ++ us)).1 = (secondPeriod stream).1 := by rw [hpair]
    have hlater : scan.one (secondPeriod (stream ++ us)).2 [] = ⟨.ok (), rest ++ us, [right]⟩ := by
      rw [hpair, hsecond]
      exact (hb scan hbs).step hone fun hr => ⟨fun h => absurd rfl h, (hend hr).2⟩
    rw [← hfirst] at hd ⊢
    exact .dot hk hr hlo hbs hlater hro hd
  | semicolon hk hr ho hd => exact .semicolon hk hr ho hd
  | @choice condition below scan op left right depth rest hk hr ho hbs hl =>
    -- The only construct that would take what is appended for its own.
    obtain ⟨rfl, -⟩ := (Scan.level_eq_ok_iff (hb scan hbs).regular.shrinks).1 hl
    exact absurd hk ((hend rfl).1 (by simp [hr]))

theorem Context.stops_scan {ctx : Context} (hb : ∀ scan, ctx.below = some scan → scan.Stops) :
    ctx.scan.Stops where
  regular := regular_scan fun scan hs => (hb scan hs).regular
  step _ _ _ _ _ _ h hend := ((reads_of_scan h).append_stream hb hend).scan_eq

theorem stops_scanWithin (settings : Settings) (room : Nat) :
    (scanWithin settings room).Stops :=
  scanWithin_induction settings (P := Scan.Stops) (fun _ hb => Context.stops_scan hb) room

theorem Scan.Stops.runs {scan : Scan} {stream rest : List Token} {row row' : Row}
    (h : scan.Stops) (hn : scan.Nests) (hrun : Runs scan stream row rest row')
    (hs : Token.Sheltered stream) (hu : Token.Unmarkable us) :
    Runs scan (stream ++ us) row (rest ++ us) row' := by
  induction hrun with
  | refl => exact .refl _ _
  | step ht _ ih =>
    obtain ⟨read, left, hsplit, -, hread, rfl⟩ := hn.reads ht
    have hleft : Token.Sheltered left := Token.Sheltered.of_append (hsplit ▸ hs) hread
    exact .step (h.step ht fun _ => ⟨fun _ => hs.head_kind, hu⟩) (ih hleft.mark_head)

end Streams

section Rows

variable {ctx : Context} {token : Token} {content : List Entry} {b : Bracket}
  {stream rest : List Token} {row row' below : Row} {e : Entry}

theorem Bracket.Attaches.append_row (h : Attaches token content b row e below) (hr : row ≠ [])
    (under : Row) : Attaches token content b (row ++ under) e (below ++ under) := by
  cases h with
  | call hg ho hk => exact .call hg ho hk
  | group hf => exact .group (by rwa [List.head?_append_of_ne_nil _ hr])
  | index ho => exact .index ho
  | set hn => exact .set (by rwa [List.head?_append_of_ne_nil _ hr])
  | named => exact .named
  | anonymous => exact .anonymous
  | block hk => exact .block (by rwa [List.head?_append_of_ne_nil _ hr])

namespace Context

/-- No construct looks below the newest entry, and none leaves a row empty that was not. -/
theorem Reads.append_row (h : ctx.Reads token stream row rest row') (hr : row ≠ [])
    (under : Row) : ctx.Reads token stream (row ++ under) rest (row' ++ under) ∧ row' ≠ [] := by
  cases h with
  | delimiter hk => exact ⟨.delimiter hk, hr⟩
  | atom hn => exact ⟨.atom hn, List.cons_ne_nil _ _⟩
  | enclosed hk hc hbs hl ha hd =>
    have ha' := ((Bracket.attaches_of_attach ha).append_row hr under).attach_eq
    exact ⟨.enclosed hk hc hbs hl ha' hd, List.cons_ne_nil _ _⟩
  | dot hk hrow hlo hbs ho hro hd =>
    subst hrow
    exact ⟨.dot hk rfl hlo hbs ho hro hd, List.cons_ne_nil _ _⟩
  | semicolon hk hrow ho hd =>
    subst hrow
    exact ⟨.semicolon hk rfl ho hd, List.cons_ne_nil _ _⟩
  | choice hk hrow ho hbs hl hs hd =>
    subst hrow
    exact ⟨.choice hk rfl ho hbs hl hs hd, List.cons_ne_nil _ _⟩

/-- The first construct of a list, with the mark of a delimiter before it, takes nothing of the row
over that it is put on. -/
theorem Reads.on_row (h : ctx.Reads token stream [] rest row') (hd : token.kind ≠ .delimiter)
    (hs : token.kind ≠ .opening .square) (hb : token.kind ≠ .opening .brace) (under : Row) :
    ctx.Reads token.grouped stream under rest (row' ++ under) ∧ row' ≠ [] := by
  cases h with
  | delimiter hk => exact absurd hk hd
  | atom hn =>
    refine ⟨.atom ?_, List.cons_ne_nil _ _⟩
    have hk : token.kind ≠ .opening .parenthesis := by
      intro hk
      simp [Token.atom?, hk] at hn
    rwa [Token.grouped, if_neg hk]
  | @enclosed b close scan content e below hk hc hbs hl ha hd =>
    cases b with
    | parenthesis =>
      cases Bracket.attaches_of_attach ha with
      | group =>
        have hmark : token.grouped.grouping = true := by simp [Token.grouped, hk]
        have ha' : Bracket.Attaches token.grouped content .parenthesis under _ under :=
          .group fun hg => absurd (hmark.symm.trans hg) (by simp)
        exact ⟨.enclosed (by simpa using hk) hc hbs hl ha'.attach_eq hd, List.cons_ne_nil _ _⟩
    | brace => exact absurd hk hb
    | square => exact absurd hk hs
  | dot hk hrow => cases hrow
  | semicolon hk hrow => cases hrow
  | choice hk hrow => cases hrow

theorem runs_append_row (h : ctx.scan.Runs stream row rest row') (hr : row ≠ []) (under : Row) :
    ctx.scan.Runs stream (row ++ under) rest (row' ++ under) := by
  induction h with
  | refl => exact .refl _ _
  | step ht _ ih =>
    obtain ⟨hread, hne⟩ := (reads_of_scan ht).append_row hr under
    exact .step hread.scan_eq (ih hne)

theorem runs_on_row (h : ctx.scan.Runs stream row rest row') (hr : row = []) (hrest : rest = [])
    (ha : Token.Aloof stream) (under : Row) :
    ctx.scan.Runs (Token.regroup stream) under [] (row' ++ under) := by
  induction h with
  | refl =>
    subst hr hrest
    exact .refl _ _
  | @step t ts mid rest row row₁ row' ht hrun ih =>
    subst hr
    have hread := reads_of_scan ht
    by_cases hd : t.kind = .delimiter
    · -- The mark is passed on, and a mark more or less is all the same on an empty row.
      have hskip := ht.symm.trans (Reads.delimiter hd).scan_eq
      cases hskip
      have hmid := ih rfl hrest (ha.of_delimiter hd)
      rw [Token.regroup_regroup] at hmid
      have hfirst : t.grouped.kind = .delimiter := by simpa using hd
      exact .step (Reads.delimiter hfirst).scan_eq hmid
    · obtain ⟨hs, hb⟩ := ha t (by simp [Token.solid_cons hd])
      obtain ⟨hread', hne⟩ := hread.on_row hd hs hb under
      subst hrest
      exact .step hread'.scan_eq (runs_append_row hrun hne under)

end Context

end Rows

theorem Row.Legible.fold_append {settings : Settings} {row row' : Row} {out out' : List Entry}
    (h : row.Legible settings) (h' : row'.Legible settings)
    (hf : foldMarkers settings.maxDepth row.reverse = .ok out)
    (hf' : foldMarkers settings.maxDepth row'.reverse = .ok out') :
    foldMarkers settings.maxDepth (row' ++ row).reverse = .ok (out ++ out') := by
  obtain ⟨forest, ho, hflat, rfl, hd⟩ := h.exists_forest hf
  obtain ⟨forest', ho', hflat', rfl, hd'⟩ := h'.exists_forest hf'
  rw [List.reverse_append, ← hflat, ← hflat', ← List.flatMap_append, ← List.map_append]
  refine Expression.foldMarkers_flatten (fun x hx => ?_) fun x hx => ?_
  · exact (List.mem_append.1 hx).elim (ho x) (ho' x)
  · rcases List.mem_append.1 hx with hx | hx
    · exact (hd x hx).elim id id
    · exact (hd' x hx).elim id id

theorem Reader.list_eq_ok_iff {r : Reader} {tokens : List Token} {content : List Entry} :
    r.list tokens = .ok content ↔ ∃ row, r.context.scan.Runs tokens [] [] row ∧
      foldMarkers r.settings.maxDepth row.reverse = .ok content := by
  have hr : r.scan.Regular := r.scan_eq ▸ regular_scanWithin r.settings r.room
  constructor
  · intro h
    exact ((Scan.level_eq_ok_iff hr.shrinks).1 (hr.level_of_outcome h)).2
  · intro h
    exact congrArg Reading.outcome ((Scan.level_eq_ok_iff hr.shrinks).2 ⟨rfl, h⟩)

/-- Two lists with a delimiter between them are read as the one and then the other, each with the
entries and the depths that it has alone. -/
theorem Reader.list_append {r : Reader} {as bs : List Token} {d : Token} {ns ms : List Entry}
    (ha : r.list as = .ok ns) (hb : r.list bs = .ok ms) (hd : d.kind = .delimiter)
    (hchoice : ∀ before q after, as = before ++ q :: after → q.kind = .questionMark →
      Enclosed before q after)
    (hfirst : ∀ t ∈ (Token.solid bs).head?,
      t.kind ≠ .opening .square ∧ t.kind ≠ .opening .brace) :
    r.list (as ++ d :: bs) = .ok (ns ++ ms) := by
  obtain ⟨rowA, hrunA, hfoldA⟩ := list_eq_ok_iff.1 ha
  obtain ⟨rowB, hrunB, hfoldB⟩ := list_eq_ok_iff.1 hb
  have hscan : r.context.scan = scanWithin r.settings r.room := r.scan_eq
  have hlegible : r.context.scan.Legible r.settings := hscan ▸ legible_scanWithin _ _
  have hstops : r.context.scan.Stops := hscan ▸ stops_scanWithin _ _
  have hnests : r.context.scan.Nests := hscan ▸ nests_scanWithin _ _
  have hshelter : Token.Sheltered as := fun before q after he hk =>
    (hchoice before q after he hk).not_balanced
  have hfront : r.context.scan.Runs (as ++ d :: bs) [] (d :: bs) rowA :=
    hstops.runs hnests hrunA hshelter (Token.unmarkable_delimiter hd bs)
  have hmid : r.context.scan.Runs (d :: bs) rowA (Token.regroup bs) rowA :=
    .single (Context.Reads.delimiter hd).scan_eq
  have hback : r.context.scan.Runs (Token.regroup bs) rowA [] (rowB ++ rowA) :=
    Context.runs_on_row hrunB rfl rfl hfirst rowA
  have hlegibleA := hlegible.runs hrunA Scan.legible_nil fun _ => Scan.open_nil
  have hlegibleB := hlegible.runs hrunB Scan.legible_nil fun _ => Scan.open_nil
  exact list_eq_ok_iff.2 ⟨_, (hfront.trans hmid).trans hback,
    hlegibleA.fold_append hlegibleB hfoldA hfoldB⟩

def choiceGroup : List Token :=
  Bracket.parenthesis.enclose [.plain .word "a", .plain .questionMark "?", .plain .word "b",
    .plain .operator ":", .plain .word "c"]

def groupedSum : List Token :=
  Bracket.parenthesis.enclose [.plain .word "d"] ++ [.plain .operator "+", .plain .word "e"]

def choiceEntries : List Entry :=
  [⟨.group [.ternary (.identifier "a") (.identifier "b") (.identifier "c")], 2⟩]

def sumEntries : List Entry :=
  [⟨.binary ⟨"+", "add", 13, .nowhere⟩ (.group [.identifier "d"]) (.identifier "e"), 2⟩]

/-- Without the delimiter the sum would begin with a call. -/
theorem Reader.list_append_choice :
    (Reader.top .standard).list choiceGroup = .ok choiceEntries ∧
      (Reader.top .standard).list groupedSum = .ok sumEntries ∧
      (Reader.top .standard).list (choiceGroup ++ .plain .delimiter "," :: groupedSum) =
        .ok (choiceEntries ++ sumEntries) := by
  refine ⟨rfl, rfl, Reader.list_append rfl rfl rfl (fun before q after he hk => ?_) ?_⟩
  · refine enclosed_of_enclose ?_ (by simp [Token.isBracket, hk]) he
    exact .plain rfl (.plain rfl (.plain rfl (.plain rfl (.single rfl))))
  · decide

end TokenForest
