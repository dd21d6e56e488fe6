import TokenForest.Proofs.Mirrors
import TokenForest.Proofs.Rereading

/-!
What is read, the grammar reads too. Whether an operator stands on an operand shows only when the
level is folded, so that is carried back from the end of the level to every token of it.
-/

set_option autoImplicit false

namespace TokenForest

/-- Every marker of the row stands on an operand. -/
structure Row.Placed (row : Row) : Prop where
  oldest : ∀ e ∈ row.getLast?, e.isOperand = true
  chain : row.IsChain fun newer older => newer.isOperand = true ∨ older.isOperand = true

section Placed

variable {settings : Settings} {row below : Row} {e : Entry} {content : List Entry} {b : Bracket}
  {token : Token}

theorem Row.placed_nil : Row.Placed [] := ⟨by simp, List.isChain_nil⟩

theorem Row.placed_cons : Row.Placed (e :: below) ↔
    (e.isOperand = true ∨ ∃ f ∈ below.head?, f.isOperand = true) ∧ Row.Placed below := by
  cases below with
  | nil =>
    constructor
    · intro h
      exact ⟨.inl (h.oldest e rfl), placed_nil⟩
    · intro h
      obtain ⟨ho, -⟩ := h
      exact ⟨by simpa using ho, List.isChain_singleton _⟩
  | cons f below =>
    constructor
    · intro h
      obtain ⟨hef, hc⟩ := List.isChain_cons_cons.1 h.chain
      exact ⟨by simpa using hef, by simpa using h.oldest, hc⟩
    · intro h
      obtain ⟨hef, hp⟩ := h
      exact ⟨by simpa using hp.oldest, List.isChain_cons_cons.2 ⟨by simpa using hef, hp.chain⟩⟩

theorem Row.placed_cons_operand (h : e.isOperand = true) :
    Row.Placed (e :: below) ↔ Row.Placed below := by
  rw [placed_cons]
  exact and_iff_right (.inl h)

theorem Row.Placed.wellPlaced (h : row.Placed) (hh : ∀ e ∈ row.head?, e.isOperand = true) :
    WellPlaced row.reverse := by
  refine .of_isChain (by simpa using h.oldest) (by simpa using hh) ?_
  exact List.isChain_reverse.2 (h.chain.imp fun _ _ ho => ho.symm)

theorem Row.Legible.placed {limit : Nat} (h : row.Legible settings)
    (hf : foldMarkers limit row.reverse = .ok content) :
    row.Placed ∧ ∀ e ∈ row.head?, e.isOperand = true := by
  obtain ⟨forest, ho, hflat, rfl, -⟩ := h.exists_forest hf
  have hhead := Expression.isOperand_head_flatMap ho
  have hlast := Expression.isOperand_getLast_flatMap ho
  have hchain := Expression.isChain_flatMap ho
  rw [hflat] at hhead hlast hchain
  refine ⟨⟨by simpa using hhead, ?_⟩, by simpa using hlast⟩
  exact (List.isChain_reverse.1 hchain).imp fun _ _ ho => ho.symm

theorem Bracket.Attaches.isOperand (h : Attaches token content b row e below) :
    e.isOperand = true := by
  cases h <;> rfl

theorem Bracket.Attaches.placed_iff (h : Attaches token content b row e below) :
    Row.Placed (e :: below) ↔ Row.Placed row := by
  rw [Row.placed_cons_operand h.isOperand]
  cases h with
  | call _ ho => exact (Row.placed_cons_operand ho).symm
  | index ho => exact (Row.placed_cons_operand ho).symm
  | named | anonymous => exact (Row.placed_cons_operand rfl).symm
  | group | set | block => exact Iff.rfl

end Placed

/-- A token as a reader is given it, outside a choice. -/
structure Token.Plain (t : Token) : Prop where
  ungrouped : t.grouping = false
  kind_ne : t.kind ≠ .questionMark

/-- A token as it is read, with the mark of a delimiter before it or without. -/
def Token.mark (delimited : Bool) (t : Token) : Token := if delimited then t.grouped else t

section Marks

variable {t : Token} {delimited : Bool}

theorem Token.after_eq_cons (delimited : Bool) (t : Token) (ts : List Token) :
    after delimited (t :: ts) = t.mark delimited :: ts := by
  cases delimited <;> rfl

theorem Token.eq_nil_of_after {ts : List Token} (h : after delimited ts = []) : ts = [] := by
  cases ts with
  | nil => rfl
  | cons t ts => simp [after_eq_cons] at h

theorem Token.exists_of_after_eq_cons {s : Token} {ts us : List Token}
    (h : after delimited ts = s :: us) : ∃ t, ts = t :: us ∧ s = t.mark delimited := by
  cases ts with
  | nil => cases delimited <;> cases h
  | cons t ts =>
    rw [after_eq_cons] at h
    obtain ⟨rfl, rfl⟩ := List.cons.inj h
    exact ⟨t, rfl, rfl⟩

theorem Token.mark_of_kind (h : t.kind ≠ .opening .parenthesis) : t.mark delimited = t := by
  cases delimited <;> simp [mark, grouped, h]

@[simp] theorem Token.mark_kind : (t.mark delimited).kind = t.kind := by
  cases delimited
  · rfl
  · simp only [mark, if_true, grouped]
    split <;> rfl

theorem Token.mark_grouping (hg : t.grouping = false) (hk : t.kind = .opening .parenthesis) :
    (t.mark delimited).grouping = delimited := by
  cases delimited <;> simp [mark, grouped, hk, hg]

theorem Token.mark_atom? {table : OperatorTable} {n : Node}
    (h : (t.mark delimited).atom? table = some n) : t.atom? table = some n := by
  have hk : t.kind ≠ .opening .parenthesis := by
    intro hk
    simp [atom?, hk] at h
  rwa [mark_of_kind hk] at h

theorem Token.atom?_cases {table : OperatorTable} {n : Node} (h : t.atom? table = some n) :
    (t.kind = .operator ∧ table.contains t.text = true ∧ n.isOperand = false) ∨ t.Leaf := by
  unfold atom? at h
  split at h
  · rename_i hk
    exact .inr ⟨by simp [hk], by simp [hk]⟩
  · rename_i hk
    obtain ⟨value, hv, -⟩ := Option.map_eq_some_iff.1 h
    exact .inr ⟨by simp [hk], by simp [hv]⟩
  · rename_i hk
    exact .inr ⟨by simp [hk], by simp [hk]⟩
  · rename_i hk
    exact .inr ⟨by simp [hk], by simp [hk]⟩
  · rename_i hk
    obtain ⟨info, hi, rfl⟩ := Option.map_eq_some_iff.1 h
    exact .inl ⟨hk, by simp [OperatorTable.contains, hi], rfl⟩
  · cases h

end Marks

theorem Token.Leaf.delimited {t : Token} {before : List Token} (h : t.Leaf) :
    Token.delimited (before ++ [t]) = false :=
  Token.delimited_concat (Token.kind_ne_delimiter_of_endsOperand h.endsOperand)

/-- The tokens of one operand that takes nothing over, whatever stands inside its brackets. -/
inductive Operand : List Token → Prop where
  | leaf {t : Token} : t.Leaf → Operand [t]
  | enclosed {b : Bracket} {opener closer : Token} {inside : List Token} :
      opener.kind = .opening b → closer.kind = .closing b → Balanced inside →
      Operand (opener :: (inside ++ [closer]))

inductive Primary (table : OperatorTable) : List Token → Prop where
  | leaf {t : Token} : t.Leaf → Primary table [t]
  | enclosed {b : Bracket} {opener closer : Token} {inside : List Token} :
      opener.kind = .opening b → closer.kind = .closing b → Completes table [] inside →
      Primary table (opener :: (inside ++ [closer]))

section Primary

variable {table : OperatorTable} {before dots unit ts : List Token} {below : Row}
  {left right : Entry}

theorem Dots.not_callable (hd : Dots before dots) (hne : dots ≠ []) :
    ¬ Undotted (before ++ dots) ∧ ¬ Callable (before ++ dots) := by
  cases hd with
  | none => exact absurd rfl hne
  | one hk => simp [Undotted, Callable, Token.endsOperand, hk]
  | two _ hk => simp [Undotted, Callable, Token.endsOperand, hk]

theorem Dots.nameable (hd : Dots before dots) (hne : dots ≠ []) : Nameable (before ++ dots) := by
  cases hd with
  | none => exact absurd rfl hne
  | one hk => exact nameable_concat (by simp [hk]) (by simp [hk])
  | @two p q _ hk =>
    have : Nameable ((before ++ [p]) ++ [q]) := nameable_concat (by simp [hk]) (by simp [hk])
    simpa using this

theorem Primary.head_ne_period (h : Primary table unit) (ts : List Token) :
    (unit ++ ts).head?.map Token.kind ≠ some .period := by
  cases h with
  | leaf hl => simpa using (Token.kind_ne_of_startsOperand hl.startsOperand).2
  | enclosed ho => simp [ho]

theorem Dots.operandBefore (hd : Dots before dots) (hne : dots ≠ []) : OperandBefore before := by
  cases hd with
  | none => exact absurd rfl hne
  | one _ ho => exact ho
  | two _ _ ho => exact ho

theorem Dots.exists_second (hd : Dots before dots) (hne : dots ≠ [])
    (hts : ts.head?.map Token.kind ≠ some .period) :
    ∃ p stream, p.kind = .period ∧ dots ++ ts = p :: stream ∧ (secondPeriod stream).2 = ts := by
  cases hd with
  | none => exact absurd rfl hne
  | one hk => exact ⟨_, ts, hk, rfl, by rw [secondPeriod_of_kind hts]⟩
  | two hk hq => exact ⟨_, _, hk, rfl, by simp [secondPeriod, hq]⟩

theorem Primary.completes (h : Primary table unit) (hd : Dots before dots) (hne : dots ≠ [])
    (hts : Completes table (before ++ dots ++ unit) ts) :
    Completes table before (dots ++ (unit ++ ts)) := by
  cases h with
  | leaf hl => exact .leaf hd hl hts
  | enclosed ho hc hi =>
    have := Completes.enclosed hd ho hc (fun _ => hd.nameable hne) hi hts
    simpa using this

theorem Primary.operand (h : Primary table unit) : Operand unit := by
  cases h with
  | leaf hl => exact .leaf hl
  | enclosed ho hc hi => exact .enclosed ho hc hi.fits.1

theorem Operand.mirrors (h : Operand unit) (hd : Dots before dots) (hne : dots ≠ [])
    (isRange : Bool) :
    Mirrors (before ++ dots ++ unit) (Scan.dotted isRange left right :: below) := by
  obtain ⟨hu, hc⟩ := hd.not_callable hne
  cases h with
  | leaf hl =>
    refine .dotted isRange hl.endsOperand hl.kind_ne.1 ?_ ?_
    · exact fun hn => hu (named_concat.1 hn).2
    · exact nameable_concat (Token.kind_ne_delimiter_of_endsOperand hl.endsOperand) hl.kind_ne.2
  | @enclosed b opener closer inside ho hk hi =>
    have hname : Nameable (before ++ dots ++ opener :: (inside ++ [closer])) := by
      by_cases hb : b = .parenthesis
      · subst hb
        exact (nameable_group ho hk hi).2 fun h => absurd h hc
      · rw [concat_closer]
        exact nameable_concat (by simp [hk]) (by simpa [hk] using hb)
    rw [concat_closer] at hname ⊢
    refine .dotted isRange (Token.endsOperand_closing hk) (by simp [hk]) (fun hn => ?_) hname
    simpa [hk] using (named_concat.1 hn).1

theorem Operand.delimited (h : Operand unit) : Token.delimited (before ++ unit) = false := by
  cases h with
  | leaf hl => exact hl.delimited
  | @enclosed b opener closer inside ho hc hi =>
    rw [concat_closer]
    exact Token.delimited_concat (by simp [hc])

end Primary

/-- A construct that succeeded has read tokens that the grammar reads too, if every marker is on an
operand in the end. -/
def Advances (table : OperatorTable) (before ts : List Token) (row : Row) (rest : List Token)
    (row' : Row) : Prop :=
  ∃ read left, ts = read ++ left ∧ rest = Token.after (Token.delimited (before ++ read)) left ∧
    Mirrors (before ++ read) row' ∧
    (row'.Placed → row.Placed ∧ (Completes table (before ++ read) left → Completes table before ts))

structure Scan.Sound (settings : Settings) (scan : Scan) : Prop where
  legible : scan.Legible settings
  step : ∀ ⦃before : List Token⦄ ⦃t : Token⦄ ⦃ts rest : List Token⦄ ⦃row row' : Row⦄,
    scan (t.mark (Token.delimited before)) ts row = ⟨.ok (), rest, row'⟩ →
      (∀ s ∈ t :: ts, s.Plain) → Mirrors before row →
        Advances settings.operators before (t :: ts) row rest row'
  one : ∀ ⦃t : Token⦄ ⦃ts rest : List Token⦄ ⦃e : Entry⦄,
    scan t ts [] = ⟨.ok (), rest, [e]⟩ → (∀ s ∈ t :: ts, s.Plain) → e.isOperand = true →
      ∃ unit, Primary settings.operators unit ∧ t :: ts = unit ++ rest

section Sound

variable {settings : Settings} {scan : Scan} {ctx : Context} {before stream ts rest : List Token}
  {t : Token} {row row' : Row} {content : List Entry} {e : Entry}

theorem Scan.Sound.runs (hs : scan.Sound settings) (hrun : Runs scan stream row rest row')
    (hstream : stream = Token.after (Token.delimited before) ts) (hp : ∀ s ∈ ts, s.Plain)
    (hm : Mirrors before row) (hrest : rest = []) (hplaced : row'.Placed)
    (hhead : ∀ e ∈ row'.head?, e.isOperand = true) :
    row.Placed ∧ Completes settings.operators before ts := by
  -- The induction goes from the last construct back: both facts about a row need the next one.
  induction hrun generalizing before ts with
  | refl stream row =>
    subst hrest
    obtain rfl := Token.eq_nil_of_after hstream.symm
    exact ⟨hplaced, .done (hm.ended_iff.2 hhead)⟩
  | step ht _ ih =>
    obtain ⟨t, rfl, rfl⟩ := Token.exists_of_after_eq_cons hstream.symm
    obtain ⟨read, left, hsplit, hmid, hm', hback⟩ := hs.step ht hp hm
    have hp' : ∀ s ∈ left, s.Plain := fun s hs =>
      hp s (by rw [hsplit]; exact List.mem_append_right _ hs)
    obtain ⟨hplaced', hcomp⟩ := ih hmid hp' hm' hrest hplaced hhead
    obtain ⟨hrow, hall⟩ := hback hplaced'
    exact ⟨hrow, hall hcomp⟩

theorem Scan.Sound.level (hs : scan.Sound settings) {limit : Nat}
    (h : scan.level limit ts = ⟨.ok content, rest⟩) (hp : ∀ s ∈ ts, s.Plain) :
    Completes settings.operators [] ts := by
  obtain ⟨-, row, hrun, hf⟩ := (level_eq_ok_iff hs.legible.regular.shrinks).1 h
  have hlegible := hs.legible.runs hrun legible_nil fun _ => open_nil
  obtain ⟨hplaced, hhead⟩ := hlegible.placed hf
  have hstart : ts = Token.after (Token.delimited []) ts := rfl
  exact (hs.runs hrun hstart hp .start rfl hplaced hhead).2

theorem secondPeriod_dots (hk : t.kind = .period) (ho : OperandBefore before) (ts : List Token) :
    ∃ dots, Dots before dots ∧ dots ≠ [] ∧ t :: ts = dots ++ (secondPeriod ts).2 := by
  unfold secondPeriod
  split
  · exact ⟨[t], .one hk ho, by simp, rfl⟩
  · rename_i q ts
    split
    · rename_i hq
      exact ⟨[t, q], .two hk hq ho, by simp, rfl⟩
    · exact ⟨[t], .one hk ho, by simp, rfl⟩

theorem Scan.Sound.interior (hs : scan.Sound settings) {b : Bracket} {close limit : Nat}
    (hc : b.closeFrom 0 ts = some close)
    (hl : (scan.level limit (ts.take close)).outcome = .ok content) (hp : ∀ s ∈ ts, s.Plain) :
    ∃ closer, closer.kind = .closing b ∧ ts = ts.take close ++ closer :: ts.drop (close + 1) ∧
      Completes settings.operators [] (ts.take close) := by
  obtain ⟨closer, hk, hsplit⟩ := Bracket.closeFrom_split hc
  refine ⟨closer, hk, hsplit, hs.level (hs.legible.regular.level_of_outcome hl) fun s hm => ?_⟩
  exact hp s (List.mem_of_mem_take hm)

theorem Advances.of_read {table : OperatorTable} {left : List Token} (read : List Token)
    (hs : ts = read ++ left) (hd : Token.delimited (before ++ read) = false)
    (hm : Mirrors (before ++ read) row')
    (hback : row'.Placed →
      row.Placed ∧ (Completes table (before ++ read) left → Completes table before ts)) :
    Advances table before ts row left row' := by
  refine ⟨read, left, hs, ?_, hm, hback⟩
  rw [hd]
  rfl

theorem Advances.of_atom {table : OperatorTable} {n : Node} (hm : Mirrors before row)
    (hn : t.atom? table = some n) : Advances table before (t :: ts) row ts (⟨n, 0⟩ :: row) := by
  rcases Token.atom?_cases hn with ⟨hk, ht, ho⟩ | hl
  · have hd : Token.delimited (before ++ [t]) = false := Token.delimited_concat (by simp [hk])
    refine .of_read [t] rfl hd (.marker hk ho) fun hplaced => ?_
    obtain ⟨hon, hrow⟩ := Row.placed_cons.1 hplaced
    have hmarker : Entry.isOperand ⟨n, 0⟩ = false := ho
    have hoperand : OperandBefore before := hm.operand.2 (hon.resolve_left (by simp [hmarker]))
    exact ⟨hrow, .operator hk ht hoperand⟩
  · have hoperand : Entry.isOperand ⟨n, 0⟩ = true := (hl.node_of_atom? hn).1
    refine .of_read [t] rfl hl.delimited (.atom hm.undotted hl hn) fun hplaced => ?_
    refine ⟨(Row.placed_cons_operand hoperand).1 hplaced, fun hts => ?_⟩
    exact .leaf .none hl (by simpa using hts)

theorem Advances.of_enclosed {table : OperatorTable} {b : Bracket} {closer : Token}
    {inside left : List Token} (hm : Mirrors before row) (hg : t.grouping = false)
    (ho : t.kind = .opening b) (hc : closer.kind = .closing b) (hi : Completes table [] inside)
    (ha : b.Attaches (t.mark (Token.delimited before)) content row e row') :
    Advances table before (t :: (inside ++ closer :: left)) row left (e :: row') := by
  have hgrouping : b = .parenthesis →
      (t.mark (Token.delimited before)).grouping = Token.delimited before := by
    rintro rfl
    exact Token.mark_grouping hg ho
  have hd : Token.delimited (before ++ t :: (inside ++ [closer])) = false :=
    (Operand.enclosed ho hc hi.fits.1).delimited
  refine .of_read (t :: (inside ++ [closer])) (by simp) hd
    (hm.attach ho hc hi.fits.1 hgrouping ha) fun hplaced => ?_
  refine ⟨ha.placed_iff.1 hplaced, fun hts => ?_⟩
  refine .enclosed .none ho hc (fun hb => ?_) hi (by simpa using hts)
  subst hb
  rw [List.append_nil]
  exact hm.nameable.2 ha.nameable

theorem Advances.of_dots {table : OperatorTable} {dots unit : List Token} {left right : Entry}
    {below : Row} (hlo : left.isOperand = true) (hd : Dots before dots) (hne : dots ≠ [])
    (hp : Primary table unit) (isRange : Bool) :
    Advances table before (dots ++ (unit ++ rest)) (left :: below) rest
      (Scan.dotted isRange left right :: below) := by
  have hdotted : (Scan.dotted isRange left right).isOperand = true := by cases isRange <;> rfl
  refine .of_read (dots ++ unit) (by simp) ?_ ?_ fun hplaced => ?_
  · rw [← List.append_assoc]
    exact hp.operand.delimited
  · rw [← List.append_assoc]
    exact hp.operand.mirrors hd hne isRange
  · rw [Row.placed_cons_operand hdotted] at hplaced
    refine ⟨(Row.placed_cons_operand hlo).2 hplaced, fun hts => hp.completes hd hne ?_⟩
    rwa [← List.append_assoc] at hts

theorem Advances.of_semicolon {table : OperatorTable} {below : Row}
    (hm : Mirrors before (e :: below)) (hk : t.kind = .semicolon) (ho : e.isOperand = true)
    (depth : Nat) :
    Advances table before (t :: ts) (e :: below) ts (⟨.statement [e.node], depth⟩ :: below) := by
  have hd : Token.delimited (before ++ [t]) = false := Token.delimited_concat (by simp [hk])
  refine .of_read [t] rfl hd (.semicolon hk [e.node] depth) fun hplaced => ?_
  rw [Row.placed_cons_operand rfl] at hplaced
  exact ⟨(Row.placed_cons_operand ho).2 hplaced, .semicolon hk (hm.operand.2 ⟨e, rfl, ho⟩)⟩

theorem Context.Reads.advances (hb : ∀ scan, ctx.below = some scan → scan.Sound ctx.settings)
    (h : ctx.Reads (t.mark (Token.delimited before)) ts row rest row')
    (hp : ∀ s ∈ t :: ts, s.Plain) (hm : Mirrors before row) :
    Advances ctx.settings.operators before (t :: ts) row rest row' := by
  obtain ⟨ht, hts⟩ := List.forall_mem_cons.1 hp
  cases h with
  | delimiter hk =>
    rw [Token.mark_kind] at hk
    refine ⟨[t], ts, rfl, ?_, hm.delimiter hk, fun hplaced => ⟨hplaced, .delimiter hk⟩⟩
    rw [Token.delimited_concat_delimiter hk]
    rfl
  | atom hn => exact .of_atom hm (Token.mark_atom? hn)
  | @enclosed b close scan content e below hk hc hbs hl ha hd =>
    rw [Token.mark_kind] at hk
    obtain ⟨closer, hck, hsplit, hinside⟩ := (hb scan hbs).interior hc hl hts
    have h : Advances _ before (t :: (ts.take close ++ closer :: ts.drop (close + 1))) row _ _ :=
      .of_enclosed hm ht.ungrouped hk hck hinside (Bracket.attaches_of_attach ha)
    rwa [← hsplit] at h
  | @dot left right below found scan rest hk hrow hlo hbs ho hro hd =>
    rw [Token.mark_kind] at hk
    subst hrow
    obtain ⟨u, us, hstream, rfl, hone⟩ := (hb scan hbs).legible.regular.one_eq_ok ho
    obtain ⟨dots, hdots, hne, hsplit⟩ := secondPeriod_dots hk (hm.operand.2 ⟨left, rfl, hlo⟩) ts
    rw [hstream] at hsplit
    have hplain : ∀ s ∈ u :: us, s.Plain := fun s hs =>
      hp s (by rw [hsplit]; exact List.mem_append_right _ hs)
    obtain ⟨unit, hunit, hus⟩ := (hb scan hbs).one hone hplain hro
    rw [hsplit, hus]
    exact .of_dots hlo hdots hne hunit _
  | semicolon hk hrow ho hd =>
    rw [Token.mark_kind] at hk
    subst hrow
    exact .of_semicolon hm hk ho _
  | choice hk =>
    rw [Token.mark_kind] at hk
    exact absurd hk ht.kind_ne

theorem Context.Reads.primary (hb : ∀ scan, ctx.below = some scan → scan.Sound ctx.settings)
    (h : ctx.Reads t ts [] rest [e]) (hp : ∀ s ∈ t :: ts, s.Plain) (ho : e.isOperand = true) :
    ∃ unit, Primary ctx.settings.operators unit ∧ t :: ts = unit ++ rest := by
  cases h with
  | atom hn =>
    rcases Token.atom?_cases hn with ⟨-, -, hmarker⟩ | hl
    · exact absurd ho (by simp [Entry.isOperand, hmarker])
    · exact ⟨[t], .leaf hl, rfl⟩
  | @enclosed b close scan content e below hk hc hbs hl ha hd =>
    obtain ⟨closer, hck, hsplit, hinside⟩ := (hb scan hbs).interior hc hl fun s hs =>
      hp s (List.mem_cons_of_mem _ hs)
    exact ⟨_, .enclosed hk hck hinside, by simpa using hsplit⟩
  | dot hk hrow => cases hrow
  | semicolon hk hrow => cases hrow
  | choice hk hrow => cases hrow

theorem sound_scanWithin (settings : Settings) (room : Nat) :
    (scanWithin settings room).Sound settings := by
  refine scanWithin_induction settings (P := fun scan => scan.Sound settings) ?_ room
  intro below hb
  exact ⟨@Context.legible_scan ⟨settings, below⟩ fun scan hs => (hb scan hs).legible,
    fun _ _ _ _ _ _ h => (Context.reads_of_scan h).advances hb,
    fun _ _ _ _ h => (Context.reads_of_scan h).primary hb⟩

end Sound

end TokenForest
