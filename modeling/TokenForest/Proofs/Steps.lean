import TokenForest.Reader

/-!
What one construct does when it succeeds, one rule for each construct of the grammar, and what
follows for a whole level. Everything else is proved from these rules.
-/

set_option autoImplicit false

namespace TokenForest

/-- The node that a token of one-token constructs is read as. -/
def Token.atom? (table : OperatorTable) (t : Token) : Option Node :=
  match t.kind with
  | .word => some (.identifier t.text)
  | .number => (Binary64.ofLiteral? t.text).map .number
  | .string => some (.string (Text.inner 1 t.text))
  | .comment => some (.comment (Text.inner 2 t.text))
  | .operator => (table.get? t.text).map fun info =>
    .marker ⟨t.text, info.name, info.precedence, t.position⟩
  | _ => none

def Token.regroup : List Token → List Token
  | [] => []
  | t :: ts => t.grouped :: ts

namespace Bracket

/-- What an enclosure with the given content becomes: the entry, and the row without what it took
over. -/
inductive Attaches (token : Token) (content : List Entry) :
    Bracket → Row → Entry → Row → Prop where
  | call {f : Entry} {below : Row} : token.grouping = false → f.isOperand = true →
      f.node.kind ≠ .statement →
      Attaches token content .parenthesis (f :: below)
        ⟨.call f.node (content.map Entry.node), max f.depth (Entry.deepest content) + 1⟩ below
  | group {row : Row} : (token.grouping = false →
        ∀ f ∈ row.head?, f.isOperand = true → f.node.kind = .statement) →
      Attaches token content .parenthesis row
        ⟨.group (content.map Entry.node), Entry.deepest content + 1⟩ row
  | index {target : Entry} {below : Row} : target.isOperand = true →
      Attaches token content .square (target :: below)
        ⟨.index target.node (content.map Entry.node),
          max target.depth (Entry.deepest content) + 1⟩ below
  | set {row : Row} : (∀ e ∈ row.head?, e.isOperand = false) →
      Attaches token content .square row
        ⟨.set (content.map Entry.node), Entry.deepest content + 1⟩ row
  | named {name : String} {parameters : List Node} {depth : Nat} {below : Row} :
      Attaches token content .brace (⟨.call (.identifier name) parameters, depth⟩ :: below)
        ⟨.function (some name) parameters (content.map Entry.node),
          max depth (Entry.deepest content + 1)⟩ below
  | anonymous {parameters : List Node} {depth : Nat} {below : Row} :
      Attaches token content .brace (⟨.group parameters, depth⟩ :: below)
        ⟨.function none parameters (content.map Entry.node),
          max depth (Entry.deepest content + 1)⟩ below
  | block {row : Row} : (∀ e ∈ row.head?, e.node.kind ≠ .call ∧ e.node.kind ≠ .group) →
      Attaches token content .brace row
        ⟨.block (content.map Entry.node), Entry.deepest content + 1⟩ row

variable {token : Token} {content : List Entry} {b : Bracket} {row below : Row} {e : Entry}

theorem attaches_parenthesis :
    Attaches token content .parenthesis row (attachParenthesis token content row).1
      (attachParenthesis token content row).2 := by
  unfold attachParenthesis
  cases hg : token.grouping with
  | true => exact .group fun h => by simp [hg] at h
  | false =>
    simp only [Bool.false_eq_true, if_false]
    split
    · rename_i f below hf
      obtain ⟨rfl, hp⟩ := Row.take?_eq_some.1 hf
      simp only [Bool.and_eq_true, bne_iff_ne, ne_eq] at hp
      exact .call hg hp.1 hp.2
    · rename_i hn
      refine .group fun _ f hf ho => ?_
      obtain ⟨below, rfl⟩ := List.head?_eq_some_iff.1 hf
      have ho' : f.node.isOperand = true := ho
      simpa [Row.take?, ho'] using hn

theorem attaches_square :
    Attaches token content .square row (attachSquare content row).1
      (attachSquare content row).2 := by
  unfold attachSquare
  split
  · rename_i target below ht
    obtain ⟨rfl, ho⟩ := Row.take?_eq_some.1 ht
    exact .index ho
  · rename_i hn
    refine .set fun e he => ?_
    obtain ⟨below, rfl⟩ := List.head?_eq_some_iff.1 he
    simpa [Row.take?, Entry.isOperand] using hn

theorem attaches_brace (h : attachBrace token content row = (.ok e, below)) :
    Attaches token content .brace row e below := by
  unfold attachBrace at h
  split at h
  · cases h
    exact .named
  · cases h
  · cases h
    exact .anonymous
  · rename_i hname hcall hgroup
    cases h
    refine .block fun e he => ?_
    obtain ⟨below, rfl⟩ := List.head?_eq_some_iff.1 he
    obtain ⟨n, d⟩ := e
    cases n with
    | call callee arguments => exact absurd rfl (hcall callee arguments d below)
    | group parameters => exact absurd rfl (hgroup parameters d below)
    | _ => exact ⟨nofun, nofun⟩

theorem attaches_of_attach (h : b.attach token content row = (.ok e, below)) :
    Attaches token content b row e below := by
  cases b with
  | parenthesis =>
    cases h
    exact attaches_parenthesis
  | brace => exact attaches_brace h
  | square =>
    cases h
    exact attaches_square

theorem Attaches.attach_eq (h : Attaches token content b row e below) :
    b.attach token content row = (.ok e, below) := by
  cases h with
  | @call f below hg ho hk =>
    have ho' : f.node.isOperand = true := ho
    simp [attach, attachParenthesis, hg, Row.take?, ho', hk]
  | group hf =>
    cases hg : token.grouping with
    | true => simp [attach, attachParenthesis, hg]
    | false =>
      have hn : row.take? (fun n => n.isOperand && n.kind != .statement) = none := by
        cases row with
        | nil => rfl
        | cons f below =>
          have hs : f.node.isOperand = true → f.node.kind = .statement := hf hg f rfl
          simpa [Row.take?] using hs
      simp [attach, attachParenthesis, hg, hn]
  | @index target below ho =>
    have ho' : target.node.isOperand = true := ho
    simp [attach, attachSquare, Row.take?, ho']
  | set hn =>
    have hn : row.take? Node.isOperand = none := by
      cases row with
      | nil => rfl
      | cons f below =>
        have hs : f.node.isOperand = false := hn f rfl
        simp [Row.take?, hs]
    simp [attach, attachSquare, hn]
  | named => rfl
  | anonymous => rfl
  | block hk =>
    simp only [attach, attachBrace]
    split
    · exact ((hk _ rfl).1 rfl).elim
    · exact ((hk _ rfl).1 rfl).elim
    · exact ((hk _ rfl).2 rfl).elim
    · rfl

end Bracket

namespace Context

/-- One successful construct: the token that begins it, the stream and the row before, and what is
left of both. -/
inductive Reads (ctx : Context) (token : Token) (stream : List Token) (row : Row) :
    List Token → Row → Prop where
  | delimiter : token.kind = .delimiter → Reads ctx token stream row (Token.regroup stream) row
  | atom {n : Node} : token.atom? ctx.settings.operators = some n →
      Reads ctx token stream row stream (⟨n, 0⟩ :: row)
  | enclosed {b : Bracket} {close : Nat} {scan : Scan} {content : List Entry} {e : Entry}
      {below : Row} : token.kind = .opening b → b.closeFrom 0 stream = some close →
      ctx.below = some scan →
      (scan.level ctx.settings.maxDepth (stream.take close)).outcome = .ok content →
      b.attach token content row = (.ok e, below) → e.depth ≤ ctx.settings.maxDepth →
      Reads ctx token stream row (stream.drop (close + 1)) (e :: below)
  | dot {left right : Entry} {below found : Row} {scan : Scan} {rest : List Token} :
      token.kind = .period → row = left :: below → left.isOperand = true →
      ctx.below = some scan →
      scan.one (secondPeriod stream).2 [] = ⟨.ok (), rest, right :: found⟩ →
      right.isOperand = true →
      (Scan.dotted (secondPeriod stream).1 left right).depth ≤ ctx.settings.maxDepth →
      Reads ctx token stream row rest (Scan.dotted (secondPeriod stream).1 left right :: below)
  | semicolon {e : Entry} {below : Row} : token.kind = .semicolon → row = e :: below →
      e.isOperand = true → e.depth + 1 ≤ ctx.settings.maxDepth →
      Reads ctx token stream row stream (⟨.statement [e.node], e.depth + 1⟩ :: below)
  | choice {condition : Entry} {below : Row} {scan : Scan} {op : Operator} {left right : Node}
      {depth : Nat} {rest : List Token} : token.kind = .questionMark → row = condition :: below →
      condition.isOperand = true → ctx.below = some scan →
      scan.level ctx.settings.maxDepth stream = ⟨.ok [⟨.binary op left right, depth⟩], rest⟩ →
      op.symbol = ":" → max depth (condition.depth + 1) ≤ ctx.settings.maxDepth →
      Reads ctx token stream row rest
        (⟨.ternary condition.node left right, max depth (condition.depth + 1)⟩ :: below)

variable {ctx : Context} {token : Token} {stream rest rest' : List Token} {row row' below : Row}
  {e : Entry}

theorem finish_eq_ok_iff :
    ctx.finish token rest row e = ⟨.ok (), rest', row'⟩ ↔
      e.depth ≤ ctx.settings.maxDepth ∧ rest = rest' ∧ e :: row = row' := by
  unfold finish Row.push?
  split
  · rename_i h
    simp [Step.ofRow, Nat.not_le.2 h]
  · rename_i h
    simp [Step.ofRow, Nat.not_lt.1 h]

theorem below?_eq_ok_iff {scan : Scan} :
    ctx.below? token = .ok scan ↔ ctx.below = some scan := by
  unfold below?
  cases ctx.below <;> simp

theorem interior_eq_ok_iff {b : Bracket} {content : List Entry} :
    ctx.interior b token stream = ⟨.ok content, rest⟩ ↔
      ∃ close scan, b.closeFrom 0 stream = some close ∧ ctx.below = some scan ∧
        (scan.level ctx.settings.maxDepth (stream.take close)).outcome = .ok content ∧
        stream.drop (close + 1) = rest := by
  unfold interior Bracket.findClose
  cases b.closeFrom 0 stream with
  | none => simp
  | some close =>
    cases h : ctx.below with
    | none => simp [below?, h]
    | some scan => simp [below?, h]

theorem reads_of_enclosed {b : Bracket} (hk : token.kind = .opening b)
    (h : Scan.enclosed ctx b token stream row = ⟨.ok (), rest, row'⟩) :
    ctx.Reads token stream row rest row' := by
  unfold Scan.enclosed at h
  split at h
  · cases h
  · rename_i content rest₁ hi
    split at h
    · cases h
    · rename_i e below ha
      obtain ⟨close, scan, hc, hb, hl, rfl⟩ := interior_eq_ok_iff.1 hi
      obtain ⟨hd, rfl, rfl⟩ := finish_eq_ok_iff.1 h
      exact .enclosed hk hc hb hl ha hd

theorem reads_of_dot (hk : token.kind = .period)
    (h : Scan.dot ctx token stream row = ⟨.ok (), rest, row'⟩) :
    ctx.Reads token stream row rest row' := by
  unfold Scan.dot at h
  simp only at h
  split at h
  · cases h
  · rename_i left below hl
    split at h
    · cases h
    · rename_i scan hb
      split at h
      · cases h
      · rename_i rest₁ found ho
        split at h
        · cases h
        · rename_i right found' hr
          obtain ⟨rfl, hlo⟩ := Row.take?_eq_some.1 hl
          obtain ⟨rfl, hro⟩ := Row.take?_eq_some.1 hr
          obtain ⟨hd, rfl, rfl⟩ := finish_eq_ok_iff.1 h
          exact .dot hk rfl hlo (below?_eq_ok_iff.1 hb) ho hro hd

theorem reads_of_semicolon (hk : token.kind = .semicolon)
    (h : Scan.semicolon ctx token stream row = ⟨.ok (), rest, row'⟩) :
    ctx.Reads token stream row rest row' := by
  unfold Scan.semicolon at h
  split at h
  · cases h
  · rename_i e below he
    obtain ⟨rfl, ho⟩ := Row.take?_eq_some.1 he
    obtain ⟨hd, rfl, rfl⟩ := finish_eq_ok_iff.1 h
    exact .semicolon hk rfl ho hd

theorem branches?_eq_some_iff {content : List Entry} {left right : Node} {depth : Nat} :
    branches? content = some (left, right, depth) ↔
      ∃ op, content = [⟨.binary op left right, depth⟩] ∧ op.symbol = ":" := by
  unfold branches?
  split
  · rename_i op left' right' depth'
    split
    · rename_i hs
      constructor
      · intro h
        cases h
        exact ⟨op, rfl, hs⟩
      · intro h
        obtain ⟨op, hc, -⟩ := h
        cases hc
        rfl
    · rename_i hs
      simp only [reduceCtorEq, false_iff]
      intro h
      obtain ⟨op, hc, hs'⟩ := h
      cases hc
      exact hs hs'
  · rename_i hne
    simp only [reduceCtorEq, false_iff]
    intro h
    obtain ⟨op, rfl, -⟩ := h
    exact hne _ _ _ _ rfl

theorem reads_of_choice (hk : token.kind = .questionMark)
    (h : Scan.choice ctx token stream row = ⟨.ok (), rest, row'⟩) :
    ctx.Reads token stream row rest row' := by
  unfold Scan.choice at h
  split at h
  · cases h
  · rename_i condition below hc
    split at h
    · cases h
    · rename_i scan hb
      split at h
      · cases h
      · rename_i content rest₁ hl
        split at h
        · cases h
        · rename_i left right depth hbr
          obtain ⟨rfl, ho⟩ := Row.take?_eq_some.1 hc
          obtain ⟨op, rfl, hs⟩ := branches?_eq_some_iff.1 hbr
          obtain ⟨hd, rfl, rfl⟩ := finish_eq_ok_iff.1 h
          exact .choice hk rfl ho (below?_eq_ok_iff.1 hb) hl hs hd

theorem reads_of_atom {c : Construct} (hk : token.kind = c.opener)
    (hc : c ∈ [Construct.comment, .number, .string, .identifier, .operator])
    (h : c.scan ctx token stream row = ⟨.ok (), rest, row'⟩) :
    ctx.Reads token stream row rest row' := by
  simp only [List.mem_cons, List.not_mem_nil, or_false] at hc
  rcases hc with rfl | rfl | rfl | rfl | rfl
  · cases h
    exact .atom (by simp [Token.atom?, hk, Construct.opener])
  · simp only [Construct.scan, Scan.number] at h
    split at h
    · rename_i value hv
      cases h
      exact .atom (by simp [Token.atom?, hk, Construct.opener, hv])
    · cases h
  · cases h
    exact .atom (by simp [Token.atom?, hk, Construct.opener])
  · cases h
    exact .atom (by simp [Token.atom?, hk, Construct.opener])
  · simp only [Construct.scan, Scan.operator] at h
    split at h
    · rename_i info hi
      cases h
      exact .atom (by simp [Token.atom?, hk, Construct.opener, hi])
    · cases h

theorem reads_of_scan (h : ctx.scan token stream row = ⟨.ok (), rest, row'⟩) :
    ctx.Reads token stream row rest row' := by
  unfold Context.scan at h
  cases hc : Construct.of? token with
  | none => simp [hc] at h
  | some c =>
    have hk := Construct.of?_eq_some_iff.1 hc
    simp only [hc] at h
    cases c with
    | delimiter =>
      have hr : (⟨.ok (), Token.regroup stream, row⟩ : Step) = ⟨.ok (), rest, row'⟩ := by
        rw [← h]
        cases stream <;> rfl
      cases hr
      exact .delimiter hk
    | comment | number | string | identifier | operator => exact reads_of_atom hk (by simp) h
    | parenthesis | set | block => exact reads_of_enclosed hk h
    | dot => exact reads_of_dot hk h
    | semicolon => exact reads_of_semicolon hk h
    | choice => exact reads_of_choice hk h

theorem scan_of_kind {c : Construct} (hk : token.kind = c.opener) :
    ctx.scan token stream row = c.scan ctx token stream row := by
  rw [Context.scan, Construct.of?_eq_some_iff.2 hk]

theorem scan_of_atom {n : Node} (h : token.atom? ctx.settings.operators = some n) :
    ctx.scan token stream row = ⟨.ok (), stream, ⟨n, 0⟩ :: row⟩ := by
  unfold Token.atom? at h
  split at h
  · rename_i hk
    cases h
    rw [scan_of_kind (c := .identifier) hk]
    rfl
  · rename_i hk
    obtain ⟨value, hv, rfl⟩ := Option.map_eq_some_iff.1 h
    rw [scan_of_kind (c := .number) hk]
    simp only [Construct.scan, Scan.number, hv]
    rfl
  · rename_i hk
    cases h
    rw [scan_of_kind (c := .string) hk]
    rfl
  · rename_i hk
    cases h
    rw [scan_of_kind (c := .comment) hk]
    rfl
  · rename_i hk
    obtain ⟨info, hi, rfl⟩ := Option.map_eq_some_iff.1 h
    rw [scan_of_kind (c := .operator) hk]
    simp only [Construct.scan, Scan.operator, hi]
    rfl
  · cases h

theorem Reads.scan_eq (h : ctx.Reads token stream row rest row') :
    ctx.scan token stream row = ⟨.ok (), rest, row'⟩ := by
  cases h with
  | delimiter hk =>
    rw [scan_of_kind (c := .delimiter) hk]
    cases stream <;> rfl
  | atom hn => exact scan_of_atom hn
  | @enclosed b close scan content e below hk hc hb hl ha hd =>
    have hi : ctx.interior b token stream = ⟨.ok content, stream.drop (close + 1)⟩ :=
      interior_eq_ok_iff.2 ⟨close, scan, hc, hb, hl, rfl⟩
    have he : Scan.enclosed ctx b token stream row =
        ⟨.ok (), stream.drop (close + 1), e :: below⟩ := by
      simp only [Scan.enclosed, hi, ha]
      exact finish_eq_ok_iff.2 ⟨hd, rfl, rfl⟩
    cases b with
    | parenthesis => rwa [scan_of_kind (c := .parenthesis) hk]
    | brace => rwa [scan_of_kind (c := .block) hk]
    | square => rwa [scan_of_kind (c := .set) hk]
  | @dot left right below found scan rest hk hr hlo hb ho hro hd =>
    rw [scan_of_kind (c := .dot) hk]
    subst hr
    simp only [Construct.scan, Scan.dot, Row.take?_eq_some.2 ⟨rfl, hlo⟩, below?_eq_ok_iff.2 hb, ho,
      Row.take?_eq_some.2 ⟨rfl, hro⟩]
    exact finish_eq_ok_iff.2 ⟨hd, rfl, rfl⟩
  | @semicolon e below hk hr ho hd =>
    rw [scan_of_kind (c := .semicolon) hk]
    subst hr
    simp only [Construct.scan, Scan.semicolon, Row.take?_eq_some.2 ⟨rfl, ho⟩]
    exact finish_eq_ok_iff.2 ⟨hd, rfl, rfl⟩
  | @choice condition below scan op left right depth rest hk hr ho hb hl hs hd =>
    rw [scan_of_kind (c := .choice) hk]
    subst hr
    simp only [Construct.scan, Scan.choice, Row.take?_eq_some.2 ⟨rfl, ho⟩,
      below?_eq_ok_iff.2 hb, hl, branches?_eq_some_iff.2 ⟨op, rfl, hs⟩]
    exact finish_eq_ok_iff.2 ⟨hd, rfl, rfl⟩

end Context

namespace Scan

inductive Runs (scan : Scan) : List Token → Row → List Token → Row → Prop where
  | refl (stream : List Token) (row : Row) : Runs scan stream row stream row
  | step {t : Token} {ts mid rest : List Token} {row row₁ row' : Row} :
      scan t ts row = ⟨.ok (), mid, row₁⟩ → Runs scan mid row₁ rest row' →
      Runs scan (t :: ts) row rest row'

def Shrinks (scan : Scan) : Prop :=
  ∀ ⦃t : Token⦄ ⦃ts rest : List Token⦄ ⦃row row' : Row⦄,
    scan t ts row = ⟨.ok (), rest, row'⟩ → rest.length ≤ ts.length

variable {scan : Scan} {stream mid rest : List Token} {row row₁ row' : Row} {fuel : Nat}

theorem Runs.trans (h : Runs scan stream row mid row₁) (h' : Runs scan mid row₁ rest row') :
    Runs scan stream row rest row' := by
  induction h with
  | refl => exact h'
  | step hs _ ih => exact .step hs (ih h')

theorem Runs.single {t : Token} {ts : List Token} (h : scan t ts row = ⟨.ok (), rest, row'⟩) :
    Runs scan (t :: ts) row rest row' := .step h (.refl _ _)

theorem runs_of_drain (hs : scan.Shrinks) (hf : stream.length ≤ fuel)
    (h : scan.drain fuel stream row = ⟨.ok (), rest, row'⟩) :
    rest = [] ∧ Runs scan stream row [] row' := by
  induction fuel generalizing stream row with
  | zero =>
    obtain rfl := List.eq_nil_of_length_eq_zero (Nat.le_zero.1 hf)
    cases h
    exact ⟨rfl, .refl _ _⟩
  | succ fuel ih =>
    cases stream with
    | nil =>
      cases h
      exact ⟨rfl, .refl _ _⟩
    | cons t ts =>
      unfold drain at h
      split at h
      · rename_i mid row₁ ht
        have hlen := hs ht
        obtain ⟨hr, hrun⟩ := ih (by simp only [List.length_cons] at hf; omega) h
        exact ⟨hr, .step ht hrun⟩
      · cases h

theorem Runs.drain_eq (hs : scan.Shrinks) (h : Runs scan stream row rest row') (hr : rest = [])
    (hf : stream.length ≤ fuel) : scan.drain fuel stream row = ⟨.ok (), [], row'⟩ := by
  induction h generalizing fuel with
  | refl stream row =>
    subst hr
    cases fuel <;> rfl
  | step ht _ ih =>
    cases fuel with
    | zero => simp at hf
    | succ fuel =>
      have hlen := hs ht
      simp only [drain, ht]
      exact ih hr (by simp only [List.length_cons] at hf; omega)

theorem level_eq_ok_iff (hs : scan.Shrinks) {limit : Nat} {content : List Entry} :
    scan.level limit stream = ⟨.ok content, rest⟩ ↔
      rest = [] ∧ ∃ row, Runs scan stream [] [] row ∧
        foldMarkers limit row.reverse = .ok content := by
  constructor
  · intro h
    unfold level at h
    split at h
    · rename_i rest₁ row hd
      obtain ⟨rfl, hrun⟩ := runs_of_drain hs (Nat.le_refl _) hd
      simp only [Reading.mk.injEq] at h
      exact ⟨h.2.symm, row, hrun, h.1⟩
    · cases h
  · intro h
    obtain ⟨rfl, row, hrun, hf⟩ := h
    simp only [level, hrun.drain_eq hs rfl (Nat.le_refl _), hf]

end Scan

theorem Context.Reads.length_le {ctx : Context} {token : Token} {stream rest : List Token}
    {row row' : Row} (hb : ∀ scan, ctx.below = some scan → scan.Shrinks)
    (h : ctx.Reads token stream row rest row') : rest.length ≤ stream.length := by
  cases h with
  | delimiter hk => cases stream <;> simp [Token.regroup]
  | atom hn => exact Nat.le_refl _
  | enclosed hk hc hbs hl ha hd =>
    rw [List.length_drop]
    omega
  | @dot left right below found scan rest hk hr hlo hbs ho hro hd =>
    have hp : (secondPeriod stream).2.length ≤ stream.length := by
      unfold secondPeriod
      split
      · exact Nat.le_refl _
      · split <;> simp
    cases hs : (secondPeriod stream).2 with
    | nil =>
      rw [hs] at ho
      cases ho
    | cons t ts =>
      rw [hs] at ho hp
      have := hb scan hbs ho
      simp only [List.length_cons] at hp
      omega
  | semicolon => exact Nat.le_refl _
  | @choice condition below scan op left right depth rest hk hr ho hbs hl hs hd =>
    obtain ⟨rfl, -⟩ := (Scan.level_eq_ok_iff (hb scan hbs)).1 hl
    exact Nat.zero_le _

/-- What holds of a level as soon as it holds of the level below holds of every level. -/
theorem scanWithin_induction (settings : Settings) {P : Scan → Prop}
    (step : ∀ below : Option Scan, (∀ scan, below = some scan → P scan) →
      P (Context.scan ⟨settings, below⟩)) (room : Nat) : P (scanWithin settings room) := by
  induction room with
  | zero => exact step none fun _ h => nomatch h
  | succ room ih => exact step _ fun _ h => Option.some.inj h ▸ ih

@[simp] theorem Reader.context_settings (r : Reader) : r.context.settings = r.settings := by
  obtain ⟨settings, room⟩ := r
  cases room <;> rfl

theorem Reader.below_eq_some_iff {r : Reader} {scan : Scan} :
    r.context.below = some scan ↔ ∃ k, r.room = k + 1 ∧ scanWithin r.settings k = scan := by
  obtain ⟨settings, room⟩ := r
  cases room <;> simp [context]

theorem Context.Reads.length_le_one {ctx : Context} {token : Token} {stream rest : List Token}
    {row' : Row} (h : ctx.Reads token stream [] rest row') : row'.length ≤ 1 := by
  cases h with
  | delimiter => exact Nat.zero_le _
  | atom => exact Nat.le_refl _
  | @enclosed b close scan content e below hk hc hbs hl ha hd =>
    cases Bracket.attaches_of_attach ha <;> exact Nat.le_refl _
  | dot hk hr => cases hr
  | semicolon hk hr => cases hr
  | choice hk hr => cases hr

structure Scan.Regular (scan : Scan) : Prop where
  shrinks : scan.Shrinks
  lone : ∀ ⦃t : Token⦄ ⦃ts rest : List Token⦄ ⦃row : Row⦄,
    scan t ts [] = ⟨.ok (), rest, row⟩ → row.length ≤ 1

theorem Context.regular_scan {ctx : Context} (hb : ∀ scan, ctx.below = some scan → scan.Regular) :
    ctx.scan.Regular where
  shrinks _ _ _ _ _ h := (reads_of_scan h).length_le fun scan hs => (hb scan hs).shrinks
  lone _ _ _ _ h := (reads_of_scan h).length_le_one

theorem regular_scanWithin (settings : Settings) (room : Nat) :
    (scanWithin settings room).Regular :=
  scanWithin_induction settings (P := Scan.Regular) (fun _ hb => Context.regular_scan hb) room

theorem Scan.Regular.one_eq_ok {scan : Scan} {stream rest : List Token} {e : Entry} {row : Row}
    (hs : scan.Regular) (h : scan.one stream [] = ⟨.ok (), rest, e :: row⟩) :
    ∃ t ts, stream = t :: ts ∧ row = [] ∧ scan t ts [] = ⟨.ok (), rest, [e]⟩ := by
  cases stream with
  | nil => cases h
  | cons t ts =>
    obtain rfl : row = [] := by simpa using hs.lone h
    exact ⟨t, ts, rfl, rfl, h⟩

theorem Scan.Regular.level_of_outcome {scan : Scan} {stream : List Token} {limit : Nat}
    {content : List Entry} (hs : scan.Regular)
    (h : (scan.level limit stream).outcome = .ok content) :
    scan.level limit stream = ⟨.ok content, []⟩ := by
  cases hl : scan.level limit stream with
  | mk outcome rest =>
    rw [hl] at h
    subst h
    obtain ⟨rfl, -⟩ := (Scan.level_eq_ok_iff hs.shrinks).1 hl
    rfl

theorem parseWith_eq (settings : Settings) (tokens : List Token) :
    parseWith settings tokens =
      ((scanWithin settings settings.maxDepth).level settings.maxDepth tokens).outcome.map
        fun entries => entries.map Entry.node := by
  rw [parseWith, Reader.list, Reader.stream, Reader.scan_eq]
  rfl

theorem parseWith_eq_ok_iff {settings : Settings} {tokens : List Token} {nodes : List Node} :
    parseWith settings tokens = .ok nodes ↔
      ∃ content, (scanWithin settings settings.maxDepth).level settings.maxDepth tokens =
        ⟨.ok content, []⟩ ∧ content.map Entry.node = nodes := by
  rw [parseWith_eq]
  constructor
  · intro h
    cases ho : ((scanWithin settings settings.maxDepth).level settings.maxDepth tokens).outcome with
    | error f => simp [ho, Except.map] at h
    | ok content =>
      refine ⟨content, (regular_scanWithin settings _).level_of_outcome ho, ?_⟩
      simpa [ho, Except.map] using h
  · intro h
    obtain ⟨content, hl, rfl⟩ := h
    rw [hl]
    rfl

end TokenForest
