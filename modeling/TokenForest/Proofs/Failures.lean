import TokenForest.Proofs.Steps

set_option autoImplicit false

namespace TokenForest

theorem Row.take?_eq_none {row : Row} {p : Node → Bool} :
    row.take? p = none ↔ ∀ e ∈ row.head?, p e.node = false := by
  cases row with
  | nil => simp [take?]
  | cons e below => simp [take?]

namespace Context

def tooDeep (ctx : Context) (token : Token) : Fault :=
  ⟨.tooDeep ctx.settings.maxDepth, token.position⟩

/-- One failing construct: the token that begins it, the stream and the row before, the fault, and
what is left of both. -/
inductive Fails (ctx : Context) (token : Token) (stream : List Token) (row : Row) :
    Fault → List Token → Row → Prop where
  | unknown {b : Bracket} : token.kind = .closing b →
      Fails ctx token stream row ⟨.unknownToken token.text, token.position⟩ stream row
  | number : token.kind = .number → Binary64.ofLiteral? token.text = none →
      Fails ctx token stream row ⟨.invalidNumber token.text, token.position⟩ stream row
  | operator : token.kind = .operator → ctx.settings.operators.get? token.text = none →
      Fails ctx token stream row ⟨.unknownOperator token.text, token.position⟩ stream row
  | bare : token.kind = .semicolon ∨ token.kind = .questionMark →
      (∀ e ∈ row.head?, e.isOperand = false) →
      Fails ctx token stream row token.unexpected stream row
  | bareDot : token.kind = .period → (∀ e ∈ row.head?, e.isOperand = false) →
      Fails ctx token stream row token.unexpected (secondPeriod stream).2 row
  | unclosed {b : Bracket} : token.kind = .opening b → b.closeFrom 0 stream = none →
      Fails ctx token stream row
        ⟨.unclosedGroup b.closeText, (stream.getLast?.getD token).position⟩ stream row
  | bottomEnclosed {b : Bracket} {close : Nat} : token.kind = .opening b →
      b.closeFrom 0 stream = some close → ctx.below = none →
      Fails ctx token stream row (ctx.tooDeep token) (stream.drop (close + 1)) row
  | bottomDot {left : Entry} {below : Row} : token.kind = .period → row = left :: below →
      left.isOperand = true → ctx.below = none →
      Fails ctx token stream row (ctx.tooDeep token) (secondPeriod stream).2 below
  | bottomChoice {condition : Entry} {below : Row} : token.kind = .questionMark →
      row = condition :: below → condition.isOperand = true → ctx.below = none →
      Fails ctx token stream row (ctx.tooDeep token) stream below
  | inside {b : Bracket} {close : Nat} {scan : Scan} {f : Fault} : token.kind = .opening b →
      b.closeFrom 0 stream = some close → ctx.below = some scan →
      (scan.level ctx.settings.maxDepth (stream.take close)).outcome = .error f →
      Fails ctx token stream row f (stream.drop (close + 1)) row
  | right {left : Entry} {below found : Row} {scan : Scan} {f : Fault} {rest : List Token} :
      token.kind = .period → row = left :: below → left.isOperand = true →
      ctx.below = some scan → scan.one (secondPeriod stream).2 [] = ⟨.error f, rest, found⟩ →
      Fails ctx token stream row f rest below
  | branches {condition : Entry} {below : Row} {scan : Scan} {f : Fault} {rest : List Token} :
      token.kind = .questionMark → row = condition :: below → condition.isOperand = true →
      ctx.below = some scan → scan.level ctx.settings.maxDepth stream = ⟨.error f, rest⟩ →
      Fails ctx token stream row f rest below
  | unattached {b : Bracket} {close : Nat} {scan : Scan} {content : List Entry} {f : Fault}
      {below : Row} : token.kind = .opening b → b.closeFrom 0 stream = some close →
      ctx.below = some scan →
      (scan.level ctx.settings.maxDepth (stream.take close)).outcome = .ok content →
      b.attach token content row = (.error f, below) →
      Fails ctx token stream row f (stream.drop (close + 1)) below
  | noRight {left : Entry} {below found : Row} {scan : Scan} {rest : List Token} :
      token.kind = .period → row = left :: below → left.isOperand = true →
      ctx.below = some scan → scan.one (secondPeriod stream).2 [] = ⟨.ok (), rest, found⟩ →
      (∀ e ∈ found.head?, e.isOperand = false) →
      Fails ctx token stream row token.unexpected rest below
  | noColon {condition : Entry} {below : Row} {scan : Scan} {content : List Entry}
      {rest : List Token} : token.kind = .questionMark → row = condition :: below →
      condition.isOperand = true → ctx.below = some scan →
      scan.level ctx.settings.maxDepth stream = ⟨.ok content, rest⟩ → branches? content = none →
      Fails ctx token stream row token.unexpected rest below
  | tallEnclosed {b : Bracket} {close : Nat} {scan : Scan} {content : List Entry} {e : Entry}
      {below : Row} : token.kind = .opening b → b.closeFrom 0 stream = some close →
      ctx.below = some scan →
      (scan.level ctx.settings.maxDepth (stream.take close)).outcome = .ok content →
      b.attach token content row = (.ok e, below) → ctx.settings.maxDepth < e.depth →
      Fails ctx token stream row (ctx.tooDeep token) (stream.drop (close + 1)) below
  | tallDot {left right : Entry} {below found : Row} {scan : Scan} {rest : List Token} :
      token.kind = .period → row = left :: below → left.isOperand = true →
      ctx.below = some scan →
      scan.one (secondPeriod stream).2 [] = ⟨.ok (), rest, right :: found⟩ →
      right.isOperand = true →
      ctx.settings.maxDepth < (Scan.dotted (secondPeriod stream).1 left right).depth →
      Fails ctx token stream row (ctx.tooDeep token) rest below
  | tallStatement {e : Entry} {below : Row} : token.kind = .semicolon → row = e :: below →
      e.isOperand = true → ctx.settings.maxDepth < e.depth + 1 →
      Fails ctx token stream row (ctx.tooDeep token) stream below
  | tallChoice {condition : Entry} {below : Row} {scan : Scan} {content : List Entry}
      {left right : Node} {depth : Nat} {rest : List Token} : token.kind = .questionMark →
      row = condition :: below → condition.isOperand = true → ctx.below = some scan →
      scan.level ctx.settings.maxDepth stream = ⟨.ok content, rest⟩ →
      branches? content = some (left, right, depth) →
      ctx.settings.maxDepth < max depth (condition.depth + 1) →
      Fails ctx token stream row (ctx.tooDeep token) rest below

variable {ctx : Context} {token : Token} {stream rest rest' : List Token} {row row' : Row}
  {e : Entry} {f : Fault}

theorem finish_eq_error_iff :
    ctx.finish token rest row e = ⟨.error f, rest', row'⟩ ↔
      ctx.settings.maxDepth < e.depth ∧ ctx.tooDeep token = f ∧ rest = rest' ∧ row = row' := by
  unfold finish Row.push? tooDeep
  split
  · rename_i h
    simp [Step.ofRow, h]
  · rename_i h
    simp [Step.ofRow, h]

theorem below?_eq_error_iff :
    ctx.below? token = .error f ↔ ctx.below = none ∧ ctx.tooDeep token = f := by
  unfold below? tooDeep
  cases ctx.below <;> simp

theorem fails_of_enclosed {b : Bracket} (hk : token.kind = .opening b)
    (h : Scan.enclosed ctx b token stream row = ⟨.error f, rest, row'⟩) :
    ctx.Fails token stream row f rest row' := by
  unfold Scan.enclosed at h
  split at h
  · rename_i g rest₁ hi
    cases h
    unfold interior Bracket.findClose at hi
    cases hc : b.closeFrom 0 stream with
    | none =>
      simp only [hc, Reading.mk.injEq, Except.error.injEq] at hi
      obtain ⟨rfl, rfl⟩ := hi
      exact .unclosed hk hc
    | some close =>
      simp only [hc] at hi
      cases hb : ctx.below with
      | none =>
        simp only [below?, hb, Reading.mk.injEq, Except.error.injEq] at hi
        obtain ⟨rfl, rfl⟩ := hi
        exact .bottomEnclosed hk hc hb
      | some scan =>
        simp only [below?, hb, Reading.mk.injEq] at hi
        obtain ⟨hl, rfl⟩ := hi
        exact .inside hk hc hb hl
  · rename_i content rest₁ hi
    obtain ⟨close, scan, hc, hb, hl, rfl⟩ := interior_eq_ok_iff.1 hi
    split at h
    · rename_i g below ha
      cases h
      exact .unattached hk hc hb hl ha
    · rename_i e below ha
      obtain ⟨hd, rfl, rfl, rfl⟩ := finish_eq_error_iff.1 h
      exact .tallEnclosed hk hc hb hl ha hd

theorem fails_of_dot (hk : token.kind = .period)
    (h : Scan.dot ctx token stream row = ⟨.error f, rest, row'⟩) :
    ctx.Fails token stream row f rest row' := by
  unfold Scan.dot at h
  simp only at h
  split at h
  · rename_i hn
    cases h
    exact .bareDot hk (Row.take?_eq_none.1 hn)
  · rename_i left below hl
    obtain ⟨rfl, hlo⟩ := Row.take?_eq_some.1 hl
    split at h
    · rename_i g hb
      cases h
      obtain ⟨hnone, rfl⟩ := below?_eq_error_iff.1 hb
      exact .bottomDot hk rfl hlo hnone
    · rename_i scan hb
      have hb := below?_eq_ok_iff.1 hb
      split at h
      · rename_i ho
        cases h
        exact .right hk rfl hlo hb ho
      · rename_i rest₁ found ho
        split at h
        · rename_i hn
          cases h
          exact .noRight hk rfl hlo hb ho (Row.take?_eq_none.1 hn)
        · rename_i right found' hr
          obtain ⟨rfl, hro⟩ := Row.take?_eq_some.1 hr
          obtain ⟨hd, rfl, rfl, rfl⟩ := finish_eq_error_iff.1 h
          exact .tallDot hk rfl hlo hb ho hro hd

theorem fails_of_semicolon (hk : token.kind = .semicolon)
    (h : Scan.semicolon ctx token stream row = ⟨.error f, rest, row'⟩) :
    ctx.Fails token stream row f rest row' := by
  unfold Scan.semicolon at h
  split at h
  · rename_i hn
    cases h
    exact .bare (.inl hk) (Row.take?_eq_none.1 hn)
  · rename_i e below he
    obtain ⟨rfl, ho⟩ := Row.take?_eq_some.1 he
    obtain ⟨hd, rfl, rfl, rfl⟩ := finish_eq_error_iff.1 h
    exact .tallStatement hk rfl ho hd

theorem fails_of_choice (hk : token.kind = .questionMark)
    (h : Scan.choice ctx token stream row = ⟨.error f, rest, row'⟩) :
    ctx.Fails token stream row f rest row' := by
  unfold Scan.choice at h
  split at h
  · rename_i hn
    cases h
    exact .bare (.inr hk) (Row.take?_eq_none.1 hn)
  · rename_i condition below hc
    obtain ⟨rfl, ho⟩ := Row.take?_eq_some.1 hc
    split at h
    · rename_i g hb
      cases h
      obtain ⟨hnone, rfl⟩ := below?_eq_error_iff.1 hb
      exact .bottomChoice hk rfl ho hnone
    · rename_i scan hb
      have hb := below?_eq_ok_iff.1 hb
      split at h
      · rename_i hl
        cases h
        exact .branches hk rfl ho hb hl
      · rename_i content rest₁ hl
        split at h
        · rename_i hn
          cases h
          exact .noColon hk rfl ho hb hl hn
        · rename_i left right depth hbr
          obtain ⟨hd, rfl, rfl, rfl⟩ := finish_eq_error_iff.1 h
          exact .tallChoice hk rfl ho hb hl hbr hd

theorem fails_of_scan (h : ctx.scan token stream row = ⟨.error f, rest, row'⟩) :
    ctx.Fails token stream row f rest row' := by
  unfold Context.scan at h
  cases hc : Construct.of? token with
  | none =>
    simp only [hc] at h
    cases h
    obtain ⟨b, hb⟩ := Construct.of?_eq_none_iff.1 hc
    exact .unknown hb
  | some c =>
    have hk := Construct.of?_eq_some_iff.1 hc
    simp only [hc] at h
    cases c with
    | delimiter => cases stream <;> cases h
    | comment | string | identifier => cases h
    | number =>
      simp only [Construct.scan, Scan.number] at h
      split at h
      · cases h
      · rename_i hv
        cases h
        exact .number hk hv
    | operator =>
      simp only [Construct.scan, Scan.operator] at h
      split at h
      · cases h
      · rename_i hi
        cases h
        exact .operator hk hi
    | parenthesis | set | block => exact fails_of_enclosed hk h
    | dot => exact fails_of_dot hk h
    | semicolon => exact fails_of_semicolon hk h
    | choice => exact fails_of_choice hk h

theorem scan_enclosed_of_kind {b : Bracket} (hk : token.kind = .opening b) :
    ctx.scan token stream row = Scan.enclosed ctx b token stream row := by
  cases b with
  | parenthesis => rw [scan_of_kind (c := .parenthesis) hk]; rfl
  | brace => rw [scan_of_kind (c := .block) hk]; rfl
  | square => rw [scan_of_kind (c := .set) hk]; rfl

theorem Fails.scan_eq (h : ctx.Fails token stream row f rest row') :
    ctx.scan token stream row = ⟨.error f, rest, row'⟩ := by
  cases h with
  | unknown hk =>
    rw [Context.scan, Construct.of?_eq_none_iff.2 ⟨_, hk⟩]
  | number hk hv =>
    rw [scan_of_kind (c := .number) hk]
    simp only [Construct.scan, Scan.number, hv]
  | operator hk hi =>
    rw [scan_of_kind (c := .operator) hk]
    simp only [Construct.scan, Scan.operator, hi]
  | bare hk hn =>
    rcases hk with hk | hk
    · rw [scan_of_kind (c := .semicolon) hk]
      simp only [Construct.scan, Scan.semicolon, Row.take?_eq_none.2 hn]
    · rw [scan_of_kind (c := .choice) hk]
      simp only [Construct.scan, Scan.choice, Row.take?_eq_none.2 hn]
  | bareDot hk hn =>
    rw [scan_of_kind (c := .dot) hk]
    simp only [Construct.scan, Scan.dot, Row.take?_eq_none.2 hn]
  | unclosed hk hc =>
    rw [scan_enclosed_of_kind hk]
    simp only [Scan.enclosed, interior, Bracket.findClose, hc]
  | bottomEnclosed hk hc hb =>
    rw [scan_enclosed_of_kind hk]
    simp only [Scan.enclosed, interior, Bracket.findClose, hc, below?_eq_error_iff.2 ⟨hb, rfl⟩]
  | bottomDot hk hr ho hb =>
    rw [scan_of_kind (c := .dot) hk]
    subst hr
    simp only [Construct.scan, Scan.dot, Row.take?_eq_some.2 ⟨rfl, ho⟩,
      below?_eq_error_iff.2 ⟨hb, rfl⟩]
  | bottomChoice hk hr ho hb =>
    rw [scan_of_kind (c := .choice) hk]
    subst hr
    simp only [Construct.scan, Scan.choice, Row.take?_eq_some.2 ⟨rfl, ho⟩,
      below?_eq_error_iff.2 ⟨hb, rfl⟩]
  | inside hk hc hb hl =>
    rw [scan_enclosed_of_kind hk]
    simp only [Scan.enclosed, interior, Bracket.findClose, hc, below?_eq_ok_iff.2 hb, hl]
  | right hk hr ho hb hs =>
    rw [scan_of_kind (c := .dot) hk]
    subst hr
    simp only [Construct.scan, Scan.dot, Row.take?_eq_some.2 ⟨rfl, ho⟩, below?_eq_ok_iff.2 hb, hs]
  | branches hk hr ho hb hl =>
    rw [scan_of_kind (c := .choice) hk]
    subst hr
    simp only [Construct.scan, Scan.choice, Row.take?_eq_some.2 ⟨rfl, ho⟩,
      below?_eq_ok_iff.2 hb, hl]
  | unattached hk hc hb hl ha =>
    rw [scan_enclosed_of_kind hk]
    simp only [Scan.enclosed, interior_eq_ok_iff.2 ⟨_, _, hc, hb, hl, rfl⟩, ha]
  | noRight hk hr ho hb hs hn =>
    rw [scan_of_kind (c := .dot) hk]
    subst hr
    simp only [Construct.scan, Scan.dot, Row.take?_eq_some.2 ⟨rfl, ho⟩, below?_eq_ok_iff.2 hb, hs,
      Row.take?_eq_none.2 hn]
  | noColon hk hr ho hb hl hn =>
    rw [scan_of_kind (c := .choice) hk]
    subst hr
    simp only [Construct.scan, Scan.choice, Row.take?_eq_some.2 ⟨rfl, ho⟩,
      below?_eq_ok_iff.2 hb, hl, hn]
  | tallEnclosed hk hc hb hl ha hd =>
    rw [scan_enclosed_of_kind hk]
    simp only [Scan.enclosed, interior_eq_ok_iff.2 ⟨_, _, hc, hb, hl, rfl⟩, ha]
    exact finish_eq_error_iff.2 ⟨hd, rfl, rfl, rfl⟩
  | tallDot hk hr ho hb hs hro hd =>
    rw [scan_of_kind (c := .dot) hk]
    subst hr
    simp only [Construct.scan, Scan.dot, Row.take?_eq_some.2 ⟨rfl, ho⟩, below?_eq_ok_iff.2 hb, hs,
      Row.take?_eq_some.2 ⟨rfl, hro⟩]
    exact finish_eq_error_iff.2 ⟨hd, rfl, rfl, rfl⟩
  | tallStatement hk hr ho hd =>
    rw [scan_of_kind (c := .semicolon) hk]
    subst hr
    simp only [Construct.scan, Scan.semicolon, Row.take?_eq_some.2 ⟨rfl, ho⟩]
    exact finish_eq_error_iff.2 ⟨hd, rfl, rfl, rfl⟩
  | tallChoice hk hr ho hb hl hbr hd =>
    rw [scan_of_kind (c := .choice) hk]
    subst hr
    simp only [Construct.scan, Scan.choice, Row.take?_eq_some.2 ⟨rfl, ho⟩,
      below?_eq_ok_iff.2 hb, hl, hbr]
    exact finish_eq_error_iff.2 ⟨hd, rfl, rfl, rfl⟩

end Context

/-- What a fold that fails at the operator can be blamed for. -/
def Operator.Blames (op : Operator) (limit : Nat) (f : Fault) : Prop :=
  f = ⟨.missingOperand op.symbol, op.position⟩ ∨ f = ⟨.tooDeep limit, op.position⟩

theorem Operator.blames_of_join {op : Operator} {limit : Nat} {left right : Option Entry}
    {f : Fault} (h : op.join limit left right = .error f) : op.Blames limit f := by
  unfold join at h
  split at h
  · split at h
    · split at h
      · cases h
        exact .inr rfl
      · cases h
    · cases h
      exact .inl rfl
  · cases h
    exact .inl rfl

theorem Links.exists_blames_of_foldAll {limit : Nat} {links : Links Entry} {ms : List Marker}
    {f : Fault} (h : links.foldAll (Operator.join limit) ms = .error f) : ∃ m ∈ ms, m.operator.Blames limit f := by
  induction ms generalizing links with
  | nil => cases h
  | cons m ms ih =>
    simp only [foldAll] at h
    cases hf : links.fold (Operator.join limit) m with
    | ok links' =>
      rw [hf] at h
      obtain ⟨n, hn, hb⟩ := ih h
      exact ⟨n, List.mem_cons_of_mem _ hn, hb⟩
    | error g =>
      rw [hf] at h
      obtain rfl : g = f := Except.error.inj h
      refine ⟨m, List.mem_cons_self, ?_⟩
      simp only [fold] at hf
      cases hj : m.operator.join limit (links.entry? (links.before? (some m.index)))
          (links.entry? (links.after? (some m.index))) with
      | ok e => simp [hj, Except.map] at hf
      | error g' =>
        rw [hj] at hf
        obtain rfl : g' = g := Except.error.inj hf
        exact Operator.blames_of_join hj

theorem exists_blames_of_foldMarkers {limit : Nat} {entries : List Entry} {f : Fault}
    (h : foldMarkers limit entries = .error f) :
    ∃ m ∈ Marker.ordered entries, m.operator.Blames limit f := by
  unfold foldMarkers at h
  cases hf : Links.foldAll (Operator.join limit) (Links.ofList entries)
      (Marker.ordered entries) with
  | ok links => simp [hf, Except.map] at h
  | error g =>
    rw [hf] at h
    obtain rfl : g = f := Except.error.inj h
    exact Links.exists_blames_of_foldAll hf

namespace Bracket

/-- An enclosure that cannot be attached is a brace after a call without a name; the call is
gone. -/
theorem attach_eq_error {b : Bracket} {token : Token} {content : List Entry} {row below : Row}
    {f : Fault} (h : b.attach token content row = (.error f, below)) :
    b = .brace ∧ f = token.unexpected ∧ ∃ e, row = e :: below ∧ e.node.kind = .call := by
  cases b with
  | parenthesis | square => cases h
  | brace =>
    simp only [attach, attachBrace] at h
    split at h <;> cases h
    exact ⟨rfl, rfl, _, rfl, rfl⟩

end Bracket

namespace Scan

variable {scan : Scan} {stream rest : List Token} {row row' : Row} {fuel : Nat} {f : Fault}

theorem exists_runs_of_drain (h : scan.drain fuel stream row = ⟨.error f, rest, row'⟩) :
    ∃ t ts mid, Runs scan stream row (t :: ts) mid ∧ scan t ts mid = ⟨.error f, rest, row'⟩ := by
  induction fuel generalizing stream row with
  | zero => cases h
  | succ fuel ih =>
    cases stream with
    | nil => cases h
    | cons t ts =>
      unfold drain at h
      split at h
      · rename_i next row₁ ht
        obtain ⟨s, ss, mid, hrun, hs⟩ := ih h
        exact ⟨s, ss, mid, .step ht hrun, hs⟩
      · rename_i g rest₁ row₁ ht
        cases h
        exact ⟨t, ts, row, .refl _ _, ht⟩

theorem Runs.drain_eq_error {tail : List Token} {t : Token} {ts : List Token} {mid : Row}
    (hs : scan.Shrinks) (h : Runs scan stream row tail mid) (htail : tail = t :: ts)
    (ht : scan t ts mid = ⟨.error f, rest, row'⟩) (hf : stream.length ≤ fuel) :
    scan.drain fuel stream row = ⟨.error f, rest, row'⟩ := by
  induction h generalizing fuel with
  | refl =>
    subst htail
    cases fuel with
    | zero => simp at hf
    | succ fuel => simp only [drain, ht]
  | step hstep _ ih =>
    cases fuel with
    | zero => simp at hf
    | succ fuel =>
      have hlen := hs hstep
      simp only [drain, hstep]
      exact ih htail ht (by simp only [List.length_cons] at hf; omega)

theorem Runs.level_eq_error {t : Token} {ts : List Token} {mid : Row} (hs : scan.Shrinks)
    (h : Runs scan stream [] (t :: ts) mid) (ht : scan t ts mid = ⟨.error f, rest, row'⟩)
    (limit : Nat) : scan.level limit stream = ⟨.error f, rest⟩ := by
  simp only [level, h.drain_eq_error hs rfl ht (Nat.le_refl _)]

theorem level_eq_error (hs : scan.Shrinks) {limit : Nat}
    (h : (scan.level limit stream).outcome = .error f) :
    (∃ t ts mid rest row', Runs scan stream [] (t :: ts) mid ∧
        scan t ts mid = ⟨.error f, rest, row'⟩) ∨
      ∃ row, Runs scan stream [] [] row ∧ foldMarkers limit row.reverse = .error f := by
  unfold level at h
  split at h
  · rename_i rest row hd
    obtain ⟨-, hrun⟩ := runs_of_drain hs (Nat.le_refl _) hd
    exact .inr ⟨row, hrun, h⟩
  · rename_i g rest row hd
    obtain rfl : g = f := Except.error.inj h
    obtain ⟨t, ts, mid, hrun, ht⟩ := exists_runs_of_drain hd
    exact .inl ⟨t, ts, mid, rest, row, hrun, ht⟩

end Scan

theorem parseWith_eq_error_iff {settings : Settings} {tokens : List Token} {f : Fault} :
    parseWith settings tokens = .error f ↔
      ((scanWithin settings settings.maxDepth).level settings.maxDepth tokens).outcome =
        .error f := by
  rw [parseWith_eq]
  cases ((scanWithin settings settings.maxDepth).level settings.maxDepth tokens).outcome <;>
    simp [Except.map]

end TokenForest
