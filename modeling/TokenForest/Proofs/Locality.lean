import TokenForest.Proofs.Failures
import TokenForest.Proofs.Separation

set_option autoImplicit false

namespace TokenForest

def Step.above (under : Row) (s : Step) : Step := ⟨s.outcome, s.rest, s.row ++ under⟩

theorem Step.eq_of_outcome {s : Step} {outcome : Except Fault Unit} (h : s.outcome = outcome) :
    s = ⟨outcome, s.rest, s.row⟩ := by
  rw [← h]

section Rows

variable {ctx : Context} {token : Token} {content : List Entry} {b : Bracket}
  {stream rest : List Token} {row row' below : Row} {e : Entry} {f : Fault}

theorem Bracket.attach_error_append (h : b.attach token content row = (.error f, below))
    (under : Row) : b.attach token content (row ++ under) = (.error f, below ++ under) := by
  obtain ⟨rfl, rfl, e, rfl, hk⟩ := attach_eq_error h
  obtain ⟨n, depth⟩ := e
  cases n with
  | call callee arguments =>
    cases callee with
    | identifier name => cases h
    | _ => rfl
  | _ => cases hk

theorem Bracket.attach_row_eq {outcome : Except Fault Entry}
    (h : b.attach token content row = (outcome, below)) : below = row ∨ below = row.tail := by
  cases outcome with
  | error f =>
    obtain ⟨-, -, e, rfl, -⟩ := attach_eq_error h
    exact .inr rfl
  | ok e =>
    cases attaches_of_attach h with
    | call | index | named | anonymous => exact .inr rfl
    | group | set | block => exact .inl rfl

namespace Context

theorem Fails.append_row (h : ctx.Fails token stream row f rest row') (hr : row ≠ [])
    (under : Row) : ctx.Fails token stream (row ++ under) f rest (row' ++ under) := by
  have hhead : (row ++ under).head? = row.head? := List.head?_append_of_ne_nil _ hr
  cases h with
  | unknown hk => exact .unknown hk
  | number hk hv => exact .number hk hv
  | operator hk hi => exact .operator hk hi
  | bare hk hn => exact .bare hk (by rwa [hhead])
  | bareDot hk hn => exact .bareDot hk (by rwa [hhead])
  | unclosed hk hc => exact .unclosed hk hc
  | bottomEnclosed hk hc hb => exact .bottomEnclosed hk hc hb
  | bottomDot hk hrow ho hb => exact .bottomDot hk (by rw [hrow]; rfl) ho hb
  | bottomChoice hk hrow ho hb => exact .bottomChoice hk (by rw [hrow]; rfl) ho hb
  | inside hk hc hb hl => exact .inside hk hc hb hl
  | right hk hrow ho hb hone => exact .right hk (by rw [hrow]; rfl) ho hb hone
  | branches hk hrow ho hb hl => exact .branches hk (by rw [hrow]; rfl) ho hb hl
  | unattached hk hc hb hl ha =>
    exact .unattached hk hc hb hl (Bracket.attach_error_append ha under)
  | noRight hk hrow ho hb hone hn => exact .noRight hk (by rw [hrow]; rfl) ho hb hone hn
  | noColon hk hrow ho hb hl hn => exact .noColon hk (by rw [hrow]; rfl) ho hb hl hn
  | tallEnclosed hk hc hb hl ha hd =>
    have ha' := ((Bracket.attaches_of_attach ha).append_row hr under).attach_eq
    exact .tallEnclosed hk hc hb hl ha' hd
  | tallDot hk hrow ho hb hone hro hd =>
    exact .tallDot hk (by rw [hrow]; rfl) ho hb hone hro hd
  | tallStatement hk hrow ho hd => exact .tallStatement hk (by rw [hrow]; rfl) ho hd
  | tallChoice hk hrow ho hb hl hbr hd =>
    exact .tallChoice hk (by rw [hrow]; rfl) ho hb hl hbr hd

theorem Reads.row_eq (h : ctx.Reads token stream row rest row') :
    row' = row ∨ (∃ e, row' = e :: row) ∨ ∃ e, row' = e :: row.tail := by
  cases h with
  | delimiter => exact .inl rfl
  | atom => exact .inr (.inl ⟨_, rfl⟩)
  | enclosed hk hc hb hl ha hd =>
    rcases Bracket.attach_row_eq ha with rfl | rfl
    · exact .inr (.inl ⟨_, rfl⟩)
    · exact .inr (.inr ⟨_, rfl⟩)
  | dot hk hrow | semicolon hk hrow | choice hk hrow =>
    subst hrow
    exact .inr (.inr ⟨_, rfl⟩)

theorem Fails.row_eq (h : ctx.Fails token stream row f rest row') :
    row' = row ∨ row' = row.tail := by
  cases h with
  | unknown | number | operator | bare | bareDot | unclosed | bottomEnclosed | inside =>
    exact .inl rfl
  | unattached hk hc hb hl ha | tallEnclosed hk hc hb hl ha => exact Bracket.attach_row_eq ha
  | bottomDot hk hrow | bottomChoice hk hrow | right hk hrow | branches hk hrow | noRight hk hrow
  | noColon hk hrow | tallDot hk hrow | tallStatement hk hrow | tallChoice hk hrow =>
    subst hrow
    exact .inr rfl

theorem scan_append_row (hr : row ≠ []) (under : Row) :
    ctx.scan token stream (row ++ under) = (ctx.scan token stream row).above under := by
  cases hs : ctx.scan token stream row with
  | mk outcome rest row' =>
    cases outcome with
    | ok u => exact ((reads_of_scan hs).append_row hr under).1.scan_eq
    | error f => exact ((fails_of_scan hs).append_row hr under).scan_eq

end Context

end Rows

/-- A construct on a row with anything on it does what it does on the newest part of the row alone,
and the older part stays below. It adds one entry to the newest part, or puts one in the place of
the newest, or leaves it; if it fails, it leaves it or takes the newest entry away. -/
theorem Reader.one_append_row (r : Reader) (stream : List Token) {newer : Row} (h : newer ≠ []) :
    (∀ older, (r.one stream (newer ++ older)).outcome = (r.one stream newer).outcome ∧
        (r.one stream (newer ++ older)).rest = (r.one stream newer).rest ∧
        (r.one stream (newer ++ older)).row = (r.one stream newer).row ++ older) ∧
      ((r.one stream newer).outcome = .ok () →
        (r.one stream newer).row = newer ∨ (∃ e, (r.one stream newer).row = e :: newer) ∨
          ∃ e, (r.one stream newer).row = e :: newer.tail) ∧
      ∀ f, (r.one stream newer).outcome = .error f →
        (r.one stream newer).row = newer ∨ (r.one stream newer).row = newer.tail := by
  cases stream with
  | nil => exact ⟨fun older => ⟨rfl, rfl, rfl⟩, fun _ => .inl rfl, fun f hf => by cases hf⟩
  | cons t ts =>
    have hone (row : Row) : r.one (t :: ts) row = r.context.scan t ts row := rfl
    refine ⟨fun older => ?_, fun hok => ?_, fun f hf => ?_⟩
    · rw [hone, hone, Context.scan_append_row h]
      exact ⟨rfl, rfl, rfl⟩
    · rw [hone] at hok ⊢
      exact (Context.reads_of_scan (Step.eq_of_outcome hok)).row_eq
    · rw [hone] at hf ⊢
      exact (Context.fails_of_scan (Step.eq_of_outcome hf)).row_eq

def operandRow (name : String) : Row := [⟨.identifier name, 0⟩]

def argumentTokens : List Token := Bracket.parenthesis.enclose [.plain .word "x"]

/-- The tokens of .+, which is no member. -/
def hangingTokens : List Token := [.plain .period ".", .plain .operator "+"]

/-- After a and f the call takes f over, and the period takes it away before it fails; both leave
a. -/
theorem Reader.one_append_row_name :
    operandRow "f" ≠ [] ∧
      ((Reader.top .standard).one argumentTokens (operandRow "f" ++ operandRow "a")).row =
        ((Reader.top .standard).one argumentTokens (operandRow "f")).row ++ operandRow "a" ∧
      ((Reader.top .standard).one hangingTokens (operandRow "f" ++ operandRow "a")).row =
        operandRow "a" ∧
      ((Reader.top .standard).one hangingTokens (operandRow "f" ++ operandRow "a")).outcome =
        .error ⟨.unexpectedToken ".", .nowhere⟩ := by
  have hne : operandRow "f" ≠ [] := by simp [operandRow]
  have hcall := Reader.one_append_row (.top .standard) argumentTokens hne
  have hdot := Reader.one_append_row (.top .standard) hangingTokens hne
  exact ⟨hne, (hcall.1 _).2.2, (hdot.1 _).2.2, (hdot.1 _).1⟩

end TokenForest
