import TokenForest.Node.Lexemes
import TokenForest.Node.Tokens
import TokenForest.Proofs.Precedence
import TokenForest.Proofs.Steps

set_option autoImplicit false

namespace TokenForest

def Token.isLexical (t : Token) : Bool :=
  match t.kind with
  | .word | .number | .string | .comment | .operator => true
  | _ => false

/-- A lexeme of a tree and the token it was read from. -/
def Lexeme.Of (x : Lexeme) (t : Token) : Prop := ∃ y, t.lexeme? = some y ∧ x.Stands y

def Token.lexical (ts : List Token) : List Token := ts.filter Token.isLexical

theorem Token.lexical_append (ts us : List Token) :
    lexical (ts ++ us) = lexical ts ++ lexical us := List.filter_append ..

theorem Token.lexical_cons_of_not {t : Token} {ts : List Token} (h : t.isLexical = false) :
    lexical (t :: ts) = lexical ts := by
  simp [lexical, h]

@[simp] theorem Token.lexical_regroup (ts : List Token) : lexical (regroup ts) = lexical ts := by
  cases ts with
  | nil => rfl
  | cons t ts =>
    simp only [regroup, grouped]
    split
    · rename_i h
      simp [lexical, isLexical, h]
    · rfl

theorem Token.lexical_secondPeriod (ts : List Token) :
    lexical (secondPeriod ts).2 = lexical ts := by
  unfold secondPeriod
  split
  · rfl
  · split
    · rename_i h
      rw [lexical_cons_of_not (by simp [isLexical, h])]
    · rfl

theorem Token.atom?_eq_some {table : OperatorTable} {t : Token} {n : Node}
    (h : t.atom? table = some n) :
    t.isLexical = true ∧ ∃ x, n.lexemes = [x] ∧ t.lexeme? = some x := by
  unfold atom? at h
  split at h
  · rename_i hk
    cases h
    exact ⟨by rw [isLexical, hk], _, rfl, by rw [lexeme?, hk]⟩
  · rename_i hk
    obtain ⟨value, hv, rfl⟩ := Option.map_eq_some_iff.1 h
    exact ⟨by rw [isLexical, hk], _, rfl, by rw [lexeme?, hk, hv]; rfl⟩
  · rename_i hk
    cases h
    exact ⟨by rw [isLexical, hk], _, rfl, by rw [lexeme?, hk]⟩
  · rename_i hk
    cases h
    exact ⟨by rw [isLexical, hk], _, rfl, by rw [lexeme?, hk]⟩
  · rename_i hk
    obtain ⟨info, hi, rfl⟩ := Option.map_eq_some_iff.1 h
    exact ⟨by rw [isLexical, hk], _, rfl, by rw [lexeme?, hk]⟩
  · cases h

namespace Node

theorem reading_eq_flatMap (ns : List Node) : reading ns = ns.flatMap lexemes := by
  induction ns with
  | nil => rfl
  | cons n ns ih => rw [reading, ih, List.flatMap_cons]

theorem reading_foldMarkers {limit : Nat} {entries out : List Entry}
    (h : foldMarkers limit entries = .ok out) :
    reading (out.map Entry.node) = reading (entries.map Entry.node) := by
  rw [reading_eq_flatMap, reading_eq_flatMap]
  exact Expression.flatMap_foldMarkers (fun op left right => by simp [lexemes]) h

end Node

@[simp] theorem Row.nodes_cons (e : Entry) (row : Row) :
    Row.nodes (e :: row) = Row.nodes row ++ [e.node] := by
  simp [nodes]

theorem Bracket.Attaches.reading_eq {token : Token} {content : List Entry} {b : Bracket}
    {row below : Row} {e : Entry} (h : Attaches token content b row e below) :
    Node.reading (Row.nodes (e :: below)) =
      Node.reading row.nodes ++ Node.reading (content.map Entry.node) := by
  cases h <;> simp [Node.reading_append, Node.reading, Node.lexemes]

namespace Scan

/-- What a construct adds to the row is read from the tokens that it takes. -/
def Faithful (scan : Scan) : Prop :=
  ∀ ⦃t : Token⦄ ⦃ts rest : List Token⦄ ⦃row row' : Row⦄,
    scan t ts row = ⟨.ok (), rest, row'⟩ →
    ∃ new used, Node.reading row'.nodes = Node.reading row.nodes ++ new ∧
      Token.lexical (t :: ts) = used ++ Token.lexical rest ∧ List.Forall₂ Lexeme.Of new used

variable {scan : Scan} {stream rest : List Token} {row row' : Row}

theorem Faithful.runs (h : scan.Faithful) (hr : scan.Runs stream row rest row') :
    ∃ new used, Node.reading row'.nodes = Node.reading row.nodes ++ new ∧
      Token.lexical stream = used ++ Token.lexical rest ∧ List.Forall₂ Lexeme.Of new used := by
  induction hr with
  | refl stream row => exact ⟨[], [], by simp, by simp, .nil⟩
  | step hs _ ih =>
    obtain ⟨new, used, hn, hu, hf⟩ := h hs
    obtain ⟨new', used', hn', hu', hf'⟩ := ih
    refine ⟨new ++ new', used ++ used', ?_, ?_, List.rel_append hf hf'⟩
    · rw [hn', hn, List.append_assoc]
    · rw [hu, hu', List.append_assoc]

theorem Faithful.level (h : scan.Faithful) (hs : scan.Shrinks) {limit : Nat}
    {content : List Entry} (hl : scan.level limit stream = ⟨.ok content, rest⟩) :
    rest = [] ∧
      List.Forall₂ Lexeme.Of (Node.reading (content.map Entry.node)) (Token.lexical stream) := by
  obtain ⟨hr, row, hrun, hf⟩ := (level_eq_ok_iff hs).1 hl
  obtain ⟨new, used, hn, hu, hall⟩ := h.runs hrun
  have hnew : Node.reading (content.map Entry.node) = new := by
    rw [Node.reading_foldMarkers hf]
    simpa [Row.nodes, Node.reading] using hn
  have hused : Token.lexical stream = used := by simpa [Token.lexical] using hu
  rw [hnew, hused]
  exact ⟨hr, hall⟩

end Scan

theorem Lexeme.Of.forget {s : String} {p : Option Position} {t : Token}
    (h : Lexeme.Of (.symbol s p) t) : Lexeme.Of (.symbol s none) t := by
  obtain ⟨y, hy, hs⟩ := h
  refine ⟨y, hy, ?_⟩
  cases p with
  | none => exact hs
  | some p =>
    obtain rfl : Lexeme.symbol s (some p) = y := hs
    rfl

theorem Lexeme.forall₂_colon {xs ys : List Lexeme} {ts : List Token} {s : String}
    {p : Option Position} (h : List.Forall₂ Lexeme.Of (xs ++ .symbol s p :: ys) ts) :
    List.Forall₂ Lexeme.Of (xs ++ .symbol s none :: ys) ts := by
  induction xs generalizing ts with
  | nil =>
    obtain ⟨t, us, hx, hy, rfl⟩ := List.forall₂_cons_left_iff.1 h
    exact .cons hx.forget hy
  | cons x xs ih =>
    obtain ⟨t, us, hx, hy, rfl⟩ := List.forall₂_cons_left_iff.1 h
    exact .cons hx (ih hy)

theorem Context.Reads.faithful {ctx : Context} {token : Token} {stream rest : List Token}
    {row row' : Row} (hb : ∀ scan, ctx.below = some scan → scan.Faithful ∧ scan.Regular)
    (h : ctx.Reads token stream row rest row') :
    ∃ new used, Node.reading row'.nodes = Node.reading row.nodes ++ new ∧
      Token.lexical (token :: stream) = used ++ Token.lexical rest ∧
      List.Forall₂ Lexeme.Of new used := by
  cases h with
  | delimiter hk =>
    refine ⟨[], [], by simp, ?_, .nil⟩
    rw [Token.lexical_cons_of_not (by simp [Token.isLexical, hk]), Token.lexical_regroup]
    rfl
  | @atom n hn =>
    obtain ⟨hlex, x, hx, hy⟩ := Token.atom?_eq_some hn
    refine ⟨[x], [token], ?_, ?_, .cons ⟨x, hy, x.stands_self⟩ .nil⟩
    · simp [Node.reading_append, Node.reading, hx]
    · simp [Token.lexical, hlex]
  | @enclosed b close scan content e below hk hc hbs hl ha hd =>
    obtain ⟨closer, hck, hsplit⟩ := Bracket.closeFrom_split hc
    obtain ⟨hf, hs⟩ := hb scan hbs
    obtain ⟨-, hall⟩ := hf.level hs.shrinks (hs.level_of_outcome hl)
    refine ⟨_, _, (Bracket.attaches_of_attach ha).reading_eq, ?_, hall⟩
    rw [Token.lexical_cons_of_not (by simp [Token.isLexical, hk])]
    conv_lhs => rw [hsplit]
    rw [Token.lexical_append, Token.lexical_cons_of_not (by simp [Token.isLexical, hck])]
  | @dot left right below found scan rest hk hr hlo hbs ho hro hd =>
    obtain ⟨hf, hs⟩ := hb scan hbs
    obtain ⟨t, ts, hts, rfl, hscan⟩ := hs.one_eq_ok ho
    obtain ⟨new, used, hn, hu, hall⟩ := hf hscan
    refine ⟨new, used, ?_, ?_, hall⟩
    · have hright : right.node.lexemes = new := by
        simpa [Row.nodes, Node.reading] using hn
      rw [hr, ← hright]
      cases (secondPeriod stream).1 <;>
        simp [Scan.dotted, Node.reading_append, Node.reading, Node.lexemes]
    · rw [Token.lexical_cons_of_not (by simp [Token.isLexical, hk]), ← hu, ← hts,
        Token.lexical_secondPeriod]
  | @semicolon e below hk hr ho hd =>
    refine ⟨[], [], ?_, ?_, .nil⟩
    · simp [hr, Node.reading_append, Node.reading, Node.lexemes]
    · rw [Token.lexical_cons_of_not (by simp [Token.isLexical, hk])]
      rfl
  | @choice condition below scan op left right depth rest hk hr ho hbs hl hs hd =>
    obtain ⟨hf, hreg⟩ := hb scan hbs
    obtain ⟨rfl, hall⟩ := hf.level hreg.shrinks hl
    refine ⟨left.lexemes ++ .symbol ":" none :: right.lexemes, Token.lexical stream, ?_, ?_, ?_⟩
    · simp [hr, Node.reading_append, Node.reading, Node.lexemes]
    · rw [Token.lexical_cons_of_not (by simp [Token.isLexical, hk])]
      simp [Token.lexical]
    · simp only [List.map_cons, List.map_nil, Node.reading, Node.lexemes, List.append_nil,
        hs] at hall
      exact Lexeme.forall₂_colon hall

theorem faithful_scanWithin (settings : Settings) (room : Nat) :
    (scanWithin settings room).Faithful := by
  have h := scanWithin_induction settings (P := fun scan => scan.Faithful ∧ scan.Regular)
    (fun below hb => ⟨fun _ _ _ _ _ h => (Context.reads_of_scan h).faithful hb,
      Context.regular_scan fun scan hs => (hb scan hs).2⟩) room
  exact h.1

/-- Of a text that is stripped, so many characters are dropped at the beginning, and then as many at
the end. -/
theorem Text.toList_inner (margin : Nat) (text : String) :
    (inner margin text).toList = ((text.toList.drop margin).reverse.drop margin).reverse := by
  rw [List.drop_reverse, List.reverse_reverse, List.length_drop, inner, String.toList_ofList,
    Nat.two_mul, Nat.sub_add_eq]

/-- No token is lost, doubled or moved: the lexemes of the forest, from left to right, are those of
the words, literals, comments and operators of the token list, the colon of a choice without its
place. -/
theorem reading_parseWith {settings : Settings} {tokens : List Token} {nodes : List Node}
    (h : parseWith settings tokens = .ok nodes) :
    List.Forall₂ Lexeme.Of (Node.reading nodes) (tokens.filter Token.isLexical) := by
  obtain ⟨content, hl, rfl⟩ := parseWith_eq_ok_iff.1 h
  exact ((faithful_scanWithin settings _).level (regular_scanWithin settings _).shrinks hl).2

/-- The tokens of a function f(x) whose body is a ? b : c - 2, and of a group ("g" .. h /*i*/). -/
def choiceTokens : List Token :=
  let word (name : String) : Token := .plain .word name
  word "f" :: Bracket.parenthesis.enclose [word "x"]
    ++ Bracket.brace.enclose [word "a", .plain .questionMark "?", word "b", .plain .operator ":",
      word "c", .plain .operator "-", .plain .number "2"]
    ++ .plain .delimiter "," :: Bracket.parenthesis.enclose
      [.plain .string "\"g\"", .plain .period ".", .plain .period ".", word "h",
        .plain .comment "/*i*/"]

def choiceNodes : List Node :=
  [.function (some "f") [.identifier "x"] [.ternary (.identifier "a") (.identifier "b")
      (.binary ⟨"-", "subtract", 13, .nowhere⟩ (.identifier "c")
        (.number ((Binary64.ofLiteral? "2").getD .nan)))],
    .group [.range (.string "g") (.identifier "h"), .comment "i"]]

theorem reading_parseWith_choice :
    parseWith .standard choiceTokens = .ok choiceNodes ∧
      List.Forall₂ Lexeme.Of (Node.reading choiceNodes)
        (choiceTokens.filter Token.isLexical) := by
  have h : parseWith .standard choiceTokens = .ok choiceNodes := rfl
  exact ⟨h, reading_parseWith h⟩

end TokenForest
