import TokenForest.Proofs.Neighbours
import TokenForest.Proofs.Reading

/-!
What is read stands in the trees. A construct takes tokens off the stream and writes them into the
row, so that the row and the stream, one after the other, have the same kinds of tokens before and
after; only delimiters are lost.
-/

set_option autoImplicit false

namespace TokenForest

namespace Token

def spelling (ts : List Token) : List TokenKind := (solid ts).map kind

variable {t : Token} {ts us : List Token}

@[simp] theorem spelling_nil : spelling [] = [] := rfl

@[simp] theorem spelling_append (ts us : List Token) :
    spelling (ts ++ us) = spelling ts ++ spelling us := by
  rw [spelling, solid_append, List.map_append]
  rfl

theorem spelling_cons (h : t.kind ≠ .delimiter) : spelling (t :: ts) = t.kind :: spelling ts := by
  rw [spelling, solid_cons h]
  rfl

theorem spelling_cons_delimiter (h : t.kind = .delimiter) : spelling (t :: ts) = spelling ts := by
  rw [spelling, solid_cons_delimiter h]
  rfl

theorem spelling_of_kinds (h : ts.map kind = us.map kind) : spelling ts = spelling us := by
  have hfilter (ts : List Token) : spelling ts = (ts.map kind).filter fun k => k != .delimiter := by
    rw [List.filter_map]
    rfl
  rw [hfilter, hfilter, h]

@[simp] theorem spelling_regroup (ts : List Token) : spelling (regroup ts) = spelling ts := by
  refine spelling_of_kinds ?_
  cases ts with
  | nil => rfl
  | cons t ts =>
    rw [regroup, grouped]
    split <;> rfl

@[simp] theorem spelling_plain {k : TokenKind} {text : String} (h : k ≠ .delimiter) :
    spelling (.plain k text :: ts) = k :: spelling ts := spelling_cons h

@[simp] theorem spelling_operator (op : Operator) :
    spelling (op.token :: ts) = .operator :: spelling ts :=
  spelling_cons (by simp [Operator.token])

@[simp] theorem spelling_enclose (b : Bracket) (inside : List Token) :
    spelling (b.enclose inside) = .opening b :: (spelling inside ++ [.closing b]) := by
  simp [Bracket.enclose]

end Token

namespace Node

/-- How the tree is written, but for the texts and the delimiters. -/
def spelling (n : Node) : List TokenKind := Token.spelling n.tokens

@[simp] theorem spelling_listed (ns : List Node) :
    Token.spelling (listed ns) = ns.flatMap spelling := by
  induction ns with
  | nil => rfl
  | cons n ns ih =>
    cases ns with
    | nil => simp [listed, spelling]
    | cons m ms =>
      rw [listed, Token.spelling_append, Token.spelling_cons_delimiter rfl, ih]
      rfl

theorem spelling_foldMarkers {limit : Nat} {entries out : List Entry}
    (h : foldMarkers limit entries = .ok out) :
    (out.map Entry.node).flatMap spelling = (entries.map Entry.node).flatMap spelling :=
  Expression.flatMap_foldMarkers (fun op left right => by simp [spelling, tokens]) h

end Node

theorem Token.spelling_of_atom? {table : OperatorTable} {t : Token} {n : Node}
    (h : t.atom? table = some n) : t.kind ≠ .delimiter ∧ n.spelling = [t.kind] := by
  unfold atom? at h
  split at h
  · rename_i hk
    cases h
    exact ⟨by simp [hk], by rw [hk]; rfl⟩
  · rename_i hk
    obtain ⟨value, -, rfl⟩ := Option.map_eq_some_iff.1 h
    exact ⟨by simp [hk], by rw [hk]; rfl⟩
  · rename_i hk
    cases h
    exact ⟨by simp [hk], by rw [hk]; rfl⟩
  · rename_i hk
    cases h
    exact ⟨by simp [hk], by rw [hk]; rfl⟩
  · rename_i hk
    obtain ⟨info, -, rfl⟩ := Option.map_eq_some_iff.1 h
    exact ⟨by simp [hk], by rw [hk]; rfl⟩
  · cases h

theorem Bracket.Attaches.spelling_eq {token : Token} {content : List Entry} {b : Bracket}
    {row below : Row} {e : Entry} (h : Attaches token content b row e below) :
    (Row.nodes (e :: below)).flatMap Node.spelling = row.nodes.flatMap Node.spelling ++
      .opening b :: ((content.map Entry.node).flatMap Node.spelling ++ [.closing b]) := by
  cases h <;> simp [Node.spelling, Node.tokens]

theorem Token.spelling_secondPeriod (ts : List Token) :
    spelling ts = (if (secondPeriod ts).1 then [.period] else []) ++ spelling (secondPeriod ts).2 := by
  unfold secondPeriod
  split
  · rfl
  · split
    · rename_i h
      rw [spelling_cons (by simp [h]), h]
      rfl
    · rfl

namespace Scan

/-- What a construct takes off the stream it writes on the row. -/
def Spells (scan : Scan) : Prop :=
  ∀ ⦃t : Token⦄ ⦃ts rest : List Token⦄ ⦃row row' : Row⦄, scan t ts row = ⟨.ok (), rest, row'⟩ →
    row.nodes.flatMap Node.spelling ++ Token.spelling (t :: ts) =
      row'.nodes.flatMap Node.spelling ++ Token.spelling rest

variable {scan : Scan} {stream rest : List Token} {row row' : Row} {limit : Nat}
  {content : List Entry}

theorem Spells.runs (h : scan.Spells) (hr : scan.Runs stream row rest row') :
    row.nodes.flatMap Node.spelling ++ Token.spelling stream =
      row'.nodes.flatMap Node.spelling ++ Token.spelling rest := by
  induction hr with
  | refl => rfl
  | step hs _ ih => rw [h hs, ih]

theorem Spells.level (h : scan.Spells) (hs : scan.Regular)
    (hl : (scan.level limit stream).outcome = .ok content) :
    (content.map Entry.node).flatMap Node.spelling = Token.spelling stream := by
  obtain ⟨-, row, hrun, hf⟩ := (level_eq_ok_iff hs.shrinks).1 (hs.level_of_outcome hl)
  have hrow := h.runs hrun
  rw [Node.spelling_foldMarkers hf]
  simpa [Row.nodes] using hrow.symm

end Scan

theorem Context.Reads.spells {ctx : Context} {token : Token} {stream rest : List Token}
    {row row' : Row} (hb : ∀ scan, ctx.below = some scan → scan.Spells ∧ scan.Regular)
    (h : ctx.Reads token stream row rest row') :
    row.nodes.flatMap Node.spelling ++ Token.spelling (token :: stream) =
      row'.nodes.flatMap Node.spelling ++ Token.spelling rest := by
  cases h with
  | delimiter hk => rw [Token.spelling_cons_delimiter hk, Token.spelling_regroup]
  | @atom n hn =>
    obtain ⟨hd, hn⟩ := Token.spelling_of_atom? hn
    simp [Token.spelling_cons hd, hn]
  | @enclosed b close scan content e below hk hc hbs hl ha hd =>
    obtain ⟨closer, hck, hsplit⟩ := Bracket.closeFrom_split hc
    obtain ⟨hspells, hreg⟩ := hb scan hbs
    rw [(Bracket.attaches_of_attach ha).spelling_eq, hspells.level hreg hl,
      Token.spelling_cons (by simp [hk]), hk]
    conv_lhs => rw [hsplit]
    simp [Token.spelling_cons (show closer.kind ≠ .delimiter by simp [hck]), hck]
  | @dot left right below found scan rest hk hr hlo hbs ho hro hd =>
    obtain ⟨hspells, hreg⟩ := hb scan hbs
    obtain ⟨t, ts, hts, rfl, hscan⟩ := hreg.one_eq_ok ho
    have hright : Token.spelling (t :: ts) = right.node.spelling ++ Token.spelling rest := by
      simpa [Row.nodes] using hspells hscan
    rw [Token.spelling_cons (by simp [hk]), hk, Token.spelling_secondPeriod stream, hts, hright, hr]
    cases (secondPeriod stream).1 <;> simp [Scan.dotted, Node.spelling, Node.tokens]
  | @semicolon e below hk hr ho hd =>
    rw [Token.spelling_cons (by simp [hk]), hk, hr]
    simp [Node.spelling, Node.tokens]
  | @choice condition below scan op left right depth rest hk hr ho hbs hl hs hd =>
    obtain ⟨hspells, hreg⟩ := hb scan hbs
    obtain ⟨rfl, -⟩ := (Scan.level_eq_ok_iff hreg.shrinks).1 hl
    have hbranches := hspells.level hreg (congrArg Reading.outcome hl)
    rw [Token.spelling_cons (by simp [hk]), hk, ← hbranches, hr]
    simp [Node.spelling, Node.tokens]

theorem spells_scanWithin (settings : Settings) (room : Nat) :
    (scanWithin settings room).Spells := by
  have h := scanWithin_induction settings (P := fun scan => scan.Spells ∧ scan.Regular)
    (fun below hb => ⟨fun _ _ _ _ _ h => (Context.reads_of_scan h).spells hb,
      Context.regular_scan fun scan hs => (hb scan hs).2⟩) room
  exact h.1

/-- Written down again, the trees have the kinds of the tokens that they were read from. -/
theorem parseWith_spelling {settings : Settings} {tokens : List Token} {nodes : List Node}
    (h : parseWith settings tokens = .ok nodes) :
    nodes.flatMap Node.spelling = Token.spelling tokens := by
  obtain ⟨content, hl, rfl⟩ := parseWith_eq_ok_iff.1 h
  have hlevel := congrArg Reading.outcome hl
  exact (spells_scanWithin settings _).level (regular_scanWithin settings _) hlevel

end TokenForest
