import TokenForest.Node.Display
import TokenForest.Proofs.Forms
import TokenForest.Proofs.Numerals
import TokenForest.Proofs.Reading
import TokenForest.Proofs.UniqueReading
import TokenForest.Relabel

set_option autoImplicit false

namespace TokenForest

def Text.isName (name : String) : Bool :=
  match name.toList with
  | [] => false
  | c :: cs => (c.isAlpha || c == '_') && cs.all fun d => d.isAlphanum || d == '_'

def Binary64.isFinite : Binary64 → Bool
  | .nan => false
  | .signed _ rank => rank.val < infinityRank

/-- A word is a name, and a number is finite and begins with a digit. -/
def Token.Ordinary (t : Token) : Prop :=
  (t.kind = .word → Text.isName t.text = true) ∧
    (t.kind = .number → t.text.toList.head?.any Decimal.isDigit = true ∧
      ∀ x ∈ Binary64.ofLiteral? t.text, x.isFinite = true)

instance (t : Token) : Decidable t.Ordinary := inferInstanceAs (Decidable (_ ∧ _))

def Lexeme.Ordinary : Lexeme → Prop
  | .word text => Text.isName text = true
  | .number value => ∃ rank, value = .signed false rank ∧ rank.val < Binary64.infinityRank
  | _ => True

/-- A tree that may come of ordinary tokens under the standard table. -/
structure Node.Ordinary (n : Node) : Prop where
  readable : n.Readable .standard
  ordinary : ∀ x ∈ n.lexemes, x.Ordinary

theorem Node.mem_lexemes_of_mem_children {n c : Node} {x : Lexeme} (hc : c ∈ n.children)
    (hx : x ∈ c.lexemes) : x ∈ n.lexemes := by
  have hlist : ∀ {ns : List Node}, c ∈ ns → x ∈ reading ns := fun h => by
    rw [reading_eq_flatMap]
    exact List.mem_flatMap.2 ⟨c, h, hx⟩
  cases n with
  | function name parameters body =>
    rcases List.mem_append.1 hc with h | h <;>
      cases name <;> simp [lexemes, hlist h]
  | dangling op side operand => cases side <;> simp_all [children, lexemes]
  | call callee arguments | index callee arguments =>
    rcases List.mem_cons.1 hc with rfl | h
    · simp [lexemes, hx]
    · simp [lexemes, hlist h]
  | group content | block content | set content | statement content =>
    exact hlist hc
  | member l r | range l r | binary op l r =>
    simp only [children, List.mem_cons, List.not_mem_nil, or_false] at hc
    rcases hc with rfl | rfl <;> simp [lexemes, hx]
  | ternary a l r =>
    simp only [children, List.mem_cons, List.not_mem_nil, or_false] at hc
    rcases hc with rfl | rfl | rfl <;> simp [lexemes, hx]
  | _ => cases hc

theorem Node.Ordinary.child {n : Node} (h : n.Ordinary) :
    ∀ c ∈ n.children, c.Ordinary := fun c hc =>
  ⟨h.readable.forall_children c hc, fun _ hx => h.ordinary _ (mem_lexemes_of_mem_children hc hx)⟩

section Words

variable {c : Char} {cs : List Char} {name : String} {rank : Nat}

theorem Sexpr.isMark_iff : isMark c = true ↔ c = ' ' ∨ c = '(' ∨ c = ')' ∨ c = '"' := by
  simp [isMark, or_assoc]

theorem Sexpr.isWord_cons (h : ∀ d ∈ c :: cs, isMark d = false) : isWord (c :: cs) = true := by
  rw [isWord, List.isEmpty_cons, Bool.not_false, Bool.true_and, List.all_eq_true]
  exact fun d hd => by rw [h d hd, Bool.not_false]

theorem Text.isMark_of_name (h : (c.isAlphanum || c == '_') = true) : Sexpr.isMark c = false := by
  rw [Bool.eq_false_iff]
  intro hc
  rcases Sexpr.isMark_iff.1 hc with rfl | rfl | rfl | rfl <;> exact absurd h (by decide)

theorem Text.not_isDigit_of_name (h : (c.isAlpha || c == '_') = true) :
    Decimal.isDigit c = false := by
  rw [Bool.eq_false_iff]
  intro hd
  have h9 : c.toNat ≤ 57 := by
    rw [Decimal.isDigit, Bool.and_eq_true, decide_eq_true_iff, decide_eq_true_iff] at hd
    exact hd.2
  have hlow : 65 ≤ c.toNat := by
    rcases Bool.or_eq_true_iff.1 h with h | h
    · have hcases : (c.isUpper || c.isLower) = true := h
      rcases Bool.or_eq_true_iff.1 hcases with h | h
      · have hupper : c.val ≥ 'A'.val ∧ c.val ≤ 'Z'.val := of_decide_eq_true h
        exact hupper.1
      · have hlower : (decide (c.val ≥ 'a'.val) && decide (c.val ≤ 'z'.val)) = true := h
        have hle : 97 ≤ c.toNat := of_decide_eq_true (Bool.and_eq_true_iff.1 hlower).1
        omega
    · obtain rfl := eq_of_beq h
      decide
  omega

theorem Text.word_of_isName (h : isName name = true) :
    Sexpr.isWord name.toList = true ∧ Sexpr.leaf name.toList = .identifier name := by
  rw [isName] at h
  cases hname : name.toList with
  | nil =>
    rw [hname] at h
    cases h
  | cons c cs =>
    rw [hname] at h
    obtain ⟨hc, hcs⟩ := Bool.and_eq_true_iff.1 h
    constructor
    · refine Sexpr.isWord_cons (List.forall_mem_cons.2 ⟨isMark_of_name ?_, fun d hd => ?_⟩)
      · rw [Char.isAlphanum, Bool.or_right_comm, hc, Bool.true_or]
      · exact isMark_of_name (List.all_eq_true.1 hcs d hd)
    · have hdigit : (c :: cs).head?.any Decimal.isDigit = false := not_isDigit_of_name hc
      rw [Sexpr.leaf, hdigit, if_neg Bool.false_ne_true, ← hname, String.ofList_toList]

theorem Decimal.mem_positional {d : Decimal} (h : c ∈ d.positional) :
    isDigit c = true ∨ c = '.' := by
  have hd : ∀ {c}, c ∈ Nat.toDigits 10 d.digits → isDigit c = true := isDigit_of_mem_toDigits
  unfold positional at h
  simp only at h
  split at h
  · rcases List.mem_append.1 h with h | h
    · exact .inl (hd h)
    · split at h
      · cases h
      · exact .inl (isDigit_of_mem_zeros h)
  · split at h
    · rcases List.mem_append.1 h with h | h
      · exact .inl (hd (List.mem_of_mem_take h))
      · rcases List.mem_cons.1 h with h | h
        · exact .inr h
        · exact .inl (hd (List.mem_of_mem_drop h))
    · simp only [List.cons_append, List.mem_cons, List.mem_append] at h
      rcases h with rfl | h | h | h
      · exact .inl rfl
      · exact .inr h
      · exact .inl (isDigit_of_mem_zeros h)
      · exact .inl (hd h)

theorem Decimal.isMark_eq_false (h : isDigit c = true ∨ c = '.') : Sexpr.isMark c = false := by
  rw [Bool.eq_false_iff]
  intro hc
  rcases Sexpr.isMark_iff.1 hc with rfl | rfl | rfl | rfl <;> revert h <;> decide

theorem Binary64.renderRank_finite (h : rank < infinityRank) :
    ∃ c cs, renderRank rank = c :: cs ∧ Decimal.isDigit c = true ∧
      ∀ d ∈ c :: cs, Decimal.isDigit d = true ∨ d = '.' := by
  unfold renderRank
  split
  · refine ⟨'0', [], rfl, rfl, fun d hd => .inl ?_⟩
    obtain rfl := List.mem_singleton.1 hd
    rfl
  · rw [if_neg (Nat.ne_of_lt h)]
    obtain ⟨c, cs, hcs, hc⟩ := (Decimal.shortest rank).head_positional
    exact ⟨c, cs, hcs, hc, fun d hd => Decimal.mem_positional (hcs ▸ hd)⟩

theorem Binary64.word_of_finite {r : Fin (infinityRank + 1)} (h : r.val < infinityRank) :
    Sexpr.isWord (render (.signed false r)).toList = true ∧
      Sexpr.leaf (render (.signed false r)).toList = .number (.signed false r) := by
  obtain ⟨c, cs, hcs, hc, hall⟩ := renderRank_finite h
  have hrender : (render (.signed false r)).toList = c :: cs := by
    rw [render, String.toList_ofList, hcs]
  constructor
  · rw [hrender]
    exact Sexpr.isWord_cons fun d hd => Decimal.isMark_eq_false (hall d hd)
  · have hdigit : (c :: cs).head?.any Decimal.isDigit = true := hc
    rw [Sexpr.leaf, hrender, if_pos hdigit, ← hrender, String.ofList_toList, ofLiteral?_render,
      Option.getD_some]

theorem Binary64.unsigned_of_isDigit {text : String} {x : Binary64}
    (hd : text.toList.head?.any Decimal.isDigit = true) (h : ofLiteral? text = some x) :
    ∃ rank, x = .signed false rank := by
  cases htext : text.toList with
  | nil =>
    rw [htext] at hd
    cases hd
  | cons c cs =>
    have hc : Decimal.isDigit c = true := by simpa [htext] using hd
    have hm : c ≠ '-' := fun heq => absurd hc (heq ▸ by decide)
    have hp : c ≠ '+' := fun heq => absurd hc (heq ▸ by decide)
    rw [ofLiteral?, htext, Decimal.splitSign_cons hm hp, ofUnsigned?_of_isDigit hc] at h
    obtain ⟨d, -, rfl⟩ := Option.map_eq_some_iff.1 h
    exact ⟨_, rfl⟩

theorem Token.Ordinary.lexeme {t : Token} {x : Lexeme} (ht : t.Ordinary)
    (h : t.lexeme? = some x) : x.Ordinary := by
  unfold Token.lexeme? at h
  split at h
  · rename_i hk
    cases h
    exact ht.1 hk
  · rename_i hk
    obtain ⟨value, hv, rfl⟩ := Option.map_eq_some_iff.1 h
    obtain ⟨hd, hfinite⟩ := ht.2 hk
    obtain ⟨rank, rfl⟩ := Binary64.unsigned_of_isDigit hd hv
    exact ⟨rank, rfl, of_decide_eq_true (hfinite _ hv)⟩
  all_goals cases h <;> trivial

theorem Lexeme.Of.ordinary {x : Lexeme} {t : Token} (h : x.Of t) (ht : t.Ordinary) :
    x.Ordinary := by
  obtain ⟨y, hy, hs⟩ := h
  cases x with
  | word _ | number _ =>
    obtain rfl : _ = y := hs
    exact ht.lexeme hy
  | _ => trivial

theorem Lexeme.forall_ordinary {xs : List Lexeme} {ts : List Token}
    (h : List.Forall₂ Lexeme.Of xs ts) (ht : ∀ t ∈ ts, t.Ordinary) : ∀ x ∈ xs, x.Ordinary := by
  induction h with
  | nil => simp
  | @cons x t xs ts hx _ ih =>
    rw [List.forall_mem_cons] at ht ⊢
    exact ⟨hx.ordinary ht.1, ih ht.2⟩

end Words

section Display

open Node

variable {n : Node} {op : Operator}

theorem Sexpr.clear_headed {head : String} {elements : List Sexpr}
    (h : isWord head.toList = true) (he : ∀ x ∈ elements, x.Clear) :
    (headed head elements).Clear :=
  .list (List.forall_mem_cons.2 ⟨.bare h, he⟩)

theorem OperatorTable.standard_symbols : ∀ e ∈ standard.entries,
    Sexpr.isWord e.1.toList = true ∧ NodeKind.ofHead e.1 = .operator := by
  decide

theorem Operator.Known.symbol (h : op.Known .standard) :
    Sexpr.isWord op.symbol.toList = true ∧ NodeKind.ofHead op.symbol = .operator := by
  obtain ⟨before, after, hsplit, -⟩ := List.lookup_eq_some_iff.1 h
  exact OperatorTable.standard_symbols (op.symbol, ⟨op.name, op.precedence⟩) (by simp [hsplit])

theorem Operator.Known.ofSymbol (h : op.Known .standard) :
    ofSymbol op.symbol = { op with position := .nowhere } := by
  have hinfo : OperatorTable.standard.get? op.symbol = some ⟨op.name, op.precedence⟩ := h
  simp [Operator.ofSymbol, hinfo]

theorem Node.Ordinary.clear (h : n.Ordinary) : n.toSexpr.Clear := by
  induction n using children_induction with
  | step n ih =>
    have hc : ∀ c ∈ n.children, c.toSexpr.Clear := fun c hc => ih c hc (h.child c hc)
    have hcs : ∀ ns : List Node, ns ⊆ n.children → ∀ x ∈ toSexprs ns, x.Clear := by
      intro ns hns x hx
      rw [toSexprs_eq_map] at hx
      obtain ⟨c, hcn, rfl⟩ := List.mem_map.1 hx
      exact hc c (hns hcn)
    cases n with
    | identifier name =>
      exact .bare (Text.word_of_isName (h.ordinary (.word name) List.mem_cons_self)).1
    | number value =>
      obtain ⟨rank, rfl, hr⟩ := h.ordinary (.number value) List.mem_cons_self
      exact .bare (Binary64.word_of_finite hr).1
    | string value => exact .quoted value
    | comment text => exact Sexpr.clear_headed (by decide) (by simp [Sexpr.Clear.quoted])
    | call first rest | index first rest =>
      have hrest := hcs rest (List.subset_cons_self first rest)
      exact Sexpr.clear_headed (by decide)
        (List.forall_mem_cons.2 ⟨hc first List.mem_cons_self, hrest⟩)
    | group content | block content | set content | statement content =>
      exact Sexpr.clear_headed (by decide) (hcs content (List.Subset.refl content))
    | function name parameters body =>
      have hp := Sexpr.Clear.list (hcs parameters (List.subset_append_left parameters body))
      have hb := Sexpr.Clear.list (hcs body (List.subset_append_right parameters body))
      cases name with
      | none => exact Sexpr.clear_headed (by decide) (by simpa using ⟨hp, hb⟩)
      | some name =>
        have hname := Text.word_of_isName (h.ordinary (.word name) List.mem_cons_self)
        exact Sexpr.clear_headed (by decide) (by simpa using ⟨.bare hname.1, hp, hb⟩)
    | member left right | range left right =>
      exact Sexpr.clear_headed (by decide) (by simpa [children] using hc)
    | ternary condition left right =>
      exact Sexpr.clear_headed (by decide) (by simpa [children] using hc)
    | marker op | dangling op side operand => cases h.readable
    | binary op left right =>
      cases h.readable with
      | binary _ _ _ hk _ =>
        exact Sexpr.clear_headed hk.symbol.1 (by simpa [children] using hc)

theorem Node.Ordinary.node_toSexpr (h : n.Ordinary) : n.toSexpr.node = n.relabel .unplaced := by
  induction n using children_induction with
  | step n ih =>
    have hc : ∀ c ∈ n.children, c.toSexpr.node = c.relabel .unplaced :=
      fun c hc => ih c hc (h.child c hc)
    have hcs : ∀ ns : List Node, ns ⊆ n.children →
        ((toSexprs ns).map Sexpr.read).map Prod.fst = ns.map (relabel .unplaced) := by
      intro ns hns
      rw [toSexprs_eq_map, List.map_map, List.map_map]
      exact List.map_congr_left fun c hcn => hc c (hns hcn)
    cases n with
    | identifier name =>
      exact (Text.word_of_isName (h.ordinary (.word name) List.mem_cons_self)).2
    | number value =>
      obtain ⟨rank, rfl, hr⟩ := h.ordinary (.number value) List.mem_cons_self
      exact (Binary64.word_of_finite hr).2
    | string value => rfl
    | comment text =>
      rw [toSexpr, Sexpr.node_headed]
      rfl
    | call first rest | index first rest =>
      have hrest := hcs rest (List.subset_cons_self first rest)
      have hfirst := hc first List.mem_cons_self
      rw [toSexpr, Sexpr.node_headed, relabel, relabelAll_eq_map, ← hfirst, ← hrest]
      rfl
    | group content | block content | set content | statement content =>
      have hcontent := hcs content (List.Subset.refl content)
      rw [toSexpr, Sexpr.node_headed, relabel, relabelAll_eq_map, ← hcontent]
      rfl
    | function name parameters body =>
      have hp := hcs parameters (List.subset_append_left parameters body)
      have hb := hcs body (List.subset_append_right parameters body)
      rw [← Sexpr.read_list] at hp hb
      cases name with
      | none =>
        rw [toSexpr, Sexpr.node_headed, relabel, relabelAll_eq_map, relabelAll_eq_map, ← hp, ← hb]
        rfl
      | some name =>
        have hname := (Text.word_of_isName (h.ordinary (.word name) List.mem_cons_self)).2
        have hshow : some (Relabelling.unplaced.text name) =
            (Sexpr.bare name.toList).node.name? := by
          rw [Sexpr.node, Sexpr.read, hname]
          rfl
        rw [toSexpr, Sexpr.node_headed, relabel, relabelAll_eq_map, relabelAll_eq_map, ← hp, ← hb,
          Option.map_some, hshow]
        rfl
    | member left right | range left right =>
      have hl := hc left (by simp [children])
      have hr := hc right (by simp [children])
      rw [toSexpr, Sexpr.node_headed, relabel, ← hl, ← hr]
      rfl
    | ternary condition left right =>
      have hcond := hc condition (by simp [children])
      have hl := hc left (by simp [children])
      have hr := hc right (by simp [children])
      rw [toSexpr, Sexpr.node_headed, relabel, ← hcond, ← hl, ← hr]
      rfl
    | marker op | dangling op side operand => cases h.readable
    | binary op left right =>
      have hl := hc left (by simp [children])
      have hr := hc right (by simp [children])
      cases h.readable with
      | binary _ _ _ hk _ =>
        have hop : Operator.ofSymbol op.symbol = Relabelling.unplaced.operator op := hk.ofSymbol
        rw [toSexpr, Sexpr.node_headed, hk.symbol.2, relabel, ← hl, ← hr, ← hop]
        rfl

theorem ordinary_of_parseWith {settings : Settings} {tokens : List Token} {nodes : List Node}
    (hs : settings.operators = .standard) (ht : ∀ t ∈ tokens, t.Ordinary)
    (h : parseWith settings tokens = .ok nodes) (hn : n ∈ nodes.flatMap subtrees) : n.Ordinary := by
  obtain ⟨root, hroot, hn⟩ := List.mem_flatMap.1 hn
  refine forall_mem_subtrees (fun _ hm => hm.child) ⟨?_, fun x hx => ?_⟩ n hn
  · have := (readable_parseWith h).1 root hroot
    rwa [hs] at this
  · obtain ⟨content, hl, rfl⟩ := parseWith_eq_ok_iff.1 h
    have hreg := regular_scanWithin settings settings.maxDepth
    obtain ⟨-, hof⟩ := (faithful_scanWithin settings _).level hreg.shrinks hl
    refine Lexeme.forall_ordinary hof (fun t hmem => ht t (List.mem_of_mem_filter hmem)) x ?_
    rw [reading_eq_flatMap]
    exact List.mem_flatMap.2 ⟨root, hroot, hx⟩

end Display

/-- Two trees, or parts of trees, that are read from ordinary tokens under the standard table and
that render alike are the same, up to the places of their operators. -/
theorem Node.relabel_eq_of_render_eq {settings settings' : Settings} {tokens tokens' : List Token}
    {nodes nodes' : List Node} {n m : Node} (hs : settings.operators = .standard)
    (hs' : settings'.operators = .standard) (ht : ∀ t ∈ tokens, t.Ordinary)
    (ht' : ∀ t ∈ tokens', t.Ordinary) (h : parseWith settings tokens = .ok nodes)
    (h' : parseWith settings' tokens' = .ok nodes') (hn : n ∈ nodes.flatMap subtrees)
    (hm : m ∈ nodes'.flatMap subtrees) (hrender : n.render = m.render) :
    n.relabel .unplaced = m.relabel .unplaced := by
  have hon := ordinary_of_parseWith hs ht h hn
  have hom := ordinary_of_parseWith hs' ht' h' hm
  have htext : n.toSexpr.text = m.toSexpr.text := by
    rw [text_toSexpr, text_toSexpr]
    exact String.ofList_injective hrender
  rw [← hon.node_toSexpr, ← hom.node_toSexpr, hon.clear.text_inj hom.clear htext]

def placedTokens (offset : UInt32) : List Token :=
  .plain .word "f" :: Bracket.parenthesis.enclose [.plain .word "x"]
    ++ Bracket.brace.enclose [.plain .string "\") (\"", ⟨.operator, "+", ⟨offset, ""⟩, false⟩,
      .plain .number "2"]

def placedTree (offset : UInt32) : Node :=
  .function (some "f") [.identifier "x"] [.binary ⟨"+", "add", 13, ⟨offset, ""⟩⟩ (.string ") (")
    (.number ((Binary64.ofLiteral? "2").getD .nan))]

theorem Node.relabel_eq_of_render_eq_placed :
    parseWith .standard (placedTokens 9) = .ok [placedTree 9] ∧
      parseWith .standard (placedTokens 4) = .ok [placedTree 4] ∧
      (placedTree 9).render = (placedTree 4).render ∧
      (placedTree 9).relabel .unplaced = (placedTree 4).relabel .unplaced := by
  have ht : ∀ t ∈ placedTokens 9, t.Ordinary := by decide +kernel
  have ht' : ∀ t ∈ placedTokens 4, t.Ordinary := by decide +kernel
  have h : parseWith .standard (placedTokens 9) = .ok [placedTree 9] := rfl
  have h' : parseWith .standard (placedTokens 4) = .ok [placedTree 4] := rfl
  have hrender : (placedTree 9).render = (placedTree 4).render := rfl
  have hn : placedTree 9 ∈ [placedTree 9].flatMap subtrees := .head _
  have hm : placedTree 4 ∈ [placedTree 4].flatMap subtrees := .head _
  exact ⟨h, h', hrender, relabel_eq_of_render_eq rfl rfl ht ht' h h' hn hm hrender⟩

end TokenForest
