import TokenForest.Proofs.Limits
import TokenForest.Proofs.Misplaced

/-!
Where a choice parts its branches. The rest of the stream is read as a flat list first; the choice
stands if the loosest marker of that list, the last one of several, is a colon between operands.
The branches are what the two parts of the list fold to.
-/

set_option autoImplicit false

namespace TokenForest

/-- Operands and markers take turns, with an operand at either end and a marker between. -/
structure Entry.Turns (entries : List Entry) : Prop where
  odd : entries.length % 2 = 1
  long : 3 ≤ entries.length
  turns : ∀ i e, entries[i]? = some e → (e.isOperand = true ↔ i % 2 = 0)

/-- Of the markers of a list that bind loosest, the last one. -/
structure Marker.Loosest (entries : List Entry) (m : Marker) : Prop where
  mem : m ∈ scan 0 entries
  least : ∀ n ∈ scan 0 entries, m.operator.precedence ≤ n.operator.precedence
  last : ∀ n ∈ scan 0 entries, n.operator.precedence = m.operator.precedence → n.index ≤ m.index

variable {entries : List Entry} {m n : Marker}

theorem Marker.eq_of_index (hm : m ∈ scan 0 entries) (hn : n ∈ scan 0 entries)
    (h : m.index = n.index) : m = n := by
  obtain ⟨e, he, hop⟩ := mem_scan.1 hm
  obtain ⟨f, hf, hop'⟩ := mem_scan.1 hn
  rw [h, hf] at he
  obtain rfl := Option.some.inj he
  obtain ⟨i, op⟩ := m
  obtain ⟨j, op'⟩ := n
  simp only at h
  simp_all

theorem Marker.Loosest.unique (hm : m.Loosest entries) (hn : n.Loosest entries) : m = n := by
  have hmn := hm.least n hn.mem
  have hnm := hn.least m hm.mem
  have h₁ := hm.last n hn.mem (by omega)
  have h₂ := hn.last m hm.mem (by omega)
  exact eq_of_index hm.mem hn.mem (by omega)

theorem Entry.Turns.flanked (h : Turns entries) :
    ∀ m ∈ Marker.scan 0 entries, m.Flanked entries := by
  intro m hm
  obtain ⟨e, he, hop⟩ := Marker.mem_scan.1 hm
  have hlt := (List.getElem?_eq_some_iff.1 he).1
  have hodd : m.index % 2 = 1 := by
    have := h.turns _ e he
    rw [Entry.not_isOperand_of_marker hop] at this
    simp only [Bool.false_eq_true, false_iff] at this
    omega
  have hlen := h.odd
  have hl := List.getElem?_eq_getElem (l := entries) (i := m.index - 1) (by omega)
  have hr := List.getElem?_eq_getElem (l := entries) (i := m.index + 1) (by omega)
  refine ⟨⟨by omega, _, hl, (h.turns _ _ hl).2 (by omega)⟩, _, hr, (h.turns _ _ hr).2 (by omega)⟩

theorem getElem?_append_cons {α : Type} {xs ys : List α} {x y : α} {i : Nat}
    (h : (xs ++ x :: ys)[i]? = some y) :
    (i < xs.length ∧ xs[i]? = some y) ∨ (i = xs.length ∧ x = y) ∨
      ∃ k, i = xs.length + 1 + k ∧ ys[k]? = some y := by
  rcases Nat.lt_trichotomy i xs.length with hi | rfl | hi
  · rw [List.getElem?_append_left hi] at h
    exact .inl ⟨hi, h⟩
  · exact .inr (.inl ⟨rfl, by simpa using h⟩)
  · obtain ⟨k, rfl⟩ : ∃ k, i = xs.length + 1 + k := ⟨i - (xs.length + 1), by omega⟩
    rw [List.getElem?_append_right (by omega), Nat.add_assoc, Nat.add_sub_cancel_left, Nat.add_comm,
      List.getElem?_cons_succ] at h
    exact .inr (.inr ⟨k, rfl, h⟩)

namespace Expression

theorem Ordered.isOperand_iff {x : Expression} (h : x.Ordered) :
    ∀ i e, x.flatten[i]? = some e → (e.isOperand = true ↔ i % 2 = 0) := by
  induction x with
  | leaf e =>
    intro i e' he
    have ho : e.isOperand = true := h
    cases i with
    | zero =>
      obtain rfl : e.normal = e' := by simpa [flatten] using he
      simp [ho]
    | succ i => simp [flatten] at he
  | join op left right hl hr =>
    intro i e he
    have hlen := left.length_flatten
    rcases getElem?_append_cons he with ⟨-, hx⟩ | ⟨rfl, rfl⟩ | ⟨k, rfl, hx⟩
    · exact hl h.1 i e hx
    · have ho : (⟨.marker op, 0⟩ : Entry).isOperand = false := rfl
      simp only [ho, Bool.false_eq_true, false_iff]
      omega
    · rw [hr h.2.1 k e hx]
      omega

theorem Ordered.turns {op : Operator} {left right : Expression}
    (h : (join op left right).Ordered) : Entry.Turns (join op left right).flatten where
  odd := by rw [length_flatten]; omega
  long := by simp only [length_flatten, operators, List.length_append, List.length_cons]; omega
  turns := h.isOperand_iff

theorem Ordered.loosest {op : Operator} {left right : Expression}
    (h : (join op left right).Ordered) :
    Marker.Loosest (join op left right).flatten ⟨left.flatten.length, op⟩ := by
  have hcases : ∀ n ∈ Marker.scan 0 (join op left right).flatten,
      (n.index < left.flatten.length ∧ op.precedence ≤ n.operator.precedence) ∨
        n = ⟨left.flatten.length, op⟩ ∨ op.precedence < n.operator.precedence := by
    intro n hn
    obtain ⟨i, op'⟩ := n
    obtain ⟨⟨node, d⟩, he, rfl⟩ := Marker.mem_scan.1 hn
    rcases getElem?_append_cons he with ⟨hi, he⟩ | ⟨rfl, heq⟩ | ⟨k, -, he⟩
    · exact .inl ⟨hi, h.2.2.1 op' (h.1.mem_operators (List.mem_of_getElem? he))⟩
    · cases heq
      exact .inr (.inl rfl)
    · exact .inr (.inr (h.2.2.2 op' (h.2.1.mem_operators (List.mem_of_getElem? he))))
  refine ⟨Marker.mem_scan.2 ⟨⟨.marker op, 0⟩, by simp [flatten], rfl⟩, fun n hn => ?_,
    fun n hn heq => ?_⟩
  · rcases hcases n hn with ⟨-, hle⟩ | rfl | hlt
    · exact hle
    · exact Int.le_refl _
    · exact Int.le_of_lt hlt
  · rcases hcases n hn with ⟨hi, -⟩ | rfl | hlt
    · exact Nat.le_of_lt hi
    · exact Nat.le_refl _
    · simp only at heq
      omega

theorem eq_join_of_turns {forest : List Expression} (ho : ∀ x ∈ forest, x.Ordered)
    (h : Entry.Turns (forest.flatMap flatten)) :
    ∃ op left right, forest = [join op left right] := by
  have hlong := h.long
  cases forest with
  | nil => simp at hlong
  | cons x xs =>
    cases xs with
    | nil =>
      cases x with
      | leaf e => simp [flatten] at hlong
      | join op left right => exact ⟨op, left, right, rfl⟩
    | cons y ys =>
      -- Two trees side by side would put an operand in a marker's turn.
      obtain ⟨e, es, hy⟩ := List.exists_cons_of_ne_nil y.flatten_ne_nil
      have he : e.isOperand = true := (ho y (by simp)).isOperand_head e (by simp [hy])
      have hget : ((x :: y :: ys).flatMap flatten)[x.flatten.length]? = some e := by simp [hy]
      have hlen := x.length_flatten
      have := (h.turns _ e hget).1 he
      omega

end Expression

open Expression in
theorem Row.Legible.exists_join {settings : Settings} {row : Row} {content : List Entry}
    (h : row.Legible settings) (hf : foldMarkers settings.maxDepth row.reverse = .ok content)
    (hc : Entry.Turns row.reverse ∨ ∃ op left right depth,
      content = [⟨.binary op left right, depth⟩]) :
    ∃ op left right, (join op left right).Ordered ∧
      (join op left right).flatten = row.reverse ∧ content = [(join op left right).entry] ∧
      (join op left right).depth ≤ settings.maxDepth := by
  obtain ⟨forest, ho, hflat, rfl, hd⟩ := h.exists_forest hf
  have hforest : ∃ op left right, forest = [join op left right] := by
    rcases hc with hturns | ⟨op, left, right, depth, hc⟩
    · exact eq_join_of_turns ho (hflat ▸ hturns)
    · obtain ⟨x, rfl, hx⟩ := List.map_eq_singleton_iff.1 hc
      cases x with
      | join op left right => exact ⟨op, left, right, rfl⟩
      | leaf e =>
        -- No construct puts a folded operator on a row.
        obtain rfl : e = ⟨.binary op left right, depth⟩ := hx
        have hmem : (⟨.binary op left right, depth⟩ : Entry) ∈ row.reverse := by
          rw [← hflat]
          simp [flatten, Entry.normal, Entry.isOperand, Node.isOperand, Node.isMarker,
            Node.marker?]
        rcases (h.each _ (List.mem_reverse.1 hmem)).shaped with ⟨op', hm, -⟩ | ⟨-, hk⟩
        · cases hm
        · exact absurd rfl hk
  obtain ⟨op, left, right, rfl⟩ := hforest
  exact ⟨op, left, right, ho _ (by simp), by simpa using hflat, rfl,
    (hd _ (by simp)).elim id id⟩

/-- The list splits at a colon: it takes turns, and the last of its loosest markers is one. -/
def Entry.Splits (entries : List Entry) : Prop :=
  Turns entries ∧ ∃ colon : Marker, colon.Loosest entries ∧ colon.operator.symbol = ":"

namespace Expression

variable {op : Operator} {left right : Expression}

theorem Ordered.splits (h : (join op left right).Ordered) (hs : op.symbol = ":") :
    Entry.Splits (join op left right).flatten :=
  ⟨h.turns, _, h.loosest, hs⟩

theorem Ordered.fold_parts {limit : Nat} (h : (join op left right).Ordered)
    (hd : (join op left right).depth ≤ limit) :
    foldMarkers limit ((join op left right).flatten.take left.flatten.length) =
        .ok [left.entry] ∧
      foldMarkers limit ((join op left right).flatten.drop (left.flatten.length + 1)) =
        .ok [right.entry] := by
  have hmax : max left.depth right.depth + 1 ≤ limit := hd
  have hpart : ∀ x : Expression, x.Ordered → x.depth ≤ limit →
      foldMarkers limit x.flatten = .ok [x.entry] := by
    intro x hx hdepth
    simpa using @foldMarkers_flatten limit [x] (by simpa using hx) (by simpa using hdepth)
  have hl := hpart left h.1 (by omega)
  have hr := hpart right h.2.1 (by omega)
  constructor
  · rw [flatten, List.take_left, hl]
  · rw [flatten, ← List.drop_drop, List.drop_left, List.drop_one, List.tail_cons, hr]

end Expression

namespace Scan

variable {ctx : Context} {scan : Scan} {token : Token} {stream rest : List Token}
  {condition : Entry} {below flat : Row}

theorem choice_eq (hc : condition.isOperand = true) (hb : ctx.below = some scan)
    (hd : scan.drain stream.length stream [] = ⟨.ok (), rest, flat⟩) :
    choice ctx token stream (condition :: below) =
      match foldMarkers ctx.settings.maxDepth flat.reverse with
      | .error f => ⟨.error f, rest, below⟩
      | .ok content =>
        match branches? content with
        | none => ⟨.error token.unexpected, rest, below⟩
        | some (left, right, depth) =>
          ctx.finish token rest below
            ⟨.ternary condition.node left right, max depth (condition.depth + 1)⟩ := by
  simp only [choice, Row.take?_eq_some.2 ⟨rfl, hc⟩, Context.below?_eq_ok_iff.2 hb, level, hd]
  cases foldMarkers ctx.settings.maxDepth flat.reverse <;> rfl

theorem finish_of_unlimited {e : Entry} (hu : Unlimited (ctx.finish token rest below e).outcome) :
    ctx.finish token rest below e = ⟨.ok (), rest, e :: below⟩ := by
  by_cases hd : ctx.settings.maxDepth < e.depth
  · rw [Context.finish_eq_error_iff.2 ⟨hd, rfl, rfl, rfl⟩] at hu
    cases unlimited_error.1 hu
  · exact Context.finish_eq_ok_iff.2 ⟨Nat.not_lt.1 hd, rfl, rfl⟩

open Expression in
/-- What a choice comes to where the depth limit is not met: a choice between the operands of the
colon that the list folds to, a marker without an operand, or a list that does not split. -/
theorem choice_cases (hc : condition.isOperand = true) (hb : ctx.below = some scan)
    (hd : scan.drain stream.length stream [] = ⟨.ok (), rest, flat⟩)
    (hrow : flat.Legible ctx.settings)
    (hu : Unlimited (choice ctx token stream (condition :: below)).outcome) :
    (∃ op left right, (join op left right).Ordered ∧
        (join op left right).flatten = flat.reverse ∧ op.symbol = ":" ∧
        (join op left right).depth ≤ ctx.settings.maxDepth ∧
        choice ctx token stream (condition :: below) =
          ⟨.ok (), rest, ⟨.ternary condition.node left.node right.node,
            max (join op left right).depth (condition.depth + 1)⟩ :: below⟩) ∨
      (∃ m : Marker, m.FirstMisplaced flat.reverse ∧
        choice ctx token stream (condition :: below) = ⟨.error m.missing, rest, below⟩) ∨
      ((∀ m ∈ Marker.scan 0 flat.reverse, m.Flanked flat.reverse) ∧
        ¬ Entry.Splits flat.reverse ∧
        choice ctx token stream (condition :: below) =
          ⟨.error token.unexpected, rest, below⟩) := by
  rw [choice_eq hc hb hd] at hu ⊢
  rcases foldMarkers_cases ctx.settings.maxDepth flat.reverse with
    ⟨hall, content, hf⟩ | ⟨m, hm, hf⟩ | ⟨m, -, -, -, hf, -⟩
  · simp only [hf] at hu ⊢
    cases hbr : branches? content with
    | none =>
      refine .inr (.inr ⟨hall, fun ⟨hturns, colon, hcolon, hs⟩ => ?_, rfl⟩)
      obtain ⟨op, left, right, ho, hflat, rfl, -⟩ := hrow.exists_join hf (.inl hturns)
      rw [← hflat] at hcolon
      obtain rfl := hcolon.unique ho.loosest
      have hsome : branches? [(join op left right).entry] =
          some (left.node, right.node, (join op left right).depth) :=
        Context.branches?_eq_some_iff.2 ⟨op, rfl, hs⟩
      rw [hbr] at hsome
      cases hsome
    | some branches =>
      obtain ⟨left', right', depth⟩ := branches
      obtain ⟨op', rfl, hs⟩ := Context.branches?_eq_some_iff.1 hbr
      obtain ⟨op, left, right, ho, hflat, hcontent, hdepth⟩ :=
        hrow.exists_join hf (.inr ⟨op', left', right', depth, rfl⟩)
      obtain ⟨⟨rfl, rfl, rfl⟩, rfl⟩ : (op' = op ∧ left' = left.node ∧ right' = right.node) ∧
          depth = (join op left right).depth := by simpa [entry, node] using hcontent
      simp only [hbr] at hu ⊢
      refine .inl ⟨op', left, right, ho, hflat, hs, hdepth, finish_of_unlimited hu⟩
  · simp only [hf]
    exact .inr (.inl ⟨m, hm, rfl⟩)
  · simp only [hf] at hu
    cases unlimited_error.1 hu

end Scan

/-- A question mark after an operand, where the rest of the stream is read as a flat list and the
depth limit is never met. The choice is read exactly if the list splits at a colon; its branches
are what the parts before and after that colon fold to. If not, a marker without an operand is at
fault, or else the question mark itself. -/
theorem Reader.construct_choice {r lower : Reader} {token : Token} {stream rest : List Token}
    {condition : Entry} {below flat : Row} (hc : condition.isOperand = true)
    (hlower : r.below? token = .ok lower)
    (hflat : lower.scan.drain stream.length stream [] = ⟨.ok (), rest, flat⟩)
    (hu : Unlimited (r.construct .choice token stream (condition :: below)).outcome) :
    ((r.construct .choice token stream (condition :: below)).outcome = .ok () ↔
      Entry.Splits flat.reverse) ∧
    ((r.construct .choice token stream (condition :: below)).outcome = .ok () →
      ∀ colon : Marker, colon.Loosest flat.reverse → ∃ (left right : Entry) (depth : Nat),
        foldMarkers r.settings.maxDepth (flat.reverse.take colon.index) = .ok [left] ∧
        foldMarkers r.settings.maxDepth (flat.reverse.drop (colon.index + 1)) = .ok [right] ∧
        r.construct .choice token stream (condition :: below) =
          ⟨.ok (), [], ⟨.ternary condition.node left.node right.node, depth⟩ :: below⟩ ∧
        (condition.depth = condition.node.depth →
          depth = (Node.ternary condition.node left.node right.node).depth)) ∧
    ((r.construct .choice token stream (condition :: below)).outcome ≠ .ok () →
      ((∃ m ∈ Marker.scan 0 flat.reverse, ¬ m.Flanked flat.reverse) →
        ∃ m : Marker, m.FirstMisplaced flat.reverse ∧
          r.construct .choice token stream (condition :: below) =
            ⟨.error ⟨.missingOperand m.operator.symbol, m.operator.position⟩, [], below⟩) ∧
      ((∀ m ∈ Marker.scan 0 flat.reverse, m.Flanked flat.reverse) →
        r.construct .choice token stream (condition :: below) =
          ⟨.error token.unexpected, [], below⟩)) := by
  obtain ⟨settings, room⟩ := r
  cases room with
  | zero => cases hlower
  | succ room =>
    obtain rfl : (⟨settings, room⟩ : Reader) = lower := Except.ok.inj hlower
    have hl := legible_scanWithin settings room
    rw [scan_eq] at hflat
    obtain ⟨rfl, hrun⟩ := Scan.runs_of_drain hl.regular.shrinks (Nat.le_refl _) hflat
    have hrow := hl.runs hrun Scan.legible_nil fun _ => Scan.open_nil
    have hcases := @Scan.choice_cases ⟨settings, some (scanWithin settings room)⟩ _ token stream []
      condition below flat hc rfl hflat hrow hu
    rcases hcases with
      ⟨op, left, right, ho, hread, hs, hd, hstep⟩ | ⟨m, hm, hstep⟩ | ⟨hall, hno, hstep⟩
    all_goals
      have hstep : Reader.construct ⟨settings, room + 1⟩ .choice token stream (condition :: below) =
        _ := hstep
      rw [hstep]
    · rw [← hread]
      refine ⟨iff_of_true rfl (ho.splits hs), fun _ colon hcolon => ?_, fun hne => absurd rfl hne⟩
      obtain rfl := hcolon.unique ho.loosest
      obtain ⟨hl, hr⟩ := ho.fold_parts hd
      refine ⟨left.entry, right.entry, _, hl, hr, rfl, fun hreal => ?_⟩
      have hdepth := ho.depth_eq fun e he => (hrow.each e (by simpa [hread] using he)).measured
      simp only [Node.depth, hdepth, Expression.node, Expression.entry, hreal]
      omega
    · have hfail : (.error m.missing : Except Fault Unit) ≠ .ok () := by simp
      refine ⟨iff_of_false hfail fun h => hm.misplaced (h.1.flanked m hm.mem),
        fun h => absurd h hfail, fun _ => ⟨fun _ => ⟨m, hm, rfl⟩, fun h => ?_⟩⟩
      exact absurd (h m hm.mem) hm.misplaced
    · have hfail : (.error token.unexpected : Except Fault Unit) ≠ .ok () := by simp
      refine ⟨iff_of_false hfail hno, fun h => absurd h hfail, fun _ => ⟨fun h => ?_, fun _ => rfl⟩⟩
      obtain ⟨m, hm, hmis⟩ := h
      exact absurd (hall m hm) hmis

def colonTokens : List Token :=
  let token (kind : TokenKind) (text : String) : Token := ⟨kind, text, .nowhere, false⟩
  [token .word "a", token .operator ":", token .word "b", token .operator ":", token .word "c"]

theorem Reader.construct_choice_colons :
    ∃ flat : Row,
      (⟨.standard, 255⟩ : Reader).scan.drain colonTokens.length colonTokens [] =
        ⟨.ok (), [], flat⟩ ∧
      Entry.Splits flat.reverse ∧
      ∀ colon : Marker, colon.Loosest flat.reverse → ∃ (left right : Entry) (depth : Nat),
        foldMarkers 256 (flat.reverse.take colon.index) = .ok [left] ∧
        foldMarkers 256 (flat.reverse.drop (colon.index + 1)) = .ok [right] ∧
        (top .standard).construct .choice (.plain .questionMark "?") colonTokens
            [⟨.identifier "d", 0⟩] =
          ⟨.ok (), [], [⟨.ternary (.identifier "d") left.node right.node, depth⟩]⟩ := by
  have hflat : ∃ flat : Row,
      (⟨.standard, 255⟩ : Reader).scan.drain colonTokens.length colonTokens [] =
        ⟨.ok (), [], flat⟩ := ⟨_, rfl⟩
  obtain ⟨flat, hflat⟩ := hflat
  have hok : ((top .standard).construct .choice (.plain .questionMark "?") colonTokens
      [⟨.identifier "d", 0⟩]).outcome = .ok () := rfl
  obtain ⟨hiff, hsplit, -⟩ :=
    @construct_choice (top .standard) _ (.plain .questionMark "?") colonTokens []
      ⟨.identifier "d", 0⟩ [] flat rfl rfl hflat (hok ▸ unlimited_ok ())
  refine ⟨flat, hflat, hiff.1 hok, fun colon hcolon => ?_⟩
  obtain ⟨left, right, depth, hl, hr, hstep, -⟩ := hsplit hok colon hcolon
  exact ⟨left, right, depth, hl, hr, hstep⟩

end TokenForest
