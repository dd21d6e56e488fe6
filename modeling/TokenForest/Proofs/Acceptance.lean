import TokenForest.Proofs.Admission

set_option autoImplicit false

namespace TokenForest

/-- One more than the depth, for every entry: never more than the tokens that were read. -/
def Entry.weight (es : List Entry) : Nat := (es.map fun e => e.depth + 1).sum

section Weights

variable {settings : Settings} {row below : Row} {e : Entry} {content es : List Entry} {b : Bracket}
  {token : Token}

@[simp] theorem Entry.weight_nil : weight [] = 0 := rfl

@[simp] theorem Entry.weight_cons (e : Entry) (es : List Entry) :
    weight (e :: es) = e.depth + 1 + weight es := by
  simp [weight]

@[simp] theorem Entry.weight_append (es fs : List Entry) :
    weight (es ++ fs) = weight es + weight fs := by
  simp [weight]

theorem Entry.weight_reverse (es : List Entry) : weight es.reverse = weight es := by
  simp [weight]

theorem Entry.deepest_le_weight (es : List Entry) : deepest es ≤ weight es := by
  induction es with
  | nil => exact Nat.le_refl _
  | cons e es ih =>
    rw [deepest_cons, weight_cons]
    omega

theorem Bracket.Attaches.weight_le (h : Attaches token content b row e below) :
    Entry.weight (e :: below) ≤ Entry.weight row + Entry.weight content + 2 := by
  have hc := Entry.deepest_le_weight content
  cases h <;> simp only [Entry.weight_cons] <;> omega

theorem Expression.Ordered.depth_lt_weight {x : Expression} (h : x.Ordered) :
    x.depth < Entry.weight x.flatten := by
  induction x with
  | leaf e =>
    have he : e.normal = e := Entry.normal_of_isOperand h
    simp [flatten, depth, he]
  | join op left right ihl ihr =>
    have hl := ihl h.1
    have hr := ihr h.2.1
    simp only [flatten, depth, Entry.weight_append, Entry.weight_cons]
    omega

theorem Expression.weight_forest {forest : List Expression} (h : ∀ x ∈ forest, x.Ordered) :
    Entry.weight (forest.map entry) ≤ Entry.weight (forest.flatMap flatten) := by
  induction forest with
  | nil => exact Nat.le_refl _
  | cons x xs ih =>
    have hx := (h x List.mem_cons_self).depth_lt_weight
    have hxs := ih fun y hy => h y (List.mem_cons_of_mem _ hy)
    have hd : x.entry.depth = x.depth := rfl
    rw [List.map_cons, List.flatMap_cons, Entry.weight_cons, Entry.weight_append, hd]
    omega

theorem Row.Legible.exists_fold (h : row.Legible settings) (hp : row.Placed)
    (hh : ∀ e ∈ row.head?, e.isOperand = true) {limit : Nat} (hw : Entry.weight row ≤ limit) :
    ∃ content, foldMarkers limit row.reverse = .ok content ∧
      Entry.weight content ≤ Entry.weight row := by
  obtain ⟨out, hout⟩ := (hp.wellPlaced hh).exists_foldMarkers
  obtain ⟨forest, ho, hflat, rfl, -⟩ := h.exists_forest
    (hout (Entry.deepest out) fun e he => Entry.depth_le_deepest he)
  have hle : Entry.weight (forest.map Expression.entry) ≤ Entry.weight row := by
    rw [← Entry.weight_reverse row, ← hflat]
    exact Expression.weight_forest ho
  refine ⟨_, hout limit fun e he => ?_, hle⟩
  have hd := Entry.depth_le_deepest he
  have hdw := Entry.deepest_le_weight (forest.map Expression.entry)
  omega

end Weights

/-- A row with the tokens that it was read from. -/
structure Reached (before : List Token) (row : Row) : Prop where
  mirrors : Mirrors before row
  placed : row.Placed
  weight : Entry.weight row ≤ before.length

def Finishes (settings : Settings) (room : Nat) (before ts : List Token) (row : Row) : Prop :=
  ∃ row',
    (scanWithin settings room).Runs (Token.after (Token.delimited before) ts) row [] row' ∧
    row'.Placed ∧ (∀ e ∈ row'.head?, e.isOperand = true) ∧
    Entry.weight row' ≤ before.length + ts.length

section Complete

variable {settings : Settings} {room : Nat} {before read left ts inside : List Token} {t : Token}
  {row row₁ below : Row} {b : Bracket} {content : List Entry}

theorem reached_nil : Reached [] [] := ⟨.start, Row.placed_nil, Nat.le_refl _⟩

theorem Finishes.step (hstep : scanWithin settings room (t.mark (Token.delimited before)) ts row =
      ⟨.ok (), Token.after (Token.delimited (before ++ read)) left, row₁⟩)
    (hsplit : t :: ts = read ++ left) (h : Finishes settings room (before ++ read) left row₁) :
    Finishes settings room before (t :: ts) row := by
  obtain ⟨row', hrun, hp, hh, hw⟩ := h
  refine ⟨row', ?_, hp, hh, ?_⟩
  · rw [Token.after_eq_cons]
    exact .step hstep hrun
  · have hlen := congrArg List.length hsplit
    simp only [List.length_append] at hw hlen
    omega

theorem Finishes.level (h : Finishes settings room [] ts [])
    (hmax : ts.length ≤ settings.maxDepth) :
    ∃ content, (scanWithin settings room).level settings.maxDepth ts = ⟨.ok content, []⟩ ∧
      Entry.weight content ≤ ts.length := by
  obtain ⟨row, hrun, hp, hh, hw⟩ := h
  have hlegible : row.Legible settings :=
    (legible_scanWithin settings room).runs hrun Scan.legible_nil fun _ => Scan.open_nil
  have hw' : Entry.weight row ≤ ts.length := by simpa using hw
  obtain ⟨content, hf, hle⟩ := hlegible.exists_fold hp hh (Nat.le_trans hw' hmax)
  refine ⟨content, ?_, Nat.le_trans hle hw'⟩
  exact (Scan.level_eq_ok_iff (regular_scanWithin settings room).shrinks).2 ⟨rfl, row, hrun, hf⟩

theorem scanWithin_of_reads {rest : List Token}
    (h : (Reader.context ⟨settings, room⟩).Reads t ts row rest row₁) :
    scanWithin settings room t ts row = ⟨.ok (), rest, row₁⟩ := by
  rw [← Reader.scan_eq ⟨settings, room⟩]
  exact h.scan_eq

theorem Token.Leaf.exists_atom {table : OperatorTable} (h : t.Leaf) :
    ∃ n, t.atom? table = some n := by
  rcases h.kind with hk | hk | hk | hk <;> simp only [Token.atom?, hk]
  · exact ⟨_, rfl⟩
  · obtain ⟨value, hv⟩ := Option.isSome_iff_exists.1 (h.literal hk)
    exact ⟨.number value, by rw [hv]; rfl⟩
  · exact ⟨_, rfl⟩
  · exact ⟨_, rfl⟩

theorem Token.exists_marker {table : OperatorTable} (hk : t.kind = .operator)
    (ht : table.contains t.text = true) : ∃ op, t.atom? table = some (.marker op) := by
  obtain ⟨info, hi⟩ := Option.isSome_iff_exists.1 ht
  exact ⟨_, by simp only [Token.atom?, hk, hi]; rfl⟩

theorem scanWithin_of_atom {n : Node} (h : t.atom? settings.operators = some n) :
    scanWithin settings room t ts row = ⟨.ok (), ts, ⟨n, 0⟩ :: row⟩ :=
  scanWithin_of_reads (.atom (by simpa using h))

namespace Reached

variable {e left right : Entry} {opener closer token : Token} {dots unit : List Token}

theorem delimiter (h : Reached before row) (hk : t.kind = .delimiter) :
    Reached (before ++ [t]) row where
  mirrors := h.mirrors.delimiter hk
  placed := h.placed
  weight := by
    have := h.weight
    rw [List.length_append]
    omega

theorem marker (h : Reached before row) (hk : t.kind = .operator) (ho : OperandBefore before)
    (op : Operator) : Reached (before ++ [t]) (⟨.marker op, 0⟩ :: row) where
  mirrors := .marker hk rfl
  placed := Row.placed_cons.2 ⟨.inr (h.mirrors.operand.1 ho), h.placed⟩
  weight := by
    have := h.weight
    simp only [Entry.weight_cons, List.length_append, List.length_singleton]
    omega

theorem atom {n : Node} (h : Reached before row) (hl : t.Leaf)
    (hn : t.atom? settings.operators = some n) : Reached (before ++ [t]) (⟨n, 0⟩ :: row) where
  mirrors := .atom h.mirrors.undotted hl hn
  placed := Row.placed_cons.2 ⟨.inl (hl.node_of_atom? hn).1, h.placed⟩
  weight := by
    have := h.weight
    simp only [Entry.weight_cons, List.length_append, List.length_singleton]
    omega

theorem semicolon (h : Reached before (e :: below)) (hk : t.kind = .semicolon)
    (ho : e.isOperand = true) :
    Reached (before ++ [t]) (⟨.statement [e.node], e.depth + 1⟩ :: below) where
  mirrors := .semicolon hk [e.node] _
  placed := (Row.placed_cons_operand rfl).2 ((Row.placed_cons_operand ho).1 h.placed)
  weight := by
    have := h.weight
    simp only [Entry.weight_cons, List.length_append, List.length_singleton] at *
    omega

theorem attach (h : Reached before row) (ho : opener.kind = .opening b)
    (hc : closer.kind = .closing b) (hi : Balanced inside)
    (hg : b = .parenthesis → token.grouping = Token.delimited before)
    (ha : b.Attaches token content row e below) (hw : Entry.weight content ≤ inside.length) :
    Reached (before ++ opener :: (inside ++ [closer])) (e :: below) where
  mirrors := h.mirrors.attach ho hc hi hg ha
  placed := ha.placed_iff.2 h.placed
  weight := by
    have hrow := h.weight
    have hle := ha.weight_le
    simp only [List.length_append, List.length_cons, List.length_nil]
    omega

theorem dotted (h : Reached before (left :: below)) (hlo : left.isOperand = true)
    (hd : Dots before dots) (hne : dots ≠ []) (hp : Primary settings.operators unit)
    (hw : right.depth < unit.length) (isRange : Bool) :
    Reached (before ++ (dots ++ unit)) (Scan.dotted isRange left right :: below) where
  mirrors := by
    rw [← List.append_assoc]
    exact hp.operand.mirrors hd hne isRange
  placed := by
    have hdotted : (Scan.dotted isRange left right).isOperand = true := by cases isRange <;> rfl
    rw [Row.placed_cons_operand hdotted]
    exact (Row.placed_cons_operand hlo).1 h.placed
  weight := by
    have hrow := h.weight
    simp only [Entry.weight_cons, Scan.dotted, List.length_append] at *
    omega

theorem exists_operand (h : Reached before row) (ho : OperandBefore before) :
    ∃ e below, row = e :: below ∧ e.isOperand = true := by
  obtain ⟨e, he, heo⟩ := h.mirrors.operand.1 ho
  obtain ⟨below, rfl⟩ := List.head?_eq_some_iff.1 he
  exact ⟨e, below, rfl, heo⟩

theorem depth_lt (h : Reached before (e :: below)) : e.depth < before.length := by
  have := h.weight
  rw [Entry.weight_cons] at this
  omega

end Reached

namespace Finishes

variable {closer opener : Token} {e right : Entry} {dots unit : List Token}

theorem delimiter (h : Finishes settings room (before ++ [t]) ts row) (hk : t.kind = .delimiter) :
    Finishes settings room before (t :: ts) row := by
  refine .step ?_ rfl h
  rw [Token.delimited_concat_delimiter hk]
  exact scanWithin_of_reads (.delimiter (by simpa using hk))

theorem atom {n : Node} (h : Finishes settings room (before ++ [t]) ts (⟨n, 0⟩ :: row))
    (hn : t.atom? settings.operators = some n) (hk : t.kind ≠ .delimiter)
    (hp : t.kind ≠ .opening .parenthesis) : Finishes settings room before (t :: ts) row := by
  refine .step ?_ rfl h
  rw [Token.delimited_concat hk, Token.mark_of_kind hp]
  exact scanWithin_of_atom hn

theorem semicolon
    (h : Finishes settings room (before ++ [t]) ts (⟨.statement [e.node], e.depth + 1⟩ :: below))
    (hk : t.kind = .semicolon) (ho : e.isOperand = true) (hd : e.depth + 1 ≤ settings.maxDepth) :
    Finishes settings room before (t :: ts) (e :: below) := by
  refine .step ?_ rfl h
  rw [Token.delimited_concat (by simp [hk])]
  exact scanWithin_of_reads (.semicolon (by simpa using hk) rfl ho (by simpa using hd))

theorem enclosed
    (h : Finishes settings (room + 1) (before ++ opener :: (inside ++ [closer])) ts (e :: below))
    (ho : opener.kind = .opening b) (hc : closer.kind = .closing b)
    (hi : Completes settings.operators [] inside)
    (hl : (scanWithin settings room).level settings.maxDepth inside = ⟨.ok content, []⟩)
    (ha : b.attach (opener.mark (Token.delimited before)) content row = (.ok e, below))
    (hd : e.depth ≤ settings.maxDepth) :
    Finishes settings (room + 1) before (opener :: (inside ++ closer :: ts)) row := by
  refine .step ?_ (by simp) h
  rw [(Operand.enclosed ho hc hi.fits.1).delimited]
  refine scanWithin_of_reads (.of_balanced (by simpa using ho) hc hi.fits.1 rfl ?_ ha ?_ ts)
  · simpa using congrArg Reading.outcome hl
  · simpa using hd

theorem dot {left : Entry}
    (h : ∀ isRange, Finishes settings (room + 1) (before ++ (dots ++ unit)) ts
      (Scan.dotted isRange left right :: below))
    (hd : Dots before dots) (hne : dots ≠ []) (hp : Primary settings.operators unit)
    (hlo : left.isOperand = true)
    (hone : (scanWithin settings room).one (unit ++ ts) [] = ⟨.ok (), ts, [right]⟩)
    (hro : right.isOperand = true) (hmax : max left.depth right.depth + 1 ≤ settings.maxDepth) :
    Finishes settings (room + 1) before (dots ++ (unit ++ ts)) (left :: below) := by
  obtain ⟨p, stream, hk, hsplit, hsecond⟩ := hd.exists_second hne (hp.head_ne_period ts)
  have hdelimited : Token.delimited (before ++ (dots ++ unit)) = false := by
    rw [← List.append_assoc]
    exact hp.operand.delimited
  rw [hsplit]
  refine .step ?_ (by rw [← hsplit, List.append_assoc]) (h (secondPeriod stream).1)
  rw [hdelimited, Token.mark_of_kind (by simp [hk])]
  have hright : (scanWithin settings room).one (secondPeriod stream).2 [] =
      ⟨.ok (), ts, [right]⟩ := by rwa [hsecond]
  exact scanWithin_of_reads (.dot hk rfl hlo rfl hright hro (by simpa [Scan.dotted] using hmax))

theorem of_primary (hr : Reached before row) (hd : Dots before dots) (hne : dots ≠ [])
    (hp : Primary settings.operators unit)
    (hone : (scanWithin settings room).one (unit ++ ts) [] = ⟨.ok (), ts, [right]⟩)
    (hro : right.isOperand = true) (hw : right.depth < unit.length)
    (hmax : before.length + unit.length ≤ settings.maxDepth)
    (h : ∀ row', Reached (before ++ dots ++ unit) row' →
      Finishes settings (room + 1) (before ++ dots ++ unit) ts row') :
    Finishes settings (room + 1) before (dots ++ (unit ++ ts)) row := by
  obtain ⟨left, below, rfl, hlo⟩ := hr.exists_operand (hd.operandBefore hne)
  have hlt := hr.depth_lt
  refine .dot (fun isRange => ?_) hd hne hp hlo hone hro (by omega)
  have hnext := hr.dotted hlo hd hne hp hw isRange
  rw [← List.append_assoc] at hnext ⊢
  exact h _ hnext

end Finishes

structure Allows (settings : Settings) (room : Nat) (before ts : List Token) : Prop where
  ungrouped : ∀ s ∈ ts, s.grouping = false
  room : ts.length ≤ room
  limit : before.length + ts.length ≤ settings.maxDepth

theorem Allows.later (h : Allows settings room before ts) (read : List Token)
    (hs : ts = read ++ left) {past : List Token} (hp : past = before ++ read) :
    Allows settings room past left := by
  subst hs hp
  have hroom := h.room
  have hlimit := h.limit
  rw [List.length_append] at hroom hlimit
  refine ⟨fun s hm => h.ungrouped s (List.mem_append_right _ hm), by omega, ?_⟩
  rw [List.length_append]
  omega

theorem Allows.next (h : Allows settings room before (t :: ts)) :
    Allows settings room (before ++ [t]) ts := h.later [t] rfl rfl

theorem one_leaf (hl : t.Leaf) (ts : List Token) :
    ∃ right, (scanWithin settings room).one ([t] ++ ts) [] = ⟨.ok (), ts, [right]⟩ ∧
      right.isOperand = true ∧ right.depth < [t].length := by
  obtain ⟨n, hn⟩ := hl.exists_atom
  exact ⟨⟨n, 0⟩, scanWithin_of_atom hn, (hl.node_of_atom? hn).1, Nat.zero_lt_one⟩

theorem one_enclosed {opener closer : Token} (ho : opener.kind = .opening b)
    (hc : closer.kind = .closing b) (hi : Balanced inside)
    (hl : (scanWithin settings room).level settings.maxDepth inside = ⟨.ok content, []⟩)
    (hw : Entry.weight content ≤ inside.length) (hmax : inside.length + 2 ≤ settings.maxDepth)
    (ts : List Token) :
    ∃ right, (scanWithin settings (room + 1)).one (opener :: (inside ++ [closer]) ++ ts) [] =
        ⟨.ok (), ts, [right]⟩ ∧
      right.isOperand = true ∧ right.depth < (opener :: (inside ++ [closer])).length := by
  obtain ⟨e, below, ha⟩ := @Bracket.exists_attach b [] opener content (by simp)
  have hattach := Bracket.attaches_of_attach ha
  have hle := hattach.weight_le
  simp only [Entry.weight_cons, Entry.weight_nil] at hle
  obtain rfl : below = [] := by cases hattach <;> rfl
  refine ⟨e, ?_, hattach.isOperand, by simp only [List.length_cons, List.length_append]; omega⟩
  rw [List.cons_append, List.append_assoc, List.singleton_append]
  refine scanWithin_of_reads (.of_balanced ho hc hi rfl ?_ ha ?_ ts)
  · simpa using congrArg Reading.outcome hl
  · simp only [Reader.context_settings]
    omega

theorem Finishes.of_leaf {dots : List Token} (hr : Reached before row)
    (ha : Allows settings room before (dots ++ t :: ts)) (hd : Dots before dots) (hl : t.Leaf)
    (h : ∀ {row'}, Reached (before ++ dots ++ [t]) row' →
      Finishes settings room (before ++ dots ++ [t]) ts row') :
    Finishes settings room before (dots ++ t :: ts) row := by
  have hroom := ha.room
  have hlimit := ha.limit
  simp only [List.length_append, List.length_cons] at hroom hlimit
  by_cases hne : dots = []
  · subst hne
    rw [List.append_nil] at h
    obtain ⟨n, hn⟩ := (hl.exists_atom : ∃ n, t.atom? settings.operators = some n)
    refine .atom (h (hr.atom hl hn)) hn (Token.kind_ne_delimiter_of_endsOperand hl.endsOperand) ?_
    rcases hl.kind with hk | hk | hk | hk <;> simp [hk]
  · obtain ⟨k, rfl⟩ : ∃ k, room = k + 1 := ⟨room - 1, by omega⟩
    obtain ⟨right, hone, hro, hw⟩ := @one_leaf settings k t hl ts
    refine .of_primary hr hd hne (.leaf hl) hone hro hw ?_ fun _ => h
    rw [List.length_singleton]
    omega

theorem Finishes.of_enclosed {opener closer : Token} {dots : List Token} (hr : Reached before row)
    (ha : Allows settings room before (dots ++ opener :: (inside ++ closer :: ts)))
    (hd : Dots before dots) (ho : opener.kind = .opening b) (hc : closer.kind = .closing b)
    (hn : b = .brace → Nameable (before ++ dots)) (hi : Completes settings.operators [] inside)
    (hin : ∀ {k}, Allows settings k [] inside → Finishes settings k [] inside [])
    (h : ∀ {row'}, Reached (before ++ dots ++ opener :: (inside ++ [closer])) row' →
      Finishes settings room (before ++ dots ++ opener :: (inside ++ [closer])) ts row') :
    Finishes settings room before (dots ++ opener :: (inside ++ closer :: ts)) row := by
  have hroom := ha.room
  have hlimit := ha.limit
  simp only [List.length_append, List.length_cons] at hroom hlimit
  have hlevel : ∀ k, inside.length ≤ k →
      ∃ content, (scanWithin settings k).level settings.maxDepth inside = ⟨.ok content, []⟩ ∧
        Entry.weight content ≤ inside.length := by
    intro k hk
    refine (hin ⟨fun s hs => ha.ungrouped s (by simp [hs]), hk, ?_⟩).level (by omega)
    rw [List.length_nil]
    omega
  by_cases hne : dots = []
  · subst hne
    rw [List.append_nil] at h hn
    obtain ⟨k, rfl⟩ : ∃ k, room = k + 1 := ⟨room - 1, by omega⟩
    obtain ⟨content, hl, hw⟩ := hlevel k (by omega)
    obtain ⟨e, below, hattach⟩ := Bracket.exists_attach (opener.mark (Token.delimited before))
      content fun hb => hr.mirrors.nameable.1 (hn hb)
    have hgrouping : b = .parenthesis →
        (opener.mark (Token.delimited before)).grouping = Token.delimited before := by
      rintro rfl
      exact Token.mark_grouping (ha.ungrouped opener (by simp)) ho
    have hr' := hr.attach ho hc hi.fits.1 hgrouping (Bracket.attaches_of_attach hattach) hw
    have hlt := hr'.depth_lt
    simp only [List.length_append, List.length_cons, List.length_nil] at hlt hlimit
    exact .enclosed (h hr') ho hc hi hl hattach (by omega)
  · have hdots := List.length_pos_of_ne_nil hne
    obtain ⟨k, rfl⟩ : ∃ k, room = k + 2 := ⟨room - 2, by omega⟩
    obtain ⟨content, hl, hw⟩ := hlevel k (by omega)
    obtain ⟨right, hone, hro, hright⟩ := one_enclosed ho hc hi.fits.1 hl hw (by omega) ts
    have hall := Finishes.of_primary hr hd hne (.enclosed ho hc hi) hone hro hright ?_ fun _ => h
    · simpa using hall
    · simp only [List.length_append, List.length_cons, List.length_nil]
      omega

/-- Where the grammar reads a level, the reader does. -/
theorem Completes.finishes (h : Completes settings.operators before ts) (hr : Reached before row)
    (ha : Allows settings room before ts) : Finishes settings room before ts row := by
  induction h generalizing room row with
  | done he =>
    refine ⟨row, ?_, hr.placed, hr.mirrors.ended_iff.1 he, hr.weight⟩
    cases Token.delimited _ <;> exact .refl _ _
  | delimiter hk _ ih => exact .delimiter (ih (hr.delimiter hk) ha.next) hk
  | operator hk ht ho _ ih =>
    obtain ⟨op, hop⟩ := Token.exists_marker hk ht
    exact .atom (ih (hr.marker hk ho op) ha.next) hop (by simp [hk]) (by simp [hk])
  | semicolon hk ho _ ih =>
    obtain ⟨e, below, rfl, heo⟩ := hr.exists_operand ho
    have hlt := hr.depth_lt
    have hlimit := ha.limit
    rw [List.length_cons] at hlimit
    exact .semicolon (ih (hr.semicolon hk heo) ha.next) hk heo (by omega)
  | @leaf t before dots ts hd hl _ ih =>
    refine .of_leaf hr ha hd hl fun hr' => ih hr' (ha.later (dots ++ [t]) ?_ ?_)
    · simp
    · simp
  | @enclosed b opener closer before dots inside ts hd ho hc hn hi _ ihi ih =>
    refine .of_enclosed hr ha hd ho hc hn hi (fun hin => ihi reached_nil hin) fun hr' =>
      ih hr' (ha.later (dots ++ opener :: (inside ++ [closer])) ?_ ?_)
    · simp
    · simp

end Complete

/-- A token list without choices, under a limit not below its length, is read if and only if its
brackets are balanced and each token fits between its neighbours. -/
theorem parseWith_accepts_iff {settings : Settings} {tokens : List Token}
    (hplain : ∀ t ∈ tokens, t.kind ≠ .questionMark ∧ t.grouping = false)
    (hmax : tokens.length ≤ settings.maxDepth) :
    (∃ nodes, parseWith settings tokens = .ok nodes) ↔ Acceptable settings.operators tokens := by
  rw [← completes_iff_acceptable fun t ht => (hplain t ht).1]
  constructor
  · intro h
    obtain ⟨nodes, hn⟩ := h
    obtain ⟨content, hl, -⟩ := parseWith_eq_ok_iff.1 hn
    exact (sound_scanWithin settings _).level hl fun t ht => ⟨(hplain t ht).2, (hplain t ht).1⟩
  · intro h
    have hfinish := h.finishes reached_nil ⟨fun t ht => (hplain t ht).2, hmax, by simpa using hmax⟩
    obtain ⟨content, hl, -⟩ := hfinish.level hmax
    exact ⟨content.map Entry.node, parseWith_eq_ok_iff.2 ⟨content, hl, rfl⟩⟩

/-- The list f(x) {a.b;}, (c - d)..e, in which every clause has its say. -/
def mixedTokens : List Token :=
  let word (name : String) : Token := .plain .word name
  let mark (k : TokenKind) : Token := .plain k ""
  [word "f", mark (.opening .parenthesis), word "x", mark (.closing .parenthesis),
    mark (.opening .brace), word "a", mark .period, word "b", mark .semicolon,
    mark (.closing .brace), mark .delimiter, mark (.opening .parenthesis), word "c",
    .plain .operator "-", word "d", mark (.closing .parenthesis), mark .period, mark .period,
    word "e"]

/-- With a member in place of the name the function has none. -/
theorem parseWith_accepts_iff_mixed :
    Acceptable OperatorTable.standard mixedTokens ∧
      ¬ Acceptable OperatorTable.standard
        (.plain .word "a" :: .plain .period "." :: mixedTokens) := by
  have accepted := @parseWith_accepts_iff .standard mixedTokens (by decide) (by decide)
  have refused := @parseWith_accepts_iff .standard
    (.plain .word "a" :: .plain .period "." :: mixedTokens) (by decide) (by decide)
  refine ⟨accepted.1 ⟨_, rfl⟩, fun h => ?_⟩
  obtain ⟨nodes, hn⟩ := refused.2 h
  cases hn

end TokenForest
