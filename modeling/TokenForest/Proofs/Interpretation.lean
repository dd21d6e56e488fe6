import TokenForest.Proofs.Bracketing
import TokenForest.Proofs.Reading
import TokenForest.Proofs.Roles

/-!
Each bracket is read as its neighbours say. A scan decides by the newest entry of the row and by
the mark of a delimiter; both tell of the tokens read before, so the roles in the trees are those
of the tokens, one by one.
-/

set_option autoImplicit false

namespace TokenForest

/-- The newest entry also tells whether the tokens end with a group, and what stands before it. -/
structure Recalls (before : List Token) (row : Row) : Prop where
  mirrors : Mirrors before row
  call : AfterGroup Callable before ↔ ∃ e ∈ row.head?, e.node.kind = .call
  group : AfterGroup Standalone before ↔ ∃ e ∈ row.head?, e.node.kind = .group

namespace Recalls

variable {t opener closer token : Token} {before front dots unit inside : List Token}
  {row below : Row} {e left right : Entry} {b : Bracket} {content : List Entry}

theorem start : Recalls [] [] where
  mirrors := .start
  call := by simp [not_afterGroup_nil]
  group := by simp [not_afterGroup_nil]

theorem delimiter (h : Recalls before row) (hk : t.kind = .delimiter) :
    Recalls (before ++ [t]) row where
  mirrors := h.mirrors.delimiter hk
  call := by rw [afterGroup_concat_delimiter hk, h.call]
  group := by rw [afterGroup_concat_delimiter hk, h.group]

theorem of_mirrors (hm : Mirrors before (e :: below)) (hcall : ¬ AfterGroup Callable before)
    (hgroup : ¬ AfterGroup Standalone before) (hc : e.node.kind ≠ .call)
    (hg : e.node.kind ≠ .group) : Recalls before (e :: below) where
  mirrors := hm
  call := iff_of_false hcall (by simpa using hc)
  group := iff_of_false hgroup (by simpa using hg)

theorem push (hm : Mirrors (front ++ [t]) (e :: below)) (hd : t.kind ≠ .delimiter)
    (hp : t.kind ≠ .closing .parenthesis) (hc : e.node.kind ≠ .call)
    (hg : e.node.kind ≠ .group) : Recalls (front ++ [t]) (e :: below) :=
  of_mirrors hm (not_afterGroup_concat hd hp) (not_afterGroup_concat hd hp) hc hg

theorem atom {settings : Settings} {n : Node} (h : Recalls before row)
    (hn : t.atom? settings.operators = some n) : Recalls (before ++ [t]) (⟨n, 0⟩ :: row) := by
  obtain ⟨hc, hg⟩ := Node.kind_ne_of_isLeaf (Token.shape_of_atom? hn).1
  rcases Token.atom?_cases hn with ⟨hk, -, ho⟩ | hl
  · exact push (.marker hk ho) (by simp [hk]) (by simp [hk]) hc hg
  · exact push (.atom h.mirrors.undotted hl hn)
      (Token.kind_ne_delimiter_of_endsOperand hl.endsOperand) hl.kind_ne.2 hc hg

theorem dotted (hu : Operand unit) (hd : Dots before dots) (hne : dots ≠ []) (isRange : Bool) :
    Recalls (before ++ dots ++ unit) (Scan.dotted isRange left right :: below) := by
  have hm : Mirrors (before ++ dots ++ unit) (Scan.dotted isRange left right :: below) :=
    hu.mirrors hd hne isRange
  obtain ⟨hundotted, hcallable⟩ := hd.not_callable hne
  have hafter : ∀ p, ¬ p (before ++ dots) → ¬ AfterGroup p (before ++ dots ++ unit) := by
    intro p hp
    cases hu with
    | leaf hl =>
      exact not_afterGroup_concat (Token.kind_ne_delimiter_of_endsOperand hl.endsOperand)
        hl.kind_ne.2
    | @enclosed b opener closer inside ho hc hi =>
      by_cases hb : b = .parenthesis
      · subst hb
        rwa [afterGroup_group ho hc hi]
      · rw [concat_closer]
        exact not_afterGroup_concat (by simp [hc]) (by simpa [hc] using hb)
  refine of_mirrors hm (hafter _ hcallable) (hafter _ fun h => hundotted h.2) ?_ ?_ <;>
    cases isRange <;> simp [Scan.dotted, Node.kind]

theorem attach (h : Recalls before row) (ho : opener.kind = .opening b)
    (hc : closer.kind = .closing b) (hi : Balanced inside)
    (hg : b = .parenthesis → token.grouping = Token.delimited before)
    (ha : b.Attaches token content row e below) :
    Recalls (before ++ opener :: (inside ++ [closer])) (e :: below) := by
  have hm : Mirrors (before ++ opener :: (inside ++ [closer])) (e :: below) :=
    h.mirrors.attach ho hc hi hg ha
  by_cases hb : b = .parenthesis
  · subst hb
    have hcall : Callable before ↔ e.node.kind = .call := h.mirrors.callable_iff_call (hg rfl) ha
    have hgroup : e.node.kind = .group ↔ e.node.kind ≠ .call := by
      cases ha <;> simp [Node.kind]
    refine ⟨hm, ?_, ?_⟩
    · rw [afterGroup_group ho hc hi, hcall]
      simp
    · rw [afterGroup_group ho hc hi, Standalone, and_iff_left h.mirrors.undotted, hcall]
      simp [hgroup]
  · rw [concat_closer] at hm ⊢
    refine push hm (by simp [hc]) (by simpa [hc] using hb) ?_ ?_ <;>
      cases ha <;> first | exact absurd rfl hb | simp [Node.kind]

/-- The role that the opener has among its neighbours is the last one of what the enclosure
becomes: a function has had its first role since its parameters were read. -/
theorem role?_eq (h : Recalls before row) (ho : opener.kind = .opening b)
    (hg : b = .parenthesis → token.grouping = Token.delimited before)
    (ha : b.Attaches token content row e below) :
    opener.role? before = e.node.ownRoles.getLast? := by
  have hcallable : b = .parenthesis → (Callable before ↔ e.node.kind = .call) := by
    rintro rfl
    exact h.mirrors.callable_iff_call (hg rfl) ha
  cases ha with
  | call => exact (Token.role?_eq_some_iff (r := .call)).2 ⟨ho, (hcallable rfl).2 rfl⟩
  | group =>
    refine (Token.role?_eq_some_iff (r := .group)).2 ⟨ho, fun hb => ?_⟩
    cases (hcallable rfl).1 hb
  | index hto =>
    exact (Token.role?_eq_some_iff (r := .index)).2 ⟨ho, h.mirrors.operand.2 ⟨_, rfl, hto⟩⟩
  | set hno =>
    refine (Token.role?_eq_some_iff (r := .set)).2 ⟨ho, fun hb => ?_⟩
    obtain ⟨f, hf, hfo⟩ := h.mirrors.operand.1 hb
    simp [hno f hf] at hfo
  | named => exact (Token.role?_eq_some_iff (r := .named)).2 ⟨ho, h.call.2 ⟨_, rfl, rfl⟩⟩
  | anonymous =>
    exact (Token.role?_eq_some_iff (r := .anonymous)).2 ⟨ho, h.group.2 ⟨_, rfl, rfl⟩⟩
  | block hk =>
    refine (Token.role?_eq_some_iff (r := .block)).2 ⟨ho, fun hc => ?_, fun hg => ?_⟩
    · obtain ⟨f, hf, hfk⟩ := h.call.1 hc
      exact (hk f hf).1 hfk
    · obtain ⟨f, hf, hfk⟩ := h.group.1 hg
      exact (hk f hf).2 hfk

end Recalls

section Enclosures

variable {token : Token} {content : List Entry} {b : Bracket} {row below : Row} {e : Entry}

theorem Bracket.Attaches.rolesOf_eq (h : Attaches token content b row e below) :
    Node.rolesOf (Row.nodes (e :: below)) = Node.rolesOf row.nodes ++
      (e.node.ownRoles.getLast?.toList ++ Node.rolesOf (content.map Entry.node)) := by
  cases h <;> simp [Node.rolesOf_append, Node.rolesOf, Node.roles, Node.ownRoles]

theorem Recalls.rolesOf_enclosed {before inside : List Token} {opener closer : Token}
    (h : Recalls before row) (ho : opener.kind = .opening b) (hc : closer.kind = .closing b)
    (hi : Balanced inside) (hg : b = .parenthesis → token.grouping = Token.delimited before)
    (ha : b.Attaches token content row e below)
    (hin : Node.rolesOf (content.map Entry.node) = Token.roles [] inside) :
    Node.rolesOf (Row.nodes (e :: below)) =
      Node.rolesOf row.nodes ++ Token.roles before (opener :: (inside ++ [closer])) := by
  rw [ha.rolesOf_eq, hin, Token.roles_enclosed ho hc hi, h.role?_eq ho hg ha]

end Enclosures

section Operands

variable {t p : Token} {before pre dots unit : List Token}

theorem Dots.exists_last (hd : Dots before dots) (hne : dots ≠ []) :
    ∃ pre p, before ++ dots = pre ++ [p] ∧ p.kind = .period := by
  cases hd with
  | none => exact absurd rfl hne
  | one hk => exact ⟨before, _, rfl, hk⟩
  | @two p q _ hq => exact ⟨before ++ [p], q, by simp, hq⟩

theorem Token.role?_period (hp : p.kind = .period) : t.role? (pre ++ [p]) = t.role? [] := by
  have hcall : ¬ Callable (pre ++ [p]) := by simp [callable_concat, endsOperand, hp]
  have hoperand : ¬ OperandBefore (pre ++ [p]) := by simp [operandBefore_concat, endsOperand, hp]
  have hgroup : ∀ q, ¬ AfterGroup q (pre ++ [p]) := fun q =>
    not_afterGroup_concat (by simp [hp]) (by simp [hp])
  have hcall' : ¬ Callable [] := by simp [Callable]
  have hoperand' : ¬ OperandBefore [] := by simp [OperandBefore, solid]
  simp only [role?, hcall, hoperand, hgroup, hcall', hoperand', not_afterGroup_nil]

theorem Token.roles_dots (hd : Dots before dots) : roles before dots = [] := by
  cases hd with
  | none => rfl
  | one hk => exact roles_single (by simp [hk])
  | two hk hq => simp [roles_cons, role?_eq_none, hk, hq]

theorem Operand.roles_eq (h : Operand unit) (hd : Dots before dots) (hne : dots ≠ []) :
    Token.roles before (dots ++ unit) = Token.roles [] unit := by
  obtain ⟨pre, p, hlast, hp⟩ := hd.exists_last hne
  rw [Token.roles_append, Token.roles_dots hd, List.nil_append, hlast]
  cases h with
  | leaf hl => rw [Token.roles_plain hl.isBracket, Token.roles_plain hl.isBracket]
  | enclosed ho hc hi =>
    rw [Token.roles_enclosed ho hc hi, Token.roles_enclosed ho hc hi, Token.role?_period hp]

end Operands

/-- What a construct puts on the row has the roles that its tokens have among their neighbours. -/
def Interpreted (before ts : List Token) (row : Row) (rest : List Token) (row' : Row) : Prop :=
  ∃ read left, ts = read ++ left ∧ rest = Token.after (Token.delimited (before ++ read)) left ∧
    Node.rolesOf row'.nodes = Node.rolesOf row.nodes ++ Token.roles before read ∧
    (left ≠ [] → Recalls (before ++ read) row')

structure Scan.Interprets (scan : Scan) : Prop where
  nests : scan.Nests
  step : ∀ ⦃before : List Token⦄ ⦃t : Token⦄ ⦃ts rest : List Token⦄ ⦃row row' : Row⦄,
    scan (t.mark (Token.delimited before)) ts row = ⟨.ok (), rest, row'⟩ →
      (∀ s ∈ t :: ts, s.grouping = false) → Recalls before row →
        Interpreted before (t :: ts) row rest row'
  one : ∀ ⦃t : Token⦄ ⦃ts rest : List Token⦄ ⦃e : Entry⦄,
    scan t ts [] = ⟨.ok (), rest, [e]⟩ → (∀ s ∈ t :: ts, s.grouping = false) →
      e.isOperand = true →
        ∃ unit, Operand unit ∧ t :: ts = unit ++ rest ∧ e.node.roles = Token.roles [] unit

namespace Scan.Interprets

variable {scan : Scan} {before ts stream rest : List Token} {row row' : Row} {limit close : Nat}
  {content : List Entry} {b : Bracket}

theorem runs (h : scan.Interprets) (hrun : Runs scan stream row rest row')
    (hstream : stream = Token.after (Token.delimited before) ts)
    (hg : ∀ s ∈ ts, s.grouping = false) (hr : ts ≠ [] → Recalls before row) (hrest : rest = []) :
    Node.rolesOf row'.nodes = Node.rolesOf row.nodes ++ Token.roles before ts := by
  induction hrun generalizing before ts with
  | refl stream row =>
    subst hrest
    obtain rfl := Token.eq_nil_of_after hstream.symm
    simp
  | step ht _ ih =>
    obtain ⟨t, rfl, rfl⟩ := Token.exists_of_after_eq_cons hstream.symm
    obtain ⟨read, left, hsplit, hmid, hroles, hr'⟩ := h.step ht hg (hr (by simp))
    have hg' : ∀ s ∈ left, s.grouping = false := fun s hs =>
      hg s (by rw [hsplit]; exact List.mem_append_right _ hs)
    rw [ih hmid hg' hr' hrest, hroles, hsplit, Token.roles_append, List.append_assoc]

theorem level (h : scan.Interprets) (hl : scan.level limit ts = ⟨.ok content, rest⟩)
    (hg : ∀ s ∈ ts, s.grouping = false) :
    Node.rolesOf (content.map Entry.node) = Token.roles [] ts := by
  obtain ⟨-, row, hrun, hf⟩ := (level_eq_ok_iff h.nests.regular.shrinks).1 hl
  have hstart : ts = Token.after (Token.delimited []) ts := rfl
  have hroles := h.runs hrun hstart hg (fun _ => .start) rfl
  rw [Node.rolesOf_foldMarkers hf]
  simpa [Row.nodes, Node.rolesOf] using hroles

theorem interior (h : scan.Interprets) (hc : b.closeFrom 0 ts = some close)
    (hl : (scan.level limit (ts.take close)).outcome = .ok content)
    (hg : ∀ s ∈ ts, s.grouping = false) :
    ∃ closer, closer.kind = .closing b ∧ ts = ts.take close ++ closer :: ts.drop (close + 1) ∧
      Balanced (ts.take close) ∧
      Node.rolesOf (content.map Entry.node) = Token.roles [] (ts.take close) := by
  obtain ⟨closer, hk, hsplit⟩ := Bracket.closeFrom_split hc
  have hlevel := h.nests.regular.level_of_outcome hl
  exact ⟨closer, hk, hsplit, h.nests.level hl,
    h.level hlevel fun s hs => hg s (List.mem_of_mem_take hs)⟩

end Scan.Interprets

namespace Context.Reads

variable {ctx : Context} {before ts rest : List Token} {t : Token} {row row' : Row} {e : Entry}

theorem interpreted (hb : ∀ scan, ctx.below = some scan → scan.Interprets)
    (h : ctx.Reads (t.mark (Token.delimited before)) ts row rest row')
    (hg : ∀ s ∈ t :: ts, s.grouping = false) (hr : Recalls before row) :
    Interpreted before (t :: ts) row rest row' := by
  obtain ⟨ht, hts⟩ := List.forall_mem_cons.1 hg
  cases h with
  | delimiter hk =>
    rw [Token.mark_kind] at hk
    refine ⟨[t], ts, rfl, ?_, by simp [Token.roles_single, hk], fun _ => hr.delimiter hk⟩
    rw [Token.delimited_concat_delimiter hk]
    rfl
  | @atom n hn =>
    have hn := Token.mark_atom? hn
    obtain ⟨hleaf, -, hplain, -⟩ := Token.shape_of_atom? hn
    have hd : t.kind ≠ .delimiter := by
      intro hk
      simp [Token.atom?, hk] at hn
    refine ⟨[t], ts, rfl, ?_, ?_, fun _ => hr.atom hn⟩
    · rw [Token.delimited_concat hd]
      rfl
    · simp [Token.roles_plain hplain, Node.rolesOf_append, Node.rolesOf,
        Node.roles_of_isLeaf hleaf]
  | @enclosed b close scan content e below hk hc hbs hl ha hd =>
    rw [Token.mark_kind] at hk
    obtain ⟨closer, hck, hsplit, hbal, hin⟩ := (hb scan hbs).interior hc hl hts
    have ha := Bracket.attaches_of_attach ha
    have hgrouping : b = .parenthesis →
        (t.mark (Token.delimited before)).grouping = Token.delimited before := by
      rintro rfl
      exact Token.mark_grouping ht hk
    refine ⟨t :: (ts.take close ++ [closer]), ts.drop (close + 1), by simpa using hsplit, ?_,
      hr.rolesOf_enclosed hk hck hbal hgrouping ha hin,
      fun _ => hr.attach hk hck hbal hgrouping ha⟩
    rw [(Operand.enclosed hk hck hbal).delimited]
    rfl
  | @dot left right below found scan rest hk hrow hlo hbs ho hro hd =>
    subst hrow
    rw [Token.mark_kind] at hk
    have hoperand : OperandBefore before := hr.mirrors.operand.2 ⟨left, rfl, hlo⟩
    obtain ⟨dots, hdots, hne, hsplit⟩ := secondPeriod_dots hk hoperand ts
    obtain ⟨u, us, hus, -, hone⟩ := (hb scan hbs).nests.regular.one_eq_ok ho
    rw [hus] at hsplit
    have hgu : ∀ s ∈ u :: us, s.grouping = false := fun s hs =>
      hg s (by rw [hsplit]; exact List.mem_append_right _ hs)
    obtain ⟨unit, hunit, hread, hroles⟩ := (hb scan hbs).one hone hgu hro
    refine ⟨dots ++ unit, rest, by rw [hsplit, hread, List.append_assoc], ?_, ?_, fun _ => ?_⟩
    · rw [← List.append_assoc, hunit.delimited]
      rfl
    · rw [hunit.roles_eq hdots hne, ← hroles]
      cases (secondPeriod ts).1 <;>
        simp [Scan.dotted, Node.rolesOf_append, Node.rolesOf, Node.roles]
    · rw [← List.append_assoc]
      exact .dotted hunit hdots hne _
  | @semicolon e below hk hrow ho hd =>
    subst hrow
    rw [Token.mark_kind] at hk
    refine ⟨[t], ts, rfl, ?_, ?_, fun _ => ?_⟩
    · rw [Token.delimited_concat (by simp [hk])]
      rfl
    · simp [Token.roles_single, hk, Node.rolesOf_append, Node.rolesOf, Node.roles]
    · exact .push (.semicolon hk _ _) (by simp [hk]) (by simp [hk]) (by simp [Node.kind])
        (by simp [Node.kind])
  | @choice condition below scan op left right depth rest hk hrow ho hbs hl hs hd =>
    subst hrow
    rw [Token.mark_kind] at hk
    -- The branches are read on a level of their own, and the question mark bars the condition.
    obtain ⟨rfl, -⟩ := (Scan.level_eq_ok_iff (hb scan hbs).nests.regular.shrinks).1 hl
    have hbal : Balanced ts := (hb scan hbs).nests.level (congrArg Reading.outcome hl)
    have hbar : t.Bar := ⟨by simp [Token.endsOperand, hk], by simp [hk], by simp [hk]⟩
    have hroles : Token.roles before (t :: ts) = left.roles ++ right.roles := by
      have hnone : t.role? before = none := Token.role?_eq_none (by simp [hk])
      rw [Token.roles_cons, hnone, Token.roles_inside hbar hbal, ← (hb scan hbs).level hl hts]
      simp [Node.rolesOf, Node.roles]
    refine ⟨t :: ts, [], by simp, ?_, ?_, fun hne => absurd rfl hne⟩
    · cases Token.delimited (before ++ t :: ts) <;> rfl
    · simp [hroles, Node.rolesOf_append, Node.rolesOf, Node.roles]

theorem exists_operand (hb : ∀ scan, ctx.below = some scan → scan.Interprets)
    (h : ctx.Reads t ts [] rest [e]) (hg : ∀ s ∈ t :: ts, s.grouping = false)
    (he : e.isOperand = true) :
    ∃ unit, Operand unit ∧ t :: ts = unit ++ rest ∧ e.node.roles = Token.roles [] unit := by
  obtain ⟨ht, hts⟩ := List.forall_mem_cons.1 hg
  cases h with
  | @atom n hn =>
    rcases Token.atom?_cases hn with ⟨-, -, ho⟩ | hl
    · exact absurd (he.symm.trans ho) (by simp)
    · refine ⟨[t], .leaf hl, rfl, ?_⟩
      rw [Token.roles_plain hl.isBracket]
      exact Node.roles_of_isLeaf (Token.shape_of_atom? hn).1
  | @enclosed b close scan content e below hk hc hbs hl ha hd =>
    obtain ⟨closer, hck, hsplit, hbal, hin⟩ := (hb scan hbs).interior hc hl hts
    have hroles := Recalls.start.rolesOf_enclosed hk hck hbal (fun _ => ht)
      (Bracket.attaches_of_attach ha) hin
    refine ⟨t :: (ts.take close ++ [closer]), .enclosed hk hck hbal, by simpa using hsplit, ?_⟩
    simpa [Row.nodes, Node.rolesOf] using hroles
  | dot hk hrow => cases hrow
  | semicolon hk hrow => cases hrow
  | choice hk hrow => cases hrow

end Context.Reads

theorem interprets_scanWithin (settings : Settings) (room : Nat) :
    (scanWithin settings room).Interprets := by
  refine scanWithin_induction settings (P := Scan.Interprets) ?_ room
  intro below hb
  refine ⟨?_, fun _ _ _ _ _ _ h => (Context.reads_of_scan h).interpreted hb,
    fun _ _ _ _ h => (Context.reads_of_scan h).exists_operand hb⟩
  exact Context.nests_scan fun scan hs => (hb scan hs).nests

/-- The brackets of a list have the roles in the trees that their neighbours give them. -/
theorem parseWith_roles {settings : Settings} {tokens : List Token} {nodes : List Node}
    (h : parseWith settings tokens = .ok nodes) (hg : ∀ t ∈ tokens, t.grouping = false) :
    Node.rolesOf nodes = Token.roles [] tokens := by
  obtain ⟨content, hl, rfl⟩ := parseWith_eq_ok_iff.1 h
  exact (interprets_scanWithin settings settings.maxDepth).level hl hg

/-- The brackets that the trees are written with, counted by what they mean, are those of the
tokens, counted by what stands before them. -/
structure Tallied (nodes : List Node) (tokens : List Token) : Prop where
  calls : Node.occurrences (fun n => n.kind == .call) nodes + Node.occurrences Node.isNamed nodes =
    Token.opened .parenthesis Callable tokens
  groups : Node.occurrences (fun n => n.kind == .group) nodes +
    Node.occurrences Node.isAnonymous nodes =
      Token.opened .parenthesis (fun before => ¬ Callable before) tokens
  indices : Node.occurrences (fun n => n.kind == .index) nodes =
    Token.opened .square OperandBefore tokens
  sets : Node.occurrences (fun n => n.kind == .set) nodes =
    Token.opened .square (fun before => ¬ OperandBefore before) tokens
  named : Node.occurrences Node.isNamed nodes = Token.opened .brace (AfterGroup Callable) tokens
  anonymous : Node.occurrences Node.isAnonymous nodes =
    Token.opened .brace (AfterGroup Standalone) tokens
  blocks : Node.occurrences (fun n => n.kind == .block) nodes =
    Token.opened .brace
      (fun before => ¬ AfterGroup Callable before ∧ ¬ AfterGroup Standalone before) tokens

/-- What a bracket means is decided by its neighbours: over all trees and their parts each form
occurs as often as the neighbours of the brackets say. -/
theorem parseWith_tallied {settings : Settings} {tokens : List Token} {nodes : List Node}
    (h : parseWith settings tokens = .ok nodes) (hg : ∀ t ∈ tokens, t.grouping = false) :
    Tallied nodes tokens := by
  have hroles : ∀ r : Role, Node.occurrences (Node.plays r) nodes =
      Token.opened r.bracket r.Fits tokens := by
    intro r
    rw [← Node.count_rolesOf, parseWith_roles h hg, Token.count_roles_eq_opened]
  refine ⟨?_, ?_, hroles .index, hroles .set, hroles .named, hroles .anonymous, hroles .block⟩
  · rw [← Node.occurrences_or fun n hn => ?_]
    · exact hroles .call
    · cases n <;> first | rfl | cases hn
  · rw [← Node.occurrences_or fun n hn => ?_]
    · exact hroles .group
    · cases n <;> first | rfl | cases hn

/-- The tokens of f(x){[y]}, (z[i]){}. -/
def functionTokens : List Token :=
  .plain .word "f" :: (Bracket.parenthesis.enclose [.plain .word "x"] ++
    Bracket.brace.enclose (Bracket.square.enclose [.plain .word "y"]) ++
    .plain .delimiter "," :: (Bracket.parenthesis.enclose
      (.plain .word "z" :: Bracket.square.enclose [.plain .word "i"]) ++ Bracket.brace.enclose []))

def functionNodes : List Node :=
  [.function (some "f") [.identifier "x"] [.set [.identifier "y"]],
    .function none [.index (.identifier "z") [.identifier "i"]] []]

theorem parseWith_tallied_function :
    parseWith .standard functionTokens = .ok functionNodes ∧
      (∀ t ∈ functionTokens, t.grouping = false) ∧ Tallied functionNodes functionTokens := by
  have h : parseWith .standard functionTokens = .ok functionNodes := rfl
  have hg : ∀ t ∈ functionTokens, t.grouping = false := by decide
  exact ⟨h, hg, parseWith_tallied h hg⟩

end TokenForest
