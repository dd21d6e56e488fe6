import TokenForest.Proofs.Interpretation
import TokenForest.Proofs.Sites
import TokenForest.Proofs.Spacing

/-!
Brackets after a delimiter, in lists that may bring marks of their own. Every opening bracket of the
tokens has one role in the trees, in the order of the tokens. A parenthesis right after a delimiter
has that of a group; a square bracket does not see the delimiter.
-/

set_option autoImplicit false

namespace TokenForest

def Token.opens? (t : Token) : Option Bracket :=
  match t.kind with
  | .opening b => some b
  | _ => none

def Token.openings (ts : List Token) : List Bracket := ts.filterMap opens?

/-- What the tokens before an opening bracket say of its role, whatever marks there are. -/
structure Role.Agrees (r : Role) (before : List Token) (t : Token) : Prop where
  kind : t.kind = .opening r.bracket
  grouped : t.kind = .opening .parenthesis → Token.delimited before = true → r = .group
  indexed : t.kind = .opening .square → (r = .index ↔ OperandBefore before)

/-- The opening brackets of the second list have the roles, one each and in this order, where the
first list stands before it. -/
inductive Casting : List Token → List Token → List Role → Prop where
  | nil {before : List Token} : Casting before [] []
  | opening {before ts : List Token} {t : Token} {r : Role} {roles : List Role} :
      r.Agrees before t → Casting (before ++ [t]) ts roles → Casting before (t :: ts) (r :: roles)
  | other {before ts : List Token} {t : Token} {roles : List Role} : t.opens? = none →
      Casting (before ++ [t]) ts roles → Casting before (t :: ts) roles

def Topped (before : List Token) (row : Row) : Prop :=
  OperandBefore before ↔ ∃ e ∈ row.head?, e.isOperand = true

section Laws

variable {t q d opener closer token : Token} {b : Bracket} {r : Role} {roles roles' : List Role}
  {before pre front inside ts us after unit dots : List Token} {row below : Row} {e : Entry}
  {content : List Entry}

theorem Token.opens?_eq_some_iff : t.opens? = some b ↔ t.kind = .opening b := by
  unfold opens?
  split <;> simp_all

theorem Role.Agrees.behind (h : r.Agrees front t) (hq : q.endsOperand = false)
    (hd : q.kind ≠ .delimiter) : r.Agrees (pre ++ q :: front) t where
  kind := h.kind
  grouped hk hdelimited := by
    refine h.grouped hk ?_
    cases front with
    | nil =>
      rw [Token.delimited_concat hd] at hdelimited
      cases hdelimited
    | cons s front =>
      rwa [List.append_cons, Token.delimited_append (List.cons_ne_nil s front)] at hdelimited
  indexed hk := by
    rw [h.indexed hk]
    simp only [OperandBefore, Token.solid_append, Token.solid_cons hd, List.getLast?_append,
      List.getLast?_cons]
    cases (Token.solid front).getLast? <;> simp [hq]

namespace Casting

theorem append (h : Casting before ts roles) (h' : Casting (before ++ ts) us roles') :
    Casting before (ts ++ us) (roles ++ roles') := by
  induction h with
  | nil => simpa using h'
  | opening ha _ ih => exact .opening ha (ih (by simpa using h'))
  | other ht _ ih => exact .other ht (ih (by simpa using h'))

theorem single (h : t.opens? = none) : Casting before [t] [] := .other h .nil

theorem behind (h : Casting front ts roles) (hq : q.endsOperand = false)
    (hd : q.kind ≠ .delimiter) : Casting (pre ++ q :: front) ts roles := by
  induction h with
  | nil => exact .nil
  | opening ha _ ih => exact .opening (ha.behind hq hd) (by simpa using ih)
  | other ht _ ih => exact .other ht (by simpa using ih)

theorem enclosed (ho : opener.kind = .opening b) (hc : closer.kind = .closing b)
    (hr : r.Agrees before opener) (hi : Casting [] inside roles) :
    Casting before (opener :: (inside ++ [closer])) (r :: roles) := by
  have hin : Casting (before ++ [opener]) inside roles :=
    hi.behind (by simp [Token.endsOperand, ho]) (by simp [ho])
  have hlast := hin.append (.single (t := closer) (by simp [Token.opens?, hc]))
  rw [List.append_nil] at hlast
  exact .opening hr hlast

theorem of_dots (hd : Dots before dots) : Casting before dots [] := by
  cases hd with
  | none => exact .nil
  | one hk => exact .single (by simp [Token.opens?, hk])
  | two hk hq =>
    exact .other (by simp [Token.opens?, hk]) (.single (by simp [Token.opens?, hq]))

theorem dotted (hd : Dots before dots) (hne : dots ≠ []) (h : Casting [] unit roles) :
    Casting before (dots ++ unit) roles := by
  obtain ⟨pre, p, hlast, hp⟩ := hd.exists_last hne
  refine (of_dots hd).append ?_
  rw [hlast]
  exact h.behind (by simp [Token.endsOperand, hp]) (by simp [hp])

theorem map_bracket (h : Casting before ts roles) :
    roles.map Role.bracket = Token.openings ts := by
  induction h with
  | nil => rfl
  | opening ha _ ih =>
    rw [List.map_cons, ih]
    exact (List.filterMap_cons_some (Token.opens?_eq_some_iff.2 ha.kind)).symm
  | other ht _ ih =>
    rw [ih]
    exact (List.filterMap_cons_none ht).symm

theorem of_append (h : Casting before (ts ++ us) roles) :
    ∃ first later, roles = first ++ later ∧ Casting before ts first ∧
      Casting (before ++ ts) us later := by
  induction ts generalizing before roles with
  | nil => exact ⟨[], roles, rfl, .nil, by simpa using h⟩
  | cons t ts ih =>
    cases h with
    | opening ha h =>
      obtain ⟨first, later, rfl, hfirst, hlater⟩ := ih h
      exact ⟨_ :: first, later, rfl, .opening ha hfirst, by simpa using hlater⟩
    | other ht h =>
      obtain ⟨first, later, rfl, hfirst, hlater⟩ := ih h
      exact ⟨first, later, rfl, .other ht hfirst, by simpa using hlater⟩

theorem exists_role (h : Casting pre (before ++ t :: after) roles) (ht : t.kind = .opening b) :
    ∃ r, roles[(Token.openings before).length]? = some r ∧ r.Agrees (pre ++ before) t := by
  obtain ⟨first, later, rfl, hfirst, hlater⟩ := h.of_append
  have hlen : first.length = (Token.openings before).length := by
    rw [← hfirst.map_bracket, List.length_map]
  cases hlater with
  | other hnone =>
    rw [Token.opens?_eq_some_iff.2 ht] at hnone
    cases hnone
  | opening ha => exact ⟨_, by rw [← hlen]; simp, ha⟩

end Casting

namespace Topped

theorem start : Topped [] [] := by simp [Topped, OperandBefore, Token.solid]

theorem delimiter (h : Topped before row) (hk : t.kind = .delimiter) :
    Topped (before ++ [t]) row := by
  rwa [Topped, operandBefore_concat_delimiter hk]

theorem push (hk : t.kind ≠ .delimiter) (he : t.endsOperand = e.isOperand) :
    Topped (before ++ [t]) (e :: below) := by
  simp [Topped, operandBefore_concat hk, he]

theorem push_operand (ht : t.endsOperand = true) (he : e.isOperand = true) :
    Topped (before ++ [t]) (e :: below) :=
  push (Token.kind_ne_delimiter_of_endsOperand ht) (ht.trans he.symm)

end Topped

theorem Operand.exists_last (h : Operand unit) :
    ∃ front t, unit = front ++ [t] ∧ t.endsOperand = true := by
  cases h with
  | leaf hl => exact ⟨[], _, rfl, hl.endsOperand⟩
  | @enclosed b opener closer inside ho hc hi =>
    exact ⟨opener :: inside, closer, rfl, Token.endsOperand_closing hc⟩

/-- A parenthesis with the mark of a delimiter takes nothing over, and a square bracket takes over
the operand that was read last, if one was. -/
theorem Bracket.Attaches.agrees (h : Attaches token content b row e below)
    (ho : opener.kind = .opening b)
    (hg : b = .parenthesis → Token.delimited before = true → token.grouping = true)
    (ht : Topped before row) :
    ∃ r, e.node.ownRoles.getLast? = some r ∧ r.Agrees before opener := by
  cases h with
  | call hf =>
    refine ⟨.call, rfl, ho, fun _ hd => ?_, fun hk => by simp [ho] at hk⟩
    rw [hg rfl hd] at hf
    cases hf
  | group => exact ⟨.group, rfl, ho, fun _ _ => rfl, fun hk => by simp [ho] at hk⟩
  | index hto =>
    refine ⟨.index, rfl, ho, fun hk => by simp [ho] at hk, fun _ => iff_of_true rfl ?_⟩
    exact ht.2 ⟨_, rfl, hto⟩
  | set hno =>
    refine ⟨.set, rfl, ho, fun hk => by simp [ho] at hk, fun _ => iff_of_false (by simp) ?_⟩
    intro hb
    obtain ⟨f, hf, hfo⟩ := ht.1 hb
    simp [hno f hf] at hfo
  | named => exact ⟨.named, rfl, ho, fun hk => by simp [ho] at hk, fun hk => by simp [ho] at hk⟩
  | anonymous =>
    exact ⟨.anonymous, rfl, ho, fun hk => by simp [ho] at hk, fun hk => by simp [ho] at hk⟩
  | block => exact ⟨.block, rfl, ho, fun hk => by simp [ho] at hk, fun hk => by simp [ho] at hk⟩

theorem Bracket.Attaches.casting (h : Attaches token content b row e below)
    (ho : opener.kind = .opening b) (hc : closer.kind = .closing b)
    (hg : b = .parenthesis → Token.delimited before = true → token.grouping = true)
    (ht : Topped before row) (hi : Casting [] inside (Node.rolesOf (content.map Entry.node))) :
    ∃ roles, Node.rolesOf (Row.nodes (e :: below)) = Node.rolesOf row.nodes ++ roles ∧
      Casting before (opener :: (inside ++ [closer])) roles := by
  obtain ⟨r, hr, ha⟩ := h.agrees ho hg ht
  refine ⟨r :: Node.rolesOf (content.map Entry.node), ?_, .enclosed ho hc ha hi⟩
  rw [h.rolesOf_eq, hr]
  rfl

end Laws

/-- What a construct puts on the row has roles for the brackets that it has read. -/
def Assigned (before ts : List Token) (row : Row) (rest : List Token) (row' : Row) : Prop :=
  ∃ read left roles, ts = read ++ left ∧
    rest = Token.after (Token.delimited (before ++ read)) left ∧
    Node.rolesOf row'.nodes = Node.rolesOf row.nodes ++ roles ∧ Casting before read roles ∧
    (left ≠ [] → Topped (before ++ read) row')

structure Scan.Assigns (scan : Scan) : Prop where
  nests : scan.Nests
  step : ∀ ⦃before : List Token⦄ ⦃t : Token⦄ ⦃ts rest : List Token⦄ ⦃row row' : Row⦄,
    scan (t.mark (Token.delimited before)) ts row = ⟨.ok (), rest, row'⟩ → Topped before row →
      Assigned before (t :: ts) row rest row'
  one : ∀ ⦃t : Token⦄ ⦃ts rest : List Token⦄ ⦃e : Entry⦄,
    scan t ts [] = ⟨.ok (), rest, [e]⟩ → e.isOperand = true →
      ∃ unit, Operand unit ∧ t :: ts = unit ++ rest ∧ Casting [] unit e.node.roles

namespace Scan.Assigns

variable {scan : Scan} {before ts stream rest : List Token} {row row' : Row} {limit close : Nat}
  {content : List Entry} {b : Bracket}

theorem runs (h : scan.Assigns) (hrun : Runs scan stream row rest row')
    (hstream : stream = Token.after (Token.delimited before) ts)
    (hr : ts ≠ [] → Topped before row) (hrest : rest = []) :
    ∃ roles, Node.rolesOf row'.nodes = Node.rolesOf row.nodes ++ roles ∧
      Casting before ts roles := by
  induction hrun generalizing before ts with
  | refl stream row =>
    subst hrest
    obtain rfl := Token.eq_nil_of_after hstream.symm
    exact ⟨[], by simp, .nil⟩
  | step ht _ ih =>
    obtain ⟨t, rfl, rfl⟩ := Token.exists_of_after_eq_cons hstream.symm
    obtain ⟨read, left, roles, hsplit, hmid, hroles, hcast, hr'⟩ := h.step ht (hr (by simp))
    obtain ⟨later, hlater, hcast'⟩ := ih hmid hr' hrest
    refine ⟨roles ++ later, ?_, ?_⟩
    · rw [hlater, hroles, List.append_assoc]
    · rw [hsplit]
      exact hcast.append hcast'

theorem level (h : scan.Assigns) (hl : (scan.level limit ts).outcome = .ok content) :
    Casting [] ts (Node.rolesOf (content.map Entry.node)) := by
  have hlevel := h.nests.regular.level_of_outcome hl
  obtain ⟨-, row, hrun, hf⟩ := (level_eq_ok_iff h.nests.regular.shrinks).1 hlevel
  have hstart : ts = Token.after (Token.delimited []) ts := rfl
  obtain ⟨roles, hroles, hcast⟩ := h.runs hrun hstart (fun _ => .start) rfl
  have hall : Node.rolesOf (row.reverse.map Entry.node) = roles := by
    simpa [Row.nodes, Node.rolesOf] using hroles
  rw [Node.rolesOf_foldMarkers hf, hall]
  exact hcast

theorem interior (h : scan.Assigns) (hc : b.closeFrom 0 ts = some close)
    (hl : (scan.level limit (ts.take close)).outcome = .ok content) :
    ∃ closer, closer.kind = .closing b ∧ ts = ts.take close ++ closer :: ts.drop (close + 1) ∧
      Balanced (ts.take close) ∧
      Casting [] (ts.take close) (Node.rolesOf (content.map Entry.node)) := by
  obtain ⟨closer, hk, hsplit⟩ := Bracket.closeFrom_split hc
  exact ⟨closer, hk, hsplit, h.nests.level hl, h.level hl⟩

end Scan.Assigns

namespace Context.Reads

variable {ctx : Context} {before ts rest : List Token} {t : Token} {row row' : Row} {e : Entry}

theorem assigned (hb : ∀ scan, ctx.below = some scan → scan.Assigns)
    (h : ctx.Reads (t.mark (Token.delimited before)) ts row rest row') (hr : Topped before row) :
    Assigned before (t :: ts) row rest row' := by
  cases h with
  | delimiter hk =>
    rw [Token.mark_kind] at hk
    refine ⟨[t], ts, [], rfl, ?_, by simp, .single (by simp [Token.opens?, hk]),
      fun _ => hr.delimiter hk⟩
    rw [Token.delimited_concat_delimiter hk]
    rfl
  | @atom n hn =>
    have hn := Token.mark_atom? hn
    obtain ⟨hleaf, -, hplain, -⟩ := Token.shape_of_atom? hn
    have hd : t.kind ≠ .delimiter := by
      intro hk
      simp [Token.atom?, hk] at hn
    have hopening : t.opens? = none := by
      rw [Option.eq_none_iff_forall_ne_some]
      intro b ho
      simp [Token.isBracket, Token.opens?_eq_some_iff.1 ho] at hplain
    refine ⟨[t], ts, [], rfl, ?_, ?_, .single hopening, fun _ => .push hd ?_⟩
    · rw [Token.delimited_concat hd]
      rfl
    · simp [Node.rolesOf_append, Node.rolesOf, Node.roles_of_isLeaf hleaf]
    · rcases Token.atom?_cases hn with ⟨hk, -, ho⟩ | hl
      · simp [Entry.isOperand, ho, Token.endsOperand, hk]
      · exact hl.endsOperand.trans (hl.node_of_atom? hn).1.symm
  | @enclosed b close scan content e below hk hc hbs hl ha hd =>
    rw [Token.mark_kind] at hk
    obtain ⟨closer, hck, hsplit, hbal, hin⟩ := (hb scan hbs).interior hc hl
    have ha := Bracket.attaches_of_attach ha
    have hmarked : b = .parenthesis → Token.delimited before = true →
        (t.mark (Token.delimited before)).grouping = true := by
      rintro rfl hdelimited
      simp [Token.mark, Token.grouped, hdelimited, hk]
    obtain ⟨roles, hroles, hcast⟩ := ha.casting hk hck hmarked hr hin
    refine ⟨t :: (ts.take close ++ [closer]), ts.drop (close + 1), roles, by simpa using hsplit,
      ?_, hroles, hcast, fun _ => ?_⟩
    · rw [(Operand.enclosed hk hck hbal).delimited]
      rfl
    · rw [concat_closer]
      exact .push_operand (Token.endsOperand_closing hck) ha.isOperand
  | @dot left right below found scan rest hk hrow hlo hbs ho hro hd =>
    subst hrow
    rw [Token.mark_kind] at hk
    obtain ⟨dots, hdots, hne, hsplit⟩ := secondPeriod_dots hk (hr.2 ⟨left, rfl, hlo⟩) ts
    obtain ⟨u, us, hus, -, hone⟩ := (hb scan hbs).nests.regular.one_eq_ok ho
    rw [hus] at hsplit
    obtain ⟨unit, hunit, hread, hcast⟩ := (hb scan hbs).one hone hro
    refine ⟨dots ++ unit, rest, right.node.roles, by rw [hsplit, hread, List.append_assoc], ?_, ?_,
      .dotted hdots hne hcast, fun _ => ?_⟩
    · rw [← List.append_assoc, hunit.delimited]
      rfl
    · cases (secondPeriod ts).1 <;>
        simp [Scan.dotted, Node.rolesOf_append, Node.rolesOf, Node.roles]
    · obtain ⟨front, last, rfl, hlast⟩ := hunit.exists_last
      rw [← List.append_assoc, ← List.append_assoc]
      exact .push_operand hlast (by cases (secondPeriod ts).1 <;> rfl)
  | @semicolon e below hk hrow ho hd =>
    subst hrow
    rw [Token.mark_kind] at hk
    refine ⟨[t], ts, [], rfl, ?_, ?_, .single (by simp [Token.opens?, hk]), fun _ => ?_⟩
    · rw [Token.delimited_concat (by simp [hk])]
      rfl
    · simp [Node.rolesOf_append, Node.rolesOf, Node.roles]
    · exact .push_operand (by simp [Token.endsOperand, hk]) rfl
  | @choice condition below scan op left right depth rest hk hrow ho hbs hl hs hd =>
    subst hrow
    rw [Token.mark_kind] at hk
    -- The branches are read on a level of their own, to which the question mark is the beginning.
    obtain ⟨rfl, -⟩ := (Scan.level_eq_ok_iff (hb scan hbs).nests.regular.shrinks).1 hl
    have hcast := (hb scan hbs).level (congrArg Reading.outcome hl)
    have hbranches : Casting before (t :: ts) (left.roles ++ right.roles) := by
      refine .other (by simp [Token.opens?, hk]) ?_
      have hbehind : Casting (before ++ [t]) ts _ :=
        hcast.behind (by simp [Token.endsOperand, hk]) (by simp [hk])
      simpa [Node.rolesOf, Node.roles] using hbehind
    refine ⟨t :: ts, [], _, by simp, ?_, ?_, hbranches, fun hne => absurd rfl hne⟩
    · cases Token.delimited (before ++ t :: ts) <;> rfl
    · simp [Node.rolesOf_append, Node.rolesOf, Node.roles]

theorem exists_casting (hb : ∀ scan, ctx.below = some scan → scan.Assigns)
    (h : ctx.Reads t ts [] rest [e]) (he : e.isOperand = true) :
    ∃ unit, Operand unit ∧ t :: ts = unit ++ rest ∧ Casting [] unit e.node.roles := by
  cases h with
  | @atom n hn =>
    rcases Token.atom?_cases hn with ⟨-, -, ho⟩ | hl
    · exact absurd (he.symm.trans ho) (by simp)
    · refine ⟨[t], .leaf hl, rfl, ?_⟩
      have hnone : n.roles = [] := Node.roles_of_isLeaf (Token.shape_of_atom? hn).1
      rw [hnone]
      exact .single (by rcases hl.kind with hk | hk | hk | hk <;> simp [Token.opens?, hk])
  | @enclosed b close scan content e below hk hc hbs hl ha hd =>
    obtain ⟨closer, hck, hsplit, hbal, hin⟩ := (hb scan hbs).interior hc hl
    have hunmarked : b = .parenthesis → Token.delimited [] = true → t.grouping = true :=
      fun _ hdelimited => by cases hdelimited
    obtain ⟨roles, hroles, hcast⟩ :=
      (Bracket.attaches_of_attach ha).casting hk hck hunmarked .start hin
    refine ⟨t :: (ts.take close ++ [closer]), .enclosed hk hck hbal, by simpa using hsplit, ?_⟩
    have hall : e.node.roles = roles := by simpa [Row.nodes, Node.rolesOf] using hroles
    rwa [hall]
  | dot hk hrow => cases hrow
  | semicolon hk hrow => cases hrow
  | choice hk hrow => cases hrow

end Context.Reads

theorem assigns_scanWithin (settings : Settings) (room : Nat) :
    (scanWithin settings room).Assigns := by
  refine scanWithin_induction settings (P := Scan.Assigns) ?_ room
  intro below hb
  refine ⟨?_, fun _ _ _ _ _ _ h => (Context.reads_of_scan h).assigned hb,
    fun _ _ _ _ h => (Context.reads_of_scan h).exists_casting hb⟩
  exact Context.nests_scan fun scan hs => (hb scan hs).nests

/-- Every opening bracket of a list has one role in the trees, and they are in the same order. -/
theorem parseWith_casting {settings : Settings} {tokens : List Token} {nodes : List Node}
    (h : parseWith settings tokens = .ok nodes) : Casting [] tokens (Node.rolesOf nodes) := by
  obtain ⟨content, hl, rfl⟩ := parseWith_eq_ok_iff.1 h
  exact (assigns_scanWithin settings settings.maxDepth).level (congrArg Reading.outcome hl)

/-- The site is that of the bracket which follows the tokens. -/
def Site.Follows (nodes : List Node) (before : List Token) (s : Site) : Prop :=
  s ∈ Node.sitesOf [] nodes ∧ s.place = Token.spelling before

section Owners

variable {settings : Settings} {tokens before after : List Token} {d t : Token} {b : Bracket}
  {nodes : List Node} {s : Site}

theorem length_fronts_spelling (front : List TokenKind) (ts : List Token) :
    (fronts front (Token.spelling ts)).length = (Token.openings ts).length := by
  induction ts generalizing front with
  | nil => rfl
  | cons t ts ih =>
    by_cases hd : t.kind = .delimiter
    · rw [Token.spelling_cons_delimiter hd, ih]
      simp [Token.openings, Token.opens?, hd]
    · rw [Token.spelling_cons hd]
      cases hk : t.kind <;> simp_all [fronts, Token.openings, Token.opens?]

theorem getElem?_fronts_spelling (hk : t.kind = .opening b) :
    (fronts [] (Token.spelling (before ++ t :: after)))[(Token.openings before).length]? =
      some (Token.spelling before) := by
  have hlen := length_fronts_spelling [] before
  rw [Token.spelling_append, Token.spelling_cons (by simp [hk]), hk, fronts_append,
    List.getElem?_append_right (by omega), hlen]
  simp [fronts]

/-- An opening bracket of the tokens is a bracket of one node, and means there what the tokens
before it say. -/
theorem parseWith_exists_site (h : parseWith settings (before ++ t :: after) = .ok nodes)
    (hk : t.kind = .opening b) :
    ∃ s : Site, (∀ s' : Site, s'.Follows nodes before ↔ s' = s) ∧
      s.Stands (Token.spelling (before ++ t :: after)) (nodes.flatMap Node.subtrees) ∧
      s.role.Agrees before t := by
  have hplaces := Node.map_place_sitesOf [] nodes
  rw [parseWith_spelling h] at hplaces
  obtain ⟨r, hr, ha⟩ := (parseWith_casting h).exists_role hk
  rw [← Node.map_role_sitesOf [], List.getElem?_map] at hr
  obtain ⟨s, hs, rfl⟩ := Option.map_eq_some_iff.1 hr
  have hmem := List.mem_of_getElem? hs
  have hplace : s.place = Token.spelling before := by
    have hat : (fronts [] (Token.spelling (before ++ t :: after)))[_]? = _ :=
      getElem?_fronts_spelling hk
    rw [← hplaces, List.getElem?_map, hs] at hat
    exact Option.some.inj hat
  refine ⟨s, fun s' => ⟨fun hs' => ?_, ?_⟩, ?_, ha⟩
  · refine List.inj_on_of_nodup_map ?_ hs'.1 hmem (hs'.2.trans hplace.symm)
    rw [hplaces]
    exact nodup_fronts _ _
  · rintro rfl
    exact ⟨hmem, hplace⟩
  · have hstands := Node.stands_sitesOf [] nodes s hmem
    rwa [List.nil_append, parseWith_spelling h] at hstands

theorem Site.Stands.of_group {writing : List TokenKind} {parts : List Node}
    (h : s.Stands writing parts) (hr : s.role = .group) :
    s.place = s.front ∧
      ((∃ content, s.node = .group content) ∨ ∃ ps body, s.node = .function none ps body) := by
  obtain ⟨front, role, node⟩ := s
  obtain rfl : role = .group := hr
  have howned := h.owned
  cases node with
  | group content => exact ⟨List.append_nil _, .inl ⟨content, rfl⟩⟩
  | function name ps body =>
    cases name with
    | none => exact ⟨List.append_nil _, .inr ⟨ps, body, rfl⟩⟩
    | some name => simp [Node.ownRoles] at howned
  | _ => simp [Node.ownRoles] at howned

theorem Site.Stands.of_index {writing : List TokenKind} {parts : List Node}
    (h : s.Stands writing parts) (hr : s.role = .index) :
    ∃ target content, s.node = .index target content ∧ s.place = s.front ++ target.spelling := by
  obtain ⟨front, role, node⟩ := s
  obtain rfl : role = .index := hr
  have howned := h.owned
  cases node with
  | index target content => exact ⟨target, content, rfl, rfl⟩
  | function name ps body => cases name <;> simp [Node.ownRoles] at howned
  | _ => simp [Node.ownRoles] at howned

theorem Site.Stands.of_set {writing : List TokenKind} {parts : List Node}
    (h : s.Stands writing parts) (hr : s.role = .set) :
    ∃ content, s.node = .set content ∧ s.place = s.front := by
  obtain ⟨front, role, node⟩ := s
  obtain rfl : role = .set := hr
  have howned := h.owned
  cases node with
  | set content => exact ⟨content, rfl, List.append_nil _⟩
  | function name ps body => cases name <;> simp [Node.ownRoles] at howned
  | _ => simp [Node.ownRoles] at howned

/-- A parenthesis right after a delimiter belongs to one node, a group or a function without a
name, that begins with it and so takes nothing over. To a square bracket the delimiter is nothing:
without it the same is read, and the node is an index of what ends right before the bracket if an
operand was read last, and a set that begins with the bracket if none was. -/
theorem parseWith_after_delimiter (h : parseWith settings tokens = .ok nodes)
    (hs : tokens = before ++ d :: t :: after) (hd : d.kind = .delimiter) :
    nodes.flatMap Node.spelling = Token.spelling tokens ∧
      (t.kind = .opening .parenthesis → ∃ s : Site,
        (∀ s' : Site, s'.Follows nodes before ↔ s' = s) ∧
        s.node ∈ nodes.flatMap Node.subtrees ∧
        ((∃ content, s.node = .group content) ∨ ∃ ps body, s.node = .function none ps body) ∧
        Token.spelling before ++ s.node.spelling <+: Token.spelling tokens) ∧
      (t.kind = .opening .square → parseWith settings (before ++ t :: after) = .ok nodes ∧
        ∃ s : Site, (∀ s' : Site, s'.Follows nodes before ↔ s' = s) ∧
          s.node ∈ nodes.flatMap Node.subtrees ∧
          s.front ++ s.node.spelling <+: Token.spelling tokens ∧
          if OperandBefore before then ∃ target content, s.node = .index target content ∧
            s.front ++ target.spelling = Token.spelling before
          else ∃ content, s.node = .set content ∧ s.front = Token.spelling before) := by
  subst hs
  refine ⟨parseWith_spelling h, fun hk => ?_, fun hk => ?_⟩
  · rw [List.append_cons] at h ⊢
    obtain ⟨s, hunique, hstands, ha⟩ := parseWith_exists_site h hk
    have hrole : s.role = .group := ha.grouped hk (Token.delimited_concat_delimiter hd)
    obtain ⟨hplace, hnode⟩ := hstands.of_group hrole
    have hfront : s.front = Token.spelling before := by
      rw [← hplace, ((hunique s).2 rfl).2]
      simp [Token.spelling_cons_delimiter hd]
    have hwritten := hstands.written
    rw [hfront] at hwritten
    refine ⟨s, ?_, hstands.part, hnode, hwritten⟩
    simpa [Site.Follows, Token.spelling_cons_delimiter hd] using hunique
  · have herased : parseWith settings (before ++ t :: after) = .ok nodes :=
      parseWith_of_respaced (.erase hd fun q hq => by simp_all) h
    refine ⟨herased, ?_⟩
    obtain ⟨s, hunique, hstands, ha⟩ := parseWith_exists_site herased hk
    have hplace := ((hunique s).2 rfl).2
    have hwritten : Token.spelling (before ++ d :: t :: after) =
        Token.spelling (before ++ t :: after) := by
      simp [Token.spelling_cons_delimiter hd]
    refine ⟨s, hunique, hstands.part, hwritten ▸ hstands.written, ?_⟩
    split
    · rename_i ho
      obtain ⟨target, content, hnode, hfront⟩ := hstands.of_index ((ha.indexed hk).2 ho)
      exact ⟨target, content, hnode, hfront.symm.trans hplace⟩
    · rename_i ho
      have hbracket : Bracket.square = s.role.bracket := by simpa [hk] using ha.kind
      have hset : s.role = .set := by
        cases hr : s.role with
        | set => rfl
        | index => exact absurd ((ha.indexed hk).1 hr) ho
        | _ => simp [hr, Role.bracket] at hbracket
      obtain ⟨content, hnode, hfront⟩ := hstands.of_set hset
      exact ⟨content, hnode, hfront.symm.trans hplace⟩

end Owners

/-- The tokens of f(a,(b)),[c]. -/
def delimitedTokens : List Token :=
  [.plain .word "f", .plain (.opening .parenthesis) "(", .plain .word "a", .plain .delimiter ",",
    .plain (.opening .parenthesis) "(", .plain .word "b", .plain (.closing .parenthesis) ")",
    .plain (.closing .parenthesis) ")", .plain .delimiter ",", .plain (.opening .square) "[",
    .plain .word "c", .plain (.closing .square) "]"]

def delimitedCall : Node := .call (.identifier "f") [.identifier "a", .group [.identifier "b"]]

def delimitedNodes : List Node := [.index delimitedCall [.identifier "c"]]

/-- The second parenthesis is no call of a; the square bracket is an index of the call. -/
theorem parseWith_after_delimiter_argument :
    parseWith .standard delimitedTokens = .ok delimitedNodes ∧
      (∀ s : Site, s.Follows delimitedNodes (delimitedTokens.take 3) ↔
        s = ⟨[.word, .opening .parenthesis, .word], .group, .group [.identifier "b"]⟩) ∧
      (∀ s : Site, s.Follows delimitedNodes (delimitedTokens.take 8) ↔
        s = ⟨[], .index, .index delimitedCall [.identifier "c"]⟩) := by
  have h : parseWith .standard delimitedTokens = .ok delimitedNodes := rfl
  have hgroup := @parseWith_after_delimiter .standard delimitedTokens (delimitedTokens.take 3)
    (delimitedTokens.drop 5) (.plain .delimiter ",") (.plain (.opening .parenthesis) "(")
    delimitedNodes h rfl rfl
  have hindex := @parseWith_after_delimiter .standard delimitedTokens (delimitedTokens.take 8)
    (delimitedTokens.drop 10) (.plain .delimiter ",") (.plain (.opening .square) "[")
    delimitedNodes h rfl rfl
  refine ⟨h, ?_, ?_⟩
  · obtain ⟨s, hunique, -⟩ := hgroup.2.1 rfl
    obtain rfl := (hunique _).1 ⟨.tail _ (.head _), rfl⟩
    exact hunique
  · obtain ⟨-, s, hunique, -⟩ := hindex.2.2 rfl
    obtain rfl := (hunique _).1 ⟨.tail _ (.tail _ (.head _)), rfl⟩
    exact hunique

/-- In a,[b] the bracket is an index of a in spite of the delimiter, and no set of its own. -/
theorem square_after_delimiter_absorbs :
    parseWith .standard ([.plain .word "a"] ++ .plain .delimiter ","
        :: .plain (.opening .square) "["
        :: [.plain .word "b", .plain (.closing .square) "]"]) =
      .ok [.index (.identifier "a") [.identifier "b"]] ∧
    Site.Follows [.index (.identifier "a") [.identifier "b"]] [.plain .word "a"]
      ⟨[], .index, .index (.identifier "a") [.identifier "b"]⟩ :=
  ⟨rfl, .head _, rfl⟩

end TokenForest
