import TokenForest.Balance
import TokenForest.Proofs.Shape

set_option autoImplicit false

namespace TokenForest

variable {settings : Settings} {row row' below : Row} {e f : Entry} {content : List Entry}
  {token : Token} {stream rest : List Token}

theorem Row.open_cons (h : e.node.kind ≠ .ternary) : Row.Open (e :: below) := by
  intro x hx
  cases hx
  exact h

theorem Entry.Legible.readable (h : e.Legible settings) (ho : e.isOperand = true) :
    e.node.Readable settings.operators := by
  rcases h.shaped with ⟨op, hm, -⟩ | ⟨hr, -⟩
  · rw [Entry.not_isOperand_of_marker hm] at ho
    cases ho
  · exact hr

theorem Row.Legible.push_unit (h : row.Legible settings) (hm : e.depth = e.node.depth)
    (hd : e.depth ≤ settings.maxDepth) (hr : e.node.Readable settings.operators)
    (hk : e.node.kind.isUnit = true) (hb : ∀ f ∈ row.head?, f.Beside e) :
    Row.Legible settings (e :: row) ∧ Row.Open (e :: row) := by
  obtain ⟨hop, ht⟩ := NodeKind.isUnit_iff.1 hk
  exact ⟨h.push ⟨hm, hd, .inr ⟨hr, hop⟩⟩ hb, Row.open_cons ht⟩

theorem Row.Legible.replace_unit (h : Row.Legible settings (f :: below))
    (hm : e.depth = e.node.depth) (hd : e.depth ≤ settings.maxDepth)
    (hr : e.node.Readable settings.operators) (hk : e.node.kind.isUnit = true)
    (hl : e.node.lead = f.node.lead) :
    Row.Legible settings (e :: below) ∧ Row.Open (e :: below) := by
  obtain ⟨hop, ht⟩ := NodeKind.isUnit_iff.1 hk
  exact ⟨h.replace ⟨hm, hd, .inr ⟨hr, hop⟩⟩ hl, Row.open_cons ht⟩

theorem Bracket.Attaches.legible {b : Bracket} (h : Attaches token content b row e below)
    (hr : row.Legible settings) (hopen : row.Open) (hc : Entry.Settled settings content)
    (hd : e.depth ≤ settings.maxDepth) :
    Row.Legible settings (e :: below) ∧ Row.Open (e :: below) := by
  have hdeep := Entry.deepest_eq hc.measured
  cases h with
  | @call f below hg ho hk =>
    obtain ⟨hf, hu⟩ := hr.unit hopen ho
    have hm := (hr.each f List.mem_cons_self).measured
    refine hr.replace_unit ?_ hd (.call hf hu hk hc.readable hc.parted) rfl (by simp)
    simp [Node.depth, hm, hdeep]
  | group hg =>
    refine hr.push_unit ?_ hd (.group hc.readable hc.parted) rfl fun f hf => ?_
    · simp [Node.depth, hdeep]
    · exact Node.admits_of_lead (hopen f hf) (by simp) (by simp)
  | @index target below ho =>
    obtain ⟨hf, hu⟩ := hr.unit hopen ho
    have hm := (hr.each target List.mem_cons_self).measured
    refine hr.replace_unit ?_ hd (.index hf hu hc.readable hc.parted) rfl (by simp)
    simp [Node.depth, hm, hdeep]
  | set ho =>
    refine hr.push_unit ?_ hd (.set hc.readable hc.parted) rfl fun f hf => ?_
    · simp [Node.depth, hdeep]
    · have hno : f.node.isOperand = false := ho f hf
      exact ⟨hopen f hf, by simp [hno], by simp⟩
  | @named name parameters depth below =>
    have hcall := hr.each _ List.mem_cons_self
    have hm : depth = (Node.call (.identifier name) parameters).depth := hcall.measured
    have hread := hcall.readable rfl
    cases hread with
    | call _ _ _ hp hpp =>
      refine hr.replace_unit ?_ hd (.function hp hpp hc.readable hc.parted) rfl rfl
      simp [Node.depth, hm, hdeep]
  | @anonymous parameters depth below =>
    have hgroup := hr.each _ List.mem_cons_self
    have hm : depth = (Node.group parameters).depth := hgroup.measured
    have hread := hgroup.readable rfl
    cases hread with
    | group hp hpp =>
      refine hr.replace_unit ?_ hd (.function hp hpp hc.readable hc.parted) rfl (by simp)
      simp [Node.depth, hm, hdeep]
  | block hk =>
    refine hr.push_unit ?_ hd (.block hc.readable hc.parted) rfl fun f hf => ?_
    · simp [Node.depth, hdeep]
    · exact ⟨hopen f hf, by simp, fun _ => hk f hf⟩

/-- A scan that keeps rows legible. Where it succeeds with a choice, it has read everything. -/
structure Scan.Legible (settings : Settings) (scan : Scan) : Prop where
  regular : scan.Regular
  step : ∀ ⦃t : Token⦄ ⦃ts rest : List Token⦄ ⦃row row' : Row⦄,
    scan t ts row = ⟨.ok (), rest, row'⟩ → row.Legible settings → row.Open →
      row'.Legible settings ∧ (rest ≠ [] → row'.Open)
  primary : ∀ ⦃t : Token⦄ ⦃ts rest : List Token⦄ ⦃e : Entry⦄,
    scan t ts [] = ⟨.ok (), rest, [e]⟩ → e.isOperand = true → e.node.kind.isPrimary = true

namespace Scan

variable {scan : Scan}

theorem Legible.runs (h : scan.Legible settings) (hrun : Runs scan stream row rest row')
    (hr : row.Legible settings) (hopen : stream ≠ [] → row.Open) :
    row'.Legible settings := by
  induction hrun with
  | refl => exact hr
  | step ht _ ih =>
    obtain ⟨hr', hopen'⟩ := h.step ht hr (hopen (by simp))
    exact ih hr' hopen'

theorem legible_nil : Row.Legible settings [] := ⟨by simp, List.isChain_nil⟩

theorem open_nil : Row.Open [] := by simp [Row.Open]

theorem Legible.level (h : scan.Legible settings)
    (hl : scan.level settings.maxDepth stream = ⟨.ok content, rest⟩) :
    rest = [] ∧ Entry.Settled settings content := by
  obtain ⟨hrest, row, hrun, hf⟩ := (level_eq_ok_iff h.regular.shrinks).1 hl
  exact ⟨hrest, (h.runs hrun legible_nil fun _ => open_nil).settled hf⟩

theorem Legible.one (h : scan.Legible settings) {found : Row}
    (hs : scan.one stream [] = ⟨.ok (), rest, e :: found⟩) (ho : e.isOperand = true) :
    e.Legible settings ∧ e.node.Readable settings.operators ∧ e.node.kind.isPrimary = true := by
  obtain ⟨t, ts, rfl, rfl, hscan⟩ := h.regular.one_eq_ok hs
  have he := (h.step hscan legible_nil open_nil).1.each e List.mem_cons_self
  exact ⟨he, he.readable ho, h.primary hscan ho⟩

end Scan

/-- A token of one-token constructs becomes a leaf that begins with it: a marker of the table, or
else a primary. -/
theorem Token.shape_of_atom? {n : Node} (h : token.atom? settings.operators = some n) :
    n.isLeaf = true ∧ n.lead = some token.kind ∧ token.isBracket = false ∧
      ((∃ op, n = .marker op ∧ op.Known settings.operators) ∨
        (n.Readable settings.operators ∧ n.kind.isPrimary = true)) := by
  unfold atom? at h
  split at h
  · rename_i hk
    cases h
    exact ⟨rfl, by rw [hk]; rfl, by simp [isBracket, hk], .inr ⟨.identifier _, rfl⟩⟩
  · rename_i hk
    obtain ⟨value, hv, rfl⟩ := Option.map_eq_some_iff.1 h
    exact ⟨rfl, by rw [hk]; rfl, by simp [isBracket, hk], .inr ⟨.number _, rfl⟩⟩
  · rename_i hk
    cases h
    exact ⟨rfl, by rw [hk]; rfl, by simp [isBracket, hk], .inr ⟨.string _, rfl⟩⟩
  · rename_i hk
    cases h
    exact ⟨rfl, by rw [hk]; rfl, by simp [isBracket, hk], .inr ⟨.comment _, rfl⟩⟩
  · rename_i hk
    obtain ⟨info, hi, rfl⟩ := Option.map_eq_some_iff.1 h
    exact ⟨rfl, by rw [hk]; rfl, by simp [isBracket, hk], .inl ⟨_, rfl, hi⟩⟩
  · cases h

theorem Row.Legible.push_atom {n : Node} (h : row.Legible settings) (hopen : row.Open)
    (hn : token.atom? settings.operators = some n) :
    Row.Legible settings (⟨n, 0⟩ :: row) ∧ Row.Open (⟨n, 0⟩ :: row) := by
  obtain ⟨hleaf, hlead, hbracket, hshape⟩ := Token.shape_of_atom? hn
  have hd : 0 = n.depth := by rw [n.depth_eq, if_pos hleaf]
  have hb : ∀ f ∈ row.head?, f.Beside ⟨n, 0⟩ := by
    intro f hf
    have hk : ∀ b, n.lead ≠ some (.opening b) := by
      intro b hb
      have hkind : token.kind = .opening b := Option.some.inj (hlead.symm.trans hb)
      simp [Token.isBracket, hkind] at hbracket
    exact Node.admits_of_lead (hopen f hf) (hk .square) (hk .brace)
  cases hshape with
  | inl hm =>
    obtain ⟨op, rfl, hop⟩ := hm
    exact ⟨h.push ⟨hd, Nat.zero_le _, .inl ⟨op, rfl, hop⟩⟩ hb, Row.open_cons (by simp [Node.kind])⟩
  | inr hr =>
    exact h.push_unit hd (Nat.zero_le _) hr.1 (NodeKind.isUnit_of_isPrimary hr.2) hb

theorem Context.Reads.legible {ctx : Context}
    (hb : ∀ scan, ctx.below = some scan → scan.Legible ctx.settings)
    (h : ctx.Reads token stream row rest row') (hr : row.Legible ctx.settings)
    (hopen : row.Open) : row'.Legible ctx.settings ∧ (rest ≠ [] → row'.Open) := by
  cases h with
  | delimiter => exact ⟨hr, fun _ => hopen⟩
  | @atom n hn =>
    obtain ⟨hrow, ho⟩ := hr.push_atom hopen hn
    exact ⟨hrow, fun _ => ho⟩
  | @enclosed b close scan content e below hk hc hbs hl ha hd =>
    obtain ⟨-, hcontent⟩ := (hb scan hbs).level ((hb scan hbs).regular.level_of_outcome hl)
    obtain ⟨hrow, ho⟩ := (Bracket.attaches_of_attach ha).legible hr hopen hcontent hd
    exact ⟨hrow, fun _ => ho⟩
  | @dot left right below found scan rest hk hrow hlo hbs ho hro hd =>
    subst hrow
    obtain ⟨hright, hread, hprimary⟩ := (hb scan hbs).one ho hro
    obtain ⟨hl, hu⟩ := hr.unit hopen hlo
    have hml := (hr.each left List.mem_cons_self).measured
    have hmr := hright.measured
    cases hp : (secondPeriod stream).1 with
    | false =>
      rw [hp] at hd
      obtain ⟨hrow, ho⟩ := hr.replace_unit (e := Scan.dotted false left right)
        (by simp [Scan.dotted, Node.depth, hml, hmr]) hd (.member hl hu hread hprimary) rfl
        (by simp [Scan.dotted])
      exact ⟨hrow, fun _ => ho⟩
    | true =>
      rw [hp] at hd
      obtain ⟨hrow, ho⟩ := hr.replace_unit (e := Scan.dotted true left right)
        (by simp [Scan.dotted, Node.depth, hml, hmr]) hd (.range hl hu hread hprimary) rfl
        (by simp [Scan.dotted])
      exact ⟨hrow, fun _ => ho⟩
  | @semicolon e below hk hrow heo hd =>
    subst hrow
    obtain ⟨hread, hu⟩ := hr.unit hopen heo
    have hm := (hr.each e List.mem_cons_self).measured
    obtain ⟨hrow, ho⟩ := hr.replace_unit (e := ⟨.statement [e.node], e.depth + 1⟩)
      (by simp [Node.depth, Node.deepest, hm]) hd (.statement hread hu) rfl (by simp)
    exact ⟨hrow, fun _ => ho⟩
  | @choice condition below scan op left right depth rest hk hrow hco hbs hl hs hd =>
    subst hrow
    obtain ⟨rfl, hc⟩ := (hb scan hbs).level hl
    obtain ⟨hread, hu⟩ := hr.unit hopen hco
    have hm := (hr.each condition List.mem_cons_self).measured
    have hbranches := hc.readable (.binary op left right) (by simp)
    have hdepth : depth = _ := hc.measured ⟨.binary op left right, depth⟩ (by simp)
    have he : Entry.Legible ctx.settings
        ⟨.ternary condition.node left right, max depth (condition.depth + 1)⟩ := by
      refine ⟨?_, hd, .inr ⟨.ternary hread hu hs hbranches, by simp [Node.kind]⟩⟩
      simp only [Node.depth, hdepth, hm]
      omega
    exact ⟨hr.replace he (by simp), fun h => absurd rfl h⟩

theorem Context.Reads.isPrimary {ctx : Context} (h : ctx.Reads token stream [] rest [e])
    (ho : e.isOperand = true) : e.node.kind.isPrimary = true := by
  cases h with
  | @atom n hn =>
    obtain ⟨-, -, -, ⟨op, rfl, -⟩ | ⟨-, hprimary⟩⟩ := Token.shape_of_atom? hn
    · cases ho
    · exact hprimary
  | enclosed hk hc hbs hl ha hd => cases Bracket.attaches_of_attach ha <;> rfl
  | dot hk hrow => cases hrow
  | semicolon hk hrow => cases hrow
  | choice hk hrow => cases hrow

theorem Context.legible_scan {ctx : Context}
    (hb : ∀ scan, ctx.below = some scan → scan.Legible ctx.settings) :
    ctx.scan.Legible ctx.settings where
  regular := regular_scan fun scan hs => (hb scan hs).regular
  step _ _ _ _ _ h := (reads_of_scan h).legible hb
  primary _ _ _ _ h := (reads_of_scan h).isPrimary

theorem legible_scanWithin (settings : Settings) (room : Nat) :
    (scanWithin settings room).Legible settings :=
  scanWithin_induction settings (P := fun scan => scan.Legible settings)
    (fun below hb => @Context.legible_scan ⟨settings, below⟩ hb) room

theorem readable_parseWith {tokens : List Token} {nodes : List Node}
    (h : parseWith settings tokens = .ok nodes) :
    (∀ n ∈ nodes, n.Readable settings.operators) ∧ Node.Parted nodes ∧
      ∀ n ∈ nodes, n.depth ≤ settings.maxDepth := by
  obtain ⟨content, hl, rfl⟩ := parseWith_eq_ok_iff.1 h
  obtain ⟨-, hc⟩ := (legible_scanWithin settings _).level hl
  refine ⟨hc.readable, hc.parted, fun n hn => ?_⟩
  obtain ⟨e, he, rfl⟩ := List.mem_map.1 hn
  rw [← hc.measured e he]
  exact hc.bounded e he

end TokenForest
