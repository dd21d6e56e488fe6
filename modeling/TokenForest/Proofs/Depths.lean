import TokenForest.Node.Outline
import TokenForest.Proofs.Failures
import TokenForest.Proofs.Image
import TokenForest.Proofs.Reading

/-!
Depths on rows. The depth that an entry carries is that of its tree, and the limit allows it: every
construct keeps this, whether it is read or fails, and so does folding. No tree is walked for it.
-/

set_option autoImplicit false

namespace TokenForest

/-- The depth that is counted for an entry is the depth of its tree, and the limit allows it. -/
structure Entry.Measured (limit : Nat) (e : Entry) : Prop where
  exact : e.depth = e.node.depth
  bounded : e.depth ≤ limit

def Row.Measured (limit : Nat) (row : Row) : Prop := ∀ e ∈ row, e.Measured limit

variable {limit : Nat} {row row' below : Row} {e : Entry} {content : List Entry}

theorem Row.measured_nil : Row.Measured limit [] := by simp [Measured]

theorem Row.measured_cons : Row.Measured limit (e :: row) ↔ e.Measured limit ∧ row.Measured limit :=
  List.forall_mem_cons

theorem Row.Measured.subset (h : row.Measured limit) (hs : row' ⊆ row) : row'.Measured limit :=
  fun e he => h e (hs he)

theorem Row.Measured.deepest_eq (h : Row.Measured limit content) :
    Entry.deepest content = Node.deepest (content.map Entry.node) :=
  Entry.deepest_eq fun e he => (h e he).exact

theorem Entry.Measured.normal (h : e.Measured limit) : e.normal.Measured limit := by
  unfold Entry.normal
  split
  · exact h
  · rename_i ho
    have hm : e.node.isMarker = true := by
      simpa [Entry.isOperand, Node.isOperand] using ho
    obtain ⟨op, hop⟩ := Node.isMarker_iff.1 hm
    exact ⟨by simp [hop, Node.depth], Nat.zero_le _⟩

theorem Expression.Ordered.depth_eq {x : Expression} (h : x.Ordered)
    (hm : ∀ e ∈ x.flatten, e.depth = e.node.depth) : x.depth = x.node.depth := by
  induction x with
  | leaf e =>
    have he : e.normal = e := Entry.normal_of_isOperand h
    exact hm e (by simp [flatten, he])
  | join op left right ihl ihr =>
    have hl := ihl h.1 fun e he => hm e (by simp [flatten, he])
    have hr := ihr h.2.1 fun e he => hm e (by simp [flatten, he])
    simp only [Expression.depth, node, Node.depth, hl, hr]

theorem Row.Measured.folded {entries : List Entry} (h : Row.Measured limit entries)
    (hf : foldMarkers limit entries = .ok content) : Row.Measured limit content := by
  obtain ⟨forest, hforest, rfl, hd⟩ := Expression.exists_forest hf
  intro e he
  obtain ⟨x, hx, rfl⟩ := List.mem_map.1 he
  refine ⟨(hforest.ordered x hx).depth_eq fun y hy => ?_, ?_⟩
  · have hy' : y ∈ entries.map Entry.normal := by
      rw [← hforest.reads]
      exact List.mem_flatMap.2 ⟨x, hx, hy⟩
    obtain ⟨z, hz, rfl⟩ := List.mem_map.1 hy'
    exact (h z hz).normal.exact
  · cases hd x hx with
    | inl hmem => exact (h x.entry hmem).bounded
    | inr hle => exact hle

theorem Bracket.Attaches.depth_eq {token : Token} {b : Bracket}
    (h : Attaches token content b row e below) (hc : Row.Measured limit content)
    (hr : row.Measured limit) : e.depth = e.node.depth := by
  have hdeep := hc.deepest_eq
  cases h with
  | @call f below hg ho hk =>
    have hf := (Row.measured_cons.1 hr).1.exact
    simp [Node.depth, hf, hdeep]
  | @index target below ho =>
    have ht := (Row.measured_cons.1 hr).1.exact
    simp [Node.depth, ht, hdeep]
  | @named name parameters depth below =>
    have hcall : depth = (Node.call (.identifier name) parameters).depth :=
      (Row.measured_cons.1 hr).1.exact
    simp [Node.depth, hcall, hdeep]
  | @anonymous parameters depth below =>
    have hgroup : depth = (Node.group parameters).depth := (Row.measured_cons.1 hr).1.exact
    simp [Node.depth, hgroup, hdeep]
  | group | set | block => simp [Node.depth, hdeep]

theorem Bracket.Attaches.below_subset {token : Token} {b : Bracket}
    (h : Attaches token content b row e below) : below ⊆ row := by
  cases h with
  | call | index | named | anonymous => exact List.subset_cons_self _ _
  | group | set | block => exact List.Subset.refl _

theorem Bracket.subset_of_attach_error {token : Token} {b : Bracket} {f : Fault}
    (h : b.attach token content row = (.error f, below)) : below ⊆ row := by
  obtain ⟨-, -, e, rfl, -⟩ := attach_eq_error h
  exact List.subset_cons_self _ _

/-- A scan that keeps rows measured, whether it succeeds or fails. -/
structure Scan.Measures (limit : Nat) (scan : Scan) : Prop where
  shrinks : scan.Shrinks
  step : ∀ (t : Token) (ts : List Token) ⦃row : Row⦄,
    row.Measured limit → (scan t ts row).row.Measured limit

namespace Scan

variable {scan : Scan} {stream rest : List Token}

theorem Measures.runs (h : scan.Measures limit) (hrun : scan.Runs stream row rest row')
    (hr : row.Measured limit) : row'.Measured limit := by
  induction hrun with
  | refl => exact hr
  | @step t ts mid rest row row₁ row' ht _ ih =>
    have hstep := h.step t ts hr
    rw [ht] at hstep
    exact ih hstep

theorem Measures.one (h : scan.Measures limit) (hr : row.Measured limit) :
    (scan.one stream row).row.Measured limit := by
  cases stream with
  | nil => exact hr
  | cons t ts => exact h.step t ts hr

theorem Measures.level (h : scan.Measures limit)
    (hl : (scan.level limit stream).outcome = .ok content) : Row.Measured limit content := by
  obtain ⟨rest, hl⟩ : ∃ rest, scan.level limit stream = ⟨.ok content, rest⟩ :=
    ⟨(scan.level limit stream).rest, by rw [← hl]⟩
  obtain ⟨-, row, hrun, hf⟩ := (level_eq_ok_iff h.shrinks).1 hl
  have hrow := h.runs hrun Row.measured_nil
  exact Row.Measured.folded (hrow.subset (List.reverse_subset.2 (List.Subset.refl _))) hf

end Scan

namespace Context

variable {ctx : Context} {token : Token} {stream rest : List Token} {f : Fault}

theorem Reads.measured
    (hb : ∀ scan, ctx.below = some scan → scan.Measures ctx.settings.maxDepth)
    (h : ctx.Reads token stream row rest row') (hr : row.Measured ctx.settings.maxDepth) :
    row'.Measured ctx.settings.maxDepth := by
  cases h with
  | delimiter => exact hr
  | @atom n hn =>
    have hd : 0 = n.depth := by rw [n.depth_eq, if_pos (Token.shape_of_atom? hn).1]
    exact Row.measured_cons.2 ⟨⟨hd, Nat.zero_le _⟩, hr⟩
  | @enclosed b close scan content e below hk hc hbs hl ha hd =>
    have hat := Bracket.attaches_of_attach ha
    have hcontent := (hb scan hbs).level hl
    exact Row.measured_cons.2 ⟨⟨hat.depth_eq hcontent hr, hd⟩, hr.subset hat.below_subset⟩
  | @dot left right below found scan rest hk hrow hlo hbs ho hro hd =>
    subst hrow
    obtain ⟨hleft, hbelow⟩ := Row.measured_cons.1 hr
    have hfound : Row.Measured ctx.settings.maxDepth (right :: found) := by
      have h : (scan.one (secondPeriod stream).2 []).row.Measured ctx.settings.maxDepth :=
        (hb scan hbs).one Row.measured_nil
      rwa [ho] at h
    have hright := (Row.measured_cons.1 hfound).1
    refine Row.measured_cons.2 ⟨⟨?_, hd⟩, hbelow⟩
    cases (secondPeriod stream).1 <;> simp [Scan.dotted, Node.depth, hleft.exact, hright.exact]
  | @semicolon e below hk hrow heo hd =>
    subst hrow
    obtain ⟨he, hbelow⟩ := Row.measured_cons.1 hr
    exact Row.measured_cons.2 ⟨⟨by simp [Node.depth, Node.deepest, he.exact], hd⟩, hbelow⟩
  | @choice condition below scan op left right depth rest hk hrow hco hbs hl hs hd =>
    subst hrow
    obtain ⟨hcondition, hbelow⟩ := Row.measured_cons.1 hr
    have hcontent := (hb scan hbs).level (congrArg Reading.outcome hl)
    have hcolon : depth = (Node.binary op left right).depth :=
      (Row.measured_cons.1 hcontent).1.exact
    refine Row.measured_cons.2 ⟨⟨?_, hd⟩, hbelow⟩
    simp only [Node.depth, hcolon, hcondition.exact]
    omega

theorem Fails.row_subset (h : ctx.Fails token stream row f rest row') : row' ⊆ row := by
  cases h with
  | unattached hk hc hb hl ha => exact Bracket.subset_of_attach_error ha
  | tallEnclosed hk hc hb hl ha hd => exact (Bracket.attaches_of_attach ha).below_subset
  | bottomDot hk hr | right hk hr | noRight hk hr | tallDot hk hr | tallStatement hk hr
  | bottomChoice hk hr | branches hk hr | noColon hk hr | tallChoice hk hr =>
    rw [hr]
    exact List.subset_cons_self _ _
  | unknown | number | operator | bare | bareDot | unclosed | bottomEnclosed | inside =>
    exact List.Subset.refl _

theorem measures_scan
    (hb : ∀ scan, ctx.below = some scan → scan.Measures ctx.settings.maxDepth ∧ scan.Regular) :
    ctx.scan.Measures ctx.settings.maxDepth where
  shrinks := (regular_scan fun scan hs => (hb scan hs).2).shrinks
  step := by
    intro t ts row hr
    cases hs : ctx.scan t ts row with
    | mk outcome rest row' =>
      cases outcome with
      | ok u => exact (reads_of_scan hs).measured (fun scan hs => (hb scan hs).1) hr
      | error f => exact hr.subset (fails_of_scan hs).row_subset

end Context

theorem measures_scanWithin (settings : Settings) (room : Nat) :
    (scanWithin settings room).Measures settings.maxDepth := by
  have h := scanWithin_induction settings
    (P := fun scan => scan.Measures settings.maxDepth ∧ scan.Regular)
    (fun below hb => ⟨@Context.measures_scan ⟨settings, below⟩ hb,
      Context.regular_scan fun scan hs => (hb scan hs).2⟩) room
  exact h.1

theorem Reader.measures_scan (r : Reader) : r.scan.Measures r.settings.maxDepth := by
  rw [Reader.scan_eq]
  exact measures_scanWithin r.settings r.room

/-- Depths are accounted for on every level: whatever stream a reader is given, each entry on its
row counts the depth of its own tree, and none is beyond the limit. This holds before and after
every construct, also one that fails, and of the list that the level ends with. So no tree that is
read is deeper than the limit anywhere. -/
theorem measured_reading (r : Reader) (stream : List Token) :
    (∀ rest row, r.scan.Runs stream [] rest row →
      row.Measured r.settings.maxDepth ∧ (r.one rest row).row.Measured r.settings.maxDepth) ∧
    (∀ content, (r.stream stream).outcome = .ok content →
      Row.Measured r.settings.maxDepth content) ∧
    (∀ content, r.list stream = .ok content → Row.Measured r.settings.maxDepth content) ∧
    ∀ nodes, parseWith r.settings stream = .ok nodes →
      ∀ n ∈ nodes, ∀ s ∈ n.subtrees, s.depth ≤ r.settings.maxDepth := by
  have hm := r.measures_scan
  refine ⟨fun rest row hrun => ?_, fun content h => hm.level h, fun content h => hm.level h,
    fun nodes h n hn => ?_⟩
  · have hrow := hm.runs hrun Row.measured_nil
    exact ⟨hrow, hm.one hrow⟩
  · obtain ⟨content, hl, rfl⟩ := parseWith_eq_ok_iff.1 h
    have hcontent := (measures_scanWithin r.settings _).level (congrArg Reading.outcome hl)
    obtain ⟨e, he, rfl⟩ := List.mem_map.1 hn
    have hd : e.node.depth ≤ r.settings.maxDepth := (hcontent e he).exact ▸ (hcontent e he).bounded
    refine Node.forall_mem_subtrees (fun m hle c hc => ?_) hd
    exact Nat.le_trans (Nat.le_of_lt (Node.depth_lt_of_mem_children hc)) hle

theorem measured_reading_choice :
    parseWith .standard choiceTokens = .ok choiceNodes ∧
      ∀ n ∈ choiceNodes, ∀ s ∈ n.subtrees, s.depth ≤ 256 := by
  have h : parseWith .standard choiceTokens = .ok choiceNodes := rfl
  exact ⟨h, (measured_reading (.top .standard) choiceTokens).2.2.2 choiceNodes h⟩

end TokenForest
