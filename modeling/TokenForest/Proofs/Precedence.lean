import TokenForest.Fold.Forest
import TokenForest.Proofs.Linking

set_option autoImplicit false

namespace TokenForest

theorem Entry.normal_of_isOperand {e : Entry} (h : e.isOperand = true) : e.normal = e := if_pos h

@[simp] theorem Entry.normal_node (e : Entry) : e.normal.node = e.node := by
  unfold normal
  split <;> rfl

@[simp] theorem Entry.isOperand_normal (e : Entry) : e.normal.isOperand = e.isOperand := by
  rw [isOperand, normal_node, isOperand]

namespace Expression

theorem flatten_ne_nil (x : Expression) : x.flatten ≠ [] := by
  cases x <;> simp [flatten]

theorem exists_getLast_flatten (x : Expression) : ∃ e, x.flatten.getLast? = some e :=
  Option.ne_none_iff_exists'.1 (mt List.getLast?_eq_none_iff.1 x.flatten_ne_nil)

abbrev Alternating (es : List Entry) : Prop := es.IsChain fun a b => a.isOperand ≠ b.isOperand

theorem Ordered.isOperand_head {x : Expression} (h : x.Ordered) :
    ∀ e ∈ x.flatten.head?, e.isOperand = true := by
  induction x with
  | leaf e =>
    have he : e.isOperand = true := h
    simp [flatten, he]
  | join op left right hl _ =>
    intro e he
    rw [flatten, List.head?_append_of_ne_nil _ left.flatten_ne_nil] at he
    exact hl h.1 e he

theorem Ordered.isOperand_getLast {x : Expression} (h : x.Ordered) :
    ∀ e ∈ x.flatten.getLast?, e.isOperand = true := by
  induction x with
  | leaf e =>
    have he : e.isOperand = true := h
    simp [flatten, he]
  | join op left right _ hr =>
    intro e he
    obtain ⟨z, hz⟩ := right.exists_getLast_flatten
    simp only [flatten, List.getLast?_append, List.getLast?_cons, hz] at he
    obtain rfl : z = e := by simpa using he
    exact hr h.2.1 z hz

theorem Ordered.alternating {x : Expression} (h : x.Ordered) : Alternating x.flatten := by
  induction x with
  | leaf e => exact List.isChain_singleton _
  | join op left right hl hr =>
    have hm : (⟨.marker op, 0⟩ : Entry).isOperand = false := rfl
    refine List.isChain_append.2 ⟨hl h.1, List.isChain_cons.2 ⟨?_, hr h.2.1⟩, ?_⟩
    · intro e he
      simp [hm, h.2.1.isOperand_head e he]
    · intro a ha b hb
      obtain rfl : (⟨.marker op, 0⟩ : Entry) = b := by simpa using hb
      simp [hm, h.1.isOperand_getLast a ha]

theorem Ordered.operators_eq {x : Expression} (h : x.Ordered) :
    x.operators = x.flatten.filterMap fun e => e.node.marker? := by
  induction x with
  | leaf e =>
    have he : e.isOperand = true := h
    simp [operators, flatten, Entry.marker?_of_isOperand he]
  | join op left right hl hr =>
    have hm : (Node.marker op).marker? = some op := rfl
    simp [operators, flatten, hl h.1, hr h.2.1, hm]

theorem Ordered.mem_operators {x : Expression} (h : x.Ordered) {op : Operator} {d : Nat}
    (hop : ⟨.marker op, d⟩ ∈ x.flatten) : op ∈ x.operators := by
  rw [h.operators_eq]
  exact List.mem_filterMap.2 ⟨_, hop, rfl⟩

theorem Ordered.isOperand_entry {x : Expression} (h : x.Ordered) : x.entry.isOperand = true := by
  cases x with
  | leaf e => exact h
  | join op left right => rfl

/-- The root of an ordered tree does not stand to the right of that of another with one reading:
each would have to bind tighter than the other. -/
theorem Ordered.not_longer_left {op op' : Operator} {left right left' right' : Expression}
    {mid : List Entry} (h : (join op left right).Ordered) (h' : (join op' left' right').Ordered)
    (hl : left'.flatten = left.flatten ++ ⟨.marker op, 0⟩ :: mid)
    (hr : right.flatten = mid ++ ⟨.marker op', 0⟩ :: right'.flatten) : False := by
  have h₁ := h'.2.2.1 op (h'.1.mem_operators (d := 0) (by simp [hl]))
  have h₂ := h.2.2.2 op' (h.2.1.mem_operators (d := 0) (by simp [hr]))
  omega

theorem Ordered.left_eq {op op' : Operator} {left right left' right' : Expression}
    (h : (join op left right).Ordered) (h' : (join op' left' right').Ordered)
    (he : (join op left right).flatten = (join op' left' right').flatten) :
    left.flatten = left'.flatten := by
  simp only [flatten] at he
  rcases List.append_eq_append_iff.1 he with ⟨mid, hl, hr⟩ | ⟨mid, hl, hr⟩
  · cases mid with
    | nil => simpa using hl.symm
    | cons m mid =>
      obtain ⟨rfl, hmid⟩ := List.cons.inj hr
      exact (h.not_longer_left h' hl hmid).elim
  · cases mid with
    | nil => simpa using hl
    | cons m mid =>
      obtain ⟨rfl, hmid⟩ := List.cons.inj hr
      exact (h'.not_longer_left h hl hmid).elim

/-- An ordered tree is told by its reading: its root is the last of the loosest operators. -/
theorem Ordered.eq_of_flatten {x y : Expression} (hx : x.Ordered) (hy : y.Ordered)
    (h : x.flatten = y.flatten) : x = y := by
  have hlen := congrArg List.length h
  rw [length_flatten, length_flatten] at hlen
  induction x generalizing y with
  | leaf e =>
    cases y with
    | leaf e' =>
      have he : e.normal = e'.normal := by simpa [flatten] using h
      rw [Entry.normal_of_isOperand hx, Entry.normal_of_isOperand hy] at he
      rw [he]
    | join op left right => simp [operators] at hlen
  | join op left right hl hr =>
    cases y with
    | leaf e => simp [operators] at hlen
    | join op' left' right' =>
      have hle := hx.left_eq hy h
      rw [flatten, flatten, hle, List.append_cancel_left_eq] at h
      obtain ⟨hop, hre⟩ := List.cons.inj h
      obtain rfl : op = op' := by simpa using hop
      rw [hl hx.1 hy.1 hle (by rw [← length_flatten, ← length_flatten, hle]),
        hr hx.2.1 hy.2.1 hre (by rw [← length_flatten, ← length_flatten, hre])]

theorem isOperand_head_flatMap {forest : List Expression} (h : ∀ x ∈ forest, x.Ordered) :
    ∀ e ∈ (forest.flatMap flatten).head?, e.isOperand = true := by
  cases forest with
  | nil => simp
  | cons x xs =>
    intro e he
    rw [List.flatMap_cons, List.head?_append_of_ne_nil _ x.flatten_ne_nil] at he
    exact (h x List.mem_cons_self).isOperand_head e he

theorem Ordered.not_extended {x y : Expression} (hx : x.Ordered) (hy : y.Ordered) {e : Entry}
    {mid : List Entry} (he : e.isOperand = true) (h : y.flatten = x.flatten ++ e :: mid) :
    False := by
  have hc := hy.alternating
  rw [h, Alternating, List.isChain_append] at hc
  obtain ⟨z, hz⟩ := x.exists_getLast_flatten
  have hne := hc.2.2 z hz e (by simp)
  rw [hx.isOperand_getLast z hz, he] at hne
  exact hne rfl

theorem Forest.unique {entries : List Entry} {forest other : List Expression}
    (h : Forest entries forest) (h' : Forest entries other) : forest = other := by
  have he : forest.flatMap flatten = other.flatMap flatten := h.reads.trans h'.reads.symm
  have ho := h.ordered
  have ho' := h'.ordered
  clear h h'
  induction forest generalizing other with
  | nil =>
    cases other with
    | nil => rfl
    | cons y ys => simp [y.flatten_ne_nil] at he
  | cons x xs ih =>
    cases other with
    | nil => simp [x.flatten_ne_nil] at he
    | cons y ys =>
      have hx := ho x List.mem_cons_self
      have hy := ho' y List.mem_cons_self
      have hxs : ∀ z ∈ xs, z.Ordered := fun z hz => ho z (List.mem_cons_of_mem _ hz)
      have hys : ∀ z ∈ ys, z.Ordered := fun z hz => ho' z (List.mem_cons_of_mem _ hz)
      have hhead : x.flatten = y.flatten := by
        rw [List.flatMap_cons, List.flatMap_cons] at he
        rcases List.append_eq_append_iff.1 he with ⟨mid, hm, hr⟩ | ⟨mid, hm, hr⟩
        · cases mid with
          | nil => simpa using hm.symm
          | cons e mid =>
            have hop := isOperand_head_flatMap hxs e (by simp [hr])
            exact (hx.not_extended hy hop hm).elim
        · cases mid with
          | nil => simpa using hm
          | cons e mid =>
            have hop := isOperand_head_flatMap hys e (by simp [hr])
            exact (hy.not_extended hx hop hm).elim
      rw [List.flatMap_cons, List.flatMap_cons, hhead, List.append_cancel_left_eq] at he
      rw [hx.eq_of_flatten hy hhead, ih he hxs hys]

theorem Forest.operators_eq {entries : List Entry} {forest : List Expression}
    (h : Forest entries forest) :
    forest.flatMap operators = entries.filterMap fun e => e.node.marker? :=
  calc forest.flatMap operators
    _ = forest.flatMap fun x => x.flatten.filterMap fun e => e.node.marker? :=
        List.flatMap_congr fun x hx => (h.ordered x hx).operators_eq
    _ = (forest.flatMap flatten).filterMap fun e => e.node.marker? :=
        List.filterMap_flatMap.symm
    _ = entries.filterMap fun e => e.node.marker? := by
        rw [h.reads, List.filterMap_map]
        exact List.filterMap_congr fun e _ => by simp

def Awaits (x : Expression) (op : Operator) : Prop := ∃ d, x = .leaf ⟨.marker op, d⟩

theorem awaits_of_node {x : Expression} {op : Operator} (h : x.node = .marker op) :
    x.Awaits op := by
  cases x with
  | leaf e =>
    obtain ⟨n, d⟩ := e
    obtain rfl : n = .marker op := h
    exact ⟨d, rfl⟩
  | join o left right => cases h

theorem ordered_of_isOperand {x : Expression} (h : x.Ordered ∨ ∃ op, x.Awaits op)
    (hx : x.entry.isOperand = true) : x.Ordered := by
  rcases h with h | ⟨op, d, rfl⟩
  · exact h
  · cases hx

/-- A marker will bind looser than all that is folded beside it already, and to its right no
operator of its own precedence is folded before it. -/
def Apart (x y : Expression × Nat) : Prop :=
  (∀ op, x.1.Awaits op → ∀ o ∈ y.1.operators, op.precedence < o.precedence) ∧
    ∀ op, y.1.Awaits op → ∀ o ∈ x.1.operators, op.precedence ≤ o.precedence

theorem not_awaits_join {op op' : Operator} {x y : Expression} :
    ¬ (join op x y).Awaits op' := by
  intro h
  obtain ⟨d, hd⟩ := h
  cases hd

section Joining

variable {op : Operator} {i : Nat} {t x y : Expression × Nat}

theorem Apart.join_right (hx : Apart t x) (hy : Apart t y)
    (h : ∀ o, t.1.Awaits o → o.precedence < op.precedence) :
    Apart t (join op x.1 y.1, i) := by
  refine ⟨fun o ho o' ho' => ?_, fun o ho => (not_awaits_join ho).elim⟩
  simp only [operators, List.mem_append, List.mem_cons] at ho'
  rcases ho' with ho' | rfl | ho'
  · exact hx.1 o ho o' ho'
  · exact h o ho
  · exact hy.1 o ho o' ho'

theorem Apart.join_left (hx : Apart x t) (hy : Apart y t)
    (h : ∀ o, t.1.Awaits o → o.precedence ≤ op.precedence) :
    Apart (join op x.1 y.1, i) t := by
  refine ⟨fun o ho => (not_awaits_join ho).elim, fun o ho o' ho' => ?_⟩
  simp only [operators, List.mem_append, List.mem_cons] at ho'
  rcases ho' with ho' | rfl | ho'
  · exact hx.2 o ho o' ho'
  · exact h o ho
  · exact hy.2 o ho o' ho'

end Joining

/-- A list in the course of folding, with the trees that its entries have become. -/
structure Grown (entries : List Entry) (items : Splice Entry) (trees : List (Expression × Nat)) :
    Prop where
  shows : trees.map (fun x => (x.1.entry, x.2)) = items
  reads : trees.flatMap (fun x => x.1.flatten) = entries.map Entry.normal
  each : ∀ x ∈ trees, x.1.Ordered ∨ ∃ op, x.1.Awaits op
  apart : trees.Pairwise Apart

theorem grown_start (entries : List Entry) :
    Grown entries entries.zipIdx (entries.zipIdx.map fun x => (.leaf x.1, x.2)) where
  shows := by
    rw [List.map_map]
    exact List.map_id _
  reads := by
    rw [List.flatMap_map]
    simp only [flatten]
    conv_rhs => rw [← List.zipIdx_map_fst 0 entries, List.map_map]
    exact List.map_eq_flatMap.symm
  each := by
    intro x hx
    obtain ⟨y, -, rfl⟩ := List.mem_map.1 hx
    cases h : y.1.isOperand with
    | true => exact .inl h
    | false =>
      obtain ⟨op, hop⟩ := Node.isMarker_iff.1 (by simpa [Entry.isOperand, Node.isOperand] using h)
      exact .inr ⟨op, awaits_of_node hop⟩
  apart := by
    refine List.pairwise_map.2 (List.pairwise_of_forall fun _ _ => ⟨?_, ?_⟩)
    · exact fun _ _ o ho => (List.not_mem_nil ho).elim
    · exact fun _ _ o ho => (List.not_mem_nil ho).elim

variable {entries : List Entry} {trees : List (Expression × Nat)} {before after : Splice Entry}
  {l r : Entry × Nat} {e : Entry} {m : Marker} {ms : List Marker}

theorem Grown.split (h : Grown entries (before ++ l :: (e, m.index) :: r :: after) trees)
    (he : e.node = .marker m.operator) (hl : l.1.isOperand = true) (hr : r.1.isOperand = true) :
    ∃ (ls : List (Expression × Nat)) (x y : Expression × Nat) (d : Nat)
      (rs : List (Expression × Nat)),
      trees = ls ++ x :: (.leaf ⟨.marker m.operator, d⟩, m.index) :: y :: rs ∧
      x.1.Ordered ∧ y.1.Ordered ∧ x.1.entry = l.1 ∧ y.1.entry = r.1 ∧
      ls.map (fun x => (x.1.entry, x.2)) = before ∧
      rs.map (fun x => (x.1.entry, x.2)) = after := by
  obtain ⟨ls, t, rfl, hls, ht⟩ := List.map_eq_append_iff.1 h.shows
  obtain ⟨x, t, rfl, hx, ht⟩ := List.map_eq_cons_iff.1 ht
  obtain ⟨z, t, rfl, hz, ht⟩ := List.map_eq_cons_iff.1 ht
  obtain ⟨y, rs, rfl, hy, hrs⟩ := List.map_eq_cons_iff.1 ht
  have hzn : z.1.node = .marker m.operator := (congrArg (fun x => x.1.node) hz).trans he
  obtain ⟨d, hd⟩ := awaits_of_node hzn
  obtain rfl : z = (.leaf ⟨.marker m.operator, d⟩, m.index) :=
    Prod.ext hd (congrArg (fun x => x.2) hz)
  have hxl : x.1.entry = l.1 := congrArg Prod.fst hx
  have hyr : y.1.entry = r.1 := congrArg Prod.fst hy
  refine ⟨ls, x, y, d, rs, rfl, ?_, ?_, hxl, hyr, hls, hrs⟩
  · exact ordered_of_isOperand (h.each x (by simp)) (by rw [hxl, hl])
  · exact ordered_of_isOperand (h.each y (by simp)) (by rw [hyr, hr])

theorem Grown.before_of_awaits {ls rs : List (Expression × Nat)} {t : Expression × Nat}
    {op : Operator}
    (hw : Splice.Waits (ls.map (fun x => (x.1.entry, x.2)) ++ l :: (e, m.index) :: r ::
      rs.map (fun x => (x.1.entry, x.2))) (m :: ms))
    (he : e.node = .marker m.operator) (hl : l.1.isOperand = true) (hr : r.1.isOperand = true)
    (ht : t ∈ ls ∨ t ∈ rs) (hop : t.1.Awaits op) : m.Before ⟨t.2, op⟩ := by
  have hnode : t.1.entry.node = .marker op := by
    obtain ⟨d, hd⟩ := hop
    rw [hd]
    rfl
  have hmem : (⟨t.2, op⟩ : Marker) ∈ ms := by
    refine (hw.fold he hl hr).perm.mem_iff.2 (Splice.mem_waiting.2 ⟨t.1.entry, ?_, hnode⟩)
    cases ht with
    | inl ht => exact List.mem_append_left _ (List.mem_map.2 ⟨t, ht, rfl⟩)
    | inr ht => exact List.mem_append_right _ (List.mem_cons_of_mem _ (List.mem_map.2 ⟨t, ht, rfl⟩))
  exact (List.pairwise_cons.1 hw.before).1 _ hmem

theorem Grown.fold (h : Grown entries (before ++ l :: (e, m.index) :: r :: after) trees)
    (hw : Splice.Waits (before ++ l :: (e, m.index) :: r :: after) (m :: ms))
    (he : e.node = .marker m.operator) (hl : l.1.isOperand = true) (hr : r.1.isOperand = true) :
    ∃ trees, Grown entries (before ++ (m.operator.joined l.1 r.1, m.index) :: after) trees := by
  obtain ⟨ls, x, y, d, rs, rfl, hx, hy, hxl, hyr, rfl, rfl⟩ := h.split he hl hr
  have hap := h.apart
  simp only [List.pairwise_append, List.pairwise_cons, List.mem_cons, forall_eq_or_imp] at hap
  obtain ⟨hpl, ⟨⟨hxm, -, hxr⟩, ⟨hmy, -⟩, hyr', hpr⟩, hlx⟩ := hap
  refine ⟨ls ++ (join m.operator x.1 y.1, m.index) :: rs, ?_, ?_, ?_, ?_⟩
  · have hn : (join m.operator x.1 y.1).entry = m.operator.joined l.1 r.1 := by
      rw [← hxl, ← hyr]
      rfl
    simp [hn]
  · have hd : (⟨.marker m.operator, d⟩ : Entry).normal = ⟨.marker m.operator, 0⟩ := rfl
    rw [← h.reads]
    simp [flatten, hd]
  · have hjoin : (join m.operator x.1 y.1).Ordered :=
      ⟨hx, hy, hxm.2 m.operator ⟨d, rfl⟩, hmy.1 m.operator ⟨d, rfl⟩⟩
    intro t ht
    rcases List.mem_append.1 ht with ht | ht
    · exact h.each t (List.mem_append_left _ ht)
    · rcases List.mem_cons.1 ht with rfl | ht
      · exact .inl hjoin
      · exact h.each t (by simp [ht])
  · have right : ∀ t ∈ rs, Apart (join m.operator x.1 y.1, m.index) t := by
      intro t ht
      refine (hxr t ht).join_left (hyr' t ht) fun op hop => ?_
      have hb := before_of_awaits hw he hl hr (.inr ht) hop
      simp only [Marker.Before] at hb
      omega
    -- A marker further left with the same precedence would have been folded before this one.
    have left : ∀ t ∈ ls, Apart t (join m.operator x.1 y.1, m.index) := by
      intro t ht
      obtain ⟨htx, -, hty, -⟩ := hlx t ht
      refine htx.join_right hty fun op hop => ?_
      have hb := before_of_awaits hw he hl hr (.inl ht) hop
      have hlt : t.2 < m.index := (List.pairwise_append.1 hw.sorted).2.2 (t.1.entry, t.2)
        (List.mem_map.2 ⟨t, ht, rfl⟩) (e, m.index) (by simp)
      simp only [Marker.Before] at hb
      omega
    refine List.pairwise_append.2 ⟨hpl, List.pairwise_cons.2 ⟨right, hpr⟩, fun t ht u hu => ?_⟩
    obtain ⟨-, -, -, htr⟩ := hlx t ht
    rcases List.mem_cons.1 hu with rfl | hu
    · exact left t ht
    · exact htr u hu

/-- What a run of folds keeps: a tree stands behind every entry, and no new tree is deeper than the
limit. -/
structure Kept (entries : List Entry) (limit : Nat) (items : Splice Entry) : Prop where
  grown : ∃ trees, Grown entries items trees
  bounded : ∀ x ∈ items, x.1 ∈ entries ∨ x.1.depth ≤ limit

theorem kept_start (entries : List Entry) (limit : Nat) : Kept entries limit entries.zipIdx where
  grown := ⟨_, grown_start entries⟩
  bounded _ hx := .inl (List.fst_mem_of_mem_zipIdx hx)

theorem Kept.fold {limit : Nat} (h : Kept entries limit (before ++ l :: (e, m.index) :: r :: after))
    (hw : Splice.Waits (before ++ l :: (e, m.index) :: r :: after) (m :: ms))
    (he : e.node = .marker m.operator) (hl : l.1.isOperand = true) (hr : r.1.isOperand = true)
    (hd : (m.operator.joined l.1 r.1).depth ≤ limit) :
    Kept entries limit (before ++ (m.operator.joined l.1 r.1, m.index) :: after) where
  grown := by
    obtain ⟨trees, hg⟩ := h.grown
    exact hg.fold hw he hl hr
  bounded x hx := by
    simp only [List.mem_append, List.mem_cons] at hx
    rcases hx with hx | rfl | hx
    · exact h.bounded x (by simp [hx])
    · exact .inr hd
    · exact h.bounded x (by simp [hx])

/-- What folding leaves is the forest of a list, and no new tree is deeper than the limit. -/
theorem exists_forest {limit : Nat} {out : List Entry} (h : foldMarkers limit entries = .ok out) :
    ∃ forest, Forest entries forest ∧ out = forest.map Expression.entry ∧
      ∀ x ∈ forest, x.entry ∈ entries ∨ x.depth ≤ limit := by
  obtain ⟨items, hf, rfl⟩ := foldMarkers_eq_ok_iff.1 h
  obtain ⟨hw, ⟨trees, hg⟩, hd⟩ := Splice.foldAll_keeps
    (P := fun items _ => Kept entries limit items)
    (fun hw he hl hr hlim hk => hk.fold hw he hl hr hlim)
    (Splice.waits_start entries) (kept_start entries limit) hf
  have hshow : items.map Prod.fst = (trees.map Prod.fst).map Expression.entry := by
    rw [← hg.shows, List.map_map, List.map_map]
    rfl
  refine ⟨trees.map Prod.fst, ⟨?_, ?_⟩, hshow, fun x hx => ?_⟩
  · rw [← hg.reads, List.flatMap_map]
  · intro x hx
    obtain ⟨t, ht, rfl⟩ := List.mem_map.1 hx
    refine ordered_of_isOperand (hg.each t ht) (hw.isOperand_of_nil (t.1.entry, t.2) ?_)
    rw [← hg.shows]
    exact List.mem_map.2 ⟨t, ht, rfl⟩
  · have hx' : x.entry ∈ items.map Prod.fst := hshow ▸ List.mem_map.2 ⟨x, hx, rfl⟩
    obtain ⟨y, hy, hyx⟩ := List.mem_map.1 hx'
    have := hd y hy
    rwa [hyx] at this

theorem flatMap_node {α : Type} {f : Node → List α}
    (hf : ∀ op left right, f (.binary op left right) = f left ++ f (.marker op) ++ f right)
    (x : Expression) : f x.node = x.flatten.flatMap fun e => f e.node := by
  induction x with
  | leaf e => simp [node, flatten]
  | join op left right hl hr => simp [node, flatten, hf, hl, hr]

theorem flatMap_foldMarkers {α : Type} {f : Node → List α}
    (hf : ∀ op left right, f (.binary op left right) = f left ++ f (.marker op) ++ f right)
    {limit : Nat} {out : List Entry} (h : foldMarkers limit entries = .ok out) :
    (out.map Entry.node).flatMap f = (entries.map Entry.node).flatMap f := by
  obtain ⟨forest, hforest, rfl, -⟩ := exists_forest h
  calc ((forest.map entry).map Entry.node).flatMap f
    _ = forest.flatMap fun x => f x.node := by
        rw [List.map_map, List.flatMap_map]
        rfl
    _ = forest.flatMap fun x => x.flatten.flatMap fun e => f e.node :=
        List.flatMap_congr fun x _ => flatMap_node hf x
    _ = (forest.flatMap flatten).flatMap fun e => f e.node := List.flatMap_assoc.symm
    _ = (entries.map Entry.node).flatMap f := by
        rw [hforest.reads, List.flatMap_map, List.flatMap_map]
        exact List.flatMap_congr fun e _ => by rw [Entry.normal_node]

end Expression

/-- Folding that succeeds gives the one forest that reads as the list and is ordered by
precedence. Its inner nodes are the markers of the list, so none is left. -/
theorem foldMarkers_unique_forest {limit : Nat} {entries out : List Entry}
    (h : foldMarkers limit entries = .ok out) :
    ∃ forest : List Expression, Expression.Forest entries forest ∧
      (∀ other, Expression.Forest entries other → other = forest) ∧
      forest.flatMap Expression.operators = entries.filterMap (fun e => e.node.marker?) ∧
      out = forest.map Expression.entry ∧ ∀ e ∈ out, e.isOperand = true := by
  obtain ⟨forest, hf, rfl, -⟩ := Expression.exists_forest h
  refine ⟨forest, hf, fun other h' => h'.unique hf, hf.operators_eq, rfl, fun e he => ?_⟩
  obtain ⟨x, hx, rfl⟩ := List.mem_map.1 he
  exact (hf.ordered x hx).isOperand_entry

/-- The list a - b * c - d e, where nothing stands between the last two. -/
def chainEntries : List Entry :=
  let word (name : String) : Entry := ⟨.identifier name, 0⟩
  let minus : Entry := ⟨.marker ⟨"-", "subtract", 13, .nowhere⟩, 0⟩
  let times : Entry := ⟨.marker ⟨"*", "multiply", 14, .nowhere⟩, 0⟩
  [word "a", minus, word "b", times, word "c", minus, word "d", word "e"]

theorem foldMarkers_unique_forest_chain :
    ∃ out, foldMarkers 3 chainEntries = .ok out ∧
      ∃ forest : List Expression, Expression.Forest chainEntries forest ∧
        (∀ other, Expression.Forest chainEntries other → other = forest) ∧
        forest.flatMap Expression.operators =
          chainEntries.filterMap (fun e => e.node.marker?) ∧
        out = forest.map Expression.entry ∧ ∀ e ∈ out, e.isOperand = true := by
  have h : ∃ out, foldMarkers 3 chainEntries = .ok out := ⟨_, rfl⟩
  obtain ⟨out, h⟩ := h
  exact ⟨out, h, foldMarkers_unique_forest h⟩

end TokenForest
