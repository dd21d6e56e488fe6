import TokenForest.Proofs.Misplaced
import TokenForest.Proofs.Precedence

set_option autoImplicit false

namespace TokenForest

def WellPlaced (entries : List Entry) : Prop :=
  ∀ before e after, entries = before ++ e :: after → e.isOperand = false →
    (∃ l, before.getLast? = some l ∧ l.isOperand = true) ∧
      ∃ r, after.head? = some r ∧ r.isOperand = true

theorem WellPlaced.of_isChain {entries : List Entry}
    (hhead : ∀ e ∈ entries.head?, e.isOperand = true)
    (hlast : ∀ e ∈ entries.getLast?, e.isOperand = true)
    (hchain : entries.IsChain fun a b => a.isOperand = true ∨ b.isOperand = true) :
    WellPlaced entries := by
  intro before e after hes he
  rw [hes] at hhead hlast hchain
  obtain ⟨-, hea, hbe⟩ := List.isChain_append.1 hchain
  constructor
  · rcases List.eq_nil_or_concat before with rfl | ⟨bs, l, rfl⟩
    · rw [hhead e (by simp)] at he
      cases he
    · refine ⟨l, by simp, (hbe l (by simp) e (by simp)).resolve_right ?_⟩
      simp [he]
  · cases after with
    | nil =>
      rw [hlast e (by simp)] at he
      cases he
    | cons r as =>
      refine ⟨r, rfl, ((List.isChain_cons_cons.1 hea).1).resolve_left ?_⟩
      simp [he]

theorem WellPlaced.flanked {entries : List Entry} (h : WellPlaced entries) :
    ∀ m ∈ Marker.scan 0 entries, m.Flanked entries := by
  intro m hm
  obtain ⟨before, e, after, rfl, hlen, hop⟩ := Marker.exists_split hm
  obtain ⟨⟨l, hl, hlo⟩, r, hr, hro⟩ := h before e after rfl (Entry.not_isOperand_of_marker hop)
  rw [Marker.flanked_append hlen]
  simp [hl, hlo, hr, hro]

/-- Where every marker is flanked there is a result that only the depth limit can forbid, and it
does not where nothing in the result is too deep. -/
theorem Splice.Waits.exists_foldAll {items : Splice Entry} {ms : List Marker} (h : items.Waits ms)
    (hall : ∀ m ∈ ms, items.flanked m.index = true) :
    ∃ out : Splice Entry, (∀ x ∈ items, x.1.isOperand = true → ∃ y ∈ out, x.1.depth ≤ y.1.depth) ∧
      ∀ limit, (∀ y ∈ out, y.1.depth ≤ limit) → items.foldAll (Operator.join limit) ms = .ok out := by
  induction ms generalizing items with
  | nil => exact ⟨items, fun x hx _ => ⟨x, hx, Nat.le_refl _⟩, fun _ _ => rfl⟩
  | cons m ms ih =>
    rw [List.forall_mem_cons] at hall
    rcases h.fold_cases 0 with ⟨hm, -⟩ | ⟨before, l, e, r, after, rfl, he, hl, hr, -⟩
    · rw [hall.1] at hm
      cases hm
    · obtain ⟨out, hdeep, hrun⟩ := ih (h.fold he hl hr) fun n hn => by
        rw [h.flanked_fold he hl hr hn]
        exact hall.2 n hn
      obtain ⟨y, hy, hle⟩ := hdeep (m.operator.joined l.1 r.1, m.index) (by simp) rfl
      rw [Operator.joined_depth] at hle
      refine ⟨out, fun x hx ho => ?_, fun limit hlim => ?_⟩
      · simp only [List.mem_append, List.mem_cons] at hx
        rcases hx with hx | rfl | rfl | rfl | hx
        · exact hdeep x (by simp [hx]) ho
        · exact ⟨y, hy, by omega⟩
        · rw [Entry.not_isOperand_of_marker he] at ho
          cases ho
        · exact ⟨y, hy, by omega⟩
        · exact hdeep x (by simp [hx]) ho
      · have hd : (m.operator.joined l.1 r.1).depth ≤ limit := Nat.le_trans hle (hlim y hy)
        rw [Splice.foldAll, h.fold_between hl hr hd]
        exact hrun limit hlim

theorem WellPlaced.exists_foldMarkers {entries : List Entry} (h : WellPlaced entries) :
    ∃ out, ∀ limit, (∀ e ∈ out, e.depth ≤ limit) → foldMarkers limit entries = .ok out := by
  obtain ⟨out, -, hrun⟩ := (Splice.waits_start entries).exists_foldAll fun m hm =>
    have hm : m ∈ Marker.scan 0 entries := (Marker.ordered_perm entries).mem_iff.1 hm
    (Splice.flanked_zipIdx hm).2 (h.flanked m hm)
  refine ⟨out.map Prod.fst, fun limit hlim => foldMarkers_eq_ok_iff.2 ⟨out, ?_, rfl⟩⟩
  exact hrun limit fun y hy => hlim y.1 (List.mem_map.2 ⟨y, hy, rfl⟩)

namespace Expression

theorem flatten_normal {x : Expression} : x.flatten.map Entry.normal = x.flatten := by
  induction x with
  | leaf e =>
    have he : e.normal.normal = e.normal := by
      unfold Entry.normal
      split <;> simp_all [Entry.isOperand]
    simp [flatten, he]
  | join op left right hl hr =>
    have hm : (⟨.marker op, 0⟩ : Entry).normal = ⟨.marker op, 0⟩ := rfl
    simp [flatten, hl, hr, hm]

theorem forest_flatten {forest : List Expression} (h : ∀ x ∈ forest, x.Ordered) :
    Forest (forest.flatMap flatten) forest where
  reads := by
    rw [List.map_flatMap]
    exact List.flatMap_congr fun x _ => flatten_normal.symm
  ordered := h

theorem isOperand_getLast_flatMap {forest : List Expression} (h : ∀ x ∈ forest, x.Ordered) :
    ∀ e ∈ (forest.flatMap flatten).getLast?, e.isOperand = true := by
  rcases List.eq_nil_or_concat forest with rfl | ⟨xs, x, rfl⟩
  · simp
  · intro e he
    obtain ⟨z, hz⟩ := x.exists_getLast_flatten
    rw [List.concat_eq_append, List.flatMap_append, List.getLast?_append] at he
    obtain rfl : z = e := by simpa [hz] using he
    exact (h x (by simp)).isOperand_getLast z hz

theorem isChain_flatMap {forest : List Expression} (h : ∀ x ∈ forest, x.Ordered) :
    (forest.flatMap flatten).IsChain fun a b => a.isOperand = true ∨ b.isOperand = true := by
  induction forest with
  | nil => exact List.isChain_nil
  | cons x xs ih =>
    have hx := h x List.mem_cons_self
    refine List.isChain_append.2 ⟨?_, ih fun y hy => h y (List.mem_cons_of_mem _ hy), ?_⟩
    · refine hx.alternating.imp fun a b hab => ?_
      cases ha : a.isOperand with
      | true => exact .inl rfl
      | false => exact .inr (by simpa [ha] using hab)
    · exact fun a ha b _ => .inl (hx.isOperand_getLast a ha)

theorem wellPlaced_flatten {forest : List Expression} (h : ∀ x ∈ forest, x.Ordered) :
    WellPlaced (forest.flatMap flatten) :=
  .of_isChain (isOperand_head_flatMap h) (isOperand_getLast_flatMap h) (isChain_flatMap h)

/-- An ordered forest comes back from its reading, if no tree in it is too deep. -/
theorem foldMarkers_flatten {limit : Nat} {forest : List Expression}
    (h : ∀ x ∈ forest, x.Ordered) (hd : ∀ x ∈ forest, x.depth ≤ limit) :
    foldMarkers limit (forest.flatMap flatten) = .ok (forest.map Expression.entry) := by
  obtain ⟨out, hout⟩ := (wellPlaced_flatten h).exists_foldMarkers
  obtain ⟨forest', hf, rfl, -⟩ := exists_forest
    (hout (Entry.deepest out) fun e he => Entry.depth_le_deepest he)
  obtain rfl := (forest_flatten h).unique hf
  refine hout limit fun e he => ?_
  obtain ⟨x, hx, rfl⟩ := List.mem_map.1 he
  exact hd x hx

end Expression

end TokenForest
