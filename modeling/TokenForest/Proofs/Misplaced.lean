import TokenForest.Proofs.Linking

/-!
Markers without operands. Whether a marker finds its operands when its turn comes is told by the
list as it was at first: folding neither brings nor takes an operand. So the fault that folding
ends with is known before the first fold, unless the depth limit is met earlier.
-/

set_option autoImplicit false

namespace TokenForest

namespace Marker

theorem mem_scan {entries : List Entry} {m : Marker} :
    m ∈ scan 0 entries ↔ ∃ e, entries[m.index]? = some e ∧ e.node = .marker m.operator := by
  rw [Splice.scan_eq_waiting, Splice.mem_waiting]
  simp only [List.mem_zipIdx_iff_getElem?]

theorem exists_split {entries : List Entry} {m : Marker} (h : m ∈ scan 0 entries) :
    ∃ before e after, entries = before ++ e :: after ∧ m.index = before.length ∧
      e.node = .marker m.operator := by
  obtain ⟨e, he, hop⟩ := mem_scan.1 h
  obtain ⟨hlt, hget⟩ := List.getElem?_eq_some_iff.1 he
  refine ⟨entries.take m.index, e, entries.drop (m.index + 1), ?_, ?_, hop⟩
  · rw [← hget, ← List.drop_eq_getElem_cons hlt, List.take_append_drop]
  · rw [List.length_take_of_le (Nat.le_of_lt hlt)]

/-- An operand stands on either side of the marker, in the list that it was found in. -/
def Flanked (entries : List Entry) (m : Marker) : Prop :=
  (0 < m.index ∧ ∃ l ∈ entries[m.index - 1]?, l.isOperand = true) ∧
    ∃ r ∈ entries[m.index + 1]?, r.isOperand = true

instance (entries : List Entry) (m : Marker) : Decidable (m.Flanked entries) :=
  inferInstanceAs (Decidable (_ ∧ _))

/-- Of the markers of a list that lack an operand, the one whose turn comes first. -/
structure FirstMisplaced (entries : List Entry) (m : Marker) : Prop where
  mem : m ∈ scan 0 entries
  misplaced : ¬ m.Flanked entries
  first : ∀ n ∈ scan 0 entries, ¬ n.Flanked entries → n = m ∨ m.Before n

theorem flanked_append {before after : List Entry} {e : Entry} {m : Marker}
    (h : m.index = before.length) :
    m.Flanked (before ++ e :: after) ↔
      before.getLast?.any Entry.isOperand = true ∧ after.head?.any Entry.isOperand = true := by
  have hr : (before ++ e :: after)[m.index + 1]? = after.head? := by
    rw [List.getElem?_append_right (by omega), h, Nat.add_sub_cancel_left, List.getElem?_cons_succ,
      List.head?_eq_getElem?]
  have hl : 0 < m.index → (before ++ e :: after)[m.index - 1]? = before.getLast? := by
    intro hpos
    rw [List.getElem?_append_left (by omega), h, List.getLast?_eq_getElem?]
  rw [Flanked, hr, Option.any_eq_true, Option.any_eq_true]
  rcases Nat.eq_zero_or_pos m.index with h0 | hpos
  · obtain rfl : before = [] := List.length_eq_zero_iff.1 (h ▸ h0)
    simp [h0]
  · simp [hl hpos, hpos]

def missing (m : Marker) : Fault := ⟨.missingOperand m.operator.symbol, m.operator.position⟩

def tooDeep (limit : Nat) (m : Marker) : Fault := ⟨.tooDeep limit, m.operator.position⟩

end Marker

namespace Splice

def flanked (items : Splice Entry) (index : Nat) : Bool :=
  ((items.around index).1.getLast?.any fun x => x.1.isOperand) &&
    (items.around index).2.head?.any fun x => x.1.isOperand

variable {items before after : Splice Entry} {l r : Entry × Nat} {e : Entry} {m n : Marker}
  {ms : List Marker} {limit : Nat}

theorem Waits.flanked_eq {x : Entry × Nat} (h : Waits (before ++ x :: after) ms) :
    flanked (before ++ x :: after) x.2 =
      ((before.getLast?.any fun y => y.1.isOperand) &&
        after.head?.any fun y => y.1.isOperand) := by
  have hne : ∀ y ∈ before, y.2 ≠ x.2 := fun y hy =>
    Nat.ne_of_lt ((List.pairwise_append.1 h.sorted).2.2 y hy x List.mem_cons_self)
  have hsplit : around (before ++ (x.1, x.2) :: after) x.2 = (before, after) := around_append hne
  simp only [flanked, hsplit]

/-- A fold joins three entries to one operand where two operands stood at the ends, so for every
other marker nothing has changed. -/
theorem Waits.flanked_fold (h : Waits (before ++ l :: (e, m.index) :: r :: after) (m :: ms))
    (he : e.node = .marker m.operator) (hl : l.1.isOperand = true) (hr : r.1.isOperand = true)
    (hn : n ∈ ms) :
    flanked (before ++ (m.operator.joined l.1 r.1, m.index) :: after) n.index =
      flanked (before ++ l :: (e, m.index) :: r :: after) n.index := by
  have hj : (m.operator.joined l.1 r.1).isOperand = true := rfl
  have h' := h.fold he hl hr
  obtain ⟨x, hx, hop⟩ := mem_waiting.1 (h'.perm.mem_iff.1 hn)
  rcases List.mem_append.1 hx with hx | hx
  · obtain ⟨xs, ys, rfl⟩ := List.append_of_mem hx
    simp only [List.append_assoc, List.cons_append] at h h' ⊢
    rw [h.flanked_eq, h'.flanked_eq]
    cases ys <;> simp [hl, hj]
  · rcases List.mem_cons.1 hx with hx | hx
    · obtain rfl : x = m.operator.joined l.1 r.1 := congrArg Prod.fst hx
      cases hop
    · obtain ⟨xs, ys, rfl⟩ := List.append_of_mem hx
      have hs : before ++ l :: (e, m.index) :: r :: (xs ++ (x, n.index) :: ys) =
          (before ++ l :: (e, m.index) :: r :: xs) ++ (x, n.index) :: ys := by simp
      have hs' : before ++ (m.operator.joined l.1 r.1, m.index) :: (xs ++ (x, n.index) :: ys) =
          (before ++ (m.operator.joined l.1 r.1, m.index) :: xs) ++ (x, n.index) :: ys := by simp
      rw [hs] at h ⊢
      rw [hs'] at h' ⊢
      rw [h.flanked_eq, h'.flanked_eq]
      rcases List.eq_nil_or_concat xs with rfl | ⟨zs, z, rfl⟩
      · simp [hr, hj]
      · simp [List.getLast?_append, List.getLast?_cons]

/-- How a run of folds ends, told by the list that it begins with: every marker is flanked, or one
is the first that is not, or one that is flanked, like all before it, grows too deep. -/
inductive Ends (limit : Nat) (items : Splice Entry) (ms : List Marker) :
    Except Fault (Splice Entry) → Prop where
  | folded {out : Splice Entry} : (∀ m ∈ ms, items.flanked m.index = true) →
      Ends limit items ms (.ok out)
  | missing {done later : List Marker} {m : Marker} : ms = done ++ m :: later →
      (∀ n ∈ done, items.flanked n.index = true) → items.flanked m.index = false →
      Ends limit items ms (.error m.missing)
  | tooDeep {done later : List Marker} {m : Marker} : ms = done ++ m :: later →
      (∀ n ∈ done, items.flanked n.index = true) → items.flanked m.index = true →
      (∃ x ∈ items, limit < x.1.depth + ms.length) → Ends limit items ms (.error (m.tooDeep limit))

theorem Waits.fold_cases (limit : Nat) (h : Waits items (m :: ms)) :
    (items.flanked m.index = false ∧ items.fold (Operator.join limit) m = .error m.missing) ∨
      ∃ (before : Splice Entry) (l : Entry × Nat) (e : Entry) (r : Entry × Nat)
          (after : Splice Entry),
        items = before ++ l :: (e, m.index) :: r :: after ∧ e.node = .marker m.operator ∧
        l.1.isOperand = true ∧ r.1.isOperand = true ∧ items.flanked m.index = true ∧
        ((limit < (m.operator.joined l.1 r.1).depth ∧
            items.fold (Operator.join limit) m = .error (m.tooDeep limit)) ∨
          items.fold (Operator.join limit) m = .ok (before ++ (m.operator.joined l.1 r.1, m.index) :: after)) := by
  obtain ⟨before, e, after, rfl, he, hne⟩ := h.split
  rw [fold_append (Operator.join limit) hne, h.flanked_eq]
  rcases List.eq_nil_or_concat before with rfl | ⟨bs, l, rfl⟩
  · exact .inl ⟨rfl, rfl⟩
  · cases after with
    | nil => exact .inl ⟨by simp, by simp [Operator.join, Except.map, Marker.missing]⟩
    | cons r as =>
      cases hl : l.1.isOperand with
      | false =>
        exact .inl ⟨by simp [hl], by simp [Operator.join, hl, Except.map, Marker.missing]⟩
      | true =>
        cases hr : r.1.isOperand with
        | false =>
          exact .inl ⟨by simp [hr], by simp [Operator.join, hr, Except.map, Marker.missing]⟩
        | true =>
          refine .inr ⟨bs, l, e, r, as, by simp, he, hl, hr, by simp [hl, hr], ?_⟩
          by_cases hd : limit < (m.operator.joined l.1 r.1).depth
          · refine .inl ⟨hd, ?_⟩
            rw [Operator.joined_depth] at hd
            simp [Operator.join, hl, hr, hd, Except.map, Marker.tooDeep]
          · refine .inr ?_
            have hj : m.operator.join limit (some l.1) (some r.1) =
                .ok (m.operator.joined l.1 r.1) :=
              Operator.join_eq_ok_iff.2 ⟨_, _, rfl, rfl, hl, hr, Nat.not_lt.1 hd, rfl⟩
            simp [hj, Except.map]

theorem exists_deep_of_joined {x : Entry × Nat} {k : Nat}
    (h : limit < (m.operator.joined l.1 r.1).depth + k) :
    ∃ y ∈ before ++ l :: x :: r :: after, limit < y.1.depth + (k + 1) := by
  rw [Operator.joined_depth] at h
  rcases Nat.le_total l.1.depth r.1.depth with hle | hle
  · exact ⟨r, by simp, by omega⟩
  · exact ⟨l, by simp, by omega⟩

theorem Ends.of_fold {result : Except Fault (Splice Entry)}
    (h : Waits (before ++ l :: (e, m.index) :: r :: after) (m :: ms))
    (he : e.node = .marker m.operator) (hl : l.1.isOperand = true) (hr : r.1.isOperand = true)
    (hm : flanked (before ++ l :: (e, m.index) :: r :: after) m.index = true)
    (hends : Ends limit (before ++ (m.operator.joined l.1 r.1, m.index) :: after) ms result) :
    Ends limit (before ++ l :: (e, m.index) :: r :: after) (m :: ms) result := by
  have same := fun n hn => h.flanked_fold (n := n) he hl hr hn
  cases hends with
  | folded hall => exact .folded (List.forall_mem_cons.2 ⟨hm, fun n hn => same n hn ▸ hall n hn⟩)
  | @missing done later n hms hdone hn =>
    subst hms
    have hsplit : m :: (done ++ n :: later) = m :: done ++ n :: later := rfl
    refine .missing hsplit (List.forall_mem_cons.2 ⟨hm, fun k hk => ?_⟩) ?_
    · rw [← same k (by simp [hk])]
      exact hdone k hk
    · rw [← same n (by simp)]
      exact hn
  | @tooDeep done later n hms hdone hn hx =>
    subst hms
    have hsplit : m :: (done ++ n :: later) = m :: done ++ n :: later := rfl
    refine .tooDeep hsplit (List.forall_mem_cons.2 ⟨hm, fun k hk => ?_⟩) ?_ ?_
    · rw [← same k (by simp [hk])]
      exact hdone k hk
    · rw [← same n (by simp)]
      exact hn
    · obtain ⟨x, hx, hlt⟩ := hx
      rw [List.length_cons]
      simp only [List.mem_append, List.mem_cons] at hx
      rcases hx with hx | rfl | hx
      · exact ⟨x, by simp [hx], by omega⟩
      · exact exists_deep_of_joined hlt
      · exact ⟨x, by simp [hx], by omega⟩

theorem Waits.ends (limit : Nat) (h : Waits items ms) :
    Ends limit items ms (items.foldAll (Operator.join limit) ms) := by
  induction ms generalizing items with
  | nil => exact .folded (by simp)
  | cons m ms ih =>
    have hsplit : m :: ms = [] ++ m :: ms := rfl
    rw [foldAll]
    rcases h.fold_cases limit with ⟨hm, hf⟩ | ⟨before, l, e, r, after, rfl, he, hl, hr, hm, hf⟩
    · rw [hf]
      exact .missing hsplit (by simp) hm
    · rcases hf with ⟨hd, hf⟩ | hf
      · rw [hf]
        refine .tooDeep hsplit (by simp) hm ?_
        rw [List.length_cons]
        exact exists_deep_of_joined (m := m) (by omega)
      · rw [hf]
        exact (ih (h.fold he hl hr)).of_fold h he hl hr hm

theorem any_getLast?_zipIdx (entries : List Entry) (start : Nat) :
    ((entries.zipIdx start).getLast?.any fun x => x.1.isOperand) =
      entries.getLast?.any Entry.isOperand := by
  conv_rhs => rw [← List.zipIdx_map_fst start entries, List.getLast?_map, Option.any_map]

theorem any_head?_zipIdx (entries : List Entry) (start : Nat) :
    ((entries.zipIdx start).head?.any fun x => x.1.isOperand) =
      entries.head?.any Entry.isOperand := by
  conv_rhs => rw [← List.zipIdx_map_fst start entries, List.head?_map, Option.any_map]

/-- Before the first fold a marker is flanked as it is in the list itself. -/
theorem flanked_zipIdx {entries : List Entry} (hm : m ∈ Marker.scan 0 entries) :
    flanked entries.zipIdx m.index = true ↔ m.Flanked entries := by
  obtain ⟨before, e, after, rfl, hlen, -⟩ := Marker.exists_split hm
  have hw := waits_start (before ++ e :: after)
  rw [List.zipIdx_append, List.zipIdx_cons, Nat.zero_add, ← hlen] at hw ⊢
  rw [hw.flanked_eq, any_getLast?_zipIdx, any_head?_zipIdx, Bool.and_eq_true,
    Marker.flanked_append hlen]

end Splice

theorem Marker.eq_or_before {entries : List Entry} {done later : List Marker} {m : Marker}
    (h : ordered entries = done ++ m :: later) (hdone : ∀ n ∈ done, n.Flanked entries) :
    ∀ n ∈ scan 0 entries, ¬ n.Flanked entries → n = m ∨ m.Before n := by
  intro n hn hmis
  have hp := pairwise_ordered entries
  rw [← (ordered_perm entries).mem_iff, h] at hn
  rw [h] at hp
  rcases List.mem_append.1 hn with hn | hn
  · exact absurd (hdone n hn) hmis
  · rcases List.mem_cons.1 hn with rfl | hn
    · exact .inl rfl
    · exact .inr ((List.pairwise_cons.1 (List.pairwise_append.1 hp).2.1).1 n hn)

theorem foldMarkers_cases (limit : Nat) (entries : List Entry) :
    ((∀ m ∈ Marker.scan 0 entries, m.Flanked entries) ∧
        ∃ out, foldMarkers limit entries = .ok out) ∨
      (∃ m : Marker, m.FirstMisplaced entries ∧ foldMarkers limit entries = .error m.missing) ∨
      ∃ m ∈ Marker.scan 0 entries, m.Flanked entries ∧
        (∀ n ∈ Marker.scan 0 entries, ¬ n.Flanked entries → m.Before n) ∧
        foldMarkers limit entries = .error (m.tooDeep limit) ∧
        limit < Entry.deepest entries + (Marker.scan 0 entries).length := by
  have hperm := Marker.ordered_perm entries
  have hscan : ∀ m ∈ Marker.ordered entries, m ∈ Marker.scan 0 entries := fun _ => hperm.mem_iff.1
  have hends := (Splice.waits_start entries).ends limit
  rw [foldMarkers_eq_map]
  generalize Splice.foldAll (Operator.join limit) entries.zipIdx (Marker.ordered entries) =
    result at hends
  cases hends with
  | folded hall =>
    refine .inl ⟨fun m hm => ?_, _, rfl⟩
    exact (Splice.flanked_zipIdx hm).1 (hall m (hperm.mem_iff.2 hm))
  | @missing done later m hms hdone hm =>
    have hmem := hscan m (by simp [hms])
    have hall : ∀ n ∈ done, n.Flanked entries := fun n hn =>
      (Splice.flanked_zipIdx (hscan n (by simp [hms, hn]))).1 (hdone n hn)
    have hmis : ¬ m.Flanked entries := by
      rw [← Splice.flanked_zipIdx hmem, hm]
      simp
    exact .inr (.inl ⟨m, ⟨hmem, hmis, Marker.eq_or_before hms hall⟩, rfl⟩)
  | @tooDeep done later m hms hdone hm hx =>
    have hmem := hscan m (by simp [hms])
    have hall : ∀ n ∈ done, n.Flanked entries := fun n hn =>
      (Splice.flanked_zipIdx (hscan n (by simp [hms, hn]))).1 (hdone n hn)
    have hflank := (Splice.flanked_zipIdx hmem).1 hm
    refine .inr (.inr ⟨m, hmem, hflank, fun n hn hmis => ?_, rfl, ?_⟩)
    · rcases Marker.eq_or_before hms hall n hn hmis with rfl | hb
      · exact absurd hflank hmis
      · exact hb
    · obtain ⟨x, hx, hlt⟩ := hx
      have hle := Entry.depth_le_deepest (List.fst_mem_of_mem_zipIdx hx)
      rw [hperm.length_eq] at hlt
      omega

/-- Folding with room enough fails exactly if a marker of the list itself lacks an operand, and
then at the first such marker in processing order. With less room it may also fail for depth, but
only at a marker that has its operands and comes before all that do not. -/
theorem foldMarkers_misplaced (limit : Nat) (entries : List Entry) :
    (Entry.deepest entries + (Marker.scan 0 entries).length ≤ limit →
      ((∃ out, foldMarkers limit entries = .ok out) ↔
        ∀ m ∈ Marker.scan 0 entries, m.Flanked entries) ∧
      ((∃ m ∈ Marker.scan 0 entries, ¬ m.Flanked entries) →
        ∃ m : Marker, m.FirstMisplaced entries ∧
          foldMarkers limit entries =
            .error ⟨.missingOperand m.operator.symbol, m.operator.position⟩)) ∧
    ∀ f, foldMarkers limit entries = .error f →
      (∃ m : Marker, m.FirstMisplaced entries ∧
        f = ⟨.missingOperand m.operator.symbol, m.operator.position⟩) ∨
      ∃ m ∈ Marker.scan 0 entries, m.Flanked entries ∧
        f = ⟨.tooDeep limit, m.operator.position⟩ ∧
        ∀ n ∈ Marker.scan 0 entries, ¬ n.Flanked entries → m.Before n := by
  rcases foldMarkers_cases limit entries with
    ⟨hall, out, hf⟩ | ⟨m, hm, hf⟩ | ⟨m, hmem, hm, hb, hf, hlt⟩
  · refine ⟨fun _ => ⟨⟨fun _ => hall, fun _ => ⟨out, hf⟩⟩, fun ⟨n, hn, hmis⟩ => ?_⟩, ?_⟩
    · exact absurd (hall n hn) hmis
    · simp [hf]
  · refine ⟨fun _ => ⟨⟨fun ⟨out, h⟩ => ?_, fun h => ?_⟩, fun _ => ⟨m, hm, hf⟩⟩, fun f h => ?_⟩
    · rw [hf] at h
      cases h
    · exact absurd (h m hm.mem) hm.misplaced
    · rw [hf] at h
      cases h
      exact .inl ⟨m, hm, rfl⟩
  · refine ⟨fun hle => absurd hlt (Nat.not_lt.2 hle), fun f h => ?_⟩
    rw [hf] at h
    cases h
    exact .inr ⟨m, hmem, hm, rfl, hb⟩

/-- The list + a * b, whose first marker lacks an operand and has to wait for the second. -/
def bareEntries : List Entry :=
  [⟨.marker ⟨"+", "add", 13, .nowhere⟩, 0⟩, ⟨.identifier "a", 0⟩,
    ⟨.marker ⟨"*", "multiply", 14, .nowhere⟩, 0⟩, ⟨.identifier "b", 0⟩]

theorem foldMarkers_misplaced_bare :
    Entry.deepest bareEntries + (Marker.scan 0 bareEntries).length ≤ 2 ∧
      (∃ m : Marker, m.FirstMisplaced bareEntries ∧ foldMarkers 2 bareEntries =
        .error ⟨.missingOperand m.operator.symbol, m.operator.position⟩) ∧
      ∃ m ∈ Marker.scan 0 bareEntries, m.Flanked bareEntries ∧
        ∀ n ∈ Marker.scan 0 bareEntries, ¬ n.Flanked bareEntries → m.Before n := by
  have hroom : Entry.deepest bareEntries + (Marker.scan 0 bareEntries).length ≤ 2 := by decide
  have hmis : ∃ m ∈ Marker.scan 0 bareEntries, ¬ m.Flanked bareEntries := by decide
  refine ⟨hroom, ((foldMarkers_misplaced 2 bareEntries).1 hroom).2 hmis, ?_⟩
  have hdeep : foldMarkers 0 bareEntries = .error ⟨.tooDeep 0, .nowhere⟩ := rfl
  rcases (foldMarkers_misplaced 0 bareEntries).2 _ hdeep with ⟨m, -, hm⟩ | ⟨m, hmem, hm, -, hb⟩
  · cases hm
  · exact ⟨m, hmem, hm, hb⟩

end TokenForest
