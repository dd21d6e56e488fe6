import TokenForest.Fold.Plain
import TokenForest.Proofs.Linking

set_option autoImplicit false

namespace TokenForest

namespace Marker

theorem insert_append {m : Marker} {before after : List Marker}
    (hb : ∀ n ∈ before, m.operator.precedence < n.operator.precedence)
    (ha : ∀ n ∈ after.head?, n.operator.precedence ≤ m.operator.precedence) :
    m.insert (before ++ after) = before ++ m :: after := by
  induction before with
  | nil =>
    cases after with
    | nil => rfl
    | cons n ns =>
      have hn := ha n rfl
      rw [List.nil_append, insert, if_neg (by omega), List.nil_append]
  | cons n ns ih =>
    obtain ⟨hn, hns⟩ := List.forall_mem_cons.1 hb
    rw [List.cons_append, insert, if_pos hn, ih hns, List.cons_append]

theorem sort_eq_mergeSort (ms : List Marker) :
    sort ms = ms.mergeSort fun m n => n.operator.precedence ≤ m.operator.precedence := by
  have htrans (l m n : Marker) :
      decide (m.operator.precedence ≤ l.operator.precedence) = true →
      decide (n.operator.precedence ≤ m.operator.precedence) = true →
        decide (n.operator.precedence ≤ l.operator.precedence) = true := by
    simp only [decide_eq_true_eq]
    omega
  have htotal (m n : Marker) : (decide (n.operator.precedence ≤ m.operator.precedence) ||
      decide (m.operator.precedence ≤ n.operator.precedence)) = true := by
    simp only [Bool.or_eq_true, decide_eq_true_eq]
    omega
  induction ms with
  | nil => rw [List.mergeSort_nil]; rfl
  | cons m ms ih =>
    obtain ⟨before, after, hsorted, hrest, hbefore⟩ := List.mergeSort_cons htrans htotal m ms
    have hpair := List.pairwise_mergeSort htrans htotal (m :: ms)
    rw [hsorted] at hpair ⊢
    have hafter := (List.pairwise_cons.1 (List.pairwise_append.1 hpair).2.1).1
    rw [show sort (m :: ms) = m.insert (sort ms) from rfl, ih, hrest]
    refine insert_append (fun n hn => ?_) fun n hn => ?_
    · have hlt := hbefore n hn
      simp only [Bool.not_eq_true', decide_eq_false_iff_not] at hlt
      omega
    · exact of_decide_eq_true (hafter n (List.mem_of_mem_head? hn))

end Marker

theorem mapError_map {ε ε' α β : Type} (x : Except ε α) (f : α → β) (g : ε → ε') :
    (x.map f).mapError g = (x.mapError g).map f := by
  cases x <;> rfl

namespace Tracked

variable {w : Nat} {overflow : Overflow} {limit : BitVec w}

theorem zipIdx_map_entry (entries : List (Tracked w)) :
    (entries.map entry).zipIdx = entries.zipIdx.map (Prod.map entry id) :=
  (List.zipIdx_map ..)

theorem inTurn_eq (entries : List (Tracked w)) :
    inTurn entries = Marker.ordered (entries.map entry) := by
  have hscan : Marker.scan 0 (entries.map entry) = markers entries := by
    rw [Splice.scan_eq_waiting, zipIdx_map_entry, Splice.waiting, List.filterMap_map]
    rfl
  rw [inTurn, Marker.ordered, hscan, Marker.sort_eq_mergeSort]

theorem joins_join : Splice.Joins (join overflow limit) fun t => t.node.isOperand = true := by
  intro op left right t h
  unfold join at h
  split at h
  · rename_i l r
    split at h
    · rename_i ho
      rw [Bool.and_eq_true] at ho
      exact ⟨l, r, rfl, rfl, ho⟩
    · cases h
  · cases h

theorem stands_start (entries : List (Tracked w)) :
    Splice.Stands (fun t => t.node.isOperand = true) entries.zipIdx
      (Marker.ordered (entries.map entry)) := by
  have hstands := (Splice.waits_start (entries.map entry)).stands
  rw [zipIdx_map_entry] at hstands
  exact hstands.of_map

section Places

variable {before after : Splice (Tracked w)} {t : Tracked w} {m : Marker}

theorem findIdx_append (h : ∀ x ∈ before, x.2 ≠ m.index) :
    (before ++ (t, m.index) :: after).findIdx (fun x => x.2 == m.index) = before.length := by
  rw [List.findIdx_append, List.findIdx_eq_length_of_false (by simpa using h),
    if_neg (Nat.lt_irrefl _), List.findIdx_cons]
  simp

theorem getElem?_left :
    (if before.length = 0 then none
      else (before ++ (t, m.index) :: after)[before.length - 1]?) = before.getLast? := by
  rcases List.eq_nil_or_concat before with rfl | ⟨xs, x, rfl⟩
  · rfl
  · simp

theorem getElem?_right :
    (before ++ (t, m.index) :: after)[before.length + 1]? = after.head? := by
  rw [List.getElem?_append_right (by omega)]
  simp [List.head?_eq_getElem?]

theorem take_drop :
    (before ++ (t, m.index) :: after).take (before.length - 1) = before.dropLast ∧
      (before ++ (t, m.index) :: after).drop (before.length + 2) = after.drop 1 := by
  constructor
  · rw [List.take_append_of_le_length (by omega), List.dropLast_eq_take]
  · rw [List.drop_append]
    simp

/-- The neighbours in the list are the last of the entries before the marker and the first of
those after it. -/
theorem splice_append (h : ∀ x ∈ before, x.2 ≠ m.index) :
    splice overflow limit (before ++ (t, m.index) :: after) m =
      Splice.fold (join overflow limit) (before ++ (t, m.index) :: after) m := by
  rw [Splice.fold_append _ h, splice]
  simp only [findIdx_append h, getElem?_left, getElem?_right, take_drop]
  cases before.getLast? with
  | none => rfl
  | some l =>
    cases after.head? with
    | none => rfl
    | some r =>
      have hmax : (if r.1.depth < l.1.depth then l.1.depth else r.1.depth) =
          if l.1.depth ≤ r.1.depth then r.1.depth else l.1.depth := by
        simp only [← BitVec.not_lt, ite_not]
      simp only [Option.map_some, join, Node.isOperand, hmax, ← Bool.not_or]
      cases l.1.node.isMarker || r.1.node.isMarker with
      | true => rfl
      | false =>
        cases overflow.next? (if l.1.depth ≤ r.1.depth then r.1.depth else l.1.depth) with
        | none => rfl
        | some depth =>
          by_cases hd : depth ≤ limit
          · simp [hd, BitVec.not_lt.2 hd, Except.map]
          · simp [hd, BitVec.not_le.1 hd, Except.map]

end Places

theorem foldlM_splice {items : Splice (Tracked w)} {ms : List Marker}
    (h : Splice.Stands (fun t => t.node.isOperand = true) items ms) :
    ms.foldlM (splice overflow limit) items = items.foldAll (join overflow limit) ms := by
  induction ms generalizing items with
  | nil => rfl
  | cons m ms ih =>
    obtain ⟨before, t, after, hitems, hne⟩ := h.split
    have hstep : splice overflow limit items m = items.fold (join overflow limit) m := by
      rw [hitems]
      exact splice_append hne
    rw [List.foldlM_cons, hstep, Splice.foldAll]
    cases hf : items.fold (join overflow limit) m with
    | error halt => rfl
    | ok items' => exact ih (h.of_fold joins_join hf)

theorem next?_eq (overflow : Overflow) {d : BitVec w} (h : d ≠ .allOnes w) :
    ∃ d', overflow.next? d = some d' ∧ d'.toNat = d.toNat + 1 := by
  refine ⟨d + 1, ?_, ?_⟩
  · cases overflow with
    | wraps => rfl
    | stops => exact if_neg h
  · have hlt : d.toNat ≠ (BitVec.allOnes w).toNat := fun he => h (BitVec.eq_of_toNat_eq he)
    have hd := d.isLt
    cases w with
    | zero => exact absurd (Subsingleton.elim _ _) h
    | succ w =>
      have hone : (1 : BitVec (w + 1)).toNat = 1 := by simp
      rw [BitVec.toNat_allOnes] at hlt
      rw [BitVec.toNat_add, hone]
      exact Nat.mod_eq_of_lt (by omega)

theorem join_entry (overflow : Overflow) (limit : BitVec w) (op : Operator)
    {left right : Option (Tracked w)} (hleft : ∀ l ∈ left, l.depth ≠ .allOnes w)
    (hright : ∀ r ∈ right, r.depth ≠ .allOnes w) :
    (op.join limit.toNat (left.map entry) (right.map entry)).mapError .fault =
      (join overflow limit op left right).map entry := by
  cases left with
  | none => rfl
  | some l =>
    cases right with
    | none => rfl
    | some r =>
      have hmax : (if l.depth ≤ r.depth then r.depth else l.depth) ≠ .allOnes w := by
        split
        · exact hright r rfl
        · exact hleft l rfl
      obtain ⟨d, hd, hnat⟩ := next?_eq overflow hmax
      have hdepth : d.toNat = max l.depth.toNat r.depth.toNat + 1 := by
        rw [hnat]
        split
        · rename_i h
          rw [Nat.max_eq_right h]
        · rename_i h
          rw [Nat.max_eq_left (Nat.le_of_lt (BitVec.not_le.1 h))]
      have hlt : limit < d ↔ limit.toNat < max l.depth.toNat r.depth.toNat + 1 := by
        rw [← hdepth]
        exact BitVec.lt_def
      simp only [Operator.join, join, Option.map_some, entry, Entry.isOperand, hd, hlt]
      split
      · split
        · rfl
        · rw [← hdepth]
          rfl
      · rfl

/-- A limit that is not the last word keeps new depths from it. -/
theorem depth_of_join (hl : limit ≠ .allOnes w) {op : Operator} {left right : Option (Tracked w)}
    {t : Tracked w} (h : join overflow limit op left right = .ok t) : t.depth ≠ .allOnes w := by
  rintro hlast
  unfold join at h
  split at h
  · split at h
    · split at h
      · cases h
      · split at h
        · cases h
        · rename_i hle
          cases h
          obtain rfl := hlast
          exact hl (BitVec.allOnes_le_iff.1 (BitVec.not_lt.1 hle))
    · cases h
  · cases h

variable {items : Splice (Tracked w)}

def Bounded (items : Splice (Tracked w)) : Prop := ∀ x ∈ items, x.1.depth ≠ .allOnes w

theorem Bounded.around (h : Bounded items) (index : Nat) :
    Bounded (items.around index).1 ∧ Bounded (items.around index).2 :=
  ⟨fun x hx => h x ((List.takeWhile_sublist _).subset hx),
    fun x hx => h x ((List.dropWhile_sublist _).subset (List.mem_of_mem_drop hx))⟩

theorem Bounded.of_getLast? (h : Bounded items) :
    ∀ t ∈ items.getLast?.map Prod.fst, t.depth ≠ .allOnes w := by
  intro t ht
  obtain ⟨x, hx, rfl⟩ := Option.map_eq_some_iff.1 ht
  exact h x (List.mem_of_getLast? hx)

theorem Bounded.of_head? (h : Bounded items) :
    ∀ t ∈ items.head?.map Prod.fst, t.depth ≠ .allOnes w := by
  intro t ht
  obtain ⟨x, hx, rfl⟩ := Option.map_eq_some_iff.1 ht
  exact h x (List.mem_of_head? hx)

theorem Bounded.fold {items' : Splice (Tracked w)} {m : Marker} (hl : limit ≠ .allOnes w)
    (h : Bounded items) (hf : items.fold (join overflow limit) m = .ok items') :
    Bounded items' := by
  obtain ⟨hbefore, hafter⟩ := h.around m.index
  unfold Splice.fold at hf
  simp only at hf
  cases hj : join overflow limit m.operator ((items.around m.index).1.getLast?.map Prod.fst)
      ((items.around m.index).2.head?.map Prod.fst) with
  | error halt => simp [hj, Except.map] at hf
  | ok t =>
    rw [hj] at hf
    obtain rfl := Except.ok.inj hf
    intro x hx
    simp only [List.mem_append, List.mem_cons] at hx
    rcases hx with hx | rfl | hx
    · exact hbefore x ((List.dropLast_sublist _).subset hx)
    · exact depth_of_join hl hj
    · exact hafter x (List.mem_of_mem_drop hx)

def numbered (items : Splice (Tracked w)) : Splice Entry := items.map (Prod.map entry id)

theorem around_numbered (items : Splice (Tracked w)) (index : Nat) :
    Splice.around (numbered items) index =
      (numbered (items.around index).1, numbered (items.around index).2) := by
  simp [numbered, Splice.around, List.takeWhile_map, List.dropWhile_map, Function.comp_def]

theorem fold_numbered (overflow : Overflow) (limit : BitVec w) (h : Bounded items) (m : Marker) :
    (Splice.fold (Operator.join limit.toNat) (numbered items) m).mapError .fault =
      (items.fold (join overflow limit) m).map numbered := by
  obtain ⟨hbefore, hafter⟩ := h.around m.index
  unfold Splice.fold
  rw [around_numbered]
  generalize items.around m.index = parts at hbefore hafter ⊢
  obtain ⟨before, after⟩ := parts
  have hlast : (numbered before).getLast?.map Prod.fst =
      (before.getLast?.map Prod.fst).map entry := by
    simp [numbered, Function.comp_def]
  have hhead : (numbered after).head?.map Prod.fst = (after.head?.map Prod.fst).map entry := by
    simp [numbered, Function.comp_def]
  have hjoin := join_entry overflow limit m.operator hbefore.of_getLast? hafter.of_head?
  simp only [hlast, hhead, mapError_map, hjoin]
  cases join overflow limit m.operator (before.getLast?.map Prod.fst)
      (after.head?.map Prod.fst) with
  | error halt => rfl
  | ok t => simp [Except.map, numbered, List.map_dropLast, entry]

theorem foldAll_numbered (overflow : Overflow) (hl : limit ≠ .allOnes w) (h : Bounded items)
    (ms : List Marker) :
    (Splice.foldAll (Operator.join limit.toNat) (numbered items) ms).mapError .fault =
      (items.foldAll (join overflow limit) ms).map numbered := by
  induction ms generalizing items with
  | nil => rfl
  | cons m ms ih =>
    have hstep := fold_numbered overflow limit h m
    rw [Splice.foldAll, Splice.foldAll]
    cases hf : items.fold (join overflow limit) m with
    | error halt =>
      rw [hf] at hstep
      cases hn : Splice.fold (Operator.join limit.toNat) (numbered items) m with
      | error f => rwa [hn] at hstep
      | ok out => simp [hn, Except.map, Except.mapError] at hstep
    | ok items' =>
      rw [hf] at hstep
      cases hn : Splice.fold (Operator.join limit.toNat) (numbered items) m with
      | error f => simp [hn, Except.map, Except.mapError] at hstep
      | ok out =>
        rw [hn] at hstep
        obtain rfl := Except.ok.inj hstep
        exact ih (h.fold hl hf)

end Tracked

/-- Folding by links gives the same as the plain way, whatever the machine does with a depth that
does not fit into a word. Where no depth and no limit is the last word none comes up, and the
outcome is that of folding with plain numbers. -/
theorem foldWords_eq_spliceWords {w : Nat} (overflow : Overflow) (limit : BitVec w)
    (entries : List (Tracked w)) :
    foldWords overflow limit entries = spliceWords overflow limit entries ∧
      (limit ≠ .allOnes w → (∀ t ∈ entries, t.depth ≠ .allOnes w) →
        (foldWords overflow limit entries).map (fun out => out.map Tracked.entry) =
          (foldMarkers limit.toNat (entries.map Tracked.entry)).mapError .fault) := by
  have hwords : foldWords overflow limit entries =
      (Splice.foldAll (Tracked.join overflow limit) entries.zipIdx
        (Marker.ordered (entries.map Tracked.entry))).map fun items => items.map Prod.fst :=
    (Links.threads_start entries).foldAll Tracked.joins_join (Tracked.stands_start entries)
  constructor
  · rw [hwords, spliceWords, Tracked.inTurn_eq,
      Tracked.foldlM_splice (Tracked.stands_start entries)]
  · intro hl hdepths
    have hbounded : Tracked.Bounded entries.zipIdx := fun x hx =>
      hdepths x.1 (List.fst_mem_of_mem_zipIdx hx)
    have hnumbers := Tracked.foldAll_numbered overflow hl hbounded
      (Marker.ordered (entries.map Tracked.entry))
    rw [hwords, foldMarkers_eq_map, mapError_map, Tracked.zipIdx_map_entry]
    rw [Tracked.numbered] at hnumbers
    rw [hnumbers]
    cases Splice.foldAll (Tracked.join overflow limit) entries.zipIdx
        (Marker.ordered (entries.map Tracked.entry)) with
    | error halt => rfl
    | ok items => simp [Except.map, Tracked.numbered, Function.comp_def]

def countedEntries : List (Tracked 8) :=
  [⟨.identifier "a", 7⟩, ⟨.marker ⟨"-", "subtract", 13, .nowhere⟩, 0⟩, ⟨.identifier "b", 200⟩,
    ⟨.marker ⟨"*", "multiply", 14, .nowhere⟩, 0⟩, ⟨.identifier "c", 3⟩]

theorem foldWords_eq_spliceWords_counted :
    (250#8 ≠ .allOnes 8 ∧ ∀ t ∈ countedEntries, t.depth ≠ .allOnes 8) ∧
      foldWords .stops 250#8 countedEntries =
        .ok [⟨.binary ⟨"-", "subtract", 13, .nowhere⟩ (.identifier "a")
          (.binary ⟨"*", "multiply", 14, .nowhere⟩ (.identifier "b") (.identifier "c")), 202⟩] ∧
      foldWords .stops 250#8 countedEntries = spliceWords .stops 250#8 countedEntries ∧
      (foldWords .stops 250#8 countedEntries).map (fun out => out.map Tracked.entry) =
        (foldMarkers 250 (countedEntries.map Tracked.entry)).mapError .fault := by
  have hlimit : 250#8 ≠ .allOnes 8 := by decide
  have hdepths : ∀ t ∈ countedEntries, t.depth ≠ .allOnes 8 := by decide
  obtain ⟨hplain, hnumbers⟩ := foldWords_eq_spliceWords .stops 250#8 countedEntries
  exact ⟨⟨hlimit, hdepths⟩, rfl, hplain, hnumbers hlimit hdepths⟩

/-- Past the last word a machine that wraps begins with zero again, and no limit forbids that. -/
example : foldWords .wraps 200#8 (countedEntries.map fun t => ⟨t.node, 255⟩) =
    .ok [⟨.binary ⟨"-", "subtract", 13, .nowhere⟩ (.identifier "a")
      (.binary ⟨"*", "multiply", 14, .nowhere⟩ (.identifier "b") (.identifier "c")), 0⟩] := rfl

end TokenForest
