import Mathlib.Data.List.Chain
import TokenForest.Fold.Splice

set_option autoImplicit false

namespace TokenForest

def Operator.joined (op : Operator) (left right : Entry) : Entry :=
  ⟨.binary op left.node right.node, max left.depth right.depth + 1⟩

@[simp] theorem Operator.joined_depth (op : Operator) (left right : Entry) :
    (op.joined left right).depth = max left.depth right.depth + 1 := rfl

theorem Operator.join_eq_ok_iff {op : Operator} {limit : Nat} {left right : Option Entry}
    {e : Entry} :
    op.join limit left right = .ok e ↔ ∃ l r, left = some l ∧ right = some r ∧
      l.isOperand = true ∧ r.isOperand = true ∧ (op.joined l r).depth ≤ limit ∧
      e = op.joined l r := by
  cases left with
  | none => simp [join]
  | some l =>
    cases right with
    | none => simp [join]
    | some r =>
      simp only [join, Bool.and_eq_true]
      split
      · rename_i h
        split
        · rename_i hd
          simp only [reduceCtorEq, Option.some.injEq, false_iff]
          intro h'
          obtain ⟨_, _, rfl, rfl, -, -, hle, -⟩ := h'
          exact Nat.not_le.2 hd hle
        · rename_i hd
          constructor
          · intro h'
            cases h'
            exact ⟨l, r, rfl, rfl, h.1, h.2, Nat.not_lt.1 hd, rfl⟩
          · intro h'
            obtain ⟨_, _, ⟨⟩, ⟨⟩, -, -, -, rfl⟩ := h'
            rfl
      · rename_i h
        simp only [reduceCtorEq, Option.some.injEq, false_iff]
        intro h'
        obtain ⟨_, _, rfl, rfl, hl, hr, -⟩ := h'
        exact h ⟨hl, hr⟩

theorem Entry.not_isOperand_of_marker {e : Entry} {op : Operator} (h : e.node = .marker op) :
    e.isOperand = false := by
  simp [isOperand, h, Node.isOperand, Node.isMarker, Node.marker?]

theorem Entry.marker?_of_isOperand {e : Entry} (h : e.isOperand = true) :
    e.node.marker? = none := by
  simpa [isOperand, Node.isOperand, Node.isMarker] using h

theorem Node.marker?_eq_some_iff {n : Node} {op : Operator} :
    n.marker? = some op ↔ n = .marker op := by
  cases n <;> simp [marker?]

theorem zipIdx_pairwise {α : Type} (xs : List α) : xs.zipIdx.Pairwise fun x y => x.2 < y.2 := by
  have h : (List.range' 0 xs.length).Pairwise (· < ·) := List.pairwise_lt_range'
  rw [← List.zipIdx_map_snd 0 xs] at h
  exact List.pairwise_map.1 h

namespace Splice

def waiting (items : Splice Entry) : List Marker :=
  items.filterMap fun x => x.1.node.marker?.map (Marker.mk x.2)

theorem waiting_append (xs ys : Splice Entry) : waiting (xs ++ ys) = waiting xs ++ waiting ys :=
  List.filterMap_append

theorem waiting_cons_operand {e : Entry} (i : Nat) (xs : Splice Entry) (h : e.isOperand = true) :
    waiting ((e, i) :: xs) = waiting xs := by
  simp [waiting, Entry.marker?_of_isOperand h]

theorem waiting_cons_marker {e : Entry} {op : Operator} (i : Nat) (xs : Splice Entry)
    (h : e.node = .marker op) : waiting ((e, i) :: xs) = ⟨i, op⟩ :: waiting xs := by
  simp [waiting, h, Node.marker?]

theorem mem_waiting {items : Splice Entry} {m : Marker} :
    m ∈ items.waiting ↔ ∃ e, (e, m.index) ∈ items ∧ e.node = .marker m.operator := by
  simp only [waiting, List.mem_filterMap, Option.map_eq_some_iff, Node.marker?_eq_some_iff]
  constructor
  · intro h
    obtain ⟨⟨e, i⟩, he, op, hop, rfl⟩ := h
    exact ⟨e, he, hop⟩
  · intro h
    obtain ⟨e, he, hop⟩ := h
    exact ⟨(e, m.index), he, m.operator, hop, rfl⟩

theorem scan_eq_waiting (start : Nat) (entries : List Entry) :
    Marker.scan start entries = waiting (entries.zipIdx start) := by
  induction entries generalizing start with
  | nil => rfl
  | cons e es ih =>
    rw [List.zipIdx_cons, Marker.scan, ih]
    cases h : e.node.marker? <;> simp [waiting, h]

theorem around_append {α : Type} {before after : Splice α} {e : α} {i : Nat}
    (h : ∀ x ∈ before, x.2 ≠ i) :
    around (before ++ (e, i) :: after) i = (before, after) := by
  have hb : ∀ x ∈ before, (x.2 != i) = true := by simpa using h
  simp [around, List.takeWhile_append_of_pos hb, List.dropWhile_append_of_pos hb]

theorem fold_append {α ε : Type} {before after : Splice α} {e : α} {m : Marker}
    (join : Joining ε α) (h : ∀ x ∈ before, x.2 ≠ m.index) :
    fold join (before ++ (e, m.index) :: after) m =
      (join m.operator (before.getLast?.map Prod.fst) (after.head?.map Prod.fst)).map
        fun x => before.dropLast ++ (x, m.index) :: after.drop 1 := by
  simp [fold, around_append h]

section Standing

variable {α β ε : Type} {operand : α → Prop}

def Joins (join : Joining ε α) (operand : α → Prop) : Prop :=
  ∀ ⦃op : Operator⦄ ⦃left right : Option α⦄ ⦃e : α⦄, join op left right = .ok e →
    ∃ l r, left = some l ∧ right = some r ∧ operand l ∧ operand r

/-- Each of the markers stands in the list at its place, where no operand is. -/
structure Stands (operand : α → Prop) (items : Splice α) (ms : List Marker) : Prop where
  sorted : items.Pairwise fun x y => x.2 < y.2
  there : ∀ m ∈ ms, ∃ e, (e, m.index) ∈ items ∧ ¬ operand e
  apart : ms.Pairwise fun m n => m.index ≠ n.index

variable {items before after : Splice α} {m : Marker} {ms : List Marker} {l r : α × Nat} {e : α}

theorem Stands.split (h : Stands operand items (m :: ms)) :
    ∃ before e after, items = before ++ (e, m.index) :: after ∧ ∀ x ∈ before, x.2 ≠ m.index := by
  obtain ⟨e, he, -⟩ := h.there m List.mem_cons_self
  obtain ⟨before, after, rfl⟩ := List.append_of_mem he
  refine ⟨before, e, after, rfl, fun x hx => ?_⟩
  have hlt := (List.pairwise_append.1 h.sorted).2.2 x hx _ List.mem_cons_self
  exact Nat.ne_of_lt hlt

theorem pairwise_fold (x : α)
    (h : (before ++ l :: (e, m.index) :: r :: after).Pairwise fun x y => x.2 < y.2) :
    (before ++ (x, m.index) :: after).Pairwise fun x y => x.2 < y.2 := by
  simp only [List.pairwise_append, List.pairwise_cons, List.mem_cons] at h ⊢
  obtain ⟨hb, ⟨-, ⟨hm, -, ha⟩⟩, hx⟩ := h
  refine ⟨hb, ⟨fun y hy => hm y (.inr hy), ha⟩, fun x hx' y hy => ?_⟩
  rcases hy with rfl | hy
  · exact hx x hx' (e, m.index) (.inr (.inl rfl))
  · exact hx x hx' y (.inr (.inr (.inr hy)))

/-- The markers that are left are none of the three entries that were joined. -/
theorem Stands.fold (x : α) (h : Stands operand (before ++ l :: (e, m.index) :: r :: after) (m :: ms))
    (hl : operand l.1) (hr : operand r.1) :
    Stands operand (before ++ (x, m.index) :: after) ms where
  sorted := pairwise_fold x h.sorted
  there n hn := by
    obtain ⟨hne, -⟩ := List.pairwise_cons.1 h.apart
    obtain ⟨a, ha, hop⟩ := h.there n (List.mem_cons_of_mem _ hn)
    refine ⟨a, ?_, hop⟩
    simp only [List.mem_append, List.mem_cons] at ha ⊢
    rcases ha with ha | rfl | ha | rfl | ha
    · exact .inl ha
    · exact absurd hl hop
    · exact absurd (congrArg Prod.snd ha).symm (hne n hn)
    · exact absurd hr hop
    · exact .inr (.inr ha)
  apart := (List.pairwise_cons.1 h.apart).2

theorem Stands.of_fold {join : Joining ε α} {items' : Splice α} (hj : Joins join operand)
    (h : Stands operand items (m :: ms)) (hf : items.fold join m = .ok items') :
    Stands operand items' ms := by
  obtain ⟨before, e, after, rfl, hne⟩ := h.split
  rw [fold_append join hne] at hf
  cases hx : join m.operator (before.getLast?.map Prod.fst) (after.head?.map Prod.fst) with
  | error f => simp [hx, Except.map] at hf
  | ok x =>
    rw [hx] at hf
    obtain rfl := Except.ok.inj hf
    obtain ⟨_, _, hl, hr, hlo, hro⟩ := hj hx
    obtain ⟨l, hbl, rfl⟩ := Option.map_eq_some_iff.1 hl
    obtain ⟨r, har, rfl⟩ := Option.map_eq_some_iff.1 hr
    obtain ⟨before, rfl⟩ := List.getLast?_eq_some_iff.1 hbl
    obtain ⟨after, rfl⟩ := List.head?_eq_some_iff.1 har
    rw [List.append_assoc, List.singleton_append] at h
    simpa using h.fold x hlo hro

theorem Stands.of_map {φ : β → α} {items : Splice β}
    (h : Stands operand (items.map (Prod.map φ id)) ms) :
    Stands (fun e => operand (φ e)) items ms where
  sorted := by simpa [List.pairwise_map] using h.sorted
  there m hm := by
    obtain ⟨a, ha, hop⟩ := h.there m hm
    obtain ⟨⟨b, i⟩, hb, heq⟩ := List.mem_map.1 ha
    cases heq
    exact ⟨b, hb, hop⟩
  apart := h.apart

end Standing

/-- A list whose markers are still to be folded in the given order. -/
structure Waits (items : Splice Entry) (ms : List Marker) : Prop where
  sorted : items.Pairwise fun x y => x.2 < y.2
  perm : ms.Perm items.waiting
  before : ms.Pairwise Marker.Before

theorem waits_start (entries : List Entry) :
    Waits entries.zipIdx (Marker.ordered entries) where
  sorted := zipIdx_pairwise entries
  perm := by
    rw [← scan_eq_waiting]
    exact Marker.ordered_perm entries
  before := Marker.pairwise_ordered entries

theorem Waits.stands {items : Splice Entry} {ms : List Marker} (h : Waits items ms) :
    Stands (fun e => e.isOperand = true) items ms where
  sorted := h.sorted
  there m hm := by
    obtain ⟨e, he, hop⟩ := mem_waiting.1 (h.perm.mem_iff.1 hm)
    exact ⟨e, he, by simp [Entry.not_isOperand_of_marker hop]⟩
  apart := by
    have hlt : items.waiting.Pairwise fun m n => m.index < n.index := by
      refine h.sorted.filterMap _ fun x y hxy m hm n hn => ?_
      obtain ⟨_, -, rfl⟩ := Option.map_eq_some_iff.1 hm
      obtain ⟨_, -, rfl⟩ := Option.map_eq_some_iff.1 hn
      exact hxy
    exact (h.perm.pairwise_iff fun hne => hne.symm).2 (hlt.imp Nat.ne_of_lt)

theorem Waits.split {items : Splice Entry} {m : Marker} {ms : List Marker} (h : Waits items (m :: ms)) :
    ∃ before e after, items = before ++ (e, m.index) :: after ∧ e.node = .marker m.operator ∧
      ∀ x ∈ before, x.2 ≠ m.index := by
  obtain ⟨e, he, hop⟩ := mem_waiting.1 (h.perm.mem_iff.1 List.mem_cons_self)
  obtain ⟨before, after, rfl⟩ := List.append_of_mem he
  refine ⟨before, e, after, rfl, hop, fun x hx => ?_⟩
  have := (List.pairwise_append.1 h.sorted).2.2 x hx _ List.mem_cons_self
  exact Nat.ne_of_lt this

theorem Waits.fold_eq_ok {items items' : Splice Entry} {m : Marker} {ms : List Marker} {limit : Nat}
    (h : Waits items (m :: ms)) (hf : items.fold (Operator.join limit) m = .ok items') :
    ∃ before l e r after, items = before ++ l :: (e, m.index) :: r :: after ∧
      e.node = .marker m.operator ∧ l.1.isOperand = true ∧ r.1.isOperand = true ∧
      (m.operator.joined l.1 r.1).depth ≤ limit ∧
      items' = before ++ (m.operator.joined l.1 r.1, m.index) :: after := by
  obtain ⟨before, e, after, rfl, hop, hne⟩ := h.split
  rw [fold_append (Operator.join limit) hne] at hf
  cases hj : m.operator.join limit (before.getLast?.map Prod.fst) (after.head?.map Prod.fst) with
  | error f => simp [hj, Except.map] at hf
  | ok x =>
    rw [hj] at hf
    obtain rfl := Except.ok.inj hf
    obtain ⟨le, re, hl, hr, hlo, hro, hd, rfl⟩ := Operator.join_eq_ok_iff.1 hj
    obtain ⟨l, hbl, rfl⟩ := Option.map_eq_some_iff.1 hl
    obtain ⟨r, har, rfl⟩ := Option.map_eq_some_iff.1 hr
    obtain ⟨before, rfl⟩ := List.getLast?_eq_some_iff.1 hbl
    obtain ⟨after, rfl⟩ := List.head?_eq_some_iff.1 har
    exact ⟨before, l, e, r, after, by simp, hop, hlo, hro, hd, by simp⟩

theorem Waits.fold_between {before after : Splice Entry} {l r : Entry × Nat} {e : Entry} {m : Marker}
    {ms : List Marker} {limit : Nat}
    (h : Waits (before ++ l :: (e, m.index) :: r :: after) (m :: ms))
    (hl : l.1.isOperand = true) (hr : r.1.isOperand = true)
    (hd : (m.operator.joined l.1 r.1).depth ≤ limit) :
    fold (Operator.join limit) (before ++ l :: (e, m.index) :: r :: after) m =
      .ok (before ++ (m.operator.joined l.1 r.1, m.index) :: after) := by
  have hs : before ++ l :: (e, m.index) :: r :: after =
      (before ++ [l]) ++ (e, m.index) :: r :: after := by simp
  have hne : ∀ x ∈ before ++ [l], x.2 ≠ m.index := fun x hx => by
    have hp := h.sorted
    rw [hs] at hp
    exact Nat.ne_of_lt ((List.pairwise_append.1 hp).2.2 x hx _ List.mem_cons_self)
  have hj : m.operator.join limit (some l.1) (some r.1) = .ok (m.operator.joined l.1 r.1) :=
    Operator.join_eq_ok_iff.2 ⟨_, _, rfl, rfl, hl, hr, hd, rfl⟩
  rw [hs, fold_append (Operator.join limit) hne]
  simp [hj, Except.map]

/-- Folding a marker takes it, and it alone, off the markers that wait. -/
theorem Waits.fold {before after : Splice Entry} {l r : Entry × Nat} {e : Entry} {m : Marker}
    {ms : List Marker} (h : Waits (before ++ l :: (e, m.index) :: r :: after) (m :: ms))
    (he : e.node = .marker m.operator) (hl : l.1.isOperand = true) (hr : r.1.isOperand = true) :
    Waits (before ++ (m.operator.joined l.1 r.1, m.index) :: after) ms where
  sorted := pairwise_fold _ h.sorted
  perm := by
    have hj : (m.operator.joined l.1 r.1).isOperand = true := rfl
    have hp := h.perm
    rw [waiting_append, waiting_cons_operand _ _ hl, waiting_cons_marker _ _ he,
      waiting_cons_operand _ _ hr] at hp
    rw [waiting_append, waiting_cons_operand _ _ hj]
    exact (hp.trans List.perm_middle).cons_inv
  before := (List.pairwise_cons.1 h.before).2

theorem foldAll_keeps {P : Splice Entry → List Marker → Prop} {limit : Nat}
    (step : ∀ {before after : Splice Entry} {l r : Entry × Nat} {e : Entry} {m : Marker}
      {ms : List Marker},
      Waits (before ++ l :: (e, m.index) :: r :: after) (m :: ms) → e.node = .marker m.operator →
      l.1.isOperand = true → r.1.isOperand = true → (m.operator.joined l.1 r.1).depth ≤ limit →
      P (before ++ l :: (e, m.index) :: r :: after) (m :: ms) →
      P (before ++ (m.operator.joined l.1 r.1, m.index) :: after) ms)
    {items out : Splice Entry} {ms : List Marker} (hw : Waits items ms) (hp : P items ms)
    (h : items.foldAll (Operator.join limit) ms = .ok out) : Waits out [] ∧ P out [] := by
  induction ms generalizing items with
  | nil =>
    obtain rfl : items = out := by simpa [foldAll] using h
    exact ⟨hw, hp⟩
  | cons m ms ih =>
    cases hf : items.fold (Operator.join limit) m with
    | error f => simp [foldAll, hf] at h
    | ok items' =>
      have h' : items'.foldAll (Operator.join limit) ms = .ok out := by simpa [foldAll, hf] using h
      obtain ⟨before, l, e, r, after, rfl, he, hl, hr, hd, rfl⟩ := hw.fold_eq_ok hf
      exact ih (hw.fold he hl hr) (step hw he hl hr hd hp) h'

theorem Waits.isOperand_of_nil {items : Splice Entry} (h : Waits items []) :
    ∀ x ∈ items, x.1.isOperand = true := by
  intro x hx
  rw [Entry.isOperand, Node.isOperand_iff]
  intro op hop
  have hm : (⟨x.2, op⟩ : Marker) ∈ items.waiting := mem_waiting.2 ⟨x.1, hx, hop⟩
  rw [← h.perm.mem_iff] at hm
  cases hm

end Splice

end TokenForest
