import Mathlib.Data.List.Forall2
import TokenForest.Proofs.Linking
import TokenForest.Relabel

/-!
What two readings have in common. Their trees are the same up to labels, and their markers come up
in one order, so that folding takes the same turns in both and fails at the same place.
-/

set_option autoImplicit false

namespace TokenForest

/-- What two readings are compared by: the labels that are left out of account, the table of either
reading, the operators that may stand for each other before they are folded, and the places that
may. Operators that stand for each other are in one order. -/
structure Likeness where
  labels : Relabelling
  first : OperatorTable
  second : OperatorTable
  Operators : Operator → Operator → Prop
  Positions : Position → Position → Prop
  label : ∀ {o p : Operator}, Operators o p → labels.operator o = labels.operator p
  position : ∀ {o p : Operator}, Operators o p → Positions o.position p.position
  compare : ∀ {o p o' p' : Operator}, Operators o p → Operators o' p' →
    (o.precedence < o'.precedence ↔ p.precedence < p'.precedence)

namespace Likeness

structure Entries (L : Likeness) (d e : Entry) : Prop where
  node : d.node.relabel L.labels = e.node.relabel L.labels
  depth : d.depth = e.depth
  operator : ∀ o p, d.node = .marker o → e.node = .marker p → L.Operators o p

structure Faults (L : Likeness) (f g : Fault) : Prop where
  cause : f.cause.relabel L.labels = g.cause.relabel L.labels
  position : L.Positions f.position g.position

inductive Outcomes (L : Likeness) {α β : Type} (R : α → β → Prop) :
    Except Fault α → Except Fault β → Prop where
  | ok {x : α} {y : β} : R x y → Outcomes L R (.ok x) (.ok y)
  | error {f g : Fault} : L.Faults f g → Outcomes L R (.error f) (.error g)

variable {L : Likeness}

theorem Outcomes.map {α β γ δ : Type} {R : α → β → Prop} {S : γ → δ → Prop} {g : α → γ}
    {h : β → δ} {x : Except Fault α} {y : Except Fault β} (hx : L.Outcomes R x y)
    (hgh : ∀ a b, R a b → S (g a) (h b)) : L.Outcomes S (x.map g) (y.map h) := by
  cases hx with
  | ok hab => exact .ok (hgh _ _ hab)
  | error hf => exact .error hf

namespace Entries

variable {d e : Entry}

theorem kind_eq (h : L.Entries d e) : d.node.kind = e.node.kind := by
  rw [← Node.kind_relabel d.node, h.node, Node.kind_relabel]

theorem isOperand_eq (h : L.Entries d e) : d.isOperand = e.isOperand := by
  rw [Entry.isOperand, ← Node.isOperand_relabel, h.node, Node.isOperand_relabel, Entry.isOperand]

theorem of_operand (hn : d.node.relabel L.labels = e.node.relabel L.labels)
    (hd : d.depth = e.depth) (ho : d.isOperand = true) : L.Entries d e where
  node := hn
  depth := hd
  operator o p hm := by
    rw [Entry.not_isOperand_of_marker hm] at ho
    cases ho

theorem marker? (h : L.Entries d e) : Option.Rel L.Operators d.node.marker? e.node.marker? := by
  have hmap := congrArg Node.marker? h.node
  simp only [Node.marker?_relabel] at hmap
  cases hd : d.node.marker? with
  | none =>
    rw [hd, Option.map_none] at hmap
    rw [Option.map_eq_none_iff.1 hmap.symm]
    exact .none
  | some o =>
    rw [hd, Option.map_some] at hmap
    obtain ⟨p, hp, -⟩ := Option.map_eq_some_iff.1 hmap.symm
    rw [hp]
    exact .some (h.operator o p (Node.marker?_eq_some_iff.1 hd) (Node.marker?_eq_some_iff.1 hp))

end Entries

section Lists

variable {α β : Type} {R : α → β → Prop} {xs : List α} {ys : List β}

theorem rel_head? (h : List.Forall₂ R xs ys) : Option.Rel R xs.head? ys.head? := by
  cases h with
  | nil => exact .none
  | cons hx _ => exact .some hx

theorem rel_getLast? (h : List.Forall₂ R xs ys) : Option.Rel R xs.getLast? ys.getLast? := by
  rw [List.getLast?_eq_head?_reverse, List.getLast?_eq_head?_reverse]
  exact rel_head? (List.rel_reverse h)

theorem rel_dropLast (h : List.Forall₂ R xs ys) : List.Forall₂ R xs.dropLast ys.dropLast := by
  rw [List.dropLast_eq_take, List.dropLast_eq_take, h.length_eq]
  exact List.forall₂_take _ h

end Lists

section Folding

variable {o p : Operator} {l l' r r' : Option Entry} {m n : Marker} {ms ns : List Marker}
  {es es' : List Entry} {xs ys : Splice Entry} {limit : Nat}

theorem join (ho : L.Operators o p) (hl : Option.Rel L.Entries l l')
    (hr : Option.Rel L.Entries r r') (limit : Nat) :
    L.Outcomes L.Entries (o.join limit l r) (p.join limit l' r') := by
  have missing : L.Faults ⟨.missingOperand o.symbol, o.position⟩
      ⟨.missingOperand p.symbol, p.position⟩ :=
    ⟨by rw [L.labels.symbol_eq (L.label ho)], L.position ho⟩
  cases hl with
  | none => exact .error missing
  | @some left left' hl =>
    cases hr with
    | none => exact .error missing
    | @some right right' hr =>
      simp only [Operator.join, hl.isOperand_eq, hr.isOperand_eq, hl.depth, hr.depth]
      split
      · split
        · exact .error ⟨rfl, L.position ho⟩
        · refine .ok (.of_operand ?_ rfl rfl)
          simp only [Node.relabel, L.label ho, hl.node, hr.node]
      · exact .error missing

def Markers (L : Likeness) (m n : Marker) : Prop :=
  m.index = n.index ∧ L.Operators m.operator n.operator

theorem scan_markers (h : List.Forall₂ L.Entries es es') (start : Nat) :
    List.Forall₂ L.Markers (Marker.scan start es) (Marker.scan start es') := by
  induction h generalizing start with
  | nil => exact .nil
  | @cons d e es es' hd _ ih =>
    have hm := hd.marker?
    rw [Marker.scan, Marker.scan]
    generalize d.node.marker? = x at hm ⊢
    generalize e.node.marker? = y at hm ⊢
    cases hm with
    | none => exact ih _
    | some ho => exact .cons ⟨rfl, ho⟩ (ih _)

theorem insert_markers (hm : L.Markers m n) (h : List.Forall₂ L.Markers ms ns) :
    List.Forall₂ L.Markers (m.insert ms) (n.insert ns) := by
  induction h with
  | nil => exact .cons hm .nil
  | @cons m' n' ms ns hm' h ih =>
    simp only [Marker.insert, L.compare hm.2 hm'.2]
    split
    · exact .cons hm' ih
    · exact .cons hm (.cons hm' h)

theorem sort_markers (h : List.Forall₂ L.Markers ms ns) :
    List.Forall₂ L.Markers (Marker.sort ms) (Marker.sort ns) := by
  induction h with
  | nil => exact .nil
  | cons hm _ ih => exact insert_markers hm ih

def Items (L : Likeness) (x y : Entry × Nat) : Prop := L.Entries x.1 y.1 ∧ x.2 = y.2

theorem zipIdx_items (h : List.Forall₂ L.Entries es es') (start : Nat) :
    List.Forall₂ L.Items (es.zipIdx start) (es'.zipIdx start) := by
  induction h generalizing start with
  | nil => exact .nil
  | cons hd _ ih => exact .cons ⟨hd, rfl⟩ (ih _)

theorem around_items (h : List.Forall₂ L.Items xs ys) (i : Nat) :
    List.Forall₂ L.Items (xs.around i).1 (ys.around i).1 ∧
      List.Forall₂ L.Items (xs.around i).2 (ys.around i).2 := by
  have hcut :
      List.Forall₂ L.Items (xs.takeWhile fun e => e.2 != i) (ys.takeWhile fun e => e.2 != i) ∧
        List.Forall₂ L.Items (xs.dropWhile fun e => e.2 != i)
          (ys.dropWhile fun e => e.2 != i) := by
    induction h with
    | nil => exact ⟨.nil, .nil⟩
    | cons hx h ih =>
      simp only [List.takeWhile_cons, List.dropWhile_cons, hx.2]
      split
      · exact ⟨.cons hx ih.1, ih.2⟩
      · exact ⟨.nil, .cons hx h⟩
  exact ⟨hcut.1, List.forall₂_drop 1 hcut.2⟩

theorem rel_entry {x y : Option (Entry × Nat)} (h : Option.Rel L.Items x y) :
    Option.Rel L.Entries (x.map Prod.fst) (y.map Prod.fst) := by
  cases h with
  | none => exact .none
  | some h => exact .some h.1

theorem fold_items (hm : L.Markers m n) (h : List.Forall₂ L.Items xs ys) (limit : Nat) :
    L.Outcomes (List.Forall₂ L.Items) (xs.fold (Operator.join limit) m) (ys.fold (Operator.join limit) n) := by
  obtain ⟨hi, ho⟩ := hm
  obtain ⟨hbefore, hafter⟩ := around_items h m.index
  simp only [Splice.fold, ← hi]
  have hjoin := join ho (rel_entry (rel_getLast? hbefore)) (rel_entry (rel_head? hafter)) limit
  refine hjoin.map fun d e hd => ?_
  exact List.rel_append (rel_dropLast hbefore) (.cons ⟨hd, rfl⟩ (List.forall₂_drop 1 hafter))

theorem foldAll_items (hm : List.Forall₂ L.Markers ms ns) (h : List.Forall₂ L.Items xs ys)
    (limit : Nat) :
    L.Outcomes (List.Forall₂ L.Items) (xs.foldAll (Operator.join limit) ms) (ys.foldAll (Operator.join limit) ns) := by
  induction hm generalizing xs ys with
  | nil => exact .ok h
  | @cons m n ms ns hmn _ ih =>
    have hfold := fold_items hmn h limit
    rw [Splice.foldAll, Splice.foldAll]
    generalize xs.fold (Operator.join limit) m = x at hfold ⊢
    generalize ys.fold (Operator.join limit) n = y at hfold ⊢
    cases hfold with
    | ok h' => exact ih h'
    | error hf => exact .error hf

theorem foldMarkers_alike (h : List.Forall₂ L.Entries es es') (limit : Nat) :
    L.Outcomes (List.Forall₂ L.Entries) (foldMarkers limit es) (foldMarkers limit es') := by
  rw [foldMarkers_eq_map, foldMarkers_eq_map]
  have hfold := foldAll_items (sort_markers (scan_markers h 0)) (zipIdx_items h 0) limit
  refine hfold.map fun xs ys hxy => ?_
  exact List.rel_map (fun _ _ hx => hx.1) hxy

end Folding

end Likeness

end TokenForest
