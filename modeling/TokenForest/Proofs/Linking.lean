import TokenForest.Fold.Links
import TokenForest.Proofs.Splicing

/-!
Folding with links is folding by splicing. The slots that still hold an entry are at all times a
doubly linked list of the entries that splicing would have left.
-/

set_option autoImplicit false

namespace TokenForest

namespace Links

variable {α ε : Type}

theorem getElem?_update (links : Links α) (at? : Option Nat) (f : Slot α → Slot α) (k : Nat) :
    (links.update at? f)[k]? = if at? = some k then links[k]?.map f else links[k]? := by
  cases at? with
  | none => simp [update]
  | some i => simp [update, Array.getElem?_modify]

def front (items : Splice α) (after : Option Nat) : Option Nat :=
  (items.head?.map Prod.snd).or after

def back (before : Option Nat) (items : Splice α) : Option Nat :=
  (items.getLast?.map Prod.snd).or before

theorem back_cons (before : Option Nat) (x : α × Nat) (xs : Splice α) :
    back before (x :: xs) = back (some x.2) xs := by
  cases xs <;> simp [back, List.getLast?_cons]

@[simp] theorem front_cons (x : α × Nat) (xs : Splice α) (after : Option Nat) :
    front (x :: xs) after = some x.2 := rfl

theorem front_eq_some {items : Splice α} {k : Nat} (h : front items none = some k) :
    ∃ x ∈ items, x.2 = k := by
  obtain ⟨x, hx, hk⟩ := Option.map_eq_some_iff.1 ((Option.or_none).symm.trans h)
  exact ⟨x, List.mem_of_head? hx, hk⟩

theorem back_eq_some {items : Splice α} {k : Nat} (h : back none items = some k) :
    ∃ x ∈ items, x.2 = k := by
  obtain ⟨x, hx, hk⟩ := Option.map_eq_some_iff.1 ((Option.or_none).symm.trans h)
  exact ⟨x, List.mem_of_getLast? hx, hk⟩

/-- Each item is in its slot, and the slot is linked to those of the items beside it. -/
def Chained (links : Links α) : Option Nat → Splice α → Option Nat → Prop
  | _, [], _ => True
  | before, x :: xs, after =>
    links[x.2]? = some ⟨some x.1, before, front xs after⟩ ∧ Chained links (some x.2) xs after

variable {links links' : Links α} {before after : Option Nat} {items xs ys : Splice α}

theorem chained_append :
    Chained links before (xs ++ ys) after ↔
      Chained links before xs (front ys after) ∧ Chained links (back before xs) ys after := by
  induction xs generalizing before with
  | nil => simp [Chained, back]
  | cons x xs ih =>
    have hf : front (xs ++ ys) after = front xs (front ys after) := by
      cases xs <;> simp [front]
    simp only [List.cons_append, Chained, ih, hf, back_cons, and_assoc]

theorem Chained.congr (h : Chained links before xs after)
    (he : ∀ x ∈ xs, links'[x.2]? = links[x.2]?) : Chained links' before xs after := by
  induction xs generalizing before with
  | nil => trivial
  | cons x xs ih =>
    refine ⟨(he x List.mem_cons_self).trans h.1, ih h.2 fun y hy => ?_⟩
    exact he y (List.mem_cons_of_mem _ hy)

theorem Chained.relink_after {next : Option Nat} (h : Chained links before xs after)
    (hs : xs.Pairwise fun x y => x.2 < y.2)
    (he : ∀ x ∈ xs, links'[x.2]? =
      if back none xs = some x.2 then links[x.2]?.map (fun s => { s with after := next })
      else links[x.2]?) :
    Chained links' before xs next := by
  induction xs generalizing before with
  | nil => trivial
  | cons x xs ih =>
    obtain ⟨hx, hxs⟩ := List.pairwise_cons.1 hs
    have h₁ := he x List.mem_cons_self
    cases xs with
    | nil =>
      refine ⟨?_, trivial⟩
      simpa [back, h.1, front] using h₁
    | cons y ys =>
      have hb : back none (x :: y :: ys) = back none (y :: ys) := by
        rw [back_cons, back_cons, back_cons]
      have hne : back none (y :: ys) ≠ some x.2 := by
        simp only [back, List.getLast?_cons, Option.map_some, Option.some_or, ne_eq,
          Option.some.injEq]
        refine Nat.ne_of_gt (hx _ ?_)
        cases hl : ys.getLast? with
        | none => simp
        | some z => exact List.mem_cons_of_mem _ (List.mem_of_getLast? hl)
      rw [hb, if_neg hne, h.1] at h₁
      refine ⟨by simpa [front] using h₁, ih h.2 hxs fun z hz => ?_⟩
      rw [← hb]
      exact he z (List.mem_cons_of_mem _ hz)

theorem Chained.relink_before {last : Option Nat} (h : Chained links before xs after)
    (hs : xs.Pairwise fun x y => x.2 < y.2)
    (he : ∀ x ∈ xs, links'[x.2]? =
      if front xs none = some x.2 then links[x.2]?.map (fun s => { s with before := last })
      else links[x.2]?) :
    Chained links' last xs after := by
  cases xs with
  | nil => trivial
  | cons x xs =>
    obtain ⟨hx, -⟩ := List.pairwise_cons.1 hs
    refine ⟨?_, h.2.congr fun y hy => ?_⟩
    · simpa [front, h.1] using he x List.mem_cons_self
    · have hne : x.2 ≠ y.2 := Nat.ne_of_lt (hx y hy)
      simpa [front, hne] using he y (List.mem_cons_of_mem _ hy)

/-- The slots that hold an entry are linked up as the given list. -/
structure Threads (links : Links α) (items : Splice α) : Prop where
  chained : Chained links none items none
  empty : ∀ (i : Nat) (s : Slot α), links[i]? = some s → (∀ x ∈ items, x.2 ≠ i) → s.entry = none

theorem chained_start (done entries : List α) :
    Chained (ofList (done ++ entries)) (if done.length = 0 then none else some (done.length - 1))
      (entries.zipIdx done.length) none := by
  induction entries generalizing done with
  | nil => trivial
  | cons e es ih =>
    have hs := ih (done ++ [e])
    simp only [List.append_assoc, List.cons_append, List.nil_append, List.length_append,
      List.length_cons, List.length_nil] at hs
    refine ⟨?_, by simpa using hs⟩
    cases es with
    | nil => simp [ofList, front]
    | cons e' es => simp [ofList, front, List.zipIdx_cons]

theorem threads_start (entries : List α) : Threads (ofList entries) entries.zipIdx where
  chained := by simpa using chained_start [] entries
  empty := by
    intro i s hs hi
    have he : entries[i]? ≠ none := by
      intro hn
      simp [ofList, List.getElem?_zipIdx, hn] at hs
    obtain ⟨e, he⟩ := Option.ne_none_iff_exists'.1 he
    exact absurd rfl (hi (e, i) (List.mem_zipIdx_iff_getElem?.2 he))

def held (links : Links α) : Splice α :=
  links.toList.zipIdx.filterMap fun x => x.1.entry.map fun e => (e, x.2)

theorem held_map_fst (links : Links α) : links.held.map Prod.fst = links.live := by
  have h : ∀ x : Slot α × Nat, (x.1.entry.map fun e => (e, x.2)).map Prod.fst = x.1.entry := by
    intro x
    simp [Function.comp_def]
  rw [held, live, List.map_filterMap]
  simp only [h]
  conv_rhs => rw [← List.zipIdx_map_fst 0 links.toList, List.filterMap_map]
  rfl

theorem mem_held {e : α} {i : Nat} :
    (e, i) ∈ links.held ↔ ∃ s, links[i]? = some s ∧ s.entry = some e := by
  simp [held, List.mem_zipIdx_iff_getElem?]

theorem pairwise_held (links : Links α) : links.held.Pairwise fun x y => x.2 < y.2 := by
  refine (zipIdx_pairwise links.toList).filterMap _ fun x y hxy a ha b hb => ?_
  obtain ⟨_, -, rfl⟩ := Option.map_eq_some_iff.1 ha
  obtain ⟨_, -, rfl⟩ := Option.map_eq_some_iff.1 hb
  exact hxy

theorem Chained.slot {x : α × Nat} (h : Chained links before xs after) (hx : x ∈ xs) :
    ∃ s, links[x.2]? = some s ∧ s.entry = some x.1 := by
  induction xs generalizing before with
  | nil => cases hx
  | cons y ys ih =>
    rcases List.mem_cons.1 hx with rfl | hx
    · exact ⟨_, h.1, rfl⟩
    · exact ih h.2 hx

theorem Threads.held_eq (h : Threads links items) (hs : items.Pairwise fun x y => x.2 < y.2) :
    links.held = items := by
  have hlt : ∀ {xs : Splice α}, (xs.Pairwise fun x y => x.2 < y.2) → xs.Nodup := fun hp =>
    hp.imp fun hxy he => by simp [he] at hxy
  have hp := pairwise_held links
  refine List.Perm.eq_of_pairwise (fun x y _ _ hxy hyx => absurd hxy (Nat.lt_asymm hyx)) hp hs
    ((List.perm_ext_iff_of_nodup (hlt hp) (hlt hs)).2 fun x => ?_)
  rw [mem_held]
  constructor
  · intro hx
    obtain ⟨s, hi, he⟩ := hx
    by_cases hslot : ∃ y ∈ items, y.2 = x.2
    · obtain ⟨y, hy, hyx⟩ := hslot
      obtain ⟨t, ht, hte⟩ := h.chained.slot hy
      rw [hyx, hi] at ht
      obtain rfl := Option.some.inj ht
      obtain rfl : y = x := Prod.ext (Option.some.inj (hte.symm.trans he)) hyx
      exact hy
    · have hn := h.empty x.2 s hi fun y hy hyx => hslot ⟨y, hy, hyx⟩
      rw [hn] at he
      cases he
  · exact h.chained.slot

theorem Threads.live (h : Threads links items) (hs : items.Pairwise fun x y => x.2 < y.2) :
    links.live = items.map Prod.fst := by
  rw [← held_map_fst, h.held_eq hs]

theorem Threads.beside {x : α × Nat} (h : Threads links (xs ++ x :: ys)) :
    links.before? (some x.2) = xs.getLast?.map Prod.snd ∧
      links.after? (some x.2) = ys.head?.map Prod.snd ∧
      links.entry? (xs.getLast?.map Prod.snd) = xs.getLast?.map Prod.fst ∧
      links.entry? (ys.head?.map Prod.snd) = ys.head?.map Prod.fst := by
  obtain ⟨hxs, hx, hys⟩ := chained_append.1 h.chained
  have hslot : links.slot? (some x.2) = some ⟨some x.1, back none xs, front ys none⟩ := by
    simpa [slot?] using hx
  refine ⟨by simp [before?, hslot, back], by simp [after?, hslot, front], ?_, ?_⟩
  · cases hl : xs.getLast? with
    | none => simp [ entry?, slot?]
    | some l =>
      obtain ⟨s, hs, he⟩ := hxs.slot (List.mem_of_getLast? hl)
      simp [ entry?, slot?, hs, he]
  · cases hr : ys.head? with
    | none => simp [ entry?, slot?]
    | some r =>
      obtain ⟨s, hs, he⟩ := hys.slot (List.mem_of_head? hr)
      simp [ entry?, slot?, hs, he]

/-- The slots after a fold: both neighbours are empty, and the slot of the marker holds the new
entry between the next slots on either side. -/
def relinked (links : Links α) (left right : Option Nat) (i : Nat) (e : α)
    (before after : Option Nat) : Links α :=
  (links.update left fun s => { s with entry := none })
    |>.update right (fun s => { s with entry := none })
    |>.update (some i) (fun _ => ⟨some e, before, after⟩)
    |>.update before (fun s => { s with after := some i })
    |>.update after (fun s => { s with before := some i })

theorem fold_eq (links : Links α) (join : Joining ε α) (m : Marker) :
    links.fold join m =
      let left := links.before? (some m.index)
      let right := links.after? (some m.index)
      (join m.operator (links.entry? left) (links.entry? right)).map fun e =>
        links.relinked left right m.index e (links.before? left) (links.after? right) := rfl

section Relinked

variable {left right : Option Nat} {i k : Nat} {e : α}

theorem map_entry_update (at? : Option Nat) {f : Slot α → Slot α} (hf : ∀ s, (f s).entry = s.entry) :
    ((links.update at? f)[k]?).map Slot.entry = links[k]?.map Slot.entry := by
  rw [getElem?_update]
  split
  · rw [Option.map_map]
    exact congrArg (fun g => links[k]?.map g) (funext hf)
  · rfl

theorem map_entry_relinked (hi : i ≠ k) :
    ((links.relinked left right i e before after)[k]?).map Slot.entry =
      if left = some k ∨ right = some k then links[k]?.map fun _ => none
      else links[k]?.map Slot.entry := by
  have hik : some i ≠ some k := fun h => hi (Option.some.inj h)
  rw [relinked, map_entry_update after, map_entry_update before, getElem?_update, if_neg hik,
    getElem?_update, getElem?_update]
  · by_cases hl : left = some k <;> by_cases hr : right = some k <;>
      simp [hl, hr, Function.comp_def]
  · exact fun _ => rfl
  · exact fun _ => rfl

end Relinked

/-- A fold by links relinks the neighbours of the three slots it joins to the slot of the marker. -/
theorem Threads.fold {l r : α × Nat} {e : α} {i : Nat} (x : α)
    (h : Threads links (xs ++ l :: (e, i) :: r :: ys))
    (hs : (xs ++ l :: (e, i) :: r :: ys).Pairwise fun x y => x.2 < y.2) :
    Threads (links.relinked (some l.2) (some r.2) i x (back none xs) (front ys none))
      (xs ++ (x, i) :: ys) := by
  obtain ⟨hxs, hmid⟩ := chained_append.1 h.chained
  obtain ⟨-, hi, -, hys⟩ := hmid
  simp only [List.pairwise_append, List.pairwise_cons, List.mem_cons, forall_eq_or_imp] at hs
  obtain ⟨hsx, ⟨⟨hli, hlr, hly⟩, ⟨hir, hiy⟩, hry, hsy⟩, hx⟩ := hs
  have hfront : ∀ {k : Nat}, front ys none = some k → r.2 < k := by
    intro k hk
    obtain ⟨z, hz, rfl⟩ := front_eq_some hk
    exact hry z hz
  have hback : ∀ {k : Nat}, back none xs = some k → k < l.2 := by
    intro k hk
    obtain ⟨y, hy, rfl⟩ := back_eq_some hk
    exact (hx y hy).1
  refine ⟨chained_append.2 ⟨?_, ?_, ?_⟩, fun k s hk hne => ?_⟩
  · refine hxs.relink_after hsx fun y hy => ?_
    obtain ⟨h₁, h₂, h₃, -⟩ := hx y hy
    have h₄ : front ys none ≠ some y.2 := fun hk => by have := hfront hk; omega
    simp [relinked, getElem?_update, h₄, Nat.ne_of_gt h₁, Nat.ne_of_gt h₂, Nat.ne_of_gt h₃]
  · have h₁ : front ys none ≠ some i := fun hk => by have := hfront hk; omega
    have h₂ : back none xs ≠ some i := fun hk => by have := hback hk; omega
    simp [relinked, getElem?_update, h₁, h₂, Nat.ne_of_lt hli, Nat.ne_of_gt hir, hi]
  · refine hys.relink_before hsy fun y hy => ?_
    have h₁ := hly y hy
    have h₂ := hiy y hy
    have h₃ := hry y hy
    have h₄ : back none xs ≠ some y.2 := fun hk => by have := hback hk; omega
    simp [relinked, getElem?_update, h₄, Nat.ne_of_lt h₁, Nat.ne_of_lt h₂, Nat.ne_of_lt h₃]
  · have hki : i ≠ k := hne (x, i) (by simp)
    have hentry := congrArg (Option.map Slot.entry) hk
    rw [map_entry_relinked hki] at hentry
    split at hentry
    · obtain ⟨_, -, hn⟩ := Option.map_eq_some_iff.1 hentry
      exact hn.symm
    · rename_i hlr
      obtain ⟨t, ht, hte⟩ := Option.map_eq_some_iff.1 hentry
      rw [← hte]
      refine h.empty k t ht fun y hy hyk => ?_
      simp only [List.mem_append, List.mem_cons] at hy
      rcases hy with hy | rfl | rfl | rfl | hy
      · exact hne y (by simp [hy]) hyk
      · exact hlr (.inl (by rw [hyk]))
      · exact hki hyk
      · exact hlr (.inr (by rw [hyk]))
      · exact hne y (by simp [hy]) hyk

variable {join : Joining ε α} {operand : α → Prop}

theorem Threads.fold_cases {m : Marker} {ms : List Marker} (hj : Splice.Joins join operand)
    (h : Threads links items) (hs : items.Stands operand (m :: ms)) :
    (∃ f, links.fold join m = .error f ∧ items.fold join m = .error f) ∨
      ∃ links' items', links.fold join m = .ok links' ∧ items.fold join m = .ok items' ∧
        Threads links' items' ∧ items'.Stands operand ms := by
  obtain ⟨before, e, after, rfl, hne⟩ := hs.split
  obtain ⟨hb, ha, hbe, hae⟩ := h.beside
  simp only at hb ha
  rw [Splice.fold_append join hne, fold_eq]
  simp only [hb, ha, hbe, hae]
  cases hx : join m.operator (before.getLast?.map Prod.fst) (after.head?.map Prod.fst) with
  | error f => exact .inl ⟨f, rfl, rfl⟩
  | ok x =>
    obtain ⟨_, _, hl, hr, hlo, hro⟩ := hj hx
    obtain ⟨l, hbl, rfl⟩ := Option.map_eq_some_iff.1 hl
    obtain ⟨r, har, rfl⟩ := Option.map_eq_some_iff.1 hr
    obtain ⟨before, rfl⟩ := List.getLast?_eq_some_iff.1 hbl
    obtain ⟨after, rfl⟩ := List.head?_eq_some_iff.1 har
    rw [List.append_assoc, List.singleton_append] at h hs
    have hl := h.beside.1
    have hr : links.after? (some r.2) = after.head?.map Prod.snd := by
      have h' : Threads links ((before ++ [l, (e, m.index)]) ++ r :: after) := by simpa using h
      exact h'.beside.2.1
    refine .inr ⟨_, _, rfl, rfl, ?_, ?_⟩
    · simpa [hl, hr, back, front] using h.fold x hs.sorted
    · simpa using hs.fold x hlo hro

theorem Threads.foldAll {ms : List Marker} (hj : Splice.Joins join operand)
    (h : Threads links items) (hs : items.Stands operand ms) :
    (links.foldAll join ms).map Links.live =
      (items.foldAll join ms).map fun items => items.map Prod.fst := by
  induction ms generalizing links items with
  | nil => simp [Links.foldAll, Splice.foldAll, Except.map, h.live hs.sorted]
  | cons m ms ih =>
    rcases h.fold_cases hj hs with ⟨f, hl, hi⟩ | ⟨links', items', hl, hi, h', hs'⟩
    · simp [Links.foldAll, Splice.foldAll, hl, hi, Except.map]
    · simp only [Links.foldAll, Splice.foldAll, hl, hi]
      exact ih h' hs'

end Links

theorem Operator.joins_join (limit : Nat) :
    Splice.Joins (Operator.join limit) fun e => e.isOperand = true := by
  intro op left right e h
  obtain ⟨l, r, hl, hr, hlo, hro, -⟩ := Operator.join_eq_ok_iff.1 h
  exact ⟨l, r, hl, hr, hlo, hro⟩

/-- Folding with links does what splicing does: the same trees with the same depths in the same
order, or the same fault. -/
theorem foldMarkers_eq_map (limit : Nat) (entries : List Entry) :
    foldMarkers limit entries =
      (Splice.foldAll (Operator.join limit) entries.zipIdx (Marker.ordered entries)).map
        fun items => items.map Prod.fst :=
  (Links.threads_start entries).foldAll (Operator.joins_join limit) (Splice.waits_start entries).stands

theorem foldMarkers_eq_ok_iff {limit : Nat} {entries out : List Entry} :
    foldMarkers limit entries = .ok out ↔ ∃ items : Splice Entry,
      Splice.foldAll (Operator.join limit) entries.zipIdx (Marker.ordered entries) = .ok items ∧
        out = items.map Prod.fst := by
  rw [foldMarkers_eq_map]
  cases Splice.foldAll (Operator.join limit) entries.zipIdx (Marker.ordered entries) with
  | error f => simp [Except.map]
  | ok items => simp [Except.map, eq_comm]

end TokenForest
