import TokenForest.Sexpr
import TokenForest.Proofs.Quotation

set_option autoImplicit false

namespace TokenForest.Sexpr

variable {x y : Sexpr} {xs ys : List Sexpr} {v w s t : List Char}

/-- What may come after an element: nothing, a space or the end of the list it is in. -/
def Ended (rest : List Char) : Prop := ∀ c ∈ rest.head?, c = ' ' ∨ c = ')'

theorem takeWhile_word (hw : isWord w = true) (hs : Ended s) :
    (w ++ s).takeWhile (fun c => !isMark c) = w := by
  rw [isWord, Bool.and_eq_true, List.all_eq_true] at hw
  rw [List.takeWhile_append_of_pos hw.2]
  cases s with
  | nil => simp
  | cons c cs =>
    have hc : isMark c = true := by
      rcases hs c rfl with rfl | rfl <;> rfl
    simp [hc]

theorem word_append_inj (hv : isWord v = true) (hw : isWord w = true) (hs : Ended s)
    (ht : Ended t) (h : v ++ s = w ++ t) : v = w ∧ s = t := by
  have hvw : v = w := by rw [← takeWhile_word hv hs, h, takeWhile_word hw ht]
  subst hvw
  exact ⟨rfl, List.append_cancel_left h⟩

def Begins : Sexpr → Char → Prop
  | .bare _, c => isMark c = false
  | .quoted _, c => c = '"'
  | .list _, c => c = '('

theorem Clear.begins (h : x.Clear) : ∃ c cs, x.text = c :: cs ∧ x.Begins c := by
  cases h with
  | @bare w hw =>
    cases w with
    | nil => cases hw
    | cons c cs =>
      rw [isWord, Bool.and_eq_true, List.all_cons, Bool.and_eq_true] at hw
      have hc : isMark c = false := by simpa using hw.2.1
      exact ⟨c, cs, rfl, hc⟩
  | quoted text => exact ⟨'"', _, by rw [Sexpr.text, Text.quote, String.toList_ofList], rfl⟩
  | list _ => exact ⟨'(', _, rfl, rfl⟩

theorem Clear.begin_alike (hx : x.Clear) (hy : y.Clear) (h : x.text ++ s = y.text ++ t) :
    ∃ c, x.Begins c ∧ y.Begins c := by
  obtain ⟨c, cs, hc, hbx⟩ := hx.begins
  obtain ⟨d, ds, hd, hby⟩ := hy.begins
  rw [hc, hd] at h
  obtain rfl := (List.cons.inj h).1
  exact ⟨c, hbx, hby⟩

theorem Clear.text_ne (h : x.Clear) : x.text ++ s ≠ ')' :: t := by
  intro heq
  obtain ⟨c, cs, hc, hb⟩ := h.begins
  rw [hc] at heq
  obtain rfl := (List.cons.inj heq).1
  cases x <;> cases hb

def Told (x : Sexpr) : Prop :=
  ∀ ⦃y : Sexpr⦄ ⦃s t : List Char⦄, y.Clear → Ended s → Ended t → x.text ++ s = y.text ++ t →
    x = y ∧ s = t

theorem ended_spaced (xs : List Sexpr) (s : List Char) : Ended (spaced xs ++ ')' :: s) := by
  intro c hc
  cases xs with
  | nil =>
    cases hc
    exact .inr rfl
  | cons x xs =>
    cases hc
    exact .inl rfl

theorem spaced_append_inj (hx : ∀ x ∈ xs, x.Told) (hy : ∀ y ∈ ys, y.Clear)
    (h : spaced xs ++ ')' :: s = spaced ys ++ ')' :: t) : xs = ys ∧ s = t := by
  induction xs generalizing ys with
  | nil =>
    cases ys with
    | nil => exact ⟨rfl, (List.cons.inj h).2⟩
    | cons y ys => cases h
  | cons x xs ih =>
    cases ys with
    | nil => cases h
    | cons y ys =>
      simp only [spaced, List.cons_append, List.append_assoc, List.cons.injEq, true_and] at h
      obtain ⟨rfl, hrest⟩ := hx x List.mem_cons_self (hy y List.mem_cons_self) (ended_spaced xs s)
        (ended_spaced ys t) h
      obtain ⟨rfl, hs⟩ := ih (fun z hz => hx z (List.mem_cons_of_mem _ hz))
        (fun z hz => hy z (List.mem_cons_of_mem _ hz)) hrest
      exact ⟨rfl, hs⟩

/-- The space before the first element may go: nothing else begins a list that is not empty. -/
theorem drop_spaced_append_inj (hx : ∀ x ∈ xs, x.Clear) (hy : ∀ y ∈ ys, y.Clear)
    (h : (spaced xs).drop 1 ++ ')' :: s = (spaced ys).drop 1 ++ ')' :: t) :
    spaced xs ++ ')' :: s = spaced ys ++ ')' :: t := by
  cases xs with
  | nil =>
    cases ys with
    | nil => exact h
    | cons y ys =>
      simp only [spaced, List.cons_append, List.drop_succ_cons, List.drop_zero, List.append_assoc,
        List.drop_nil, List.nil_append] at h
      exact absurd h.symm (hy y List.mem_cons_self).text_ne
  | cons x xs =>
    cases ys with
    | nil =>
      simp only [spaced, List.cons_append, List.drop_succ_cons, List.drop_zero, List.append_assoc,
        List.drop_nil, List.nil_append] at h
      exact absurd h (hx x List.mem_cons_self).text_ne
    | cons y ys => exact congrArg (' ' :: ·) h

theorem Clear.told (h : x.Clear) : x.Told := by
  induction h with
  | @bare v hv =>
    intro y s t hy hs ht heq
    obtain ⟨c, hc, hc'⟩ := (Clear.bare hv).begin_alike hy heq
    cases hy with
    | bare hw =>
      obtain ⟨rfl, hst⟩ := word_append_inj hv hw hs ht heq
      exact ⟨rfl, hst⟩
    | quoted _ | list _ =>
      obtain rfl := hc'
      cases hc
  | quoted text =>
    intro y s t hy hs ht heq
    obtain ⟨c, rfl, hc'⟩ := (Clear.quoted text).begin_alike hy heq
    cases hy with
    | quoted text' =>
      obtain ⟨rfl, hst⟩ := Text.quote_append_inj heq
      exact ⟨rfl, hst⟩
    | bare _ | list _ => cases hc'
  | @list xs hxs ih =>
    intro y s t hy hs ht heq
    obtain ⟨c, rfl, hc'⟩ := (Clear.list hxs).begin_alike hy heq
    cases hy with
    | list hys =>
      simp only [Sexpr.text, List.cons_append, List.append_assoc, List.cons.injEq, true_and,
        List.nil_append] at heq
      obtain ⟨rfl, hst⟩ := spaced_append_inj ih hys (drop_spaced_append_inj hxs hys heq)
      exact ⟨rfl, hst⟩
    | bare _ | quoted _ => cases hc'

theorem Clear.text_inj (hx : x.Clear) (hy : y.Clear) (h : x.text = y.text) : x = y := by
  have hend : Ended [] := fun c hc => by cases hc
  exact (hx.told hy hend hend (by rw [h])).1

end TokenForest.Sexpr
