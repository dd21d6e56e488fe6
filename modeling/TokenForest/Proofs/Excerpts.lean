import Mathlib.Data.List.Basic
import TokenForest.Excerpt

set_option autoImplicit false

namespace TokenForest

namespace Bytes

variable {cs front back : List Char} {c : Char} {offset i j k : Nat}

theorem end_or_within (cs : List Char) (offset : Nat) :
    size cs ≤ offset ∨ ∃ front c back i,
      cs = front ++ c :: back ∧ offset = size front + i ∧ i < c.utf8Size := by
  induction cs generalizing offset with
  | nil => exact .inl (Nat.zero_le _)
  | cons c cs ih =>
    by_cases h : offset < c.utf8Size
    · exact .inr ⟨[], c, cs, offset, rfl, by simp, h⟩
    · rcases ih (offset - c.utf8Size) with hle | ⟨front, d, back, i, rfl, hoffset, hi⟩
      · refine .inl ?_
        rw [size_cons]
        omega
      · refine .inr ⟨c :: front, d, back, i, rfl, ?_, hi⟩
        rw [size_cons]
        omega

theorem floorFrom_append (hi : i < c.utf8Size) :
    floorFrom (front ++ c :: back) (size front + i) = size front := by
  induction i with
  | zero =>
    cases hsize : size front with
    | zero => rw [Nat.add_zero, floorFrom]
    | succ n =>
      have hb : isBoundary (front ++ c :: back) (n + 1) = true := by
        rw [isBoundary, ← hsize, part?_size, Option.isSome_some]
      rw [Nat.add_zero, floorFrom, if_pos hb]
  | succ i ih =>
    have hb : isBoundary (front ++ c :: back) (size front + i + 1) = false := by
      rw [isBoundary, Nat.add_assoc, part?_eq_none (Nat.succ_pos i) hi, Option.isSome_none]
    rw [← Nat.add_assoc, floorFrom, hb, if_neg Bool.false_ne_true, ih (by omega)]

/-- `k` is the place of the character whose bytes contain the offset, or the number of characters
if the offset is at the end or past it. -/
def Covers (cs : List Char) (offset k : Nat) : Prop :=
  (∃ c, cs[k]? = some c ∧ size (cs.take k) ≤ offset ∧ offset < size (cs.take k) + c.utf8Size) ∨
    (k = cs.length ∧ size cs ≤ offset)

/-- The boundary below an offset parts the text before the character that the offset is in. -/
theorem exists_floor (cs : List Char) (offset : Nat) :
    ∃ front back, cs = front ++ back ∧ floor cs offset = size front ∧
      Covers cs offset front.length := by
  rcases end_or_within cs offset with h | ⟨front, c, back, i, rfl, rfl, hi⟩
  · exact ⟨cs, [], by simp, if_pos h, .inr ⟨rfl, h⟩⟩
  · refine ⟨front, c :: back, rfl, ?_, .inl ⟨c, by simp, ?_, ?_⟩⟩
    · have hlt : ¬ size (front ++ c :: back) ≤ size front + i := by
        rw [size_append, size_cons]
        omega
      rw [floor, if_neg hlt, floorFrom_append hi]
    · rw [List.take_left]
      omega
    · rw [List.take_left]
      omega

theorem size_take_add_drop (k : Nat) (cs : List Char) :
    size (cs.take k) + size (cs.drop k) = size cs := by
  rw [← size_append, List.take_append_drop]

theorem size_take_le (cs : List Char) (h : j ≤ k) : size (cs.take j) ≤ size (cs.take k) := by
  obtain ⟨rest, hrest⟩ := List.take_prefix_take_left h (l := cs)
  rw [← hrest, size_append]
  omega

theorem Covers.not_lt (hj : Covers cs offset j) (hk : Covers cs offset k) : ¬ j < k := by
  intro hlt
  have hle : size (cs.take k) ≤ offset := by
    rcases hk with ⟨-, -, h, -⟩ | ⟨rfl, h⟩
    · exact h
    · rwa [List.take_length]
  rcases hj with ⟨c, hget, -, hj⟩ | ⟨rfl, -⟩
  · have hsucc : size (cs.take (j + 1)) = size (cs.take j) + c.utf8Size := by
      rw [List.take_add_one, hget, Option.toList_some, size_append, size_cons, size_nil,
        Nat.add_zero]
    have hle' : size (cs.take (j + 1)) ≤ size (cs.take k) := size_take_le cs hlt
    omega
  · rcases hk with ⟨c, hget, -, -⟩ | ⟨rfl, -⟩
    · have := (List.getElem?_eq_some_iff.1 hget).1
      omega
    · omega

theorem Covers.unique (hj : Covers cs offset j) (hk : Covers cs offset k) : j = k := by
  have h₁ := hj.not_lt hk
  have h₂ := hk.not_lt hj
  omega

theorem getElem?_starts (offset : Nat) (h : i < cs.length) :
    (starts offset cs)[i]? = some (offset + size (cs.take i)) := by
  induction cs generalizing offset i with
  | nil => cases h
  | cons c cs ih =>
    cases i with
    | zero => rfl
    | succ i =>
      rw [starts, List.getElem?_cons_succ, ih _ (Nat.lt_of_succ_lt_succ h), List.take_succ_cons,
        size_cons, Nat.add_assoc]

theorem getD_starts (offset i : Nat) (cs : List Char) :
    (starts offset cs)[i]?.getD (offset + size cs) = offset + size (cs.take i) := by
  rcases Nat.lt_or_ge i cs.length with h | h
  · rw [getElem?_starts offset h, Option.getD_some]
  · have hnone : (starts offset cs)[i]? = none := by
      rw [List.getElem?_eq_none_iff, length_starts]
      exact h
    rw [hnone, Option.getD_none, List.take_of_length_le h]

theorem getD_reverse_starts (i : Nat) (cs : List Char) :
    (starts 0 cs).reverse[i]?.getD 0 = size (cs.take (cs.length - (i + 1))) := by
  rcases Nat.lt_or_ge i cs.length with h | h
  · rw [List.getElem?_reverse (by rwa [length_starts]), length_starts,
      getElem?_starts 0 (by omega), Option.getD_some, Nat.zero_add, Nat.sub_sub, Nat.add_comm 1]
  · have hnone : (starts 0 cs).reverse[i]? = none := by
      rw [List.getElem?_eq_none_iff, List.length_reverse, length_starts]
      exact h
    have hzero : cs.length - (i + 1) = 0 := by omega
    rw [hnone, hzero, Option.getD_none, List.take_zero, size_nil]

theorem slice?_front (front back : List Char) :
    slice? (front ++ back) 0 (size front) = some front := by
  simpa using slice?_append [] front back

theorem slice?_back (front back : List Char) :
    slice? (front ++ back) (size front) (size (front ++ back)) = some back := by
  simpa using slice?_append front back []

theorem slice?_middle (front back : List Char) (j k : Nat) :
    slice? (front ++ back) (size (front.take j)) (size front + size (back.take k)) =
      some (front.drop j ++ back.take k) := by
  have h := slice?_append (front.take j) (front.drop j ++ back.take k) (back.drop k)
  have hsource : front.take j ++ (front.drop j ++ back.take k ++ back.drop k) = front ++ back := by
    rw [List.append_assoc, List.take_append_drop, ← List.append_assoc, List.take_append_drop]
  rwa [hsource, size_append, ← Nat.add_assoc, size_take_add_drop] at h

end Bytes

namespace Excerpt

open Bytes

/-- A text with the character at `k` marked, at most fifty characters before it and forty-nine
after it. Dots stand where something is left out. -/
def marked (style : MarkerStyle) (cs : List Char) (k : Nat) : List Char :=
  ['"'] ++ (if 50 < k then ['.', '.', '.', '\n'] else []) ++ (cs.take k).drop (k - 50)
    ++ style.opening ++ cs[k]?.toList ++ style.closing
    ++ (cs.take (min (k + 50) cs.length)).drop (k + 1)
    ++ (if k + 50 < cs.length then ['.', '.', '.'] else []) ++ ['"']

theorem bounds?_append (before after : List Char) :
    bounds? (before ++ after) (size before) =
      some (size (before.take (before.length - width)), size before + size (after.take width)) := by
  have hstart := getD_reverse_starts (width - 1) before
  have hstop := getD_starts (size before) width after
  rw [← size_append] at hstop
  simp only [bounds?, slice?_front, slice?_back, hstart, hstop, Option.bind_eq_bind,
    Option.bind_some, Option.pure_def]
  rfl

theorem mark?_append (style : MarkerStyle) (before after : List Char) :
    mark? style (before ++ after) (size before) =
      some (before ++ style.opening ++ after.take 1 ++ style.closing ++ after.drop 1) := by
  have hstop : (after.head?.elim (size before) fun c => size before + c.utf8Size) =
      size before + size (after.take 1) := by
    cases after with
    | nil => rfl
    | cons c cs => simp
  have hmarked := slice?_append before (after.take 1) (after.drop 1)
  have hrest := slice?_back (before ++ after.take 1) (after.drop 1)
  rw [List.append_assoc, List.take_append_drop, size_append] at hrest
  rw [List.take_append_drop] at hmarked
  simp only [mark?, slice?_front, slice?_back, hstop, hmarked, hrest, Option.bind_eq_bind,
    Option.bind_some, Option.pure_def]

theorem marked_append (style : MarkerStyle) (before after : List Char) :
    marked style (before ++ after) before.length =
      ['"'] ++ (if width < before.length then ['.', '.', '.', '\n'] else [])
        ++ (before.drop (before.length - width) ++ style.opening ++ (after.take width).take 1
          ++ style.closing ++ (after.take width).drop 1)
        ++ (if width < after.length then ['.', '.', '.'] else []) ++ ['"'] := by
  have hget : (before ++ after)[before.length]?.toList = (after.take width).take 1 := by
    rw [List.getElem?_append_right (Nat.le_refl _), Nat.sub_self]
    cases after with
    | nil => rfl
    | cons c cs => rfl
  have hrest : ((before ++ after).take (min (before.length + 50) (before ++ after).length)).drop
      (before.length + 1) = (after.take width).drop 1 := by
    rw [← List.take_eq_take_min, List.take_length_add_append, ← List.drop_drop, List.drop_left]
    rfl
  have hdots : before.length + 50 < (before ++ after).length ↔ width < after.length := by
    rw [List.length_append, Nat.add_lt_add_iff_left]
    rfl
  simp only [marked, hget, hrest, hdots, List.take_left, List.append_assoc]
  rfl

theorem render?_append (style : MarkerStyle) {before after : List Char} {offset : Nat}
    (h : floor (before ++ after) offset = size before) :
    render? style (before ++ after) offset =
      some (marked style (before ++ after) before.length) := by
  have hstart : size (before.take (before.length - width)) = 0 ↔ ¬ width < before.length := by
    rw [size_eq_zero, List.take_eq_nil_iff, width]
    cases before with
    | nil => simp
    | cons c cs =>
      simp only [List.length_cons, reduceCtorEq, or_false]
      omega
  have hstop : size before + size (after.take width) < size (before ++ after) ↔
      width < after.length := by
    have hrest := size_take_add_drop width after
    have hnil : size (after.drop width) = 0 ↔ after.length ≤ width := by
      rw [size_eq_zero, List.drop_eq_nil_iff]
    rw [size_append]
    omega
  have hbefore := size_take_add_drop (before.length - width) before
  have hle : size (before.take (before.length - width)) ≤ size before := by omega
  have hoffset : size before - size (before.take (before.length - width)) =
      size (before.drop (before.length - width)) := by omega
  simp only [render?, h, bounds?_append, slice?_middle, guard, hle, hoffset, mark?_append, hstart,
    hstop, marked_append, ite_not, if_true, Option.bind_eq_bind, Option.bind_some, Option.pure_def]

end Excerpt

/-- There is an excerpt for every text and offset. It marks the one character whose bytes contain
the offset, or the end. -/
theorem Position.excerpt_eq_marked (p : Position) (style : MarkerStyle) :
    ∃ k, (∀ j, Bytes.Covers p.source.toList p.offset.toNat j ↔ j = k) ∧
      p.excerpt? style = some (String.ofList (Excerpt.marked style p.source.toList k)) ∧
      p.excerpt style = String.ofList (Excerpt.marked style p.source.toList k) := by
  obtain ⟨before, after, hsource, hfloor, hcovers⟩ :=
    Bytes.exists_floor p.source.toList p.offset.toNat
  refine ⟨before.length, fun j => ⟨fun hj => hj.unique hcovers, fun hj => hj ▸ hcovers⟩, ?_⟩
  rw [hsource] at hfloor
  have hsome : p.excerpt? style =
      some (String.ofList (Excerpt.marked style p.source.toList before.length)) := by
    rw [excerpt?, hsource, Excerpt.render?_append style hfloor, Option.map_some]
  exact ⟨hsome, by rw [excerpt, hsome, Option.getD_some]⟩

-- The second byte of a character of two bytes means that character.
example : Position.excerpt ⟨2, "aéb"⟩ .plain = "\"a-->é<--b\"" := by decide

end TokenForest
