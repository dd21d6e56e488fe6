/-!
Texts addressed by the bytes of their UTF-8 form. An offset is a boundary where a character begins
or the text ends. At any other offset a text cannot be parted, nor a piece of it taken out.
-/

set_option autoImplicit false

namespace TokenForest.Bytes

def size : List Char → Nat
  | [] => 0
  | c :: cs => c.utf8Size + size cs

def part? : Nat → List Char → Option (List Char × List Char)
  | 0, cs => some ([], cs)
  | _ + 1, [] => none
  | offset + 1, c :: cs =>
    if offset + 1 < c.utf8Size then none
    else (part? (offset + 1 - c.utf8Size) cs).map fun parts => (c :: parts.1, parts.2)

def isBoundary (cs : List Char) (offset : Nat) : Bool := (part? offset cs).isSome

def slice? (cs : List Char) (start stop : Nat) : Option (List Char) := do
  let (front, _) ← part? stop cs
  let (_, piece) ← part? start front
  return piece

def floorFrom (cs : List Char) : Nat → Nat
  | 0 => 0
  | offset + 1 => if isBoundary cs (offset + 1) then offset + 1 else floorFrom cs offset

/-- The boundary that an offset is taken for. -/
def floor (cs : List Char) (offset : Nat) : Nat :=
  if size cs ≤ offset then size cs else floorFrom cs offset

/-- The offsets at which the characters of a text begin, where the text itself begins at the given
one. -/
def starts : Nat → List Char → List Nat
  | _, [] => []
  | offset, c :: cs => offset :: starts (offset + c.utf8Size) cs

@[simp] theorem size_nil : size [] = 0 := rfl

@[simp] theorem size_cons (c : Char) (cs : List Char) : size (c :: cs) = c.utf8Size + size cs := rfl

@[simp] theorem size_append (front back : List Char) :
    size (front ++ back) = size front + size back := by
  induction front with
  | nil => simp
  | cons c cs ih => simp [ih, Nat.add_assoc]

theorem size_eq_zero {cs : List Char} : size cs = 0 ↔ cs = [] := by
  cases cs with
  | nil => simp
  | cons c cs =>
    have := c.utf8Size_pos
    simp only [size_cons, reduceCtorEq, iff_false]
    omega

theorem part?_cons (c : Char) (cs : List Char) (offset : Nat) :
    part? (c.utf8Size + offset) (c :: cs) =
      (part? offset cs).map fun parts => (c :: parts.1, parts.2) := by
  have := c.utf8Size_pos
  obtain ⟨k, hk⟩ : ∃ k, c.utf8Size + offset = k + 1 := ⟨c.utf8Size + offset - 1, by omega⟩
  rw [hk, part?, if_neg (by omega), ← hk, Nat.add_sub_cancel_left]

@[simp] theorem part?_size (front back : List Char) :
    part? (size front) (front ++ back) = some (front, back) := by
  induction front with
  | nil => rw [size_nil, part?, List.nil_append]
  | cons c cs ih => rw [size_cons, List.cons_append, part?_cons, ih, Option.map_some]

theorem part?_eq_none {front back : List Char} {c : Char} {i : Nat} (hpos : 0 < i)
    (hi : i < c.utf8Size) : part? (size front + i) (front ++ c :: back) = none := by
  induction front with
  | nil =>
    obtain ⟨k, rfl⟩ : ∃ k, i = k + 1 := ⟨i - 1, by omega⟩
    rw [size_nil, Nat.zero_add, List.nil_append, part?, if_pos hi]
  | cons d ds ih => rw [size_cons, Nat.add_assoc, List.cons_append, part?_cons, ih, Option.map_none]

@[simp] theorem slice?_append (front piece back : List Char) :
    slice? (front ++ (piece ++ back)) (size front) (size front + size piece) = some piece := by
  have h := part?_size (front ++ piece) back
  rw [size_append, List.append_assoc] at h
  simp [slice?, h]

theorem length_starts (offset : Nat) (cs : List Char) : (starts offset cs).length = cs.length := by
  induction cs generalizing offset with
  | nil => rfl
  | cons c cs ih => simp [starts, ih]

end TokenForest.Bytes
