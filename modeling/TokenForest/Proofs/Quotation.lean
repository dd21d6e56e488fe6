import Mathlib.Data.List.TakeWhile
import TokenForest.Text.Quoted

set_option autoImplicit false

namespace TokenForest.Text

def hexValue (c : Char) : Nat := if c.isDigit then c.toNat - '0'.toNat else c.toNat - 'a'.toNat + 10

def ofHex (cs : List Char) : Nat := cs.foldl (fun n c => 16 * n + hexValue c) 0

theorem hexValue_digitChar : ∀ d < 16, hexValue (Nat.digitChar d) = d := by decide

theorem digitChar_ne_brace : ∀ d < 16, Nat.digitChar d ≠ '\x7d' := by decide

theorem ofHex_append (cs : List Char) (c : Char) :
    ofHex (cs ++ [c]) = 16 * ofHex cs + hexValue c := by
  rw [ofHex, List.foldl_append]
  rfl

theorem ofHex_toDigits (n : Nat) : ofHex (Nat.toDigits 16 n) = n := by
  induction n using Nat.strongRecOn with
  | ind n ih =>
    by_cases h : n < 16
    · rw [Nat.toDigits_of_lt_base h, ← List.nil_append [n.digitChar], ofHex_append,
        hexValue_digitChar n h]
      exact Nat.zero_add n
    · have hlt : n / 16 < n := by omega
      rw [Nat.toDigits_of_base_le (by decide) (Nat.le_of_not_lt h), ofHex_append, ih _ hlt,
        hexValue_digitChar _ (Nat.mod_lt _ (by decide))]
      omega

theorem ne_brace_of_mem_toDigits {n : Nat} {c : Char} (h : c ∈ Nat.toDigits 16 n) : c ≠ '\x7d' := by
  induction n using Nat.strongRecOn with
  | ind n ih =>
    by_cases hn : n < 16
    · rw [Nat.toDigits_of_lt_base hn, List.mem_singleton] at h
      rw [h]
      exact digitChar_ne_brace n hn
    · rw [Nat.toDigits_of_base_le (by decide) (Nat.le_of_not_lt hn), List.mem_append,
        List.mem_singleton] at h
      rcases h with h | rfl
      · exact ih _ (by omega) h
      · exact digitChar_ne_brace _ (Nat.mod_lt _ (by decide))

def control (c : Char) : Char :=
  if c = '0' then '\x00' else if c = 't' then '\t' else if c = 'n' then '\n'
  else if c = 'r' then '\r' else c

def unescape : List Char → Char × List Char
  | [] => (default, [])
  | [c] => (c, [])
  | c :: d :: cs =>
    if c ≠ '\\' then (c, d :: cs)
    else if d ≠ 'u' then (control d, cs)
    else
      (Char.ofNat (ofHex (cs.tail.takeWhile (· != '\x7d'))),
        (cs.tail.dropWhile (· != '\x7d')).tail)

theorem unescape_cons {c : Char} (h : c ≠ '\\') (rest : List Char) :
    unescape (c :: rest) = (c, rest) := by
  cases rest with
  | nil => rfl
  | cons d ds => rw [unescape, if_pos h]

theorem unescape_codePoint (c : Char) (rest : List Char) :
    unescape (escapeCodePoint c ++ rest) = (c, rest) := by
  have hne : ∀ d ∈ Nat.toDigits 16 c.toNat, (d != '\x7d') = true := fun d hd => by
    simpa using ne_brace_of_mem_toDigits hd
  have htext : escapeCodePoint c ++ rest =
      '\\' :: 'u' :: '\x7b' :: (Nat.toDigits 16 c.toNat ++ '\x7d' :: rest) := by
    simp [escapeCodePoint]
  rw [htext, unescape, if_neg (by simp), if_neg (by simp), List.tail_cons,
    List.takeWhile_append_of_pos hne, List.dropWhile_append_of_pos hne]
  simp [ofHex_toDigits]

theorem unescape_escape (c : Char) (rest : List Char) :
    unescape (escape c ++ rest) = (c, rest) := by
  by_cases hq : c = '"' ∨ c = '\\'
  · rcases hq with rfl | rfl <;> rfl
  by_cases h0 : c = '\x00'
  · subst h0
    rfl
  by_cases ht : c = '\t'
  · subst ht
    rfl
  by_cases hn : c = '\n'
  · subst hn
    rfl
  by_cases hr : c = '\r'
  · subst hr
    rfl
  rw [escape, if_neg hq, if_neg h0, if_neg ht, if_neg hn, if_neg hr]
  by_cases hp : isPrintable c = true
  · rw [if_pos hp]
    exact unescape_cons (fun h => hq (.inr h)) rest
  · rw [if_neg hp]
    exact unescape_codePoint c rest

theorem escape_ne_quote {c : Char} {rest rest' : List Char} : escape c ++ rest ≠ '"' :: rest' := by
  intro h
  have hread := congrArg unescape h
  rw [unescape_escape, unescape_cons (by decide)] at hread
  obtain rfl := (Prod.mk.inj hread).1
  simp [escape] at h

theorem flatMap_escape_inj {a b s t : List Char}
    (h : a.flatMap escape ++ '"' :: s = b.flatMap escape ++ '"' :: t) : a = b ∧ s = t := by
  induction a generalizing b with
  | nil =>
    cases b with
    | nil => simpa using h
    | cons d ds =>
      rw [List.flatMap_cons, List.append_assoc] at h
      exact absurd h.symm escape_ne_quote
  | cons c cs ih =>
    rw [List.flatMap_cons, List.append_assoc] at h
    cases b with
    | nil => exact absurd h escape_ne_quote
    | cons d ds =>
      rw [List.flatMap_cons, List.append_assoc] at h
      have hread := congrArg unescape h
      rw [unescape_escape, unescape_escape] at hread
      obtain ⟨rfl, hrest⟩ := Prod.mk.inj hread
      obtain ⟨rfl, hs⟩ := ih hrest
      exact ⟨rfl, hs⟩

/-- A quoted text is told by the text that begins with it, and so is what comes after it. -/
theorem quote_append_inj {a b : String} {s t : List Char}
    (h : (quote a).toList ++ s = (quote b).toList ++ t) : a = b ∧ s = t := by
  simp only [quote, String.toList_ofList, List.cons_append, List.append_assoc, List.cons.injEq,
    true_and, List.nil_append] at h
  obtain ⟨hab, hs⟩ := flatMap_escape_inj h
  exact ⟨String.toList_inj.1 hab, hs⟩

end TokenForest.Text
