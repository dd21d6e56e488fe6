import Mathlib.Data.List.TakeWhile
import Mathlib.Tactic.Positivity
import Mathlib.Tactic.Ring
import TokenForest.Decimal.Literal
import TokenForest.Decimal.Shortest

set_option autoImplicit false

namespace TokenForest

theorem Binary64.steps_of_lt {rank : Nat} (h : rank < 2 ^ 53) : steps rank = rank := if_pos h

theorem Binary64.steps_of_le {rank : Nat} (h : 2 ^ 53 ≤ rank) :
    steps rank = (2 ^ 52 + rank % 2 ^ 52) * 2 ^ (rank / 2 ^ 52 - 1) := if_neg (Nat.not_lt.2 h)

theorem roundEven_mul (q : Nat) {den : Nat} (h : 0 < den) : roundEven (q * den) den = q := by
  have hne : ¬ (0 = den) := by omega
  simp [roundEven, Nat.mul_div_cancel _ h, hne]

theorem log2_scaled {m : Nat} (k : Nat) (hl : 2 ^ 52 ≤ m) (hu : m < 2 ^ 53) :
    (m * 2 ^ k).log2 = 52 + k := by
  have hne : m * 2 ^ k ≠ 0 := by positivity
  have hl' := Nat.mul_le_mul_right (2 ^ k) hl
  have hu' := Nat.mul_lt_mul_of_pos_right hu (Nat.two_pow_pos k)
  rw [← Nat.pow_add] at hl' hu'
  have he : 52 + k + 1 = 53 + k := by omega
  exact (Nat.log2_eq_iff hne).2 ⟨hl', by rwa [he]⟩

theorem nearestRank_steps (rank : Nat) {den : Nat} (h : 0 < den) :
    nearestRank (Binary64.steps rank * den) den = rank := by
  simp only [nearestRank, Nat.mul_div_cancel _ h, Nat.pow_eq]
  by_cases hr : rank < 2 ^ 53
  · have hlog : rank.log2 - 52 = 0 := by
      by_cases h0 : rank = 0
      · subst h0
        rfl
      · have := (Nat.log2_lt h0).2 hr
        omega
    simp [Binary64.steps_of_lt hr, hlog, roundEven_mul _ h]
  · have hlt : rank % 2 ^ 52 < 2 ^ 52 := Nat.mod_lt _ (by decide)
    rw [Binary64.steps_of_le (by omega), log2_scaled _ (by omega) (by omega),
      Nat.add_sub_cancel_left]
    have hmul : (2 ^ 52 + rank % 2 ^ 52) * 2 ^ (rank / 2 ^ 52 - 1) * den =
        (2 ^ 52 + rank % 2 ^ 52) * (den * 2 ^ (rank / 2 ^ 52 - 1)) := by ring
    rw [hmul, roundEven_mul _ (by positivity)]
    have := Nat.div_add_mod rank (2 ^ 52)
    omega

namespace Decimal

theorem nearest_onGrid? {rank : Nat} {exponent : Int} {d : Decimal}
    (h : onGrid? rank exponent = some d) : d.nearest = rank := by
  unfold onGrid? at h
  simp only at h
  split at h
  · rename_i hl hu
    obtain rfl := Option.some.inj h
    split
    · exact of_decide_eq_true hl
    · exact of_decide_eq_true hu
  · rename_i hl _
    obtain rfl := Option.some.inj h
    exact of_decide_eq_true hl
  · rename_i hu
    obtain rfl := Option.some.inj h
    exact of_decide_eq_true hu
  · cases h

theorem steps_lt {rank e : Nat} (h : rank / 2 ^ 52 - 1 ≤ e) :
    Binary64.steps rank < 2 ^ 53 * 2 ^ e := by
  by_cases hr : rank < 2 ^ 53
  · rw [Binary64.steps_of_lt hr]
    exact Nat.lt_of_lt_of_le hr (Nat.le_mul_of_pos_right _ (Nat.two_pow_pos _))
  · rw [Binary64.steps_of_le (Nat.le_of_not_lt hr)]
    have hlt : 2 ^ 52 + rank % 2 ^ 52 < 2 ^ 53 := by omega
    exact Nat.lt_of_lt_of_le (Nat.mul_lt_mul_of_pos_right hlt (Nat.two_pow_pos _))
      (Nat.mul_le_mul_left _ (Nat.pow_le_pow_right (by decide) h))

theorem steps_pos {rank : Nat} (h : rank ≠ 0) : 0 < Binary64.steps rank := by
  by_cases hr : rank < 2 ^ 53
  · rw [Binary64.steps_of_lt hr]
    omega
  · rw [Binary64.steps_of_le (Nat.le_of_not_lt hr)]
    positivity

theorem width_le_iff {n k : Nat} (hn : n ≠ 0) (hk : 0 < k) : width n ≤ k ↔ n < 10 ^ k := by
  rw [width, if_neg hn]
  exact Nat.length_toDigits_le_iff (by decide) hk

theorem width_exact {rank : Nat} (h0 : rank ≠ 0) (h : rank < Binary64.infinityRank) :
    743 < width (Binary64.steps rank * 5 ^ 1074) ∧
      width (Binary64.steps rank * 5 ^ 1074) ≤ 1384 := by
  have hp := steps_pos h0
  have hne : Binary64.steps rank * 5 ^ 1074 ≠ 0 := by positivity
  have hk : rank / 2 ^ 52 - 1 ≤ 2045 := by
    unfold Binary64.infinityRank at h
    omega
  constructor
  · refine Nat.lt_of_not_le fun hle => ?_
    have hlt := (width_le_iff hne (by decide)).1 hle
    have h5 : 10 ^ 743 ≤ 5 ^ 1074 := by decide +kernel
    have := Nat.le_mul_of_pos_left (5 ^ 1074) hp
    exact absurd (Nat.le_trans h5 this) (Nat.not_le.2 hlt)
  · refine (width_le_iff hne (by decide)).2 ?_
    calc Binary64.steps rank * 5 ^ 1074
      _ < 2 ^ 53 * 2 ^ 2045 * 5 ^ 1074 := Nat.mul_lt_mul_of_pos_right (steps_lt hk) (by positivity)
      _ ≤ 10 ^ 1384 := by decide +kernel

theorem nearest_negSucc {digits n : Nat} (h0 : digits ≠ 0)
    (hlo : -330 ≤ (width digits : Int) + Int.negSucc n)
    (hhi : (width digits : Int) + Int.negSucc n ≤ 310) :
    nearest ⟨digits, .negSucc n⟩ =
      nearestRank (digits * Nat.pow 2 1074) (Nat.pow 10 (n + 1)) := by
  have hlo' : ¬ (digits = 0 ∨ (width digits : Int) + Int.negSucc n < -330) := by omega
  have hhi' : ¬ 310 < (width digits : Int) + Int.negSucc n := by omega
  exact (if_neg hlo').trans (if_neg hhi')

theorem mul_five_pow_two_pow (s n : Nat) : s * 5 ^ n * 2 ^ n = s * 10 ^ n := by
  rw [Nat.mul_assoc, ← Nat.mul_pow]

theorem exact_eq (rank : Nat) {n : Nat} (h : n + 1 = 1074) :
    exact rank = ⟨Binary64.steps rank * Nat.pow 5 (n + 1), .negSucc n⟩ := by
  have he : (-1074 : Int) = .negSucc n := by omega
  unfold exact
  rw [← h, he]

theorem nearest_exact {rank : Nat} (h0 : rank ≠ 0) (h : rank < Binary64.infinityRank) :
    (exact rank).nearest = rank := by
  -- The scale stays a variable, so that no power of it is ever computed.
  obtain ⟨n, hn⟩ : ∃ n, n + 1 = 1074 := ⟨1073, rfl⟩
  obtain ⟨hlo, hhi⟩ := width_exact h0 h
  have hp := steps_pos h0
  rw [← hn] at hlo hhi
  have hne : Binary64.steps rank * 5 ^ (n + 1) ≠ 0 := by positivity
  rw [exact_eq rank hn, Nat.pow_eq, nearest_negSucc hne (by omega) (by omega), ← hn]
  simp only [Nat.pow_eq, mul_five_pow_two_pow]
  exact nearestRank_steps rank (by positivity)

theorem nearest_shortest {rank : Nat} (h0 : rank ≠ 0) (h : rank < Binary64.infinityRank) :
    (shortest rank).nearest = rank := by
  unfold shortest
  simp only
  cases hf : (List.range 17).findSome? fun n => onGrid? rank (leadingExponent rank - (n + 1 : Nat))
    with
  | none => exact nearest_exact h0 h
  | some d =>
    obtain ⟨n, _, hn⟩ := List.exists_of_findSome?_eq_some hf
    exact nearest_onGrid? hn

theorem natOfDigits_eq (cs : List Char) : natOfDigits cs = Nat.ofDigitChars 10 cs 0 := rfl

theorem isDigit_of_mem_toDigits {n : Nat} {c : Char} (h : c ∈ Nat.toDigits 10 n) :
    isDigit c = true := by
  have hc := Nat.isDigit_of_mem_toDigits (by decide) (by decide) h
  rw [Char.isDigit, Bool.and_eq_true, decide_eq_true_iff, decide_eq_true_iff] at hc
  rw [isDigit, Bool.and_eq_true, decide_eq_true_iff, decide_eq_true_iff]
  exact hc

theorem isDigit_of_mem_zeros {n : Nat} {c : Char} (h : c ∈ zeros n) : isDigit c = true := by
  obtain rfl := List.eq_of_mem_replicate h
  rfl

theorem length_zeros (n : Nat) : (zeros n).length = n := List.length_replicate

theorem zeros_append (m n : Nat) : zeros m ++ zeros n = zeros (m + n) :=
  List.replicate_append_replicate

theorem natOfDigits_toDigits_zeros (digits n : Nat) :
    natOfDigits (Nat.toDigits 10 digits ++ zeros n) = digits * 10 ^ n := by
  rw [natOfDigits_eq, Nat.ofDigitChars_append, Nat.ofDigitChars_ten_toDigits, zeros,
    Nat.ofDigitChars_replicate_zero, Nat.mul_comm]

theorem natOfDigits_zeros_toDigits (digits n : Nat) :
    natOfDigits (zeros n ++ Nat.toDigits 10 digits) = digits := by
  rw [natOfDigits_eq, Nat.ofDigitChars_append, zeros, Nat.ofDigitChars_replicate_zero,
    Nat.mul_zero, Nat.ofDigitChars_ten_toDigits]

theorem splitDigits_eq_self {cs : List Char} (h : ∀ c ∈ cs, isDigit c = true) :
    splitDigits cs = (cs, []) := by
  rw [splitDigits, List.takeWhile_eq_self_iff.2 h, List.dropWhile_eq_nil_iff.2 h]

theorem ofLiteral?_whole {cs : List Char} (hne : cs ≠ []) (h : ∀ c ∈ cs, isDigit c = true) :
    ofLiteral? cs = some ⟨natOfDigits cs, 0⟩ := by
  simp [ofLiteral?, splitDigits_eq_self h, splitFraction, exponent?, hne]

theorem ofLiteral?_point {whole fraction : List Char} (hne : whole ≠ [])
    (hw : ∀ c ∈ whole, isDigit c = true) (hf : ∀ c ∈ fraction, isDigit c = true) :
    ofLiteral? (whole ++ '.' :: fraction) =
      some ⟨natOfDigits (whole ++ fraction), -(fraction.length : Int)⟩ := by
  have hs : splitDigits (whole ++ '.' :: fraction) = (whole, '.' :: fraction) := by
    have hp : isDigit '.' = false := rfl
    rw [splitDigits, List.takeWhile_append_of_pos hw, List.dropWhile_append_of_pos hw]
    simp [hp]
  simp [ofLiteral?, hs, splitFraction, splitDigits_eq_self hf, exponent?, hne]

theorem width_scaled {digits : Nat} (h : digits ≠ 0) (n : Nat) :
    width (digits * 10 ^ n) = width digits + n := by
  have hne : digits * 10 ^ n ≠ 0 := by positivity
  have hpos : ∀ {m : Nat}, m ≠ 0 → 0 < width m := fun hm => by
    rw [width, if_neg hm]
    exact Nat.length_toDigits_pos
  have hiff : ∀ k, digits * 10 ^ n < 10 ^ (k + n) ↔ digits < 10 ^ k := fun k => by
    rw [Nat.pow_add]
    exact Nat.mul_lt_mul_right (Nat.pow_pos (by decide))
  have hd := hpos h
  have hs := hpos hne
  refine Nat.le_antisymm ?_ (Nat.le_of_not_lt fun hlt => ?_)
  · rw [width_le_iff hne (by omega), hiff, ← width_le_iff h hd]
  · by_cases hk : width digits = 1
    · have hle : width (digits * 10 ^ n) ≤ n := by omega
      rw [width_le_iff hne (by omega)] at hle
      have := (hiff 0).1 (by rwa [Nat.zero_add])
      omega
    · have hle : width (digits * 10 ^ n) ≤ width digits - 1 + n := by omega
      rw [width_le_iff hne (by omega), hiff, ← width_le_iff h (by omega)] at hle
      omega

theorem nearest_zero (exponent : Int) : nearest ⟨0, exponent⟩ = 0 := by
  rw [nearest]
  exact if_pos (.inl rfl)

theorem nearest_ofNat (digits n : Nat) :
    nearest ⟨digits, .ofNat n⟩ =
      if digits = 0 ∨ ((width digits + n : Nat) : Int) < -330 then 0
      else if 310 < ((width digits + n : Nat) : Int) then Binary64.infinityRank
      else nearestRank (digits * Nat.pow 10 n * Nat.pow 2 1074) 1 := rfl

/-- Zeros may stand in the digits or in the exponent. -/
theorem nearest_scaled (digits n : Nat) :
    nearest ⟨digits * 10 ^ n, .ofNat 0⟩ = nearest ⟨digits, .ofNat n⟩ := by
  by_cases h : digits = 0
  · rw [h, Nat.zero_mul, nearest_zero, nearest_zero]
  · have hne : digits * 10 ^ n ≠ 0 := by positivity
    have hone : digits * 10 ^ n * Nat.pow 10 0 = digits * Nat.pow 10 n := Nat.mul_one _
    simp only [nearest_ofNat, width_scaled h, h, hne, Nat.add_zero, hone]

theorem ofLiteral?_positional (d : Decimal) :
    ∃ d', ofLiteral? d.positional = some d' ∧ d'.nearest = d.nearest := by
  obtain ⟨digits, exponent⟩ := d
  have hd : ∀ c ∈ Nat.toDigits 10 digits, isDigit c = true := fun c => isDigit_of_mem_toDigits
  cases exponent with
  | ofNat n =>
    by_cases h : digits = 0
    · subst h
      refine ⟨⟨0, 0⟩, ?_, by rw [nearest_zero, nearest_zero]⟩
      have hp : positional ⟨0, .ofNat n⟩ = ['0'] := by simp [positional]
      rw [hp]
      rfl
    · refine ⟨⟨digits * 10 ^ n, 0⟩, ?_, nearest_scaled digits n⟩
      have hp : positional ⟨digits, .ofNat n⟩ = Nat.toDigits 10 digits ++ zeros n := by
        simp [positional, h]
      rw [hp, ofLiteral?_whole (by simp [Nat.toDigits_ne_nil]), natOfDigits_toDigits_zeros]
      intro c hc
      exact (List.mem_append.1 hc).elim (hd c) isDigit_of_mem_zeros
  | negSucc n =>
    refine ⟨⟨digits, .negSucc n⟩, ?_, rfl⟩
    simp only [positional]
    split
    · rename_i hlt
      rw [ofLiteral?_point, List.take_append_drop, natOfDigits_eq, Nat.ofDigitChars_ten_toDigits,
        List.length_drop]
      · congr 2
        omega
      · simp [List.take_eq_nil_iff, Nat.toDigits_ne_nil]
        omega
      · exact fun c hc => hd c (List.mem_of_mem_take hc)
      · exact fun c hc => hd c (List.mem_of_mem_drop hc)
    · rename_i hle
      have hw : ∀ c ∈ zeros 1, isDigit c = true := fun c => isDigit_of_mem_zeros
      have hf : ∀ c ∈ zeros (n + 1 - (Nat.toDigits 10 digits).length) ++ Nat.toDigits 10 digits,
          isDigit c = true :=
        fun c hc => (List.mem_append.1 hc).elim isDigit_of_mem_zeros (hd c)
      have hp := ofLiteral?_point (by simp [zeros]) hw hf
      rw [← List.append_assoc, zeros_append, natOfDigits_zeros_toDigits, List.length_append,
        length_zeros] at hp
      refine hp.trans ?_
      congr 2
      omega

theorem head_positional (d : Decimal) :
    ∃ c cs, d.positional = c :: cs ∧ isDigit c = true := by
  obtain ⟨c, cs, hd⟩ := List.exists_cons_of_ne_nil (Nat.toDigits_ne_nil (n := d.digits) (b := 10))
  have hc : isDigit c = true := isDigit_of_mem_toDigits (n := d.digits) (by simp [hd])
  unfold positional
  simp only [hd]
  split
  · exact ⟨c, _, List.cons_append, hc⟩
  · split
    · rename_i n _ hlt
      obtain ⟨k, hk⟩ : ∃ k, (c :: cs).length - (n + 1) = k + 1 := ⟨cs.length - (n + 1), by
        simp only [List.length_cons] at hlt ⊢
        omega⟩
      exact ⟨c, cs.take k ++ '.' :: (c :: cs).drop (k + 1), by rw [hk]; rfl, hc⟩
    · exact ⟨'0', _, rfl, rfl⟩

theorem splitSign_cons {c : Char} {cs : List Char} (hm : c ≠ '-') (hp : c ≠ '+') :
    splitSign (c :: cs) = (false, c :: cs) := by
  unfold splitSign
  split
  · rename_i h
    exact absurd (List.cons.inj h).1 hm
  · rename_i h
    exact absurd (List.cons.inj h).1 hp
  · rfl

end Decimal

namespace Binary64

theorem ofUnsigned?_of_isDigit {negative : Bool} {c : Char} {cs : List Char}
    (h : Decimal.isDigit c = true) :
    ofUnsigned? negative (c :: cs) =
      (Decimal.ofLiteral? (c :: cs)).map (Decimal.toBinary64 negative) := by
  have hl : c.toLower = c := by
    have h9 : c.toNat ≤ 57 := by
      rw [Decimal.isDigit, Bool.and_eq_true, decide_eq_true_iff, decide_eq_true_iff] at h
      exact h.2
    unfold Char.toLower
    rw [dif_neg]
    intro hA
    have : 65 ≤ c.toNat := hA.1
    omega
  have hi : c ≠ 'i' := fun hc => by
    rw [hc] at h
    cases h
  have hn : c ≠ 'n' := fun hc => by
    rw [hc] at h
    cases h
  simp [ofUnsigned?, hl, hi, hn]

theorem ofUnsigned?_positional {negative : Bool} {d : Decimal}  :
    ofUnsigned? negative d.positional = some (d.toBinary64 negative) := by
  obtain ⟨d', hr, hn⟩ := d.ofLiteral?_positional
  obtain ⟨c, cs, hp, hc⟩ := d.head_positional
  rw [hp] at hr ⊢
  rw [ofUnsigned?_of_isDigit hc, hr, Option.map_some, Decimal.toBinary64, Decimal.toBinary64, hn]

theorem splitSign_renderRank (rank : Nat) :
    Decimal.splitSign (renderRank rank) = (false, renderRank rank) := by
  unfold renderRank
  split
  · rfl
  · split
    · rfl
    · obtain ⟨c, cs, hp, hc⟩ := (Decimal.shortest rank).head_positional
      rw [hp]
      refine Decimal.splitSign_cons ?_ ?_
      · intro h
        rw [h] at hc
        cases hc
      · intro h
        rw [h] at hc
        cases hc

theorem ofUnsigned?_renderRank (negative : Bool) (rank : Fin (infinityRank + 1)) :
    ofUnsigned? negative (renderRank rank) = some (.signed negative rank) := by
  have hle : rank.val ≤ infinityRank := Nat.le_of_lt_succ rank.isLt
  have hrank : ∀ n, n = rank.val → ofRank negative n = .signed negative rank := by
    intro n hn
    rw [hn]
    exact congrArg (signed negative) (Fin.ext (Nat.min_eq_left hle))
  unfold renderRank
  by_cases h0 : rank.val = 0
  · rw [if_pos h0, ← hrank 0 h0.symm]
    rfl
  · rw [if_neg h0]
    by_cases hi : rank.val = infinityRank
    · rw [if_pos hi, ← hrank infinityRank hi.symm]
      rfl
    · rw [if_neg hi, ofUnsigned?_positional, Decimal.toBinary64,
        Decimal.nearest_shortest h0 (Nat.lt_of_le_of_ne hle hi), hrank _ rfl]

/-- Every double has a text that is a literal of it. -/
theorem ofLiteral?_render (x : Binary64) : ofLiteral? x.render = some x := by
  cases x with
  | nan => decide
  | signed negative rank =>
    cases negative with
    | false =>
      simp only [ofLiteral?, render, String.toList_ofList, splitSign_renderRank]
      exact ofUnsigned?_renderRank false rank
    | true =>
      simp only [ofLiteral?, render, String.toList_ofList, Decimal.splitSign]
      exact ofUnsigned?_renderRank true rank

end Binary64
end TokenForest
