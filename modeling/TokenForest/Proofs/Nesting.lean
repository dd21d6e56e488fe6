import TokenForest.Balance
import TokenForest.Enclosure
import TokenForest.Node.Tokens

set_option autoImplicit false

namespace TokenForest

namespace Bracket

variable {b : Bracket} {t : Token} {extra : Nat}

theorem closeFrom_opening (ts : List Token) (h : t.kind = .opening b) :
    b.closeFrom extra (t :: ts) = (b.closeFrom (extra + 1) ts).map (· + 1) := by
  rw [closeFrom.eq_def]
  simp [h]

theorem closeFrom_closing_zero (ts : List Token) (h : t.kind = .closing b) :
    b.closeFrom 0 (t :: ts) = some 0 := by
  rw [closeFrom.eq_def]
  simp [h]

theorem closeFrom_closing_succ (ts : List Token) (h : t.kind = .closing b) :
    b.closeFrom (extra + 1) (t :: ts) = (b.closeFrom extra ts).map (· + 1) := by
  rw [closeFrom.eq_def]
  simp [h]

theorem closeFrom_other (ts : List Token) (ho : t.kind ≠ .opening b) (hc : t.kind ≠ .closing b) :
    b.closeFrom extra (t :: ts) = (b.closeFrom extra ts).map (· + 1) := by
  rw [closeFrom.eq_def]
  simp [ho, hc]

theorem closeFrom_cons (b : Bracket) (t : Token) (extra : Nat) :
    (t.kind = .closing b ∧ ∀ ts, b.closeFrom extra (t :: ts) = some 0) ∨
      ∃ extra', ∀ ts, b.closeFrom extra (t :: ts) = (b.closeFrom extra' ts).map (· + 1) := by
  by_cases ho : t.kind = .opening b
  · exact .inr ⟨extra + 1, fun ts => closeFrom_opening ts ho⟩
  by_cases hc : t.kind = .closing b
  · cases extra with
    | zero => exact .inl ⟨hc, fun ts => closeFrom_closing_zero ts hc⟩
    | succ extra => exact .inr ⟨extra, fun ts => closeFrom_closing_succ ts hc⟩
  · exact .inr ⟨extra, fun ts => closeFrom_other ts ho hc⟩

theorem closeFrom_congr {ts us : List Token} (h : ts.map Token.kind = us.map Token.kind) :
    b.closeFrom extra ts = b.closeFrom extra us := by
  induction ts generalizing us extra with
  | nil =>
    obtain rfl := List.map_eq_nil_iff.1 h.symm
    rfl
  | cons t ts ih =>
    obtain ⟨u, us, rfl, hk, hs⟩ := List.map_eq_cons_iff.1 h.symm
    simp only [closeFrom, hk, ih hs.symm]

theorem closeFrom_append_right {ts : List Token} {i : Nat} (us : List Token)
    (h : b.closeFrom extra ts = some i) : b.closeFrom extra (ts ++ us) = some i := by
  induction ts generalizing extra i with
  | nil => simp [closeFrom] at h
  | cons t ts ih =>
    rw [List.cons_append]
    rcases b.closeFrom_cons t extra with ⟨-, hzero⟩ | ⟨extra', hsucc⟩
    · rw [hzero] at h ⊢
      exact h
    · rw [hsucc] at h ⊢
      obtain ⟨j, hj, rfl⟩ := Option.map_eq_some_iff.1 h
      rw [ih hj]
      rfl

theorem closeFrom_append {ts : List Token} (us : List Token) (h : Balanced ts) :
    b.closeFrom extra (ts ++ us) = (b.closeFrom extra us).map (· + ts.length) := by
  induction h generalizing extra us with
  | nil => simp
  | @plain t ts ht _ ih =>
    have ho : t.kind ≠ .opening b := by
      intro hk
      simp [Token.isBracket, hk] at ht
    have hc : t.kind ≠ .closing b := by
      intro hk
      simp [Token.isBracket, hk] at ht
    rw [List.cons_append, closeFrom_other _ ho hc, ih, Option.map_map]
    rfl
  | @enclosed c opener closer inside ts hopen hclose _ _ ihi iht =>
    have hlen : (opener :: (inside ++ closer :: ts)).length =
        ts.length + 1 + inside.length + 1 := by
      simp only [List.length_cons, List.length_append]
      omega
    have hsum : ((((b.closeFrom extra us).map (· + ts.length)).map (· + 1)).map
        (· + inside.length)).map (· + 1) =
        (b.closeFrom extra us).map (· + (opener :: (inside ++ closer :: ts)).length) := by
      cases b.closeFrom extra us with
      | none => rfl
      | some i =>
        simp only [Option.map_some, hlen]
        congr 1
        omega
    rw [List.cons_append, List.append_assoc, List.cons_append, ← hsum]
    by_cases hb : c = b
    · subst hb
      rw [closeFrom_opening _ hopen, ihi, closeFrom_closing_succ _ hclose, iht]
    · have hoo : opener.kind ≠ .opening b := by simp [hopen, hb]
      have hoc : opener.kind ≠ .closing b := by simp [hopen]
      have hco : closer.kind ≠ .opening b := by simp [hclose]
      have hcc : closer.kind ≠ .closing b := by simp [hclose, hb]
      rw [closeFrom_other _ hoo hoc, ihi, closeFrom_other _ hco hcc, iht]

theorem closeFrom_balanced {inside : List Token} (rest : List Token) (h : Balanced inside)
    (hc : t.kind = .closing b) : b.closeFrom 0 (inside ++ t :: rest) = some inside.length := by
  rw [closeFrom_append _ h, closeFrom_closing_zero _ hc]
  simp

end Bracket

theorem Balanced.single {t : Token} (h : t.isBracket = false) : Balanced [t] := .plain h .nil

theorem Balanced.congr {ts us : List Token} (h : Balanced ts)
    (hk : ts.map Token.kind = us.map Token.kind) : Balanced us := by
  induction h generalizing us with
  | nil =>
    obtain rfl := List.map_eq_nil_iff.1 hk.symm
    exact .nil
  | plain ht _ ih =>
    obtain ⟨u, us, rfl, hu, hs⟩ := List.map_eq_cons_iff.1 hk.symm
    exact .plain (by rwa [Token.isBracket, hu]) (ih hs.symm)
  | enclosed ho hc _ _ ihi iht =>
    obtain ⟨o, us, rfl, hu, hs⟩ := List.map_eq_cons_iff.1 hk.symm
    rw [List.map_append, List.map_cons] at hs
    obtain ⟨inside, us, rfl, hi, hs⟩ := List.map_eq_append_iff.1 hs
    obtain ⟨c, us, rfl, hcu, hs⟩ := List.map_eq_cons_iff.1 hs
    exact .enclosed (hu.trans ho) (hcu.trans hc) (ihi hi.symm) (iht hs.symm)

theorem Balanced.enclose {inside : List Token} (b : Bracket) (h : Balanced inside) :
    Balanced (b.enclose inside) := .enclosed rfl rfl h .nil

namespace Node

mutual

theorem balanced_tokens : ∀ n : Node, Balanced n.tokens
  | .identifier _ => .single rfl
  | .number _ => .single rfl
  | .string _ => .single rfl
  | .comment _ => .single rfl
  | .call callee arguments =>
    (balanced_tokens callee).append ((balanced_listed arguments).enclose .parenthesis)
  | .group content => (balanced_listed content).enclose .parenthesis
  | .block content => (balanced_listed content).enclose .brace
  | .function none parameters body =>
    ((balanced_listed parameters).enclose .parenthesis).append
      ((balanced_listed body).enclose .brace)
  | .function (some _) parameters body =>
    .plain rfl (((balanced_listed parameters).enclose .parenthesis).append
      ((balanced_listed body).enclose .brace))
  | .set content => (balanced_listed content).enclose .square
  | .index target content =>
    (balanced_tokens target).append ((balanced_listed content).enclose .square)
  | .member target name => (balanced_tokens target).append (.plain rfl (balanced_tokens name))
  | .range start stop =>
    (balanced_tokens start).append (.plain rfl (.plain rfl (balanced_tokens stop)))
  | .statement content => (balanced_listed content).append (.single rfl)
  | .ternary condition left right =>
    ((balanced_tokens condition).append (.plain rfl (balanced_tokens left))).append
      (.plain rfl (balanced_tokens right))
  | .marker _ => .single rfl
  | .dangling _ .left operand => (balanced_tokens operand).append (.single rfl)
  | .dangling _ .right operand => .plain rfl (balanced_tokens operand)
  | .binary _ left right => (balanced_tokens left).append (.plain rfl (balanced_tokens right))

theorem balanced_listed : ∀ ns : List Node, Balanced (listed ns)
  | [] => .nil
  | [n] => balanced_tokens n
  | n :: m :: ns => (balanced_tokens n).append (.plain rfl (balanced_listed (m :: ns)))

end

end Node

end TokenForest
