import TokenForest.Proofs.Nesting
import TokenForest.Proofs.Steps

set_option autoImplicit false

namespace TokenForest

namespace Bracket

def openers (b : Bracket) (ts : List Token) : Nat := ts.countP fun t => t.kind == .opening b

def closers (b : Bracket) (ts : List Token) : Nat := ts.countP fun t => t.kind == .closing b

/-- Up to the place and with it, there is one closer of the family more than there are openers. -/
def ClosesAt (b : Bracket) (stream : List Token) (i : Nat) : Prop :=
  i < stream.length ∧ b.closers (stream.take (i + 1)) = b.openers (stream.take (i + 1)) + 1

section Counts

variable {b : Bracket} {t : Token} {stream : List Token} {extra i j : Nat}

theorem openers_cons (b : Bracket) (t : Token) (ts : List Token) :
    b.openers (t :: ts) = b.openers [t] + b.openers ts := by
  rw [← List.singleton_append, openers, List.countP_append]
  rfl

theorem closers_cons (b : Bracket) (t : Token) (ts : List Token) :
    b.closers (t :: ts) = b.closers [t] + b.closers ts := by
  rw [← List.singleton_append, closers, List.countP_append]
  rfl

theorem closeFrom_cons_counts (b : Bracket) (t : Token) (extra : Nat) :
    (extra = 0 ∧ b.openers [t] = 0 ∧ b.closers [t] = 1 ∧
        ∀ ts, b.closeFrom extra (t :: ts) = some 0) ∨
      ∃ extra', extra' + b.closers [t] = extra + b.openers [t] ∧
        ∀ ts, b.closeFrom extra (t :: ts) = (b.closeFrom extra' ts).map (· + 1) := by
  by_cases ho : t.kind = .opening b
  · have hcounts : b.openers [t] = 1 ∧ b.closers [t] = 0 := by simp [openers, closers, ho]
    exact .inr ⟨extra + 1, by omega, fun ts => closeFrom_opening ts ho⟩
  by_cases hc : t.kind = .closing b
  · have hcounts : b.openers [t] = 0 ∧ b.closers [t] = 1 := by simp [openers, closers, hc]
    cases extra with
    | zero => exact .inl ⟨rfl, hcounts.1, hcounts.2, fun ts => closeFrom_closing_zero ts hc⟩
    | succ extra => exact .inr ⟨extra, by omega, fun ts => closeFrom_closing_succ ts hc⟩
  · have hcounts : b.openers [t] = 0 ∧ b.closers [t] = 0 := by simp [openers, closers, ho, hc]
    exact .inr ⟨extra, by omega, fun ts => closeFrom_other ts ho hc⟩

/-- The invariant of the search: what is open at the start and what is opened later is enough for
all closers before the one that is found. -/
theorem counts_of_closeFrom (h : b.closeFrom extra stream = some i) :
    b.closers (stream.take (i + 1)) = b.openers (stream.take (i + 1)) + extra + 1 ∧
      ∀ j ≤ i, b.closers (stream.take j) ≤ b.openers (stream.take j) + extra := by
  induction stream generalizing extra i with
  | nil => simp [closeFrom] at h
  | cons t ts ih =>
    rcases b.closeFrom_cons_counts t extra with ⟨rfl, ho, hc, hzero⟩ | ⟨extra', hcount, hsucc⟩
    · obtain rfl : 0 = i := Option.some.inj ((hzero ts).symm.trans h)
      refine ⟨by simp [ho, hc], fun j hj => ?_⟩
      obtain rfl := Nat.le_zero.1 hj
      exact Nat.zero_le _
    · rw [hsucc] at h
      obtain ⟨k, hk, rfl⟩ := Option.map_eq_some_iff.1 h
      obtain ⟨hlast, hbefore⟩ := ih hk
      rw [List.take_succ_cons, closers_cons, openers_cons]
      refine ⟨by omega, fun j hj => ?_⟩
      cases j with
      | zero => exact Nat.zero_le _
      | succ j =>
        have hle := hbefore j (by omega)
        rw [List.take_succ_cons, closers_cons, openers_cons]
        omega

theorem counts_of_closeFrom_eq_none (h : b.closeFrom extra stream = none) (j : Nat) :
    b.closers (stream.take j) ≤ b.openers (stream.take j) + extra := by
  induction stream generalizing extra j with
  | nil => simp [closers]
  | cons t ts ih =>
    rcases b.closeFrom_cons_counts t extra with ⟨-, -, -, hzero⟩ | ⟨extra', hcount, hsucc⟩
    · rw [hzero] at h
      cases h
    · rw [hsucc, Option.map_eq_none_iff] at h
      cases j with
      | zero => exact Nat.zero_le _
      | succ j =>
        have hle := ih h j
        rw [List.take_succ_cons, closers_cons, openers_cons]
        omega

theorem counts_before_closeFrom (h : b.closeFrom 0 stream = some i) :
    (∀ j < i, b.closers (stream.take j) ≤ b.openers (stream.take j)) ∧
      b.closers (stream.take i) = b.openers (stream.take i) := by
  obtain ⟨hlast, hbefore⟩ := counts_of_closeFrom h
  refine ⟨fun j hj => hbefore j (Nat.le_of_lt hj), ?_⟩
  obtain ⟨closer, hk, hsplit⟩ := closeFrom_split h
  have hlt := closeFrom_lt h
  have htake : stream.take (i + 1) = stream.take i ++ [closer] := by
    have hfront : (stream.take i ++ [closer]).length = i + 1 := by simp [Nat.le_of_lt hlt]
    rw [List.append_cons] at hsplit
    calc stream.take (i + 1)
        = (stream.take i ++ [closer] ++ stream.drop (i + 1)).take (i + 1) := congrArg _ hsplit
      _ = stream.take i ++ [closer] := List.take_left' hfront
  have hcounts : b.openers [closer] = 0 ∧ b.closers [closer] = 1 := by simp [openers, closers, hk]
  rw [htake] at hlast
  simp only [openers, closers, List.countP_append] at hlast hcounts ⊢
  omega

theorem closeFrom_eq_some_iff :
    b.closeFrom 0 stream = some i ↔ b.ClosesAt stream i ∧ ∀ j < i, ¬ b.ClosesAt stream j := by
  constructor
  · intro h
    obtain ⟨hlast, hbefore⟩ := counts_of_closeFrom h
    refine ⟨⟨closeFrom_lt h, hlast⟩, fun j hj hclose => ?_⟩
    have hle := hbefore (j + 1) hj
    have heq := hclose.2
    omega
  · intro h
    obtain ⟨hclose, hfirst⟩ := h
    have heq := hclose.2
    cases hf : b.closeFrom 0 stream with
    | none =>
      have hle := counts_of_closeFrom_eq_none hf (i + 1)
      omega
    | some k =>
      obtain ⟨hlast, hbefore⟩ := counts_of_closeFrom hf
      have hnot : ¬ k < i := fun hk => hfirst k hk ⟨closeFrom_lt hf, hlast⟩
      have hnot' : ¬ i < k := fun hk => by
        have hle := hbefore (i + 1) hk
        omega
      exact congrArg some (by omega)

theorem closeFrom_eq_none_iff :
    b.closeFrom 0 stream = none ↔ ∀ j, b.closers (stream.take j) ≤ b.openers (stream.take j) := by
  constructor
  · exact counts_of_closeFrom_eq_none
  · intro h
    cases hf : b.closeFrom 0 stream with
    | none => rfl
    | some k =>
      have hlast := (counts_of_closeFrom hf).1
      have hle := h (k + 1)
      omega

variable {opener : Token} {f : Fault}

theorem findClose_eq_ok_iff :
    b.findClose opener stream = .ok i ↔ b.closeFrom 0 stream = some i := by
  unfold findClose
  cases b.closeFrom 0 stream <;> simp

theorem findClose_eq_error_iff :
    b.findClose opener stream = .error f ↔ b.closeFrom 0 stream = none ∧
      f = ⟨.unclosedGroup b.closeText, (stream.getLast?.getD opener).position⟩ := by
  unfold findClose
  cases b.closeFrom 0 stream <;> simp [eq_comm]

end Counts

end Bracket

namespace Reader

variable {r : Reader} {b : Bracket} {opener : Token} {stream : List Token} {i : Nat}

/-- Once the closer is found, the enclosure is gone from the stream, whatever its inside is. -/
theorem interior_of_closeFrom (h : b.closeFrom 0 stream = some i) :
    r.interior b opener stream =
      ⟨(r.below? opener).bind fun below => below.list (stream.take i), stream.drop (i + 1)⟩ := by
  obtain ⟨settings, room⟩ := r
  cases room with
  | zero => simp only [interior, Context.interior, Bracket.findClose, h]; rfl
  | succ room =>
    have hlist : (Reader.mk settings room).list (stream.take i) =
        ((scanWithin settings room).level settings.maxDepth (stream.take i)).outcome := by
      rw [list, Reader.stream, scan_eq]
    simp only [interior, Context.interior, Bracket.findClose, h, below?, Except.bind, hlist]
    rfl

theorem interior_of_unclosed (h : b.closeFrom 0 stream = none) :
    r.interior b opener stream =
      ⟨.error ⟨.unclosedGroup b.closeText, (stream.getLast?.getD opener).position⟩, stream⟩ := by
  simp only [interior, Context.interior, Bracket.findClose, h]

/-- The closer of an enclosure is the first place where the closers of its family get ahead of the
openers; there is none if they never do. Up to there the stream is cut off and what it encloses is
read one level down. -/
theorem interior_cut (r : Reader) (b : Bracket) (opener : Token) (stream : List Token) :
    (∀ i, b.findClose opener stream = .ok i ↔
        b.ClosesAt stream i ∧ ∀ j < i, ¬ b.ClosesAt stream j) ∧
      ((∃ f, b.findClose opener stream = .error f) ↔
        ∀ j, b.closers (stream.take j) ≤ b.openers (stream.take j)) ∧
      (∀ i, b.findClose opener stream = .ok i →
        (∀ j < i, b.closers (stream.take j) ≤ b.openers (stream.take j)) ∧
        b.closers (stream.take i) = b.openers (stream.take i) ∧
        (r.interior b opener stream).rest = stream.drop (i + 1) ∧
        (r.room = 0 → (r.interior b opener stream).outcome =
          .error ⟨.tooDeep r.settings.maxDepth, opener.position⟩) ∧
        ∀ room, r.room = room + 1 → (r.interior b opener stream).outcome =
          Reader.list ⟨r.settings, room⟩ (stream.take i)) ∧
      ∀ f, b.findClose opener stream = .error f →
        f = ⟨.unclosedGroup b.closeText, (stream.getLast?.getD opener).position⟩ ∧
        r.interior b opener stream = ⟨.error f, stream⟩ := by
  refine ⟨fun i => ?_, ?_, fun i h => ?_, fun f h => ?_⟩
  · rw [Bracket.findClose_eq_ok_iff, Bracket.closeFrom_eq_some_iff]
  · rw [← Bracket.closeFrom_eq_none_iff]
    exact ⟨fun ⟨f, h⟩ => (Bracket.findClose_eq_error_iff.1 h).1,
      fun h => ⟨_, Bracket.findClose_eq_error_iff.2 ⟨h, rfl⟩⟩⟩
  · have hc := Bracket.findClose_eq_ok_iff.1 h
    obtain ⟨hbefore, hlevel⟩ := Bracket.counts_before_closeFrom hc
    rw [interior_of_closeFrom hc]
    refine ⟨hbefore, hlevel, rfl, fun hr => ?_, fun room hr => ?_⟩
    · rw [below?, hr]
      rfl
    · rw [below?, hr]
      rfl
  · obtain ⟨hc, rfl⟩ := Bracket.findClose_eq_error_iff.1 h
    exact ⟨rfl, interior_of_unclosed hc⟩

/-- The tokens of a(b)[)])c, of which the first closing parenthesis that is not its own ends an
enclosure. -/
def crossedTokens : List Token :=
  .plain .word "a" :: (Bracket.parenthesis.enclose [.plain .word "b"] ++
    .plain (.opening .square) "[" :: .plain (.closing .parenthesis) ")"
      :: .plain (.closing .square) "]" :: [.plain (.closing .parenthesis) ")", .plain .word "c"])

def crossedOpener : Token := .plain (.opening .parenthesis) "("

/-- The search does not see the square brackets; one of them fails inside, the other is left. -/
theorem interior_cut_crossed :
    Bracket.parenthesis.findClose crossedOpener crossedTokens = .ok 5 ∧
      ((Reader.top .standard).interior .parenthesis crossedOpener crossedTokens).outcome =
        .error ⟨.unclosedGroup "]", .nowhere⟩ ∧
      ((Reader.top .standard).interior .parenthesis crossedOpener crossedTokens).rest =
        crossedTokens.drop 6 := by
  have hfind : Bracket.parenthesis.findClose crossedOpener crossedTokens = .ok 5 := rfl
  have hfault : (Reader.mk .standard 255).list (crossedTokens.take 5) =
      .error ⟨.unclosedGroup "]", .nowhere⟩ := rfl
  have hall := interior_cut (.top .standard) .parenthesis crossedOpener crossedTokens
  obtain ⟨-, -, hrest, -, hinside⟩ := hall.2.2.1 5 hfind
  exact ⟨hfind, (hinside 255 rfl).trans hfault, hrest⟩

end Reader

end TokenForest
