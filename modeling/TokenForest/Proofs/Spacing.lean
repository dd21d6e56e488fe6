import TokenForest.Proofs.Nesting
import TokenForest.Proofs.Admission

/-!
Delimiters say nothing but before a parenthesis. Two streams that differ in one delimiter are read
in lockstep: at each step the rests differ in that delimiter or not at all, and where it comes up
it is passed over.
-/

set_option autoImplicit false

namespace TokenForest

namespace Token

def Unmarkable (ts : List Token) : Prop := ∀ t ∈ ts.head?, t.kind ≠ .opening .parenthesis

def Delayed (ts : List Token) : Prop := ∃ d ∈ ts.head?, d.kind = .delimiter

variable {d t : Token} {ts us : List Token}

theorem Unmarkable.regroup_eq (h : Unmarkable ts) : regroup ts = ts := by
  cases ts with
  | nil => rfl
  | cons t ts => rw [regroup, grouped, if_neg (h t rfl)]

theorem Unmarkable.take (h : Unmarkable ts) (i : Nat) : Unmarkable (ts.take i) := by
  intro t ht
  cases i with
  | zero => simp at ht
  | succ i =>
    cases ts with
    | nil => simp at ht
    | cons s ts => exact h t ht

theorem unmarkable_delimiter (h : d.kind = .delimiter) (ts : List Token) :
    Unmarkable (d :: ts) := by
  rintro t ⟨⟩
  simp [h]

theorem delayed_cons : Delayed (t :: ts) ↔ t.kind = .delimiter := by simp [Delayed]

theorem Delayed.of_take {i : Nat} (h : Delayed (ts.take i)) : Delayed ts := by
  cases ts with
  | nil => simp [Delayed] at h
  | cons t ts =>
    cases i with
    | zero => simp [Delayed] at h
    | succ i => exact h

theorem Delayed.secondPeriod_eq (h : Delayed ts) : secondPeriod ts = (false, ts) := by
  obtain ⟨d, hd, hk⟩ := h
  exact secondPeriod_of_kind (by simp [Option.mem_def.1 hd, hk])

@[simp] theorem grouped_kind (t : Token) : t.grouped.kind = t.kind := @mark_kind t true

end Token

/-- The second list has one delimiter more than the first, or one less, or none; it does not stand
right before a parenthesis. After a period a delimiter may be one less, but not one more. -/
inductive Respaced : List Token → List Token → Prop where
  | same (ts : List Token) : Respaced ts ts
  | added {d : Token} {ts : List Token} : d.kind = .delimiter → Token.Unmarkable ts →
      Respaced ts (d :: ts)
  | removed {d : Token} {ts : List Token} : d.kind = .delimiter → Token.Unmarkable ts →
      Respaced (d :: ts) ts
  | later {t : Token} {ts us : List Token} : Respaced ts us →
      (t.kind = .period → Token.Delayed us → Token.Delayed ts) → Respaced (t :: ts) (t :: us)

namespace Respaced

variable {b : Bracket} {d t : Token} {ts us before after : List Token} {extra i : Nat}

theorem regroup (h : Respaced ts us) : Respaced (Token.regroup ts) (Token.regroup us) := by
  cases h with
  | same => exact .same _
  | added hd hu =>
    rw [hu.regroup_eq, (Token.unmarkable_delimiter hd ts).regroup_eq]
    exact .added hd hu
  | removed hd hu =>
    rw [hu.regroup_eq, (Token.unmarkable_delimiter hd us).regroup_eq]
    exact .removed hd hu
  | later h hp => exact .later h (by rwa [Token.grouped_kind])

theorem closeFrom (h : Respaced ts us) (hc : b.closeFrom extra ts = some i) :
    ∃ j, b.closeFrom extra us = some j ∧ Respaced (ts.take i) (us.take j) ∧
      Respaced (ts.drop (i + 1)) (us.drop (j + 1)) := by
  induction h generalizing extra i with
  | same ts => exact ⟨i, hc, .same _, .same _⟩
  | @added d ts hd hu =>
    refine ⟨i + 1, ?_, ?_, .same _⟩
    · rw [Bracket.closeFrom_other ts (by simp [hd]) (by simp [hd]), hc]
      rfl
    · exact .added hd (hu.take i)
  | @removed d ts hd hu =>
    rw [Bracket.closeFrom_other ts (by simp [hd]) (by simp [hd])] at hc
    obtain ⟨j, hj, rfl⟩ := Option.map_eq_some_iff.1 hc
    exact ⟨j, hj, .removed hd (hu.take j), .same _⟩
  | @later t ts us h hp ih =>
    rcases b.closeFrom_cons t extra with ⟨-, hzero⟩ | ⟨extra', hsucc⟩
    · obtain rfl : 0 = i := Option.some.inj ((hzero ts).symm.trans hc)
      exact ⟨0, hzero us, .same _, h⟩
    · rw [hsucc] at hc
      obtain ⟨k, hk, rfl⟩ := Option.map_eq_some_iff.1 hc
      obtain ⟨j, hj, htake, hdrop⟩ := ih hk
      refine ⟨j + 1, by rw [hsucc, hj]; rfl, .later htake fun hperiod hdelayed => ?_, hdrop⟩
      have hts : Token.Delayed ts := hp hperiod hdelayed.of_take
      cases ts with
      | nil => simp [Token.Delayed] at hts
      | cons d ts =>
        rw [Token.delayed_cons] at hts
        rw [Bracket.closeFrom_other ts (by simp [hts]) (by simp [hts])] at hk
        obtain ⟨k, -, rfl⟩ := Option.map_eq_some_iff.1 hk
        exact Token.delayed_cons.2 hts

theorem secondPeriod (h : Respaced ts us) (hp : Token.Delayed us → Token.Delayed ts)
    (hts : ¬ Token.Delayed ts) :
    (secondPeriod us).1 = (secondPeriod ts).1 ∧
      Respaced (secondPeriod ts).2 (secondPeriod us).2 ∧
      (Token.Delayed (secondPeriod us).2 → Token.Delayed (secondPeriod ts).2) := by
  cases h with
  | same => exact ⟨rfl, .same _, id⟩
  | added hd => exact absurd (hp (Token.delayed_cons.2 hd)) hts
  | removed hd => exact absurd (Token.delayed_cons.2 hd) hts
  | @later t ts us h hdots =>
    by_cases hk : t.kind = .period
    · simp only [TokenForest.secondPeriod, if_pos hk]
      exact ⟨trivial, h, hdots hk⟩
    · simp only [TokenForest.secondPeriod, if_neg hk]
      exact ⟨trivial, .later h hdots, id⟩

theorem insert (hd : d.kind = .delimiter) (hu : Token.Unmarkable after)
    (hb : ∀ p ∈ before.getLast?, p.kind ≠ .period) :
    Respaced (before ++ after) (before ++ d :: after) := by
  induction before with
  | nil => exact .added hd hu
  | cons t before ih =>
    cases before with
    | nil => exact .later (.added hd hu) fun hk => absurd hk (hb t rfl)
    | cons s before =>
      refine .later (ih ?_) fun _ hs => hs
      simpa using hb

theorem erase (hd : d.kind = .delimiter) (hu : Token.Unmarkable after) :
    Respaced (before ++ d :: after) (before ++ after) := by
  induction before with
  | nil => exact .removed hd hu
  | cons t before ih =>
    cases before with
    | nil => exact .later ih fun _ _ => Token.delayed_cons.2 hd
    | cons s before => exact .later ih fun _ hs => hs

end Respaced

/-- A scan that reads a stream with one delimiter more or less as it reads the stream. -/
structure Scan.Respaces (scan : Scan) : Prop where
  regular : scan.Regular
  delimiter : ∀ ⦃d : Token⦄ ⦃ts : List Token⦄ ⦃row : Row⦄, d.kind = .delimiter →
    scan d ts row = ⟨.ok (), Token.regroup ts, row⟩
  step : ∀ ⦃t : Token⦄ ⦃ts us rest : List Token⦄ ⦃row row' : Row⦄,
    scan t ts row = ⟨.ok (), rest, row'⟩ → Respaced ts us →
      (t.kind = .period → Token.Delayed us → Token.Delayed ts) →
        ∃ rest', scan t us row = ⟨.ok (), rest', row'⟩ ∧ Respaced rest rest'

namespace Scan.Respaces

variable {scan : Scan} {stream stream' rest : List Token} {row row' found : Row} {limit : Nat}
  {content : List Entry} {e : Entry}

theorem runs (h : scan.Respaces) (hrun : Runs scan stream row rest row') (hrest : rest = [])
    (hs : Respaced stream stream') : Runs scan stream' row [] row' := by
  induction hrun generalizing stream' with
  | refl stream row =>
    subst hrest
    cases hs with
    | same => exact .refl _ _
    | added hd => exact .single (h.delimiter hd)
  | @step t ts mid rest row row₁ row' ht hrun ih =>
    subst hrest
    cases hs with
    | same => exact .step ht hrun
    | added hd hu =>
      refine .step (h.delimiter hd) ?_
      rw [hu.regroup_eq]
      exact .step ht hrun
    | removed hd hu =>
      have hdrop := (@h.delimiter _ ts row hd).symm.trans ht
      rw [hu.regroup_eq] at hdrop
      cases hdrop
      exact hrun
    | later hs hp =>
      obtain ⟨mid', ht', hmid⟩ := h.step ht hs hp
      exact .step ht' (ih rfl hmid)

theorem level (h : scan.Respaces) (hl : scan.level limit stream = ⟨.ok content, rest⟩)
    (hs : Respaced stream stream') : scan.level limit stream' = ⟨.ok content, []⟩ := by
  obtain ⟨rfl, row, hrun, hf⟩ := (level_eq_ok_iff h.regular.shrinks).1 hl
  exact (level_eq_ok_iff h.regular.shrinks).2 ⟨rfl, row, h.runs hrun rfl hs, hf⟩

theorem not_delayed (h : scan.Respaces) (ho : scan.one stream [] = ⟨.ok (), rest, e :: found⟩) :
    ¬ Token.Delayed stream := by
  cases stream with
  | nil => cases ho
  | cons t ts =>
    intro hd
    have hskip := (@h.delimiter _ ts [] (Token.delayed_cons.1 hd)).symm.trans ho
    cases hskip

theorem one (h : scan.Respaces) (ho : scan.one stream [] = ⟨.ok (), rest, e :: found⟩)
    (hs : Respaced stream stream') (hp : Token.Delayed stream' → Token.Delayed stream) :
    ∃ rest', scan.one stream' [] = ⟨.ok (), rest', e :: found⟩ ∧ Respaced rest rest' := by
  have hnot := h.not_delayed ho
  cases hs with
  | same => exact ⟨rest, ho, .same _⟩
  | added hd => exact absurd (hp (Token.delayed_cons.2 hd)) hnot
  | removed hd => exact absurd (Token.delayed_cons.2 hd) hnot
  | later hs hdots => exact h.step ho hs hdots

end Scan.Respaces

theorem Context.Reads.respace {ctx : Context} {token : Token} {stream stream' rest : List Token}
    {row row' : Row} (hb : ∀ scan, ctx.below = some scan → scan.Respaces)
    (h : ctx.Reads token stream row rest row') (hs : Respaced stream stream')
    (hp : token.kind = .period → Token.Delayed stream' → Token.Delayed stream) :
    ∃ rest', ctx.Reads token stream' row rest' row' ∧ Respaced rest rest' := by
  cases h with
  | delimiter hk => exact ⟨_, .delimiter hk, hs.regroup⟩
  | atom hn => exact ⟨stream', .atom hn, hs⟩
  | @enclosed b close scan content e below hk hc hbs hl ha hd =>
    obtain ⟨close', hc', htake, hdrop⟩ := hs.closeFrom hc
    have hlevel := (hb scan hbs).regular.level_of_outcome hl
    have hl' := congrArg Reading.outcome ((hb scan hbs).level hlevel htake)
    exact ⟨_, .enclosed hk hc' hbs hl' ha hd, hdrop⟩
  | @dot left right below found scan rest hk hr hlo hbs ho hro hd =>
    have hnot : ¬ Token.Delayed stream := by
      intro hdelayed
      refine (hb scan hbs).not_delayed ho ?_
      rwa [hdelayed.secondPeriod_eq]
    obtain ⟨hsame, hsecond, hp'⟩ := hs.secondPeriod (hp hk) hnot
    obtain ⟨rest', ho', hrest⟩ := (hb scan hbs).one ho hsecond hp'
    rw [← hsame] at hd ⊢
    exact ⟨rest', .dot hk hr hlo hbs ho' hro hd, hrest⟩
  | semicolon hk hr ho hd => exact ⟨stream', .semicolon hk hr ho hd, hs⟩
  | @choice condition below scan op left right depth rest hk hr ho hbs hl hsym hd =>
    obtain ⟨rfl, -⟩ := (Scan.level_eq_ok_iff (hb scan hbs).regular.shrinks).1 hl
    exact ⟨[], .choice hk hr ho hbs ((hb scan hbs).level hl hs) hsym hd, .same _⟩

theorem respaces_scanWithin (settings : Settings) (room : Nat) :
    (scanWithin settings room).Respaces := by
  refine scanWithin_induction settings (P := Scan.Respaces) ?_ room
  intro below hb
  refine ⟨Context.regular_scan fun scan hs => (hb scan hs).regular, ?_, ?_⟩
  · exact fun d ts row hd => (Context.Reads.delimiter hd).scan_eq
  · intro t ts us rest row row' h hs hp
    obtain ⟨rest', hr, hrest⟩ := (Context.reads_of_scan h).respace hb hs hp
    exact ⟨rest', hr.scan_eq, hrest⟩

theorem parseWith_of_respaced {settings : Settings} {tokens tokens' : List Token}
    {nodes : List Node} (hs : Respaced tokens tokens')
    (h : parseWith settings tokens = .ok nodes) : parseWith settings tokens' = .ok nodes := by
  obtain ⟨content, hl, hn⟩ := parseWith_eq_ok_iff.1 h
  exact parseWith_eq_ok_iff.2 ⟨content, (respaces_scanWithin settings _).level hl hs, hn⟩

/-- A delimiter that does not stand right before a parenthesis may be left out, and put in too
where it does not stand right after a period: the forest that is read stays the same. -/
theorem parseWith_delimiter {settings : Settings} {before after : List Token} {d : Token}
    {nodes : List Node} (hd : d.kind = .delimiter)
    (hafter : ∀ t ∈ after.head?, t.kind ≠ .opening .parenthesis) :
    (parseWith settings (before ++ d :: after) = .ok nodes →
        parseWith settings (before ++ after) = .ok nodes) ∧
      ((∀ t ∈ before.getLast?, t.kind ≠ .period) →
        parseWith settings (before ++ after) = .ok nodes →
          parseWith settings (before ++ d :: after) = .ok nodes) :=
  ⟨parseWith_of_respaced (.erase hd hafter),
    fun hbefore => parseWith_of_respaced (.insert hd hafter hbefore)⟩

def calledTokens : List Token := .plain .word "f" :: Bracket.parenthesis.enclose [.plain .word "x"]

def branchTokens : List Token :=
  Bracket.brace.enclose [.plain .word "a", .plain .questionMark "?", .plain .word "b",
    .plain .operator ":", .plain .word "c"]

def branchFunction : Node :=
  .function (some "f") [.identifier "x"]
    [.ternary (.identifier "a") (.identifier "b") (.identifier "c")]

/-- A delimiter does not keep the brace from the call. -/
theorem parseWith_delimiter_function :
    parseWith .standard (calledTokens ++ .plain .delimiter "," :: branchTokens) =
        .ok [branchFunction] ∧
      parseWith .standard (calledTokens ++ branchTokens) = .ok [branchFunction] := by
  have h : parseWith .standard (calledTokens ++ branchTokens) = .ok [branchFunction] := rfl
  have hboth := @parseWith_delimiter .standard calledTokens branchTokens (.plain .delimiter ",")
    [branchFunction] rfl (by decide)
  have hinsert := hboth.2 (by decide) h
  exact ⟨hinsert, hboth.1 hinsert⟩

end TokenForest
