import TokenForest.Fault

set_option autoImplicit false

namespace TokenForest

namespace Bracket

/-- The place of the closer that ends the enclosure, where so many further openers of the family
are still to be closed before it. The count has no bound; a word of 32 bits with a sign holds it as
long as fewer than 2^31 of them are open at a time. -/
def closeFrom (b : Bracket) : Nat → List Token → Option Nat
  | _, [] => none
  | extra, t :: ts =>
    if t.kind = .opening b then (b.closeFrom (extra + 1) ts).map (· + 1)
    else if t.kind = .closing b then
      match extra with
      | 0 => some 0
      | extra + 1 => (b.closeFrom extra ts).map (· + 1)
    else (b.closeFrom extra ts).map (· + 1)

/-- The place in the stream of the closer of an opener that was already taken off it. A missing one
is reported where the search ended. -/
def findClose (b : Bracket) (opener : Token) (stream : List Token) : Except Fault Nat :=
  match b.closeFrom 0 stream with
  | some i => .ok i
  | none => .error ⟨.unclosedGroup b.closeText, (stream.getLast?.getD opener).position⟩

theorem closeFrom_lt {b : Bracket} {stream : List Token} {extra i : Nat}
    (h : b.closeFrom extra stream = some i) : i < stream.length := by
  induction stream generalizing extra i with
  | nil => simp [closeFrom] at h
  | cons t ts ih =>
    unfold closeFrom at h
    split at h
    · obtain ⟨j, hj, rfl⟩ := Option.map_eq_some_iff.1 h
      simpa using ih hj
    · split at h
      · split at h
        · obtain rfl := Option.some.inj h
          simp
        · obtain ⟨j, hj, rfl⟩ := Option.map_eq_some_iff.1 h
          simpa using ih hj
      · obtain ⟨j, hj, rfl⟩ := Option.map_eq_some_iff.1 h
        simpa using ih hj

theorem closeFrom_split {b : Bracket} {stream : List Token} {extra i : Nat}
    (h : b.closeFrom extra stream = some i) :
    ∃ closer, closer.kind = .closing b ∧
      stream = stream.take i ++ closer :: stream.drop (i + 1) := by
  induction stream generalizing extra i with
  | nil => simp [closeFrom] at h
  | cons t ts ih =>
    have later : ∀ {extra}, (b.closeFrom extra ts).map (· + 1) = some i →
        ∃ closer, closer.kind = .closing b ∧
          t :: ts = (t :: ts).take i ++ closer :: (t :: ts).drop (i + 1) := by
      intro extra h
      obtain ⟨j, hj, rfl⟩ := Option.map_eq_some_iff.1 h
      obtain ⟨closer, hk, hs⟩ := ih hj
      exact ⟨closer, hk, by simpa using hs⟩
    unfold closeFrom at h
    split at h
    · exact later h
    · split at h
      · rename_i hk
        split at h
        · obtain rfl := Option.some.inj h
          exact ⟨t, hk, rfl⟩
        · exact later h
      · exact later h

end Bracket

end TokenForest
