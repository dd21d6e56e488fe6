import TokenForest.Proofs.Depths

/-!
What the depth limit changes. A higher limit changes nothing but faults of depth. A lower one
changes nothing either, as long as no finished tree is deeper: on its way down the reader never
goes deeper than the tree that it is building.
-/

set_option autoImplicit false

namespace TokenForest

def Cause.isTooDeep : Cause → Bool
  | .tooDeep _ => true
  | _ => false

def Unlimited {α : Type} (x : Except Fault α) : Prop :=
  ∀ f, x = .error f → f.cause.isTooDeep = false

section Raising

theorem unlimited_error {α : Type} {f : Fault} :
    Unlimited (.error f : Except Fault α) ↔ f.cause.isTooDeep = false := by
  simp [Unlimited]

theorem unlimited_ok {α : Type} (x : α) : Unlimited (.ok x : Except Fault α) := by
  simp [Unlimited]

theorem unlimited_map {α β : Type} {x : Except Fault α} {g : α → β} :
    Unlimited (x.map g) ↔ Unlimited x := by
  cases x <;> simp [Unlimited, Except.map]

variable {low high : Nat}

theorem Operator.join_of_le {op : Operator} {left right : Option Entry} (h : low ≤ high)
    (hu : Unlimited (op.join low left right)) :
    op.join high left right = op.join low left right := by
  cases left with
  | none => rfl
  | some l =>
    cases right with
    | none => rfl
    | some r =>
      simp only [join] at hu ⊢
      split
      · rename_i ho
        rw [if_pos ho] at hu
        split at hu
        · cases unlimited_error.1 hu
        · rename_i hd
          rw [if_neg hd, if_neg (fun hlt => hd (Nat.lt_of_le_of_lt h hlt))]
      · rfl

theorem Links.fold_of_le {links : Links Entry} {m : Marker} (h : low ≤ high)
    (hu : Unlimited (links.fold (Operator.join low) m)) :
    links.fold (Operator.join high) m = links.fold (Operator.join low) m := by
  simp only [fold] at *
  rw [Operator.join_of_le h (unlimited_map.1 hu)]

theorem Links.foldAll_of_le {links : Links Entry} {ms : List Marker} (h : low ≤ high)
    (hu : Unlimited (links.foldAll (Operator.join low) ms)) :
    links.foldAll (Operator.join high) ms = links.foldAll (Operator.join low) ms := by
  induction ms generalizing links with
  | nil => rfl
  | cons m ms ih =>
    simp only [foldAll] at *
    cases hf : links.fold (Operator.join low) m with
    | error f =>
      rw [hf] at hu
      rw [fold_of_le h (hf ▸ unlimited_error.2 (unlimited_error.1 hu)), hf]
    | ok links' =>
      rw [hf] at hu
      rw [fold_of_le h (hf ▸ unlimited_ok links'), hf]
      exact ih hu

theorem foldMarkers_of_le {entries : List Entry} (h : low ≤ high)
    (hu : Unlimited (foldMarkers low entries)) :
    foldMarkers high entries = foldMarkers low entries := by
  unfold foldMarkers at *
  rw [Links.foldAll_of_le h (unlimited_map.1 hu)]

/-- The second scan does all that the first one does, other than failing for depth. -/
def Scan.Extends (scan scan' : Scan) : Prop :=
  ∀ ⦃t : Token⦄ ⦃ts : List Token⦄ ⦃row : Row⦄,
    Unlimited (scan t ts row).outcome → scan' t ts row = scan t ts row

namespace Scan

variable {scan scan' : Scan} {stream : List Token} {row : Row} {fuel : Nat}

theorem Extends.one (h : scan.Extends scan') (hu : Unlimited (scan.one stream row).outcome) :
    scan'.one stream row = scan.one stream row := by
  cases stream with
  | nil => rfl
  | cons t ts => exact h hu

theorem Extends.drain (h : scan.Extends scan')
    (hu : Unlimited (scan.drain fuel stream row).outcome) :
    scan'.drain fuel stream row = scan.drain fuel stream row := by
  induction fuel generalizing stream row with
  | zero => rfl
  | succ fuel ih =>
    cases stream with
    | nil => rfl
    | cons t ts =>
      simp only [Scan.drain] at *
      cases hs : scan t ts row with
      | mk outcome rest row₁ =>
        rw [hs] at hu
        cases outcome with
        | error f =>
          rw [h (by rw [hs]; exact hu), hs]
        | ok u =>
          rw [h (by rw [hs]; exact unlimited_ok u), hs]
          exact ih hu

theorem Extends.level (h : scan.Extends scan') (hle : low ≤ high)
    (hu : Unlimited (scan.level low stream).outcome) :
    scan'.level high stream = scan.level low stream := by
  unfold Scan.level at *
  cases hd : scan.drain stream.length stream [] with
  | mk outcome rest row =>
    rw [hd] at hu
    cases outcome with
    | error f =>
      have hf := unlimited_error.1 hu
      rw [h.drain (by rw [hd]; exact unlimited_error.2 hf), hd]
    | ok u =>
      simp only at hu
      rw [h.drain (by rw [hd]; exact unlimited_ok u), hd]
      simp only
      rw [foldMarkers_of_le hle hu]

end Scan

namespace Context

variable {ctx ctx' : Context}

structure Raises (ctx ctx' : Context) : Prop where
  operators : ctx'.settings.operators = ctx.settings.operators
  limit : ctx.settings.maxDepth ≤ ctx'.settings.maxDepth
  below : ∀ scan, ctx.below = some scan → ∃ scan', ctx'.below = some scan' ∧ scan.Extends scan'

variable {token : Token} {stream rest : List Token} {row row' : Row} {f : Fault}

theorem Reads.raise (h : ctx.Reads token stream row rest row') (hr : ctx.Raises ctx') :
    ctx'.Reads token stream row rest row' := by
  cases h with
  | delimiter hk => exact .delimiter hk
  | atom hn => exact .atom (hr.operators ▸ hn)
  | @enclosed b close scan content e below hk hc hb hl ha hd =>
    obtain ⟨scan', hb', he⟩ := hr.below scan hb
    have hl' := he.level hr.limit (by rw [hl]; exact unlimited_ok content)
    exact .enclosed hk hc hb' (by rw [hl', hl]) ha (Nat.le_trans hd hr.limit)
  | @dot left right below found scan rest hk hrow hlo hb ho hro hd =>
    obtain ⟨scan', hb', he⟩ := hr.below scan hb
    have ho' := he.one (by rw [ho]; exact unlimited_ok ())
    exact .dot hk hrow hlo hb' (by rw [ho', ho]) hro (Nat.le_trans hd hr.limit)
  | semicolon hk hrow ho hd => exact .semicolon hk hrow ho (Nat.le_trans hd hr.limit)
  | @choice condition below scan op left right depth rest hk hrow ho hb hl hs hd =>
    obtain ⟨scan', hb', he⟩ := hr.below scan hb
    have hl' := he.level hr.limit (by rw [hl]; exact unlimited_ok _)
    exact .choice hk hrow ho hb' (by rw [hl', hl]) hs (Nat.le_trans hd hr.limit)

theorem Fails.raise (h : ctx.Fails token stream row f rest row')
    (hf : f.cause.isTooDeep = false) (hr : ctx.Raises ctx') :
    ctx'.Fails token stream row f rest row' := by
  cases h with
  | unknown hk => exact .unknown hk
  | number hk hv => exact .number hk hv
  | operator hk hi => exact .operator hk (hr.operators ▸ hi)
  | bare hk hn => exact .bare hk hn
  | bareDot hk hn => exact .bareDot hk hn
  | unclosed hk hc => exact .unclosed hk hc
  | @inside b close scan f hk hc hb hl =>
    obtain ⟨scan', hb', he⟩ := hr.below scan hb
    have hl' := he.level hr.limit (by rw [hl]; exact unlimited_error.2 hf)
    exact .inside hk hc hb' (by rw [hl', hl])
  | @right left below found scan f rest hk hrow ho hb hs =>
    obtain ⟨scan', hb', he⟩ := hr.below scan hb
    have hs' := he.one (by rw [hs]; exact unlimited_error.2 hf)
    exact .right hk hrow ho hb' (by rw [hs', hs])
  | @branches condition below scan f rest hk hrow ho hb hl =>
    obtain ⟨scan', hb', he⟩ := hr.below scan hb
    have hl' := he.level hr.limit (by rw [hl]; exact unlimited_error.2 hf)
    exact .branches hk hrow ho hb' (by rw [hl', hl])
  | @unattached b close scan content f below hk hc hb hl ha =>
    obtain ⟨scan', hb', he⟩ := hr.below scan hb
    have hl' := he.level hr.limit (by rw [hl]; exact unlimited_ok content)
    exact .unattached hk hc hb' (by rw [hl', hl]) ha
  | @noRight left below found scan rest hk hrow ho hb hs hn =>
    obtain ⟨scan', hb', he⟩ := hr.below scan hb
    have hs' := he.one (by rw [hs]; exact unlimited_ok ())
    exact .noRight hk hrow ho hb' (by rw [hs', hs]) hn
  | @noColon condition below scan content rest hk hrow ho hb hl hn =>
    obtain ⟨scan', hb', he⟩ := hr.below scan hb
    have hl' := he.level hr.limit (by rw [hl]; exact unlimited_ok content)
    exact .noColon hk hrow ho hb' (by rw [hl', hl]) hn
  | bottomEnclosed | bottomDot | bottomChoice | tallEnclosed | tallDot | tallStatement
  | tallChoice => cases hf

theorem Raises.extends (hr : ctx.Raises ctx') : ctx.scan.Extends ctx'.scan := by
  intro t ts row hu
  cases hs : ctx.scan t ts row with
  | mk outcome rest row' =>
    cases outcome with
    | ok u => exact ((reads_of_scan hs).raise hr).scan_eq
    | error f =>
      rw [hs] at hu
      exact ((fails_of_scan hs).raise (unlimited_error.1 hu) hr).scan_eq

end Context

theorem scanWithin_extends {settings settings' : Settings} {room room' : Nat}
    (ho : settings'.operators = settings.operators)
    (hl : settings.maxDepth ≤ settings'.maxDepth) (hr : room ≤ room') :
    (scanWithin settings room).Extends (scanWithin settings' room') := by
  induction room using Nat.strongRecOn generalizing room' with
  | ind room ih =>
    rw [← Reader.scan_eq ⟨settings, room⟩, ← Reader.scan_eq ⟨settings', room'⟩]
    refine Context.Raises.extends ⟨by simpa using ho, by simpa using hl, fun scan hs => ?_⟩
    obtain ⟨k, hk, rfl⟩ := Reader.below_eq_some_iff.1 hs
    obtain rfl : room = k + 1 := hk
    obtain ⟨k', rfl⟩ : ∃ k', room' = k' + 1 := ⟨room' - 1, by omega⟩
    exact ⟨_, Reader.below_eq_some_iff.2 ⟨k', rfl, rfl⟩, ih k (by omega) (by omega)⟩

end Raising

section Lowering

namespace Bracket.Attaches

variable {token : Token} {content : List Entry} {b : Bracket} {row below : Row} {e : Entry}

theorem deepest_lt (h : Attaches token content b row e below) :
    Entry.deepest content < e.depth := by
  cases h <;> simp only <;> omega

theorem deepest_le (h : Attaches token content b row e below) :
    Entry.deepest row ≤ Entry.deepest (e :: below) := by
  cases h <;> simp only [Entry.deepest_cons] <;> omega

end Bracket.Attaches

theorem Context.Reads.deepest_le {ctx : Context} {token : Token} {stream rest : List Token}
    {row row' : Row} (h : ctx.Reads token stream row rest row') :
    Entry.deepest row ≤ Entry.deepest row' := by
  cases h with
  | delimiter => exact Nat.le_refl _
  | atom => exact Nat.le_max_right _ _
  | enclosed hk hc hb hl ha hd => exact (Bracket.attaches_of_attach ha).deepest_le
  | dot hk hrow | semicolon hk hrow | choice hk hrow =>
    subst hrow
    simp only [Entry.deepest_cons, Scan.dotted]
    omega

def Scan.Deepens (scan : Scan) : Prop :=
  ∀ ⦃t : Token⦄ ⦃ts rest : List Token⦄ ⦃row row' : Row⦄,
    scan t ts row = ⟨.ok (), rest, row'⟩ → Entry.deepest row ≤ Entry.deepest row'

theorem deepens_scanWithin (settings : Settings) (room : Nat) :
    (scanWithin settings room).Deepens :=
  scanWithin_induction settings
    (fun _ _ _ _ _ _ _ h => (Context.reads_of_scan h).deepest_le) room

theorem Scan.Deepens.runs {scan : Scan} (h : scan.Deepens) {stream rest : List Token}
    {row row' : Row} (hrun : scan.Runs stream row rest row') :
    Entry.deepest row ≤ Entry.deepest row' := by
  induction hrun with
  | refl => exact Nat.le_refl _
  | step hs _ ih => exact Nat.le_trans (h hs) ih

theorem Entry.depth_normal_le (e : Entry) : e.normal.depth ≤ e.depth := by
  unfold Entry.normal
  split
  · exact Nat.le_refl _
  · exact Nat.zero_le _

theorem Expression.depth_le_of_mem_flatten {x : Expression} {e : Entry} (h : e ∈ x.flatten) :
    e.depth ≤ x.depth := by
  induction x with
  | leaf e' =>
    obtain rfl := List.mem_singleton.1 h
    exact e'.depth_normal_le
  | join op left right ihl ihr =>
    simp only [flatten, List.mem_append, List.mem_cons] at h
    rw [depth]
    rcases h with h | rfl | h
    · have := ihl h
      omega
    · exact Nat.zero_le _
    · have := ihr h
      omega

theorem Expression.depth_lt_of_mem_flatten {op : Operator} {left right : Expression} {e : Entry}
    (h : e ∈ (join op left right).flatten) : e.depth < (join op left right).depth := by
  simp only [flatten, List.mem_append, List.mem_cons] at h
  rw [depth]
  rcases h with h | rfl | h
  · have := depth_le_of_mem_flatten h
    omega
  · exact Nat.succ_pos _
  · have := depth_le_of_mem_flatten h
    omega

/-- Finished trees for which so many levels below are enough. The two branches of a choice keep
the place that they had under their colon, so a tree that was folded may be one level deeper. -/
structure Entry.Fits (limit room : Nat) (e : Entry) : Prop where
  limit : e.depth ≤ limit
  whole : e.depth ≤ room + 1
  unfolded : e.node.kind ≠ .operator → e.depth ≤ room

/-- Folding under a lower limit gives the same trees, if those allow it. -/
theorem Row.Legible.fold_lower {settings : Settings} {row : Row} {content : List Entry}
    {limit room : Nat} (h : row.Legible settings)
    (hf : foldMarkers settings.maxDepth row.reverse = .ok content)
    (hfit : ∀ y ∈ content, y.Fits limit room) :
    foldMarkers limit row.reverse = .ok content ∧ Entry.deepest row ≤ room := by
  obtain ⟨forest, hordered, hflat, rfl, -⟩ := h.exists_forest hf
  have hfit' : ∀ x ∈ forest, x.entry.Fits limit room := fun x hx =>
    hfit x.entry (List.mem_map.2 ⟨x, hx, rfl⟩)
  constructor
  · rw [← hflat]
    exact Expression.foldMarkers_flatten hordered fun x hx => (hfit' x hx).limit
  · refine Entry.deepest_le_iff.2 fun e he => ?_
    have hmem : e ∈ forest.flatMap Expression.flatten := by
      rw [hflat]
      exact List.mem_reverse.2 he
    obtain ⟨x, hx, hex⟩ := List.mem_flatMap.1 hmem
    cases x with
    | leaf e' =>
      obtain rfl : e = e'.normal := List.mem_singleton.1 hex
      have ho : e'.isOperand = true := hordered _ hx
      rw [Entry.normal_of_isOperand ho] at he ⊢
      have hk : e'.node.kind ≠ .operator := by
        rcases (h.each e' he).shaped with ⟨op, hm, -⟩ | ⟨-, hk⟩
        · rw [Entry.not_isOperand_of_marker hm] at ho
          cases ho
        · exact hk
      exact (hfit' _ hx).unfolded hk
    | join op left right =>
      have hlt := Expression.depth_lt_of_mem_flatten hex
      have hle := (hfit' _ hx).whole
      exact Nat.le_of_lt_succ (Nat.lt_of_lt_of_le hlt hle)

/-- The first scan does what the second one does, wherever the row stays so shallow. -/
def Scan.Suffices (room : Nat) (scan scan' : Scan) : Prop :=
  ∀ ⦃t : Token⦄ ⦃ts rest : List Token⦄ ⦃row row' : Row⦄,
    scan' t ts row = ⟨.ok (), rest, row'⟩ → Entry.deepest row' ≤ room →
      scan t ts row = ⟨.ok (), rest, row'⟩

namespace Scan

variable {scan scan' : Scan} {settings : Settings} {stream rest : List Token} {row row' : Row}
  {limit room : Nat}

theorem Suffices.runs (h : scan.Suffices room scan') (hd : scan'.Deepens)
    (hrun : scan'.Runs stream row rest row') (hr : Entry.deepest row' ≤ room) :
    scan.Runs stream row rest row' := by
  induction hrun with
  | refl => exact .refl _ _
  | step hs hrun ih => exact .step (h hs (Nat.le_trans (hd.runs hrun) hr)) (ih hr)

theorem Suffices.level (h : scan.Suffices room scan') (hd : scan'.Deepens)
    (hs : scan.Shrinks) (hl : scan'.Legible settings) {content : List Entry}
    (hc : scan'.level settings.maxDepth stream = ⟨.ok content, rest⟩)
    (hfit : ∀ y ∈ content, y.Fits limit room) :
    scan.level limit stream = ⟨.ok content, rest⟩ := by
  obtain ⟨hrest, row, hrun, hf⟩ := (level_eq_ok_iff hl.regular.shrinks).1 hc
  have hrow := hl.runs hrun legible_nil fun _ => open_nil
  obtain ⟨hfold, hdeep⟩ := hrow.fold_lower hf hfit
  exact (level_eq_ok_iff hs).2 ⟨hrest, row, h.runs hd hrun hdeep, hfold⟩

end Scan

structure Context.Lowers (room : Nat) (ctx ctx' : Context) : Prop where
  operators : ctx'.settings.operators = ctx.settings.operators
  limit : room ≤ ctx.settings.maxDepth
  shrinks : ∀ scan, ctx.below = some scan → scan.Shrinks
  legible : ∀ scan, ctx'.below = some scan → scan.Legible ctx'.settings ∧ scan.Deepens
  below : ∀ scan', ctx'.below = some scan' → ∀ k, room = k + 1 →
    ∃ scan, ctx.below = some scan ∧ scan.Suffices k scan'

theorem Context.Reads.lower {ctx ctx' : Context} {token : Token} {stream rest : List Token}
    {row row' : Row} {room : Nat} (h : ctx'.Reads token stream row rest row')
    (hl : Context.Lowers room ctx ctx') (hr : Entry.deepest row' ≤ room) :
    ctx.Reads token stream row rest row' := by
  cases h with
  | delimiter hk => exact .delimiter hk
  | atom hn => exact .atom (hl.operators ▸ hn)
  | @enclosed b close scan' content e below hk hc hb hcontent ha hd =>
    have he : e.depth ≤ room := Nat.le_trans (Nat.le_max_left _ _) hr
    have hlt := (Bracket.attaches_of_attach ha).deepest_lt
    obtain ⟨k, rfl⟩ : ∃ k, room = k + 1 := ⟨room - 1, by omega⟩
    obtain ⟨scan, hb', hs⟩ := hl.below scan' hb k rfl
    obtain ⟨hlegible, hdeepens⟩ := hl.legible scan' hb
    have hfit : ∀ y ∈ content, y.Fits ctx.settings.maxDepth k := by
      intro y hy
      have hy' := Entry.depth_le_deepest hy
      have hm := hl.limit
      exact ⟨by omega, by omega, fun _ => by omega⟩
    have hc' := hs.level hdeepens (hl.shrinks scan hb') hlegible
      (hlegible.regular.level_of_outcome hcontent) hfit
    exact .enclosed hk hc hb' (by rw [hc']) ha (Nat.le_trans he hl.limit)
  | @dot left right below found scan' rest hk hrow hlo hb ho hro hd =>
    have he : (Scan.dotted (secondPeriod stream).1 left right).depth ≤ room :=
      Nat.le_trans (Nat.le_max_left _ _) hr
    have hdot : (Scan.dotted (secondPeriod stream).1 left right).depth =
        max left.depth right.depth + 1 := rfl
    obtain ⟨k, rfl⟩ : ∃ k, room = k + 1 := ⟨room - 1, by omega⟩
    obtain ⟨scan, hb', hs⟩ := hl.below scan' hb k rfl
    obtain ⟨t, ts, hts, rfl, hscan⟩ := (hl.legible scan' hb).1.regular.one_eq_ok ho
    have hright : Entry.deepest [right] ≤ k := by
      refine Entry.deepest_le_iff.2 fun x hx => ?_
      obtain rfl := List.mem_singleton.1 hx
      omega
    have ho' : scan.one (secondPeriod stream).2 [] = ⟨.ok (), rest, [right]⟩ := by
      rw [hts]
      exact hs hscan hright
    exact .dot hk hrow hlo hb' ho' hro (Nat.le_trans he hl.limit)
  | semicolon hk hrow ho hd =>
    have he := Nat.le_trans (Nat.le_max_left _ _) hr
    exact .semicolon hk hrow ho (Nat.le_trans he hl.limit)
  | @choice condition below scan' op left right depth rest hk hrow ho hb hcontent hs hd =>
    have he : max depth (condition.depth + 1) ≤ room := Nat.le_trans (Nat.le_max_left _ _) hr
    obtain ⟨k, rfl⟩ : ∃ k, room = k + 1 := ⟨room - 1, by omega⟩
    obtain ⟨scan, hb', hsuffices⟩ := hl.below scan' hb k rfl
    obtain ⟨hlegible, hdeepens⟩ := hl.legible scan' hb
    -- The colon is as deep as the choice, and may be so: only its branches were read on rows.
    have hfit : ∀ y ∈ [(⟨.binary op left right, depth⟩ : Entry)],
        y.Fits ctx.settings.maxDepth k := by
      intro y hy
      obtain rfl := List.mem_singleton.1 hy
      have hm := hl.limit
      exact ⟨by simp only; omega, by simp only; omega, fun hne => absurd rfl hne⟩
    have hc' := hsuffices.level hdeepens (hl.shrinks scan hb') hlegible hcontent hfit
    exact .choice hk hrow ho hb' hc' hs (Nat.le_trans he hl.limit)

theorem scanWithin_suffices {settings settings' : Settings} {room room' : Nat}
    (ho : settings'.operators = settings.operators) (hm : room ≤ settings.maxDepth)
    (hr : room ≤ room') :
    (scanWithin settings room).Suffices room (scanWithin settings' room') := by
  induction room using Nat.strongRecOn generalizing room' with
  | ind room ih =>
    rw [← Reader.scan_eq ⟨settings, room⟩, ← Reader.scan_eq ⟨settings', room'⟩]
    have lowers : Context.Lowers room (Reader.mk settings room).context
        (Reader.mk settings' room').context := by
      refine ⟨by simpa using ho, by simpa using hm, fun scan hs => ?_, fun scan hs => ?_,
        fun scan' hs k hk => ?_⟩
      · obtain ⟨k, -, rfl⟩ := Reader.below_eq_some_iff.1 hs
        exact (regular_scanWithin settings k).shrinks
      · obtain ⟨k, -, rfl⟩ := Reader.below_eq_some_iff.1 hs
        rw [Reader.context_settings]
        exact ⟨legible_scanWithin settings' k, deepens_scanWithin settings' k⟩
      · obtain ⟨k', hk', rfl⟩ := Reader.below_eq_some_iff.1 hs
        obtain rfl : room' = k' + 1 := hk'
        exact ⟨_, Reader.below_eq_some_iff.2 ⟨k, hk, rfl⟩,
          ih k (by omega) (by omega) (by omega)⟩
    intro t ts rest row row' h hdeep
    exact ((Context.reads_of_scan h).lower lowers hdeep).scan_eq

theorem parseWith_lower {settings settings' : Settings} {tokens : List Token} {nodes : List Node}
    (ho : settings'.operators = settings.operators)
    (hl : settings.maxDepth ≤ settings'.maxDepth)
    (h : parseWith settings' tokens = .ok nodes)
    (hd : ∀ n ∈ nodes, n.depth ≤ settings.maxDepth) : parseWith settings tokens = .ok nodes := by
  obtain ⟨content, hc, rfl⟩ := parseWith_eq_ok_iff.1 h
  refine parseWith_eq_ok_iff.2 ⟨content, ?_, rfl⟩
  have hlegible := legible_scanWithin settings' settings'.maxDepth
  have hsettled := (hlegible.level hc).2
  refine (scanWithin_suffices ho (Nat.le_refl _) hl).level (deepens_scanWithin settings' _)
    (regular_scanWithin settings _).shrinks hlegible hc fun y hy => ?_
  have hy' : y.depth ≤ settings.maxDepth := by
    rw [hsettled.measured y hy]
    exact hd y.node (List.mem_map.2 ⟨y, hy, rfl⟩)
  exact ⟨hy', Nat.le_succ_of_le hy', fun _ => hy'⟩

end Lowering

section Blame

def Fault.Tells (limit : Nat) (f : Fault) : Prop :=
  f.cause.isTooDeep = true → f.cause = .tooDeep limit

theorem Operator.Blames.tells {op : Operator} {limit : Nat} {f : Fault} (h : op.Blames limit f) :
    f.Tells limit := by
  rcases h with rfl | rfl
  · exact nofun
  · exact fun _ => rfl

def Scan.Tells (limit : Nat) (scan : Scan) : Prop :=
  ∀ ⦃t : Token⦄ ⦃ts : List Token⦄ ⦃row : Row⦄ ⦃f : Fault⦄,
    (scan t ts row).outcome = .error f → f.Tells limit

namespace Scan

variable {scan : Scan} {limit : Nat} {stream : List Token} {row : Row} {f : Fault}

theorem Tells.one (h : scan.Tells limit) (hs : (scan.one stream row).outcome = .error f) :
    f.Tells limit := by
  cases stream with
  | nil => cases hs
  | cons t ts => exact h hs

theorem Tells.level (h : scan.Tells limit) (hs : (scan.level limit stream).outcome = .error f) :
    f.Tells limit := by
  unfold Scan.level at hs
  split at hs
  · obtain ⟨m, -, hm⟩ := exists_blames_of_foldMarkers hs
    exact hm.tells
  · rename_i g rest row' hd
    obtain rfl : g = f := Except.error.inj hs
    obtain ⟨t, ts, mid, -, ht⟩ := exists_runs_of_drain hd
    exact h (congrArg Step.outcome ht)

end Scan

theorem Context.Fails.tells {ctx : Context} {token : Token} {stream rest : List Token}
    {row row' : Row} {f : Fault} (h : ctx.Fails token stream row f rest row')
    (hb : ∀ scan, ctx.below = some scan → scan.Tells ctx.settings.maxDepth) :
    f.Tells ctx.settings.maxDepth := by
  cases h with
  | inside hk hc hbs hl => exact (hb _ hbs).level hl
  | right hk hr ho hbs hs => exact (hb _ hbs).one (congrArg Step.outcome hs)
  | branches hk hr ho hbs hl => exact (hb _ hbs).level (congrArg Reading.outcome hl)
  | unattached hk hc hbs hl ha =>
    obtain ⟨-, rfl, -⟩ := Bracket.attach_eq_error ha
    exact nofun
  | bottomEnclosed | bottomDot | bottomChoice | tallEnclosed | tallDot | tallStatement
  | tallChoice => exact fun _ => rfl
  | unknown | number | operator | bare | bareDot | unclosed | noRight | noColon => exact nofun

theorem tells_scanWithin (settings : Settings) (room : Nat) :
    (scanWithin settings room).Tells settings.maxDepth := by
  refine scanWithin_induction settings (P := fun scan => scan.Tells settings.maxDepth) ?_ room
  intro below hb t ts row f h
  cases hs : Context.scan ⟨settings, below⟩ t ts row with
  | mk outcome rest row' =>
    rw [hs] at h
    obtain rfl : outcome = .error f := h
    exact (Context.fails_of_scan hs).tells hb

end Blame

theorem parseWith_raise {settings settings' : Settings} {tokens : List Token}
    (ho : settings'.operators = settings.operators)
    (hl : settings.maxDepth ≤ settings'.maxDepth) (hu : Unlimited (parseWith settings tokens)) :
    parseWith settings' tokens = parseWith settings tokens := by
  rw [parseWith_eq] at hu ⊢
  rw [parseWith_eq, (scanWithin_extends ho hl hl).level hl (unlimited_map.1 hu)]

theorem parseWith_tells {settings : Settings} {tokens : List Token} {f : Fault}
    (h : parseWith settings tokens = .error f) : f.Tells settings.maxDepth :=
  (tells_scanWithin settings _).level (parseWith_eq_error_iff.1 h)

/-- The depth limit is exact and changes nothing else. What is read under a limit, and every fault
that is not one of depth, is the same under a higher one; and a forest that is read under the
higher limit is read under the lower one too, unless one of its trees is deeper than that. -/
theorem parseWith_limit (table : OperatorTable) (style : MarkerStyle) {low high : Nat}
    (hle : low ≤ high) (tokens : List Token) :
    ((∀ limit position, parseWith ⟨table, low, style⟩ tokens ≠ .error ⟨.tooDeep limit, position⟩) →
      parseWith ⟨table, high, style⟩ tokens = parseWith ⟨table, low, style⟩ tokens) ∧
    ∀ nodes, parseWith ⟨table, high, style⟩ tokens = .ok nodes →
      ((∀ n ∈ nodes, n.depth ≤ low) → parseWith ⟨table, low, style⟩ tokens = .ok nodes) ∧
      ((∃ n ∈ nodes, low < n.depth) →
        ∃ position, parseWith ⟨table, low, style⟩ tokens = .error ⟨.tooDeep low, position⟩) := by
  have raise : Unlimited (parseWith ⟨table, low, style⟩ tokens) →
      parseWith ⟨table, high, style⟩ tokens = parseWith ⟨table, low, style⟩ tokens :=
    fun hu => parseWith_raise rfl hle hu
  refine ⟨fun hne => raise fun f hf => ?_, fun nodes h => ⟨fun hd => ?_, fun hdeep => ?_⟩⟩
  · obtain ⟨cause, position⟩ := f
    cases cause with
    | tooDeep limit => exact absurd hf (hne limit position)
    | _ => rfl
  · refine parseWith_lower ?_ ?_ h hd
    · rfl
    · exact hle
  · obtain ⟨n, hn, hlt⟩ := hdeep
    have hnot : parseWith ⟨table, low, style⟩ tokens ≠ .ok nodes := fun hok =>
      Nat.not_le.2 hlt ((readable_parseWith hok).2.2 n hn)
    cases hlow : parseWith ⟨table, low, style⟩ tokens with
    | ok ms =>
      have heq := raise (hlow ▸ unlimited_ok ms)
      rw [h] at heq
      exact absurd heq.symm hnot
    | error f =>
      obtain ⟨cause, position⟩ := f
      cases hdeep : cause.isTooDeep with
      | true =>
        obtain rfl : cause = .tooDeep low := parseWith_tells hlow hdeep
        exact ⟨position, rfl⟩
      | false =>
        have heq := raise (hlow ▸ unlimited_error.2 hdeep)
        rw [h] at heq
        exact absurd heq.symm hnot

/-- The function in `choiceTokens` is three levels deep: its body is a choice, and one branch of
that a difference. -/
theorem parseWith_limit_choice :
    2 ≤ 3 ∧ parseWith ⟨.standard, 3, .plain⟩ choiceTokens = .ok choiceNodes ∧
      ∃ position, parseWith ⟨.standard, 2, .plain⟩ choiceTokens = .error ⟨.tooDeep 2, position⟩ := by
  have hle : 2 ≤ 3 := by decide
  have h : parseWith ⟨.standard, 3, .plain⟩ choiceTokens = .ok choiceNodes := rfl
  refine ⟨hle, h, ((parseWith_limit .standard .plain hle choiceTokens).2 _ h).2 ?_⟩
  exact ⟨_, List.mem_cons_self, by decide⟩

end TokenForest
