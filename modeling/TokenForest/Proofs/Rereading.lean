import TokenForest.Proofs.Image
import TokenForest.Proofs.Nesting
import TokenForest.Proofs.Numerals

set_option autoImplicit false

namespace TokenForest

/-- The stream as it is after a delimiter, or else as it is. -/
def Token.after (delimited : Bool) (stream : List Token) : List Token :=
  if delimited then Token.regroup stream else stream

structure Row.Ready (delimited : Bool) (row : Row) (next : Option TokenKind) : Prop where
  parenthesis : next = some (.opening .parenthesis) → delimited = false →
    ∀ e ∈ row.head?, e.isOperand = true → e.node.kind = .statement
  square : next = some (.opening .square) → ∀ e ∈ row.head?, e.isOperand = false
  brace : next = some (.opening .brace) →
    ∀ e ∈ row.head?, e.node.kind ≠ .call ∧ e.node.kind ≠ .group

theorem Row.ready_nil (next : Option TokenKind) : Row.Ready false [] next :=
  ⟨by simp, by simp, by simp⟩

theorem Row.ready_marker (op : Operator) (depth : Nat) (row : Row) (next : Option TokenKind) :
    Row.Ready false (⟨.marker op, depth⟩ :: row) next where
  parenthesis _ _ e he ho := by
    cases he
    cases ho
  square _ e he := by
    cases he
    rfl
  brace _ e he := by
    cases he
    simp [Node.kind]

theorem Row.ready_of_admits {e : Entry} {next : Option TokenKind} (row : Row)
    (h : e.node.Admits next) : Row.Ready true (e :: row) next where
  parenthesis _ hd := by cases hd
  square hn x hx := by
    cases hx
    cases ho : e.isOperand with
    | false => rfl
    | true => exact absurd hn (h.2.1 ho)
  brace hn x hx := by
    cases hx
    exact h.2.2 hn

namespace Token

theorem after_cons {t : Token} (h : t.kind ≠ .opening .parenthesis) (delimited : Bool)
    (ts : List Token) : after delimited (t :: ts) = t :: ts := by
  cases delimited with
  | false => rfl
  | true => simp [after, regroup, grouped, h]

end Token

theorem secondPeriod_of_kind {ts : List Token} (h : ts.head?.map Token.kind ≠ some .period) :
    secondPeriod ts = (false, ts) := by
  cases ts with
  | nil => rfl
  | cons t ts =>
    have hk : t.kind ≠ .period := by simpa using h
    simp [secondPeriod, hk]

namespace Node

theorem depth_le_of_mem_flatten {n : Node} {e : Entry} (h : e ∈ n.expression.flatten) :
    e.depth ≤ n.depth := by
  cases n with
  | binary op left right =>
    simp only [expression, Expression.flatten, List.mem_append, List.mem_cons] at h
    rw [depth]
    rcases h with h | rfl | h
    · have := depth_le_of_mem_flatten h
      omega
    · exact Nat.zero_le _
    · have := depth_le_of_mem_flatten h
      omega
  | _ =>
    obtain rfl := List.mem_singleton.1 h
    simp [Entry.normal, Entry.isOperand, isOperand, isMarker, marker?, Entry.ofNode]

theorem Readable.lead_ne_period {table : OperatorTable} {n : Node} (h : n.Readable table)
    (hp : n.kind.isPrimary = true) : n.lead ≠ some .period := by
  cases h with
  | call | function | index | member | range | statement | ternary | binary => cases hp
  | _ => simp [lead, tokens, Token.plain, Bracket.enclose]

end Node

theorem Text.inner_quotes (value : String) : Text.inner 1 ("\"" ++ value ++ "\"") = value := by
  have h := Text.toList_inner_append ['"'] value.toList ['"'] rfl
  have ht : String.ofList (['"'] ++ value.toList ++ ['"']) = "\"" ++ value ++ "\"" := by
    apply String.toList_injective
    simp
  rw [ht] at h
  exact String.toList_injective h

theorem Text.inner_marks (text : String) : Text.inner 2 ("/*" ++ text ++ "*/") = text := by
  have h := Text.toList_inner_append ['/', '*'] text.toList ['*', '/'] rfl
  have ht : String.ofList (['/', '*'] ++ text.toList ++ ['*', '/']) = "/*" ++ text ++ "*/" := by
    apply String.toList_injective
    simp
  rw [ht] at h
  exact String.toList_injective h

theorem Node.Readable.colon {table : OperatorTable} {op : Operator} {left right : Node}
    (h : (Node.binary op left right).Readable table) (hs : op.symbol = ":") :
    ∃ colon : Operator, (Node.binary colon left right).Readable table ∧ colon.symbol = ":" ∧
      colon.token = .plain .operator ":" := by
  refine ⟨{ op with position := .nowhere }, ?_, hs, ?_⟩
  · cases h with
    | binary hl hne hr hk ho => exact .binary hl hne hr hk ho
  · simp [Operator.token, Token.plain, hs]

theorem Entry.deepest_ofNode (ns : List Node) :
    Entry.deepest (ns.map Entry.ofNode) = Node.deepest ns := by
  rw [Entry.deepest_eq, Entry.map_node_ofNode]
  intro e he
  obtain ⟨n, -, rfl⟩ := List.mem_map.1 he
  rfl

namespace Bracket

variable {token : Token} {row below : Row}

theorem enclose_append (b : Bracket) (inside rest : List Token) :
    b.enclose inside ++ rest =
      .plain (.opening b) b.openText :: (inside ++ .plain (.closing b) b.closeText :: rest) := by
  simp [enclose]

theorem attaches_call (callee : Node) (ns : List Node) (hg : token.grouping = false)
    (ho : callee.isOperand = true) (hk : callee.kind ≠ .statement) :
    Attaches token (ns.map Entry.ofNode) .parenthesis (Entry.ofNode callee :: below)
      (Entry.ofNode (.call callee ns)) below := by
  have h : Attaches token (ns.map Entry.ofNode) .parenthesis (Entry.ofNode callee :: below) _
    below := .call hg ho hk
  rwa [Entry.map_node_ofNode, Entry.deepest_ofNode] at h

theorem attaches_group (ns : List Node) (h : token.grouping = false →
      ∀ f ∈ row.head?, f.isOperand = true → f.node.kind = .statement) :
    Attaches token (ns.map Entry.ofNode) .parenthesis row (Entry.ofNode (.group ns)) row := by
  have h : Attaches token (ns.map Entry.ofNode) .parenthesis row _ row := .group h
  rwa [Entry.map_node_ofNode, Entry.deepest_ofNode] at h

theorem attaches_index (target : Node) (ns : List Node) (ho : target.isOperand = true) :
    Attaches token (ns.map Entry.ofNode) .square (Entry.ofNode target :: below)
      (Entry.ofNode (.index target ns)) below := by
  have h : Attaches token (ns.map Entry.ofNode) .square (Entry.ofNode target :: below) _
    below := .index ho
  rwa [Entry.map_node_ofNode, Entry.deepest_ofNode] at h

theorem attaches_set (ns : List Node) (h : ∀ e ∈ row.head?, e.isOperand = false) :
    Attaches token (ns.map Entry.ofNode) .square row (Entry.ofNode (.set ns)) row := by
  have h : Attaches token (ns.map Entry.ofNode) .square row _ row := .set h
  rwa [Entry.map_node_ofNode, Entry.deepest_ofNode] at h

theorem attaches_named (name : String) (parameters ns : List Node) :
    Attaches token (ns.map Entry.ofNode) .brace
      (Entry.ofNode (.call (.identifier name) parameters) :: below)
      (Entry.ofNode (.function (some name) parameters ns)) below := by
  have h : Attaches token (ns.map Entry.ofNode) .brace
    (Entry.ofNode (.call (.identifier name) parameters) :: below) _ below := .named
  rw [Entry.map_node_ofNode, Entry.deepest_ofNode] at h
  simpa [Entry.ofNode, Node.depth] using h

theorem attaches_anonymous (parameters ns : List Node) :
    Attaches token (ns.map Entry.ofNode) .brace (Entry.ofNode (.group parameters) :: below)
      (Entry.ofNode (.function none parameters ns)) below := by
  have h : Attaches token (ns.map Entry.ofNode) .brace
    (Entry.ofNode (.group parameters) :: below) _ below := .anonymous
  rw [Entry.map_node_ofNode, Entry.deepest_ofNode] at h
  simpa [Entry.ofNode, Node.depth] using h

theorem attaches_block (ns : List Node)
    (h : ∀ e ∈ row.head?, e.node.kind ≠ .call ∧ e.node.kind ≠ .group) :
    Attaches token (ns.map Entry.ofNode) .brace row (Entry.ofNode (.block ns)) row := by
  have h : Attaches token (ns.map Entry.ofNode) .brace row _ row := .block h
  rwa [Entry.map_node_ofNode, Entry.deepest_ofNode] at h

end Bracket

structure Node.Listable (settings : Settings) (room : Nat) (ns : List Node) : Prop where
  readable : ∀ n ∈ ns, n.Readable settings.operators
  parted : Parted ns
  bounded : ∀ n ∈ ns, n.depth ≤ settings.maxDepth
  shallow : ∀ n ∈ ns, ∀ e ∈ n.expression.flatten, e.depth ≤ room

structure Scan.Rereads (settings : Settings) (room : Nat) (scan : Scan) : Prop where
  level : ∀ ⦃ns : List Node⦄, Node.Listable settings room ns →
    scan.level settings.maxDepth (Node.listed ns) = ⟨.ok (ns.map Entry.ofNode), []⟩
  one : ∀ ⦃n : Node⦄, n.Readable settings.operators → n.kind.isPrimary = true →
    n.depth ≤ room → n.depth ≤ settings.maxDepth →
      ∀ rest, scan.one (n.tokens ++ rest) [] = ⟨.ok (), rest, [Entry.ofNode n]⟩

/-- With room left, the level below reads back what it has room for. -/
def Context.Reaches (ctx : Context) (room : Nat) : Prop :=
  ∀ below, room = below + 1 → ∃ scan, ctx.below = some scan ∧ scan.Rereads ctx.settings below

theorem Node.listable_of_deepest {settings : Settings} {room : Nat} {ns : List Node}
    (hr : ∀ n ∈ ns, n.Readable settings.operators) (hp : Parted ns)
    (hroom : deepest ns ≤ room) (hmax : deepest ns ≤ settings.maxDepth) :
    Listable settings room ns where
  readable := hr
  parted := hp
  bounded n hn := Nat.le_trans (depth_le_deepest hn) hmax
  shallow n hn e he := by
    have hd := depth_le_of_mem_flatten he
    have hn := depth_le_deepest hn
    omega

theorem Node.listable_binary {settings : Settings} {room : Nat} {op : Operator}
    {left right : Node} (h : (binary op left right).Readable settings.operators)
    (hroom : max left.depth right.depth ≤ room)
    (hmax : (binary op left right).depth ≤ settings.maxDepth) :
    Listable settings room [binary op left right] where
  readable n hn := by rwa [List.mem_singleton.1 hn]
  parted := List.isChain_singleton _
  bounded n hn := by rwa [List.mem_singleton.1 hn]
  shallow n hn e he := by
    rw [List.mem_singleton.1 hn, expression, Expression.flatten, List.mem_append,
      List.mem_cons] at he
    rcases he with he | rfl | he
    · have := depth_le_of_mem_flatten he
      omega
    · exact Nat.zero_le _
    · have := depth_le_of_mem_flatten he
      omega

theorem Scan.Runs.of_one {scan : Scan} {stream rest : List Token} {row : Row} {e : Entry}
    (h : scan.one stream row = ⟨.ok (), rest, e :: row⟩) :
    Runs scan stream row rest (e :: row) := by
  cases stream with
  | nil =>
    have hrow : row = e :: row := congrArg Step.row h
    exact absurd (congrArg List.length hrow) (by simp)
  | cons t ts => exact .single h

namespace Context

variable {ctx : Context} {room : Nat} {b : Bracket} {opener : Token} {ns : List Node}
  {row below : Row} {n : Node}

theorem Reads.of_balanced {closer : Token} {inside : List Token} {content : List Entry} {e : Entry}
    {scan : Scan} (hk : opener.kind = .opening b) (hc : closer.kind = .closing b)
    (hi : Balanced inside) (hs : ctx.below = some scan)
    (hl : (scan.level ctx.settings.maxDepth inside).outcome = .ok content)
    (ha : b.attach opener content row = (.ok e, below)) (hd : e.depth ≤ ctx.settings.maxDepth)
    (rest : List Token) : ctx.Reads opener (inside ++ closer :: rest) row rest (e :: below) := by
  have hclose : b.closeFrom 0 (inside ++ closer :: rest) = some inside.length :=
    Bracket.closeFrom_balanced rest hi hc
  have h : ctx.Reads opener (inside ++ closer :: rest) row _ _ :=
    .enclosed hk hclose hs (by rwa [List.take_left]) ha hd
  rwa [List.drop_append, List.drop_of_length_le (by omega), Nat.add_sub_cancel_left] at h

theorem scan_enclosed (hctx : ctx.Reaches room) (hr : ∀ m ∈ ns, m.Readable ctx.settings.operators)
    (hp : Node.Parted ns) (hin : Node.deepest ns + 1 ≤ n.depth) (hroom : n.depth ≤ room)
    (hmax : n.depth ≤ ctx.settings.maxDepth) (hk : opener.kind = .opening b)
    (ha : Bracket.Attaches opener (ns.map Entry.ofNode) b row (Entry.ofNode n) below)
    (rest : List Token) :
    ctx.scan opener (Node.listed ns ++ .plain (.closing b) b.closeText :: rest) row =
      ⟨.ok (), rest, Entry.ofNode n :: below⟩ := by
  obtain ⟨k, rfl⟩ : ∃ k, room = k + 1 := ⟨room - 1, by omega⟩
  obtain ⟨scan, hs, hscan⟩ := hctx k rfl
  have hl := hscan.level (Node.listable_of_deepest hr hp (by omega) (by omega))
  exact (Reads.of_balanced hk rfl (Node.balanced_listed ns) hs (by rw [hl]) ha.attach_eq hmax
    rest).scan_eq

theorem one_atom {t : Token} (hk : t.kind ≠ .opening .parenthesis)
    (h : t.atom? ctx.settings.operators = some n) (delimited : Bool) (rest : List Token)
    (row : Row) :
    ctx.scan.one (Token.after delimited (t :: rest)) row = ⟨.ok (), rest, ⟨n, 0⟩ :: row⟩ := by
  rw [Token.after_cons hk]
  exact scan_of_atom h

theorem one_enclosed (hctx : ctx.Reaches room) (hr : ∀ m ∈ ns, m.Readable ctx.settings.operators)
    (hp : Node.Parted ns) (hin : Node.deepest ns + 1 ≤ n.depth) (hroom : n.depth ≤ room)
    (hmax : n.depth ≤ ctx.settings.maxDepth) (delimited : Bool) (rest : List Token)
    (ha : ∀ opener : Token, opener.grouping = (delimited && b == .parenthesis) →
      Bracket.Attaches opener (ns.map Entry.ofNode) b row (Entry.ofNode n) row) :
    ctx.scan.one (Token.after delimited (b.enclose (Node.listed ns) ++ rest)) row =
      ⟨.ok (), rest, Entry.ofNode n :: row⟩ := by
  have hopen : Token.after delimited (b.enclose (Node.listed ns) ++ rest) =
      ⟨.opening b, b.openText, .nowhere, delimited && b == .parenthesis⟩ ::
        (Node.listed ns ++ .plain (.closing b) b.closeText :: rest) := by
    cases delimited <;> cases b <;>
      simp [Bracket.enclose, Token.after, Token.regroup, Token.grouped, Token.plain]
  rw [hopen]
  exact scan_enclosed hctx hr hp hin hroom hmax rfl (ha _ rfl) rest

theorem one_tokens (hctx : ctx.Reaches room) (hn : n.Readable ctx.settings.operators)
    (hprimary : n.kind.isPrimary = true) (hroom : n.depth ≤ room)
    (hmax : n.depth ≤ ctx.settings.maxDepth) {delimited : Bool}
    (hready : row.Ready delimited n.lead) (rest : List Token) :
    ctx.scan.one (Token.after delimited (n.tokens ++ rest)) row =
      ⟨.ok (), rest, Entry.ofNode n :: row⟩ := by
  cases hn with
  | identifier name => exact one_atom (by simp [Token.plain]) rfl delimited rest row
  | number value =>
    have hv : (Token.plain .number value.render).atom? ctx.settings.operators =
        some (.number value) := by
      simp [Token.atom?, Token.plain, Binary64.ofLiteral?_render]
    exact one_atom (by simp [Token.plain]) hv delimited rest row
  | string value =>
    have hv : (Token.plain .string ("\"" ++ value ++ "\"")).atom? ctx.settings.operators =
        some (.string value) := by
      simp [Token.atom?, Token.plain, Text.inner_quotes]
    exact one_atom (by simp [Token.plain]) hv delimited rest row
  | comment text =>
    have hv : (Token.plain .comment ("/*" ++ text ++ "*/")).atom? ctx.settings.operators =
        some (.comment text) := by
      simp [Token.atom?, Token.plain, Text.inner_marks]
    exact one_atom (by simp [Token.plain]) hv delimited rest row
  | @group ns hr hp =>
    refine one_enclosed hctx hr hp (Nat.le_refl _) hroom hmax delimited rest fun opener hg => ?_
    refine Bracket.attaches_group ns fun hf => hready.parenthesis (by simp) ?_
    simpa [hf] using hg
  | @set ns hr hp =>
    refine one_enclosed hctx hr hp (Nat.le_refl _) hroom hmax delimited rest fun opener _ => ?_
    exact Bracket.attaches_set ns (hready.square (by simp))
  | @block ns hr hp =>
    refine one_enclosed hctx hr hp (Nat.le_refl _) hroom hmax delimited rest fun opener _ => ?_
    exact Bracket.attaches_block ns (hready.brace (by simp))
  | call | function | index | member | range | statement | ternary | binary => cases hprimary

theorem scan_period (hctx : ctx.Reaches room) {left : Node} {stream rest : List Token}
    {isRange : Bool} (hl : left.isOperand = true) (hn : n.Readable ctx.settings.operators)
    (hprimary : n.kind.isPrimary = true) (hroom : max left.depth n.depth + 1 ≤ room)
    (hmax : max left.depth n.depth + 1 ≤ ctx.settings.maxDepth)
    (hs : secondPeriod stream = (isRange, n.tokens ++ rest)) (row : Row) :
    ctx.scan (.plain .period ".") stream (Entry.ofNode left :: row) =
      ⟨.ok (), rest, Scan.dotted isRange (Entry.ofNode left) (Entry.ofNode n) :: row⟩ := by
  obtain ⟨k, rfl⟩ : ∃ k, room = k + 1 := ⟨room - 1, by omega⟩
  obtain ⟨scan, hb, hscan⟩ := hctx k rfl
  have hone : scan.one (secondPeriod stream).2 [] = ⟨.ok (), rest, [Entry.ofNode n]⟩ := by
    rw [hs]
    exact hscan.one hn hprimary (by omega) (by omega) rest
  have h : ctx.Reads (.plain .period ".") stream (Entry.ofNode left :: row) _ _ :=
    .dot rfl rfl hl hb hone hn.isOperand hmax
  rw [hs] at h
  exact h.scan_eq

theorem scan_semicolon (hn : n.isOperand = true) (hmax : n.depth + 1 ≤ ctx.settings.maxDepth)
    (rest : List Token) (row : Row) :
    ctx.scan (.plain .semicolon ";") rest (Entry.ofNode n :: row) =
      ⟨.ok (), rest, Entry.ofNode (.statement [n]) :: row⟩ := by
  have h : ctx.Reads (.plain .semicolon ";") rest (Entry.ofNode n :: row) _ _ :=
    .semicolon rfl rfl hn hmax
  rw [h.scan_eq]
  simp [Entry.ofNode, Node.depth, Node.deepest]

/-- The parameters are read back as a group or as a call, and the body makes a function of it. -/
theorem runs_function (hctx : ctx.Reaches room) {name : Option String} {ps body : List Node}
    (hps : ∀ m ∈ ps, m.Readable ctx.settings.operators) (hpp : Node.Parted ps)
    (hbody : ∀ m ∈ body, m.Readable ctx.settings.operators) (hbp : Node.Parted body)
    {delimited : Bool} (rest : List Token) (hroom : (Node.function name ps body).depth ≤ room)
    (hmax : (Node.function name ps body).depth ≤ ctx.settings.maxDepth)
    (hready : row.Ready delimited (Node.function name ps body).lead) :
    Scan.Runs ctx.scan (Token.after delimited ((Node.function name ps body).tokens ++ rest)) row rest
      (Entry.ofNode (.function name ps body) :: row) := by
  have hd : (Node.function name ps body).depth =
      max (Node.deepest ps) (Node.deepest body) + 1 := rfl
  cases name with
  | none =>
    have hg : (Node.group ps).depth = Node.deepest ps + 1 := rfl
    have hgroup := one_tokens hctx (.group hps hpp) rfl (by omega) (by omega)
      (by simpa using hready) (Bracket.brace.enclose (Node.listed body) ++ rest)
    rw [Node.tokens, List.append_assoc]
    refine Scan.Runs.trans (.of_one hgroup) ?_
    rw [Bracket.enclose_append]
    exact .single (scan_enclosed hctx hbody hbp (by omega) hroom hmax rfl
      (Bracket.attaches_anonymous ps body) rest)
  | some name =>
    have hc : (Node.call (.identifier name) ps).depth = max 0 (Node.deepest ps) + 1 := rfl
    have hcall : Bracket.Attaches (.plain (.opening .parenthesis) "(") (ps.map Entry.ofNode)
        .parenthesis (Entry.ofNode (.identifier name) :: row)
        (Entry.ofNode (.call (.identifier name) ps)) row :=
      Bracket.attaches_call (.identifier name) ps rfl rfl (by simp [Node.kind])
    rw [Node.tokens, List.cons_append, List.append_assoc]
    refine Scan.Runs.trans (.of_one (one_atom (by simp [Token.plain]) rfl delimited _ row)) ?_
    rw [Bracket.enclose_append]
    refine .step (scan_enclosed hctx hps hpp (by omega) (by omega) (by omega) rfl hcall _) ?_
    rw [Bracket.enclose_append]
    exact .single (scan_enclosed hctx hbody hbp (by omega) hroom hmax rfl
      (Bracket.attaches_named name ps body) rest)

theorem runs_unit (hctx : ctx.Reaches room) (hn : n.Readable ctx.settings.operators)
    (hu : n.kind.isUnit = true) {delimited : Bool} (rest : List Token) (hroom : n.depth ≤ room)
    (hmax : n.depth ≤ ctx.settings.maxDepth) (hready : row.Ready delimited n.lead) :
    Scan.Runs ctx.scan (Token.after delimited (n.tokens ++ rest)) row rest
      (Entry.ofNode n :: row) := by
  induction hn generalizing row rest delimited with
  | identifier name => exact .of_one (one_tokens hctx (.identifier name) rfl hroom hmax hready rest)
  | number value => exact .of_one (one_tokens hctx (.number value) rfl hroom hmax hready rest)
  | string value => exact .of_one (one_tokens hctx (.string value) rfl hroom hmax hready rest)
  | comment text => exact .of_one (one_tokens hctx (.comment text) rfl hroom hmax hready rest)
  | group hr hp => exact .of_one (one_tokens hctx (.group hr hp) rfl hroom hmax hready rest)
  | block hr hp => exact .of_one (one_tokens hctx (.block hr hp) rfl hroom hmax hready rest)
  | set hr hp => exact .of_one (one_tokens hctx (.set hr hp) rfl hroom hmax hready rest)
  | @call callee ns hc hcu hk hr hp ih =>
    have hd : (Node.call callee ns).depth = max callee.depth (Node.deepest ns) + 1 := rfl
    rw [Node.tokens, List.append_assoc, Bracket.enclose_append]
    refine (ih hcu _ (by omega) (by omega) (by simpa using hready)).trans (.single ?_)
    exact scan_enclosed hctx hr hp (by omega) hroom hmax rfl
      (Bracket.attaches_call callee ns rfl hc.isOperand hk) rest
  | @index target ns ht htu hr hp ih =>
    have hd : (Node.index target ns).depth = max target.depth (Node.deepest ns) + 1 := rfl
    rw [Node.tokens, List.append_assoc, Bracket.enclose_append]
    refine (ih htu _ (by omega) (by omega) (by simpa using hready)).trans (.single ?_)
    exact scan_enclosed hctx hr hp (by omega) hroom hmax rfl
      (Bracket.attaches_index target ns ht.isOperand) rest
  | @member target name ht htu hn hprimary ih _ =>
    have hd : (Node.member target name).depth = max target.depth name.depth + 1 := rfl
    rw [Node.tokens, List.append_assoc]
    have hs : secondPeriod (name.tokens ++ rest) = (false, name.tokens ++ rest) := by
      refine secondPeriod_of_kind ?_
      rw [Node.lead_append]
      exact hn.lead_ne_period hprimary
    refine (ih htu _ (by omega) (by omega) (by simpa using hready)).trans (.single ?_)
    exact scan_period hctx ht.isOperand hn hprimary (by omega) (by omega) hs row
  | @range start stop ht htu hn hprimary ih _ =>
    have hd : (Node.range start stop).depth = max start.depth stop.depth + 1 := rfl
    rw [Node.tokens, List.append_assoc]
    have hs : secondPeriod (.plain .period "." :: (stop.tokens ++ rest)) =
        (true, stop.tokens ++ rest) := rfl
    refine (ih htu _ (by omega) (by omega) (by simpa using hready)).trans (.single ?_)
    exact scan_period hctx ht.isOperand hn hprimary (by omega) (by omega) hs row
  | @statement m hm hmu ih =>
    have hd : (Node.statement [m]).depth = m.depth + 1 := by simp [Node.depth, Node.deepest]
    rw [Node.tokens, Node.listed, List.append_assoc]
    refine (ih hmu _ (by omega) (by omega) (by simpa using hready)).trans (.single ?_)
    exact scan_semicolon hm.isOperand (by omega) rest row
  | function hps hpp hbody hbp =>
    exact runs_function hctx hps hpp hbody hbp rest hroom hmax hready
  | ternary | binary => cases hu

theorem scan_choice (hctx : ctx.Reaches room) {condition left right : Node} {op : Operator}
    (hc : condition.isOperand = true) (hs : op.symbol = ":")
    (hb : (Node.binary op left right).Readable ctx.settings.operators)
    (hroom : (Node.ternary condition left right).depth ≤ room)
    (hmax : (Node.ternary condition left right).depth ≤ ctx.settings.maxDepth) (row : Row) :
    ctx.scan (.plain .questionMark "?") (left.tokens ++ .plain .operator ":" :: right.tokens)
      (Entry.ofNode condition :: row) =
        ⟨.ok (), [], Entry.ofNode (.ternary condition left right) :: row⟩ := by
  have hd : (Node.ternary condition left right).depth =
      max condition.depth (max left.depth right.depth) + 1 := rfl
  obtain ⟨k, rfl⟩ : ∃ k, room = k + 1 := ⟨room - 1, by omega⟩
  obtain ⟨scan, hbelow, hscan⟩ := hctx k rfl
  obtain ⟨colon, hcolon, hsymbol, htoken⟩ := hb.colon hs
  have hbranches : (Node.binary colon left right).depth = max left.depth right.depth + 1 := rfl
  have hlevel := hscan.level
    (Node.listable_binary hcolon (by omega : max left.depth right.depth ≤ k) (by omega))
  rw [Node.listed, Node.tokens, htoken] at hlevel
  have hdepth : max (Node.binary colon left right).depth (condition.depth + 1) =
      (Node.ternary condition left right).depth := by omega
  have h : ctx.Reads (.plain .questionMark "?")
      (left.tokens ++ .plain .operator ":" :: right.tokens) (Entry.ofNode condition :: row) _ _ :=
    .choice rfl rfl hc hbelow hlevel hsymbol (hdepth ▸ hmax)
  rw [h.scan_eq]
  simp only [Entry.ofNode, hdepth]

/-- A tree is read back from its own tokens, part by part: the row then holds the entries of its
operator tree. Only a choice asks what comes after, for it takes everything. -/
theorem runs_tokens (hctx : ctx.Reaches room) (hn : n.Readable ctx.settings.operators)
    {delimited : Bool} (rest : List Token)
    (hshallow : ∀ e ∈ n.expression.flatten, e.depth ≤ room) (hmax : n.depth ≤ ctx.settings.maxDepth)
    (hready : row.Ready delimited n.lead) (hend : n.rightmost.kind = .ternary → rest = []) :
    Scan.Runs ctx.scan (Token.after delimited (n.tokens ++ rest)) row rest
      (n.expression.flatten.reverse ++ row) := by
  have hself := hn
  induction hn generalizing row rest delimited with
  | @binary op left right hl hne hr hk ho ihl ihr =>
    have hd : (Node.binary op left right).depth = max left.depth right.depth + 1 := rfl
    simp only [Node.expression, Expression.flatten, List.mem_append, List.mem_cons] at hshallow
    rw [Node.tokens, List.append_assoc, List.cons_append, Node.expression, Expression.flatten,
      List.reverse_append, List.reverse_cons, List.append_assoc, List.append_assoc]
    have hop : op.token.atom? ctx.settings.operators = some (.marker op) := by
      have hk' : ctx.settings.operators.get? op.symbol = some ⟨op.name, op.precedence⟩ := hk
      simp [Token.atom?, Operator.token, hk']
    refine (ihl _ (fun e he => hshallow e (.inl he)) (by omega) (by simpa using hready)
      (fun h => absurd h hne) hl).trans ?_
    refine Scan.Runs.step (scan_of_atom hop) ?_
    exact ihr rest (fun e he => hshallow e (.inr (.inr he))) (by omega)
      (Row.ready_marker op 0 _ _) hend hr
  | @ternary condition left right op hc hcu hs hb ihc _ =>
    obtain rfl := hend rfl
    have hd : (Node.ternary condition left right).depth =
        max condition.depth (max left.depth right.depth) + 1 := rfl
    rw [Node.flatten_of_kind hself.isOperand (by simp [Node.kind])] at hshallow ⊢
    have hroom : (Node.ternary condition left right).depth ≤ room :=
      hshallow _ (List.mem_singleton_self _)
    rw [Node.tokens, List.append_nil, List.append_assoc, List.cons_append]
    refine (runs_unit hctx hc hcu _ (by omega) (by omega) (by simpa using hready)).trans
      (.single ?_)
    exact scan_choice hctx hc.isOperand hs hb hroom hmax row
  | _ =>
    rw [Node.flatten_of_kind hself.isOperand (by simp [Node.kind])] at hshallow ⊢
    exact runs_unit hctx hself rfl rest (hshallow _ (List.mem_singleton_self _)) hmax hready

/-- A list of trees is read back tree by tree. After a delimiter, what comes next begins anew. -/
theorem runs_listed (hctx : ctx.Reaches room) (hl : Node.Listable ctx.settings room ns)
    {delimited : Bool} (hready : ∀ n ∈ ns.head?, row.Ready delimited n.lead) :
    Scan.Runs ctx.scan (Token.after delimited (Node.listed ns)) row []
      ((ns.flatMap fun n => n.expression.flatten).reverse ++ row) := by
  induction ns generalizing row delimited with
  | nil =>
    cases delimited <;> exact .refl _ _
  | cons n ns ih =>
    obtain ⟨hn, hns⟩ := List.forall_mem_cons.1 hl.readable
    obtain ⟨hsn, hsns⟩ := List.forall_mem_cons.1 hl.shallow
    obtain ⟨hbn, hbns⟩ := List.forall_mem_cons.1 hl.bounded
    obtain ⟨hadmits, hparted⟩ := List.isChain_cons.1 hl.parted
    have hrest : ∀ rest, (n.rightmost.kind = .ternary → rest = []) →
        Scan.Runs ctx.scan (Token.after delimited (n.tokens ++ rest)) row rest
          (n.expression.flatten.reverse ++ row) := fun rest =>
      runs_tokens hctx hn rest hsn hbn (hready n rfl)
    cases ns with
    | nil =>
      have h := hrest [] fun _ => rfl
      rw [List.append_nil] at h
      simpa [Node.listed] using h
    | cons m ms =>
      have hm := hadmits m rfl
      obtain ⟨es, hes⟩ := List.getLast?_eq_some_iff.1 hn.getLast_flatten
      have hnext : ∀ k ∈ (m :: ms).head?,
          Row.Ready true (n.expression.flatten.reverse ++ row) k.lead := by
        intro k hk
        cases hk
        rw [hes, List.reverse_append]
        exact Row.ready_of_admits _ hm
      rw [Node.listed, List.flatMap_cons, List.reverse_append, List.append_assoc]
      refine (hrest _ fun h => absurd h hm.1).trans ?_
      refine Scan.Runs.step (Reads.scan_eq (.delimiter rfl)) ?_
      exact ih ⟨hns, hparted, hbns, hsns⟩ hnext

theorem foldMarkers_listable {settings : Settings} (hl : Node.Listable settings room ns) :
    foldMarkers settings.maxDepth (ns.flatMap fun n => n.expression.flatten) =
      .ok (ns.map Entry.ofNode) := by
  have ho : ∀ x ∈ ns.map Node.expression, x.Ordered := by
    intro x hx
    obtain ⟨n, hn, rfl⟩ := List.mem_map.1 hx
    exact (hl.readable n hn).ordered
  have hd : ∀ x ∈ ns.map Node.expression, x.depth ≤ settings.maxDepth := by
    intro x hx
    obtain ⟨n, hn, rfl⟩ := List.mem_map.1 hx
    have hdepth : n.expression.depth = n.depth := congrArg Entry.depth n.expression_entry
    rw [hdepth]
    exact hl.bounded n hn
  have h := Expression.foldMarkers_flatten ho hd
  rw [List.flatMap_map, List.map_map] at h
  rw [h]
  exact congrArg Except.ok (List.map_congr_left fun n _ => n.expression_entry)

theorem rereads_scan (hctx : ctx.Reaches room) (hs : ctx.scan.Regular) :
    ctx.scan.Rereads ctx.settings room where
  level ns hl := by
    have hrun : Scan.Runs ctx.scan (Token.after false (Node.listed ns)) [] [] _ :=
      runs_listed hctx hl fun n _ => Row.ready_nil n.lead
    refine (Scan.level_eq_ok_iff hs.shrinks).2 ⟨rfl, _, hrun, ?_⟩
    rw [List.append_nil, List.reverse_reverse]
    exact foldMarkers_listable hl
  one n hn hp hroom hmax rest := one_tokens hctx hn hp hroom hmax (Row.ready_nil _) rest

end Context

theorem rereads_scanWithin (settings : Settings) (room : Nat) :
    (scanWithin settings room).Rereads settings room := by
  induction room with
  | zero =>
    have hctx : Context.Reaches ⟨settings, none⟩ 0 := fun below h => by omega
    exact Context.rereads_scan hctx (regular_scanWithin settings 0)
  | succ room ih =>
    have hctx : Context.Reaches ⟨settings, some (scanWithin settings room)⟩ (room + 1) := by
      intro below h
      obtain rfl : room = below := by omega
      exact ⟨_, rfl, ih⟩
    exact Context.rereads_scan hctx (regular_scanWithin settings (room + 1))

theorem parseWith_listed_of_readable {settings : Settings} {nodes : List Node}
    (hr : ∀ n ∈ nodes, n.Readable settings.operators) (hp : Node.Parted nodes)
    (hd : ∀ n ∈ nodes, n.depth ≤ settings.maxDepth) :
    parseWith settings (Node.listed nodes) = .ok nodes := by
  have hl : Node.Listable settings settings.maxDepth nodes :=
    ⟨hr, hp, hd, fun n hn e he => Nat.le_trans (Node.depth_le_of_mem_flatten he) (hd n hn)⟩
  exact parseWith_eq_ok_iff.2
    ⟨_, (rereads_scanWithin settings settings.maxDepth).level hl, Entry.map_node_ofNode nodes⟩

/-- Every forest that was read is read again from its own tokens, whatever the tokens were that it
was read from. -/
theorem parseWith_listed {settings : Settings} {tokens : List Token} {nodes : List Node}
    (h : parseWith settings tokens = .ok nodes) :
    parseWith settings (Node.listed nodes) = .ok nodes := by
  obtain ⟨hr, hp, hd⟩ := readable_parseWith h
  exact parseWith_listed_of_readable hr hp hd

/-- The tokens of f and, after it, of a function of x that chooses between a and b. Its parenthesis
is marked, so that f is not called. -/
def markedTokens : List Token :=
  let word (name : String) : Token := .plain .word name
  word "f" :: ⟨.opening .parenthesis, "(", .nowhere, true⟩ :: word "x"
    :: .plain (.closing .parenthesis) ")" :: Bracket.brace.enclose [word "y"]
    ++ [.plain .questionMark "?", word "a", .plain .operator ":", word "b"]

def markedNodes : List Node :=
  [.identifier "f", .ternary (.function none [.identifier "x"] [.identifier "y"])
    (.identifier "a") (.identifier "b")]

theorem parseWith_listed_marked :
    parseWith .standard markedTokens = .ok markedNodes ∧
      parseWith .standard (Node.listed markedNodes) = .ok markedNodes := by
  have h : parseWith .standard markedTokens = .ok markedNodes := rfl
  exact ⟨h, parseWith_listed h⟩

end TokenForest
