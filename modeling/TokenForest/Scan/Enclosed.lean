import TokenForest.Enclosure
import TokenForest.Scan.Basic

/-!
Bracketed constructs. The inside is read first, one level down; what the whole means is then told
by the entry before it: a call or a group, an index or a set, a function or a block.
-/

set_option autoImplicit false

namespace TokenForest

/-- Cuts an enclosure out of the stream and reads its inside one level down. The tokens are taken
even if that fails, but not if the enclosure has no end. -/
def Context.interior (ctx : Context) (b : Bracket) (opener : Token) (stream : List Token) :
    Reading (List Entry) :=
  match b.findClose opener stream with
  | .error f => ⟨.error f, stream⟩
  | .ok close =>
    match ctx.below? opener with
    | .error f => ⟨.error f, stream.drop (close + 1)⟩
    | .ok scan =>
      ⟨(scan.level ctx.settings.maxDepth (stream.take close)).outcome, stream.drop (close + 1)⟩

namespace Bracket

/-- A parenthesis after an operand is a call, but not after a statement, and not if it was marked
as grouping. -/
def attachParenthesis (token : Token) (content : List Entry) (row : Row) : Entry × Row :=
  let callee := if token.grouping then none
    else row.take? fun n => n.isOperand && n.kind != .statement
  match callee with
  | some (f, below) =>
    (⟨.call f.node (content.map Entry.node), max f.depth (Entry.deepest content) + 1⟩, below)
  | none => (⟨.group (content.map Entry.node), Entry.deepest content + 1⟩, row)

def attachSquare (content : List Entry) (row : Row) : Entry × Row :=
  match row.take? Node.isOperand with
  | some (target, below) =>
    (⟨.index target.node (content.map Entry.node), max target.depth (Entry.deepest content) + 1⟩,
      below)
  | none => (⟨.set (content.map Entry.node), Entry.deepest content + 1⟩, row)

/-- A brace after a call is the body of a named function, after a group that of an anonymous one.
The function takes over the parameters of the entry before it, so it is as deep as that entry or
one deeper than its body. A call of anything but an identifier has no name to give. -/
def attachBrace (token : Token) (body : List Entry) (row : Row) : Except Fault Entry × Row :=
  match row with
  | ⟨.call (.identifier name) parameters, depth⟩ :: below =>
    (.ok ⟨.function (some name) parameters (body.map Entry.node),
      max depth (Entry.deepest body + 1)⟩, below)
  | ⟨.call _ _, _⟩ :: below => (.error token.unexpected, below)
  | ⟨.group parameters, depth⟩ :: below =>
    (.ok ⟨.function none parameters (body.map Entry.node),
      max depth (Entry.deepest body + 1)⟩, below)
  | _ => (.ok ⟨.block (body.map Entry.node), Entry.deepest body + 1⟩, row)

def attach : Bracket → Token → List Entry → Row → Except Fault Entry × Row
  | .parenthesis, token, content, row => (attachParenthesis token content row).map .ok id
  | .square, _, content, row => (attachSquare content row).map .ok id
  | .brace, token, content, row => attachBrace token content row

end Bracket

/-- The row stays whole as long as the inside fails. -/
def Scan.enclosed (ctx : Context) (b : Bracket) : Scan := fun token stream row =>
  match ctx.interior b token stream with
  | ⟨.error f, rest⟩ => ⟨.error f, rest, row⟩
  | ⟨.ok content, rest⟩ =>
    match b.attach token content row with
    | (.error f, below) => ⟨.error f, rest, below⟩
    | (.ok e, below) => ctx.finish token rest below e

end TokenForest
