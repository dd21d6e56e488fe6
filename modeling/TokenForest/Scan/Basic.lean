import TokenForest.Fold.Links
import TokenForest.Settings

/-!
Scanning: reading one construct off a token stream onto a row. A scan that fails still tells what
it left of the stream and the row, because a caller may go on from there.
-/

set_option autoImplicit false

namespace TokenForest

structure Reading (α : Type) where
  outcome : Except Fault α
  rest : List Token

structure Step where
  outcome : Except Fault Unit
  rest : List Token
  row : Row

def Step.ofRow (rest : List Token) (row : Row) : Except Fault Row → Step
  | .ok row' => ⟨.ok (), rest, row'⟩
  | .error f => ⟨.error f, rest, row⟩

/-- Reads the construct that begins with a token just taken off the stream. -/
abbrev Scan := Token → List Token → Row → Step

namespace Scan

def one (scan : Scan) (stream : List Token) (row : Row) : Step :=
  match stream with
  | [] => ⟨.ok (), [], row⟩
  | t :: ts => scan t ts row

/-- Reads constructs until none is left or one fails. A construct takes a token at least, so the
length of the stream is fuel enough. -/
def drain (scan : Scan) : Nat → List Token → Row → Step
  | 0, stream, row => ⟨.ok (), stream, row⟩
  | _ + 1, [], row => ⟨.ok (), [], row⟩
  | fuel + 1, t :: ts, row =>
    match scan t ts row with
    | ⟨.ok (), rest, row⟩ => scan.drain fuel rest row
    | ⟨.error f, rest, row⟩ => ⟨.error f, rest, row⟩

/-- Reads a whole stream on a row of its own and folds the operators in it. -/
def level (scan : Scan) (limit : Nat) (stream : List Token) : Reading (List Entry) :=
  match scan.drain stream.length stream [] with
  | ⟨.ok (), rest, row⟩ => ⟨foldMarkers limit row.reverse, rest⟩
  | ⟨.error f, rest, _⟩ => ⟨.error f, rest⟩

end Scan

/-- What the scan of one level may use: the settings, and the scan of the level below, unless the
depth limit forbids one. -/
structure Context where
  settings : Settings
  below : Option Scan

def Context.below? (ctx : Context) (token : Token) : Except Fault Scan :=
  match ctx.below with
  | some scan => .ok scan
  | none => .error ⟨.tooDeep ctx.settings.maxDepth, token.position⟩

def Context.finish (ctx : Context) (token : Token) (rest : List Token) (row : Row) (e : Entry) :
    Step :=
  .ofRow rest row (row.push? ctx.settings.maxDepth token e)

end TokenForest
