import TokenForest.Construct

/-!
The reader: from a token list to the forest it writes. A reader knows how many levels it may still
go down, so its recursion ends by itself.
-/

set_option autoImplicit false

namespace TokenForest

/-- The scan of a level with so much room below it. -/
def scanWithin (settings : Settings) : Nat → Scan
  | 0 => Context.scan ⟨settings, none⟩
  | room + 1 => Context.scan ⟨settings, some (scanWithin settings room)⟩

/-- A reader on some level. Its room is the number of levels it may still go down. -/
structure Reader where
  settings : Settings
  room : Nat

namespace Reader

def top (settings : Settings) : Reader := ⟨settings, settings.maxDepth⟩

def below? (r : Reader) (token : Token) : Except Fault Reader :=
  match r.room with
  | 0 => .error ⟨.tooDeep r.settings.maxDepth, token.position⟩
  | room + 1 => .ok ⟨r.settings, room⟩

def context (r : Reader) : Context :=
  match r.room with
  | 0 => ⟨r.settings, none⟩
  | room + 1 => ⟨r.settings, some (scanWithin r.settings room)⟩

def scan (r : Reader) : Scan := r.context.scan

theorem scan_eq (r : Reader) : r.scan = scanWithin r.settings r.room := by
  obtain ⟨settings, room⟩ := r
  cases room <;> rfl

def one (r : Reader) (stream : List Token) (row : Row) : Step := r.scan.one stream row

def stream (r : Reader) (stream : List Token) : Reading (List Entry) :=
  r.scan.level r.settings.maxDepth stream

def list (r : Reader) (tokens : List Token) : Except Fault (List Entry) :=
  (r.stream tokens).outcome

def interior (r : Reader) (b : Bracket) (opener : Token) (stream : List Token) :
    Reading (List Entry) :=
  r.context.interior b opener stream

def construct (r : Reader) (c : Construct) : Scan := c.scan r.context

def push? (r : Reader) (row : Row) (token : Token) (e : Entry) : Except Fault Row :=
  row.push? r.settings.maxDepth token e

end Reader

/-- The forest a token list writes, or the first fault in it. -/
def parseWith (settings : Settings) (tokens : List Token) : Except Fault (List Node) :=
  ((Reader.top settings).list tokens).map fun entries => entries.map Entry.node

def parse (tokens : List Token) : Except Fault (List Node) := parseWith .standard tokens

end TokenForest
