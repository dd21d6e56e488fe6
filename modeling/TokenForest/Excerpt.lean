import TokenForest.Position
import TokenForest.Text.Bytes

/-!
Excerpts: the surroundings of a position with the character that stands there marked. Widths count
characters, all places are bytes, and an offset that falls inside a character means that character.
-/

set_option autoImplicit false

namespace TokenForest

inductive MarkerStyle where
  | plain | ansi
  deriving DecidableEq, Repr, Inhabited

def MarkerStyle.opening : MarkerStyle → List Char
  | .plain => ['-', '-', '>']
  | .ansi => ['\x1b', '[', '3', '1', 'm']

def MarkerStyle.closing : MarkerStyle → List Char
  | .plain => ['<', '-', '-']
  | .ansi => ['\x1b', '[', '3', '9', 'm']

namespace Excerpt

open Bytes

def width : Nat := 50

def bounds? (source : List Char) (offset : Nat) : Option (Nat × Nat) := do
  let head ← slice? source 0 offset
  let tail ← slice? source offset (size source)
  let start := (starts 0 head).reverse[width - 1]?.getD 0
  let stop := (starts offset tail)[width]?.getD (size source)
  return (start, stop)

def mark? (style : MarkerStyle) (shown : List Char) (offset : Nat) : Option (List Char) := do
  let rest ← slice? shown offset (size shown)
  let stop := rest.head?.elim offset fun c => offset + c.utf8Size
  let before ← slice? shown 0 offset
  let marked ← slice? shown offset stop
  let after ← slice? shown stop (size shown)
  return before ++ style.opening ++ marked ++ style.closing ++ after

/-- Dots stand where the surroundings leave something out. There is no answer if a text would have
to be cut inside a character or past its end. -/
def render? (style : MarkerStyle) (source : List Char) (offset : Nat) : Option (List Char) := do
  let offset := floor source offset
  let (start, stop) ← bounds? source offset
  let shown ← slice? source start stop
  guard (start ≤ offset)
  let marked ← mark? style shown (offset - start)
  return ['"'] ++ (if start = 0 then [] else ['.', '.', '.', '\n']) ++ marked
    ++ (if stop < size source then ['.', '.', '.'] else []) ++ ['"']

end Excerpt

def Position.excerpt? (p : Position) (style : MarkerStyle) : Option String :=
  (Excerpt.render? style p.source.toList p.offset.toNat).map String.ofList

def Position.excerpt (p : Position) (style : MarkerStyle) : String :=
  (p.excerpt? style).getD ""

end TokenForest
