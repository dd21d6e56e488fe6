import TokenForest.Text.Quoted

set_option autoImplicit false

namespace TokenForest

inductive Sexpr where
  | bare (word : List Char)
  | quoted (text : String)
  | list (elements : List Sexpr)

namespace Sexpr

mutual

def text : Sexpr → List Char
  | .bare word => word
  | .quoted text => (Text.quote text).toList
  | .list elements => '(' :: ((spaced elements).drop 1 ++ [')'])

def spaced : List Sexpr → List Char
  | [] => []
  | x :: xs => ' ' :: x.text ++ spaced xs

end

/-- What parts one element from the next. A quote parts nothing, but no word may hold one. -/
def isMark (c : Char) : Bool := c == ' ' || c == '(' || c == ')' || c == '"'

def isWord (word : List Char) : Bool := !word.isEmpty && word.all fun c => !isMark c

inductive Clear : Sexpr → Prop where
  | bare {word : List Char} : isWord word = true → Clear (.bare word)
  | quoted (text : String) : Clear (.quoted text)
  | list {elements : List Sexpr} : (∀ x ∈ elements, Clear x) → Clear (.list elements)

end Sexpr

end TokenForest
