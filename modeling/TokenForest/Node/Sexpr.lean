import TokenForest.Decimal.Shortest
import TokenForest.Node.Basic
import TokenForest.Text.Quoted

set_option autoImplicit false

namespace TokenForest.Node

/-- A head and its parts, each of which brings its own space. -/
def headed (head : String) (parts : List Char) : List Char :=
  '(' :: (head.toList ++ parts ++ [')'])

def unheaded (parts : List Char) : List Char :=
  '(' :: (parts.drop 1 ++ [')'])

mutual

/-- An operator with one operand shows its symbol only. -/
def sexpr : Node → List Char
  | .identifier name => name.toList
  | .number value => value.render.toList
  | .string value => (Text.quote value).toList
  | .comment text => headed "comment" (' ' :: (Text.quote text).toList)
  | .call callee arguments => headed "call" (' ' :: callee.sexpr ++ spaced arguments)
  | .group content => headed "group" (spaced content)
  | .block content => headed "block" (spaced content)
  | .function none parameters body =>
    headed "fn" (' ' :: unheaded (spaced parameters) ++ ' ' :: unheaded (spaced body))
  | .function (some name) parameters body =>
    headed "fn" (' ' :: name.toList ++ ' ' :: unheaded (spaced parameters)
      ++ ' ' :: unheaded (spaced body))
  | .set content => headed "set" (spaced content)
  | .index target content => headed "index" (' ' :: target.sexpr ++ spaced content)
  | .member target name => headed "." (' ' :: target.sexpr ++ ' ' :: name.sexpr)
  | .range start stop => headed ".." (' ' :: start.sexpr ++ ' ' :: stop.sexpr)
  | .statement content => headed "stmt" (spaced content)
  | .ternary condition left right =>
    headed "?" (' ' :: condition.sexpr ++ ' ' :: left.sexpr ++ ' ' :: right.sexpr)
  | .marker op => op.symbol.toList
  | .dangling op _ _ => op.symbol.toList
  | .binary op left right => headed op.symbol (' ' :: left.sexpr ++ ' ' :: right.sexpr)

def spaced : List Node → List Char
  | [] => []
  | n :: ns => ' ' :: n.sexpr ++ spaced ns

end

def render (n : Node) : String := String.ofList n.sexpr

end TokenForest.Node
