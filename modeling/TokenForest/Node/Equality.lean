import TokenForest.Node.Basic

set_option autoImplicit false

namespace TokenForest.Node

mutual

def equals : Node → Node → Bool
  | .identifier a, .identifier b => a == b
  | .number a, .number b => a.equals b
  | .string a, .string b => a == b
  | .comment a, .comment b => a == b
  | .call a as, .call b bs => a.equals b && equalLists as bs
  | .group as, .group bs => equalLists as bs
  | .block as, .block bs => equalLists as bs
  | .function a as as', .function b bs bs' => a == b && equalLists as bs && equalLists as' bs'
  | .set as, .set bs => equalLists as bs
  | .index a as, .index b bs => a.equals b && equalLists as bs
  | .member a a', .member b b' => a.equals b && a'.equals b'
  | .range a a', .range b b' => a.equals b && a'.equals b'
  | .statement as, .statement bs => equalLists as bs
  | .ternary a a' a'', .ternary b b' b'' => a.equals b && a'.equals b' && a''.equals b''
  | .marker a, .marker b => a == b
  | .dangling a s a', .dangling b t b' => a == b && s == t && a'.equals b'
  | .binary a a' a'', .binary b b' b'' => a == b && a'.equals b' && a''.equals b''
  | _, _ => false

def equalLists : List Node → List Node → Bool
  | [], [] => true
  | a :: as, b :: bs => a.equals b && equalLists as bs
  | _, _ => false

end

end TokenForest.Node
