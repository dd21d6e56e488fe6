import TokenForest.Scan.Basic

set_option autoImplicit false

namespace TokenForest

def secondPeriod : List Token → Bool × List Token
  | [] => (false, [])
  | t :: ts => if t.kind = .period then (true, ts) else (false, t :: ts)

namespace Scan

def dotted (isRange : Bool) (left right : Entry) : Entry :=
  ⟨if isRange then .range left.node right.node else .member left.node right.node,
    max left.depth right.depth + 1⟩

/-- The left operand is taken before the right one is read, and is gone if that fails. -/
def dot (ctx : Context) : Scan := fun token stream row =>
  let (isRange, stream) := secondPeriod stream
  match row.take? Node.isOperand with
  | none => ⟨.error token.unexpected, stream, row⟩
  | some (left, row) =>
    match ctx.below? token with
    | .error f => ⟨.error f, stream, row⟩
    | .ok scan =>
      match scan.one stream [] with
      | ⟨.error f, rest, _⟩ => ⟨.error f, rest, row⟩
      | ⟨.ok (), rest, found⟩ =>
        match Row.take? found Node.isOperand with
        | none => ⟨.error token.unexpected, rest, row⟩
        | some (right, _) => ctx.finish token rest row (dotted isRange left right)

end Scan

end TokenForest
