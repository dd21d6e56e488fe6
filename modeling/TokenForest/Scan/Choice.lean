import TokenForest.Scan.Basic

set_option autoImplicit false

namespace TokenForest

/-- The two branches, if the list is a single operator with the symbol of a colon. -/
def branches? : List Entry → Option (Node × Node × Nat)
  | [⟨.binary op left right, depth⟩] =>
    if op.symbol = ":" then some (left, right, depth) else none
  | _ => none

/-- The branches stay at the distance from the root that they had below the colon, so its depth
serves again. -/
def Scan.choice (ctx : Context) : Scan := fun token stream row =>
  match row.take? Node.isOperand with
  | none => ⟨.error token.unexpected, stream, row⟩
  | some (condition, row) =>
    match ctx.below? token with
    | .error f => ⟨.error f, stream, row⟩
    | .ok scan =>
      match scan.level ctx.settings.maxDepth stream with
      | ⟨.error f, rest⟩ => ⟨.error f, rest, row⟩
      | ⟨.ok content, rest⟩ =>
        match branches? content with
        | none => ⟨.error token.unexpected, rest, row⟩
        | some (left, right, depth) =>
          ctx.finish token rest row
            ⟨.ternary condition.node left right, max depth (condition.depth + 1)⟩

end TokenForest
