import TokenForest.Scan.Basic

set_option autoImplicit false

namespace TokenForest

def Token.grouped (t : Token) : Token :=
  if t.kind = .opening .parenthesis then { t with grouping := true } else t

namespace Scan

/-- A delimiter leaves nothing but its mark on a parenthesis right after it. -/
def delimiter : Scan := fun _ rest row =>
  match rest with
  | [] => ⟨.ok (), [], row⟩
  | t :: ts => ⟨.ok (), t.grouped :: ts, row⟩

def semicolon (ctx : Context) : Scan := fun token rest row =>
  match row.take? Node.isOperand with
  | none => ⟨.error token.unexpected, rest, row⟩
  | some (e, row) => ctx.finish token rest row ⟨.statement [e.node], e.depth + 1⟩

end Scan

end TokenForest
