import Stabl.SimSee.Syntax

/-!
# `Stabl.SimSee.Printer`: the expressions that `sim-see` prints

`string_of_typ` and `string_of_expr` of `Interpreter.SE`, and the identifiers that
`lexer.mll` can produce. `Add` and `Sub` are printed without parentheses; the other
operators put them around both operands.
-/

set_option autoImplicit false

namespace Stabl.SimSee

/-- `SE.string_of_typ`. -/
def stringOfTyp : Typ → String
  | .boolean => "boolean"
  | .integer => "int"

/-- `SE.string_of_expr`. -/
def stringOfExpr : Expr → String
  | .id vname => vname
  | .intConst n => toString n.toInt
  | .add e1 e2 => stringOfExpr e1 ++ " + " ++ stringOfExpr e2
  | .sub e1 e2 => stringOfExpr e1 ++ " - " ++ stringOfExpr e2
  | .boolConst b => toString b
  | .not e => "not(" ++ stringOfExpr e ++ ")"
  | .or e1 e2 => "(" ++ stringOfExpr e1 ++ ") or (" ++ stringOfExpr e2 ++ ")"
  | .and e1 e2 => "(" ++ stringOfExpr e1 ++ ") and (" ++ stringOfExpr e2 ++ ")"
  | .equals e1 e2 => "(" ++ stringOfExpr e1 ++ ") = (" ++ stringOfExpr e2 ++ ")"
  | .input t => "input(" ++ stringOfTyp t ++ ")"

/-- The letters of the lexer. -/
def isLetter (c : Char) : Bool := ('a' ≤ c ∧ c ≤ 'z') ∨ ('A' ≤ c ∧ c ≤ 'Z')

/-- The rules before `id` that match a text of letters and digits. -/
def reservedWords : List String :=
  ["if", "then", "else", "true", "false", "and", "or", "not", "boolean", "int"]

/-- The texts for which the lexer returns the token `ID`. -/
def lexesAsId (s : String) : Bool :=
  match s.toList with
  | [] => false
  | c :: cs => isLetter c && cs.all (fun c => isLetter c || c.isDigit) && !reservedWords.contains s

/-- The identifiers of the expression are some that the lexer can produce. -/
def Expr.lexable : Expr → Bool
  | .id vname => lexesAsId vname
  | .intConst _ | .boolConst _ | .input _ => true
  | .not e => e.lexable
  | .add e1 e2 | .sub e1 e2 | .or e1 e2 | .and e1 e2 | .equals e1 e2 => e1.lexable && e2.lexable

end Stabl.SimSee
