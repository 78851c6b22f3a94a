import Stabl.SymbolicExecution.Tree

/-!
# `Stabl.SymbolicExecution.Solver`: the scripts for the solver

The methods `formula` and `conversion` of the class `symbolic_execution.Solver`, on the results
of `sym_eval`. The call of the solver is a parameter of the engine.

`conversion` reads the map `symvarslist`. Its entries are an argument, each with the name of its
type, in the order in which the iterator lists them.
-/

set_option autoImplicit false

namespace Stabl

/-- The string that the parser passes for an operator. -/
def OperatorType.toString : OperatorType → String
  | .plus => "+"
  | .mul => "*"
  | .sub => "-"
  | .div => "/"
  | .ge => ">="
  | .gt => ">"
  | .le => "<="
  | .lt => "<"
  | .ne => "!="
  | .eq => "="
  | .and => "&&"
  | .or => "||"

/-- `toString` of the constant expressions. -/
def Constant.toString : Constant → String
  | .booleanConstant true => "true"
  | .booleanConstant false => "false"
  | .integerConstant n => n.toInt.repr
  | .stringLiteral s => "\"" ++ s ++ "\""

/-- `Solver.formula`. No branch is for `null`, and of a symbolic expression whose right operand is
`null` it writes the left operand alone. -/
def formula : SymExpr → String
  | .binaryExpression left right operator =>
    match operator with
    | .or => "( or " ++ formula left ++ " " ++ formula right ++ ")"
    | .and => "( and " ++ formula left ++ " " ++ formula right ++ ")"
    | .ne => "(not" ++ "( = " ++ formula left ++ " " ++ formula right ++ ")" ++ ")"
    | operator => "(" ++ operator.toString ++ formula left ++ " " ++ formula right ++ ")"
  | .operands left .null _ => formula left
  | .operands left right operator =>
    match operator with
    | .or => "( or " ++ formula left ++ " " ++ formula right ++ ")"
    | .and => "( and " ++ formula left ++ " " ++ formula right ++ ")"
    | .ne => "(not" ++ "( = " ++ formula left ++ " " ++ formula right ++ ")" ++ ")"
    | operator => "(" ++ operator.toString ++ " " ++ formula left ++ " " ++ formula right ++ ")"
  | .not e => "(not" ++ " " ++ formula e ++ " " ++ ")"
  | .expression e => formula e
  | .constant c => c.toString
  | .symVars v => v
  | .null => ""

/-- The sort that `conversion` declares for a type. No branch is for another name. -/
def sortOfType (typeName : String) : Option String :=
  if typeName = "int" then some "Int"
  else if typeName = "string" then some "String"
  else if typeName = "bool" then some "Bool"
  else none

/-- The body of the loop of `conversion` over `symvarslist`. -/
def declareFun (s : String) (v : String × String) : String :=
  match sortOfType v.2 with
  | some sort => s ++ "(declare-fun " ++ v.1 ++ "()" ++ sort ++ ")" ++ "\n"
  | none => s

/-- `Solver.conversion`. -/
def conversion (symvarslist : List (String × String)) (expression : SymExpr) : String :=
  let s := symvarslist.foldl declareFun ""
  let s := s ++ "(assert " ++ formula expression ++ ")\n"
  let s := s ++ "(check-sat)\n"
  s ++ "(exit)"

end Stabl
