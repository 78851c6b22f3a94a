import Stabl.Ast.Environment
import Stabl.Lib.EnterExit

/-!
# `Stabl.SymbolicExecution.Tree`: the nodes of the symbolic execution tree

The package `symbolic_execution.se_tree`, and `sym_eval` with `backtrack` from
`SymbolicExecutionEngine`. A node holds its parent, so it is the path from the root to it.

A node of the kind `note` is not a node of the source. It is a ghost that says why the
path goes on: a condition was assumed, a transition is taken, or its action begins. Nothing
in the engine sees it. The two `DecisionNode`s of an if hold the same condition, and two
transitions may leave the same states from one leaf. The notes above the nodes tell them
apart.

`SymVars` are made by the constructor of `InstructionNode`, one name for each variable.
The map `symvarslist` goes into the declarations of the solver's input only, and the answers
of the solver are a parameter. So the map stands beside the engine, in `Symbols`.
-/

set_option autoImplicit false

namespace Stabl

/-- `SymbolicExpression`, as nodes hold it: two operands with an operator, or one
expression with the operator `" "`. -/
inductive SymbolicExpression where
  | operands (left right : Expression Name) (operator : OperatorType)
  | expression (e : Expression Name)
  | symVars (value : String)

/-- The result of `sym_eval`: a `BinaryExpression`, or a `SymbolicExpression` with two
operands, with one under the operator `" "`, or with one under `"!"`. -/
inductive SymExpr where
  | null
  | constant (c : Constant)
  | symVars (value : String)
  | binaryExpression (left right : SymExpr) (operator : OperatorType)
  | operands (left right : SymExpr) (operator : OperatorType)
  | expression (e : SymExpr)
  | not (e : SymExpr)
deriving DecidableEq

/-- What a ghost node says. -/
inductive Note where
  | assume (condition : Expression Name) (value : Bool)
  | transition (state : StateRef) (transition : String)
  | action (state : StateRef) (transition : String)

/-- `SETNode` and its subclasses. `start` is the `SETNode` at the root. -/
inductive SETNode where
  | start
  | instruction (var : DeclarationRef) (expression : SymbolicExpression) (parent : SETNode)
  | decision (value : Option SymbolicExpression) (parent : SETNode)
  | stateEntry (s : StateRef) (parent : SETNode)
  | stateExit (s : StateRef) (parent : SETNode)
  | note (n : Note) (parent : SETNode)

/-- `InstructionNode.evaluate_exp`, for an update of `var`. -/
def evaluateUpdate (var : DeclarationRef) : Expression Name → SymbolicExpression
  | .binaryExpression left right operator => .operands left right operator
  | .name n => .expression (.name n)
  | .constant c => .expression (.constant c)
  -- Any function counts as an input.
  | .functionCall _ _ => .symVars (var.vname ++ "_1")

/-- `DecisionNode.evaluate_exp`. -/
def evaluateCondition : Expression Name → Option SymbolicExpression
  | .binaryExpression left right operator => some (.operands left right operator)
  | .name n => some (.expression (.name n))
  | .constant c => some (.expression (.constant c))
  | .functionCall _ _ => none

namespace SETNode

/-- The field `depth`: only an `InstructionNode` adds to it. -/
def depth : SETNode → Nat
  | .start => 0
  | .instruction _ _ p => p.depth + 1
  | .decision _ p | .stateEntry _ p | .stateExit _ p | .note _ p => p.depth

/-- The field `treedepth`. -/
def treedepth : SETNode → Nat
  | .start => 0
  | .instruction _ _ p | .decision _ p | .stateEntry _ p | .stateExit _ p => p.treedepth + 1
  | .note _ p => p.treedepth

/-- `backtrack`: the last update of a variable on the path, with the parent of its node. -/
def backtrack (d : DeclarationRef) : SETNode → Option (SymbolicExpression × SETNode)
  | .start => none
  | .instruction var e p => if var = d then some (e, p) else backtrack d p
  | .decision _ p | .stateEntry _ p | .stateExit _ p | .note _ p => backtrack d p

end SETNode

section
variable (value : DeclarationRef → SymExpr)

/-- `sym_eval` on an expression of the program, with the results for its names. -/
def symEvalWith : Expression Name → SymExpr
  | .name n => value n.declaration
  | .constant c => .constant c
  | .binaryExpression left right operator =>
    .binaryExpression (symEvalWith left) (symEvalWith right) operator
  | .functionCall _ _ => .null

/-- `sym_eval` on a `SymbolicExpression` of a node. -/
def symEvalUpdateWith : SymbolicExpression → SymExpr
  | .operands left right operator =>
    .operands (symEvalWith value left) (symEvalWith value right) operator
  | .expression e => .expression (symEvalWith value e)
  | .symVars v => .expression (.symVars v)

end

/-- `sym_eval` on a name: the update that `backtrack` finds is evaluated at the parent of
its node. Where there is none, the result is `null`. -/
def SETNode.valueOf : SETNode → DeclarationRef → SymExpr
  | .start, _ => .null
  | .instruction var e p, d => if var = d then symEvalUpdateWith p.valueOf e else p.valueOf d
  | .decision _ p, d | .stateEntry _ p, d | .stateExit _ p, d | .note _ p, d => p.valueOf d

/-- `sym_eval`. -/
def symEval (e : Expression Name) (leaf : SETNode) : SymExpr := symEvalWith leaf.valueOf e

/-- The recursion of `sym_eval` through `backtrack`. -/
theorem SETNode.valueOf_eq_backtrack (n : SETNode) (d : DeclarationRef) :
    n.valueOf d = match n.backtrack d with
      | some (e, p) => symEvalUpdateWith p.valueOf e
      | none => .null := by
  induction n with
  | start => rfl
  | instruction var e p ih =>
      by_cases h : var = d
      · simp [valueOf, backtrack, h]
      · simpa [valueOf, backtrack, h] using ih
  | decision _ p ih | stateEntry _ p ih | stateExit _ p ih | note _ p ih => exact ih

end Stabl
