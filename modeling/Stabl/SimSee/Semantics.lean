import Stabl.SimSee.Interpreter

/-!
# `Stabl.SimSee.Semantics`: what programs and execution trees mean

The repository only executes programs of `sim-see` symbolically. This file says what is
compared with that: the runs of a program on concrete values, and what a node of the
tree says under a valuation of the symbolic variables.

A concrete run reads its `Input`s from a stream that has a value of each type at each
position. It keeps the list of its assignments, those of the declarations included. The
operators evaluate both operands, the left one first, as `se_expr` does.
-/

set_option autoImplicit false

namespace Stabl.SimSee

/-! ### Programs whose `and` and `or` are boolean -/

/-- The operands of `and` and `or` are boolean. `typecheck_expr` only asks that they have
one type. -/
def Expr.logicalBoolean (env : Env) : Expr → Bool
  | .id _ | .intConst _ | .boolConst _ | .input _ => true
  | .not e => e.logicalBoolean env
  | .add e1 e2 | .sub e1 e2 | .equals e1 e2 => e1.logicalBoolean env && e2.logicalBoolean env
  | .or e1 e2 | .and e1 e2 =>
    e1.logicalBoolean env && e2.logicalBoolean env &&
      decide (typecheckExpr env e1 = .ok .boolean ∧ typecheckExpr env e2 = .ok .boolean)

mutual

def Stmt.logicalBoolean (env : Env) : Stmt → Bool
  | .assignment _ e => e.logicalBoolean env
  | .ifStmt b s1 s2 =>
    b.logicalBoolean env && (s1.logicalBoolean env && s2.logicalBoolean env)
  | .block stmts => Stmt.logicalBooleanBlock env stmts

def Stmt.logicalBooleanBlock (env : Env) : List Stmt → Bool
  | [] => true
  | stmt :: stmts => stmt.logicalBoolean env && Stmt.logicalBooleanBlock env stmts

end

def Program.logicalBoolean (p : Program) : Bool :=
  p.statement.logicalBoolean (typecheckDeclarations p.decls)

/-! ### Values and operators -/

inductive Value where
  | bool (b : Bool)
  | int (n : BitVec 63)
deriving DecidableEq, Repr

namespace Value

def typ : Value → Typ
  | .bool _ => .boolean
  | .int _ => .integer

def add : Value → Value → Option Value
  | .int m, .int n => some (.int (m + n))
  | _, _ => none

def sub : Value → Value → Option Value
  | .int m, .int n => some (.int (m - n))
  | _, _ => none

def not : Value → Option Value
  | .bool b => some (.bool !b)
  | _ => none

def or : Value → Value → Option Value
  | .bool b, .bool c => some (.bool (b || c))
  | _, _ => none

def and : Value → Value → Option Value
  | .bool b, .bool c => some (.bool (b && c))
  | _, _ => none

def equals (v w : Value) : Option Value :=
  some (.bool (decide (v = w)))

end Value

/-! ### Concrete runs -/

/-- The values that the `Input`s of a run return: the one at position `k`, when it asks
for a value of type `t`, returns `get k t`. -/
structure Inputs where
  get : Nat → Typ → Value
  typ_get : ∀ k t, (get k t).typ = t

abbrev Store := String → Option Value

/-- The value of an expression, with the number of inputs used before and after. -/
def evalExpr (inputs : Inputs) (store : Store) : Expr → Nat → Option (Value × Nat)
  | .id vname, k => do
    let v ← store vname
    pure (v, k)
  | .intConst n, k => some (.int n, k)
  | .boolConst b, k => some (.bool b, k)
  | .add e1 e2, k => do
    let (v1, k) ← evalExpr inputs store e1 k
    let (v2, k) ← evalExpr inputs store e2 k
    let v ← v1.add v2
    pure (v, k)
  | .sub e1 e2, k => do
    let (v1, k) ← evalExpr inputs store e1 k
    let (v2, k) ← evalExpr inputs store e2 k
    let v ← v1.sub v2
    pure (v, k)
  | .not e, k => do
    let (v1, k) ← evalExpr inputs store e k
    let v ← v1.not
    pure (v, k)
  | .or e1 e2, k => do
    let (v1, k) ← evalExpr inputs store e1 k
    let (v2, k) ← evalExpr inputs store e2 k
    let v ← v1.or v2
    pure (v, k)
  | .and e1 e2, k => do
    let (v1, k) ← evalExpr inputs store e1 k
    let (v2, k) ← evalExpr inputs store e2 k
    let v ← v1.and v2
    pure (v, k)
  | .equals e1 e2, k => do
    let (v1, k) ← evalExpr inputs store e1 k
    let (v2, k) ← evalExpr inputs store e2 k
    let v ← v1.equals v2
    pure (v, k)
  | .input t, k => some (inputs.get k t, k + 1)

/-- A state of a concrete run: the store, the number of inputs used, and the assignments
made so far. -/
structure State where
  store : Store
  used : Nat
  trace : List (String × Value)

namespace State

def initial : State where
  store _ := none
  used := 0
  trace := []

def assign (σ : State) (vname : String) (v : Value) (used : Nat) : State where
  store x := if x = vname then some v else σ.store x
  used := used
  trace := σ.trace ++ [(vname, v)]

/-- The assignments of the run, as a node records them. -/
def assignments (σ : State) : List (Expr × Option Value) :=
  σ.trace.map fun a => (.id a.1, some a.2)

end State

def execAssignment (inputs : Inputs) (vname : String) (e : Expr) (σ : State) : Option State := do
  let (v, k) ← evalExpr inputs σ.store e σ.used
  pure (σ.assign vname v k)

mutual

def execStmt (inputs : Inputs) : Stmt → State → Option State
  | .assignment vname e, σ => execAssignment inputs vname e σ
  | .ifStmt b s1 s2, σ => do
    let (v, k) ← evalExpr inputs σ.store b σ.used
    match v with
    | .bool true => execStmt inputs s1 { σ with used := k }
    | .bool false => execStmt inputs s2 { σ with used := k }
    | .int _ => none
  | .block stmts, σ => execStmtblock inputs stmts σ

def execStmtblock (inputs : Inputs) : List Stmt → State → Option State
  | [], σ => some σ
  | stmt :: stmts, σ => do
    let σ ← execStmt inputs stmt σ
    execStmtblock inputs stmts σ

end

/-- The declarations, each initialised by `ty_init`. -/
def execDecls (inputs : Inputs) : List (String × Typ) → State → Option State
  | [], σ => some σ
  | decl :: decls, σ => do
    let σ ← execAssignment inputs decl.1 (tyInit decl.2) σ
    execDecls inputs decls σ

def execProg (inputs : Inputs) (p : Program) : Option State := do
  let σ ← execDecls inputs p.decls State.initial
  execStmt inputs p.statement σ

/-! ### Execution trees under a valuation -/

/-- A value for each symbolic variable, by its name. -/
abbrev Valuation := String → Value

/-- The valuation gives the symbolic variables made so far values of their types. -/
def Valuation.Respects (rho : Valuation) (vars : SymVars) : Prop :=
  ∀ i t, vars[i]? = some t → (rho (symvarName (i + 1))).typ = t

/-- The value of a symbolic expression. -/
def evalSym (rho : Valuation) : Expr → Option Value
  | .id symvar => some (rho symvar)
  | .intConst n => some (.int n)
  | .boolConst b => some (.bool b)
  | .add e1 e2 => do (← evalSym rho e1).add (← evalSym rho e2)
  | .sub e1 e2 => do (← evalSym rho e1).sub (← evalSym rho e2)
  | .not e => do (← evalSym rho e).not
  | .or e1 e2 => do (← evalSym rho e1).or (← evalSym rho e2)
  | .and e1 e2 => do (← evalSym rho e1).and (← evalSym rho e2)
  | .equals e1 e2 => do (← evalSym rho e1).equals (← evalSym rho e2)
  | .input _ => none

/-- The symbolic variables of a symbolic expression, from left to right. -/
def Expr.symvars : Expr → List String
  | .id symvar => [symvar]
  | .intConst _ | .boolConst _ | .input _ => []
  | .not e => e.symvars
  | .add e1 e2 | .sub e1 e2 | .or e1 e2 | .and e1 e2 | .equals e1 e2 => e1.symvars ++ e2.symvars

/-- Appends a symbolic variable that is not in the list yet. -/
def addNew (known : List String) (symvar : String) : List String :=
  if symvar ∈ known then known else known ++ [symvar]

namespace SetNode

/-- Every condition on the path to the node is true. -/
def holds (rho : Valuation) : SetNode → Bool
  | .inode _ _ p _ => p.holds rho
  | .dnode c p _ => p.holds rho && decide (evalSym rho c = some (.bool true))
  | .entryNode => true

/-- The assignments that the path to the node records, the first one first. -/
def assignments (rho : Valuation) : SetNode → List (Expr × Option Value)
  | .inode v e p _ => p.assignments rho ++ [(v, evalSym rho e)]
  | .dnode _ p _ => p.assignments rho
  | .entryNode => []

/-- The symbolic variables on the path to the node, in the order in which the path made
them: an `Input` has its variable in the node whose expression it stands in. -/
def symvars : SetNode → List String
  | .inode _ e p _ => e.symvars.foldl addNew p.symvars
  | .dnode c p _ => c.symvars.foldl addNew p.symvars
  | .entryNode => []

end SetNode

/-- The values of the variables at the node. -/
def SetNode.store (rho : Valuation) (n : SetNode) : Store :=
  fun x => (n.getVarValue (.id x)).bind (evalSym rho)

/-- The first inputs are the values of the symbolic variables in the list. -/
def Inputs.Follows (inputs : Inputs) (rho : Valuation) (symvars : List String) : Prop :=
  ∀ k symvar, symvars[k]? = some symvar → inputs.get k (rho symvar).typ = rho symvar

end Stabl.SimSee
