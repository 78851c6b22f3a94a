import Mathlib.Data.List.Basic

/-!
# `Stabl.SimSee.Syntax`: the imperative language of `sim-see`

The modules `Syntax`, `Env` and the typechecker of `Interpreter`, in
`sim-see/imperative`. The language has declarations, assignments, ifs and blocks; `Input`
is an expression, and there are no loops. An `int` of OCaml has 63 bits.
-/

set_option autoImplicit false

namespace Stabl.SimSee

/-- `Expression.typ`. -/
inductive Typ where
  | boolean
  | integer
deriving DecidableEq, Repr

/-- `Expression.expr`. -/
inductive Expr where
  | id (vname : String)
  | intConst (n : BitVec 63)
  | add (e1 e2 : Expr)
  | sub (e1 e2 : Expr)
  | boolConst (b : Bool)
  | not (e : Expr)
  | or (e1 e2 : Expr)
  | and (e1 e2 : Expr)
  | equals (e1 e2 : Expr)
  | input (t : Typ)
deriving DecidableEq, Repr

/-- `Expression.ty_init`. -/
def tyInit : Typ → Expr
  | .boolean => .boolConst false
  | .integer => .intConst 0

/-- `Program.stmt`. -/
inductive Stmt where
  | assignment (vname : String) (e : Expr)
  | ifStmt (b : Expr) (s1 s2 : Stmt)
  | block (stmts : List Stmt)

/-- `Program.program`. -/
structure Program where
  decls : List (String × Typ)
  statement : Stmt

/-- The exceptions of the typechecker, without their messages. -/
inductive SimSeeException where
  | typeError
  | notFound
deriving DecidableEq, Repr

/-! ### The typechecker -/

/-- `Env.env`, for the types of variables: the latest binding first. -/
abbrev Env := List (String × Typ)

/-- `Env.apply`. -/
def Env.apply (x : String) : Env → Except SimSeeException Typ
  | [] => .error .notFound
  | (key, value) :: env => if x = key then .ok value else Env.apply x env

/-- `typecheck_declarations`. -/
def typecheckDeclarations (decs : List (String × Typ)) : Env :=
  decs.foldl (fun env dec => dec :: env) []

/-- `typecheck_expr`. -/
def typecheckExpr (env : Env) : Expr → Except SimSeeException Typ
  | .id vname => env.apply vname
  | .intConst _ => .ok .integer
  | .boolConst _ => .ok .boolean
  | .add e1 e2 | .sub e1 e2 => do
    let t1 ← typecheckExpr env e1
    let t2 ← typecheckExpr env e2
    if t1 = .integer ∧ t2 = .integer then .ok .integer else .error .typeError
  | .not e => do
    let t ← typecheckExpr env e
    if t = .boolean then .ok .boolean else .error .typeError
  | .or e1 e2 | .and e1 e2 | .equals e1 e2 => do
    let t1 ← typecheckExpr env e1
    let t2 ← typecheckExpr env e2
    if t1 = t2 then .ok .boolean else .error .typeError
  | .input t => .ok t

mutual

/-- `typecheck_stmt`; its result `None` is the unit here. -/
def typecheckStmt (env : Env) : Stmt → Except SimSeeException Unit
  | .assignment vname e => do
    let vtype ← env.apply vname
    let etype ← typecheckExpr env e
    if vtype = etype then .ok () else .error .typeError
  | .ifStmt b s1 s2 => do
    let btype ← typecheckExpr env b
    typecheckStmt env s1
    typecheckStmt env s2
    if btype = .boolean then .ok () else .error .typeError
  | .block stmts => typecheckStmtblock env stmts

/-- `typecheck_stmtblock`. -/
def typecheckStmtblock (env : Env) : List Stmt → Except SimSeeException Unit
  | [] => .ok ()
  | stmt :: tl => do
    typecheckStmt env stmt
    typecheckStmtblock env tl

end

/-- `typecheck_prog`. -/
def typecheckProg (p : Program) : Except SimSeeException Unit :=
  typecheckStmt (typecheckDeclarations p.decls) p.statement

end Stabl.SimSee
