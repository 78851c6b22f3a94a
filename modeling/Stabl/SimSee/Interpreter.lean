import Stabl.SimSee.Syntax

/-!
# `Stabl.SimSee.Interpreter`: the symbolic executor of `sim-see`

The module `Interpreter.SE`. A node of the execution tree holds its parent, so it is the
path from the root to it. The executor returns two lists of nodes, those where the depth
limit has cut a path (`done`), and the leaves.

`new_symvar_name` counts the symbolic variables of the process. The counter is passed
along; here it is the list of the types of the `Input`s that were given a variable so
far, and `var_count` is its length. The types are there for the theorems only. A result
`none` is the exception `Not_found` of `get_var_value`. OCaml evaluates the bindings of
`let .. and ..` from left to right.
-/

set_option autoImplicit false

namespace Stabl.SimSee

/-- `SE.setnode`. -/
inductive SetNode where
  | inode (var value : Expr) (parent : SetNode) (depth : Int)
  | dnode (condition : Expr) (parent : SetNode) (depth : Int)
  | entryNode
deriving DecidableEq

namespace SetNode

/-- `SE.path`. -/
def path : SetNode → List SetNode
  | .inode v e p d => .inode v e p d :: p.path
  | .dnode c p d => .dnode c p d :: p.path
  | .entryNode => [.entryNode]

/-- `SE.depth`. -/
def depth : SetNode → Int
  | .inode _ _ _ d => d
  | .dnode _ _ d => d
  | .entryNode => 0

/-- `SE.get_root`. -/
def getRoot : SetNode → SetNode
  | .inode _ _ p _ => p.getRoot
  | .dnode _ p _ => p.getRoot
  | .entryNode => .entryNode

/-- `SE.get_var_value`. -/
def getVarValue (v : Expr) : SetNode → Option Expr
  | .inode v' e p _ => if v = v' then some e else getVarValue v p
  | .dnode _ p _ => getVarValue v p
  | .entryNode => none

end SetNode

/-- The symbolic variables made so far, by their types. -/
abbrev SymVars := List Typ

/-- The name that `new_symvar_name` returns when it sets `var_count` to `n`. -/
def symvarName (n : Nat) : String := "X" ++ toString n

/-- `SE.se_expr`. -/
def seExpr (leaf : SetNode) : Expr → SymVars → Option (Expr × SymVars)
  | .id vname, vars => do
    let value ← leaf.getVarValue (.id vname)
    pure (value, vars)
  | .intConst n, vars => some (.intConst n, vars)
  | .boolConst b, vars => some (.boolConst b, vars)
  | .add e1 e2, vars => do
    let (sv1, vars) ← seExpr leaf e1 vars
    let (sv2, vars) ← seExpr leaf e2 vars
    pure (.add sv1 sv2, vars)
  | .sub e1 e2, vars => do
    let (sv1, vars) ← seExpr leaf e1 vars
    let (sv2, vars) ← seExpr leaf e2 vars
    pure (.sub sv1 sv2, vars)
  | .not e, vars => do
    let (sv, vars) ← seExpr leaf e vars
    pure (.not sv, vars)
  | .or e1 e2, vars => do
    let (sv1, vars) ← seExpr leaf e1 vars
    let (sv2, vars) ← seExpr leaf e2 vars
    pure (.or sv1 sv2, vars)
  | .and e1 e2, vars => do
    let (sv1, vars) ← seExpr leaf e1 vars
    let (sv2, vars) ← seExpr leaf e2 vars
    pure (.and sv1 sv2, vars)
  | .equals e1 e2, vars => do
    let (sv1, vars) ← seExpr leaf e1 vars
    let (sv2, vars) ← seExpr leaf e2 vars
    pure (.equals sv1 sv2, vars)
  | .input t, vars => some (.id (symvarName (vars.length + 1)), vars ++ [t])

/-- The nodes where a path was cut, and the leaves. -/
abbrev DoneLeaves := List SetNode × List SetNode

/-- A step that extends one leaf. -/
abbrev LeafStep := SetNode → SymVars → Option (DoneLeaves × SymVars)

/-- The loop of `se_decl_all` and `se_stmt_all`: the step is made at every leaf, and the
results are put in front of those so far. -/
def seAllLoop (step : LeafStep) (done leaves' : List SetNode) :
    (leaves : List SetNode) → SymVars → Option (DoneLeaves × SymVars)
  | [], vars => some ((done, leaves'), vars)
  | l :: ls, vars => do
    let ((d, l'), vars) ← step l vars
    seAllLoop step (d ++ done) (l' ++ leaves') ls vars

/-- `SE.se_decl`. -/
def seDecl (maxdepth : Int) (decl : String × Typ) (leaf : SetNode) : DoneLeaves :=
  let depth' := leaf.depth + 1
  let leaf' : SetNode := .inode (.id decl.1) (tyInit decl.2) leaf depth'
  -- The limit is met exactly here, and exceeded or met at an assignment.
  if depth' = maxdepth then ([leaf'], []) else ([], [leaf'])

/-- The loop of `se_decls`, with `se_decl_all` in it. -/
def seDeclsLoop (maxdepth : Int) : (decls : List (String × Typ)) → (done leaves : List SetNode) →
    SymVars → Option (DoneLeaves × SymVars)
  | [], done, leaves, vars => some ((done, leaves), vars)
  | decl :: decls, done, leaves, vars => do
    let ((d, l), vars) ←
      seAllLoop (fun leaf vars => some (seDecl maxdepth decl leaf, vars)) [] [] leaves vars
    seDeclsLoop maxdepth decls (d ++ done) l vars

/-- `SE.se_decls`. -/
def seDecls (maxdepth : Int) (decls : List (String × Typ)) : LeafStep :=
  fun leaf vars => seDeclsLoop maxdepth decls [] [leaf] vars

/-- The assignment in `SE.se_stmt`. -/
def seAssignment (maxdepth : Int) (vname : String) (e : Expr) : LeafStep :=
  fun leaf vars => do
    let (se, vars) ← seExpr leaf e vars
    let d := leaf.depth + 1
    let leaf' : SetNode := .inode (.id vname) se leaf d
    if d ≥ maxdepth then pure (([leaf'], []), vars) else pure (([], [leaf']), vars)

mutual

/-- `SE.se_stmt`. -/
def seStmt (maxdepth : Int) : Stmt → LeafStep
  | .assignment vname e, leaf, vars => seAssignment maxdepth vname e leaf vars
  | .ifStmt b s1 s2, leaf, vars => do
    let (sb, vars) ← seExpr leaf b vars
    let d := leaf.depth + 1
    let ((tdone, tleaves), vars) ← seStmt maxdepth s1 (.dnode sb leaf d) vars
    let ((fdone, fleaves), vars) ← seStmt maxdepth s2 (.dnode (.not sb) leaf d) vars
    pure ((tdone ++ fdone, tleaves ++ fleaves), vars)
  | .block stmts, leaf, vars => seStmtblockLoop maxdepth stmts [] [leaf] vars

/-- The loop of `SE.se_stmtblock`, with `se_stmt_all` in it. -/
def seStmtblockLoop (maxdepth : Int) : List Stmt → (done leaves : List SetNode) → SymVars →
    Option (DoneLeaves × SymVars)
  | [], done, leaves, vars => some ((done, leaves), vars)
  | stmt :: stmts, done, leaves, vars => do
    let ((d, l), vars) ← seAllLoop (seStmt maxdepth stmt) [] [] leaves vars
    seStmtblockLoop maxdepth stmts (d ++ done) l vars

end

/-- `SE.se_stmt_all`. -/
def seStmtAll (maxdepth : Int) (stmt : Stmt) (leaves : List SetNode) (vars : SymVars) :
    Option (DoneLeaves × SymVars) :=
  seAllLoop (seStmt maxdepth stmt) [] [] leaves vars

/-- `SE.se_stmtblock`. -/
def seStmtblock (maxdepth : Int) (stmts : List Stmt) : LeafStep :=
  fun leaf vars => seStmtblockLoop maxdepth stmts [] [leaf] vars

/-- `SE.se_prog`. -/
def seProg (p : Program) (maxdepth : Int) (vars : SymVars) :
    Option (DoneLeaves × SymVars) := do
  let ((ds, ls), vars) ← seDeclsLoop maxdepth p.decls [] [.entryNode] vars
  let ((ds', ls'), vars) ← seAllLoop (seStmt maxdepth p.statement) [] [] ls vars
  pure ((ds ++ ds', ls'), vars)

end Stabl.SimSee
