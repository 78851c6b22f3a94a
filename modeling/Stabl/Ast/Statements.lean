import Stabl.Ast.Syntax
import Stabl.Lib.Shape

/-!
# `Stabl.Ast.Statements`: the first and the last statements of a tree

The methods `getFirstStatement` and `getLastStatements` of the statement classes. They return
statement objects of the tree. The grammar builds a new object for each statement, so an object is
given here by its position: the child indices on the way to it, innermost index first, as for the
states. The children of an if are its branches, the then-branch first.

`written` says which trees the grammar builds: it has no production for `halt` and `skip`.
-/

set_option autoImplicit false

namespace Stabl

open TreeAddress

variable {ν : Type}

/-- A statement object, by its position in the tree. -/
abbrev StatementRef := List Nat

namespace Statement

/-- The statements that a statement consists of. -/
def children : Statement ν → List (Statement ν)
  | .statementList statements => statements
  | .ifStatement _ thenBody elseBody => [thenBody, elseBody]
  | .whileStatement _ body => [body]
  | .assignmentStatement _ _ | .expressionStatement _ | .haltStatement | .skipStatement => []

/-- The statement at a position of the tree. -/
def statementAt (root : Statement ν) : StatementRef → Option (Statement ν) := nodeAt children root

/-- The statement is an object of `StatementList`. -/
def isList : Statement ν → Bool
  | .statementList _ => true
  | _ => false

end Statement

mutual

/-- The tree is one that the productions of `statement` build. -/
def Statement.written : Statement ν → Bool
  | .statementList statements => statementsWritten statements
  | .ifStatement _ thenBody elseBody => thenBody.written && elseBody.written
  | .whileStatement _ body => body.written
  | .assignmentStatement _ _ | .expressionStatement _ => true
  | .haltStatement | .skipStatement => false

/-- The productions of `statement_list`. -/
def statementsWritten : List (Statement ν) → Bool
  | [] => true
  | s :: ss => s.written && statementsWritten ss

end

/-- `getFirstStatement` of the statement at `p`; `none` is `null`. -/
def Statement.getFirstStatement (p : StatementRef) : Statement ν → Option StatementRef
  | .statementList [] => none
  | .statementList (s :: _) => s.getFirstStatement (0 :: p)
  | .ifStatement _ _ _ => some p
  | .whileStatement _ _ => some p
  -- `InstructionStatement.getFirstStatement`
  | .assignmentStatement _ _ | .expressionStatement _ | .haltStatement | .skipStatement => some p

mutual

/-- `getLastStatements` of the statement at `p`. -/
def Statement.getLastStatements (p : StatementRef) : Statement ν → List StatementRef
  | .statementList statements => lastStatementsOf p 0 statements
  | .ifStatement _ thenBody elseBody =>
    thenBody.getLastStatements (0 :: p) ++ elseBody.getLastStatements (1 :: p)
  | .whileStatement _ _ => [p]
  -- `InstructionStatement.getLastStatements`
  | .assignmentStatement _ _ | .expressionStatement _ | .haltStatement | .skipStatement => [p]

/-- The last statements of the last element of a list, where the elements from the `i`-th one on
are given. -/
def lastStatementsOf (p : StatementRef) (i : Nat) : List (Statement ν) → List StatementRef
  | [] => []
  | [s] => s.getLastStatements (i :: p)
  | _ :: s :: ss => lastStatementsOf p (i + 1) (s :: ss)

end

end Stabl
