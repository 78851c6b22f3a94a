import Mathlib.Data.List.Nodup

/-!
# `Stabl.Ast.Syntax`: the abstract syntax of the statechart language

The classes of the package `ast` that the parser builds and that the typechecker,
the simulator and the symbolic execution engine read.

Three Java notions of object identity have to be made explicit.

* A `State` object is identified by its position in the tree: a `StateRef` is the list
  of child indices that leads to it, innermost index first. So the superstate of
  `i :: p` is `p`, and the statechart itself is `[]`.
* A `Declaration` object of a state is identified by its state and its variable name
  (`DeclarationRef`). A `DeclarationList` never holds two declarations of one name:
  `DeclarationList.add` refuses the second, and the structure carries this as a field.
* A `Name` is a list of identifiers until the typechecker binds it to a declaration.
  The syntax is generic in the type `ν` of names: the parser builds it over `Path`, and
  the typechecker returns it over `Name`, whose `declaration` is set. So code with an
  unbound name cannot be given to the simulator.

The numbers of the language are Java's `int`, so `Int32`.
-/

set_option autoImplicit false

namespace Stabl

/-- A state, by its position in the tree: child indices, innermost first. -/
abbrev StateRef := List Nat

/-- The variable `vname` declared in the state `state`. -/
structure DeclarationRef where
  state : StateRef
  vname : String
deriving DecidableEq, Repr

/-- The scope of a declared variable; the grammar admits these three words. -/
inductive ScopeName where
  | localScope
  | staticScope
  | parameterScope
deriving DecidableEq, Repr

/-- A type expression `name<|arg1, .., argn|>` as written in a declaration. -/
inductive TypeName where
  | mk (name : String) (typeArgumentNames : List TypeName)

/-- The head of a type expression. -/
def TypeName.name : TypeName → String
  | .mk name _ => name

/-- The arguments of a type expression. -/
def TypeName.typeArgumentNames : TypeName → List TypeName
  | .mk _ args => args

/-- A declared variable: of a state, of a struct or of a function's parameter list. -/
structure Declaration where
  vname : String
  scope : ScopeName
  typeName : TypeName
  input : Bool

/-- `DeclarationList`: an array of declarations with pairwise distinct names. -/
structure DeclarationList where
  toList : List Declaration
  nodup : (toList.map Declaration.vname).Nodup

namespace DeclarationList

/-- The empty declaration list. -/
def empty : DeclarationList := ⟨[], List.nodup_nil⟩

/-- `DeclarationList.add`: `none` is the answer `false`, given when the name is taken. -/
def add (l : DeclarationList) (dec : Declaration) : Option DeclarationList :=
  if h : dec.vname ∈ l.toList.map Declaration.vname then
    none
  else
    some ⟨l.toList ++ [dec], by
      rw [List.map_append, List.map_singleton]
      exact l.nodup.append (List.nodup_singleton _) (by simpa using h)⟩

/-- `DeclarationList.lookup`: the declaration of the given name. -/
def lookup (l : DeclarationList) (name : String) : Option Declaration :=
  l.toList.find? (fun d => d.vname = name)

end DeclarationList

/-- `BinaryExpression.OperatorType`: the operators the grammar's `binop` can produce. -/
inductive OperatorType where
  | plus | mul | sub | div
  | ge | gt | le | lt | ne | eq
  | and | or
deriving DecidableEq, Repr

/-- The constant expressions: `BooleanConstant`, `IntegerConstant`, `StringLiteral`. -/
inductive Constant where
  | booleanConstant (value : Bool)
  | integerConstant (value : Int32)
  | stringLiteral (value : String)
deriving DecidableEq, Repr

/-- The name of a called function, with its type arguments. -/
structure FunctionName where
  name : String
  typeArgumentNames : List TypeName

/-- A name as the parser builds it: its identifiers, separated by dots in the text. -/
abbrev Path := List String

/-- A name after typechecking: `Name.declaration` is the variable it denotes. -/
structure Name where
  name : Path
  declaration : DeclarationRef
deriving DecidableEq, Repr

/-- Expressions of the action language, over names `ν`. -/
inductive Expression (ν : Type) where
  | name (n : ν)
  | constant (c : Constant)
  | binaryExpression (left right : Expression ν) (operator : OperatorType)
  | functionCall (name : FunctionName) (argumentList : List (Expression ν))

/-- Induction over an expression that stops at function calls: no evaluator looks at the
arguments of a call. -/
theorem Expression.operandInduction {ν : Type} {motive : Expression ν → Prop}
    (name : ∀ n, motive (.name n)) (constant : ∀ c, motive (.constant c))
    (binaryExpression : ∀ left right operator, motive left → motive right →
      motive (.binaryExpression left right operator))
    (functionCall : ∀ f args, motive (.functionCall f args)) : ∀ e, motive e
  | .name n => name n
  | .constant c => constant c
  | .binaryExpression left right operator => binaryExpression left right operator
      (operandInduction name constant binaryExpression functionCall left)
      (operandInduction name constant binaryExpression functionCall right)
  | .functionCall f args => functionCall f args

/-- Statements of the action language, over names `ν`. `haltStatement` and
`skipStatement` have no production in the grammar. -/
inductive Statement (ν : Type) where
  | statementList (statements : List (Statement ν))
  | assignmentStatement (lhs : ν) (rhs : Expression ν)
  | ifStatement (condition : Expression ν) (thenBody elseBody : Statement ν)
  | whileStatement (condition : Expression ν) (body : Statement ν)
  | expressionStatement (expression : Expression ν)
  | haltStatement
  | skipStatement

/-- A transition. `source` and `destination` are the states that
`setSourceDestinationStates` finds under `sourceName` and `destinationName`. -/
structure Transition (ν : Type) where
  name : String
  sourceName : Path
  destinationName : Path
  trigger : String
  guard : Expression ν
  action : Statement ν
  source : StateRef
  destination : StateRef

/-- A state with everything below it. The statechart itself is the state at the root. -/
structure State (ν : Type) where
  name : String
  declarations : DeclarationList
  entry : Statement ν
  exit : Statement ν
  states : List (State ν)
  transitions : List (Transition ν)
  history : Bool
  region : Bool
  shell : Bool
  fin : Bool

/-- A function declaration of the statechart's `functions` section. -/
structure FunctionDeclaration where
  name : String
  typeParameterNames : List String
  returnTypeName : TypeName
  parameterList : DeclarationList

/-- A type declaration of the statechart's `types` section: a basic type or a struct. -/
inductive TypeDeclaration where
  | basicType (name : String) (typeParameterNames : List String)
  | struct (name : String) (declarations : DeclarationList) (typeParameterNames : List String)

end Stabl
