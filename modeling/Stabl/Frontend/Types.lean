import Stabl.Ast.Syntax

/-!
# `Stabl.Frontend.Types`: types and their substitution

The classes `Type`, `BasicType`, `Struct` and `TypeVariable` of the package `ast`.

`Type.equals` compares the names of two types with `!=`, so by identity of the string
objects. Every type object is made, by `copy` and `substantiate`, from an entry of the
statechart's type table and keeps the string object of that entry. So a type carries
the index `nameRef` of its entry, and `equals` compares the indices. The three built-in
types are the entries 0, 1 and 2.

The `substantiate` of `Struct` makes a new struct without type arguments, and the
`copy` of `Struct` drops them as well; `BasicType` keeps them in both.
-/

set_option autoImplicit false

namespace Stabl

/-- Why the typechecker throws: one constructor for each `throw` of `Typechecker` and of
the methods it calls, with the names its message quotes, and one for each kind of
runtime exception that escapes it. -/
inductive TypecheckError where
  | nullPointer
  | indexOutOfBounds (index : Nat)
  | notEnoughArguments (typeVariable : String) (index : Nat)
  | typeVariableWithArguments (name : String)
  | functionReturnType (function : String)
  | functionArgumentType (argument function : String)
  | noField (field : String)
  | notAStruct (name : String)
  | nameNotLocated (name : Path)
  | emptyName
  | operandTypeMismatch (operator : OperatorType)
  | wrongNumberOfTypeArguments (function : String)
  | functionNotFound (function : String)
  | numberOfArguments (function : String) (expected provided : Nat)
  | argumentType (expected : String)
  | triggerNotFound (trigger : String)
  | guardNotBoolean (type : String)
  | assignmentMismatch (lhs : Path)
  | ifConditionNotBoolean
  | whileConditionNotBoolean
  | unknownStatement
  | nullLub (transition : String)
  | misplaced (transition : String)
  | destinationIsRegion (transition : String)
  | destinationIsFinal (transition : String)
  | duplicateName (name state : String)
  | regionOutsideShell (name state : String)
  | finalOutsideShell (name state : String)
  | notRegionOrFinal (name state : String)
  | noFinalState (state : String)
  | multipleFinalStates (state : String)
deriving DecidableEq, Repr

/-- A type object. The declarations of a struct are its field names and field types. -/
inductive Ty where
  | basicType (name : String) (nameRef : Nat) (typeParameterNames : List String)
      (typeArguments : List Ty)
  | struct (name : String) (nameRef : Nat) (vnames : List String) (fieldTypes : List Ty)
      (typeParameterNames : List String) (typeArguments : List Ty)
  | typeVariable (name : String) (index : Nat)

namespace Ty

/-- `Type.name`. -/
def name : Ty → String
  | .basicType name .. => name
  | .struct name .. => name
  | .typeVariable name _ => name

/-- `Type.typeArguments`. -/
def typeArguments : Ty → List Ty
  | .basicType _ _ _ args => args
  | .struct _ _ _ _ _ args => args
  | .typeVariable _ _ => []

/-- The assignment `type.typeArguments = args`. -/
def setTypeArguments (args : List Ty) : Ty → Ty
  | .basicType name ref params _ => .basicType name ref params args
  | .struct name ref vnames fields params _ => .struct name ref vnames fields params args
  | .typeVariable name index => .typeVariable name index

mutual

/-- `Type.copy`. -/
def copy : Ty → Ty
  | .basicType name ref params args => .basicType name ref params (copyList args)
  | .struct name ref vnames fields params _ =>
    .struct name ref vnames (copyList fields) params []
  | .typeVariable name index => .typeVariable name index

/-- The copies of a list of types. -/
def copyList : List Ty → List Ty
  | [] => []
  | t :: ts => t.copy :: copyList ts

end

/-- The argument that a type variable stands for. -/
def argument (typeArguments : List Ty) (index : Nat) : Except TypecheckError Ty :=
  match typeArguments[index]? with
  | some t => .ok t
  | none => .error (.indexOutOfBounds index)

mutual

/-- `Type.substantiate`: the type with its type variables replaced by the arguments. -/
def substantiate (typeArguments : List Ty) : Ty → Except TypecheckError Ty
  | .basicType name ref params args => do
    let args ← substantiateList typeArguments args
    pure (.basicType name ref params args)
  | .struct name ref vnames fields _ _ => do
    let fields ← substantiateList typeArguments fields
    pure (.struct name ref vnames fields [] [])
  | .typeVariable name index =>
    match typeArguments[index]? with
    | some t => .ok t
    | none => .error (.notEnoughArguments name index)

/-- The loops of `BasicType.substantiate` and `Struct.substantiate`. They replace a type
variable themselves, without the check that `TypeVariable.substantiate` makes. -/
def substantiateList (typeArguments : List Ty) : List Ty → Except TypecheckError (List Ty)
  | [] => pure []
  | .typeVariable _ index :: ts => do
    let t ← argument typeArguments index
    let ts ← substantiateList typeArguments ts
    pure (t :: ts)
  | t :: ts => do
    let t ← t.substantiate typeArguments
    let ts ← substantiateList typeArguments ts
    pure (t :: ts)

end

/-- `othertype.name != this.name` fails: both names are one string object. The names of
type variables are compared by their letters; the typechecker never compares two type
variables, since it compares types only after substantiating them. -/
def sameName : Ty → Ty → Bool
  | .basicType _ ref .., .basicType _ ref' .. => ref = ref'
  | .basicType _ ref .., .struct _ ref' .. => ref = ref'
  | .struct _ ref .., .basicType _ ref' .. => ref = ref'
  | .struct _ ref .., .struct _ ref' .. => ref = ref'
  | .typeVariable name _, .typeVariable name' _ => name = name'
  | _, _ => false

mutual

/-- `Type.equals`: one name object and equal type arguments. -/
def equals : Ty → Ty → Bool
  | .basicType name ref params args, t =>
    sameName (.basicType name ref params args) t && equalsList args t.typeArguments
  | .struct name ref vnames fields params args, t =>
    sameName (.struct name ref vnames fields params args) t && equalsList args t.typeArguments
  | .typeVariable name index, t =>
    sameName (.typeVariable name index) t && t.typeArguments.isEmpty

/-- Two lists of types have one length and are equal element by element. -/
def equalsList : List Ty → List Ty → Bool
  | [], [] => true
  | t :: ts, u :: us => t.equals u && equalsList ts us
  | _, _ => false

end

/-- The built-in type at an index of the type table, with its name. -/
def builtin (name : String) (ref : Nat) : Ty := .basicType name ref [] []

/-- The type that `lookupType(new TypeName("int"))` returns. -/
def int : Ty := builtin "int" 0

/-- The type that `lookupType(new TypeName("boolean"))` returns. -/
def boolean : Ty := builtin "boolean" 1

/-- The type that `lookupType(new TypeName("string"))` returns. -/
def string : Ty := builtin "string" 2

end Ty

/-- An entry of `Statechart.types`. The fields of a struct get their types one after the
other, so `fieldTypes` holds the types of the first fields; the others are `null`. -/
inductive TypeEntry where
  | basicType (name : String) (typeParameterNames : List String)
  | struct (name : String) (declarations : List Declaration) (typeParameterNames : List String)
      (fieldTypes : List Ty)

namespace TypeEntry

def name : TypeEntry → String
  | .basicType name _ => name
  | .struct name .. => name

def typeParameterNames : TypeEntry → List String
  | .basicType _ params => params
  | .struct _ _ params _ => params

/-- `Type.copy` of the entry at the index `ref`. It throws where a field of a struct has
no type yet. -/
def copy (ref : Nat) : TypeEntry → Except TypecheckError Ty
  | .basicType name params => .ok (.basicType name ref params [])
  | .struct name decs params fieldTypes =>
    if fieldTypes.length = decs.length then
      .ok (.struct name ref (decs.map Declaration.vname) (Ty.copyList fieldTypes) params [])
    else
      .error .nullPointer

/-- `d.setType(type)` for the next field of a struct. -/
def addFieldType (type : Ty) : TypeEntry → TypeEntry
  | .struct name decs params fieldTypes => .struct name decs params (fieldTypes ++ [type])
  | e => e

/-- The entry that the parser's object becomes. -/
def ofTypeDeclaration : TypeDeclaration → TypeEntry
  | .basicType name params => .basicType name params
  | .struct name decs params => .struct name decs.toList params []

end TypeEntry

/-- The type table after the constructor of `Statechart`: the built-in types, then the
declared ones. `addType` refuses a type only when it equals an entry, and no two string
objects of the parser are one. -/
def typeTable (moreTypes : List TypeDeclaration) : List TypeEntry :=
  [.basicType "int" [], .basicType "boolean" [], .basicType "string" []] ++
    moreTypes.map TypeEntry.ofTypeDeclaration

end Stabl
