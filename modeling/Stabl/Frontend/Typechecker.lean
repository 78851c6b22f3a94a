import Stabl.Ast.Environment
import Stabl.Frontend.Types
import Stabl.Lib.Result

/-!
# `Stabl.Frontend.Typechecker`: the typechecker

The class `frontend.Typechecker`, method by method. Its four passes are `typecheck`'s:
the type declarations, the variable declarations, the function declarations, and the
states with their code.

Where a method sets a field of an object, the function here returns the object with the
field set. So `typecheckName` returns the bound `Name`, the checks of expressions and
statements return the same tree over bound names, and `typecheckTypeDeclarations`
returns the filled type table. The type that the second pass stores in a variable's
declaration is a function of the finished table, and `typecheckName` computes it there
again (`typecheckDeclaration`).

An exception is an `Except.error`. The environments that `typecheckStatement` hands down
without reading them (read-write, read-only, write-only) are left out.
-/

set_option autoImplicit false

namespace Stabl

/-- A typechecking step. -/
abbrev Check (α : Type) := Except TypecheckError α

/-- Throws `e` unless `b` holds. -/
def require (b : Bool) (e : TypecheckError) : Check Unit := if b then .ok () else .error e

/-! ### Types and declarations -/

/-- `Typechecker.getKnownType`: the first entry before the index `i` with the name and
the number of type parameters of `tname`. -/
def getKnownType (types : List TypeEntry) (tname : TypeName) (i : Nat) :
    Option (Nat × TypeEntry) :=
  let known := fun (e : TypeEntry) => decide (e.name = tname.name) &&
    e.typeParameterNames.length == tname.typeArgumentNames.length
  match (types.take i).findIdx? known, (types.take i).find? known with
  | some j, some e => some (j, e)
  | _, _ => none

mutual

/-- `Typechecker.lookupType`. -/
def lookupType (types : List TypeEntry) (typeParameterNames : List String) (i : Nat) :
    TypeName → Check Ty
  | .mk name args =>
    if name ∈ typeParameterNames then
      if args.isEmpty then
        .ok (.typeVariable name (typeParameterNames.idxOf name))
      else
        .error (.typeVariableWithArguments name)
    else
      match getKnownType types (.mk name args) i with
      -- `copy()` is called before the check for `null`.
      | none => .error .nullPointer
      | some (j, e) => do
        let type ← e.copy j
        let typelist ← lookupTypes types typeParameterNames i args
        pure (type.setTypeArguments typelist)

/-- The loop of `lookupType` over the type arguments. An argument that is a type
parameter becomes a type variable, whatever its own arguments are. -/
def lookupTypes (types : List TypeEntry) (typeParameterNames : List String) (i : Nat) :
    List TypeName → Check (List Ty)
  | [] => pure []
  | .mk name args :: rest =>
    if name ∈ typeParameterNames then do
      let rest ← lookupTypes types typeParameterNames i rest
      pure (.typeVariable name (typeParameterNames.idxOf name) :: rest)
    else do
      let ty ← lookupType types typeParameterNames i (.mk name args)
      let rest ← lookupTypes types typeParameterNames i rest
      pure (ty :: rest)

end

/-- The overload of `lookupType` without type parameters. -/
def lookupGroundType (types : List TypeEntry) (typeName : TypeName) : Check Ty :=
  lookupType types [] types.length typeName

/-- `Typechecker.typecheckDeclaration`: the type it stores in the declaration. The source
passes the index of a type declaration as well, and does not use it. -/
def typecheckDeclaration (types : List TypeEntry) (typeParameterNames : List String)
    (d : Declaration) : Check Ty := do
  let type ← lookupType types typeParameterNames types.length d.typeName
  if type.typeArguments.isEmpty then pure type else type.substantiate type.typeArguments

/-- `Typechecker.typecheckStruct` on the struct at the index `i`: the fields get their
types one by one, in the table that the next field is looked up in. -/
def typecheckStruct (types : List TypeEntry) (i : Nat) (typeParameterNames : List String) :
    List Declaration → Check (List TypeEntry)
  | [] => pure types
  | d :: ds => do
    let type ← typecheckDeclaration types typeParameterNames d
    typecheckStruct (types.modify i (TypeEntry.addFieldType type)) i typeParameterNames ds

/-- `Typechecker.typecheckTypeDeclarations` from the index `i` on, `n` entries. -/
def typecheckTypeDeclarations (types : List TypeEntry) (i : Nat) :
    (n : Nat) → Check (List TypeEntry)
  | 0 => pure types
  | n + 1 => do
    let types ← match types[i]? with
      | some (.struct _ decs params _) => typecheckStruct types i params decs
      | _ => pure types
    typecheckTypeDeclarations types (i + 1) n

mutual

/-- `Typechecker.typecheckVariableDeclarations`. -/
def typecheckVariableDeclarations {ν : Type} (types : List TypeEntry) : State ν → Check Unit
  | ⟨_, decs, _, _, states, _, _, _, _, _⟩ => do
    decs.toList.forM fun d => do
      let _ ← typecheckDeclaration types [] d
      pure ()
    typecheckVariableDeclarationsList types states

/-- The loop of `typecheckVariableDeclarations` over the substates. -/
def typecheckVariableDeclarationsList {ν : Type} (types : List TypeEntry) :
    List (State ν) → Check Unit
  | [] => pure ()
  | s :: ss => do
    typecheckVariableDeclarations types s
    typecheckVariableDeclarationsList types ss

end

/-- A function declaration whose types are set. -/
structure TypedFunction where
  name : String
  typeParameterNames : List String
  returnType : Ty
  parameterTypes : List Ty

/-- The body of the loop of `Typechecker.typecheckFunctionDeclarations`. -/
def typecheckFunctionDeclaration (types : List TypeEntry) (fdec : FunctionDeclaration) :
    Check TypedFunction := do
  let returnType ←
    match lookupType types fdec.typeParameterNames types.length fdec.returnTypeName with
    | .ok type => pure type
    | .error _ => .error (.functionReturnType fdec.name)
  let parameterTypes ← fdec.parameterList.toList.mapM fun dec =>
    match typecheckDeclaration types fdec.typeParameterNames dec with
    | .ok type => (pure type : Check Ty)
    | .error _ => .error (.functionArgumentType dec.vname fdec.name)
  pure ⟨fdec.name, fdec.typeParameterNames, returnType, parameterTypes⟩

/-- What the passes over declarations leave for the pass over the code. -/
structure Declared where
  root : State Path
  types : List TypeEntry
  events : List String
  functions : List TypedFunction

namespace Declared

variable (sc : Declared)

/-! ### Names -/

/-- `Typechecker.getDeclarationInState`. The first name is that of the state `s` itself.
With the declaration it returns the names from the variable's on, which is where the
iterator stands. -/
def getDeclarationInState (p : StateRef) (s : State Path) :
    Path → Option ((DeclarationRef × Declaration) × Path)
  | [] => none
  | [_] => none
  | _ :: next :: rest =>
    match s.findSubstateByName next with
    | some i =>
      match s.states[i]? with
      | some st => getDeclarationInState (i :: p) st (next :: rest)
      | none => none
    | none => (s.declarations.lookup next).map fun d => ((⟨p, d.vname⟩, d), next :: rest)

/-- `Typechecker.getTypeOfName`: the type of the field path after the first name. -/
def getTypeOfName : Path → Ty → Check Ty
  | [], _ => .error .nullPointer
  | [_], type => pure type
  | single :: next :: rest, type =>
    match type with
    | .struct _ _ vnames fieldTypes _ _ =>
      match fieldTypes[vnames.idxOf next]? with
      | some fieldType => getTypeOfName (next :: rest) fieldType
      | none => .error (.noField next)
    | _ => .error (.notAStruct single)

/-- The first half of `Typechecker.typecheckName`: the declaration of a name, with the
names that are left from the variable's on. A name that begins with the statechart's name
is taken to be fully qualified. -/
def locateName (name : Path) (env : Environment) :
    Option ((DeclarationRef × Declaration) × Path) :=
  match name with
  | [] => none
  | first :: _ =>
    if first = sc.root.name then
      getDeclarationInState [] sc.root name
    else
      (env.lookup first).map fun dec => (dec, name)

/-- `Typechecker.typecheckName`: the bound name and its type. -/
def typecheckName (name : Path) (env : Environment) : Check (Name × Ty) :=
  if name.isEmpty then .error .emptyName
  else
    match sc.locateName name env with
    | none => .error (.nameNotLocated name)
    | some ((ref, dec), rest) => do
      let decType ← typecheckDeclaration sc.types [] dec
      let type ← getTypeOfName rest decType
      pure (⟨name, ref⟩, type)

/-! ### Expressions -/

/-- `typecheckBooleanConstant`, `typecheckIntegerConstant`, `typecheckStringLiteral`. -/
def typecheckConstant : Constant → Check Ty
  | .booleanConstant _ => lookupGroundType sc.types (.mk "boolean" [])
  | .integerConstant _ => lookupGroundType sc.types (.mk "int" [])
  | .stringLiteral _ => lookupGroundType sc.types (.mk "string" [])

/-- `Typechecker.typecheckBinaryExpression`, once the operands have their types. -/
def typecheckOperator (operator : OperatorType) (left right : Ty) : Check Ty :=
  match operator with
  | .plus | .mul | .sub | .div => do
    let type ← lookupGroundType sc.types (.mk "int" [])
    require (left.equals type && right.equals type) (.operandTypeMismatch operator)
    pure type
  | .ge | .gt | .le | .lt | .ne | .eq => do
    require (left.equals right) (.operandTypeMismatch operator)
    lookupGroundType sc.types (.mk "boolean" [])
  | .and | .or => do
    let type ← lookupGroundType sc.types (.mk "boolean" [])
    require (left.equals type && right.equals type) (.operandTypeMismatch operator)
    pure type

/-- `Typechecker.lookupFunctionName`: the function declaration found by
`getKnownFunction`, with its types copied, and the types of the type arguments. -/
def lookupFunctionName (fName : FunctionName) : Check (TypedFunction × List Ty) := do
  let func ← match sc.functions.find? (fun f => f.name = fName.name) with
    | none => .error (.functionNotFound fName.name)
    | some f =>
      if f.typeParameterNames.length = fName.typeArgumentNames.length then
        pure f
      else
        .error (.wrongNumberOfTypeArguments fName.name)
  let typeArguments ← fName.typeArgumentNames.mapM (lookupGroundType sc.types)
  pure ({ func with
    returnType := func.returnType.copy
    parameterTypes := Ty.copyList func.parameterTypes }, typeArguments)

/-- The substantiation part of `Typechecker.typecheckFunctionCall`: the parameter types
of `funcCall.function` and the return type. -/
def substantiateFunction (fdec : TypedFunction) (typeArguments : List Ty) :
    Check (List Ty × Ty) :=
  if typeArguments.isEmpty then
    pure (fdec.parameterTypes, fdec.returnType)
  else do
    let parameterTypes ← Ty.substantiateList typeArguments fdec.parameterTypes
    let returnType ← fdec.returnType.substantiate typeArguments
    pure (parameterTypes, returnType)

mutual

/-- `Typechecker.typecheckExpression`: the expression over bound names, and its type. -/
def typecheckExpression (env : Environment) : Expression Path → Check (Expression Name × Ty)
  | .name n => do
    let (n, type) ← sc.typecheckName n env
    pure (.name n, type)
  | .constant c => do
    let type ← sc.typecheckConstant c
    pure (.constant c, type)
  | .binaryExpression left right operator => do
    let (left, leftType) ← typecheckExpression env left
    let (right, rightType) ← typecheckExpression env right
    let type ← sc.typecheckOperator operator leftType rightType
    pure (.binaryExpression left right operator, type)
  | .functionCall name argumentList => do
    let (fdec, typeArguments) ← sc.lookupFunctionName name
    require (fdec.parameterTypes.length == argumentList.length)
      (.numberOfArguments name.name fdec.parameterTypes.length argumentList.length)
    let (parameterTypes, returnType) ← substantiateFunction fdec typeArguments
    let argumentList ← typecheckArguments env typeArguments parameterTypes argumentList
    pure (.functionCall name argumentList, returnType)

/-- The loop of `typecheckFunctionCall` over the arguments. The parameter type is
substantiated once more for each of them. -/
def typecheckArguments (env : Environment) (typeArguments : List Ty) :
    List Ty → List (Expression Path) → Check (List (Expression Name))
  | param :: params, arg :: args => do
    let (arg, targ) ← typecheckExpression env arg
    let paramtype ← param.substantiate typeArguments
    require (paramtype.equals targ) (.argumentType paramtype.name)
    let args ← typecheckArguments env typeArguments params args
    pure (arg :: args)
  | _, _ => pure []

end

/-! ### Statements -/

mutual

/-- `Typechecker.typecheckStatement`, with the read and the write environment. -/
def typecheckStatement (renv wenv : Environment) : Statement Path → Check (Statement Name)
  | .assignmentStatement lhs rhs => do
    let (lhs, lhsType) ← sc.typecheckName lhs wenv
    let (rhs, rhsType) ← sc.typecheckExpression renv rhs
    require (lhsType.equals rhsType) (.assignmentMismatch lhs.name)
    pure (.assignmentStatement lhs rhs)
  | .statementList statements => do
    let statements ← typecheckStatementList renv wenv statements
    pure (.statementList statements)
  | .ifStatement condition thenBody elseBody => do
    let (condition, type) ← sc.typecheckExpression renv condition
    let thenBody ← typecheckStatement renv wenv thenBody
    let elseBody ← typecheckStatement renv wenv elseBody
    require (type.name = "boolean") .ifConditionNotBoolean
    pure (.ifStatement condition thenBody elseBody)
  | .whileStatement condition body => do
    let (condition, type) ← sc.typecheckExpression renv condition
    let body ← typecheckStatement renv wenv body
    require (type.name = "boolean") .whileConditionNotBoolean
    pure (.whileStatement condition body)
  | .expressionStatement expression => do
    let (expression, _) ← sc.typecheckExpression renv expression
    pure (.expressionStatement expression)
  -- No branch is for these two, so they end in the last `else`.
  | .haltStatement => .error .unknownStatement
  | .skipStatement => .error .unknownStatement

/-- `Typechecker.typecheckStatementList`. -/
def typecheckStatementList (renv wenv : Environment) :
    List (Statement Path) → Check (List (Statement Name))
  | [] => pure []
  | st :: sts => do
    let st ← typecheckStatement renv wenv st
    let sts ← typecheckStatementList renv wenv sts
    pure (st :: sts)

end

/-! ### Transitions and states -/

/-- `Typechecker.typecheckGuard`. The type's name is compared with the literal by
identity, so the type has to be the built-in one. -/
def typecheckGuard (env : Environment) (guard : Expression Path) : Check (Expression Name) := do
  let (guard, type) ← sc.typecheckExpression env guard
  require (type.sameName Ty.boolean) (.guardNotBoolean type.name)
  pure guard

/-- The mark of the state at a position; the tree has all positions that are asked for. -/
def markAt (mark : State Path → Bool) (p : StateRef) : Bool :=
  match sc.root.stateAt p with
  | some s => mark s
  | none => false

/-- `Typechecker.typecheckTransition`, for a transition placed in the state `p`. -/
def typecheckTransition (p : StateRef) (t : Transition Path) : Check (Transition Name) := do
  let placed : PlacedTransition Path := ⟨p, t⟩
  match lub t.source t.destination with
  | none => .error (.nullLub t.name)
  | some l => do
    require (decide (p = l)) (.misplaced t.name)
    require (!sc.markAt State.region t.destination) (.destinationIsRegion t.name)
    require (!(sc.markAt State.fin t.destination && !sc.markAt State.region t.source))
      (.destinationIsFinal t.name)
    require (!(sc.markAt State.fin t.destination && sc.markAt State.region t.source) ||
      decide (some l = getSuperstate t.destination)) (.destinationIsFinal t.name)
    require (sc.events.contains t.trigger) (.triggerNotFound t.trigger)
    let guard ← sc.typecheckGuard (placed.getReadEnvironment sc.root) t.guard
    let action ← sc.typecheckStatement (placed.getReadEnvironment sc.root)
      (placed.getWriteEnvironment sc.root) t.action
    pure ⟨t.name, t.sourceName, t.destinationName, t.trigger, guard, action, t.source,
      t.destination⟩

/-- `Typechecker.checkNameDuplication`: the loops over variables, substates and
transitions share the set of names seen so far. -/
def checkNames (state : String) : (names : List String) → List String → Check Unit
  | _, [] => pure ()
  | names, n :: ns =>
    if n ∈ names then .error (.duplicateName n state) else checkNames state (n :: names) ns

/-- `Typechecker.checkNameDuplication`. -/
def checkNameDuplication (s : State Path) : Check Unit :=
  checkNames s.name [] (s.declarations.toList.map Declaration.vname ++
    s.states.map State.name ++ s.transitions.map Transition.name)

/-- `Typechecker.typecheckConcurrency`. -/
def typecheckConcurrency (s : State Path) : Check Unit :=
  if !s.shell then
    s.states.forM fun st =>
      if st.region then .error (.regionOutsideShell st.name s.name)
      else if st.fin then .error (.finalOutsideShell st.name s.name)
      else pure ()
  else do
    s.states.forM fun st =>
      if !st.region && !st.fin then .error (.notRegionOrFinal st.name s.name) else pure ()
    let finals := s.states.countP fun st => st.fin
    require (!decide (finals < 1)) (.noFinalState s.name)
    require (!decide (finals > 1)) (.multipleFinalStates s.name)

mutual

/-- `Typechecker.typecheckState`, for the state at the position `p`. -/
def typecheckState (p : StateRef) : State Path → Check (State Name)
  | ⟨name, decs, entry, exit, states, transitions, history, region, shell, fin⟩ => do
    let s : State Path :=
      ⟨name, decs, entry, exit, states, transitions, history, region, shell, fin⟩
    checkNameDuplication s
    typecheckConcurrency s
    let env := getEnvironment sc.root p
    let entry ← sc.typecheckStatement env env entry
    let exit ← sc.typecheckStatement env env exit
    let transitions ← transitions.mapM (sc.typecheckTransition p)
    let states ← typecheckStates p 0 states
    pure ⟨name, decs, entry, exit, states, transitions, history, region, shell, fin⟩

/-- The loop of `typecheckState` over the substates, from the `i`-th on. -/
def typecheckStates (p : StateRef) (i : Nat) : List (State Path) → Check (List (State Name))
  | [] => pure []
  | s :: ss => do
    let s ← typecheckState (i :: p) s
    let ss ← typecheckStates p (i + 1) ss
    pure (s :: ss)

end

end Declared

/-- An accepted statechart: the tree over bound names, and the global declarations. -/
structure CheckedStatechart where
  root : State Name
  types : List TypeEntry
  events : List String
  functions : List TypedFunction

/-- The passes of `typecheck` over the declarations. -/
def typecheckDeclarations (statechart : Statechart) : Check Declared := do
  let types := typeTable statechart.moreTypes
  let types ← typecheckTypeDeclarations types 0 types.length
  typecheckVariableDeclarations types statechart.root
  let functions ← statechart.functionDeclarations.mapM (typecheckFunctionDeclaration types)
  pure ⟨statechart.root, types, statechart.events, functions⟩

/-- What the passes over the declarations have done when they return. -/
theorem typecheckDeclarations_eq_ok {statechart : Statechart} {sc : Declared}
    (h : typecheckDeclarations statechart = .ok sc) :
    sc.root = statechart.root ∧
      typecheckTypeDeclarations (typeTable statechart.moreTypes) 0
        (typeTable statechart.moreTypes).length = .ok sc.types ∧
      typecheckVariableDeclarations sc.types sc.root = .ok () := by
  have ⟨types, htypes, hrest⟩ := Result.bind_eq_ok.mp h
  have ⟨_, hvariables, hrest⟩ := Result.bind_eq_ok.mp hrest
  have ⟨_, _, hrest⟩ := Result.bind_eq_ok.mp hrest
  rw [Result.pure_eq_ok] at hrest
  subst hrest
  exact ⟨rfl, htypes, hvariables⟩

/-- `Typechecker.typecheck`. -/
def typecheck (statechart : Statechart) : Check CheckedStatechart := do
  let sc ← typecheckDeclarations statechart
  let root ← sc.typecheckState [] sc.root
  pure ⟨root, sc.types, sc.events, sc.functions⟩

end Stabl
