import Stabl.Ast.Hierarchy
import Stabl.Lib.Result

/-!
# `Stabl.Frontend.Parser`: the actions of the grammar

The file `frontend/parser.cup`, from the statechart down to the declarations. The types
`Written..` hold what a statechart's text says, one constructor or one field for each choice
that a production leaves open. `result` is the value that the actions compute from it, and an
exception of an action is a `ParseError`. A list that a production collects is refused at the
first name that it has already.

The actions of `name`, `typename`, `expr` and `statement` build a node and nothing else, so a
`Written..` type holds their values. How the grammar groups the operators of an expression is
the subject of `Stabl.Frontend.ExpressionParser`.

The last action calls the constructor of `Statechart`. It looks the sources and destinations
of the transitions up, in the tree that the other actions have built.
-/

set_option autoImplicit false

namespace Stabl

open Result TreeAddress

/-! ### Identifiers -/

/-- The characters of an identifier after its first one: `([_]?[A-Za-z0-9])*`. -/
def identifierTail : List Char → Bool
  | [] => true
  | '_' :: c :: cs => c.isAlphanum && identifierTail cs
  | c :: cs => c.isAlphanum && identifierTail cs

/-- The regular expression `identifier` of `lexer.flex`. -/
def isIdentifier : List Char → Bool
  | [] => false
  | c :: cs => c.isAlpha && identifierTail cs

/-- The words that the lexer takes for other tokens. -/
def keywords : List String :=
  ["entry", "exit", "while", "if", "else", "statechart", "state", "transition", "source",
    "destination", "trigger", "guard", "action", "true", "false", "struct", "types", "type",
    "events", "functions", "HISTORY", "SHELL", "REGION", "FIN"]

/-- The value of a token `IDENTIFIER`. -/
structure Identifier where
  text : String
  wellFormed : isIdentifier text.toList = true
  notKeyword : text ∉ keywords

/-- The word `local` of the production `scopename`. -/
def Identifier.localWord : Identifier := ⟨"local", by decide, by decide⟩

/-! ### What is written -/

/-- The productions of `decl`: `normal_decl` and `inp_decl`. -/
inductive WrittenDecl where
  | normal (id : Identifier) (typeName : TypeName) (scope : Identifier)
  | input (id : Identifier) (typeName : TypeName)

/-- The production of `transition`. A missing trigger clause is `none`. -/
structure WrittenTransition where
  id : Identifier
  src : Path
  des : Path
  trigger : Option Identifier
  guard : Expression Path
  action : Statement Path

/-- The marks at the beginning of a state's body: one constructor for each of the seven
productions of `state`. -/
inductive Marks where
  | history
  | historyRegion
  | fin
  | region
  | shell
  | shellRegion
  | unmarked
deriving DecidableEq, Repr

/-- The productions of `state`. A missing entry or exit clause is `none`. -/
inductive WrittenState where
  | mk (id : Identifier) (marks : Marks) (declarations : List WrittenDecl)
      (entry exit : Option (Statement Path)) (states : List WrittenState)
      (transitions : List WrittenTransition)

/-- The productions of `typedecl`. The type parameters of a struct that is not polymorphic
are `none`. -/
inductive WrittenType where
  | polytypedecl (tname : Identifier) (params : List Identifier)
  | struct (id : Identifier) (declarations : List WrittenDecl) (params : Option (List Identifier))

/-- The productions of `funcdecl`. The parameters are normal declarations. -/
structure WrittenFunction where
  fname : Identifier
  typeParameters : Option (List Identifier)
  params : List (Identifier × TypeName × Identifier)
  returnType : TypeName

namespace WrittenState

def id : WrittenState → Identifier | mk id .. => id
def marks : WrittenState → Marks | mk _ marks .. => marks
def declarations : WrittenState → List WrittenDecl | mk _ _ declarations .. => declarations
def states : WrittenState → List WrittenState | mk _ _ _ _ _ states _ => states
def transitions : WrittenState → List WrittenTransition | mk _ _ _ _ _ _ transitions => transitions

/-- The state that is written at a position of the tree. -/
def stateAt (root : WrittenState) : StateRef → Option WrittenState
  | [] => some root
  | i :: p => (root.stateAt p).bind fun s => s.states[i]?

end WrittenState

/-- The two productions of `statechart`: its body is that of a state which has no mark, or the
mark `HISTORY`. -/
structure WrittenStatechart where
  types : List WrittenType
  events : List Identifier
  functions : List WrittenFunction
  root : WrittenState
  marks : root.marks = .unmarked ∨ root.marks = .history

/-! ### The actions -/

/-- Why an action throws: one constructor for each `throw` of `parser.cup` and of the methods
that the constructor of `Statechart` calls, with the name that its message quotes. -/
inductive ParseError where
  | duplicateEvent (e : String)
  | duplicateParameter (vname : String)
  | duplicateFunction (name : String)
  | duplicateState (name : String)
  | duplicateTransition (name : String)
  | duplicateVariable (vname : String)
  | invalidScope
  | sourceNotFound (sourceName : Path)
  | destinationNotFound (destinationName : Path)
deriving DecidableEq, Repr

/-- The value of an action. -/
abbrev Parse (α : Type) := Except ParseError α

/-- `RESULT.add(a)`, after a loop that has not found the name of `a`. -/
def addNew {α : Type} (name : α → String) (e : String → ParseError) (l : List α) (a : α) :
    Parse (List α) :=
  if name a ∈ l.map name then .error (e (name a)) else .ok (l ++ [a])

/-- The actions of `scopename`. -/
def scopeName (sid : Identifier) : Parse ScopeName :=
  if sid.text = "static" then .ok .staticScope
  else if sid.text = "parameter" then .ok .parameterScope
  else if sid.text = "local" then .ok .localScope
  else .error .invalidScope

/-- The action of `normal_decl`. -/
def normalDecl (id : Identifier) (typeName : TypeName) (scope : Identifier) :
    Parse Declaration := do
  let sid ← scopeName scope
  pure ⟨id.text, sid, typeName, false⟩

/-- The actions of `decl`. -/
def WrittenDecl.result : WrittenDecl → Parse Declaration
  | normal id typeName scope => normalDecl id typeName scope
  | input id typeName => pure ⟨id.text, .localScope, typeName, true⟩

/-- `RESULT.add(d)` on a `DeclarationList`, which answers `false` for a name that it has. -/
def addDeclaration (e : String → ParseError) (dlist : DeclarationList) (d : Declaration) :
    Parse DeclarationList :=
  match dlist.add d with
  | some dlist => .ok dlist
  | none => .error (e d.vname)

/-- The actions of `decl_list`. -/
def declList (decls : List WrittenDecl) : Parse DeclarationList :=
  decls.foldlM (fun dlist d => do
    let d ← d.result
    addDeclaration .duplicateVariable dlist d) .empty

/-- The actions of `param_list`. -/
def paramList (params : List (Identifier × TypeName × Identifier)) : Parse DeclarationList :=
  params.foldlM (fun dlist (id, typeName, scope) => do
    let d ← normalDecl id typeName scope
    addDeclaration .duplicateParameter dlist d) .empty

/-- The actions of `typedecl`. -/
def WrittenType.result : WrittenType → Parse TypeDeclaration
  | polytypedecl tname params => pure (.basicType tname.text (params.map Identifier.text))
  | struct id declarations params => do
    let dlist ← declList declarations
    pure (.struct id.text dlist ((params.getD []).map Identifier.text))

/-- The actions of `funcdecl`. -/
def WrittenFunction.result (f : WrittenFunction) : Parse FunctionDeclaration := do
  let params ← paramList f.params
  pure ⟨f.fname.text, (f.typeParameters.getD []).map Identifier.text, f.returnType, params⟩

/-- The actions of `funcs`. -/
def funcs (fs : List WrittenFunction) : Parse (List FunctionDeclaration) :=
  fs.foldlM (fun decs f => do
    let dec ← f.result
    addNew FunctionDeclaration.name .duplicateFunction decs dec) []

/-- The actions of `events`. -/
def eventList (es : List Identifier) : Parse (List String) :=
  es.foldlM (fun eventlist e => addNew id .duplicateEvent eventlist e.text) []

/-- The actions of `trigger`. -/
def triggerClause : Option Identifier → String
  | some e => e.text
  | none => "eNone"

/-- The action of `transition`. The source and the destination are `null` until
`initialiseTransitions`. -/
def WrittenTransition.result (t : WrittenTransition) : Transition Path :=
  ⟨t.id.text, t.src, t.des, triggerClause t.trigger, t.guard, t.action, [], []⟩

/-- The actions of `transitions`. -/
def transitionList (ts : List WrittenTransition) : Parse (List (Transition Path)) :=
  ts.foldlM (fun tlist t => addNew Transition.name .duplicateTransition tlist t.result) []

/-- The actions of `entry_clause` and `exit_clause`. -/
def clause : Option (Statement Path) → Statement Path
  | some a => a
  | none => .statementList []

/-- The actions of `state`: the calls of the constructor of `State`, whose last parameters are
`history`, `region`, `shell` and `fin`. -/
def Marks.action (id : String) (dlist : DeclarationList) (en ex : Statement Path)
    (st : List (State Path)) (tr : List (Transition Path)) : Marks → State Path
  | history => ⟨id, dlist, en, ex, st, tr, true, false, false, false⟩
  | historyRegion => ⟨id, dlist, en, ex, st, tr, true, false, true, false⟩
  | fin => ⟨id, dlist, en, ex, st, tr, false, false, false, true⟩
  | region => ⟨id, dlist, en, ex, st, tr, false, true, false, false⟩
  | shell => ⟨id, dlist, en, ex, st, tr, false, false, true, false⟩
  | shellRegion => ⟨id, dlist, en, ex, st, tr, false, true, true, false⟩
  | unmarked => ⟨id, dlist, en, ex, st, tr, false, false, false, false⟩

mutual

/-- The actions below `state`, in the order in which the parser comes to them. -/
def WrittenState.result : WrittenState → Parse (State Path)
  | .mk id marks declarations entry exit states transitions => do
    let dlist ← declList declarations
    let st ← stateList [] states
    let tr ← transitionList transitions
    pure (marks.action id.text dlist (clause entry) (clause exit) st tr)

/-- The actions of `states`, after those for the list `slist`. -/
def stateList (slist : List (State Path)) : List WrittenState → Parse (List (State Path))
  | [] => pure slist
  | s :: ss => do
    let s ← s.result
    let slist ← addNew State.name .duplicateState slist s
    stateList slist ss

end

/-! ### The constructor of `Statechart` -/

/-- `Transition.setSourceDestinationStates`. -/
def setSourceDestinationStates (statechart : State Path) (t : Transition Path) :
    Parse (Transition Path) :=
  match nameToState statechart t.sourceName with
  | none => .error (.sourceNotFound t.sourceName)
  | some source =>
    match nameToState statechart t.destinationName with
    | none => .error (.destinationNotFound t.destinationName)
    | some destination => .ok { t with source := source, destination := destination }

mutual

/-- `State.initialiseTransitions`. -/
def State.initialiseTransitions (statechart : State Path) : State Path → Parse (State Path)
  | ⟨name, decs, entry, exit, states, transitions, history, region, shell, fin⟩ => do
    let states ← initialiseStates statechart states
    let transitions ← transitions.mapM (setSourceDestinationStates statechart)
    pure ⟨name, decs, entry, exit, states, transitions, history, region, shell, fin⟩

/-- The loop of `State.initialiseTransitions` over the substates. -/
def initialiseStates (statechart : State Path) : List (State Path) → Parse (List (State Path))
  | [] => pure []
  | s :: ss => do
    let s ← State.initialiseTransitions statechart s
    let ss ← initialiseStates statechart ss
    pure (s :: ss)

end

/-! ### The tree after the constructor -/

/-- The substates are initialised one by one. -/
theorem initialiseStates_eq_ok {statechart : State Path} {ss ss' : List (State Path)} :
    initialiseStates statechart ss = .ok ss' ↔
      List.Forall₂ (fun s s' => State.initialiseTransitions statechart s = .ok s') ss ss' := by
  induction ss generalizing ss' with
  | nil =>
      rw [initialiseStates, pure_eq_ok, List.forall₂_nil_left_iff]
      exact eq_comm
  | cons s ss ih =>
      rw [initialiseStates, bind_eq_ok]
      constructor
      · rintro ⟨s', hs, hrest⟩
        have ⟨rest', hss, heq⟩ := bind_eq_ok.mp hrest
        rw [pure_eq_ok] at heq
        exact heq ▸ .cons hs (ih.mp hss)
      · intro h
        cases h with
        | cons hs hss => exact ⟨_, hs, bind_eq_ok.mpr ⟨_, ih.mpr hss, rfl⟩⟩

/-- What `initialiseTransitions` keeps of a state, and what it does with the transitions and
the substates. -/
structure State.Initialised (statechart s s' : State Path) : Prop where
  name : s'.name = s.name
  declarations : s'.declarations = s.declarations
  marks : (s'.history, s'.region, s'.shell, s'.fin) = (s.history, s.region, s.shell, s.fin)
  transitions : List.Forall₂ (fun t t' => setSourceDestinationStates statechart t = .ok t')
    s.transitions s'.transitions
  states : List.Forall₂ (fun st st' => State.initialiseTransitions statechart st = .ok st')
    s.states s'.states

theorem State.initialised {statechart s s' : State Path}
    (h : State.initialiseTransitions statechart s = .ok s') : Initialised statechart s s' := by
  cases s with
  | mk name decs entry exit states transitions history region shell fin =>
      rw [initialiseTransitions] at h
      have ⟨states', hstates, h⟩ := bind_eq_ok.mp h
      have ⟨transitions', htransitions, h⟩ := bind_eq_ok.mp h
      rw [pure_eq_ok] at h
      subst h
      exact ⟨rfl, rfl, rfl, mapM_eq_ok.mp htransitions, initialiseStates_eq_ok.mp hstates⟩

/-- The initialised tree has the positions of the tree, and the states at them initialised. -/
theorem State.stateAt_initialised {statechart root root' : State Path}
    (h : State.initialiseTransitions statechart root = .ok root') (p : StateRef) :
    Option.Rel (fun s s' => State.initialiseTransitions statechart s = .ok s')
      (root.stateAt p) (root'.stateAt p) := by
  rw [stateAt_eq_nodeAt, stateAt_eq_nodeAt]
  exact nodeAt_related (R := fun _ s s' => State.initialiseTransitions statechart s = .ok s')
    (fun hinit => rel_getElem? (State.initialised hinit).states) h p

/-- The substates have the names that they had. -/
theorem findIdx?_initialised {statechart : State Path} {ss ss' : List (State Path)}
    (h : List.Forall₂ (fun s s' => State.initialiseTransitions statechart s = .ok s') ss ss')
    (n : String) : ss'.findIdx? (fun st => decide (st.name = n)) =
      ss.findIdx? fun st => decide (st.name = n) := by
  induction h with
  | nil => rfl
  | cons hs _ ih =>
      rw [List.findIdx?_cons, List.findIdx?_cons, ih, (State.initialised hs).name]

/-- The walk of `nameToState` looks at names and substates only. -/
theorem State.nameToState_initialised {statechart : State Path} (rest : Path) :
    ∀ {s s' : State Path} (p : StateRef), State.initialiseTransitions statechart s = .ok s' →
      s'.nameToState p rest = s.nameToState p rest := by
  induction rest with
  | nil => exact fun p _ => rfl
  | cons n rest ih =>
      intro s s' p h
      have hstates := (State.initialised h).states
      rw [nameToState, nameToState, findIdx?_initialised hstates n]
      split
      · rfl
      · rename_i i _
        have hlength := hstates.length_eq
        by_cases hi : i < s.states.length
        · have hst := (List.forall₂_iff_get.mp hstates).2 i hi (by omega)
          rw [List.getElem?_eq_getElem hi, List.getElem?_eq_getElem (by omega)]
          exact ih (i :: p) hst
        · rw [List.getElem?_eq_none (by omega), List.getElem?_eq_none (by omega)]

/-- Sources and destinations are resolved in the tree that the transitions are part of. -/
theorem nameToState_initialised {root root' : State Path}
    (h : State.initialiseTransitions root root = .ok root') (n : Path) :
    nameToState root' n = nameToState root n := by
  cases n with
  | nil => rfl
  | cons n rest =>
      rw [nameToState, nameToState, (State.initialised h).name,
        State.nameToState_initialised rest [] h]

/-- Every transition of the initialised tree has its source and its destination. -/
theorem initialised_transitionsAt {root root' : State Path}
    (h : State.initialiseTransitions root root = .ok root') {p : StateRef} {t : Transition Path}
    (ht : t ∈ root'.transitionsAt p) :
    nameToState root' t.sourceName = some t.source ∧
      nameToState root' t.destinationName = some t.destination := by
  rw [nameToState_initialised h, nameToState_initialised h]
  unfold State.transitionsAt at ht
  split at ht
  · rename_i s' hs'
    have ⟨s, _, hinit⟩ := exists_left (State.stateAt_initialised h p) hs'
    have ⟨t₀, _, hset⟩ := forall₂_mem_right (State.initialised hinit).transitions ht
    rw [setSourceDestinationStates] at hset
    split at hset
    · cases hset
    · rename_i source hsource
      split at hset
      · cases hset
      · rename_i destination hdestination
        rw [Except.ok.injEq] at hset
        subst hset
        exact ⟨hsource, hdestination⟩
  · cases ht

/-- The constructor of `Statechart`. -/
def newStatechart (root : State Path) (moreTypes : List TypeDeclaration) (events : List String)
    (functionDeclarations : List FunctionDeclaration) : Parse Statechart :=
  match h : State.initialiseTransitions root root with
  | .ok root' => .ok ⟨root', moreTypes, events, functionDeclarations,
      fun _ _ _ ht => initialised_transitionsAt h ht⟩
  | .error e => .error e

/-- The actions of `statechart`. -/
def WrittenStatechart.result (sc : WrittenStatechart) : Parse Statechart :=
  match sc.root with
  | .mk id marks declarations entry exit states transitions => do
    let tlist ← sc.types.mapM WrittenType.result
    let el ← eventList sc.events
    let dlist ← declList declarations
    let fdecls ← funcs sc.functions
    let st ← stateList [] states
    let tr ← transitionList transitions
    newStatechart (marks.action id.text dlist (clause entry) (clause exit) st tr) tlist el fdecls

/-- The actions of the body of a statechart are those of a state. -/
theorem WrittenStatechart.result_eq_ok {sc : WrittenStatechart} {statechart : Statechart}
    (h : sc.result = .ok statechart) : ∃ root, sc.root.result = .ok root ∧
      State.initialiseTransitions root root = .ok statechart.root ∧
      sc.types.mapM WrittenType.result = .ok statechart.moreTypes ∧
      eventList sc.events = .ok statechart.events ∧
      funcs sc.functions = .ok statechart.functionDeclarations := by
  unfold result at h
  split at h
  rename_i id marks declarations entry exit states transitions hroot
  have ⟨tlist, htypes, h⟩ := bind_eq_ok.mp h
  have ⟨el, hevents, h⟩ := bind_eq_ok.mp h
  have ⟨dlist, hdecls, h⟩ := bind_eq_ok.mp h
  have ⟨fdecls, hfuncs, h⟩ := bind_eq_ok.mp h
  have ⟨st, hstates, h⟩ := bind_eq_ok.mp h
  have ⟨tr, htransitions, h⟩ := bind_eq_ok.mp h
  unfold newStatechart at h
  split at h
  · rename_i root' hinit
    rw [Except.ok.injEq] at h
    subst h
    refine ⟨_, ?_, hinit, htypes, hevents, hfuncs⟩
    rw [hroot, WrittenState.result]
    exact bind_eq_ok.mpr ⟨dlist, hdecls, bind_eq_ok.mpr ⟨st, hstates,
      bind_eq_ok.mpr ⟨tr, htransitions, rfl⟩⟩⟩
  · cases h

end Stabl
