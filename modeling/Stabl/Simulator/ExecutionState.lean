import Stabl.Ast.Hierarchy
import Stabl.Lib.AccessTrace

/-!
# `Stabl.Simulator.ExecutionState`: the state of a simulation

The class `simulator.ExecutionState`. Its maps are functions into `Option`: a key that
is absent and a key that maps to `null` answer the same to `get`, and nothing but the
printed summary asks for the difference. The values are constants, since every
expression that `setValue` stores is a result of `EvaluateExpression.evaluate`.

A `World` is an execution state together with what the simulator reads from the console
(the results of `Scanner.nextInt`, `none` where it throws) and a ghost log of the calls
that the theorems speak of. Nothing reads the log.

A simulation step that does not end normally is a `Stop`: an exception, with the world
that the statements before it have left; the end of the process (`System.exit`); or, in
this model only, the end of the fuel.
-/

set_option autoImplicit false

namespace Stabl

/-- A logged call: `enterState` and `exitState`, the execution of an entry, exit or action
statement, and the reads and writes of variables. -/
inductive Event where
  | enterState (s : StateRef)
  | exitState (s : StateRef)
  | entry (s : StateRef)
  | exit (s : StateRef)
  | action (state : StateRef) (transition : String)
  | access (e : AccessTrace.Access DeclarationRef (Option Constant))
deriving DecidableEq

/-- The maps of `ExecutionState`. -/
structure ExecutionState where
  valueEnvironment : DeclarationRef → Option Constant
  configuration : List StateRef
  eventQueue : List String
  stateHistory : StateRef → Option StateRef
  valueHistory : StateRef → Option (DeclarationRef → Option Constant)

/-- The execution state, the console input still to be read, and the ghost log. -/
structure World where
  eState : ExecutionState
  stdin : List (Option Int32)
  log : List Event

/-- Why a step does not end normally. -/
inductive Stop where
  | exception (w : World)
  | exit
  | outOfFuel

/-- A step of the simulator. -/
abbrev Sim (α : Type) := Except Stop α

/-- The handler `catch(Exception e)` of a method that goes on with its caller. -/
def catchException (x : Sim World) : Sim World :=
  match x with
  | .error (.exception w) => .ok w
  | x => x

namespace World

/-- A call is logged. -/
def record (w : World) (e : Event) : World := { w with log := w.log ++ [e] }

/-- `valueEnvironment.put(d, v)`. -/
def put (w : World) (d : DeclarationRef) (v : Option Constant) : World :=
  { w with eState := { w.eState with
      valueEnvironment := Function.update w.eState.valueEnvironment d v } }

/-- `ExecutionState.getValue`. -/
def getValue (w : World) (d : DeclarationRef) : Option Constant × World :=
  (w.eState.valueEnvironment d, w.record (.access (.get d (w.eState.valueEnvironment d))))

/-- `ExecutionState.setValue`. -/
def setValue (w : World) (d : DeclarationRef) (v : Option Constant) : World :=
  (w.put d v).record (.access (.set d v))

/-- `ExecutionState.getEvent`: the next event of the queue, or the null event. -/
def getEvent (w : World) : String × World :=
  match w.eState.eventQueue with
  | [] => ("null", w)
  | e :: es => (e, { w with eState := { w.eState with eventQueue := es } })

/-- `ExecutionState.addEvent`, for each event of a list. -/
def addEvents (w : World) (es : List String) : World :=
  { w with eState := { w.eState with eventQueue := w.eState.eventQueue ++ es } }

/-- `ExecutionState.presentInConfiguration`. -/
def presentInConfiguration (w : World) (s : StateRef) : Bool :=
  w.eState.configuration.contains s

/-- `ExecutionState.getHistoryState`, for a state with substates: the child that was left
last, or the first child. -/
def getHistoryState (w : World) (s : StateRef) : StateRef :=
  match w.eState.stateHistory s with
  | some c => c
  | none => 0 :: s

/-- The body of the loop of `ExecutionState.enterState`: a local variable starts without
a value, a static one with the value of the last exit. `valueHistory.get(s)` is `null`
for a state that was neither prepared nor left, and the static case then throws. -/
def enterDeclaration (s : StateRef) (w : World) (d : Declaration) : Sim World :=
  match d.scope with
  | .localScope => .ok (w.put ⟨s, d.vname⟩ none)
  | .staticScope =>
    match w.eState.valueHistory s with
    | some values => .ok (w.put ⟨s, d.vname⟩ (values ⟨s, d.vname⟩))
    | none => .error (.exception w)
  | .parameterScope => .ok w

/-- `ExecutionState.enterState`. -/
def enterState {ν : Type} (root : State ν) (s : StateRef) (w : World) : Sim World :=
  let w := w.record (.enterState s)
  let w := { w with eState := { w.eState with
      configuration := w.eState.configuration ++ [s] } }
  (root.declarationsAt s).foldlM (enterDeclaration s) w

/-- The body of the loop of `ExecutionState.exitState`. The map `temp` goes into
`valueHistory`, and a local variable loses its value. -/
def exitDeclaration (s : StateRef) (acc : (DeclarationRef → Option Constant) × World)
    (d : Declaration) : (DeclarationRef → Option Constant) × World :=
  let ref : DeclarationRef := ⟨s, d.vname⟩
  let w := acc.2
  let temp := Function.update acc.1 ref (w.eState.valueEnvironment ref)
  let w := { w with eState := { w.eState with
      valueHistory := Function.update w.eState.valueHistory s (some temp) } }
  (temp, if d.scope = .localScope then w.put ref none else w)

/-- `ExecutionState.exitState`. -/
def exitState {ν : Type} (root : State ν) (s : StateRef) (w : World) : World :=
  let w := w.record (.exitState s)
  let w := match getSuperstate s with
    | some p => { w with eState := { w.eState with
        stateHistory := Function.update w.eState.stateHistory p (some s) } }
    -- The statechart itself has no superstate.
    | none => w
  let w := { w with eState := { w.eState with
      configuration := w.eState.configuration.erase s } }
  ((root.declarationsAt s).foldl (exitDeclaration s) (fun _ => none, w)).2

end World

/-- `ExecutionState.populate`: the value history of a state with a variable that is not
local starts with `null` for every variable. -/
def populate {ν : Type} (root : State ν) (e : ExecutionState) (s : StateRef) : ExecutionState :=
  if (root.declarationsAt s).any (fun d => d.scope ≠ .localScope) then
    { e with valueHistory := Function.update e.valueHistory s (some fun _ => none) }
  else
    e

/-- The constructor `ExecutionState(Statechart)`, followed by `addEvent` for the events
of the statechart. It prepares the statechart and its direct children. -/
def ExecutionState.initial {ν : Type} (root : State ν) (events : List String) : ExecutionState :=
  let e : ExecutionState :=
    ⟨fun _ => none, [], events, fun _ => none, fun _ => none⟩
  ((List.range root.states.length).map (fun i => [i])).foldl (populate root)
    (populate root e [])

/-! ### What the methods leave unchanged -/

namespace World

variable {ν : Type} (w : World)

@[simp] theorem record_eState (e : Event) : (w.record e).eState = w.eState := rfl
@[simp] theorem record_stdin (e : Event) : (w.record e).stdin = w.stdin := rfl
@[simp] theorem record_log (e : Event) : (w.record e).log = w.log ++ [e] := rfl

section
variable (d : DeclarationRef) (v : Option Constant)

@[simp] theorem put_configuration : (w.put d v).eState.configuration = w.eState.configuration :=
  rfl
@[simp] theorem put_stateHistory : (w.put d v).eState.stateHistory = w.eState.stateHistory := rfl
@[simp] theorem put_valueHistory : (w.put d v).eState.valueHistory = w.eState.valueHistory := rfl
@[simp] theorem put_eventQueue : (w.put d v).eState.eventQueue = w.eState.eventQueue := rfl
@[simp] theorem put_log : (w.put d v).log = w.log := rfl
@[simp] theorem put_stdin : (w.put d v).stdin = w.stdin := rfl
@[simp] theorem put_valueEnvironment : (w.put d v).eState.valueEnvironment =
    Function.update w.eState.valueEnvironment d v := rfl

end

end World

end Stabl
