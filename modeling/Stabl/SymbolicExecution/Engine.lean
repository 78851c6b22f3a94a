import Stabl.Simulator.Simulator
import Stabl.SymbolicExecution.Tree

/-!
# `Stabl.SymbolicExecution.Engine`: the symbolic execution engine

The class `symbolic_execution.SymbolicExecutionEngine`. The limits `max_depth` and
`max_tree_depth` are parameters. The static set `conf` is a list in the order of
insertion; `takeTransition` takes it and returns it changed. It is empty before
`execute` is called.

`Solver.solve` runs an external program. Its answers are a parameter, and a call is
identified by the leaf and the question. No two calls of one run agree in both, so the
answers may be any at all. An `IOException` is an answer as well.

`executeBlock(b, leaf)` and `executeStatement(b, [leaf])` have one result, whatever `b`
is, so one recursion is enough for the two (`executeBlock_eq`).

A result `none` of `takeTransition` is the `NullPointerException` above the statechart.
-/

set_option autoImplicit false

namespace Stabl

open EnterExit

/-- `SymbolicExecutionResult`. -/
structure SymbolicExecutionResult where
  done : List SETNode
  live : List SETNode

/-- What the solver is asked about at a leaf: the condition of an if or its negation, or
the guard of a transition. -/
inductive Question where
  | condition (e : Expression Name)
  | elseCondition (e : Expression Name)
  | guard (t : PlacedTransition Name)

/-- The expression that the `Solver` is made for. -/
def Question.expression (leaf : SETNode) : Question → SymExpr
  | .condition e => symEval e leaf
  | .elseCondition e => .not (symEval e leaf)
  | .guard t => symEval t.transition.guard leaf

/-- The outcome of `Solver.solve`: the output `sat`, another output, or an exception. -/
inductive Answer where
  | sat
  | other
  | ioException
deriving DecidableEq

abbrev Solver := SETNode → Question → Answer

/-! ### Statements -/

/-- The loop of `executeStatement` over the leaves: each result replaces the one before. -/
def lastResult (f : SETNode → SymbolicExecutionResult) (leaves : List SETNode) :
    SymbolicExecutionResult :=
  leaves.foldl (fun _ l => f l) ⟨[], []⟩

/-- `executeInstruction` on an assignment. -/
def executeAssignment (maxDepth : Int) (lhs : Name) (rhs : Expression Name) (leaf : SETNode) :
    SymbolicExecutionResult :=
  let l : SETNode := .instruction lhs.declaration (evaluateUpdate lhs.declaration rhs) leaf
  if (leaf.depth + 1 : Int) > maxDepth then ⟨[l], []⟩ else ⟨[], [l]⟩

/-- One half of `executeIf`: the body is executed, or the leaf is done. -/
def executeBranch (answer : Answer) (leaf branch : SETNode)
    (body : SETNode → SymbolicExecutionResult) : SymbolicExecutionResult :=
  if answer = .sat then body branch else ⟨[leaf], []⟩

/-- `executeIf`, with `executeBlock` on the two bodies. -/
def executeIf (solver : Solver) (condition : Expression Name)
    (thenBody elseBody : SETNode → SymbolicExecutionResult) (leaf : SETNode) :
    SymbolicExecutionResult :=
  let branch (value : Bool) : SETNode :=
    .decision (evaluateCondition condition) (.note (.assume condition value) leaf)
  let res₁ := executeBranch (solver leaf (.condition condition)) leaf (branch true) thenBody
  let res₂ := executeBranch (solver leaf (.elseCondition condition)) leaf (branch false) elseBody
  let done := res₁.done ++ res₂.done
  let leaves := res₁.live ++ res₂.live
  -- Without a live node the leaf is done as well, next to the nodes below it.
  if leaves.isEmpty then ⟨done ++ [leaf], []⟩ else ⟨done, leaves⟩

section
variable (maxDepth : Int) (solver : Solver)

mutual

/-- `executeStatement`, with the cases of `executeInstruction`. An expression statement
and a skip statement have an empty result. -/
def executeStatementSym : Statement Name → List SETNode → SymbolicExecutionResult
  | .assignmentStatement lhs rhs, leaves => lastResult (executeAssignment maxDepth lhs rhs) leaves
  | .haltStatement, leaves => lastResult (fun l => ⟨[l], []⟩) leaves
  | .expressionStatement _, leaves => lastResult (fun _ => ⟨[], []⟩) leaves
  | .skipStatement, leaves => lastResult (fun _ => ⟨[], []⟩) leaves
  | .ifStatement condition thenBody elseBody, leaves =>
    lastResult (executeIf solver condition (fun l => executeStatementSym thenBody [l])
      (fun l => executeStatementSym elseBody [l])) leaves
  | .statementList statements, leaves =>
    lastResult (fun l => executeStatementsSym statements [] [l]) leaves
  -- No branch is for a while statement. The last `else` keeps the leaves as they are.
  | .whileStatement _ _, leaves => ⟨[], leaves⟩

/-- The loop of `executeBlock` over the statements of a list. -/
def executeStatementsSym : List (Statement Name) → (done leaves : List SETNode) →
    SymbolicExecutionResult
  | [], done, leaves => ⟨done, leaves⟩
  | s :: ss, done, leaves =>
    let res := executeStatementSym s leaves
    executeStatementsSym ss (done ++ res.done) res.live

end

/-- `executeBlock`. -/
def executeBlock (block : Statement Name) (leaf : SETNode) : SymbolicExecutionResult :=
  match block with
  | .statementList statements => executeStatementsSym maxDepth solver statements [] [leaf]
  | block => executeStatementSym maxDepth solver block [leaf]

theorem executeBlock_eq (block : Statement Name) (leaf : SETNode) :
    executeBlock maxDepth solver block leaf = executeStatementSym maxDepth solver block [leaf] := by
  cases block with
  | statementList statements => simp [executeBlock, executeStatementSym, lastResult]
  | _ => rfl

end

/-! ### States -/

/-- The constant with which `initialize_variables` starts a variable of a built-in type. -/
def initialConstant (typeName : String) : Option Constant :=
  if typeName = "int" then some (.integerConstant 0)
  else if typeName = "string" then some (.stringLiteral " ")
  else if typeName = "boolean" then some (.booleanConstant false)
  else none

/-- The body of the loop of `initialize_variables`. -/
def initializeVariable (s : StateRef) (scope : ScopeName) (leaf : SETNode) (d : Declaration) :
    SETNode :=
  if d.scope = scope then
    match initialConstant d.typeName.name with
    | some c => .instruction ⟨s, d.vname⟩ (evaluateUpdate ⟨s, d.vname⟩ (.constant c)) leaf
    | none => leaf
  else leaf

/-- The names of the states that the engine compares. -/
def State.nameAt {ν : Type} (root : State ν) (p : StateRef) : String :=
  match root.stateAt p with
  | some s => s.name
  | none => ""

mutual

/-- The first substates below a state, down to an atomic one: the loops that follow
`states.get(0)`. -/
def State.firstSubstates {ν : Type} (p : StateRef) : State ν → List StateRef
  | ⟨_, _, _, _, states, _, _, _, _, _⟩ => firstSubstatesOf p states

def firstSubstatesOf {ν : Type} (p : StateRef) : List (State ν) → List StateRef
  | [] => []
  | s :: _ => (0 :: p) :: s.firstSubstates (0 :: p)

end

/-- The first substates below the state at a position. -/
def State.firstSubstatesAt {ν : Type} (root : State ν) (p : StateRef) : List StateRef :=
  match root.stateAt p with
  | some s => s.firstSubstates p
  | none => []

section
variable (root : State Name) (maxDepth : Int) (solver : Solver)

/-- `initialize_variables`. -/
def initializeVariables (s : StateRef) (scope : ScopeName) (leaf : SETNode) : SETNode :=
  (root.declarationsAt s).foldl (initializeVariable s scope) leaf

/-- `enterSuperstate`. -/
def enterSuperstate (s : StateRef) (leaf : SETNode) : SymbolicExecutionResult :=
  executeBlock maxDepth solver (root.entryAt s)
    (initializeVariables root s .localScope (.stateEntry s leaf))

/-- `enterSubstate`. -/
def enterSubstate (s : StateRef) (leaf : SETNode) : SymbolicExecutionResult :=
  executeBlock maxDepth solver (root.entryAt s)
    (initializeVariables root s .parameterScope
      (initializeVariables root s .localScope (.stateEntry s leaf)))

/-- `exitState`. -/
def exitStateSym (s : StateRef) (leaf : SETNode) : SymbolicExecutionResult :=
  executeBlock maxDepth solver (root.exitAt s) (.stateExit s leaf)

/-! ### Transitions -/

/-- The lists `source_states` and `destination_Superstates`: a state and its superstates,
up to one whose superstate has the name of the transition's state. -/
def superstatesBelow (name : String) : StateRef → Option (List StateRef)
  -- `getSuperstate()` of the statechart is `null`.
  | [] => none
  | i :: p =>
    if root.nameAt p = name then some [i :: p]
    else (superstatesBelow name p).map ((i :: p) :: ·)

/-- A step at every leaf: the loops of `takeTransition` over `leaves`. -/
def atEveryLeaf (f : SETNode → SymbolicExecutionResult) (res : SymbolicExecutionResult) :
    SymbolicExecutionResult :=
  ⟨res.done ++ res.live.flatMap (fun l => (f l).done), res.live.flatMap (fun l => (f l).live)⟩

/-- The loops of `takeTransition` over states. -/
def atEveryState (f : StateRef → SETNode → SymbolicExecutionResult) (states : List StateRef)
    (res : SymbolicExecutionResult) : SymbolicExecutionResult :=
  states.foldl (fun res s => atEveryLeaf (f s) res) res

/-- The states that a transition leaves and those that it enters: `source_states`, and
`destination_Superstates` with `destination_Substates`. -/
structure TransitionStates where
  sourceStates : List StateRef
  destinationSuperstates : List StateRef
  destinationSubstates : List StateRef

/-- The lists of states that `takeTransition` computes. -/
def transitionStates (t : PlacedTransition Name) : Option TransitionStates := do
  let name := root.nameAt t.state
  let source ← superstatesBelow root name t.transition.source
  let destination ← superstatesBelow root name t.transition.destination
  pure ⟨source, destination, root.firstSubstatesAt t.transition.destination⟩

/-- The nodes that `takeTransition` returns. -/
def takeTransitionNodes (t : PlacedTransition Name) (states : TransitionStates) (leaf : SETNode) :
    SymbolicExecutionResult :=
  let res := atEveryState (exitStateSym root maxDepth solver) states.sourceStates ⟨[], [leaf]⟩
  let res := atEveryLeaf (fun l => executeBlock maxDepth solver t.transition.action
    (.note (.action t.state t.transition.name) l)) res
  let res := atEveryState (enterSuperstate root maxDepth solver) states.destinationSuperstates res
  atEveryState (enterSubstate root maxDepth solver) states.destinationSubstates res

/-- The marks that a transition leaves in `conf` and on a path. -/
def TransitionStates.marks (states : TransitionStates) : List (Mark StateRef) :=
  states.sourceStates.map .exit ++
    (states.destinationSuperstates.map .enter ++ states.destinationSubstates.map .enter)

/-- `takeTransition`: the nodes, and `conf` after it. The set changes for every state of
the lists, whether or not there are leaves. -/
def takeTransition (t : PlacedTransition Name) (leaf : SETNode) (conf : List StateRef) :
    Option (SymbolicExecutionResult × List StateRef) := do
  let states ← transitionStates root t
  pure (takeTransitionNodes root maxDepth solver t states leaf, replay conf states.marks)

/-! ### The main loop -/

/-- The transitions of the statechart, those of a state before those of its substates. -/
def allTransitions : List (PlacedTransition Name) :=
  (root.positions []).flatMap fun p => (root.transitionsAt p).map fun t => ⟨p, t⟩

/-- `compute_outts`. -/
def computeOutts (conf : List StateRef) (all_ts : List (PlacedTransition Name)) :
    List (PlacedTransition Name) :=
  all_ts.filter fun tr => conf.any fun st => root.nameAt tr.transition.source = root.nameAt st

/-- The variables of `execute` at the head of the main loop. `sat` says whether the last
output of the solver was `sat`: an exception leaves the variable `s` unchanged. -/
structure LoopState where
  leaves : List SETNode
  done : List SETNode
  conf : List StateRef
  outTs : List (PlacedTransition Name)
  sat : Bool

/-- The variables inside a round: `leaves_temp2`, `done`, `conf` and `s`. -/
structure RoundState where
  leavesTemp : List SETNode
  done : List SETNode
  conf : List StateRef
  sat : Bool

/-- The value of `s.equals("sat")` after a call. -/
def satAfter (sat : Bool) : Answer → Bool
  | .sat => true
  | .other => false
  | .ioException => sat

/-- The node with which `takeTransition` is called. The ghosts say that the guard holds, and
which transition it is: another one may have the same guard. -/
def guardNode (t : PlacedTransition Name) (leaf : SETNode) : SETNode :=
  .note (.transition t.state t.transition.name) (.note (.assume t.transition.guard true) leaf)

/-- The body of the loops over leaves and transitions. -/
def tryTransition (acc : RoundState) (leaf : SETNode) (t : PlacedTransition Name) :
    Option RoundState :=
  let sat := satAfter acc.sat (solver leaf (.guard t))
  if sat then do
    let (res, conf) ← takeTransition root maxDepth solver t (guardNode t leaf) acc.conf
    pure ⟨acc.leavesTemp ++ res.live, acc.done ++ res.done, conf, sat⟩
  -- The other transitions are tried at the leaf all the same.
  else some { acc with done := acc.done ++ [leaf], sat := sat }

/-- The pairs that a round tries, in order. -/
def LoopState.pairs (loop : LoopState) : List (SETNode × PlacedTransition Name) :=
  loop.leaves.flatMap fun leaf => loop.outTs.map fun t => (leaf, t)

/-- Those of the pairs for which `takeTransition` is called, when `sat` is the value of
`s.equals("sat")` before. -/
def takenPairs (solver : Solver) : (sat : Bool) → List (SETNode × PlacedTransition Name) →
    List (SETNode × PlacedTransition Name)
  | _, [] => []
  | sat, (leaf, t) :: pairs =>
    let sat := satAfter sat (solver leaf (.guard t))
    if sat then (leaf, t) :: takenPairs solver sat pairs else takenPairs solver sat pairs

/-- The leaves and transitions that a round takes. -/
def LoopState.taken (loop : LoopState) (solver : Solver) : List (SETNode × PlacedTransition Name) :=
  takenPairs solver loop.sat loop.pairs

/-- One round of the main loop. -/
def engineRound (maxTreeDepth : Int) (loop : LoopState) : Option LoopState := do
  let acc ← loop.pairs.foldlM (fun acc pair => tryTransition root maxDepth solver acc pair.1 pair.2)
    ⟨[], loop.done, loop.conf, loop.sat⟩
  pure
    { leaves := acc.leavesTemp.filter fun leaf => ¬ (leaf.treedepth : Int) > maxTreeDepth
      done := acc.done ++ acc.leavesTemp.filter fun leaf => (leaf.treedepth : Int) > maxTreeDepth
      conf := acc.conf
      outTs := computeOutts root acc.conf (allTransitions root)
      sat := acc.sat }

/-- The loop of `execute` over the leaves, for a state of the first configuration. It ends
at the first leaf that has no live results. -/
def enterFirst (s : StateRef) (leavesTemp : List SETNode) : (leaves : List SETNode) →
    (done : List SETNode) → SymbolicExecutionResult
  | [], done => ⟨done, leavesTemp⟩
  | leaf :: leaves, done =>
    let res := enterSubstate root maxDepth solver s leaf
    -- The `break` drops the leaves after this one.
    if res.live.isEmpty then ⟨done ++ res.done, leavesTemp⟩
    else enterFirst s (leavesTemp ++ res.live) leaves (done ++ res.done)

/-- The loop of `execute` over the first configuration. -/
def enterFirstStates : List StateRef → SymbolicExecutionResult → SymbolicExecutionResult
  | [], res => res
  | s :: states, res =>
    enterFirstStates states (enterFirst root maxDepth solver s [] res.live res.done)

/-- The node with which `execute` starts: the static variables of all states. -/
def startNode : SETNode :=
  (root.positions []).foldl (fun leaf s => initializeVariables root s .staticScope leaf) .start

/-- The first configuration: the statechart, then first substates. -/
def firstConfiguration : List StateRef := [] :: root.firstSubstatesAt []

/-- `execute` up to the head of its main loop. `statechart.states.get(0)` throws for a
statechart without substates. -/
def firstRound : Option LoopState :=
  if root.states.isEmpty then none
  else
    let res :=
      enterFirstStates root maxDepth solver (firstConfiguration root) ⟨[], [startNode root]⟩
    some
      { leaves := res.live
        done := res.done
        conf := firstConfiguration root
        outTs := computeOutts root (firstConfiguration root) (allTransitions root)
        sat := false }

/-- The main loop of `execute`, for a number of rounds that is enough. -/
def mainLoop (maxTreeDepth : Int) : (fuel : Nat) → LoopState → Option (List SETNode)
  | 0, _ => none
  | fuel + 1, loop =>
    if loop.leaves.isEmpty then some loop.done
    else (engineRound root maxDepth solver maxTreeDepth loop).bind (mainLoop maxTreeDepth fuel)

/-- `SymbolicExecutionEngine.execute`. -/
def executeSym (maxTreeDepth : Int) (fuel : Nat) : Option (List SETNode) :=
  (firstRound root maxDepth solver).bind (mainLoop root maxDepth solver maxTreeDepth fuel)

/-- A run of `execute` is at the head of its main loop. The rounds before it began in
states with the property `Q`. -/
inductive AtRound (maxTreeDepth : Int) (Q : LoopState → Prop) : LoopState → Prop where
  | first {loop : LoopState} (h : firstRound root maxDepth solver = some loop) :
    AtRound maxTreeDepth Q loop
  | next {loop loop' : LoopState} (h : AtRound maxTreeDepth Q loop) (live : loop.leaves ≠ [])
    (hQ : Q loop) (h' : engineRound root maxDepth solver maxTreeDepth loop = some loop') :
    AtRound maxTreeDepth Q loop'

end

end Stabl
