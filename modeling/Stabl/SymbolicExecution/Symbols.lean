import Stabl.SymbolicExecution.Questions
import Stabl.SymbolicExecution.Solver

/-!
# `Stabl.SymbolicExecution.Symbols`: the symbolic variables of a run

The constructor of `SymVars` puts the new variable into the static map `symvarslist`. It is
called for an assignment of a function call, when the `InstructionNode` is made, and the map is
read at each call of the solver. Ghost functions beside those of the engine list both, in order.

The order of the two calls of `executeIf` and of its bodies is that of the source: the then body
is executed before the negated condition is sent to the solver.
-/

set_option autoImplicit false

namespace Stabl

/-- A `SymVars` is made for a variable, or the solver is called. -/
inductive Effect where
  | symVars (var : DeclarationRef)
  | call (call : Call)

/-- The name of the `SymVars` for a variable. -/
def symVarsName (var : DeclarationRef) : String := var.vname ++ "_1"

/-! ### The map -/

/-- `symvarslist.put`. -/
def putSymVars (typeName : DeclarationRef → String) (symvarslist : String → Option String)
    (e : Effect) : String → Option String :=
  match e with
  | .symVars var => Function.update symvarslist (symVarsName var) (some (typeName var))
  | .call _ => symvarslist

/-- The map `symvarslist` after some effects. It is static, so `table` may hold what earlier runs
have put into it. -/
def symvarslist (typeName : DeclarationRef → String) (table : String → Option String)
    (effects : List Effect) : String → Option String :=
  effects.foldl (putSymVars typeName) table

/-- `symvarslist.entrySet()`: the entries of a map, in some order. -/
structure EntrySet (symvarslist : String → Option String) (entries : List (String × String)) :
    Prop where
  keys : (entries.map Prod.fst).Nodup
  mem : ∀ v type, (v, type) ∈ entries ↔ symvarslist v = some type

/-- The name of the type of a variable: `getType().name`, as the typechecker has set it. -/
def CheckedStatechart.typeNameOf (c : CheckedStatechart) (var : DeclarationRef) : String :=
  match (c.root.declarationsAt var.state).find? fun d => d.vname = var.vname with
  | some d =>
    match typecheckDeclaration c.types [] d with
    | .ok type => type.name
    | .error _ => ""
  | none => ""

/-! ### The occurrences of symbolic variables -/

section
variable (occurrences : DeclarationRef → List DeclarationRef)

/-- The variables for which the `SymVars` in a result of `sym_eval` were made, in order. -/
def occurrencesWith : Expression Name → List DeclarationRef
  | .name n => occurrences n.declaration
  | .binaryExpression left right _ => occurrencesWith left ++ occurrencesWith right
  | .constant _ | .functionCall _ _ => []

/-- The same for the `SymbolicExpression` of an update of `var`. -/
def updateOccurrencesWith (var : DeclarationRef) : SymbolicExpression → List DeclarationRef
  | .operands left right _ => occurrencesWith occurrences left ++ occurrencesWith occurrences right
  | .expression e => occurrencesWith occurrences e
  | .symVars _ => [var]

end

/-- The same for a name. -/
def SETNode.occurrencesOf : SETNode → DeclarationRef → List DeclarationRef
  | .start, _ => []
  | .instruction var e p, d =>
    if var = d then updateOccurrencesWith p.occurrencesOf var e else p.occurrencesOf d
  | .decision _ p, d | .stateEntry _ p, d | .stateExit _ p, d | .note _ p, d => p.occurrencesOf d

/-- The variables for which the `SymVars` in the expression of a question were made. -/
def Question.occurrences (leaf : SETNode) : Question → List DeclarationRef
  | .condition e | .elseCondition e => occurrencesWith leaf.occurrencesOf e
  | .guard t => occurrencesWith leaf.occurrencesOf t.transition.guard

/-! ### Statements -/

/-- The effects of an assignment at one leaf: `InstructionNode.evaluate_exp`. -/
def assignmentEffects (lhs : Name) : Expression Name → List Effect
  | .functionCall _ _ => [.symVars lhs.declaration]
  | .name _ | .constant _ | .binaryExpression _ _ _ => []

section
variable (maxDepth : Int) (solver : Solver)

mutual

/-- The effects of `executeStatement`. -/
def statementEffects : Statement Name → List SETNode → List Effect
  | .assignmentStatement lhs rhs, leaves => leaves.flatMap fun _ => assignmentEffects lhs rhs
  | .ifStatement condition thenBody elseBody, leaves => leaves.flatMap fun l =>
    .call (l, .condition condition) ::
      ((if solver l (.condition condition) = .sat then
          statementEffects thenBody [branchNode condition true l] else []) ++
        .call (l, .elseCondition condition) ::
          (if solver l (.elseCondition condition) = .sat then
            statementEffects elseBody [branchNode condition false l] else []))
  | .statementList statements, leaves => leaves.flatMap fun l => statementsEffects statements [l]
  | .haltStatement, _ | .expressionStatement _, _ | .skipStatement, _ | .whileStatement _ _, _ => []

/-- The effects of `executeBlock` on the statements of a list. -/
def statementsEffects : List (Statement Name) → List SETNode → List Effect
  | [], _ => []
  | s :: ss, leaves => statementEffects s leaves ++
    statementsEffects ss (executeStatementSym maxDepth solver s leaves).live

end

end

/-! ### States -/

section
variable (root : State Name) (maxDepth : Int) (solver : Solver)

/-- The effects of `enterSuperstate`. -/
def enterSuperstateEffects (s : StateRef) (leaf : SETNode) : List Effect :=
  statementEffects maxDepth solver (root.entryAt s)
    [initializeVariables root s .localScope (.stateEntry s leaf)]

/-- The effects of `enterSubstate`. -/
def enterSubstateEffects (s : StateRef) (leaf : SETNode) : List Effect :=
  statementEffects maxDepth solver (root.entryAt s)
    [initializeVariables root s .parameterScope
      (initializeVariables root s .localScope (.stateEntry s leaf))]

/-- The effects of `exitState`. -/
def exitStateEffects (s : StateRef) (leaf : SETNode) : List Effect :=
  statementEffects maxDepth solver (root.exitAt s) [.stateExit s leaf]

/-- The effects of the action of a transition. -/
def actionEffects (t : PlacedTransition Name) (leaf : SETNode) : List Effect :=
  statementEffects maxDepth solver t.transition.action
    [.note (.action t.state t.transition.name) leaf]

end

/-- The effects of a loop over states, where `f` has the effects `effects`. -/
def everyStateEffects (effects : StateRef → SETNode → List Effect)
    (f : StateRef → SETNode → SymbolicExecutionResult) :
    List StateRef → SymbolicExecutionResult → List Effect
  | [], _ => []
  | s :: states, res =>
    res.live.flatMap (effects s) ++ everyStateEffects effects f states (atEveryLeaf (f s) res)

/-! ### Transitions and rounds -/

section
variable (root : State Name) (maxDepth : Int) (solver : Solver)

/-- The effects of `takeTransition`, behind the loops for the states. -/
def takeTransitionEffects (t : PlacedTransition Name) (states : TransitionStates) (leaf : SETNode) :
    List Effect :=
  let exits := atEveryState (exitStateSym root maxDepth solver) states.sourceStates ⟨[], [leaf]⟩
  let action := atEveryLeaf (fun l => executeBlock maxDepth solver t.transition.action
    (.note (.action t.state t.transition.name) l)) exits
  let enters :=
    atEveryState (enterSuperstate root maxDepth solver) states.destinationSuperstates action
  everyStateEffects (exitStateEffects root maxDepth solver) (exitStateSym root maxDepth solver)
      states.sourceStates ⟨[], [leaf]⟩ ++
    (exits.live.flatMap (actionEffects maxDepth solver t) ++
      (everyStateEffects (enterSuperstateEffects root maxDepth solver)
        (enterSuperstate root maxDepth solver) states.destinationSuperstates action ++
        everyStateEffects (enterSubstateEffects root maxDepth solver)
          (enterSubstate root maxDepth solver) states.destinationSubstates enters))

/-- The effects for one leaf and one transition, when `sat` is the value of
`s.equals("sat")` before. -/
def tryTransitionEffects (sat : Bool) (leaf : SETNode) (t : PlacedTransition Name) : List Effect :=
  .call (leaf, .guard t) ::
    if satAfter sat (solver leaf (.guard t)) then
      match transitionStates root t with
      | some states => takeTransitionEffects root maxDepth solver t states (guardNode t leaf)
      | none => []
    else []

/-- The effects of the pairs of a round. -/
def pairsEffects : (sat : Bool) → List (SETNode × PlacedTransition Name) → List Effect
  | _, [] => []
  | sat, (leaf, t) :: pairs => tryTransitionEffects root maxDepth solver sat leaf t ++
    pairsEffects (satAfter sat (solver leaf (.guard t))) pairs

/-- The effects of a round. -/
def roundEffects (loop : LoopState) : List Effect :=
  pairsEffects root maxDepth solver loop.sat loop.pairs

/-- The effects of the loop over the leaves for a state of the first configuration. -/
def enterFirstEffects (s : StateRef) : List SETNode → List Effect
  | [] => []
  | leaf :: leaves => enterSubstateEffects root maxDepth solver s leaf ++
    if (enterSubstate root maxDepth solver s leaf).live.isEmpty then []
    else enterFirstEffects s leaves

/-- The effects of the loop over the first configuration. -/
def enterFirstStatesEffects : List StateRef → SymbolicExecutionResult → List Effect
  | [], _ => []
  | s :: states, res => enterFirstEffects root maxDepth solver s res.live ++
    enterFirstStatesEffects states (enterFirst root maxDepth solver s [] res.live res.done)

/-- The effects before the main loop. -/
def firstEffects : List Effect :=
  enterFirstStatesEffects root maxDepth solver (firstConfiguration root) ⟨[], [startNode root]⟩

/-- A run of `execute` is at the head of its main loop, after some effects. -/
inductive RunEffects (maxTreeDepth : Int) : List Effect → LoopState → Prop where
  | first {loop : LoopState} (h : firstRound root maxDepth solver = some loop) :
    RunEffects maxTreeDepth (firstEffects root maxDepth solver) loop
  | next {effects : List Effect} {loop loop' : LoopState} (h : RunEffects maxTreeDepth effects loop)
    (live : loop.leaves ≠ [])
    (h' : engineRound root maxDepth solver maxTreeDepth loop = some loop') :
    RunEffects maxTreeDepth (effects ++ roundEffects root maxDepth solver loop) loop'

end

end Stabl
