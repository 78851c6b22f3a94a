import Stabl.SymbolicExecution.Symbols

/-!
# `Stabl.SymbolicExecution.Process`: two statecharts in one process

The set `conf` and the map `symvarslist` are static, so a call of `execute` begins with what the
calls before it have left there. The set is linked: it keeps the order of insertion.

No object of one statechart is an object of another one. So the statecharts of a process are the
children of one state, and the references in the `k`-th of them end with `k` (`relocate`). This
state stands for `null`, and it has no code. Where the statecharts are accepted, no climbing loop
gets to it.

The functions of the engine are those of `Engine` on this tree. Those that begin at the root of
the tree there begin at a statechart here. `executeIn` is `execute` for a whole tree
(`executeSym_eq`).
-/

set_option autoImplicit false

namespace Stabl

open EnterExit

/-! ### The objects of a process -/

section
variable (k : Nat)

def DeclarationRef.relocate (d : DeclarationRef) : DeclarationRef := ⟨d.state ++ [k], d.vname⟩

def Name.relocate (n : Name) : Name := { n with declaration := n.declaration.relocate k }

mutual

def Expression.relocate : Expression Name → Expression Name
  | .name n => .name (n.relocate k)
  | .constant c => .constant c
  | .binaryExpression left right operator =>
    .binaryExpression left.relocate right.relocate operator
  | .functionCall name argumentList => .functionCall name (relocateArguments argumentList)

def relocateArguments : List (Expression Name) → List (Expression Name)
  | [] => []
  | e :: es => e.relocate :: relocateArguments es

end

mutual

def Statement.relocate : Statement Name → Statement Name
  | .statementList statements => .statementList (relocateStatements statements)
  | .assignmentStatement lhs rhs => .assignmentStatement (lhs.relocate k) (rhs.relocate k)
  | .ifStatement condition thenBody elseBody =>
    .ifStatement (condition.relocate k) thenBody.relocate elseBody.relocate
  | .whileStatement condition body => .whileStatement (condition.relocate k) body.relocate
  | .expressionStatement expression => .expressionStatement (expression.relocate k)
  | .haltStatement => .haltStatement
  | .skipStatement => .skipStatement

def relocateStatements : List (Statement Name) → List (Statement Name)
  | [] => []
  | s :: ss => s.relocate :: relocateStatements ss

end

def Transition.relocate (t : Transition Name) : Transition Name :=
  { t with
    guard := t.guard.relocate k
    action := t.action.relocate k
    source := t.source ++ [k]
    destination := t.destination ++ [k] }

mutual

/-- A statechart, or a part of it, as the `k`-th statechart of a process. -/
def State.relocate : State Name → State Name
  | ⟨name, declarations, entry, exit, states, transitions, history, region, shell, fin⟩ =>
    ⟨name, declarations, entry.relocate k, exit.relocate k, relocateStates states,
      transitions.map (Transition.relocate k), history, region, shell, fin⟩

def relocateStates : List (State Name) → List (State Name)
  | [] => []
  | s :: ss => s.relocate :: relocateStates ss

end

end

/-- The process with two statecharts. -/
def process (a b : State Name) : State Name where
  name := ""
  declarations := .empty
  entry := .statementList []
  exit := .statementList []
  states := [a.relocate 0, b.relocate 1]
  transitions := []
  history := false
  region := false
  shell := false
  fin := false

/-- The name of the type of a variable of the process. -/
def processTypeName (a b : CheckedStatechart) (var : DeclarationRef) : String :=
  match var.state.getLast? with
  | some 0 => a.typeNameOf ⟨var.state.dropLast, var.vname⟩
  | some 1 => b.typeNameOf ⟨var.state.dropLast, var.vname⟩
  | _ => ""

/-- The node of the source: the path without its ghosts. -/
def SETNode.source : SETNode → SETNode
  | .start => .start
  | .instruction var expression p => .instruction var expression p.source
  | .decision value p => .decision value p.source
  | .stateEntry s p => .stateEntry s p.source
  | .stateExit s p => .stateExit s p.source
  | .note _ p => p.source

/-! ### `execute` on one of the statecharts -/

section
variable (root : State Name) (chart : StateRef) (maxDepth : Int) (solver : Solver)

/-- `get_all_states`. -/
def chartPositions : List StateRef :=
  match root.stateAt chart with
  | some s => s.positions chart
  | none => []

/-- `all_ts`. -/
def chartTransitions : List (PlacedTransition Name) :=
  (chartPositions root chart).flatMap fun p => (root.transitionsAt p).map fun t => ⟨p, t⟩

/-- The node with which `execute` starts. -/
def chartStart : SETNode :=
  (chartPositions root chart).foldl (fun leaf s => initializeVariables root s .staticScope leaf)
    .start

/-- `conf` when the first configuration is added to it. -/
def chartConfiguration (conf : List StateRef) : List StateRef :=
  replay conf ((chart :: root.firstSubstatesAt chart).map .enter)

/-- `execute` up to the head of its main loop. The loop over the states goes over all of `conf`. -/
def firstRoundIn (conf : List StateRef) : Option LoopState :=
  if (root.firstSubstatesAt chart).isEmpty then none
  else
    let conf := chartConfiguration root chart conf
    let res := enterFirstStates root maxDepth solver conf ⟨[], [chartStart root chart]⟩
    some
      { leaves := res.live
        done := res.done
        conf := conf
        outTs := computeOutts root conf (chartTransitions root chart)
        sat := false }

/-- The effects before the main loop. -/
def firstEffectsIn (conf : List StateRef) : List Effect :=
  enterFirstStatesEffects root maxDepth solver (chartConfiguration root chart conf)
    ⟨[], [chartStart root chart]⟩

/-- One round of the main loop: only the transitions of the statechart are outgoing. -/
def engineRoundIn (maxTreeDepth : Int) (loop : LoopState) : Option LoopState :=
  (engineRound root maxDepth solver maxTreeDepth loop).map fun loop =>
    { loop with outTs := computeOutts root loop.conf (chartTransitions root chart) }

/-- What a call of `execute` has done: its effects, and its variables at the end. -/
structure Execution where
  effects : List Effect
  loop : LoopState

/-- The main loop of `execute`, for a number of rounds that is enough. -/
def mainLoopIn (maxTreeDepth : Int) : (fuel : Nat) → Execution → Option Execution
  | 0, _ => none
  | fuel + 1, e =>
    if e.loop.leaves.isEmpty then some e
    else (engineRoundIn root chart maxDepth solver maxTreeDepth e.loop).bind fun loop =>
      mainLoopIn maxTreeDepth fuel ⟨e.effects ++ roundEffects root maxDepth solver e.loop, loop⟩

/-- `execute`, which begins with the static set `conf`. -/
def executeIn (maxTreeDepth : Int) (conf : List StateRef) (fuel : Nat) : Option Execution :=
  (firstRoundIn root chart maxDepth solver conf).bind fun loop =>
    mainLoopIn root chart maxDepth solver maxTreeDepth fuel
      ⟨firstEffectsIn root chart maxDepth solver conf, loop⟩

end

end Stabl
