import Mathlib.Data.Finset.Card
import Stabl.Ast.Hierarchy
import Stabl.Lib.Puts

/-!
# `Stabl.Metric.Metric`: the scope metrics

The class `Metric`. Its methods run down the state tree, do something at a state and then go
on with the substates: `State.visit` is that recursion. A map is a partial function, filled
under the full names of variables. A set of `Transition` objects is a finite set of
`TransitionRef`s, since `Transition` has no `equals` of its own. The numbers count objects, so
they are natural numbers.
-/

set_option autoImplicit false

namespace Stabl

variable {ν : Type}

mutual

/-- The recursion that does `f` at a state, and then visits its substates. -/
def State.visit {β : Type} (f : StateRef → State ν → β → β) (p : StateRef) :
    State ν → β → β
  | ⟨name, declarations, entry, exit, states, transitions, history, region, shell, fin⟩, b =>
    statesVisit f p 0 states
      (f p ⟨name, declarations, entry, exit, states, transitions, history, region, shell, fin⟩ b)

/-- The visits of the substates of `p`, from the `i`-th on. -/
def statesVisit {β : Type} (f : StateRef → State ν → β → β) (p : StateRef) (i : Nat) :
    List (State ν) → β → β
  | [], b => b
  | s :: ss, b => statesVisit f p (i + 1) ss (s.visit f (i :: p) b)

end

/-- A `Transition` object, by its state and its index among the transitions of the state. -/
structure TransitionRef where
  state : StateRef
  index : Nat
deriving DecidableEq, Repr

/-- The transition that a `TransitionRef` stands for. -/
def State.transitionAt (root : State ν) (t : TransitionRef) : Option (Transition ν) :=
  (root.transitionsAt t.state)[t.index]?

namespace Metric

/-- The map `scope`. -/
abbrev ScopeMap := String → Option Nat

mutual

/-- `Metric.getNumberOfStates`. -/
def getNumberOfStates : State ν → Nat
  | ⟨_, _, _, _, states, _, _, _, _, _⟩ => addNumbersOfStates 1 states

/-- The loop of `Metric.getNumberOfStates`. -/
def addNumbersOfStates (numberOfStates : Nat) : List (State ν) → Nat
  | [] => numberOfStates
  | s :: ss => addNumbersOfStates (numberOfStates + getNumberOfStates s) ss

end

/-- The loop that puts the number `n` under the full names of a state's variables. -/
def putDeclarations (root : State ν) (p : StateRef) (declarations : List Declaration) (n : Nat)
    (scope : ScopeMap) : ScopeMap :=
  declarations.foldl (fun scope declaration =>
    match getFullVName root ⟨p, declaration.vname⟩ with
    | some full => Puts.put scope (full, n)
    -- Every state of the tree has a full name.
    | none => scope) scope

/-- What `Metric.scope_S` and `Metric.scope_T` do at a state. -/
def putNumberOfStates (root : State ν) (p : StateRef) (state : State ν) (scope : ScopeMap) :
    ScopeMap :=
  putDeclarations root p state.declarations.toList (getNumberOfStates state) scope

/-- `Metric.scope_S`. -/
def scopeS (root : State ν) (p : StateRef) (state : State ν) (scope : ScopeMap) : ScopeMap :=
  state.visit (putNumberOfStates root) p scope

/-- `Metric.scope_T`, with the same body. -/
def scopeT (root : State ν) (p : StateRef) (state : State ν) (scope : ScopeMap) : ScopeMap :=
  state.visit (putNumberOfStates root) p scope

/-- The loop of `Metric.allTransitions` over the transitions of a state. -/
def addTransitions (p : StateRef) (state : State ν) (transitions : Finset TransitionRef) :
    Finset TransitionRef :=
  (List.range state.transitions.length).foldl
    (fun transitions i => insert ⟨p, i⟩ transitions) transitions

/-- `Metric.allTransitions`. -/
def allTransitions (p : StateRef) (state : State ν) (transitions : Finset TransitionRef) :
    Finset TransitionRef :=
  state.visit addTransitions p transitions

/-- `Metric.t_IN`. -/
def tIn (root : State ν) (p : StateRef) (allTransitions : Finset TransitionRef) :
    Finset TransitionRef :=
  allTransitions.filter fun t => (root.transitionAt t).map Transition.destination = some p

/-- `Metric.t_OUT`. -/
def tOut (root : State ν) (p : StateRef) (allTransitions : Finset TransitionRef) :
    Finset TransitionRef :=
  allTransitions.filter fun t => (root.transitionAt t).map Transition.source = some p

/-- `Metric.getNumberOfTransitions`. -/
def getNumberOfTransitions (p : StateRef) (state : State ν) : Nat :=
  (allTransitions p state ∅).card

/-- What `Wscope` and `Rscope` do with their number `n`: it is put for the variables of the
state, and the loop over the substates calls `scope_T`. -/
def putScopes (root : State ν) (p : StateRef) (state : State ν) (n : Nat) (scope : ScopeMap) :
    ScopeMap :=
  state.states.zipIdx.foldl (fun scope (s, i) => scopeT root (i :: p) s scope)
    (putDeclarations root p state.declarations.toList n scope)

/-- `Metric.Wscope`. -/
def wscope (root : State ν) (p : StateRef) (state : State ν) (scope : ScopeMap)
    (allTransitions : Finset TransitionRef) : ScopeMap :=
  let numberOfStates := getNumberOfStates state
  let numberOfTransitions := getNumberOfTransitions p state
  let tIN := tIn root p allTransitions
  putScopes root p state (numberOfStates + numberOfTransitions + tIN.card) scope

/-- `Metric.Rscope`. -/
def rscope (root : State ν) (p : StateRef) (state : State ν) (scope : ScopeMap)
    (allTransitions : Finset TransitionRef) : ScopeMap :=
  let numberOfStates := getNumberOfStates state
  let numberOfTransitions := getNumberOfTransitions p state
  let tOUT := tOut root p allTransitions
  putScopes root p state (numberOfStates + numberOfTransitions + tOUT.card) scope

end Metric

end Stabl
