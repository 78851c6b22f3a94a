import Stabl.Frontend.Typechecker
import Stabl.Simulator.ExecuteStatement

/-!
# `Stabl.Simulator.Simulator`: transitions and runs

The class `simulator.Simulator`, and the loop of `UserEventInSteps.simulate`. A transition
bubbles up from the current atomic state to the lub of source and destination, executes
its action, and enters the states down to the destination. `getAtomicState` goes on from
there to an atomic state.

The fuel bounds the execution of each statement, and the descent of `getAtomicState`.
The static list `validTransitions` is part of the search's result. It is empty while
`i` is 0, and otherwise `i` is its length and `output` its last transition.
-/

set_option autoImplicit false

namespace Stabl

namespace State

variable {ν : Type}

/-- The field `entry` of the state at a position. -/
def entryAt (root : State ν) (p : StateRef) : Statement ν :=
  match root.stateAt p with
  | some s => s.entry
  | none => .skipStatement

/-- The field `exit` of the state at a position. -/
def exitAt (root : State ν) (p : StateRef) : Statement ν :=
  match root.stateAt p with
  | some s => s.exit
  | none => .skipStatement

/-- Whether the state at a position has no substates. -/
def isAtomicAt (root : State ν) (p : StateRef) : Bool :=
  match root.stateAt p with
  | some s => s.states.isEmpty
  | none => true

/-- `maintainsHisotry().value` of the state at a position. -/
def maintainsHistoryAt (root : State ν) (p : StateRef) : Bool :=
  match root.stateAt p with
  | some s => s.history
  | none => false

end State

section
variable (root : State Name)

/-! ### Entering states -/

/-- `eState.enterState(s); ExecuteStatement.executeStatement(s.entry);` -/
def enterAndExecute (fuel : Nat) (s : StateRef) (w : World) : Sim World := do
  let w ← w.enterState root s
  executeStatement fuel (root.entryAt s) (w.record (.entry s))

/-- The substate in which `getAtomicState` goes on. -/
def nextSubstate (s : StateRef) (w : World) : StateRef :=
  if root.maintainsHistoryAt s then w.getHistoryState s else 0 :: s

/-- `Simulator.get_atomic_state`. After an exception the state itself is returned. -/
def getAtomicState : (fuel : Nat) → StateRef → (tag : Nat) → World → Sim (StateRef × World)
  | 0, _, _, _ => .error .outOfFuel
  | fuel + 1, init, tag, w =>
    let entered := if tag = 1 then enterAndExecute root fuel init w else .ok w
    match entered with
    -- The handler prints the exception and goes on to `return init`.
    | .error (.exception w) => .ok (init, w)
    | .error e => .error e
    | .ok w =>
      if root.isAtomicAt init then .ok (init, w)
      else getAtomicState fuel (nextSubstate root init w) 1 w

/-! ### Transitions -/

/-- The first loop of `performTransition`. It ends at `l`, or with the null pointer above
the statechart. -/
def bubbleUp (fuel : Nat) (l : Option StateRef) : StateRef → World → Sim World
  | [], w =>
    if some [] = l then .ok w
    else do
      let w ← executeStatement fuel (root.exitAt []) (w.record (.exit []))
      -- The statechart is left before its superstate is found to be `null`.
      .error (.exception (w.exitState root []))
  | i :: p, w =>
    if some (i :: p) = l then .ok w
    else do
      let w ← executeStatement fuel (root.exitAt (i :: p)) (w.record (.exit (i :: p)))
      bubbleUp fuel l p (w.exitState root (i :: p))

/-- The list `path` of `performTransition`, the destination first. `none` stands for the
null pointer above the statechart. -/
def pathTo (l : Option StateRef) : StateRef → Option (List StateRef)
  | [] => if some [] = l then some [] else none
  | i :: p => if some (i :: p) = l then some [] else (pathTo l p).map ((i :: p) :: ·)

/-- The second half of `performTransition`, after the action. The loop enters the states
above the destination, outermost first. For an empty path it starts at the index `-1`
and throws. -/
def bubbleDown (fuel : Nat) (l : Option StateRef) (destination : StateRef) (w : World) :
    Sim World :=
  match pathTo l destination with
  | none => .error (.exception w)
  | some [] => .error (.exception w)
  | some (_ :: above) => do
    let w ← above.reverse.foldlM (fun w s => enterAndExecute root fuel s w) w
    enterAndExecute root fuel destination w

/-- The action of a transition. -/
def executeAction (fuel : Nat) (t : PlacedTransition Name) (w : World) : Sim World :=
  executeStatement fuel t.transition.action (w.record (.action t.state t.transition.name))

/-- `Simulator.performTransition`. -/
def performTransition (fuel : Nat) (t : PlacedTransition Name) (curr : StateRef) (w : World) :
    Sim World :=
  catchException do
    let l := lub t.transition.source t.transition.destination
    let w ← bubbleUp root fuel l curr w
    let w ← executeAction fuel t w
    bubbleDown root fuel l t.transition.destination w

/-! ### Selection -/

/-- The condition under which `get_valid_transition` takes a transition. A guard that is
no boolean constant throws, and the transition is skipped. -/
def viable (event : String) (t : Transition Name) (w : World) : Bool × World :=
  match evaluate t.guard w with
  | (some (.booleanConstant true), w) =>
    (w.presentInConfiguration t.source && decide (t.trigger = event), w)
  | (_, w) => (false, w)

/-- The loop of `get_valid_transition` over the transitions of the state `p`. -/
def searchState (event : String) (p : StateRef) (ts : List (Transition Name))
    (acc : List (PlacedTransition Name) × World) : List (PlacedTransition Name) × World :=
  ts.foldl (fun acc t =>
    match viable event t acc.2 with
    | (true, w) => (acc.1 ++ [⟨p, t⟩], w)
    | (false, w) => (acc.1, w)) acc

/-- The recursion of `get_valid_transition` from `curr` up to the statechart. -/
def search (event : String) : StateRef → List (PlacedTransition Name) × World →
    List (PlacedTransition Name) × World
  | [], acc => searchState event [] (root.transitionsAt []) acc
  | i :: p, acc => search event p (searchState event (i :: p) (root.transitionsAt (i :: p)) acc)

/-- What `get_valid_transition` ends with: a transition, or a message and `System.exit`. -/
inductive Selection where
  | transition (t : PlacedTransition Name)
  | noViableTransition
  | nonDeterminism (validTransitions : List (PlacedTransition Name))

/-- The end of `get_valid_transition`, when transitions were found. -/
def select : List (PlacedTransition Name) → Selection
  | [] => .noViableTransition
  | [t] => .transition t
  | ts => .nonDeterminism ts

/-- `Simulator.get_valid_transition`. When nothing is found for an event, the search runs
once more with the null event. -/
def getValidTransition (curr : StateRef) (event : String) (w : World) : Selection × World :=
  match search root event curr ([], w) with
  | ([], w) =>
    if event = "null" then (.noViableTransition, w)
    else
      match search root "null" curr ([], w) with
      | (ts, w) => (select ts, w)
  | (ts, w) => (select ts, w)

/-! ### The loop -/

/-- The event of a round of `simulate`. When the queue has none, the user is asked; `typed`
lists the events that are typed in, or is `none` for the answer no. -/
def nextEvent (typed : Option (List String)) (w : World) : String × World :=
  match w.getEvent with
  | ("null", w) =>
    match typed with
    | some es => (w.addEvents es).getEvent
    | none => ("null", w)
  | (event, w) => (event, w)

/-- One round of the loop of `UserEventInSteps.simulate`. -/
def simulateStep (fuel : Nat) (loopHead : StateRef × World) (typed : Option (List String)) :
    Sim (StateRef × World) :=
  let (curr, w) := loopHead
  let (event, w) := nextEvent typed w
  match getValidTransition root curr event w with
  | (.transition t, w) => do
    let w ← performTransition root fuel t curr w
    getAtomicState root fuel t.transition.destination 0 w
  -- Both messages are followed by `System.exit`.
  | _ => .error .exit

/-- The world in which the simulation begins. -/
def World.initial (events : List String) (stdin : List (Option Int32)) : World :=
  ⟨ExecutionState.initial root events, stdin, []⟩

/-- `UserEventInSteps.simulate`, up to the head of its loop after one round for each of
the user's replies. -/
def simulate (events : List String) (fuel : Nat) (stdin : List (Option Int32))
    (replies : List (Option (List String))) : Sim (StateRef × World) := do
  let start ← getAtomicState root fuel [] 1 (World.initial root events stdin)
  replies.foldlM (simulateStep root fuel) start

/-- One round of the loop of the modes that ask for no events. -/
def preEventStep (fuel : Nat) (loopHead : StateRef × World) : Sim (StateRef × World) :=
  let (curr, w) := loopHead
  let (event, w) := w.getEvent
  match getValidTransition root curr event w with
  | (.transition t, w) => do
    let w ← performTransition root fuel t curr w
    getAtomicState root fuel t.transition.destination 0 w
  | _ => .error .exit

/-- The loop of the modes that ask for no events, after `n` rounds. -/
def preEventRounds (fuel : Nat) : (n : Nat) → StateRef × World → Sim (StateRef × World)
  | 0, head => .ok head
  | n + 1, head => do
    let head ← preEventStep root fuel head
    preEventRounds fuel n head

/-- `PreEventOneShot.simulate`, up to the head of its loop after `n` rounds. -/
def preEventOneShot (events : List String) (fuel : Nat) (stdin : List (Option Int32)) (n : Nat) :
    Sim (StateRef × World) := do
  let start ← getAtomicState root fuel [] 1 (World.initial root events stdin)
  preEventRounds root fuel n start

/-- `PreEventInSteps.simulate`. It also waits for a key in every round. -/
def preEventInSteps (events : List String) (fuel : Nat) (stdin : List (Option Int32)) (n : Nat) :
    Sim (StateRef × World) := preEventOneShot root events fuel stdin n

end

/-- Some run of the statechart is at the head of the loop, in `curr` and `w`. -/
def AtLoopHead (c : CheckedStatechart) (curr : StateRef) (w : World) : Prop :=
  ∃ fuel stdin replies, simulate c.root c.events fuel stdin replies = .ok (curr, w)

end Stabl
