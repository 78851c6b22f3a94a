import Stabl.Simulator.Simulator

/-!
# `Stabl.Simulator.StateCalls`: the calls of a run, in order

Ghost functions beside those of the simulator. They list the calls of `enterState` and
`exitState`, and the steps of `get_atomic_state` into a substate, each with the world in
which it is made. The log has the calls too, but not their worlds.

A run that stops early has the calls that it has made until then.
-/

set_option autoImplicit false

namespace Stabl

/-- A call of `enterState` or of `exitState`, or of `get_atomic_state` by itself: from the
state `s` it goes on with `child`. -/
inductive StateCall where
  | enter (s : StateRef) (w : World)
  | exit (s : StateRef) (w : World)
  | descend (s child : StateRef) (w : World)

/-- The world before the call. -/
def StateCall.world : StateCall → World
  | .enter _ w | .exit _ w | .descend _ _ w => w

/-- The calls that follow a step, unless it stops. -/
def Sim.calls {α : Type} (x : Sim α) (f : α → List StateCall) : List StateCall :=
  match x with
  | .ok a => f a
  | .error _ => []

section
variable (root : State Name) (fuel : Nat)

/-- The calls of a loop that enters states. -/
def enterCalls : List StateRef → World → List StateCall
  | [], _ => []
  | s :: states, w => .enter s w :: (enterAndExecute root fuel s w).calls (enterCalls states)

/-- The calls of the first loop of `performTransition`. -/
def bubbleUpCalls (l : Option StateRef) : StateRef → World → List StateCall
  | [], w =>
    if some [] = l then []
    else (executeStatement fuel (root.exitAt []) (w.record (.exit []))).calls fun w => [.exit [] w]
  | i :: p, w =>
    if some (i :: p) = l then []
    else (executeStatement fuel (root.exitAt (i :: p)) (w.record (.exit (i :: p)))).calls fun w =>
      .exit (i :: p) w :: bubbleUpCalls l p (w.exitState root (i :: p))

/-- The calls of the second half of `performTransition`. -/
def bubbleDownCalls (l : Option StateRef) (destination : StateRef) (w : World) : List StateCall :=
  match pathTo l destination with
  | none => []
  | some path => enterCalls root fuel path.reverse w

/-- The calls of `performTransition`. -/
def performTransitionCalls (t : PlacedTransition Name) (curr : StateRef) (w : World) :
    List StateCall :=
  let l := lub t.transition.source t.transition.destination
  bubbleUpCalls root fuel l curr w ++
    (bubbleUp root fuel l curr w).calls fun w =>
      (executeAction fuel t w).calls (bubbleDownCalls root fuel l t.transition.destination)

/-- The calls of `get_atomic_state`. -/
def getAtomicStateCalls : (fuel : Nat) → StateRef → (tag : Nat) → World → List StateCall
  | 0, _, _, _ => []
  | fuel + 1, init, tag, w =>
    (if tag = 1 then [.enter init w] else []) ++
      Sim.calls (if tag = 1 then enterAndExecute root fuel init w else .ok w) fun w =>
        if root.isAtomicAt init then []
        else .descend init (nextSubstate root init w) w ::
          getAtomicStateCalls fuel (nextSubstate root init w) 1 w

/-- The calls of a round. -/
def simulateStepCalls (loopHead : StateRef × World) (typed : Option (List String)) :
    List StateCall :=
  let (curr, w) := loopHead
  let (event, w) := nextEvent typed w
  match getValidTransition root curr event w with
  | (.transition t, w) => performTransitionCalls root fuel t curr w ++
    (performTransition root fuel t curr w).calls
      (getAtomicStateCalls root fuel t.transition.destination 0)
  | _ => []

/-- The calls of the rounds from a head of the loop on. -/
def roundsCalls : List (Option (List String)) → StateRef × World → List StateCall
  | [], _ => []
  | typed :: replies, loopHead => simulateStepCalls root fuel loopHead typed ++
    (simulateStep root fuel loopHead typed).calls (roundsCalls replies)

/-- The calls of a run. -/
def simulateCalls (events : List String) (stdin : List (Option Int32))
    (replies : List (Option (List String))) : List StateCall :=
  getAtomicStateCalls root fuel [] 1 (World.initial root events stdin) ++
    (getAtomicState root fuel [] 1 (World.initial root events stdin)).calls
      (roundsCalls root fuel replies)

end

end Stabl
