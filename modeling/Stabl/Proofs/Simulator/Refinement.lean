import Stabl.Lib.HierarchicalMachine
import Stabl.Proofs.Simulator.EventQueue
import Stabl.Proofs.Simulator.Steps

/-!
# `Stabl.Proofs.Simulator.Refinement`: the simulator is a hierarchical state machine

`machineChart` is what is left of a statechart without its code: which states are atomic, and
which are marked `HISTORY`. `simulate_refines` says that a run of the simulator is a run of the
machine on it, which makes one move for each transition that is fired. The current state is the
leaf of the machine, the configuration its chain, the state history its memory, and the exits,
actions and entries in the log are its steps.

A machine run is a function of its moves. So the data of the statechart, its events and its input
have a say in the choice of the transitions only (`simulate_moves`).
-/

set_option autoImplicit false

namespace Stabl

open HierarchicalMachine Result TreeAddress World

/-- The tree of the statechart, without data and code. -/
def machineChart (root : State Name) : Chart := ⟨root.isAtomicAt, root.maintainsHistoryAt⟩

/-- The move of a transition; its label is the transition's place and name. -/
def moveOf (t : PlacedTransition Name) : Turn (StateRef × String) :=
  ⟨t.state, t.transition.destination, (t.state, t.transition.name)⟩

/-- An exit, action or entry, as a step of the machine. -/
def TransitionStep.machineStep : TransitionStep → Step (StateRef × String)
  | .exit s => .exit s
  | .action state transition => .act (state, transition)
  | .enter s => .enter s

/-- The steps of the machine in a log. -/
def machineSteps (log : List Event) : List (Step (StateRef × String)) :=
  (logSteps log).map TransitionStep.machineStep

theorem machineStep_exits (states : List StateRef) :
    (states.map TransitionStep.exit).map TransitionStep.machineStep = states.map Step.exit :=
  List.map_map

theorem machineStep_enters (states : List StateRef) :
    (states.map TransitionStep.enter).map TransitionStep.machineStep = states.map Step.enter :=
  List.map_map

section
variable {root : State Name}

/-! ### The memory and the descent -/

theorem lastChild_eq_remember (exits : List StateRef) (stateHistory : StateRef → Option StateRef) :
    lastChild exits stateHistory = remember exits stateHistory := by
  funext s
  have hsuper : ∀ q : StateRef, getSuperstate q = q.tail? := by
    intro q
    cases q <;> rfl
  rw [lastChild, remember]
  simp only [hsuper]

theorem nextSubstate_eq_child (s : StateRef) (w : World) :
    nextSubstate root s w = (machineChart root).child w.eState.stateHistory s := by
  unfold nextSubstate Chart.child getHistoryState machineChart
  split
  · split
    · rename_i hc
      rw [hc]
      rfl
    · rename_i hnone
      rw [hnone]
      rfl
  · rfl

/-- The descent that enters `p` is the one of the machine. -/
theorem getAtomicState_descends {fuel : Nat} : ∀ {p : StateRef} {w : World} {r : StateRef × World},
    Entering root p w → getAtomicState root fuel p 1 w = .ok r → ∃ below,
      Descends (machineChart root) w.eState.stateHistory p r.1 below ∧
        StepsTo ((p :: below).map .enter) w r.2 := by
  induction fuel with
  | zero =>
      intro p w r _ h
      cases h
  | succ fuel ih =>
      intro p w r hin h
      rw [getAtomicState] at h
      simp only [if_true] at h
      split at h
      · rename_i w₁ hthrow
        exact absurd hthrow hin.noException
      · cases h
      · rename_i w₁ henter
        have hsteps := (enterAndExecute_steps henter).1
        have hin₁ := hin.enter henter
        split at h
        · rename_i hatomic
          obtain rfl := Except.ok.inj h
          exact ⟨[], .leaf hatomic, hsteps⟩
        · rename_i hatomic
          obtain ⟨below, hdescends, hbelow⟩ := ih (hin₁.nextSubstate hatomic) h
          rw [nextSubstate_eq_child, hsteps.stateHistory] at hdescends hbelow
          exact ⟨_, .child (by simpa [machineChart] using hatomic) hdescends, hsteps.trans hbelow⟩

/-- So is the descent below a state that has been entered already. -/
theorem getAtomicState_descends_below {fuel : Nat} {p : StateRef} {w : World}
    {r : StateRef × World} (hin : InState root p w)
    (h : getAtomicState root fuel p 0 w = .ok r) : ∃ below,
      Descends (machineChart root) w.eState.stateHistory p r.1 below ∧
        StepsTo (below.map .enter) w r.2 := by
  cases fuel with
  | zero => cases h
  | succ fuel =>
      rw [getAtomicState] at h
      simp only [Nat.reduceEqDiff, if_false] at h
      split at h
      · rename_i hatomic
        obtain rfl := Except.ok.inj h
        exact ⟨[], .leaf hatomic, .rfl w⟩
      · rename_i hatomic
        obtain ⟨below, hdescends, hbelow⟩ :=
          getAtomicState_descends (hin.nextSubstate hatomic) h
        rw [nextSubstate_eq_child] at hdescends hbelow
        exact ⟨_, .child (by simpa [machineChart] using hatomic) hdescends, hbelow⟩

/-! ### One round -/

/-- A transition with the descent after it is one move of the machine. -/
theorem performTransition_fires {t : PlacedTransition Name} {curr : StateRef}
    (hlub : lub t.transition.source t.transition.destination = some t.state)
    (hcurr : t.state <:+ curr) (hdest : (root.stateAt t.transition.destination).isSome)
    {fuel fuel' : Nat} {w w' : World} {r : StateRef × World} (hin : InState root curr w)
    (hperform : performTransition root fuel t curr w = .ok w')
    (hdescend : getAtomicState root fuel' t.transition.destination 0 w' = .ok r) : ∃ steps,
      Fires (machineChart root) ⟨curr, w.eState.stateHistory⟩ (moveOf t)
          ⟨r.1, r.2.eState.stateHistory⟩ steps ∧
        machineSteps r.2.log = machineSteps w.log ++ steps := by
  obtain ⟨w₁, w₂, hup, haction, hdown⟩ := (performTransition_eq_ok hlub hcurr).mp hperform
  have hsuffix : t.state <:+ t.transition.destination := (lub_proper hlub).2.1
  have hleaves := bubbleUp_steps hcurr hup
  have hact : StepsTo [.action t.state t.transition.name] w₁ w₂ :=
    .of_record rfl (executeStatement_computesTo haction)
  -- The way down does not throw.
  have hin₁ : InState root t.state w₁ := hin.bubbleUp hcurr hup
  have hin₂ : InState root t.state w₂ :=
    (hin₁.record rfl).computesTo (executeStatement_computesTo haction)
  have hpath : enterPath root fuel t.state t.transition.destination w₂ = .ok w' :=
    hdown.resolve_right (hin₂.enterPath_noException hsuffix hdest)
  have hway : StepsTo ((climb t.state t.transition.destination).reverse.map .enter) w₂ w' :=
    (foldlM_enterAndExecute_steps root fuel _ w₂ w').1 hpath
  obtain ⟨below, hdescends, hbelow⟩ :=
    getAtomicState_descends_below (hin₂.enterPath hsuffix hdest hpath) hdescend
  have hmemory : w'.eState.stateHistory = remember (climb t.state curr) w.eState.stateHistory := by
    funext s
    rw [hway.stateHistory, hact.stateHistory, hleaves.stateHistory, lastChild_eq_remember]
  rw [← hbelow.stateHistory] at hdescends hmemory
  refine ⟨_, ⟨⟨hcurr, hsuffix, (lub_proper hlub).2.2⟩, hmemory, below, hdescends, rfl⟩, ?_⟩
  unfold machineSteps
  rw [hbelow.log, hway.log, hact.log, hleaves.log]
  simp only [List.map_append, machineStep_exits, machineStep_enters, List.append_assoc,
    List.map_cons, List.singleton_append]
  rfl

end

section
variable {sc : Statechart} {c : CheckedStatechart}

/-- A round is the move of its transition. -/
theorem simulateStep_fires (hc : typecheck sc = .ok c) {fuel : Nat} {head head' : StateRef × World}
    {typed : Option (List String)} (hin : InState c.root head.1 head.2)
    (h : simulateStep c.root fuel head typed = .ok head') : ∃ round steps,
      roundOf c.root head typed = some round ∧
        Fires (machineChart c.root) ⟨head.1, head.2.eState.stateHistory⟩ (moveOf round.transition)
          ⟨head'.1, head'.2.eState.stateHistory⟩ steps ∧
        machineSteps head'.2.log = machineSteps head.2.log ++ steps ∧
          InState c.root head'.1 head'.2 := by
  obtain ⟨t, w₁, w₂, hselect, hperform, hatomic⟩ := simulateStep_eq_ok.mp h
  have hround : roundOf c.root head typed =
      some ⟨(nextEvent typed head.2).1, typedEvents typed head.2, t⟩ := by
    rw [roundOf, hselect]
  obtain ⟨q, hq⟩ := nextEvent_world typed head.2
  rw [hq] at hselect
  obtain ⟨hcomp, hcurr, hplaced, _⟩ := getValidTransition_transition hselect
  obtain ⟨hlub, _, hdest⟩ := lub_of_accepted hc hplaced
  have hqueue : InState c.root head.1
      { head.2 with eState := { head.2.eState with eventQueue := q } } :=
    ⟨hin.sound.eventQueue q, hin.configuration, hin.valid⟩
  have hin₁ := hqueue.computesTo hcomp
  have hsearch := StepsTo.of_computesTo hcomp
  obtain ⟨steps, hfires, hsteps⟩ :=
    performTransition_fires hlub hcurr hdest hin₁ hperform hatomic
  refine ⟨_, steps, hround, ?_, ?_, ?_⟩
  · rw [hsearch.stateHistory] at hfires
    exact hfires
  · rw [hsteps, machineSteps, hsearch.log, List.append_nil]
    rfl
  · have hin₂ := hin₁.performTransition hlub hcurr hdest hperform
    exact (getAtomicState_inState (fun h => absurd h (by decide)) (fun _ => hin₂) hatomic).1

/-- Any number of rounds. -/
theorem rounds_run (hc : typecheck sc = .ok c) {fuel : Nat}
    {replies : List (Option (List String))} {head head' : StateRef × World}
    {moves : List (Turn (StateRef × String))} (hin : InState c.root head.1 head.2)
    (hrun : Run (machineChart c.root) moves ⟨head.1, head.2.eState.stateHistory⟩
      (machineSteps head.2.log))
    (h : replies.foldlM (simulateStep c.root fuel) head = .ok head') :
    Run (machineChart c.root)
        (moves ++ (roundsOf c.root fuel head replies).map fun round => moveOf round.transition)
        ⟨head'.1, head'.2.eState.stateHistory⟩ (machineSteps head'.2.log) ∧
      InState c.root head'.1 head'.2 := by
  induction replies generalizing head moves with
  | nil =>
      rw [List.foldlM_nil, pure_eq_ok] at h
      subst h
      rw [roundsOf, List.map_nil, List.append_nil]
      exact ⟨hrun, hin⟩
  | cons typed rest ih =>
      rw [List.foldlM_cons, bind_eq_ok] at h
      obtain ⟨mid, hstep, hrest⟩ := h
      obtain ⟨round, steps, hround, hfires, hsteps, hin'⟩ := simulateStep_fires hc hin hstep
      have hrun' : Run (machineChart c.root) (moves ++ [moveOf round.transition])
          ⟨mid.1, mid.2.eState.stateHistory⟩ (machineSteps mid.2.log) :=
        hsteps ▸ .fire hrun hfires
      have hmore := ih hin' hrun' hrest
      rw [roundsOf, hround, hstep, List.map_cons]
      rwa [List.append_assoc, List.singleton_append] at hmore

/-- The transitions that a run fires, as moves of the machine. -/
def movesOf (c : CheckedStatechart) (fuel : Nat) (stdin : List (Option Int32))
    (replies : List (Option (List String))) : List (Turn (StateRef × String)) :=
  match getAtomicState c.root fuel [] 1 (World.initial c.root c.events stdin) with
  | .ok start => (roundsOf c.root fuel start replies).map fun round => moveOf round.transition
  | .error _ => []

theorem simulate_run (hc : typecheck sc = .ok c) (hstatics : StaticsAtTop c.root) {fuel : Nat}
    {stdin : List (Option Int32)} {replies : List (Option (List String))} {curr : StateRef}
    {w : World} (h : simulate c.root c.events fuel stdin replies = .ok (curr, w)) :
    Run (machineChart c.root) (movesOf c fuel stdin replies) ⟨curr, w.eState.stateHistory⟩
        (machineSteps w.log) ∧
      InState c.root curr w := by
  obtain ⟨start, hstart, hrun⟩ := bind_eq_ok.mp h
  have hentering := initial_entering hstatics c.events stdin
  have hin : InState c.root start.1 start.2 :=
    (getAtomicState_inState (fun _ => hentering) (fun h => absurd rfl h) hstart).1
  obtain ⟨below, hdescends, hsteps⟩ := getAtomicState_descends hentering hstart
  rw [(initial_histories c.root c.events stdin).2] at hdescends
  have hhistory : start.2.eState.stateHistory = fun _ => none :=
    hsteps.stateHistory.trans (initial_histories c.root c.events stdin).2
  have hlog : machineSteps start.2.log = ([] :: below).map Step.enter := by
    rw [machineSteps, hsteps.log, List.map_append, machineStep_enters]
    rfl
  have hbegin : Run (machineChart c.root) [] ⟨start.1, start.2.eState.stateHistory⟩
      (machineSteps start.2.log) := by
    rw [hhistory, hlog]
    exact .begin hdescends
  rw [movesOf, hstart]
  exact rounds_run hc hin hbegin hrun

/-- A run of the simulator is a run of the hierarchical machine with one move for each round: the
current state is the leaf, the configuration its chain, the state history the memory, and the
exits, actions and entries in the log are the steps. -/
theorem simulate_refines (hc : typecheck sc = .ok c) (hstatics : StaticsAtTop c.root) {fuel : Nat}
    {stdin : List (Option Int32)} {replies : List (Option (List String))} {curr : StateRef}
    {w : World} (h : simulate c.root c.events fuel stdin replies = .ok (curr, w)) :
    Run (machineChart c.root) (movesOf c fuel stdin replies) ⟨curr, w.eState.stateHistory⟩
        (machineSteps w.log) ∧
      (movesOf c fuel stdin replies).length = replies.length ∧
      w.eState.configuration = chain curr := by
  obtain ⟨hrun, hin⟩ := simulate_run hc hstatics h
  obtain ⟨start, hstart, hrounds⟩ := bind_eq_ok.mp h
  have hlength := (rounds_conserve hc (start_eventQueue hstart).1 hrounds).1
  refine ⟨hrun, ?_, hin.configuration⟩
  rw [movesOf, hstart, List.length_map, hlength]

end

/-- Take two statecharts with the same tree, but with code, data and events of their own, and a
run of each. If the runs fire transitions with the same ways, they end in the same configuration,
with the same state history, and they have made the same exits, actions and entries. A state
remembers the substate that these steps have left last. -/
theorem simulate_moves {sc sc' : Statechart} {c c' : CheckedStatechart}
    (hc : typecheck sc = .ok c) (hc' : typecheck sc' = .ok c') (hstatics : StaticsAtTop c.root)
    (hstatics' : StaticsAtTop c'.root) (htree : machineChart c.root = machineChart c'.root)
    {fuel fuel' : Nat} {stdin stdin' : List (Option Int32)}
    {replies replies' : List (Option (List String))}
    (hmoves : movesOf c fuel stdin replies = movesOf c' fuel' stdin' replies')
    {curr curr' : StateRef} {w w' : World}
    (h : simulate c.root c.events fuel stdin replies = .ok (curr, w))
    (h' : simulate c'.root c'.events fuel' stdin' replies' = .ok (curr', w')) :
    curr = curr' ∧ w.eState.configuration = w'.eState.configuration ∧
      w.eState.stateHistory = w'.eState.stateHistory ∧
      machineSteps w.log = machineSteps w'.log ∧
      ∀ s, w.eState.stateHistory s =
        (exits (machineSteps w.log)).reverse.find? fun q => q.tail? = some s := by
  obtain ⟨hrun, hin⟩ := simulate_run hc hstatics h
  obtain ⟨hrun', hin'⟩ := simulate_run hc' hstatics' h'
  rw [← htree, ← hmoves] at hrun'
  obtain ⟨hmachine, hsteps⟩ := hrun.deterministic hrun'
  obtain ⟨rfl, hhistory⟩ := Machine.mk.inj hmachine
  exact ⟨rfl, hin.configuration.trans hin'.configuration.symm, hhistory, hsteps, hrun.last_eq⟩

/-! ### The courier -/

/-- The machine of the courier has made two moves, and remembers that `Driving` was left. -/
theorem simulate_refines_courier :
    (movesOf (accepted courier) 10 [] [none, none]).length = 2 ∧ ∃ last,
      Run (machineChart (accepted courier).root) (movesOf (accepted courier) 10 [] [none, none])
        ⟨[0], last⟩ (machineSteps (loopHead (accepted courier) 10 [] [none, none]).2.log) := by
  have hleaf : (loopHead (accepted courier) 10 [] [none, none]).1 = [0] := by decide +kernel
  obtain ⟨hrun, hlength, _⟩ := simulate_refines courier_accepted (by decide)
    (loopHead_run (accepted courier) 10 [] [none, none] (by decide +kernel))
  rw [hleaf] at hrun
  exact ⟨hlength, _, hrun⟩

/-- A courier that has to go on a second tour. -/
def busyCourier : Statechart := { courier with events := ["go", "home", "go"] }

set_option maxRecDepth 2000 in
theorem busyCourier_accepted : typecheck busyCourier = .ok (accepted busyCourier) :=
  eq_ok_getD (by decide) _

/-- On the first tour, the busy courier makes the steps of the other one. -/
theorem simulate_moves_courier :
    machineSteps (loopHead (accepted courier) 10 [] [none, none]).2.log = machineSteps
      (loopHead (accepted busyCourier) 12 [some 5] [none, some ["go"]]).2.log := by
  have hmoves : movesOf (accepted courier) 10 [] [none, none] =
      movesOf (accepted busyCourier) 12 [some 5] [none, some ["go"]] := by
    decide +kernel
  exact (simulate_moves courier_accepted busyCourier_accepted (by decide) (by decide) rfl hmoves
    (loopHead_run (accepted courier) 10 [] [none, none] (by decide +kernel))
    (loopHead_run (accepted busyCourier) 12 [some 5] [none, some ["go"]]
      (by decide +kernel))).2.2.2.1

end Stabl
