import Stabl.Proofs.SymbolicExecution.Transitions

/-!
# `Stabl.Proofs.SymbolicExecution.Names`: states that the engine takes for others

`compute_outts` and the loops of `takeTransition` compare the simple names of states. The
typechecker asks for different names among the children of one state only. So the engine
takes a state for another one of its name, and it does what the positions of the states say
exactly when no such state is in the way (`statesIdentified_iff`).
-/

set_option autoImplicit false

namespace Stabl

open Result TreeAddress

/-! ### Names that stand for states -/

/-- `compute_outts` returns the transitions whose sources are in the set. -/
def OutgoingIdentified (root : State Name) (conf : List StateRef) : Prop :=
  ∀ t ∈ allTransitions root,
    t ∈ computeOutts root conf (allTransitions root) ↔ t.transition.source ∈ conf

/-- The loops of `takeTransition` collect the states from the source, and from the destination,
up to the state of the transition, and without that one. -/
def SuperstatesIdentified (root : State Name) (t : PlacedTransition Name) : Prop :=
  superstatesBelow root (root.nameAt t.state) t.transition.source =
      some (climb t.state t.transition.source) ∧
    superstatesBelow root (root.nameAt t.state) t.transition.destination =
      some (climb t.state t.transition.destination)

/-! ### When it holds -/

/-- A transition that goes out of no state of the set has a source of another name than all of
these states. -/
def SourcesDistinct (root : State Name) (conf : List StateRef) : Prop :=
  ∀ t ∈ allTransitions root, t.transition.source ∉ conf →
    ∀ s ∈ conf, root.nameAt t.transition.source ≠ root.nameAt s

/-- No state between `p` and its ancestor `l`, these two excluded, has the name of `l`. -/
def NoneNamedBetween (root : State Name) (l p : StateRef) : Prop :=
  ∀ q, q <:+ p → q ≠ p → l <:+ q → q ≠ l → root.nameAt q ≠ root.nameAt l

theorem outgoingIdentified_iff (root : State Name) (conf : List StateRef) :
    OutgoingIdentified root conf ↔ SourcesDistinct root conf := by
  constructor
  · intro h t ht hsource s hs hname
    -- The name of the source is found in the set, and the source is not in it.
    have hany : (conf.any fun st => root.nameAt t.transition.source = root.nameAt st) = true :=
      List.any_eq_true.mpr ⟨s, hs, decide_eq_true hname⟩
    exact hsource ((h t ht).mp (List.mem_filter.mpr ⟨ht, hany⟩))
  · intro h t ht
    constructor
    · intro hout
      have ⟨s, hs, hname⟩ := List.any_eq_true.mp (List.mem_filter.mp hout).2
      by_contra hsource
      exact h t ht hsource s hs (of_decide_eq_true hname)
    · intro hsource
      exact List.mem_filter.mpr ⟨ht, List.any_eq_true.mpr ⟨_, hsource, decide_eq_true rfl⟩⟩

/-- The outgoing transitions of a set of states are those whose sources are in it, exactly when
no other source has the name of one of its states. The states that a transition leaves, and the
superstates that it enters, are those below its state, exactly when none of them but the first
has the name of its state. -/
theorem statesIdentified_iff {sc : Statechart} {c : CheckedStatechart}
    (h : typecheck sc = .ok c) :
    (∀ conf : List StateRef, OutgoingIdentified c.root conf ↔ SourcesDistinct c.root conf) ∧
    ∀ t : PlacedTransition Name, t.transition ∈ c.root.transitionsAt t.state →
      (SuperstatesIdentified c.root t ↔
        NoneNamedBetween c.root t.state t.transition.source ∧
          NoneNamedBetween c.root t.state t.transition.destination) := by
  refine ⟨outgoingIdentified_iff c.root, ?_⟩
  intro t ht
  have ⟨hlub, _, _⟩ := lub_of_accepted h ht
  have ⟨⟨hsource, hsource'⟩, ⟨hdest, hdest'⟩⟩ := lub_proper hlub
  exact and_congr (superstatesBelow_eq_climb_iff c.root hsource hsource'.symm)
    (superstatesBelow_eq_climb_iff c.root hdest hdest'.symm)

theorem statesIdentified_iff_door : OutgoingIdentified (accepted door).root [[], [0]] := by
  have hall : ∀ t ∈ allTransitions (accepted door).root, t.transition.source ∈ [[], [0]] :=
    fun t ht => of_decide_eq_true (List.all_eq_true.mp
      (show (allTransitions (accepted door).root).all
        (fun t => t.transition.source ∈ [[], [0]]) = true by decide) t ht)
  have hdoor : typecheck door = .ok (accepted door) := eq_ok_getD (by decide) _
  refine ((statesIdentified_iff hdoor).1 [[], [0]]).mpr ?_
  intro t ht hsource
  exact absurd (hall t ht) hsource

/-! ### A museum inside a museum -/

/-- A transition between states with the given paths. -/
def pathTransition (name : String) (sourceName destinationName : Path)
    (source destination : StateRef) : Transition Path :=
  { plainTransition name "" "" "" 0 0 with
    sourceName := sourceName
    destinationName := destinationName
    source := source
    destination := destination }

/-- In the state `Wing` of the statechart `Museum` there is a state `Museum`. -/
def museum : Statechart where
  root := { plainState "Museum" with
    states := [
      { plainState "Wing" with
        states := [{ plainState "Museum" with states := [plainState "Hall"] }, plainState "Shop"]
        transitions := [pathTransition "buy" ["Museum", "Wing", "Museum"]
          ["Museum", "Wing", "Shop"] [0, 0] [1, 0]] },
      plainState "Street"]
    transitions := [pathTransition "leave" ["Museum", "Wing", "Museum", "Hall"]
      ["Museum", "Street"] [0, 0, 0] [1]] }
  moreTypes := []
  events := ["turn"]
  functionDeclarations := []
  initialised := by decide

/-- On the street the transition `buy` of the wing goes out. And `leave` leaves the hall, but
neither the state `Museum` around it nor the wing. -/
theorem not_statesIdentified_museum :
    typecheck museum = .ok (accepted museum) ∧
    ¬ OutgoingIdentified (accepted museum).root [[], [1]] ∧
    ∃ t : PlacedTransition Name, t.transition ∈ (accepted museum).root.transitionsAt t.state ∧
      ¬ SuperstatesIdentified (accepted museum).root t := by
  refine ⟨eq_ok_getD (by decide) _, ?_, transitionNumber (accepted museum).root 0, ?_, ?_⟩
  · intro h
    have hbuy := h (transitionNumber (accepted museum).root 1)
      (List.mem_of_getElem? (i := 1) rfl)
    have hout : transitionNumber (accepted museum).root 1 ∈ computeOutts (accepted museum).root
        [[], [1]] (allTransitions (accepted museum).root) := List.mem_of_getElem? (i := 0) rfl
    have hsource := hbuy.mp hout
    revert hsource
    decide
  · exact List.mem_of_getElem? (i := 0) rfl
  · intro h
    have hclimb := h.1
    revert hclimb
    decide

end Stabl
