import Stabl.Proofs.Frontend.Accepted
import Stabl.Proofs.Simulator.Phases

/-!
# `Stabl.Proofs.Simulator.Configuration`: the configuration is the chain

At the head of the simulation loop the configuration is the chain of the current state,
and the current state is atomic.

`InState p w` says it of a world between two steps: the configuration is the chain of `p`,
and the world is `Sound`, so that nothing throws and the history leads into the tree.
Leaving `i :: q` leads from `InState (i :: q)` to `InState q`, and entering it leads back
(`InState.exit`, `Entering.enter`). The rest is the induction rules of the phases.

The chart `courier` at the end is a small statechart with a static variable, a history
state and an inter-level transition. The examples of the simulator proofs run on it.
-/

set_option autoImplicit false

namespace Stabl

open Result TreeAddress EnterExit World

/-! ### Sound worlds -/

/-- A world from which no `enterState` throws and whose history leads into the tree. -/
structure Sound (root : State Name) (w : World) : Prop where
  prepared : w.Prepared root
  history : ∀ s c, w.eState.stateHistory s = some c →
    getSuperstate c = some s ∧ (root.stateAt c).isSome
  tracked : w.Tracked

section
variable {root : State Name}

/-- Code does not touch what soundness is about. -/
theorem Sound.computesTo {w w' : World} (h : Sound root w) (hw : w.ComputesTo w') :
    Sound root w' := by
  obtain ⟨trace, hlog, _⟩ := hw.accesses
  refine ⟨h.prepared.of_valueHistory hw.valueHistory, ?_, ?_⟩
  · rw [hw.stateHistory]
    exact h.history
  · exact h.tracked.of_marks hw.configuration hlog (marks_access trace)

/-- An event that is no entry or exit may be logged. -/
theorem Sound.record {w : World} (h : Sound root w) {e : Event} (he : marks [e] = []) :
    Sound root (w.record e) :=
  ⟨h.prepared, h.history, h.tracked.of_marks rfl (w.record_log e) he⟩

/-- The event queue may change. -/
theorem Sound.eventQueue {w : World} (h : Sound root w) (q : List String) :
    Sound root { w with eState := { w.eState with eventQueue := q } } :=
  ⟨h.prepared, h.history, h.tracked.replay, h.tracked.alternates⟩

/-- The configuration is the chain of `p`. -/
structure InState (root : State Name) (p : StateRef) (w : World) : Prop where
  sound : Sound root w
  configuration : w.eState.configuration = chain p
  valid : (root.stateAt p).isSome

/-- The configuration is the chain above `p`. -/
structure Entering (root : State Name) (p : StateRef) (w : World) : Prop where
  sound : Sound root w
  configuration : w.eState.configuration = getAllSuperstates p
  valid : (root.stateAt p).isSome

theorem InState.computesTo {p : StateRef} {w w' : World} (h : InState root p w)
    (hw : w.ComputesTo w') : InState root p w' :=
  ⟨h.sound.computesTo hw, hw.configuration.trans h.configuration, h.valid⟩

theorem InState.record {p : StateRef} {w : World} (h : InState root p w) {e : Event}
    (he : marks [e] = []) : InState root p (w.record e) :=
  ⟨h.sound.record he, h.configuration, h.valid⟩

/-- From a state, its substates can be entered. -/
theorem InState.entering {i : Nat} {p : StateRef} {w : World} (h : InState root p w)
    (hi : (root.stateAt (i :: p)).isSome) : Entering root (i :: p) w :=
  ⟨h.sound, by rw [h.configuration, getAllSuperstates_cons], hi⟩

/-- Entering a state makes its chain the configuration. -/
theorem Entering.enter {p : StateRef} {w w' : World} {fuel : Nat} (h : Entering root p w)
    (hw : enterAndExecute root fuel p w = .ok w') : InState root p w' := by
  obtain ⟨w₁, henter, hentry⟩ := (enterAndExecute_eq_ok root).mp hw
  have he := enterState_entersTo henter
  have hfresh : p ∉ w.eState.configuration := by
    rw [h.configuration, mem_getAllSuperstates]
    exact fun hp => hp.2 rfl
  have hsound : Sound root w₁ := by
    refine ⟨h.sound.prepared.of_valueHistory he.valueHistory, ?_,
      Tracked.enter root h.sound.tracked hfresh he⟩
    rw [he.stateHistory]
    exact h.sound.history
  have hin : InState root p w₁ := by
    refine ⟨hsound, ?_, h.valid⟩
    rw [he.configuration, h.configuration, getAllSuperstates_append_self]
  exact (hin.record rfl).computesTo (executeStatement_computesTo hentry)

/-- Entering a state does not throw. -/
theorem Entering.noException {p : StateRef} {w w' : World} {fuel : Nat}
    (h : Entering root p w) : enterAndExecute root fuel p w ≠ .error (.exception w') := by
  intro hw
  obtain ⟨w₁, hok⟩ := h.sound.prepared.enterState p
  have hthrow := enterAndExecute_exception root hw
  rw [hok] at hthrow
  simp at hthrow

/-- Leaving a state makes the chain of its superstate the configuration. -/
theorem InState.exit {i : Nat} {q : StateRef} {w : World} (h : InState root (i :: q) w) :
    InState root q (w.exitState root (i :: q)) := by
  have hexit := exitState_exitsTo root (i :: q) w
  have hsound : Sound root (w.exitState root (i :: q)) := by
    refine ⟨h.sound.prepared.exitState (i :: q), ?_, Tracked.exit root h.sound.tracked hexit⟩
    intro s c hc
    rw [hexit.stateHistory] at hc
    by_cases hs : getSuperstate (i :: q) = some s
    · rw [if_pos hs, Option.some.injEq] at hc
      exact hc ▸ ⟨hs, h.valid⟩
    · rw [if_neg hs] at hc
      exact h.sound.history s c hc
  refine ⟨hsound, ?_, State.stateAt_isSome_of_suffix (List.suffix_cons i q) h.valid⟩
  rw [hexit.configuration, h.configuration]
  exact erase_chain_cons i q

/-! ### The phases -/

/-- The way up ends in the lub. -/
theorem InState.bubbleUp {l p : StateRef} {w w' : World} {fuel : Nat} (hl : l <:+ p)
    (h : InState root p w) (hw : Stabl.bubbleUp root fuel (some l) p w = .ok w') :
    InState root l w' := by
  refine bubbleUp_preserves (P := InState root) hl ?_ h hw
  intro i q w w₁ _ _ hin hcomp
  exact ((hin.record rfl).computesTo hcomp).exit

/-- The way down ends in the destination. -/
theorem InState.enterPath {l p : StateRef} {w w' : World} {fuel : Nat} (hl : l <:+ p)
    (hp : (root.stateAt p).isSome) (h : InState root l w)
    (hw : Stabl.enterPath root fuel l p w = .ok w') : InState root p w' := by
  refine enterPath_preserves (P := InState root) hl ?_ h hw
  intro i q w w' _ hq hin hstep
  exact (hin.entering (State.stateAt_isSome_of_suffix hq hp)).enter hstep

/-- The way down does not throw. -/
theorem InState.enterPath_noException {l p : StateRef} {w w' : World} {fuel : Nat}
    (hl : l <:+ p) (hp : (root.stateAt p).isSome) (h : InState root l w) :
    Stabl.enterPath root fuel l p w ≠ .error (.exception w') := by
  intro hw
  have hstep : ∀ i q w w', l <:+ q → (i :: q) <:+ p → InState root q w →
      enterAndExecute root fuel (i :: q) w = .ok w' → InState root (i :: q) w' :=
    fun i q w w' _ hq hin hs =>
      (hin.entering (State.stateAt_isSome_of_suffix hq hp)).enter hs
  obtain ⟨i, q, w₁, _, _, hin, hthrow⟩ := enterPath_throws hl hstep h hw
  obtain ⟨w₂, hok⟩ := hin.sound.prepared.enterState (i :: q)
  rw [hok] at hthrow
  simp at hthrow

/-- A transition that is placed in the lub of its source and destination leads from the
current state to the destination. -/
theorem InState.performTransition {t : PlacedTransition Name} {curr : StateRef}
    {w w' : World} {fuel : Nat} (h : InState root curr w)
    (hlub : lub t.transition.source t.transition.destination = some t.state)
    (hcurr : t.state <:+ curr) (hdest : (root.stateAt t.transition.destination).isSome)
    (hw : Stabl.performTransition root fuel t curr w = .ok w') :
    InState root t.transition.destination w' := by
  obtain ⟨w₁, w₂, hup, hact, hdown⟩ := (performTransition_eq_ok hlub hcurr).mp hw
  have hsuffix : t.state <:+ t.transition.destination := (lub_proper hlub).2.1
  have hin₁ : InState root t.state w₁ := h.bubbleUp hcurr hup
  have hin₂ : InState root t.state w₂ :=
    (hin₁.record rfl).computesTo (executeStatement_computesTo hact)
  rcases hdown with hdown | hthrow
  · exact hin₂.enterPath hsuffix hdest hdown
  · exact absurd hthrow (hin₂.enterPath_noException hsuffix hdest)

/-- A state that is not atomic has the substate in which the descent goes on. -/
theorem InState.nextSubstate {p : StateRef} {w : World} (h : InState root p w)
    (hatomic : ¬ root.isAtomicAt p) : Entering root (nextSubstate root p w) w := by
  have hfirst : Entering root (0 :: p) w := by
    refine h.entering ?_
    obtain ⟨s, hs⟩ := Option.isSome_iff_exists.mp h.valid
    rw [State.isAtomicAt, hs] at hatomic
    rw [State.stateAt_cons, hs]
    cases hstates : s.states with
    | nil => simp [hstates] at hatomic
    | cons st sts => simp [hstates]
  unfold Stabl.nextSubstate
  split
  · unfold getHistoryState
    split
    · rename_i c hc
      obtain ⟨hsuper, hvalid⟩ := h.sound.history p c hc
      cases c with
      | nil => simp [getSuperstate] at hsuper
      | cons i q =>
          obtain rfl : q = p := by simpa [getSuperstate] using hsuper
          exact h.entering hvalid
    · exact hfirst
  · exact hfirst

/-- The descent of `getAtomicState` ends in an atomic state. -/
theorem getAtomicState_inState {fuel tag : Nat} {init s : StateRef} {w w' : World}
    (hpos : tag = 1 → Entering root init w) (hneg : tag ≠ 1 → InState root init w)
    (hw : getAtomicState root fuel init tag w = .ok (s, w')) :
    InState root s w' ∧ root.isAtomicAt s := by
  induction fuel generalizing init tag w with
  | zero => simp [getAtomicState] at hw
  | succ fuel ih =>
      rw [getAtomicState] at hw
      -- Both tags lead to `InState root init`, and neither way throws.
      have hentered : ∀ x, x = (if tag = 1 then enterAndExecute root fuel init w else .ok w) →
          (∀ w', x ≠ .error (.exception w')) ∧ ∀ w', x = .ok w' → InState root init w' := by
        rintro x rfl
        by_cases htag : tag = 1
        · simp only [htag, if_true]
          exact ⟨fun w' => (hpos htag).noException, fun w' h => (hpos htag).enter h⟩
        · simp only [htag, if_false]
          exact ⟨noException_ok w, fun w' h => by
            rw [Except.ok.injEq] at h
            exact h ▸ hneg htag⟩
      have hx := hentered _ rfl
      split at hw
      · rename_i w₁ heq
        exact absurd heq (hx.1 w₁)
      · simp at hw
      · rename_i w₁ heq
        have hin := hx.2 w₁ heq
        split at hw
        · rename_i hatomic
          simp only [Except.ok.injEq, Prod.mk.injEq] at hw
          obtain ⟨rfl, rfl⟩ := hw
          exact ⟨hin, hatomic⟩
        · rename_i hatomic
          exact ih (fun _ => hin.nextSubstate hatomic) (fun h => absurd rfl h) hw

/-! ### The initial world -/

/-- Only the states of the tree have to be looked at. -/
theorem staticsAtTop_iff {ν : Type} (root : State ν) : StaticsAtTop root ↔
    ∀ s ∈ root.positions [],
      (∃ d ∈ root.declarationsAt s, d.scope = .staticScope) → s.length ≤ 1 := by
  constructor
  · exact fun h s _ => h s
  · intro h s hs
    refine h s (State.mem_positions ?_) hs
    obtain ⟨d, hd, _⟩ := hs
    obtain ⟨st, hst, _⟩ := State.exists_of_mem_declarationsAt hd
    rw [hst]
    rfl

instance {ν : Type} (root : State ν) : Decidable (StaticsAtTop root) :=
  decidable_of_iff _ (staticsAtTop_iff root).symm

/-- The constructor prepares a state for its static variables. -/
theorem populate_valueHistory (e : ExecutionState) (s p : StateRef)
    (h : e.valueHistory p ≠ none ∨
      (p = s ∧ ∃ d ∈ root.declarationsAt s, d.scope = .staticScope)) :
    (populate root e s).valueHistory p ≠ none := by
  unfold populate
  split
  · by_cases hps : p = s
    · simp [hps]
    · rcases h with h | ⟨h, _⟩
      · simpa [hps] using h
      · exact absurd h hps
  · rename_i hany
    rcases h with h | ⟨_, d, hd, hscope⟩
    · exact h
    · refine absurd ?_ hany
      exact List.any_eq_true.mpr ⟨d, hd, by simp [hscope]⟩

/-- The constructor prepares the statechart and its direct children. -/
theorem initial_prepared (hstatics : StaticsAtTop root) (events : List String)
    (stdin : List (Option Int32)) : (World.initial root events stdin).Prepared root := by
  have hfold : ∀ (l : List StateRef) (e : ExecutionState) (p : StateRef),
      (∃ d ∈ root.declarationsAt p, d.scope = .staticScope) →
        (e.valueHistory p ≠ none ∨ p ∈ l) → (l.foldl (populate root) e).valueHistory p ≠ none := by
    intro l
    induction l with
    | nil => intro e p _ h; simpa using h
    | cons s l ih =>
        intro e p hp h
        refine ih _ p hp ?_
        rcases h with h | h
        · exact Or.inl (populate_valueHistory e s p (Or.inl h))
        · rcases List.mem_cons.mp h with rfl | h
          · exact Or.inl (populate_valueHistory e p p (Or.inr ⟨rfl, hp⟩))
          · exact Or.inr h
  intro s hs
  refine hfold _ _ s hs ?_
  have hlen := hstatics s hs
  cases s with
  | nil => exact Or.inl (populate_valueHistory _ [] [] (Or.inr ⟨rfl, hs⟩))
  | cons i p =>
      obtain rfl : p = [] := by simpa using hlen
      right
      have hlt : i < root.states.length := by
        obtain ⟨d, hd, _⟩ := hs
        obtain ⟨st, hst, _⟩ := State.exists_of_mem_declarationsAt hd
        exact State.lt_length_of_stateAt hst
      exact List.mem_map.mpr ⟨i, List.mem_range.mpr hlt, rfl⟩

/-- The constructor neither enters a state nor records a history. -/
theorem initial_histories (root : State Name) (events : List String) (stdin : List (Option Int32)) :
    (World.initial root events stdin).eState.configuration = [] ∧
      (World.initial root events stdin).eState.stateHistory = fun _ => none := by
  have hfold : ∀ (l : List StateRef) (e : ExecutionState),
      (l.foldl (populate root) e).configuration = e.configuration ∧
        (l.foldl (populate root) e).stateHistory = e.stateHistory := by
    intro l
    induction l with
    | nil => exact fun _ => ⟨rfl, rfl⟩
    | cons s l ih =>
        intro e
        rw [List.foldl_cons, (ih _).1, (ih _).2]
        unfold populate
        split <;> exact ⟨rfl, rfl⟩
  exact hfold ([] :: (List.range root.states.length).map fun i => [i])
    ⟨fun _ => none, [], events, fun _ => none, fun _ => none⟩

theorem initial_entering (hstatics : StaticsAtTop root) (events : List String)
    (stdin : List (Option Int32)) : Entering root [] (World.initial root events stdin) := by
  have ⟨hconf, hhistory⟩ := initial_histories root events stdin
  refine ⟨⟨initial_prepared hstatics events stdin, ?_, hconf, alternates_nil⟩, hconf, rfl⟩
  intro s c hc
  rw [hhistory] at hc
  simp at hc

end

/-! ### Runs -/

/-- The queue is all that `nextEvent` changes. -/
theorem nextEvent_world (typed : Option (List String)) (w : World) :
    ∃ q, (nextEvent typed w).2 = { w with eState := { w.eState with eventQueue := q } } := by
  have hget : ∀ w : World, ∃ q,
      w.getEvent.2 = { w with eState := { w.eState with eventQueue := q } } := by
    intro w
    unfold getEvent
    split
    · exact ⟨w.eState.eventQueue, rfl⟩
    · rename_i e es _
      exact ⟨es, rfl⟩
  obtain ⟨q, hq⟩ := hget w
  unfold nextEvent
  split
  · rename_i w₁ heq
    rw [heq] at hq
    simp only at hq
    split
    · rename_i es
      obtain ⟨q', hq'⟩ := hget (w₁.addEvents es)
      refine ⟨q', ?_⟩
      rw [hq', hq]
      rfl
    · exact ⟨q, hq⟩
  · rename_i heq
    rw [heq] at hq
    exact ⟨q, hq⟩

/-- A round that reaches the head of the loop again has fired a transition. -/
theorem simulateStep_eq_ok {root : State Name} {fuel : Nat} {curr : StateRef} {w : World}
    {typed : Option (List String)} {head : StateRef × World} :
    simulateStep root fuel (curr, w) typed = .ok head ↔ ∃ t w₁ w₂,
      getValidTransition root curr (nextEvent typed w).1 (nextEvent typed w).2 =
          (.transition t, w₁) ∧
        performTransition root fuel t curr w₁ = .ok w₂ ∧
          getAtomicState root fuel t.transition.destination 0 w₂ = .ok head := by
  simp only [simulateStep]
  split
  · rename_i t w₁ heq
    rw [bind_eq_ok]
    constructor
    · rintro ⟨w₂, hperform, hatomic⟩
      exact ⟨t, w₁, w₂, heq, hperform, hatomic⟩
    · rintro ⟨t', w₁', w₂, heq', hperform, hatomic⟩
      obtain ⟨rfl, rfl⟩ : t = t' ∧ w₁ = w₁' := by
        simpa using heq.symm.trans heq'
      exact ⟨w₂, hperform, hatomic⟩
  · rename_i hnot
    constructor
    · intro h
      simp at h
    · rintro ⟨t, w₁, w₂, heq, _⟩
      exact absurd heq (hnot t w₁)

/-- What holds when the loop begins, and is preserved by every round, holds at every loop
head of every run. -/
theorem AtLoopHead.preserves {c : CheckedStatechart} {P : StateRef × World → Prop}
    (start : ∀ fuel stdin head,
      getAtomicState c.root fuel [] 1 (World.initial c.root c.events stdin) = .ok head → P head)
    (step : ∀ fuel typed head head', P head →
      simulateStep c.root fuel head typed = .ok head' → P head')
    {curr : StateRef} {w : World} (h : AtLoopHead c curr w) : P (curr, w) := by
  obtain ⟨fuel, stdin, replies, h⟩ := h
  obtain ⟨head, hstart, hrun⟩ := bind_eq_ok.mp h
  exact foldlM_preserves (fun typed _ head head' => step fuel typed head head')
    (start fuel stdin head hstart) hrun

/-- At the head of the loop the current state is atomic, and its chain is the
configuration. -/
theorem AtLoopHead.inState {sc : Statechart} {c : CheckedStatechart}
    (hc : typecheck sc = .ok c) (hstatics : StaticsAtTop c.root) {curr : StateRef} {w : World}
    (h : AtLoopHead c curr w) : InState c.root curr w ∧ c.root.isAtomicAt curr := by
  refine AtLoopHead.preserves
    (P := fun head => InState c.root head.1 head.2 ∧ c.root.isAtomicAt head.1) ?_ ?_ h
  · rintro fuel stdin ⟨curr, w⟩ hw
    exact getAtomicState_inState (fun _ => initial_entering hstatics c.events stdin)
      (fun h => absurd rfl h) hw
  · rintro fuel typed ⟨curr, w⟩ ⟨curr', w'⟩ ⟨hin, _⟩ hw
    obtain ⟨t, w₁, w₂, hselect, hperform, hatomic⟩ := simulateStep_eq_ok.mp hw
    obtain ⟨q, hq⟩ := nextEvent_world typed w
    rw [hq] at hselect
    obtain ⟨hcomp, hchain, hplaced, _⟩ := getValidTransition_transition hselect
    have hqueue : InState c.root curr { w with eState := { w.eState with eventQueue := q } } :=
      ⟨hin.sound.eventQueue q, hin.configuration, hin.valid⟩
    obtain ⟨hlub, _, hdest⟩ := lub_of_accepted hc hplaced
    have hin₂ := (hqueue.computesTo hcomp).performTransition hlub hchain hdest hperform
    exact getAtomicState_inState (fun h => absurd h (by decide)) (fun _ => hin₂) hatomic

/-- The configuration at the head of the loop is the chain of the current state, root
first and without duplicates, and the current state is atomic. On the way there, every
state has been left before it was entered again. -/
theorem configuration_eq_chain {sc : Statechart} {c : CheckedStatechart}
    (hc : typecheck sc = .ok c) (hstatics : StaticsAtTop c.root) {curr : StateRef} {w : World}
    (h : AtLoopHead c curr w) :
    w.eState.configuration = chain curr ∧ w.eState.configuration.Nodup ∧
      (∃ s, c.root.stateAt curr = some s ∧ s.states = []) ∧
        ∀ s pre mid post, w.log = pre ++ .enterState s :: mid ++ .enterState s :: post →
          .exitState s ∈ mid := by
  obtain ⟨hin, hatomic⟩ := h.inState hc hstatics
  refine ⟨hin.configuration, hin.configuration ▸ nodup_chain curr, ?_, ?_⟩
  · obtain ⟨s, hs⟩ := Option.isSome_iff_exists.mp hin.valid
    rw [State.isAtomicAt, hs] at hatomic
    exact ⟨s, hs, List.isEmpty_iff.mp hatomic⟩
  · intro s pre mid post hlog
    have halt := hin.sound.tracked.alternates
    have hmarks : marks w.log =
        marks pre ++ .enter s :: marks mid ++ .enter s :: marks post := by
      rw [hlog, marks_append, marks_append]
      rfl
    have hexit := halt.exit_between hmarks
    obtain ⟨e, he, hes⟩ := List.mem_filterMap.mp hexit
    cases e <;> simp at hes
    exact hes ▸ he

/-! ### A small statechart -/

/-- The atomic state `Loading` has a local variable, and `Tour` a local and a static one.
`start` leads from `Loading` into the substate `Driving` of `Tour`. Its action reads a
variable of the statechart and the local one of `Loading`, and assigns to variables of the
statechart and of `Tour`. -/
def courier : Statechart where
  root := {
    name := "Courier"
    declarations := ⟨[integerVariable "delivered" .localScope,
      integerVariable "stock" .localScope], by decide⟩
    entry := .statementList [.assignmentStatement ["stock"] (.constant (.integerConstant 7))]
    exit := .statementList []
    states := [
      { name := "Loading"
        declarations := ⟨[integerVariable "parcels" .localScope], by decide⟩
        entry := .statementList [
          .assignmentStatement ["parcels"] (.constant (.integerConstant 3))]
        exit := .statementList []
        states := [], transitions := []
        history := false, region := false, shell := false, fin := false },
      { name := "Tour"
        declarations := ⟨[integerVariable "stop" .localScope,
          integerVariable "round" .staticScope], by decide⟩
        entry := .statementList []
        exit := .statementList []
        states := [
          { name := "Driving"
            declarations := .empty
            entry := .statementList []
            exit := .statementList []
            states := [], transitions := []
            history := false, region := false, shell := false, fin := false }]
        transitions := []
        history := true, region := false, shell := false, fin := false }]
    transitions := [
      { name := "start"
        sourceName := ["Courier", "Loading"]
        destinationName := ["Courier", "Tour", "Driving"]
        trigger := "go"
        guard := .constant (.booleanConstant true)
        action := .statementList [
          .assignmentStatement ["delivered"]
            (.binaryExpression (.name ["stock"]) (.name ["parcels"]) .plus),
          .assignmentStatement ["stock"] (.constant (.integerConstant 0)),
          .assignmentStatement ["stop"] (.constant (.integerConstant 1)),
          .assignmentStatement ["round"] (.constant (.integerConstant 1))]
        source := [0]
        destination := [0, 1] },
      { name := "back"
        sourceName := ["Courier", "Tour"]
        destinationName := ["Courier", "Loading"]
        trigger := "home"
        guard := .constant (.booleanConstant true)
        action := .statementList []
        source := [1]
        destination := [0] }]
    history := false, region := false, shell := false, fin := false }
  moreTypes := []
  events := ["go", "home"]
  functionDeclarations := []
  initialised := by decide

/-- The head of the loop after some rounds, for a run that is known to get there. -/
def loopHead (c : CheckedStatechart) (fuel : Nat) (stdin : List (Option Int32))
    (replies : List (Option (List String))) : StateRef × World :=
  getD (simulate c.root c.events fuel stdin replies) ([], World.initial c.root [] [])

theorem atLoopHead (c : CheckedStatechart) (fuel : Nat) (stdin : List (Option Int32))
    (replies : List (Option (List String)))
    (h : (simulate c.root c.events fuel stdin replies).isOk = true) :
    AtLoopHead c (loopHead c fuel stdin replies).1 (loopHead c fuel stdin replies).2 :=
  ⟨fuel, stdin, replies, eq_ok_getD h _⟩

set_option maxRecDepth 2000 in
theorem courier_accepted : typecheck courier = .ok (accepted courier) :=
  eq_ok_getD (by decide) _

set_option maxRecDepth 2000 in
/-- After the two events of the chart, `Loading` is the current state again. -/
theorem configuration_eq_chain_courier :
    (loopHead (accepted courier) 10 [] [none, none]).2.eState.configuration = [[], [0]] ∧
      ∀ s pre mid post, (loopHead (accepted courier) 10 [] [none, none]).2.log =
        pre ++ .enterState s :: mid ++ .enterState s :: post → .exitState s ∈ mid := by
  have h := configuration_eq_chain courier_accepted (by decide)
    (atLoopHead (accepted courier) 10 [] [none, none] (by decide))
  refine ⟨?_, h.2.2.2⟩
  rw [h.1]
  decide

end Stabl
