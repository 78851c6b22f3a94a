import Stabl.Proofs.Frontend.Parsed
import Stabl.Proofs.Simulator.Selection

/-!
# `Stabl.Proofs.Simulator.NullEvent`: transitions without a trigger

Three places encode that no event is there. The grammar gives a transition without a trigger
clause the trigger `eNone`, the typechecker accepts a trigger only if the statechart declares
it as an event, and the simulator falls back to the event `null`. The simulator selects
transitions by their trigger (`trigger_of_getValidTransition`), and `eNone` is not `null`. So
a transition without a trigger waits for the event `eNone` (`getValidTransition_ne_triggerless`).
-/

set_option autoImplicit false

namespace Stabl

open Result TreeAddress World

/-! ### Triggers of selected transitions -/

section
variable {root : State Name}

/-- The loop over the transitions of a state finds those of the event. -/
theorem trigger_of_searchState {event : String} {p : StateRef} (ts : List (Transition Name)) :
    ∀ {acc : List (PlacedTransition Name) × World} {t : PlacedTransition Name},
      t ∈ (searchState event p ts acc).1 → t ∈ acc.1 ∨ t.transition.trigger = event := by
  induction ts with
  | nil => exact fun h => Or.inl h
  | cons t₀ ts ih =>
      intro acc t h
      unfold searchState at h ih
      rw [List.foldl_cons] at h
      have hviable : (viable event t₀ acc.2).1 = true → t₀.trigger = event :=
        fun hv => (viable_iff.mp hv).2.2
      split at h
      · rename_i w₁ heq
        rw [heq] at hviable
        rcases ih h with hmem | htrigger
        · rcases List.mem_append.mp hmem with hmem | hmem
          · exact Or.inl hmem
          · rw [List.mem_singleton.mp hmem]
            exact Or.inr (hviable rfl)
        · exact Or.inr htrigger
      · have hrest := ih h
        exact hrest

/-- The search finds transitions of the event. -/
theorem trigger_of_search {event : String} (curr : StateRef) :
    ∀ {acc : List (PlacedTransition Name) × World} {t : PlacedTransition Name},
      t ∈ (search root event curr acc).1 → t ∈ acc.1 ∨ t.transition.trigger = event := by
  induction curr with
  | nil => exact trigger_of_searchState _
  | cons i p ih =>
      intro acc t h
      rcases ih h with hmem | htrigger
      · exact trigger_of_searchState _ hmem
      · exact Or.inr htrigger

theorem mem_of_select {ts : List (PlacedTransition Name)} {t : PlacedTransition Name}
    (h : select ts = .transition t) : t ∈ ts := by
  unfold select at h
  split at h
  · cases h
  · cases h
    exact List.mem_singleton_self _
  · cases h

/-- A selected transition has the event as its trigger, or the null event. -/
theorem trigger_of_getValidTransition {curr : StateRef} {event : String} {w : World}
    {t : PlacedTransition Name} (h : (getValidTransition root curr event w).1 = .transition t) :
    t.transition.trigger = event ∨ t.transition.trigger = "null" := by
  have hfound : ∀ (x : String) (w' : World), t ∈ (search root x curr ([], w')).1 →
      t.transition.trigger = x := by
    intro x w' ht
    rcases trigger_of_search curr ht with hmem | htrigger
    · cases hmem
    · exact htrigger
  unfold getValidTransition at h
  split at h
  · split at h
    · cases h
    · exact Or.inr (hfound "null" _ (mem_of_select h))
  · rename_i ts w₁ _ heq
    refine Or.inl (hfound event w ?_)
    rw [heq]
    exact mem_of_select h

end

/-! ### Transitions without a trigger clause -/

/-- The transition is written without a trigger clause. -/
def WrittenWithoutTrigger (sc : WrittenStatechart) (t : PlacedTransition Name) : Prop :=
  ∃ s, sc.root.stateAt t.state = some s ∧ ∃ w ∈ s.transitions,
    w.id.text = t.transition.name ∧ w.trigger = none

/-- The transition has no trigger clause, its source is in the configuration, and its guard
evaluates to true. -/
structure TriggerlessReady (sc : WrittenStatechart) (c : CheckedStatechart) (w : World)
    (t : PlacedTransition Name) : Prop where
  mem : t.transition ∈ c.root.transitionsAt t.state
  written : WrittenWithoutTrigger sc t
  source : t.transition.source ∈ w.eState.configuration
  guard : (evaluate t.transition.guard w).1 = some (.booleanConstant true)

section
variable {sc : WrittenStatechart} {statechart : Statechart} {c : CheckedStatechart}

/-- The parser gives the transition the trigger `eNone`, and the typechecker keeps it. -/
theorem trigger_of_writtenWithoutTrigger (hparse : sc.result = .ok statechart)
    (hc : typecheck statechart = .ok c) {t : PlacedTransition Name}
    (ht : t.transition ∈ c.root.transitionsAt t.state) (hwritten : WrittenWithoutTrigger sc t) :
    t.transition.trigger = "eNone" := by
  have ⟨d, _, hroot, _, hcheck⟩ := typecheck_eq_ok hc
  have ⟨t₀, ht₀, htcheck⟩ := Declared.transition_accepted hcheck ht
  have hchecked := Declared.typecheckedTransition htcheck
  have ⟨s, hs, w, hw, hname, hclause⟩ := hwritten
  rw [hroot] at ht₀
  have htrigger := transition_parsed hparse ht₀ hs hw (hname.trans hchecked.name)
  rw [hchecked.trigger.1, htrigger, hclause]
  rfl

/-- A transition without a trigger clause is not selected when no transition is enabled for
the current event, whatever the current event is. -/
theorem getValidTransition_ne_triggerless (hparse : sc.result = .ok statechart)
    (hc : typecheck statechart = .ok c) {curr : StateRef} {w : World} {event : String}
    (hnone : enabled c.root w event = ∅) {t : PlacedTransition Name}
    (ht : TriggerlessReady sc c w t) :
    (getValidTransition c.root curr event w).1 ≠ .transition t := by
  intro hselected
  have htrigger := trigger_of_writtenWithoutTrigger hparse hc ht.mem ht.written
  rcases trigger_of_getValidTransition hselected with hevent | hnull
  · -- For the event `eNone` the transition would be enabled.
    have henabled : t ∈ enabled c.root w event := ⟨ht.mem, ht.guard, ht.source, hevent⟩
    rw [hnone] at henabled
    exact henabled
  · rw [htrigger] at hnull
    revert hnull
    decide

end

/-! ### A lamp that blinks by itself -/

/-- Two states and a transition each way, none of them with a trigger. The event `eNone` is
declared, or the typechecker would not find it. -/
def blinker : WrittenStatechart where
  types := []
  events := [⟨"eNone", by decide, by decide⟩]
  functions := []
  root := .mk ⟨"Blinker", by decide, by decide⟩ .unmarked [] none none
    [.mk ⟨"On", by decide, by decide⟩ .unmarked [] none none [] [],
      .mk ⟨"Off", by decide, by decide⟩ .unmarked [] none none [] []]
    [⟨⟨"darken", by decide, by decide⟩, ["Blinker", "On"], ["Blinker", "Off"], none,
        .constant (.booleanConstant true), .statementList []⟩,
      ⟨⟨"light", by decide, by decide⟩, ["Blinker", "Off"], ["Blinker", "On"], none,
        .constant (.booleanConstant true), .statementList []⟩]
  marks := Or.inl rfl

theorem blinker_parsed : blinker.result = .ok (parsed blinker) :=
  eq_ok_getD (by decide) _

theorem blinker_accepted : typecheck (parsed blinker) = .ok (accepted (parsed blinker)) :=
  eq_ok_getD (by decide) _

/-- The lamp has gone off, on the event `eNone`. -/
def blinkerOff : StateRef × World := loopHead (accepted (parsed blinker)) 10 [] [none]

theorem blinkerOff_atLoopHead :
    AtLoopHead (accepted (parsed blinker)) blinkerOff.1 blinkerOff.2 :=
  atLoopHead (accepted (parsed blinker)) 10 [] [none] (by decide)

/-- The statechart has two transitions. -/
theorem blinker_transitions : ∃ darken light : Transition Name,
    (accepted (parsed blinker)).root.transitionsAt [] = [darken, light] ∧
      darken.source ∉ blinkerOff.2.eState.configuration ∧
      TriggerlessReady blinker (accepted (parsed blinker)) blinkerOff.2 ⟨[], light⟩ :=
  ⟨_, _, rfl, by decide, List.mem_of_getElem? (i := 1) rfl,
    ⟨_, rfl, _, List.mem_of_getElem? (i := 1) rfl, rfl, rfl⟩, by decide, rfl⟩

/-- The lamp is off and no event is there: one transition without a trigger is ready, and none
is enabled. -/
theorem blinker_light : ∃ t, TriggerlessReady blinker (accepted (parsed blinker)) blinkerOff.2 t ∧
    (∀ t', TriggerlessReady blinker (accepted (parsed blinker)) blinkerOff.2 t' → t' = t) ∧
    enabled (accepted (parsed blinker)).root blinkerOff.2 "null" = ∅ := by
  have ⟨darken, light, hroot, hdarken, hready⟩ := blinker_transitions
  have hplaced : ∀ p, ∀ t ∈ (accepted (parsed blinker)).root.transitionsAt p,
      p = [] ∧ t.trigger = "eNone" := State.forall_transitionsAt (by decide)
  refine ⟨⟨[], light⟩, hready, ?_, ?_⟩
  · rintro ⟨p, t⟩ ht
    have hp : p = [] := (hplaced p t ht.mem).1
    subst hp
    have hmem : t ∈ [darken, light] := hroot ▸ ht.mem
    rcases List.mem_cons.mp hmem with rfl | hmem
    · exact absurd ht.source hdarken
    · rw [List.mem_singleton.mp hmem]
  · refine Set.eq_empty_of_forall_notMem fun t ht => ?_
    have htrigger := (hplaced t.state t.transition ht.1).2
    rw [ht.2.2.2] at htrigger
    revert htrigger
    decide

/-- In the dark, the transition `light` is not selected. -/
theorem getValidTransition_ne_triggerless_blinker : ∃ t,
    TriggerlessReady blinker (accepted (parsed blinker)) blinkerOff.2 t ∧
      (getValidTransition (accepted (parsed blinker)).root blinkerOff.1 "null" blinkerOff.2).1 ≠
        .transition t := by
  have ⟨t, ht, _, hnone⟩ := blinker_light
  exact ⟨t, ht, getValidTransition_ne_triggerless blinker_parsed blinker_accepted hnone ht⟩

/-- In every round of the loop in which no transition is enabled
for the current event, the only transition without a trigger that is ready is selected. -/
def FiresOnNullEvent (sc : WrittenStatechart) (c : CheckedStatechart) : Prop :=
  ∀ curr w typed, AtLoopHead c curr w →
    enabled c.root (nextEvent typed w).2 (nextEvent typed w).1 = ∅ →
    ∀ t, TriggerlessReady sc c (nextEvent typed w).2 t →
      (∀ t', TriggerlessReady sc c (nextEvent typed w).2 t' → t' = t) →
      (getValidTransition c.root curr (nextEvent typed w).1 (nextEvent typed w).2).1 =
        .transition t

/-- The lamp stays dark. -/
theorem not_firesOnNullEvent_blinker : blinker.result = .ok (parsed blinker) ∧
    typecheck (parsed blinker) = .ok (accepted (parsed blinker)) ∧
    ¬ FiresOnNullEvent blinker (accepted (parsed blinker)) := by
  refine ⟨blinker_parsed, blinker_accepted, fun h => ?_⟩
  have hevent : nextEvent none blinkerOff.2 = ("null", blinkerOff.2) := rfl
  have ⟨t, ht, honly, hnone⟩ := blinker_light
  have hselected := h blinkerOff.1 blinkerOff.2 none blinkerOff_atLoopHead
  rw [hevent] at hselected
  -- The simulation halts with the message that no transition is viable.
  have hhalt : (getValidTransition (accepted (parsed blinker)).root blinkerOff.1 "null"
      blinkerOff.2).1 = .noViableTransition := rfl
  have hselected := hselected hnone t ht honly
  rw [hhalt] at hselected
  cases hselected

end Stabl
