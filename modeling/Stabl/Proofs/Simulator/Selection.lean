import Mathlib.Data.Set.Subsingleton
import Stabl.Proofs.Simulator.Configuration

/-!
# `Stabl.Proofs.Simulator.Selection`: which transition is selected

`get_valid_transition` looks at the transitions of the current state and of its ancestors.
`enabled` is about the whole statechart. The two agree: a transition is placed in the lub of
its source and its destination, and in a configuration that is the chain of the current
state the lub of an active source is an ancestor of the current state (`mem_candidates`).

The guards are evaluated one after another in worlds that differ in the log only, so
without a function call each has the value that it has before the search
(`search_eq_candidates`). `getValidTransition_spec` is the main result.
-/

set_option autoImplicit false

namespace Stabl

open Result TreeAddress World

/-! ### Guards -/

/-- The expression calls no function. -/
def Expression.callsNoFunction {ν : Type} : Expression ν → Bool
  | .name _ => true
  | .constant _ => true
  | .binaryExpression left right _ => left.callsNoFunction && right.callsNoFunction
  | .functionCall _ _ => false

/-- No guard of the statechart calls a function. -/
def GuardsCallNoFunction {ν : Type} (root : State ν) : Prop :=
  ∀ p, ∀ t ∈ root.transitionsAt p, t.guard.callsNoFunction = true

/-- Only the states of the tree have to be looked at. -/
theorem guardsCallNoFunction_iff {ν : Type} (root : State ν) : GuardsCallNoFunction root ↔
    ∀ p ∈ root.positions [], ∀ t ∈ root.transitionsAt p, t.guard.callsNoFunction = true := by
  constructor
  · exact fun h p _ => h p
  · exact State.forall_transitionsAt

instance {ν : Type} (root : State ν) : Decidable (GuardsCallNoFunction root) :=
  decidable_of_iff _ (guardsCallNoFunction_iff root).symm

/-- Without function calls, a value depends on the variables only. -/
theorem evaluate_eq_of_eState {e : Expression Name} (he : e.callsNoFunction = true) {w w' : World}
    (h : w'.eState = w.eState) : (evaluate e w').1 = (evaluate e w).1 := by
  cases e with
  | name n =>
      show w'.eState.valueEnvironment n.declaration = w.eState.valueEnvironment n.declaration
      rw [h]
  | constant c => rfl
  | functionCall f args => simp [Expression.callsNoFunction] at he
  | binaryExpression left right operator =>
      have hoperand := evaluateOperand_fst (.binaryExpression left right operator)
      have hvalue : (evaluateOperand (.binaryExpression left right operator) w').1 =
          (evaluateOperand (.binaryExpression left right operator) w).1 := by
        rw [hoperand, hoperand, h]
      -- `evaluate` answers `null` in place of an exception.
      have hevaluate : ∀ w : World, (evaluate (.binaryExpression left right operator) w).1 =
          (evaluateOperand (.binaryExpression left right operator) w).1.toOption.join := by
        intro w
        rw [evaluate]
        split <;> rename_i heq <;> rw [heq] <;> rfl
      rw [hevaluate, hevaluate, hvalue]

section
variable (root : State Name)

/-! ### Enabled transitions -/

/-- The transitions of the statechart whose guard is true, whose source is in the
configuration and whose trigger is the event. -/
def enabled (w : World) (event : String) : Set (PlacedTransition Name) :=
  { t | t.transition ∈ root.transitionsAt t.state ∧
    (evaluate t.transition.guard w).1 = some (.booleanConstant true) ∧
    t.transition.source ∈ w.eState.configuration ∧ t.transition.trigger = event }

/-- The transitions that the loop over the state `p` finds. -/
def candidatesAt (w : World) (event : String) (p : StateRef) : List (PlacedTransition Name) :=
  ((root.transitionsAt p).filter fun t => (viable event t w).1).map (⟨p, ·⟩)

/-- The transitions that the search from `curr` finds. -/
def candidates (w : World) (event : String) (curr : StateRef) : List (PlacedTransition Name) :=
  curr.tails.flatMap (candidatesAt root w event)

variable {root}

theorem viable_iff {event : String} {t : Transition Name} {w : World} :
    (viable event t w).1 = true ↔ (evaluate t.guard w).1 = some (.booleanConstant true) ∧
      t.source ∈ w.eState.configuration ∧ t.trigger = event := by
  have hstate : (evaluate t.guard w).2.eState = w.eState := (evaluate_readsTo t.guard w).eState
  unfold viable
  cases heq : evaluate t.guard w with
  | mk value w₁ =>
      rw [heq] at hstate
      by_cases hvalue : value = some (.booleanConstant true)
      · subst hvalue
        -- The log of the two worlds differs, and the configuration does not.
        have hconf : w₁.eState.configuration = w.eState.configuration := congrArg _ hstate
        simp [presentInConfiguration, hconf]
      · split
        · rename_i h
          exact absurd (Prod.mk.inj h).1 hvalue
        · simp [hvalue]

theorem mem_candidatesAt {w : World} {event : String} {p : StateRef} {t : PlacedTransition Name} :
    t ∈ candidatesAt root w event p ↔ t ∈ enabled root w event ∧ t.state = p := by
  unfold candidatesAt enabled
  rw [List.mem_map]
  constructor
  · rintro ⟨t, ht, rfl⟩
    have ⟨hmem, hviable⟩ := List.mem_filter.mp ht
    exact ⟨⟨hmem, viable_iff.mp hviable⟩, rfl⟩
  · rintro ⟨⟨hmem, hviable⟩, rfl⟩
    exact ⟨t.transition, List.mem_filter.mpr ⟨hmem, viable_iff.mpr hviable⟩, rfl⟩

/-- The search meets every enabled transition: its lub is an ancestor of the current state. -/
theorem mem_candidates {sc : Statechart} {c : CheckedStatechart} (hc : typecheck sc = .ok c)
    {curr : StateRef} {w : World} (hconf : w.eState.configuration = chain curr) {event : String}
    {t : PlacedTransition Name} :
      t ∈ candidates c.root w event curr ↔ t ∈ enabled c.root w event := by
  unfold candidates
  rw [List.mem_flatMap]
  constructor
  · rintro ⟨p, _, ht⟩
    exact (mem_candidatesAt.mp ht).1
  · intro ht
    have ⟨hmem, _, hsource, _⟩ := ht
    have ⟨hlub, _⟩ := lub_of_accepted hc hmem
    have hstate : t.state <:+ t.transition.source := (lub_proper hlub).1.1
    have hsource : t.transition.source <:+ curr := by
      rw [hconf] at hsource
      exact mem_chain.mp hsource
    have hcurr : t.state <:+ curr := hstate.trans hsource
    exact ⟨t.state, (List.mem_tails _ _).mpr hcurr, mem_candidatesAt.mpr ⟨ht, rfl⟩⟩

/-- No transition is found twice. -/
theorem nodup_candidates {sc : Statechart} {c : CheckedStatechart} (hc : typecheck sc = .ok c)
    (curr : StateRef) (w : World) (event : String) : (candidates c.root w event curr).Nodup := by
  refine List.nodup_flatMap.mpr ⟨?_, ?_⟩
  · intro p _
    have hfilter : ((c.root.transitionsAt p).filter fun t => (viable event t w).1).Nodup :=
      (nodup_transitionsAt hc p).filter _
    refine hfilter.map fun t t' h => ?_
    exact congrArg PlacedTransition.transition h
  · -- Different states have different transitions.
    have htails : curr.tails.Nodup := List.nodup_reverse.mp (nodup_chain curr)
    refine htails.imp fun hne t ht ht' => ?_
    have hp := (mem_candidatesAt.mp ht).2
    have hq := (mem_candidatesAt.mp ht').2
    exact hne (hp.symm.trans hq)

/-! ### The search -/

theorem viable_eState (event : String) (t : Transition Name) (w : World) :
    (viable event t w).2.eState = w.eState := by
  have h := (evaluate_readsTo t.guard w).eState
  unfold viable
  split <;> rename_i heq <;> rwa [heq] at h

/-- The value of a guard does not depend on when it is evaluated. -/
theorem viable_eq_of_eState {event : String} {t : Transition Name}
    (ht : t.guard.callsNoFunction = true) {w w' : World} (h : w'.eState = w.eState) :
    (viable event t w').1 = (viable event t w).1 := by
  rw [Bool.eq_iff_iff, viable_iff, viable_iff, evaluate_eq_of_eState ht h, h]

/-- The loop over the transitions of one state. -/
theorem searchState_eq {event : String} {p : StateRef} {w : World} (ts : List (Transition Name))
    (hguards : ∀ t ∈ ts, t.guard.callsNoFunction = true)
    {acc : List (PlacedTransition Name) × World} (hacc : acc.2.eState = w.eState) :
    (searchState event p ts acc).1 =
        acc.1 ++ (ts.filter fun t => (viable event t w).1).map (⟨p, ·⟩) ∧
      (searchState event p ts acc).2.eState = w.eState := by
  induction ts generalizing acc with
  | nil => exact ⟨(List.append_nil _).symm, hacc⟩
  | cons t ts ih =>
      have hguard := hguards t List.mem_cons_self
      have ih := @ih fun t' ht' => hguards t' (List.mem_cons_of_mem _ ht')
      have hviable : (viable event t acc.2).1 = (viable event t w).1 :=
        viable_eq_of_eState hguard hacc
      have hstate : (viable event t acc.2).2.eState = w.eState :=
        (viable_eState event t acc.2).trans hacc
      unfold searchState at ih ⊢
      rw [List.foldl_cons]
      split
      · rename_i w₁ heq
        rw [heq] at hviable hstate
        have ⟨hlist, hfinal⟩ := @ih (acc.1 ++ [⟨p, t⟩], w₁) hstate
        have hpos : (viable event t w).1 = true := hviable.symm
        simp only [List.filter_cons, hpos, if_true, List.map_cons]
        exact ⟨by rw [hlist, List.append_assoc, List.singleton_append], hfinal⟩
      · rename_i w₁ heq
        rw [heq] at hviable hstate
        have ⟨hlist, hfinal⟩ := @ih (acc.1, w₁) hstate
        have hneg : (viable event t w).1 = false := hviable.symm
        simp only [List.filter_cons, hneg, Bool.false_eq_true, if_false]
        exact ⟨hlist, hfinal⟩

/-- The recursion up to the statechart. -/
theorem search_eq_candidates (hguards : GuardsCallNoFunction root) {event : String} {w : World}
    (curr : StateRef) {acc : List (PlacedTransition Name) × World}
    (hacc : acc.2.eState = w.eState) :
    (search root event curr acc).1 = acc.1 ++ candidates root w event curr ∧
      (search root event curr acc).2.eState = w.eState := by
  induction curr generalizing acc with
  | nil =>
      have ⟨hlist, hstate⟩ := @searchState_eq event [] w _ (hguards []) acc hacc
      refine ⟨?_, hstate⟩
      rw [search, hlist]
      simp [candidates, candidatesAt]
  | cons i p ih =>
      have ⟨hlist, hstate⟩ := @searchState_eq event (i :: p) w _ (hguards (i :: p)) acc hacc
      have ⟨hrest, hfinal⟩ := ih hstate
      refine ⟨?_, hfinal⟩
      rw [search, hrest, hlist, List.append_assoc]
      rfl

/-! ### The selection -/

/-- What `get_valid_transition` ends with, for the transitions that it has found. -/
structure Selects (S : Set (PlacedTransition Name)) (selection : Selection) : Prop where
  transition : ∀ t, selection = .transition t ↔ S = {t}
  nonDeterminism : (∃ ts, selection = .nonDeterminism ts) ↔ S.Nontrivial
  validTransitions : ∀ ts, selection = .nonDeterminism ts → ts.Nodup ∧ ∀ t, t ∈ ts ↔ t ∈ S
  noViableTransition : selection = .noViableTransition ↔ S = ∅

/-- The end of `get_valid_transition` tells one transition from several ones. -/
theorem selects_select {S : Set (PlacedTransition Name)} {ts : List (PlacedTransition Name)}
    (hnodup : ts.Nodup) (hmem : ∀ t, t ∈ ts ↔ t ∈ S) : Selects S (select ts) := by
  cases ts with
  | nil =>
      have hempty : S = ∅ := Set.eq_empty_of_forall_notMem fun t ht =>
        by simpa using (hmem t).mpr ht
      rw [hempty]
      exact ⟨by simp [select], by simp [select], by simp [select], by simp [select]⟩
  | cons t ts =>
      have ht : t ∈ S := (hmem t).mp List.mem_cons_self
      cases ts with
      | nil =>
          have hsingle : S = {t} := by
            ext t'
            rw [← hmem t', List.mem_singleton, Set.mem_singleton_iff]
          rw [hsingle]
          exact ⟨by simp [select], by simp [select], by simp [select], by simp [select]⟩
      | cons t' ts =>
          have ht' : t' ∈ S := (hmem t').mp (by simp)
          have hne : t ≠ t' := by
            intro h
            exact (List.nodup_cons.mp hnodup).1 (h ▸ List.mem_cons_self)
          have hmany : S.Nontrivial := ⟨t, ht, t', ht', hne⟩
          refine ⟨fun x => ?_, ?_, ?_, ?_⟩
          · simp [select, hmany.ne_singleton]
          · simp [select, hmany]
          · intro ts' h
            have hts : t :: t' :: ts = ts' := by simpa [select] using h
            exact hts ▸ ⟨hnodup, hmem⟩
          · simp [select, hmany.nonempty.ne_empty]

/-- In a configuration that is the chain of `curr`, the first one of the two sets of enabled
transitions that is not empty decides: its only member is returned, and of several ones
`get_valid_transition` reports exactly these. -/
theorem getValidTransition_spec {sc : Statechart} {c : CheckedStatechart}
    (hc : typecheck sc = .ok c)
    (hguards : GuardsCallNoFunction c.root) {curr : StateRef} {w : World}
    (hconf : w.eState.configuration = chain curr) (event : String) :
    (enabled c.root w event ≠ ∅ →
        Selects (enabled c.root w event) (getValidTransition c.root curr event w).1) ∧
      (enabled c.root w event = ∅ →
        Selects (enabled c.root w "null") (getValidTransition c.root curr event w).1) := by
  have ⟨hfirst, hstate⟩ := @search_eq_candidates _ hguards event w curr ([], w) rfl
  have hmem : ∀ x, ∀ t, t ∈ candidates c.root w x curr ↔ t ∈ enabled c.root w x :=
    fun x t => mem_candidates hc hconf
  have hselects : ∀ x, Selects (enabled c.root w x) (select (candidates c.root w x curr)) :=
    fun x => selects_select (nodup_candidates hc curr w x) (hmem x)
  rw [List.nil_append] at hfirst
  unfold getValidTransition
  split
  · rename_i w₁ heq
    rw [heq] at hfirst hstate
    have hfirst : [] = candidates c.root w event curr := hfirst
    have hempty : enabled c.root w event = ∅ := by
      refine Set.eq_empty_of_forall_notMem fun t ht => ?_
      have hcandidate := (hmem event t).mpr ht
      rw [← hfirst] at hcandidate
      cases hcandidate
    refine ⟨fun h => absurd hempty h, fun _ => ?_⟩
    by_cases hnull : event = "null"
    · rw [if_pos hnull]
      have hnone := hselects event
      rw [← hfirst, hnull] at hnone
      exact hnone
    · rw [if_neg hnull]
      -- The second search starts with the log of the first one.
      have ⟨hsecond, _⟩ := @search_eq_candidates _ hguards "null" w curr ([], w₁) hstate
      rw [List.nil_append] at hsecond
      show Selects (enabled c.root w "null") (select (search c.root "null" curr ([], w₁)).1)
      rw [hsecond]
      exact hselects "null"
  · rename_i ts w₁ hne heq
    rw [heq] at hfirst
    have hfirst : ts = candidates c.root w event curr := hfirst
    refine ⟨fun _ => hfirst ▸ hselects event, fun hempty => ?_⟩
    have hnil : ts = [] := by
      refine List.eq_nil_iff_forall_not_mem.mpr fun t ht => ?_
      have henabled := (hmem event t).mp (hfirst ▸ ht)
      rw [hempty] at henabled
      exact henabled
    exact absurd hnil hne

end

set_option maxRecDepth 4000 in
/-- When the courier has been started, the event `go` enables one transition. -/
theorem getValidTransition_spec_courier :
    ∃ t, enabled (accepted courier).root (loopHead (accepted courier) 10 [] []).2 "go" = {t} := by
  have hconf : (loopHead (accepted courier) 10 [] []).2.eState.configuration = chain [0] :=
    by decide
  have hmem : ∃ t,
    t ∈ enabled (accepted courier).root (loopHead (accepted courier) 10 [] []).2 "go" :=
    ⟨⟨[], _⟩, List.mem_of_getElem? (i := 0) rfl, by decide, by decide, rfl⟩
  have hspec := (getValidTransition_spec courier_accepted (by decide) hconf "go").1
    (Set.nonempty_iff_ne_empty.mp hmem)
  exact ⟨_, (hspec.transition _).mp rfl⟩

end Stabl
