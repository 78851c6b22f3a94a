import Stabl.Proofs.Simulator.Phases
import Stabl.SymbolicExecution.Engine

/-!
# `Stabl.Proofs.Simulator.Steps`: the exits and entries of a transition

The sequence of exits, action and entries that a transition of the simulator logs. The
exits are the states from the current one up to the lub (`bubbleUp_steps`). The entries
are those on the way down (`enterPath_steps`), then the descent of `getAtomicState`. The
descent is compared with the first substates: `getAtomicState_steps` says when it
follows them.

The histories decide where the descent goes, so every lemma says what becomes of them.
-/

set_option autoImplicit false

namespace Stabl

open Result TreeAddress World

/-- An exit, an action or an entry, in a transition. -/
inductive TransitionStep where
  | exit (s : StateRef)
  | action (state : StateRef) (transition : String)
  | enter (s : StateRef)
deriving DecidableEq

/-- The exits, actions and entries of a log. -/
def logSteps (log : List Event) : List TransitionStep :=
  log.filterMap fun e =>
    match e with
    | .enterState s => some (.enter s)
    | .exitState s => some (.exit s)
    | .action state transition => some (.action state transition)
    | _ => none

@[simp] theorem logSteps_append (log log' : List Event) :
    logSteps (log ++ log') = logSteps log ++ logSteps log' := by
  simp [logSteps]

/-- From `w` to `w'` the steps are made, and no history changes. -/
structure StepsTo (steps : List TransitionStep) (w w' : World) : Prop where
  log : logSteps w'.log = logSteps w.log ++ steps
  stateHistory : w'.eState.stateHistory = w.eState.stateHistory
  valueHistory : w'.eState.valueHistory = w.eState.valueHistory

namespace StepsTo

theorem rfl (w : World) : StepsTo [] w w := ⟨by simp, Eq.refl _, Eq.refl _⟩

theorem trans {a b c : World} {steps steps' : List TransitionStep} (h : StepsTo steps a b)
    (h' : StepsTo steps' b c) : StepsTo (steps ++ steps') a c where
  log := by rw [h'.log, h.log, List.append_assoc]
  stateHistory := h'.stateHistory.trans h.stateHistory
  valueHistory := h'.valueHistory.trans h.valueHistory

/-- Code makes no steps. -/
theorem of_computesTo {w w' : World} (h : w.ComputesTo w') : StepsTo [] w w' where
  log := by
    have ⟨trace, hlog, _⟩ := h.accesses
    have hnone : logSteps (trace.map Event.access) = [] := by simp [logSteps]
    rw [hlog, logSteps_append, hnone]
  stateHistory := h.stateHistory
  valueHistory := h.valueHistory

/-- The log entries for entry and exit code are no steps. -/
theorem of_record {w w' : World} {e : Event} {steps : List TransitionStep}
    (he : logSteps [e] = steps) (h : (w.record e).ComputesTo w') : StepsTo steps w w' where
  log := by rw [(of_computesTo h).log, record_log, logSteps_append, he, List.append_nil]
  stateHistory := h.stateHistory
  valueHistory := h.valueHistory

end StepsTo

section
variable {root : State Name}

/-! ### Entering a state -/

/-- `enterState s` throws: a static variable of the state has no value of a last exit. -/
def EnterThrows (root : State Name)
    (valueHistory : StateRef → Option (DeclarationRef → Option Constant))
    (s : StateRef) : Prop :=
  (∃ d ∈ root.declarationsAt s, d.scope = .staticScope) ∧ valueHistory s = none

theorem stepsTo_of_entersTo {s : StateRef} {w w' : World} (h : EntersTo root s w w') :
    StepsTo [.enter s] w w' where
  log := by rw [h.log, logSteps_append]; rfl
  stateHistory := h.stateHistory
  valueHistory := h.valueHistory

/-- A state is entered and its entry statement executed. -/
theorem enterAndExecute_steps {fuel : Nat} {s : StateRef} {w w' : World}
    (h : enterAndExecute root fuel s w = .ok w') :
    StepsTo [.enter s] w w' ∧ ¬ EnterThrows root w.eState.valueHistory s := by
  have ⟨w₁, henter, hentry⟩ := (enterAndExecute_eq_ok root).mp h
  have hcode : StepsTo [] w₁ w' := .of_record rfl (executeStatement_computesTo hentry)
  refine ⟨(stepsTo_of_entersTo (enterState_entersTo henter)).trans hcode, ?_⟩
  rintro ⟨⟨d, hd, hstatic⟩, hnone⟩
  have ⟨values, hvalues, _⟩ := enterState_static henter
    (v := ⟨s, d.vname⟩) ⟨rfl, d, hd, rfl, by simp [hstatic]⟩
  rw [hnone] at hvalues
  cases hvalues

/-- The entry is logged before `enterState` throws. -/
theorem enterAndExecute_steps_exception {fuel : Nat} {s : StateRef} {w w' : World}
    (h : enterAndExecute root fuel s w = .error (.exception w')) :
    StepsTo [.enter s] w w' ∧ EnterThrows root w.eState.valueHistory s := by
  have ⟨w₁, heq, henter, hstatic, hnone⟩ := enterState_throws (enterAndExecute_exception root h)
  have hw : w' = w₁ := by simpa using heq
  exact ⟨hw ▸ stepsTo_of_entersTo henter, hstatic, hnone⟩

/-- The entries of a list of states, up to one that throws. -/
theorem foldlM_enterAndExecute_steps (root : State Name) (fuel : Nat) (states : List StateRef) :
    ∀ (w w' : World),
    (states.foldlM (fun w s => enterAndExecute root fuel s w) w = .ok w' →
      StepsTo (states.map .enter) w w') ∧
    (states.foldlM (fun w s => enterAndExecute root fuel s w) w = .error (.exception w') →
      ∃ s rest entered, states = s :: rest ∧ entered <+: rest ∧
        StepsTo (.enter s :: entered.map .enter) w w') := by
  induction states with
  | nil =>
      intro w w'
      constructor
      · intro h
        rw [List.foldlM_nil, pure_eq_ok] at h
        exact h ▸ .rfl w
      · intro h
        cases h
  | cons s states ih =>
      intro w w'
      constructor
      · intro h
        have ⟨w₁, hfirst, hrest⟩ := bind_eq_ok.mp h
        exact (enterAndExecute_steps hfirst).1.trans ((ih w₁ w').1 hrest)
      · intro h
        rcases bind_eq_error.mp h with hfirst | ⟨w₁, hfirst, hrest⟩
        · exact ⟨s, states, [], rfl, List.nil_prefix, (enterAndExecute_steps_exception hfirst).1⟩
        · have ⟨s', rest, entered, hstates, hentered, hsteps⟩ := (ih w₁ w').2 hrest
          refine ⟨s, states, s' :: entered, rfl, ?_, (enterAndExecute_steps hfirst).1.trans hsteps⟩
          rw [hstates]
          exact (List.prefix_cons_inj s').mpr hentered

/-! ### The way up -/

/-- The child of `s` that was left last, when the states `exits` are left in this order. -/
def lastChild (exits : List StateRef) (stateHistory : StateRef → Option StateRef) (s : StateRef) :
    Option StateRef :=
  (exits.reverse.find? fun q => getSuperstate q = some s).or (stateHistory s)

theorem lastChild_snoc (exits : List StateRef) (stateHistory : StateRef → Option StateRef)
    (q s : StateRef) : lastChild (exits ++ [q]) stateHistory s =
      if getSuperstate q = some s then some q else lastChild exits stateHistory s := by
  by_cases h : getSuperstate q = some s
  · simp [lastChild, h]
  · simp [lastChild, h]

/-- From `w` to `w'` the states are left. The value histories are followed for states with
variables only. -/
structure LeavesTo (root : State Name) (exits : List StateRef) (w w' : World) : Prop where
  log : logSteps w'.log = logSteps w.log ++ exits.map .exit
  stateHistory : ∀ s, w'.eState.stateHistory s = lastChild exits w.eState.stateHistory s
  valueHistory : ∀ s, root.declarationsAt s ≠ [] →
    (w'.eState.valueHistory s = none ↔ s ∉ exits ∧ w.eState.valueHistory s = none)

theorem LeavesTo.refl (w : World) : LeavesTo root [] w w :=
  ⟨by simp, fun s => by simp [lastChild], fun s _ => by simp⟩

/-- One more state is left. -/
theorem LeavesTo.exit {exits : List StateRef} {w w₁ w₂ : World} (h : LeavesTo root exits w w₁)
    {q : StateRef} (hcode : StepsTo [] w₁ w₂) :
      LeavesTo root (exits ++ [q]) w (w₂.exitState root q) := by
  have hexit := exitState_exitsTo root q w₂
  have ⟨hother, hself⟩ := exitState_valueHistory root q w₂
  refine ⟨?_, fun s => ?_, fun s hs => ?_⟩
  · rw [hexit.log, logSteps_append, hcode.log, h.log]
    simp [logSteps]
  · rw [hexit.stateHistory, hcode.stateHistory, h.stateHistory, lastChild_snoc]
  · by_cases hsq : s = q
    · subst hsq
      simp [hself hs]
    · rw [hother s hsq, hcode.valueHistory, h.valueHistory s hs]
      simp [hsq]

/-- The way up to an ancestor leaves the states on it, innermost first. -/
theorem bubbleUp_steps {fuel : Nat} {l p : StateRef} (hl : l <:+ p) {w w' : World}
    (h : bubbleUp root fuel (some l) p w = .ok w') : LeavesTo root (climb l p) w w' := by
  -- The states left so far, followed by those still to be left, are the whole climb.
  have hrule := bubbleUp_preserves hl (P := fun q w₁ =>
    ∃ exits, exits ++ climb l q = climb l p ∧ LeavesTo root exits w w₁) ?_ ⟨[], rfl, .refl w⟩ h
  · have ⟨exits, hexits, hleaves⟩ := hrule
    rw [climb_self, List.append_nil] at hexits
    exact hexits ▸ hleaves
  · rintro i q w₁ w₂ hlq _ ⟨exits, hexits, hleaves⟩ hcomp
    refine ⟨exits ++ [i :: q], ?_, hleaves.exit (.of_record rfl hcomp)⟩
    rw [← hexits, climb_cons_of_suffix hlq, List.append_assoc, List.singleton_append]

/-! ### The descent -/

theorem firstSubstatesAt_of_atomic {p : StateRef} (h : root.isAtomicAt p = true) :
    root.firstSubstatesAt p = [] := by
  unfold State.firstSubstatesAt
  unfold State.isAtomicAt at h
  cases hs : root.stateAt p with
  | none => rfl
  | some s =>
      simp only [hs] at h ⊢
      cases s with
      | mk name decs entry exit states transitions history region shell fin =>
          have hempty : states = [] := List.isEmpty_iff.mp h
          simp [State.firstSubstates, firstSubstatesOf, hempty]

theorem firstSubstatesAt_of_not_atomic {p : StateRef} (h : root.isAtomicAt p = false) :
    root.firstSubstatesAt p = (0 :: p) :: root.firstSubstatesAt (0 :: p) := by
  unfold State.isAtomicAt at h
  cases hs : root.stateAt p with
  | none => simp [hs] at h
  | some s =>
      simp only [hs] at h
      cases s with
      | mk name decs entry exit states transitions history region shell fin =>
          cases states with
          | nil => simp at h
          | cons s₀ rest =>
              have hchild : root.stateAt (0 :: p) = some s₀ := by
                rw [State.stateAt_cons, hs]
                rfl
              simp only [State.firstSubstatesAt, hs, hchild]
              rw [State.firstSubstates, firstSubstatesOf]

/-- Below `s` the descent goes on in the first substate. -/
def GoesFirst (root : State Name) (stateHistory : StateRef → Option StateRef) (s : StateRef) :
    Prop :=
  root.isAtomicAt s = false → root.maintainsHistoryAt s = true →
    ∀ c, stateHistory s = some c → c = 0 :: s

theorem nextSubstate_eq_first {s : StateRef} {w : World} (h : root.isAtomicAt s = false) :
    nextSubstate root s w = 0 :: s ↔ GoesFirst root w.eState.stateHistory s := by
  unfold nextSubstate GoesFirst
  by_cases hhist : root.maintainsHistoryAt s = true
  · simp only [hhist, if_true, h, true_implies, World.getHistoryState]
    cases hc : w.eState.stateHistory s with
    | none => simp
    | some c => simp
  · simp [hhist]

/-- What the descent that enters `p` has to meet on its way, to enter the first substates
and no others. -/
def DescendsFirst (root : State Name) (w : World) (p : StateRef) : Prop :=
  ∀ s ∈ p :: root.firstSubstatesAt p, GoesFirst root w.eState.stateHistory s ∧
    (root.isAtomicAt s = false → ¬ EnterThrows root w.eState.valueHistory s)

/-- The descent enters `p` and then other states, which are the first substates exactly
when every step of it goes there. -/
theorem getAtomicState_steps {fuel : Nat} : ∀ {p : StateRef} {w : World} {r : StateRef × World},
    getAtomicState root fuel p 1 w = .ok r →
    ∃ entered, StepsTo (.enter p :: entered.map .enter) w r.2 ∧
      (entered = root.firstSubstatesAt p ↔ DescendsFirst root w p) := by
  induction fuel with
  | zero =>
      intro p w r h
      simp [getAtomicState] at h
  | succ fuel ih =>
      intro p w r h
      rw [getAtomicState] at h
      simp only [if_true] at h
      split at h
      · -- The entry of `p` throws, and the descent ends there.
        rename_i w₁ hthrow
        have ⟨hsteps, hthrows⟩ := enterAndExecute_steps_exception hthrow
        rw [Except.ok.injEq] at h
        refine ⟨[], h ▸ hsteps, ?_⟩
        cases hatomic : root.isAtomicAt p with
        | true => simp [DescendsFirst, firstSubstatesAt_of_atomic hatomic, GoesFirst, hatomic]
        | false =>
            rw [firstSubstatesAt_of_not_atomic hatomic]
            have hnot : ¬ DescendsFirst root w p := fun hd =>
              (hd p List.mem_cons_self).2 hatomic hthrows
            simp [hnot]
      · cases h
      · -- After the entry of `p`, the descent ends there or goes on in a substate.
        rename_i w₁ henter
        have ⟨hsteps, hnothrow⟩ := enterAndExecute_steps henter
        cases hatomic : root.isAtomicAt p with
        | true =>
            rw [if_pos hatomic, Except.ok.injEq] at h
            refine ⟨[], h ▸ hsteps, ?_⟩
            simp [DescendsFirst, firstSubstatesAt_of_atomic hatomic, GoesFirst, hatomic]
        | false =>
            rw [if_neg (by simp [hatomic])] at h
            have ⟨entered, hentered, hiff⟩ := ih h
            refine ⟨nextSubstate root p w₁ :: entered, hsteps.trans hentered, ?_⟩
            have hnext : nextSubstate root p w₁ = 0 :: p ↔
              GoesFirst root w₁.eState.stateHistory p :=
              nextSubstate_eq_first hatomic
            rw [hsteps.stateHistory] at hnext
            rw [firstSubstatesAt_of_not_atomic hatomic, List.cons.injEq, hnext]
            unfold DescendsFirst at hiff ⊢
            rw [hsteps.stateHistory, hsteps.valueHistory] at hiff
            rw [firstSubstatesAt_of_not_atomic hatomic, List.forall_mem_cons]
            constructor
            · rintro ⟨hfirst, heq⟩
              have hp : nextSubstate root p w₁ = 0 :: p :=
                (nextSubstate_eq_first hatomic).mpr (hsteps.stateHistory ▸ hfirst)
              rw [hp] at hiff
              exact ⟨⟨hfirst, fun _ => hnothrow⟩, hiff.mp heq⟩
            · rintro ⟨⟨hfirst, _⟩, hrest⟩
              have hp : nextSubstate root p w₁ = 0 :: p :=
                (nextSubstate_eq_first hatomic).mpr (hsteps.stateHistory ▸ hfirst)
              rw [hp] at hiff
              exact ⟨hfirst, hiff.mpr hrest⟩

/-- The descent below a state that has been entered already. -/
theorem getAtomicState_steps_below {fuel : Nat} {p : StateRef} {w : World} {r : StateRef × World}
    (h : getAtomicState root fuel p 0 w = .ok r) :
    ∃ entered, StepsTo (entered.map .enter) w r.2 ∧
      (entered = root.firstSubstatesAt p ↔ GoesFirst root w.eState.stateHistory p ∧
        ∀ s ∈ root.firstSubstatesAt p, GoesFirst root w.eState.stateHistory s ∧
          (root.isAtomicAt s = false → ¬ EnterThrows root w.eState.valueHistory s)) := by
  cases fuel with
  | zero => simp [getAtomicState] at h
  | succ fuel =>
      rw [getAtomicState] at h
      simp only [Nat.reduceEqDiff, if_false] at h
      cases hatomic : root.isAtomicAt p with
      | true =>
          rw [if_pos hatomic, Except.ok.injEq] at h
          refine ⟨[], h ▸ .rfl w, ?_⟩
          simp [firstSubstatesAt_of_atomic hatomic, GoesFirst, hatomic]
      | false =>
          rw [if_neg (by simp [hatomic])] at h
          have ⟨entered, hentered, hiff⟩ := getAtomicState_steps h
          refine ⟨nextSubstate root p w :: entered, hentered, ?_⟩
          have hnext : nextSubstate root p w = 0 :: p ↔ GoesFirst root w.eState.stateHistory p :=
            nextSubstate_eq_first hatomic
          rw [firstSubstatesAt_of_not_atomic hatomic, List.cons.injEq, hnext]
          unfold DescendsFirst at hiff
          constructor
          · rintro ⟨hfirst, heq⟩
            rw [hnext.mpr hfirst] at hiff
            exact ⟨hfirst, hiff.mp heq⟩
          · rintro ⟨hfirst, hrest⟩
            rw [hnext.mpr hfirst] at hiff
            exact ⟨hfirst, hiff.mpr hrest⟩

/-! ### The whole transition -/

/-- The way down enters the destination first only where it is a child of `l`. -/
theorem climb_reverse_head {l d : StateRef} (hl : l <:+ d) (hne : d ≠ l) {rest : List StateRef}
    (h : (climb l d).reverse = d :: rest) : getSuperstate d = some l := by
  cases d with
  | nil => exact absurd (List.suffix_nil.mp hl).symm hne
  | cons i q =>
      have hlq : l <:+ q := (List.suffix_cons_iff.mp hl).resolve_left hne.symm
      rw [climb_cons_of_suffix hlq, List.reverse_cons] at h
      show some q = some l
      congr 1
      by_contra hql
      cases hrev : (climb l q).reverse with
      | nil => exact climb_ne_nil hlq hql (List.reverse_eq_nil_iff.mp hrev)
      | cons s states =>
          rw [hrev] at h
          have hs : s ∈ climb l q := by
            rw [← List.mem_reverse, hrev]
            exact List.mem_cons_self
          have hsq : s <:+ q := ((mem_climb hlq).mp hs).1
          have hsi : s = i :: q := (List.cons.inj h).1
          exact cons_not_suffix i q (hsi ▸ hsq)

/-- Below the destination of the transition, the descent takes first substates: the child
that a `HISTORY` state was left in last is its first one, and no entry throws before the
last. Both are said of the world before the transition, which leaves some states itself. -/
structure BelowFirst (root : State Name) (t : PlacedTransition Name) (curr : StateRef) (w : World) :
    Prop where
  history : ∀ s ∈ t.transition.destination :: root.firstSubstatesAt t.transition.destination,
    GoesFirst root (lastChild (climb t.state curr) w.eState.stateHistory) s
  statics : ∀ s ∈ root.firstSubstatesAt t.transition.destination, root.isAtomicAt s = false →
    EnterThrows root w.eState.valueHistory s → s ∈ climb t.state curr

/-- The way down enters its first state in any case. -/
theorem enterPath_steps {l p : StateRef} (hl : l <:+ p) (hne : p ≠ l) {fuel : Nat} {w w' : World}
    (h : enterPath root fuel l p w = .ok w' ∨
      enterPath root fuel l p w = .error (.exception w')) :
    ∃ s rest way, (climb l p).reverse = s :: rest ∧ way <+: rest ∧
      StepsTo ((s :: way).map .enter) w w' := by
  have hpath := foldlM_enterAndExecute_steps root fuel (climb l p).reverse w w'
  rcases h with h | h
  · have hsteps := hpath.1 h
    cases hrev : (climb l p).reverse with
    | nil => exact absurd (List.reverse_eq_nil_iff.mp hrev) (climb_ne_nil hl hne)
    | cons s rest =>
        rw [hrev] at hsteps
        exact ⟨s, rest, rest, rfl, List.prefix_refl _, hsteps⟩
  · have ⟨s, rest, entered, hstates, hentered, hsteps⟩ := hpath.2 h
    exact ⟨s, rest, entered, hstates, hentered, hsteps⟩

/-- Entering a state throws no more once it has been left. -/
theorem LeavesTo.enterThrows_iff {exits : List StateRef} {w w' : World}
    (h : LeavesTo root exits w w') (q : StateRef) :
    EnterThrows root w'.eState.valueHistory q ↔
      EnterThrows root w.eState.valueHistory q ∧ q ∉ exits := by
  constructor
  · rintro ⟨⟨d, hd, hstatic⟩, hnone⟩
    have ⟨hq, hbefore⟩ := (h.valueHistory q (List.ne_nil_of_mem hd)).mp hnone
    exact ⟨⟨⟨d, hd, hstatic⟩, hbefore⟩, hq⟩
  · rintro ⟨⟨⟨d, hd, hstatic⟩, hnone⟩, hq⟩
    exact ⟨⟨d, hd, hstatic⟩, (h.valueHistory q (List.ne_nil_of_mem hd)).mpr ⟨hq, hnone⟩⟩

/-- The steps of a transition with the descent after it: the exits from the current state
up to the lub, the action, entries on the way down, and the entries of the descent. -/
theorem performTransition_steps {t : PlacedTransition Name} {curr : StateRef}
    (hlub : lub t.transition.source t.transition.destination = some t.state)
    (hcurr : t.state <:+ curr) {fuel fuel' : Nat} {w w' : World} {r : StateRef × World}
    (hperform : performTransition root fuel t curr w = .ok w')
    (hdescend : getAtomicState root fuel' t.transition.destination 0 w' = .ok r) :
    ∃ s rest way below, (climb t.state t.transition.destination).reverse = s :: rest ∧
      way <+: rest ∧
      logSteps r.2.log = logSteps w.log ++ ((climb t.state curr).map .exit ++
        .action t.state t.transition.name :: (s :: (way ++ below)).map .enter) ∧
      (below = root.firstSubstatesAt t.transition.destination ↔ BelowFirst root t curr w) := by
  have ⟨w₁, w₂, hup, haction, hdown⟩ := (performTransition_eq_ok hlub hcurr).mp hperform
  have hleaves := bubbleUp_steps hcurr hup
  have hact : StepsTo [.action t.state t.transition.name] w₁ w₂ :=
    .of_record rfl (executeStatement_computesTo haction)
  have ⟨below, hbelow, hiff⟩ := getAtomicState_steps_below hdescend
  have ⟨hsuffix, hne⟩ := (lub_proper hlub).2
  have ⟨s, rest, way, hrev, hwayrest, hsteps⟩ := enterPath_steps hsuffix hne.symm hdown
  refine ⟨s, rest, way, below, hrev, hwayrest, ?_, ?_⟩
  · rw [hbelow.log, hsteps.log, hact.log, hleaves.log]
    simp
  · have hstate :
      w'.eState.stateHistory = lastChild (climb t.state curr) w.eState.stateHistory := by
      funext q
      rw [hsteps.stateHistory, hact.stateHistory, hleaves.stateHistory]
    have hvalue : ∀ q, EnterThrows root w'.eState.valueHistory q ↔
        EnterThrows root w.eState.valueHistory q ∧ q ∉ climb t.state curr := by
      intro q
      rw [hsteps.valueHistory, hact.valueHistory]
      exact hleaves.enterThrows_iff q
    rw [hiff, hstate]
    simp only [hvalue]
    constructor
    · rintro ⟨hfirst, hall⟩
      refine ⟨?_, fun q hq hatomic hthrows => ?_⟩
      · intro q hq
        rcases List.mem_cons.mp hq with rfl | hq
        · exact hfirst
        · exact (hall q hq).1
      · by_contra hmem
        exact (hall q hq).2 hatomic ⟨hthrows, hmem⟩
    · intro h
      refine ⟨h.history _ List.mem_cons_self, fun q hq =>
        ⟨h.history q (List.mem_cons_of_mem _ hq), ?_⟩⟩
      rintro hatomic ⟨hthrows, hmem⟩
      exact hmem (h.statics q hq hatomic hthrows)

end

end Stabl
