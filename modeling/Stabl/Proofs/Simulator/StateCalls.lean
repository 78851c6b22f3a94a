import Stabl.Lib.CallTrace
import Stabl.Proofs.Simulator.Configuration
import Stabl.Simulator.StateCalls

/-!
# `Stabl.Proofs.Simulator.StateCalls`: every call is reached by a run

`StateRun` says what happens between the calls of a run: `exitState` has its effect, and so
has `enterState`, also when it throws. Everything else leaves the configuration and the
histories as they are. `simulateCalls_along` goes once through the simulator: each call of
a run is made in the world that the calls before it lead to, and where no `enterState`
can throw, the calls are `Ordered`.

`At p before w` is the invariant between two calls, at the position `p`.
-/

set_option autoImplicit false

namespace Stabl

open Result TreeAddress World CallTrace

/-! ### Runs of calls -/

/-- The configuration and the histories are the same. -/
structure World.SameStates (w w' : World) : Prop where
  configuration : w'.eState.configuration = w.eState.configuration
  stateHistory : w'.eState.stateHistory = w.eState.stateHistory
  valueHistory : w'.eState.valueHistory = w.eState.valueHistory

theorem World.SameStates.of_computesTo {w w' : World} (h : w.ComputesTo w') : w.SameStates w' :=
  ⟨h.configuration, h.stateHistory, h.valueHistory⟩

/-- What a call does. `enterState` may throw midway. -/
def StateCall.Effect (root : State Name) : StateCall → World → Prop
  | .enter s w, w' => EntersTo root s w w'
  | .exit s w, w' => w' = w.exitState root s
  | .descend _ _ w, w' => w' = w

/-- A run makes the calls. -/
def StateRun (root : State Name) : World → List StateCall → World → Prop :=
  Run StateCall.world (StateCall.Effect root) World.SameStates

/-- The order of the calls. States are entered and left along the chain: a state that is
left is atomic, or its substate has just been left. The descent goes on from a state that
has just been entered. -/
def Ordered (root : State Name) (before : List StateCall) : StateCall → Prop
  | .enter s w => w.eState.configuration = getAllSuperstates s
  | .exit s w => w.eState.configuration = chain s ∧
    (root.isAtomicAt s ∨ ∃ b i w₁, before = b ++ [.exit (i :: s) w₁])
  | .descend s child w => w.eState.configuration = chain s ∧ ¬ root.isAtomicAt s ∧
    child = nextSubstate root s w ∧ ∃ b w₁, before = b ++ [.enter s w₁]

section
variable (root : State Name) (w₀ : World)

/-- A call of a run that started in `w₀`. -/
def CallOfRun (before : List StateCall) (c : StateCall) : Prop :=
  StateRun root w₀ before c.world ∧ (StaticsAtTop root → Ordered root before c)

/-- Between two calls, at the position `p`. -/
structure At (p : StateRef) (before : List StateCall) (w : World) : Prop where
  run : StateRun root w₀ before w
  inState : StaticsAtTop root → InState root p w

end

section
variable {root : State Name} {w₀ : World}

theorem StateRun.call {before : List StateCall} (c : StateCall) {w' : World}
    (h : StateRun root w₀ before c.world) (hc : c.Effect root w') :
    StateRun root w₀ (before ++ [c]) w' := Run.call h hc

theorem At.computesTo {p : StateRef} {before : List StateCall} {w w' : World}
    (h : At root w₀ p before w) (hw : w.ComputesTo w') : At root w₀ p before w' :=
  ⟨h.run.silent (.of_computesTo hw), fun hstatics => (h.inState hstatics).computesTo hw⟩

theorem At.record {p : StateRef} {before : List StateCall} {w : World} (h : At root w₀ p before w)
    {e : Event} (he : marks [e] = []) : At root w₀ p before (w.record e) :=
  ⟨h.run.silent ⟨rfl, rfl, rfl⟩, fun hstatics => (h.inState hstatics).record he⟩

/-- A state is left. -/
theorem At.exit {i : Nat} {p : StateRef} {before : List StateCall} {w : World}
    (h : At root w₀ (i :: p) before w) :
    At root w₀ p (before ++ [.exit (i :: p) w]) (w.exitState root (i :: p)) :=
  ⟨.call (.exit (i :: p) w) h.run rfl, fun hstatics => (h.inState hstatics).exit⟩

/-- A state is entered and its entry statement executed. -/
theorem StateRun.enter {before : List StateCall} {s : StateRef} {w w' : World} {fuel : Nat}
    (h : StateRun root w₀ before w) (hw : enterAndExecute root fuel s w = .ok w') :
    StateRun root w₀ (before ++ [.enter s w]) w' := by
  have ⟨w₁, henter, hentry⟩ := (enterAndExecute_eq_ok root).mp hw
  have hcall : StateRun root w₀ (before ++ [.enter s w]) w₁ :=
    .call (.enter s w) h (enterState_entersTo henter)
  have hrecord : StateRun root w₀ (before ++ [.enter s w]) (w₁.record (.entry s)) :=
    hcall.silent ⟨rfl, rfl, rfl⟩
  exact hrecord.silent (.of_computesTo (executeStatement_computesTo hentry))

/-- The same when `enterState` throws. -/
theorem StateRun.enter_throws {before : List StateCall} {s : StateRef} {w w' : World} {fuel : Nat}
    (h : StateRun root w₀ before w)
    (hw : enterAndExecute root fuel s w = .error (.exception w')) :
    StateRun root w₀ (before ++ [.enter s w]) w' := by
  have ⟨w₁, heq, henter, _⟩ := enterState_throws (enterAndExecute_exception root hw)
  obtain rfl : w' = w₁ := by simpa using heq
  exact .call (.enter s w) h henter

/-! ### The way up -/

/-- The calls of the way up, and what holds after it. -/
theorem bubbleUpCalls_along (fuel : Nat) {l p : StateRef} (hl : l <:+ p) :
    ∀ {before : List StateCall} {w : World}, At root w₀ p before w →
      (StaticsAtTop root → root.isAtomicAt p ∨ ∃ b i w₁, before = b ++ [.exit (i :: p) w₁]) →
      Along (CallOfRun root w₀) before (bubbleUpCalls root fuel (some l) p w) ∧
        ∀ w', bubbleUp root fuel (some l) p w = .ok w' →
          At root w₀ l (before ++ bubbleUpCalls root fuel (some l) p w) w' := by
  induction p with
  | nil =>
      intro before w h _
      obtain rfl := List.suffix_nil.mp hl
      rw [bubbleUpCalls, if_pos rfl, bubbleUp, if_pos rfl, List.append_nil]
      exact ⟨trivial, fun w' hw' => Except.ok.inj hw' ▸ h⟩
  | cons i p ih =>
      intro before w h horder
      rcases List.suffix_cons_iff.mp hl with rfl | hl
      · rw [bubbleUpCalls, if_pos rfl, bubbleUp, if_pos rfl, List.append_nil]
        exact ⟨trivial, fun w' hw' => Except.ok.inj hw' ▸ h⟩
      · have hne : ¬ some (i :: p) = some l := by
          rintro ⟨⟩
          exact cons_not_suffix i p hl
        rw [bubbleUpCalls, if_neg hne, bubbleUp, if_neg hne]
        cases hexit : executeStatement fuel (root.exitAt (i :: p)) (w.record (.exit (i :: p))) with
        | error e =>
            refine ⟨trivial, fun w' hw' => ?_⟩
            cases hw'
        | ok w₁ =>
            have hleft : At root w₀ (i :: p) before w₁ :=
              (h.record rfl).computesTo (executeStatement_computesTo hexit)
            obtain ⟨hcalls, hend⟩ := ih hl hleft.exit fun _ => Or.inr ⟨before, i, w₁, rfl⟩
            refine ⟨⟨⟨hleft.run, fun hstatics => ?_⟩, hcalls⟩, fun w' hw' => ?_⟩
            · exact ⟨(hleft.inState hstatics).configuration, horder hstatics⟩
            · have hend := hend w' hw'
              rwa [List.append_assoc] at hend

/-! ### The way down -/

theorem enterCalls_append (root : State Name) (fuel : Nat) (states states' : List StateRef)
    (w : World) :
    enterCalls root fuel (states ++ states') w = enterCalls root fuel states w ++
      Sim.calls (states.foldlM (fun w s => enterAndExecute root fuel s w) w)
        (enterCalls root fuel states') := by
  induction states generalizing w with
  | nil => rfl
  | cons s states ih =>
      rw [List.cons_append, enterCalls, enterCalls, List.foldlM_cons]
      cases enterAndExecute root fuel s w with
      | error e => rfl
      | ok w₁ =>
          show .enter s w :: enterCalls root fuel (states ++ states') w₁ = _
          rw [ih]
          rfl

/-- What the way down from `l` to `p` leads to: it ends in `p`, which has just been
entered, or an exception ends it. -/
structure WayDown (root : State Name) (w₀ : World) (fuel : Nat) (l p : StateRef)
    (before : List StateCall) (w : World) : Prop where
  calls : Along (CallOfRun root w₀) before (enterCalls root fuel (climb l p).reverse w)
  ok : ∀ w', enterPath root fuel l p w = .ok w' →
    At root w₀ p (before ++ enterCalls root fuel (climb l p).reverse w) w' ∧
      (p ≠ l → ∃ b w₁, before ++ enterCalls root fuel (climb l p).reverse w = b ++ [.enter p w₁])
  throws : ∀ w', enterPath root fuel l p w = .error (.exception w') →
    StateRun root w₀ (before ++ enterCalls root fuel (climb l p).reverse w) w' ∧ ¬ StaticsAtTop root

theorem wayDown_self {fuel : Nat} {l : StateRef} {before : List StateCall} {w : World}
    (h : At root w₀ l before w) : WayDown root w₀ fuel l l before w := by
  have hcalls : enterCalls root fuel (climb l l).reverse w = [] := by
    rw [climb_self]
    rfl
  refine ⟨?_, fun w' hw' => ?_, fun w' hw' => ?_⟩
  · rw [hcalls]
    trivial
  · rw [enterPath_self] at hw'
    rw [hcalls, List.append_nil]
    exact ⟨Except.ok.inj hw' ▸ h, fun hne => absurd rfl hne⟩
  · rw [enterPath_self] at hw'
    cases hw'

theorem wayDown (fuel : Nat) {l p : StateRef} (hl : l <:+ p) (hp : (root.stateAt p).isSome)
    {before : List StateCall} {w : World} (h : At root w₀ l before w) :
    WayDown root w₀ fuel l p before w := by
  induction p with
  | nil =>
      obtain rfl := List.suffix_nil.mp hl
      exact wayDown_self h
  | cons i p ih =>
      rcases List.suffix_cons_iff.mp hl with rfl | hl
      · exact wayDown_self h
      · have hdown := ih hl (State.stateAt_isSome_of_suffix (List.suffix_cons i p) hp)
        have hpath : enterPath root fuel l (i :: p) w =
            (enterPath root fuel l p w >>= fun w => enterAndExecute root fuel (i :: p) w) :=
          enterPath_cons hl w
        have hcalls : enterCalls root fuel (climb l (i :: p)).reverse w =
            enterCalls root fuel (climb l p).reverse w ++
              (enterPath root fuel l p w).calls (enterCalls root fuel [i :: p]) := by
          rw [climb_cons_of_suffix hl, List.reverse_cons, enterCalls_append]
          rfl
        cases hfirst : enterPath root fuel l p w with
        | error e =>
            -- The way down to `p` is not completed, and no call follows it.
            rw [hfirst] at hpath hcalls
            have hnone : enterCalls root fuel (climb l (i :: p)).reverse w =
                enterCalls root fuel (climb l p).reverse w := by
              rw [hcalls]
              exact List.append_nil _
            refine ⟨?_, fun w' hw' => ?_, fun w' hw' => ?_⟩
            · rw [hnone]
              exact hdown.calls
            · rw [hpath] at hw'
              cases hw'
            · rw [hnone]
              refine hdown.throws w' ?_
              rw [hfirst, ← hw', hpath]
              rfl
        | ok w₁ =>
            rw [hfirst] at hpath hcalls
            have hw₁ := (hdown.ok w₁ hfirst).1
            -- The one call that is made after the way down to `p`.
            have hlast : enterCalls root fuel (climb l (i :: p)).reverse w =
                enterCalls root fuel (climb l p).reverse w ++ [.enter (i :: p) w₁] := by
              rw [hcalls]
              show _ ++ StateCall.enter (i :: p) w₁ :: _ = _
              congr 2
              cases enterAndExecute root fuel (i :: p) w₁ with
              | error e => rfl
              | ok w₂ => rfl
            have hentering : StaticsAtTop root → Entering root (i :: p) w₁ :=
              fun hstatics => (hw₁.inState hstatics).entering hp
            refine ⟨?_, fun w' hw' => ?_, fun w' hw' => ?_⟩
            · rw [hlast, along_append]
              exact ⟨hdown.calls, ⟨hw₁.run, fun hstatics => (hentering hstatics).configuration⟩,
                trivial⟩
            · have henter : enterAndExecute root fuel (i :: p) w₁ = .ok w' := hpath.symm.trans hw'
              rw [hlast, ← List.append_assoc]
              exact ⟨⟨hw₁.run.enter henter, fun hstatics => (hentering hstatics).enter henter⟩,
                fun _ => ⟨_, w₁, rfl⟩⟩
            · have hthrow : enterAndExecute root fuel (i :: p) w₁ = .error (.exception w') :=
                hpath.symm.trans hw'
              rw [hlast, ← List.append_assoc]
              exact ⟨hw₁.run.enter_throws hthrow,
                fun hstatics => (hentering hstatics).noException hthrow⟩

/-! ### The whole transition -/

/-- The last call has entered `p`. -/
def JustEntered (p : StateRef) (before : List StateCall) : Prop := ∃ b w, before = b ++ [.enter p w]

/-- A transition that is placed in the lub of its source and destination. -/
theorem performTransitionCalls_along (fuel : Nat) {t : PlacedTransition Name} {curr : StateRef}
    (hlub : lub t.transition.source t.transition.destination = some t.state)
    (hcurr : t.state <:+ curr) (hdest : (root.stateAt t.transition.destination).isSome)
    {before : List StateCall} {w : World} (h : At root w₀ curr before w)
    (hatomic : StaticsAtTop root → root.isAtomicAt curr) :
    Along (CallOfRun root w₀) before (performTransitionCalls root fuel t curr w) ∧
      ∀ w', performTransition root fuel t curr w = .ok w' →
        At root w₀ t.transition.destination
        (before ++ performTransitionCalls root fuel t curr w) w' ∧
          (StaticsAtTop root → JustEntered t.transition.destination
            (before ++ performTransitionCalls root fuel t curr w)) := by
  have ⟨hsuffix, hproper⟩ := (lub_proper hlub).2
  have ⟨hup, hupEnd⟩ := bubbleUpCalls_along fuel hcurr h fun hstatics => Or.inl (hatomic hstatics)
  have hdown : ∀ w, bubbleDownCalls root fuel (some t.state) t.transition.destination w =
      enterCalls root fuel (climb t.state t.transition.destination).reverse w := by
    intro w
    rw [bubbleDownCalls, pathTo_eq_climb hsuffix]
  rw [performTransitionCalls, hlub]
  cases hbubble : bubbleUp root fuel (some t.state) curr w with
  | error e =>
      -- An exception on the way up ends the transition, and it has no result.
      refine ⟨along_append.mpr ⟨hup, trivial⟩, fun w' hw' => ?_⟩
      have ⟨w₁, w₂, hw₁, _⟩ := (performTransition_eq_ok hlub hcurr).mp hw'
      rw [hbubble] at hw₁
      cases hw₁
  | ok w₁ =>
      have hw₁ := hupEnd w₁ hbubble
      cases haction : executeAction fuel t w₁ with
      | error e =>
          refine ⟨along_append.mpr ⟨hup, ?_⟩, fun w' hw' => ?_⟩
          · show Along _ _ (Sim.calls (executeAction fuel t w₁) _)
            rw [haction]
            trivial
          · have ⟨w₁', w₂, hw₁', haction', _⟩ := (performTransition_eq_ok hlub hcurr).mp hw'
            rw [hbubble, Except.ok.injEq] at hw₁'
            rw [← hw₁', haction] at haction'
            cases haction'
      | ok w₂ =>
          have hw₂ :
            At root w₀ t.state (before ++ bubbleUpCalls root fuel (some t.state) curr w) w₂ :=
            (hw₁.record rfl).computesTo (executeStatement_computesTo haction)
          have hway := wayDown fuel hsuffix hdest hw₂
          have hcalls : (Sim.calls (.ok w₁) fun w => (executeAction fuel t w).calls
              (bubbleDownCalls root fuel (some t.state) t.transition.destination)) =
              enterCalls root fuel (climb t.state t.transition.destination).reverse w₂ := by
            show (executeAction fuel t w₁).calls _ = _
            rw [haction]
            exact hdown w₂
          rw [hcalls, along_append, ← List.append_assoc]
          refine ⟨⟨hup, hway.calls⟩, fun w' hw' => ?_⟩
          have ⟨w₁', w₂', hw₁', haction', hend⟩ := (performTransition_eq_ok hlub hcurr).mp hw'
          rw [hbubble, Except.ok.injEq] at hw₁'
          rw [← hw₁', haction, Except.ok.injEq] at haction'
          rw [← haction'] at hend
          -- The way down ends in the destination, or its exception is caught.
          rcases hend with hend | hend
          · have ⟨hat, hentered⟩ := hway.ok w' hend
            exact ⟨hat, fun _ => hentered hproper.symm⟩
          · have ⟨hrun, hstatics⟩ := hway.throws w' hend
            exact ⟨⟨hrun, fun h => absurd h hstatics⟩, fun h => absurd h hstatics⟩

/-- The descent to an atomic state. -/
theorem getAtomicStateCalls_along (fuel : Nat) : ∀ (init : StateRef) (tag : Nat)
    {before : List StateCall} {w : World}, StateRun root w₀ before w →
    (tag = 1 → StaticsAtTop root → Entering root init w) →
    (tag ≠ 1 → StaticsAtTop root → InState root init w ∧ JustEntered init before) →
    Along (CallOfRun root w₀) before (getAtomicStateCalls root fuel init tag w) ∧
      ∀ s w', getAtomicState root fuel init tag w = .ok (s, w') →
        At root w₀ s (before ++ getAtomicStateCalls root fuel init tag w) w' ∧
          (StaticsAtTop root → root.isAtomicAt s) := by
  induction fuel with
  | zero => exact fun _ _ _ _ _ _ _ => ⟨trivial, fun s w' hw' => nomatch hw'⟩
  | succ fuel ih =>
      intro init tag before w hrun hpos hneg
      -- Where the descent goes on from `init`, it has just been entered.
      have hgoOn : ∀ {before₁ : List StateCall} {w₁ : World}, StateRun root w₀ before₁ w₁ →
          (StaticsAtTop root → InState root init w₁ ∧ JustEntered init before₁) →
          Along (CallOfRun root w₀) before₁ (if root.isAtomicAt init then []
            else .descend init (nextSubstate root init w₁) w₁ ::
              getAtomicStateCalls root fuel (nextSubstate root init w₁) 1 w₁) ∧
            ∀ s w', (if root.isAtomicAt init then (.ok (init, w₁) : Sim (StateRef × World))
                else getAtomicState root fuel (nextSubstate root init w₁) 1 w₁) = .ok (s, w') →
              At root w₀ s (before₁ ++ (if root.isAtomicAt init then []
                else .descend init (nextSubstate root init w₁) w₁ ::
                  getAtomicStateCalls root fuel (nextSubstate root init w₁) 1 w₁)) w' ∧
                (StaticsAtTop root → root.isAtomicAt s) := by
        intro before₁ w₁ hrun₁ hin₁
        by_cases hatomic : root.isAtomicAt init
        · rw [if_pos hatomic, if_pos hatomic, List.append_nil]
          refine ⟨trivial, fun s w' hw' => ?_⟩
          simp only [Except.ok.injEq, Prod.mk.injEq] at hw'
          rw [← hw'.1, ← hw'.2]
          exact ⟨⟨hrun₁, fun hstatics => (hin₁ hstatics).1⟩, fun _ => hatomic⟩
        · rw [if_neg hatomic, if_neg hatomic]
          have hnext :
            StateRun root w₀ (before₁ ++ [.descend init (nextSubstate root init w₁) w₁]) w₁ :=
            .call (.descend init (nextSubstate root init w₁) w₁) hrun₁ rfl
          obtain ⟨hcalls, hend⟩ :=
            ih _ 1 hnext (fun _ hstatics => (hin₁ hstatics).1.nextSubstate hatomic)
            (fun hne => absurd rfl hne)
          refine ⟨⟨⟨hrun₁, fun hstatics => ?_⟩, hcalls⟩, fun s w' hw' => ?_⟩
          · exact ⟨(hin₁ hstatics).1.configuration, hatomic, rfl, (hin₁ hstatics).2⟩
          · have hend := hend s w' hw'
            rwa [List.append_assoc] at hend
      rw [getAtomicStateCalls, getAtomicState]
      by_cases htag : tag = 1
      · simp only [if_pos htag]
        cases henter : enterAndExecute root fuel init w with
        | error e =>
            refine ⟨⟨⟨hrun, fun hstatics => (hpos htag hstatics).configuration⟩, trivial⟩,
              fun s w' hw' => ?_⟩
            cases e with
            | exit => cases hw'
            | outOfFuel => cases hw'
            | exception w₁ =>
                -- `get_atomic_state` catches it, which `StaticsAtTop` rules out.
                have hthrows := hrun.enter_throws henter
                have hnot : ¬ StaticsAtTop root :=
                  fun hstatics => (hpos htag hstatics).noException henter
                simp only [Except.ok.injEq, Prod.mk.injEq] at hw'
                rw [← hw'.2]
                exact ⟨⟨hthrows, fun h => absurd h hnot⟩, fun h => absurd h hnot⟩
        | ok w₁ =>
            obtain ⟨hcalls, hend⟩ := hgoOn (hrun.enter henter) fun hstatics =>
              ⟨(hpos htag hstatics).enter henter, before, w, rfl⟩
            refine ⟨⟨⟨hrun, fun hstatics => (hpos htag hstatics).configuration⟩, hcalls⟩,
              fun s w' hw' => ?_⟩
            have hend := hend s w' hw'
            rwa [List.append_assoc] at hend
      · simp only [if_neg htag]
        exact hgoOn hrun (hneg htag)

/-! ### Runs -/

/-- One round. -/
theorem simulateStepCalls_along {sc : Statechart} {c : CheckedStatechart}
    (hc : typecheck sc = .ok c)
    (fuel : Nat) (typed : Option (List String)) {curr : StateRef} {before : List StateCall}
    {w : World} (h : At c.root w₀ curr before w)
    (hatomic : StaticsAtTop c.root → c.root.isAtomicAt curr) :
    Along (CallOfRun c.root w₀) before (simulateStepCalls c.root fuel (curr, w) typed) ∧
      ∀ s w', simulateStep c.root fuel (curr, w) typed = .ok (s, w') →
        At c.root w₀ s (before ++ simulateStepCalls c.root fuel (curr, w) typed) w' ∧
          (StaticsAtTop c.root → c.root.isAtomicAt s) := by
  have ⟨q, hq⟩ := nextEvent_world typed w
  have hqueue : At c.root w₀ curr before (nextEvent typed w).2 := by
    rw [hq]
    exact ⟨h.run.silent ⟨rfl, rfl, rfl⟩, fun hstatics =>
      ⟨(h.inState hstatics).sound.eventQueue q, (h.inState hstatics).configuration,
        (h.inState hstatics).valid⟩⟩
  simp only [simulateStepCalls, simulateStep]
  cases hselect : getValidTransition c.root curr (nextEvent typed w).1 (nextEvent typed w).2 with
  | mk selection w₁ =>
      cases selection with
      | noViableTransition => exact ⟨trivial, fun s w' hw' => nomatch hw'⟩
      | nonDeterminism ts => exact ⟨trivial, fun s w' hw' => nomatch hw'⟩
      | transition t =>
          have ⟨hcomp, hchain, hplaced, _⟩ := getValidTransition_transition hselect
          have ⟨hlub, _, hdest⟩ := lub_of_accepted hc hplaced
          have ⟨hcalls, hend⟩ := performTransitionCalls_along fuel hlub hchain hdest
            (hqueue.computesTo hcomp) hatomic
          dsimp only
          rw [along_append]
          cases hperform : performTransition c.root fuel t curr w₁ with
          | error e => exact ⟨⟨hcalls, trivial⟩, fun s w' hw' => nomatch hw'⟩
          | ok w₂ =>
              have ⟨hat, hentered⟩ := hend w₂ hperform
              have ⟨hatomicCalls, hatomicEnd⟩ := getAtomicStateCalls_along fuel _ 0 hat.run
                (fun h => absurd h (by decide)) fun _ hstatics =>
                  ⟨hat.inState hstatics, hentered hstatics⟩
              refine ⟨⟨hcalls, hatomicCalls⟩, fun s w' hw' => ?_⟩
              have hend := hatomicEnd s w' hw'
              rwa [List.append_assoc] at hend

/-- Some rounds. -/
theorem roundsCalls_along {sc : Statechart} {c : CheckedStatechart} (hc : typecheck sc = .ok c)
    {fuel : Nat} {replies : List (Option (List String))} : ∀ {curr : StateRef}
    {before : List StateCall} {w : World}, At c.root w₀ curr before w →
      (StaticsAtTop c.root → c.root.isAtomicAt curr) →
      Along (CallOfRun c.root w₀) before (roundsCalls c.root fuel replies (curr, w)) := by
  induction replies with
  | nil => exact fun _ _ => trivial
  | cons typed replies ih =>
      intro curr before w h hatomic
      have ⟨hcalls, hend⟩ := simulateStepCalls_along hc fuel typed h hatomic
      rw [roundsCalls, along_append]
      refine ⟨hcalls, ?_⟩
      cases hstep : simulateStep c.root fuel (curr, w) typed with
      | error e => trivial
      | ok head =>
          have ⟨hat, hatomic⟩ := hend head.1 head.2 hstep
          exact ih hat hatomic

end

/-- Every call of a run is made in the world that the calls before it lead to. Where
static variables are in the statechart and its direct children only, the calls are in
order. -/
theorem simulateCalls_along {sc : Statechart} {c : CheckedStatechart} (hc : typecheck sc = .ok c)
    (fuel : Nat) (stdin : List (Option Int32)) (replies : List (Option (List String))) :
    Along (CallOfRun c.root (World.initial c.root c.events stdin)) []
      (simulateCalls c.root fuel c.events stdin replies) := by
  have hstart : StateRun c.root (World.initial c.root c.events stdin) []
      (World.initial c.root c.events stdin) := .start
  have ⟨hcalls, hend⟩ := getAtomicStateCalls_along fuel [] 1 hstart
    (fun _ hstatics => initial_entering hstatics c.events stdin) (fun h => absurd rfl h)
  rw [simulateCalls, along_append]
  refine ⟨hcalls, ?_⟩
  cases hstart : getAtomicState c.root fuel [] 1 (World.initial c.root c.events stdin) with
  | error e => trivial
  | ok head =>
      have ⟨hat, hatomic⟩ := hend head.1 head.2 hstart
      exact roundsCalls_along hc hat hatomic

end Stabl
