import Stabl.Proofs.Simulator.ExecutionState
import Stabl.Simulator.Simulator

/-!
# `Stabl.Proofs.Simulator.Phases`: the phases of a transition

The loops of `performTransition` and the descent of `getAtomicState`, each with its
induction rule. The rules are about a property `P p w` of the position `p` that the loop
has reached and the world there: `bubbleUp_preserves` for the way up to the lub,
`enterPath_preserves` for the way down to the destination. `enterPath_throws` is the way
down that an exception ends.

`FollowsLog v` says that a variable's value can be read off the log: nothing but the
logged writes has changed it.
-/

set_option autoImplicit false

namespace Stabl

open Result TreeAddress AccessTrace World

variable (root : State Name)

/-! ### Entering one state -/

/-- A state is entered, then its entry statement runs. -/
theorem enterAndExecute_eq_ok {fuel : Nat} {s : StateRef} {w w' : World} :
    enterAndExecute root fuel s w = .ok w' ↔ ∃ w₁, w.enterState root s = .ok w₁ ∧
      executeStatement fuel (root.entryAt s) (w₁.record (.entry s)) = .ok w' := by
  rw [enterAndExecute, bind_eq_ok]

/-- Only `enterState` throws. -/
theorem enterAndExecute_exception {fuel : Nat} {s : StateRef} {w w' : World}
    (h : enterAndExecute root fuel s w = .error (.exception w')) :
    w.enterState root s = .error (.exception w') := by
  rw [enterAndExecute, bind_eq_error] at h
  rcases h with h | ⟨w₁, _, h⟩
  · exact h
  · exact absurd h (executeStatement_noException fuel _ _ w')

/-! ### The way up -/

section
variable {root}

/-- The rule for the way up to an ancestor `l`: each step runs an exit statement and
leaves the state. -/
theorem bubbleUp_preserves {P : StateRef → World → Prop} {fuel : Nat} {l p : StateRef}
    (hl : l <:+ p)
    (step : ∀ i q w w₁, l <:+ q → (i :: q) <:+ p → P (i :: q) w →
      (w.record (.exit (i :: q))).ComputesTo w₁ → P q (w₁.exitState root (i :: q)))
    {w w' : World} (hP : P p w) (h : bubbleUp root fuel (some l) p w = .ok w') : P l w' := by
  induction p generalizing w with
  | nil =>
      obtain rfl := List.suffix_nil.mp hl
      rw [bubbleUp, if_pos rfl, Except.ok.injEq] at h
      exact h ▸ hP
  | cons i p ih =>
      rw [bubbleUp] at h
      rcases List.suffix_cons_iff.mp hl with rfl | hl
      · rw [if_pos rfl, Except.ok.injEq] at h
        exact h ▸ hP
      · have hne : ¬ some (i :: p) = some l := by
          rintro ⟨⟩
          exact cons_not_suffix i p hl
        rw [if_neg hne, bind_eq_ok] at h
        obtain ⟨w₁, hexit, h⟩ := h
        have hcomp := executeStatement_computesTo hexit
        refine ih hl ?_ (step i p w w₁ hl List.suffix_rfl hP hcomp) h
        intro j q w w₁ hlq hq
        exact step j q w w₁ hlq (hq.trans (List.suffix_cons i p))

/-- The way up to an ancestor does not throw. -/
theorem bubbleUp_noException {fuel : Nat} {l p : StateRef} (hl : l <:+ p) (w : World) :
    NoException (bubbleUp root fuel (some l) p w) := by
  induction p generalizing w with
  | nil =>
      obtain rfl := List.suffix_nil.mp hl
      rw [bubbleUp, if_pos rfl]
      exact noException_ok w
  | cons i p ih =>
      rw [bubbleUp]
      rcases List.suffix_cons_iff.mp hl with rfl | hl
      · rw [if_pos rfl]
        exact noException_ok w
      · have hne : ¬ some (i :: p) = some l := by
          rintro ⟨⟩
          exact cons_not_suffix i p hl
        rw [if_neg hne]
        exact (executeStatement_noException _ _ _).bind fun w => ih hl _

/-! ### The way down -/

/-- The path down to `p` is the climb from `p`. -/
theorem pathTo_eq_climb {l p : StateRef} (hl : l <:+ p) :
    pathTo (some l) p = some (climb l p) := by
  induction p with
  | nil =>
      obtain rfl := List.suffix_nil.mp hl
      simp [pathTo]
  | cons i p ih =>
      rcases List.suffix_cons_iff.mp hl with rfl | hl
      · simp [pathTo]
      · have hne : ¬ some (i :: p) = some l := by
          rintro ⟨⟩
          exact cons_not_suffix i p hl
        rw [pathTo, if_neg hne, ih hl, climb_cons_of_suffix hl]
        rfl

/-- The states from below `l` down to `p` are entered, outermost first. -/
def enterPath (root : State Name) (fuel : Nat) (l p : StateRef) (w : World) : Sim World :=
  (climb l p).reverse.foldlM (fun w s => enterAndExecute root fuel s w) w

theorem enterPath_self (fuel : Nat) (l : StateRef) (w : World) :
    enterPath root fuel l l w = .ok w := by
  rw [enterPath, climb_self]
  rfl

theorem enterPath_cons {fuel : Nat} {l : StateRef} {i : Nat} {p : StateRef} (hl : l <:+ p)
    (w : World) : enterPath root fuel l (i :: p) w =
      (enterPath root fuel l p w >>= fun w => enterAndExecute root fuel (i :: p) w) := by
  rw [enterPath, climb_cons_of_suffix hl, List.reverse_cons, List.foldlM_append]
  simp [enterPath]

/-- `bubbleDown` enters the states between the lub and the destination, and the
destination last. -/
theorem bubbleDown_eq {fuel : Nat} {l : StateRef} {i : Nat} {p : StateRef} (hl : l <:+ p)
    (w : World) : bubbleDown root fuel (some l) (i :: p) w =
      enterPath root fuel l (i :: p) w := by
  have hpath : pathTo (some l) (i :: p) = some ((i :: p) :: climb l p) := by
    rw [pathTo_eq_climb (hl.trans (List.suffix_cons i p)), climb_cons_of_suffix hl]
  rw [bubbleDown, hpath, enterPath_cons hl]
  rfl

/-- The rule for the way down from an ancestor `l`. -/
theorem enterPath_preserves {P : StateRef → World → Prop} {fuel : Nat} {l p : StateRef}
    (hl : l <:+ p)
    (step : ∀ i q w w', l <:+ q → (i :: q) <:+ p → P q w →
      enterAndExecute root fuel (i :: q) w = .ok w' → P (i :: q) w')
    {w w' : World} (hP : P l w) (h : enterPath root fuel l p w = .ok w') : P p w' := by
  induction p generalizing w' with
  | nil =>
      obtain rfl := List.suffix_nil.mp hl
      rw [enterPath_self, Except.ok.injEq] at h
      exact h ▸ hP
  | cons i p ih =>
      rcases List.suffix_cons_iff.mp hl with rfl | hl
      · rw [enterPath_self, Except.ok.injEq] at h
        exact h ▸ hP
      · rw [enterPath_cons hl, bind_eq_ok] at h
        obtain ⟨w₁, hpath, hlast⟩ := h
        refine step i p w₁ w' hl List.suffix_rfl (ih hl ?_ hpath) hlast
        intro j q w w' hlq hq
        exact step j q w w' hlq (hq.trans (List.suffix_cons i p))

/-- The way down that ends with an exception: some `enterState` on it has thrown. -/
theorem enterPath_throws {P : StateRef → World → Prop} {fuel : Nat} {l p : StateRef}
    (hl : l <:+ p)
    (step : ∀ i q w w', l <:+ q → (i :: q) <:+ p → P q w →
      enterAndExecute root fuel (i :: q) w = .ok w' → P (i :: q) w')
    {w w' : World} (hP : P l w) (h : enterPath root fuel l p w = .error (.exception w')) :
    ∃ i q w₁, l <:+ q ∧ (i :: q) <:+ p ∧ P q w₁ ∧
      w₁.enterState root (i :: q) = .error (.exception w') := by
  induction p with
  | nil =>
      obtain rfl := List.suffix_nil.mp hl
      rw [enterPath_self] at h
      simp at h
  | cons i p ih =>
      rcases List.suffix_cons_iff.mp hl with rfl | hl
      · rw [enterPath_self] at h
        simp at h
      · have hstep : ∀ j q w w', l <:+ q → (j :: q) <:+ p → P q w →
            enterAndExecute root fuel (j :: q) w = .ok w' → P (j :: q) w' :=
          fun j q w w' hlq hq => step j q w w' hlq (hq.trans (List.suffix_cons i p))
        rw [enterPath_cons hl, bind_eq_error] at h
        rcases h with h | ⟨w₁, hpath, h⟩
        · obtain ⟨j, q, w₁, hlq, hq, hPq, hthrow⟩ := ih hl hstep h
          exact ⟨j, q, w₁, hlq, hq.trans (List.suffix_cons i p), hPq, hthrow⟩
        · exact ⟨i, p, w₁, hl, List.suffix_rfl, enterPath_preserves hl hstep hP hpath,
            enterAndExecute_exception root h⟩

/-! ### The whole transition -/

/-- Below the lub of a transition, `bubbleDown` is the way down. -/
theorem bubbleDown_eq_enterPath {fuel : Nat} {s d l : StateRef} (hlub : lub s d = some l)
    (w : World) : bubbleDown root fuel (some l) d w = enterPath root fuel l d w := by
  obtain ⟨hsuffix, hproper⟩ := (lub_proper hlub).2
  cases d with
  | nil => exact absurd (List.suffix_nil.mp hsuffix) hproper
  | cons i q => exact bubbleDown_eq ((List.suffix_cons_iff.mp hsuffix).resolve_left hproper) w

/-- A transition that is placed in the lub `l` of its source and destination, fired below
`l`, is its three phases. Only the last one can throw. -/
theorem performTransition_eq_ok {fuel : Nat} {t : PlacedTransition Name} {curr : StateRef}
    (hlub : lub t.transition.source t.transition.destination = some t.state)
    (hcurr : t.state <:+ curr) {w w' : World} :
    performTransition root fuel t curr w = .ok w' ↔ ∃ w₁ w₂,
      bubbleUp root fuel (some t.state) curr w = .ok w₁ ∧
        executeAction fuel t w₁ = .ok w₂ ∧
          (enterPath root fuel t.state t.transition.destination w₂ = .ok w' ∨
            enterPath root fuel t.state t.transition.destination w₂ =
              .error (.exception w')) := by
  simp only [performTransition, hlub, bubbleDown_eq_enterPath hlub]
  have hcatch : ∀ x : Sim World,
      catchException x = .ok w' ↔ x = .ok w' ∨ x = .error (.exception w') := by
    intro x
    unfold catchException
    split <;> simp_all
  rw [hcatch, bind_eq_ok, bind_eq_error]
  simp only [bind_eq_ok, bind_eq_error]
  constructor
  · rintro (⟨w₁, h₁, w₂, h₂, h₃⟩ | h | ⟨w₁, h₁, h | ⟨w₂, h₂, h₃⟩⟩)
    · exact ⟨w₁, w₂, h₁, h₂, Or.inl h₃⟩
    · exact absurd h (bubbleUp_noException hcurr w w')
    · exact absurd h (executeStatement_noException _ _ _ w')
    · exact ⟨w₁, w₂, h₁, h₂, Or.inr h₃⟩
  · rintro ⟨w₁, w₂, h₁, h₂, h₃ | h₃⟩
    · exact Or.inl ⟨w₁, h₁, w₂, h₂, h₃⟩
    · exact Or.inr (Or.inr ⟨w₁, h₁, Or.inr ⟨w₂, h₂, h₃⟩⟩)

/-! ### Selection -/

theorem viable_computesTo (event : String) (t : Transition Name) (w : World) :
    w.ComputesTo (viable event t w).2 := by
  have h : w.ComputesTo (evaluate t.guard w).2 := .of_readsTo (evaluate_readsTo t.guard w)
  unfold viable
  split
  · rename_i heq
    rwa [heq] at h
  · rename_i heq
    simpa [heq] using h

/-- A viable transition has its source in the configuration and the event as its
trigger. -/
theorem viable_true {event : String} {t : Transition Name} {w w' : World}
    (h : viable event t w = (true, w')) :
    t.source ∈ w.eState.configuration ∧ t.trigger = event := by
  have hcomp := (World.ComputesTo.of_readsTo (evaluate_readsTo t.guard w)).configuration
  unfold viable at h
  split at h
  · rename_i w₁ heq
    rw [heq] at hcomp
    simp only [Prod.mk.injEq, Bool.and_eq_true, decide_eq_true_eq] at h
    refine ⟨?_, h.1.2⟩
    rw [← hcomp]
    simpa [presentInConfiguration] using h.1.1
  · simp at h

/-- What the search has found so far: transitions of the states on the chain of `curr`
whose source is in the configuration. -/
def Found (root : State Name) (curr : StateRef) (w : World)
    (acc : List (PlacedTransition Name) × World) : Prop :=
  w.ComputesTo acc.2 ∧ ∀ t ∈ acc.1, t.state <:+ curr ∧
    t.transition ∈ root.transitionsAt t.state ∧ t.transition.source ∈ w.eState.configuration

theorem Found.searchState {curr p : StateRef} {w : World} {event : String}
    {acc : List (PlacedTransition Name) × World} (h : Found root curr w acc) (hp : p <:+ curr) :
    Found root curr w (searchState event p (root.transitionsAt p) acc) := by
  unfold Stabl.searchState
  refine List.foldlRecOn (root.transitionsAt p) _ (motive := Found root curr w) h ?_
  intro acc hacc t ht
  have hcomp : w.ComputesTo (viable event t acc.2).2 := hacc.1.trans (viable_computesTo _ _ _)
  split
  · rename_i w₁ heq
    rw [heq] at hcomp
    refine ⟨hcomp, ?_⟩
    intro t' ht'
    rcases List.mem_append.mp ht' with ht' | ht'
    · exact hacc.2 t' ht'
    · obtain rfl := List.mem_singleton.mp ht'
      exact ⟨hp, ht, hacc.1.configuration ▸ (viable_true heq).1⟩
  · rename_i w₁ heq
    rw [heq] at hcomp
    exact ⟨hcomp, hacc.2⟩

theorem Found.search {curr p : StateRef} {w : World} {event : String}
    {acc : List (PlacedTransition Name) × World} (h : Found root curr w acc) (hp : p <:+ curr) :
    Found root curr w (search root event p acc) := by
  induction p generalizing acc with
  | nil => exact h.searchState hp
  | cons i p ih => exact ih (h.searchState hp) ((List.suffix_cons i p).trans hp)

theorem select_transition {ts : List (PlacedTransition Name)} {t : PlacedTransition Name}
    (h : select ts = .transition t) : t ∈ ts := by
  unfold select at h
  split at h
  · simp at h
  · simp only [Selection.transition.injEq] at h
    simp [h]
  · simp at h

/-- The transition that `getValidTransition` returns is placed in a state on the chain of
`curr`, and its source is in the configuration. -/
theorem getValidTransition_transition {curr : StateRef} {event : String} {w w' : World}
    {t : PlacedTransition Name}
    (h : getValidTransition root curr event w = (.transition t, w')) :
    w.ComputesTo w' ∧ t.state <:+ curr ∧ t.transition ∈ root.transitionsAt t.state ∧
      t.transition.source ∈ w.eState.configuration := by
  have hfound : ∀ e w, Found root curr w (search root e curr ([], w)) :=
    fun e w => Found.search ⟨.rfl w, by simp⟩ List.suffix_rfl
  unfold getValidTransition at h
  split at h
  · -- Nothing was found for the event.
    rename_i w₁ heq
    have hfirst := (heq ▸ hfound event w).1
    split at h
    · simp at h
    · split at h
      rename_i ts w₂ heq'
      simp only [Prod.mk.injEq] at h
      obtain ⟨hselect, rfl⟩ := h
      have hsecond := heq' ▸ hfound "null" w₁
      have ht := hsecond.2 t (select_transition hselect)
      exact ⟨hfirst.trans hsecond.1, ht.1, ht.2.1, hfirst.configuration ▸ ht.2.2⟩
  · rename_i ts w₁ _ heq
    simp only [Prod.mk.injEq] at h
    obtain ⟨hselect, rfl⟩ := h
    have hfirst := heq ▸ hfound event w
    exact ⟨hfirst.1, hfirst.2 t (select_transition hselect)⟩

end

end Stabl
