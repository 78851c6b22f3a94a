import Mathlib.Data.Finset.Dedup
import Mathlib.Data.Finset.Lattice.Fold
import Stabl.Lib.Fuel
import Stabl.Proofs.Simulator.Invariants

/-!
# `Stabl.Proofs.Simulator.Progress`: every round ends

The methods of the simulator catch their exceptions. So nothing but an endless loop of code, a
`halt`, or `System.exit` after the search for a transition keeps a round from its end.
`CodeFinishes` excludes the first two: the total triple without conditions is derivable for all
code. `simulate_progress` says that then every round comes to its end, or the simulator exits at
a loop head at which no single transition is viable.

The descent ends because the tree is finite. It may follow the state history, so what the states
remember has to be in the tree (`InTree`).
-/

set_option autoImplicit false

namespace Stabl

open Commands Fuel Result TreeAddress World

/-! ### Code that finishes -/

/-- The statement finishes, from every world. -/
def Finishes (s : Statement Name) : Prop := DerivesTotal (fun _ => True) s.command fun _ => True

/-- All code of the statechart finishes. -/
structure CodeFinishes (root : State Name) : Prop where
  entry : ∀ p, Finishes (root.entryAt p)
  exit : ∀ p, Finishes (root.exitAt p)
  action : ∀ p, ∀ t ∈ root.transitionsAt p, Finishes t.action

theorem Finishes.settles {s : Statement Name} (h : Finishes s) (w : World) :
    ∃ w', Settles (fun fuel => executeStatement fuel s w) (.ok w') := by
  obtain ⟨w', hexec, _⟩ := h.validTotal w trivial
  obtain ⟨fuel, hfuel⟩ := runs_iff_exec.mpr hexec
  exact ⟨w', settles_of_mono fun n hn => executeStatement_mono hn s w w' hfuel⟩

/-- The statechart's code has no loops and does not halt. -/
def State.loopless (root : State Name) : Bool :=
  (root.positions []).all fun p =>
    (root.entryAt p).command.loopless && (root.exitAt p).command.loopless &&
      (root.transitionsAt p).all fun t => t.action.command.loopless

theorem finishes_of_loopless {s : Statement Name} (h : s.command.loopless = true) : Finishes s :=
  Command.derivesTotal_of_loopless h

/-- Code without loops finishes. Only the states of the tree have code. -/
theorem codeFinishes_of_loopless {root : State Name} (h : root.loopless = true) :
    CodeFinishes root := by
  have hall : ∀ p, (root.entryAt p).command.loopless = true ∧
      (root.exitAt p).command.loopless = true ∧
        ∀ t ∈ root.transitionsAt p, t.action.command.loopless = true := by
    intro p
    cases hs : root.stateAt p with
    | none =>
        have hskip : root.entryAt p = .skipStatement ∧ root.exitAt p = .skipStatement ∧
            root.transitionsAt p = [] := by
          simp [State.entryAt, State.exitAt, State.transitionsAt, hs]
        rw [hskip.1, hskip.2.1, hskip.2.2]
        exact ⟨rfl, rfl, List.forall_mem_nil _⟩
    | some s =>
        have hp := List.all_eq_true.mp h p (State.mem_positions (by rw [hs]; rfl))
        rw [Bool.and_eq_true, Bool.and_eq_true, List.all_eq_true] at hp
        exact ⟨hp.1.1, hp.1.2, hp.2⟩
  exact ⟨fun p => finishes_of_loopless (hall p).1, fun p => finishes_of_loopless (hall p).2.1,
    fun p t ht => finishes_of_loopless ((hall p).2.2 t ht)⟩

/-! ### Phases that come to an end -/

/-- With enough fuel, the phase ends or throws. -/
def Completes (f : ℕ → Sim World) : Prop :=
  (∃ w, Settles f (.ok w)) ∨ ∃ w, Settles f (.error (.exception w))

namespace Completes

theorem bind {f : ℕ → Sim World} {g : ℕ → World → Sim World} (h : Completes f)
    (h' : ∀ w, Completes fun n => g n w) : Completes fun n => f n >>= g n := by
  rcases h with ⟨w, hw⟩ | ⟨w, hw⟩
  · exact (h' w).imp (Exists.imp fun _ => hw.bind) (Exists.imp fun _ => hw.bind)
  · exact Or.inr ⟨w, hw.bind_error⟩

theorem foldlM {α : Type} {f : ℕ → World → α → Sim World}
    (h : ∀ w a, Completes fun n => f n w a) :
    ∀ (l : List α) (w : World), Completes fun n => l.foldlM (f n) w := by
  intro l
  induction l with
  | nil => exact fun w => Or.inl ⟨w, settles_const _⟩
  | cons a l ih => exact fun w => (h w a).bind ih

/-- A handler makes every end a normal one. -/
theorem catchException {f : ℕ → Sim World} (h : Completes f) :
    ∃ w, Settles (fun n => Stabl.catchException (f n)) (.ok w) := by
  unfold Settles
  rcases h with ⟨w, hw⟩ | ⟨w, hw⟩
  · refine ⟨w, ?_⟩
    filter_upwards [hw] with n hn
    rw [hn]
    rfl
  · refine ⟨w, ?_⟩
    filter_upwards [hw] with n hn
    rw [hn]
    rfl

end Completes

section
variable {root : State Name} (hcode : CodeFinishes root)
include hcode

theorem enterAndExecute_completes (s : StateRef) (w : World) :
    Completes fun fuel => enterAndExecute root fuel s w := by
  unfold enterAndExecute
  cases henter : w.enterState root s with
  | ok w₁ =>
      obtain ⟨w', hw'⟩ := (hcode.entry s).settles (w₁.record (.entry s))
      exact Or.inl ⟨w', (settles_const (Except.ok w₁)).bind hw'⟩
  | error e =>
      obtain ⟨w₁, rfl, _⟩ := enterState_throws henter
      exact Or.inr ⟨w₁, (settles_const _).bind_error⟩

theorem bubbleUp_settles {l p : StateRef} (hl : l <:+ p) (w : World) :
    ∃ w', Settles (fun fuel => bubbleUp root fuel (some l) p w) (.ok w') := by
  induction p generalizing w with
  | nil =>
      obtain rfl := List.suffix_nil.mp hl
      exact ⟨w, settles_const _⟩
  | cons i p ih =>
      simp only [bubbleUp]
      rcases List.suffix_cons_iff.mp hl with rfl | hl
      · simp only [if_true]
        exact ⟨w, settles_const _⟩
      · have hne : ¬ some (i :: p) = some l := by
          rintro ⟨⟩
          exact cons_not_suffix i p hl
        simp only [if_neg hne]
        obtain ⟨w₁, hw₁⟩ := (hcode.exit (i :: p)).settles (w.record (.exit (i :: p)))
        obtain ⟨w', hw'⟩ := ih hl (w₁.exitState root (i :: p))
        exact ⟨w', hw₁.bind hw'⟩

theorem performTransition_settles {t : PlacedTransition Name} {curr : StateRef}
    (hlub : lub t.transition.source t.transition.destination = some t.state)
    (hcurr : t.state <:+ curr) (hplaced : t.transition ∈ root.transitionsAt t.state) (w : World) :
    ∃ w', Settles (fun fuel => performTransition root fuel t curr w) (.ok w') := by
  obtain ⟨w₁, hw₁⟩ := bubbleUp_settles hcode hcurr w
  obtain ⟨w₂, hw₂⟩ := (hcode.action _ _ hplaced).settles
    (w₁.record (.action t.state t.transition.name))
  have hdown : Completes fun fuel => enterPath root fuel t.state t.transition.destination w₂ :=
    Completes.foldlM (fun w s => enterAndExecute_completes hcode s w) _ w₂
  simp only [performTransition, hlub, bubbleDown_eq_enterPath hlub]
  refine Completes.catchException ?_
  exact hdown.imp (Exists.imp fun _ h => hw₁.bind (hw₂.bind h))
    (Exists.imp fun _ h => hw₁.bind (hw₂.bind h))

end

/-! ### The descent -/

/-- Every child that a state remembers is in the tree. -/
def World.InTree (root : State Name) : World → Prop :=
  Remembers fun _ c => (root.stateAt c).isSome = true

theorem inTree_kept (root : State Name) :
    Kept root (fun s => (root.stateAt s).isSome = true) (fun _ _ => True) (InTree root) :=
  remembers_kept root fun _ _ hs _ => hs

/-- The descent goes on in the tree. -/
theorem isSome_stateAt_nextSubstate {root : State Name} {s : StateRef} {w : World}
    (hs : (root.stateAt s).isSome = true) (hw : w.InTree root)
    (hatomic : ¬ root.isAtomicAt s = true) :
    (root.stateAt (nextSubstate root s w)).isSome = true := by
  have hfirst : (root.stateAt (0 :: s)).isSome = true := by
    obtain ⟨st, hst⟩ := Option.isSome_iff_exists.mp hs
    rw [State.isAtomicAt, hst] at hatomic
    rw [State.stateAt_cons, hst]
    cases hstates : st.states with
    | nil => simp [hstates] at hatomic
    | cons s₁ states => simp [hstates]
  unfold nextSubstate getHistoryState
  split
  · split
    · rename_i c hc
      exact hw s c hc
    · exact hfirst
  · exact hfirst

/-- What the descent and the rounds keep. -/
structure World.Sane (root : State Name) (w : World) : Prop where
  below : w.HistoryBelow
  inTree : w.InTree root

section
variable {root : State Name}

theorem sane_kept (root : State Name) :
    Kept root (fun s => (root.stateAt s).isSome = true) (fun _ _ => True) (Sane root) where
  reads hreads h :=
    ⟨(historyBelow_kept root).reads hreads h.below, (inTree_kept root).reads hreads h.inTree⟩
  record e h := ⟨h.below, h.inTree⟩
  assign hP h := ⟨(historyBelow_kept root).assign hP h.below, (inTree_kept root).assign hP h.inTree⟩
  enter {s w} hs h := by
    have hbelow := (historyBelow_kept root).enter (s := s) trivial h.below
    have htree := (inTree_kept root).enter hs h.inTree
    exact ⟨fun w' hw' => ⟨hbelow.1 w' hw', htree.1 w' hw'⟩,
      fun w' hw' => ⟨hbelow.2 w' hw', htree.2 w' hw'⟩⟩
  exit hs h := ⟨(historyBelow_kept root).exit trivial h.below, (inTree_kept root).exit hs h.inTree⟩
  entryCode _ := Statement.assigns_true _
  exitCode _ := Statement.assigns_true _

/-- The descent ends in the tree: every step of it leads to a deeper state. -/
theorem getAtomicState_settles (hcode : CodeFinishes root) {depth : ℕ}
    (hdepth : ∀ p, (root.stateAt p).isSome = true → p.length ≤ depth) (tag : ℕ) {init : StateRef}
    (hinit : (root.stateAt init).isSome = true) {w : World} (hw : w.Sane root) :
    ∃ r, Settles (fun fuel => getAtomicState root fuel init tag w) (.ok r) ∧
      (root.stateAt r.1).isSome = true ∧ r.2.Sane root := by
  induction hn : depth - init.length using Nat.strong_induction_on generalizing tag init w with
  | h n ih =>
      have hentered : Completes fun fuel =>
          if tag = 1 then enterAndExecute root fuel init w else .ok w := by
        split_ifs
        · exact enterAndExecute_completes hcode init w
        · exact Or.inl ⟨w, settles_const _⟩
      have hsane : ∀ fuel, Ends (Sane root)
          (if tag = 1 then enterAndExecute root fuel init w else .ok w) := by
        intro fuel
        split_ifs
        · exact (sane_kept root).enterAndExecute hinit hw
        · exact ⟨fun w' hw' => Except.ok.inj hw' ▸ hw, fun w' hw' => by cases hw'⟩
      rcases hentered with ⟨w₁, hw₁⟩ | ⟨w₁, hw₁⟩
      · obtain ⟨fuel, hfuel⟩ := hw₁.exists_fuel
        have hsane₁ := (hsane fuel).1 w₁ hfuel
        by_cases hatomic : root.isAtomicAt init = true
        · refine ⟨(init, w₁), settles_succ ?_, hinit, hsane₁⟩
          unfold Settles at hw₁ ⊢
          filter_upwards [hw₁] with n hn
          simp only [getAtomicState, hn, if_pos hatomic]
        · -- The next state is in the tree, so it is not below the deepest one.
          have hnext := isSome_stateAt_nextSubstate hinit hsane₁.inTree hatomic
          obtain ⟨i, hi⟩ := hsane₁.below.nextSubstate root init
          have hlength := hdepth _ hnext
          rw [hi, List.length_cons] at hlength
          obtain ⟨r, hr, hvalid⟩ := ih (depth - (nextSubstate root init w₁).length)
            (by rw [hi, List.length_cons]; omega) 1 hnext hsane₁ rfl
          refine ⟨r, settles_succ ?_, hvalid⟩
          unfold Settles at hw₁ hr ⊢
          filter_upwards [hw₁, hr] with n hn hr
          simp only [getAtomicState, hn, if_neg hatomic, hr]
      · obtain ⟨fuel, hfuel⟩ := hw₁.exists_fuel
        refine ⟨(init, w₁), settles_succ ?_, hinit, (hsane fuel).2 w₁ hfuel⟩
        unfold Settles at hw₁ ⊢
        filter_upwards [hw₁] with n hn
        simp only [getAtomicState, hn]

/-- The tree is finite. -/
theorem exists_depth (root : State Name) :
    ∃ depth : ℕ, ∀ p, (root.stateAt p).isSome = true → p.length ≤ depth := by
  refine ⟨(root.positions []).toFinset.sup List.length, fun p hp => ?_⟩
  exact Finset.le_sup (f := List.length) (List.mem_toFinset.mpr (State.mem_positions hp))

end

/-! ### Rounds and runs -/

/-- At the head of the loop the search for a transition ends with `System.exit`. -/
def Stuck (root : State Name) (head : StateRef × World) (typed : Option (List String)) : Prop :=
  ∀ t w, getValidTransition root head.1 (nextEvent typed head.2).1 (nextEvent typed head.2).2 ≠
    (.transition t, w)

section
variable {sc : Statechart} {c : CheckedStatechart}

theorem simulateStep_exit {root : State Name} {head : StateRef × World}
    {typed : Option (List String)} (h : Stuck root head typed) (fuel : ℕ) :
    simulateStep root fuel head typed = .error .exit := by
  simp only [simulateStep]
  split
  · rename_i t w heq
    exact absurd heq (h t w)
  · rfl

/-- A round comes to its end, unless the simulator exits. -/
theorem simulateStep_settles (hc : typecheck sc = .ok c) (hcode : CodeFinishes c.root)
    {head : StateRef × World} (hcurr : (c.root.stateAt head.1).isSome = true)
    (hw : head.2.Sane c.root) {typed : Option (List String)} (h : ¬ Stuck c.root head typed) :
    ∃ head', Settles (fun fuel => simulateStep c.root fuel head typed) (.ok head') ∧
      (c.root.stateAt head'.1).isSome = true ∧ head'.2.Sane c.root := by
  unfold Stuck at h
  push Not at h
  obtain ⟨t, w₁, hselect⟩ := h
  obtain ⟨q, hq⟩ := nextEvent_world typed head.2
  obtain ⟨_, hchain, hplaced, _⟩ := getValidTransition_transition hselect
  obtain ⟨hlub, _, hdest⟩ := lub_of_accepted hc hplaced
  have hreads := getValidTransition_readsTo c.root head.1 (nextEvent typed head.2).1
    (nextEvent typed head.2).2
  rw [hselect, hq] at hreads
  have hw₁ : w₁.Sane c.root := (sane_kept c.root).reads hreads ⟨hw.below, hw.inTree⟩
  obtain ⟨w₂, hw₂⟩ := performTransition_settles hcode hlub hchain hplaced w₁
  have hsane₂ : w₂.Sane c.root := by
    obtain ⟨fuel, hfuel⟩ := hw₂.exists_fuel
    refine (sane_kept c.root).performTransition hlub hchain ?_ (Statement.assigns_true _) hw₁ hfuel
    rintro q (hq | hq)
    · exact State.stateAt_isSome_of_suffix hq hcurr
    · exact State.stateAt_isSome_of_suffix hq hdest
  obtain ⟨depth, hdepth⟩ := exists_depth c.root
  obtain ⟨head', hhead', hvalid⟩ := getAtomicState_settles hcode hdepth 0 hdest hsane₂
  refine ⟨head', ?_, hvalid⟩
  have hstep : ∀ fuel, simulateStep c.root fuel head typed =
      (performTransition c.root fuel t head.1 w₁ >>= fun w =>
        getAtomicState c.root fuel t.transition.destination 0 w) := by
    intro fuel
    simp only [simulateStep, hselect]
  simp only [hstep]
  exact hw₂.bind hhead'

/-- The rounds come to their ends, up to one in which the simulator exits. -/
theorem rounds_progress (hc : typecheck sc = .ok c) (hcode : CodeFinishes c.root) :
    ∀ (replies : List (Option (List String))) {head : StateRef × World},
      (c.root.stateAt head.1).isSome = true → head.2.Sane c.root →
        (∃ head', Settles (fun fuel => replies.foldlM (simulateStep c.root fuel) head)
          (.ok head')) ∨
        ∃ before typed after stuck, replies = before ++ typed :: after ∧
          Settles (fun fuel => before.foldlM (simulateStep c.root fuel) head) (.ok stuck) ∧
            Stuck c.root stuck typed ∧
              Settles (fun fuel => replies.foldlM (simulateStep c.root fuel) head)
                (.error .exit) := by
  intro replies
  induction replies with
  | nil => exact fun _ _ => Or.inl ⟨_, settles_const _⟩
  | cons typed replies ih =>
      intro head hcurr hw
      by_cases hstuck : Stuck c.root head typed
      · refine Or.inr ⟨[], typed, replies, head, rfl, settles_const _, hstuck, ?_⟩
        have hexit : Settles (fun fuel => simulateStep c.root fuel head typed) (.error .exit) := by
          simp only [simulateStep_exit hstuck]
          exact settles_const _
        exact hexit.bind_error
      · obtain ⟨head₁, hstep, hcurr₁, hw₁⟩ := simulateStep_settles hc hcode hcurr hw hstuck
        rcases ih hcurr₁ hw₁ with ⟨head', hhead'⟩ | ⟨before, typed', after, stuck, rfl, hbefore, h⟩
        · exact Or.inl ⟨head', hstep.bind hhead'⟩
        · exact Or.inr ⟨typed :: before, typed', after, stuck, rfl, hstep.bind hbefore, h.1,
            hstep.bind h.2⟩

/-- Take a statechart that the typechecker accepts, whose code finishes. For any input and any
replies of the user there is enough fuel for all rounds, or for the rounds up to a loop head at
which no single transition is viable. There the simulator exits. -/
theorem simulate_progress (hc : typecheck sc = .ok c) (hcode : CodeFinishes c.root)
    (stdin : List (Option Int32)) (replies : List (Option (List String))) :
    (∃ head, Settles (fun fuel => simulate c.root c.events fuel stdin replies) (.ok head)) ∨
      ∃ before typed after stuck, replies = before ++ typed :: after ∧
        Settles (fun fuel => simulate c.root c.events fuel stdin before) (.ok stuck) ∧
          Stuck c.root stuck typed ∧
            Settles (fun fuel => simulate c.root c.events fuel stdin replies) (.error .exit) := by
  have hinitial : (World.initial c.root c.events stdin).Sane c.root := by
    refine ⟨initial_historyBelow c.root c.events stdin, fun s child hchild => ?_⟩
    rw [(initial_histories c.root c.events stdin).2] at hchild
    cases hchild
  obtain ⟨depth, hdepth⟩ := exists_depth c.root
  have htop : (c.root.stateAt []).isSome = true := rfl
  obtain ⟨start, hstart, hcurr, hw⟩ := getAtomicState_settles hcode hdepth 1 htop hinitial
  rcases rounds_progress hc hcode replies hcurr hw with
    ⟨head, hhead⟩ | ⟨before, typed, after, stuck, hreplies, hbefore, hstuck, hexit⟩
  · exact Or.inl ⟨head, hstart.bind hhead⟩
  · exact Or.inr ⟨before, typed, after, stuck, hreplies, hstart.bind hbefore, hstuck,
      hstart.bind hexit⟩

end

/-- The code of the courier has no loops. -/
theorem codeFinishes_courier : CodeFinishes (accepted courier).root :=
  codeFinishes_of_loopless (by decide)

/-- The courier comes to the end of three rounds, or it gets stuck in one of them. -/
theorem simulate_progress_courier :
    (∃ head, Settles (fun fuel => simulate (accepted courier).root (accepted courier).events fuel []
      [none, none, none]) (.ok head)) ∨
    ∃ before typed after stuck, [none, none, none] = before ++ typed :: after ∧
      Settles (fun fuel => simulate (accepted courier).root (accepted courier).events fuel []
        before) (.ok stuck) ∧ Stuck (accepted courier).root stuck typed ∧
        Settles (fun fuel => simulate (accepted courier).root (accepted courier).events fuel []
          [none, none, none]) (.error .exit) :=
  simulate_progress courier_accepted codeFinishes_courier [] [none, none, none]

end Stabl
