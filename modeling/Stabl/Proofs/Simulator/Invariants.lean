import Stabl.Proofs.Simulator.Hoare
import Stabl.Proofs.Frontend.Scoping

/-!
# `Stabl.Proofs.Simulator.Invariants`: what a round of the simulation keeps

`Kept root S P I` lists what a property `I` of worlds has to survive: reads, marks of the log, the
assignments that `P` permits, and the entering and the leaving of the states in `S`, whose entry
and exit code only make permitted assignments. The rules below lead from there to the phases of a
transition, to a round, and to all runs (`Kept.atLoopHead`). A round also takes an event from the
queue, which `I` has to survive too (`QueueFree`).

A round needs the states of the chain that it leaves and of the chain that it ends in, and no
others.
-/

set_option autoImplicit false

namespace Stabl

open Commands Result TreeAddress World

mutual

/-- `P` holds of every assignment in a statement. -/
def Statement.Assigns (P : Name → Expression Name → Prop) : Statement Name → Prop
  | .statementList statements => AllAssign P statements
  | .assignmentStatement lhs rhs => P lhs rhs
  | .ifStatement _ thenBody elseBody => thenBody.Assigns P ∧ elseBody.Assigns P
  | .whileStatement _ body => body.Assigns P
  | .expressionStatement _ | .haltStatement | .skipStatement => True

/-- `P` holds of every assignment in a list of statements. -/
def AllAssign (P : Name → Expression Name → Prop) : List (Statement Name) → Prop
  | [] => True
  | st :: sts => st.Assigns P ∧ AllAssign P sts

end

mutual

/-- A property of left-hand sides. -/
theorem Statement.assigns_of_lvalues {L : Name → Prop} : ∀ s : Statement Name,
    (∀ n ∈ s.lvalues, L n) → s.Assigns fun lhs _ => L lhs
  | .statementList statements, h => allAssign_of_lvalues statements h
  | .assignmentStatement lhs _, h => h lhs (List.mem_singleton.mpr rfl)
  | .ifStatement _ thenBody elseBody, h =>
      ⟨Statement.assigns_of_lvalues thenBody fun n hn => h n (List.mem_append_left _ hn),
        Statement.assigns_of_lvalues elseBody fun n hn => h n (List.mem_append_right _ hn)⟩
  | .whileStatement _ body, h => Statement.assigns_of_lvalues body h
  | .expressionStatement _, _ => trivial
  | .haltStatement, _ => trivial
  | .skipStatement, _ => trivial

theorem allAssign_of_lvalues {L : Name → Prop} : ∀ sts : List (Statement Name),
    (∀ n ∈ Statement.lvaluesOfList sts, L n) → AllAssign (fun lhs _ => L lhs) sts
  | [], _ => trivial
  | st :: sts, h =>
      ⟨Statement.assigns_of_lvalues st fun n hn => h n (List.mem_append_left _ hn),
        allAssign_of_lvalues sts fun n hn => h n (List.mem_append_right _ hn)⟩

end

/-- `I` holds where a step ends, and where it throws. -/
def Ends (I : World → Prop) (x : Sim World) : Prop :=
  (∀ w, x = .ok w → I w) ∧ ∀ w, x = .error (.exception w) → I w

/-- What `I` has to survive. -/
structure Kept (root : State Name) (S : StateRef → Prop) (P : Name → Expression Name → Prop)
    (I : World → Prop) : Prop where
  reads : ∀ {a b}, a.ReadsTo b → I a → I b
  record : ∀ {w} e, I w → I (w.record e)
  assign : ∀ {lhs rhs w}, P lhs rhs → I w → I (executeAssignmentStatement lhs rhs w)
  enter : ∀ {s w}, S s → I w → Ends I (w.enterState root s)
  exit : ∀ {s w}, S s → I w → I (w.exitState root s)
  entryCode : ∀ {s}, S s → (root.entryAt s).Assigns P
  exitCode : ∀ {s}, S s → (root.exitAt s).Assigns P

/-- `I` does not depend on the event queue. -/
def QueueFree (I : World → Prop) : Prop :=
  ∀ w q, I w → I { w with eState := { w.eState with eventQueue := q } }

namespace Kept

variable {root : State Name} {S : StateRef → Prop} {P : Name → Expression Name → Prop}
  {I : World → Prop} {fuel : Nat}

/-! ### Statements -/

/-- A condition is evaluated, or it is not looked at. -/
theorem condition (h : Kept root S P I) (e : Expression Name) {w : World} (hw : I w) :
    I (conditionValue e w).2 := by
  rcases conditionValue_world e w with heq | heq
  · exact heq ▸ h.reads (evaluate_readsTo e w) hw
  · exact heq.symm ▸ hw

mutual

/-- Permitted assignments keep `I`, and so does the command of a statement that makes only
such. -/
theorem command (h : Kept root S P I) : ∀ s : Statement Name, s.Assigns P → s.command.Keeps I
  | .statementList statements, hs => by
      rw [Statement.command]
      exact commandOfList h statements hs
  | .assignmentStatement lhs rhs, hs => by
      rw [Statement.command]
      exact fun w hw => h.assign hs hw
  | .ifStatement condition thenBody elseBody, hs => by
      rw [Statement.command]
      exact ⟨fun w hw => h.condition condition hw, command h thenBody hs.1,
        command h elseBody hs.2⟩
  | .whileStatement condition body, hs => by
      rw [Statement.command]
      exact ⟨fun w hw => h.condition condition hw, command h body hs⟩
  | .expressionStatement expression, _ => by
      rw [Statement.command]
      exact fun w hw => h.reads (evaluate_readsTo expression w) hw
  | .haltStatement, _ => by
      rw [Statement.command]
      trivial
  | .skipStatement, _ => by
      rw [Statement.command]
      trivial

theorem commandOfList (h : Kept root S P I) : ∀ sts : List (Statement Name), AllAssign P sts →
    (Stabl.commandOfList sts).Keeps I
  | [], _ => by
      rw [Stabl.commandOfList]
      trivial
  | st :: sts, hsts => by
      rw [Stabl.commandOfList]
      exact ⟨command h st hsts.1, commandOfList h sts hsts.2⟩

end

/-- The execution of a statement that only makes permitted assignments. -/
theorem executeStatement (h : Kept root S P I) {s : Statement Name} (hs : s.Assigns P)
    {w w' : World} (hw : I w) (hrun : Stabl.executeStatement fuel s w = .ok w') : I w' :=
  (h.command s hs).derives.valid w w' hw (exec_of_executeStatement fuel s w w' hrun)

/-! ### The phases of a transition -/

theorem enterAndExecute (h : Kept root S P I) {s : StateRef} (hs : S s) {w : World} (hw : I w) :
    Ends I (Stabl.enterAndExecute root fuel s w) := by
  refine ⟨fun w' hw' => ?_, fun w' hw' => ?_⟩
  · obtain ⟨w₁, henter, hentry⟩ := (enterAndExecute_eq_ok root).mp hw'
    exact h.executeStatement (h.entryCode hs) (h.record _ ((h.enter hs hw).1 w₁ henter)) hentry
  · exact (h.enter hs hw).2 w' (enterAndExecute_exception root hw')

/-- The way up leaves the states below `l`. -/
theorem bubbleUp (h : Kept root S P I) {l p : StateRef} (hl : l <:+ p)
    (hS : ∀ q, q <:+ p → S q) {w w' : World} (hw : I w)
    (hrun : Stabl.bubbleUp root fuel (some l) p w = .ok w') : I w' := by
  induction p generalizing w with
  | nil =>
      obtain rfl := List.suffix_nil.mp hl
      rw [Stabl.bubbleUp, if_pos rfl, Except.ok.injEq] at hrun
      exact hrun ▸ hw
  | cons i p ih =>
      rw [Stabl.bubbleUp] at hrun
      rcases List.suffix_cons_iff.mp hl with rfl | hl
      · rw [if_pos rfl, Except.ok.injEq] at hrun
        exact hrun ▸ hw
      · have hne : ¬ some (i :: p) = some l := by
          rintro ⟨⟩
          exact cons_not_suffix i p hl
        rw [if_neg hne, bind_eq_ok] at hrun
        obtain ⟨w₁, hexit, hrun⟩ := hrun
        have hself : S (i :: p) := hS _ List.suffix_rfl
        have hw₁ := h.executeStatement (h.exitCode hself) (h.record _ hw) hexit
        exact ih hl (fun q hq => hS q (hq.trans (List.suffix_cons i p))) (h.exit hself hw₁) hrun

/-- The way down enters the states of the path. -/
theorem enterPath (h : Kept root S P I) {l p : StateRef} (hl : l <:+ p)
    (hS : ∀ q, q <:+ p → S q) {w : World} (hw : I w) :
    Ends I (Stabl.enterPath root fuel l p w) := by
  have hstep : ∀ i q w w', l <:+ q → (i :: q) <:+ p → I w →
      Stabl.enterAndExecute root fuel (i :: q) w = .ok w' → I w' :=
    fun i q w w' _ hq hw hrun => (h.enterAndExecute (hS _ hq) hw).1 w' hrun
  refine ⟨fun w' hrun => enterPath_preserves (P := fun _ => I) hl hstep hw hrun, fun w' hrun => ?_⟩
  obtain ⟨i, q, w₁, _, hq, hw₁, hthrow⟩ := enterPath_throws (P := fun _ => I) hl hstep hw hrun
  exact (h.enter (hS _ hq) hw₁).2 w' hthrow

theorem performTransition (h : Kept root S P I) {t : PlacedTransition Name} {curr : StateRef}
    (hlub : lub t.transition.source t.transition.destination = some t.state)
    (hcurr : t.state <:+ curr) (hS : ∀ q, q <:+ curr ∨ q <:+ t.transition.destination → S q)
    (haction : t.transition.action.Assigns P) {w w' : World} (hw : I w)
    (hrun : Stabl.performTransition root fuel t curr w = .ok w') : I w' := by
  obtain ⟨w₁, w₂, hup, hact, hdown⟩ := (performTransition_eq_ok hlub hcurr).mp hrun
  have hw₁ := h.bubbleUp hcurr (fun q hq => hS q (Or.inl hq)) hw hup
  have hw₂ := h.executeStatement haction (h.record _ hw₁) hact
  have hpath : Ends I (Stabl.enterPath root fuel t.state t.transition.destination w₂) :=
    h.enterPath (lub_proper hlub).2.1 (fun q hq => hS q (Or.inr hq)) hw₂
  rcases hdown with hdown | hdown
  · exact hpath.1 w' hdown
  · exact hpath.2 w' hdown

end Kept

/-! ### The state history -/

/-- The child that a state remembers is a child of it. -/
def World.HistoryBelow (w : World) : Prop :=
  ∀ s c, w.eState.stateHistory s = some c → getSuperstate c = some s

mutual

theorem Statement.assigns_true : ∀ s : Statement Name, s.Assigns fun _ _ => True
  | .statementList statements => allAssign_true statements
  | .assignmentStatement _ _ => trivial
  | .ifStatement _ thenBody elseBody =>
      ⟨Statement.assigns_true thenBody, Statement.assigns_true elseBody⟩
  | .whileStatement _ body => Statement.assigns_true body
  | .expressionStatement _ => trivial
  | .haltStatement => trivial
  | .skipStatement => trivial

theorem allAssign_true : ∀ sts : List (Statement Name), AllAssign (fun _ _ => True) sts
  | [] => trivial
  | st :: sts => ⟨Statement.assigns_true st, allAssign_true sts⟩

end

/-- What the states remember is related to them by `Q`. -/
def World.Remembers (Q : StateRef → StateRef → Prop) (w : World) : Prop :=
  ∀ s c, w.eState.stateHistory s = some c → Q s c

/-- Only `exitState` writes the state history, and it writes a child of the state. -/
theorem remembers_kept (root : State Name) {S : StateRef → Prop} {Q : StateRef → StateRef → Prop}
    (hQ : ∀ s p, S s → getSuperstate s = some p → Q p s) :
    Kept root S (fun _ _ => True) (Remembers Q) where
  reads hreads h := by
    unfold Remembers
    rw [hreads.eState]
    exact h
  record _ h := h
  assign {lhs rhs w} _ h := by
    have hstate := (evaluate_readsTo rhs w).eState
    show Remembers Q ((evaluate rhs w).2.setValue _ _)
    unfold Remembers
    rw [setValue, record_eState, put_stateHistory, hstate]
    exact h
  enter {s w} _ h := by
    have hkeeps : ∀ w', EntersTo root s w w' → Remembers Q w' := by
      intro w' henter
      unfold Remembers
      rw [henter.stateHistory]
      exact h
    refine ⟨fun w' hw' => hkeeps w' (enterState_entersTo hw'), fun w' hw' => ?_⟩
    obtain ⟨w₁, heq, henter, _⟩ := enterState_throws hw'
    rw [Stop.exception.injEq] at heq
    exact heq ▸ hkeeps w₁ henter
  exit {s w} hs h := by
    intro p c hc
    rw [(exitState_exitsTo root s w).stateHistory] at hc
    by_cases hp : getSuperstate s = some p
    · rw [if_pos hp, Option.some.injEq] at hc
      exact hc ▸ hQ s p hs hp
    · rw [if_neg hp] at hc
      exact h p c hc
  entryCode _ := Statement.assigns_true _
  exitCode _ := Statement.assigns_true _

theorem historyBelow_kept (root : State Name) :
    Kept root (fun _ => True) (fun _ _ => True) HistoryBelow :=
  remembers_kept root fun _ _ _ h => h

theorem historyBelow_queueFree : QueueFree HistoryBelow := fun _ _ h => h

theorem initial_historyBelow (root : State Name) (events : List String)
    (stdin : List (Option Int32)) : HistoryBelow (World.initial root events stdin) := by
  intro s child hchild
  rw [(initial_histories root events stdin).2] at hchild
  cases hchild

/-- The descent goes on in a child. -/
theorem World.HistoryBelow.nextSubstate {w : World} (h : w.HistoryBelow) (root : State Name)
    (s : StateRef) : ∃ i, nextSubstate root s w = i :: s := by
  unfold Stabl.nextSubstate getHistoryState
  split
  · split
    · rename_i c hc
      have hsuper := h s c hc
      cases c with
      | nil => simp [getSuperstate] at hsuper
      | cons i q =>
          obtain rfl : q = s := by simpa [getSuperstate] using hsuper
          exact ⟨i, rfl⟩
    · exact ⟨0, rfl⟩
  · exact ⟨0, rfl⟩

section
variable {root : State Name} {fuel : Nat}

/-- `getAtomicState` ends in the state in which it begins, or below it. -/
theorem getAtomicState_suffix {tag : Nat} {init : StateRef} {w : World} {r : StateRef × World}
    (h : w.HistoryBelow) (hrun : getAtomicState root fuel init tag w = .ok r) : init <:+ r.1 := by
  induction fuel generalizing init tag w with
  | zero => simp [getAtomicState] at hrun
  | succ n ih =>
      have hentered : Ends HistoryBelow
          (if tag = 1 then enterAndExecute root n init w else .ok w) := by
        by_cases htag : tag = 1
        · rw [if_pos htag]
          exact (historyBelow_kept root).enterAndExecute trivial h
        · rw [if_neg htag]
          exact ⟨fun w' hw' => Except.ok.inj hw' ▸ h, fun w' hw' => by cases hw'⟩
      rw [getAtomicState] at hrun
      split at hrun
      · rw [Except.ok.injEq] at hrun
        exact hrun ▸ List.suffix_rfl
      · cases hrun
      · rename_i w₁ heq
        split at hrun
        · rw [Except.ok.injEq] at hrun
          exact hrun ▸ List.suffix_rfl
        · have hw₁ := hentered.1 w₁ heq
          obtain ⟨i, hnext⟩ := hw₁.nextSubstate root init
          rw [hnext] at hrun
          exact (List.suffix_cons i init).trans (ih hw₁ hrun)

end

namespace Kept

variable {root : State Name} {S : StateRef → Prop} {P : Name → Expression Name → Prop}
  {I : World → Prop} {fuel : Nat}

/-- `getAtomicState` enters states of the chain of its result. -/
theorem getAtomicState (h : Kept root S P I) {tag : Nat} {init : StateRef} {w : World}
    {r : StateRef × World} (hhistory : w.HistoryBelow) (hS : ∀ q, q <:+ r.1 → S q) (hw : I w)
    (hrun : Stabl.getAtomicState root fuel init tag w = .ok r) : I r.2 := by
  induction fuel generalizing init tag w with
  | zero => simp [Stabl.getAtomicState] at hrun
  | succ n ih =>
      have hinit : S init := hS init (getAtomicState_suffix hhistory hrun)
      have hentered : Ends (fun w => w.HistoryBelow ∧ I w)
          (if tag = 1 then Stabl.enterAndExecute root n init w else .ok w) := by
        by_cases htag : tag = 1
        · rw [if_pos htag]
          have hbelow : Ends HistoryBelow (Stabl.enterAndExecute root n init w) :=
            (historyBelow_kept root).enterAndExecute trivial hhistory
          have hkept : Ends I (Stabl.enterAndExecute root n init w) :=
            h.enterAndExecute hinit hw
          exact ⟨fun w' hw' => ⟨hbelow.1 w' hw', hkept.1 w' hw'⟩,
            fun w' hw' => ⟨hbelow.2 w' hw', hkept.2 w' hw'⟩⟩
        · rw [if_neg htag]
          exact ⟨fun w' hw' => Except.ok.inj hw' ▸ ⟨hhistory, hw⟩, fun w' hw' => by cases hw'⟩
      rw [Stabl.getAtomicState] at hrun
      split at hrun
      · rename_i w₁ heq
        rw [Except.ok.injEq] at hrun
        exact hrun ▸ (hentered.2 w₁ heq).2
      · cases hrun
      · rename_i w₁ heq
        obtain ⟨hbelow, hw₁⟩ := hentered.1 w₁ heq
        split at hrun
        · rw [Except.ok.injEq] at hrun
          exact hrun ▸ hw₁
        · exact ih hbelow hw₁ hrun

end Kept

/-! ### Selection -/

section
variable (root : State Name)

theorem viable_readsTo (event : String) (t : Transition Name) (w : World) :
    w.ReadsTo (viable event t w).2 := by
  have h := evaluate_readsTo t.guard w
  unfold viable
  split
  · rename_i heq
    rwa [heq] at h
  · rename_i heq
    rwa [heq] at h

theorem searchState_readsTo (event : String) (p : StateRef) (ts : List (Transition Name))
    (acc : List (PlacedTransition Name) × World) :
    acc.2.ReadsTo (searchState event p ts acc).2 := by
  unfold searchState
  refine List.foldlRecOn ts _ (.rfl acc.2) ?_
    (motive := fun r : List (PlacedTransition Name) × World => acc.2.ReadsTo r.2)
  intro acc' hacc t _
  have hviable := hacc.trans (viable_readsTo event t acc'.2)
  split
  · rename_i heq
    rwa [heq] at hviable
  · rename_i heq
    rwa [heq] at hviable

theorem search_readsTo (event : String) (curr : StateRef)
    (acc : List (PlacedTransition Name) × World) :
    acc.2.ReadsTo (search root event curr acc).2 := by
  induction curr generalizing acc with
  | nil => exact searchState_readsTo event [] _ acc
  | cons i p ih => exact (searchState_readsTo event (i :: p) _ acc).trans (ih _)

/-- The search for a transition only evaluates guards. -/
theorem getValidTransition_readsTo (curr : StateRef) (event : String) (w : World) :
    w.ReadsTo (getValidTransition root curr event w).2 := by
  have hfirst := search_readsTo root event curr ([], w)
  unfold getValidTransition
  split
  · rename_i w₁ heq
    rw [heq] at hfirst
    have hsecond := search_readsTo root "null" curr ([], w₁)
    split
    · exact hfirst
    · split
      rename_i heq'
      rw [heq'] at hsecond
      exact hfirst.trans hsecond
  · rename_i heq
    rw [heq] at hfirst
    exact hfirst

end

/-! ### Rounds and runs -/

namespace Kept

variable {S : StateRef → Prop} {P : Name → Expression Name → Prop}
  {I : World → Prop} {fuel : Nat} {sc : Statechart} {c : CheckedStatechart}

/-- A round in which the states of both chains are in `S`. -/
theorem simulateStep (hc : typecheck sc = .ok c) (h : Kept c.root S P I) (hqueue : QueueFree I)
    {head head' : StateRef × World} {typed : Option (List String)}
    (hhistory : head.2.HistoryBelow) (hS : ∀ q, q <:+ head.1 ∨ q <:+ head'.1 → S q)
    (haction : ∀ p, ∀ t ∈ c.root.transitionsAt p, t.destination <:+ head'.1 → t.action.Assigns P)
    (hw : I head.2) (hrun : Stabl.simulateStep c.root fuel head typed = .ok head') :
    I head'.2 := by
  obtain ⟨t, w₁, w₂, hselect, hperform, hatomic⟩ := simulateStep_eq_ok.mp hrun
  obtain ⟨q, hq⟩ := nextEvent_world typed head.2
  rw [hq] at hselect
  obtain ⟨_, hcurr, hplaced, _⟩ := getValidTransition_transition hselect
  have hlub := (lub_of_accepted hc hplaced).1
  have hreads := getValidTransition_readsTo c.root head.1 (nextEvent typed head.2).1
    { head.2 with eState := { head.2.eState with eventQueue := q } }
  rw [hselect] at hreads
  have hbelow₁ := (historyBelow_kept c.root).reads hreads
    (historyBelow_queueFree _ q hhistory)
  have hbelow₂ := (historyBelow_kept c.root).performTransition hlub hcurr (fun _ _ => trivial)
    (Statement.assigns_true _) hbelow₁ hperform
  have hdest := getAtomicState_suffix hbelow₂ hatomic
  have hw₂ := h.performTransition hlub hcurr
    (fun q hq => hS q (hq.imp_right fun hq => hq.trans hdest)) (haction _ _ hplaced hdest)
    (h.reads hreads (hqueue _ q hw)) hperform
  exact h.getAtomicState hbelow₂ (fun q hq => hS q (Or.inr hq)) hw₂ hatomic

/-- A property that begins to hold with the simulation, and that every state, every
transition and every step keeps, holds at every loop head. -/
theorem atLoopHead (hc : typecheck sc = .ok c) (h : Kept c.root (fun _ => True) P I)
    (hqueue : QueueFree I)
    (haction : ∀ p, ∀ t ∈ c.root.transitionsAt p, t.action.Assigns P)
    (start : ∀ stdin, I (World.initial c.root c.events stdin)) {curr : StateRef} {w : World}
    (hhead : AtLoopHead c curr w) : I w := by
  have hboth : HistoryBelow w ∧ I w := by
    refine AtLoopHead.preserves (P := fun head => HistoryBelow head.2 ∧ I head.2) ?_ ?_ hhead
    · intro fuel stdin head hrun
      have hbelow := initial_historyBelow c.root c.events stdin
      exact ⟨(historyBelow_kept c.root).getAtomicState hbelow (fun _ _ => trivial) hbelow hrun,
        h.getAtomicState hbelow (fun _ _ => trivial) (start stdin) hrun⟩
    · rintro fuel typed head head' ⟨hbelow, hw⟩ hrun
      exact ⟨(historyBelow_kept c.root).simulateStep hc historyBelow_queueFree hbelow
          (fun _ _ => trivial) (fun _ _ _ _ => Statement.assigns_true _) hbelow hrun,
        h.simulateStep hc hqueue hbelow (fun _ _ => trivial) (fun p t ht _ => haction p t ht) hw
          hrun⟩
  exact hboth.2

end Kept

/-- At every loop head the states remember children of theirs. -/
theorem AtLoopHead.historyBelow {sc : Statechart} {c : CheckedStatechart}
    (hc : typecheck sc = .ok c) {curr : StateRef} {w : World} (h : AtLoopHead c curr w) :
    w.HistoryBelow :=
  (historyBelow_kept c.root).atLoopHead hc historyBelow_queueFree
    (fun _ _ _ => Statement.assigns_true _) (initial_historyBelow c.root c.events) h

end Stabl
