import Stabl.Proofs.Simulator.Invariants

/-!
# `Stabl.Proofs.Simulator.Encapsulation`: an inactive state is left alone

Code writes variables of the states around it, as long as no fully qualified name leads it
elsewhere (`WritesInScope`). Then nothing that belongs to a state changes while the state is
inactive: its variables, the values that it has stored for its next entry, and the child that it
remembers. `inactive_unchanged` says so for any number of rounds.

The states that a round enters and leaves are on the chain of the current state before it or
after it. So it is enough to look at the heads of the loop.
-/

set_option autoImplicit false

namespace Stabl

open Result World

/-- Entry and exit code writes variables of its state and of the states above, and an action those
of the destination and of the states above. -/
structure WritesInScope (root : State Name) : Prop where
  entry : ∀ p, ∀ n ∈ (root.entryAt p).lvalues, n.declaration.state <:+ p
  exit : ∀ p, ∀ n ∈ (root.exitAt p).lvalues, n.declaration.state <:+ p
  action : ∀ p, ∀ t ∈ root.transitionsAt p, ∀ n ∈ t.action.lvalues,
    n.declaration.state <:+ t.destination

/-- Only the states of the tree have to be looked at. -/
theorem writesInScope_iff (root : State Name) : WritesInScope root ↔
    ∀ p ∈ root.positions [],
      (∀ n ∈ (root.entryAt p).lvalues ++ (root.exitAt p).lvalues, n.declaration.state <:+ p) ∧
        ∀ t ∈ root.transitionsAt p, ∀ n ∈ t.action.lvalues,
          n.declaration.state <:+ t.destination := by
  constructor
  · intro h p _
    refine ⟨fun n hn => ?_, h.action p⟩
    rcases List.mem_append.mp hn with hn | hn
    · exact h.entry p n hn
    · exact h.exit p n hn
  · intro h
    have hmem : ∀ {p : StateRef} {s : State Name}, root.stateAt p = some s →
        p ∈ root.positions [] := fun hs => State.mem_positions (by rw [hs]; rfl)
    refine ⟨fun p n hn => ?_, fun p n hn => ?_, State.forall_transitionsAt fun p hp => (h p hp).2⟩
    · cases hs : root.stateAt p with
      | none => simp [State.entryAt, hs, Statement.lvalues] at hn
      | some s => exact (h p (hmem hs)).1 n (List.mem_append_left _ hn)
    · cases hs : root.stateAt p with
      | none => simp [State.exitAt, hs, Statement.lvalues] at hn
      | some s => exact (h p (hmem hs)).1 n (List.mem_append_right _ hn)

instance (root : State Name) : Decidable (WritesInScope root) :=
  decidable_of_iff _ (writesInScope_iff root).symm

/-- Nothing that belongs to the state `s` has changed. -/
structure SameState (s : StateRef) (w₀ w : World) : Prop where
  values : ∀ v, v.state = s →
    w.eState.valueEnvironment v = w₀.eState.valueEnvironment v
  valueHistory : w.eState.valueHistory s = w₀.eState.valueHistory s
  stateHistory : w.eState.stateHistory s = w₀.eState.stateHistory s

namespace SameState

variable {s : StateRef} {w₀ w : World}

theorem rfl (s : StateRef) (w : World) : SameState s w w :=
  ⟨fun _ _ => Eq.refl _, Eq.refl _, Eq.refl _⟩

theorem trans {w₁ w₂ w₃ : World} (h : SameState s w₁ w₂) (h' : SameState s w₂ w₃) :
    SameState s w₁ w₃ :=
  ⟨fun v hv => (h'.values v hv).trans (h.values v hv), h'.valueHistory.trans h.valueHistory,
    h'.stateHistory.trans h.stateHistory⟩

/-- Entering another state. -/
theorem entersTo {root : State Name} {q : StateRef} {w' : World} (h : SameState s w₀ w)
    (hne : q ≠ s) (hw : EntersTo root q w w') : SameState s w₀ w' := by
  refine ⟨fun v hv => ?_, ?_, ?_⟩
  · rw [hw.frame v fun hdeclared => hne (hdeclared.1.symm.trans hv)]
    exact h.values v hv
  · rw [hw.valueHistory]
    exact h.valueHistory
  · rw [hw.stateHistory]
    exact h.stateHistory

/-- Leaving another state, which is no child of `s` either. -/
theorem exitState (root : State Name) {q : StateRef} (h : SameState s w₀ w) (hne : q ≠ s)
    (hchild : getSuperstate q ≠ some s) : SameState s w₀ (w.exitState root q) := by
  have hexit := exitState_exitsTo root q w
  refine ⟨fun v hv => ?_, ?_, ?_⟩
  · rw [hexit.frame v fun hdeclared => hne (hdeclared.1.symm.trans hv)]
    exact h.values v hv
  · rw [(exitState_valueHistory root q w).1 s hne.symm]
    exact h.valueHistory
  · rw [hexit.stateHistory, if_neg hchild]
    exact h.stateHistory

end SameState

/-- Code of states that are not at or below `s` leaves `s` alone. -/
theorem sameState_kept {root : State Name} (hscope : WritesInScope root) (s : StateRef)
    (w₀ : World) :
    Kept root (fun q => ¬ s <:+ q) (fun lhs _ => lhs.declaration.state ≠ s) (SameState s w₀) where
  reads hreads h := by
    constructor
    · rw [hreads.eState]
      exact h.values
    · rw [hreads.eState]
      exact h.valueHistory
    · rw [hreads.eState]
      exact h.stateHistory
  record _ h := ⟨h.values, h.valueHistory, h.stateHistory⟩
  assign {lhs rhs w} hne h := by
    have hstate := (evaluate_readsTo rhs w).eState
    refine ⟨fun v hv => ?_, ?_, ?_⟩
    · have hother : v ≠ lhs.declaration := by
        rintro rfl
        exact hne hv
      show Function.update (evaluate rhs w).2.eState.valueEnvironment _ _ v = _
      rw [hstate, Function.update_of_ne hother]
      exact h.values v hv
    · show (evaluate rhs w).2.eState.valueHistory s = _
      rw [hstate]
      exact h.valueHistory
    · show (evaluate rhs w).2.eState.stateHistory s = _
      rw [hstate]
      exact h.stateHistory
  enter {q w} hq h := by
    have hne : q ≠ s := fun heq => hq (heq ▸ List.suffix_rfl)
    refine ⟨fun w' hw' => h.entersTo hne (enterState_entersTo hw'), fun w' hw' => ?_⟩
    obtain ⟨w₁, heq, henter, _⟩ := enterState_throws hw'
    rw [Stop.exception.injEq] at heq
    exact heq ▸ h.entersTo hne henter
  exit {q w} hq h := by
    refine h.exitState root (fun heq => hq (heq ▸ List.suffix_rfl)) fun hsuper => hq ?_
    cases q with
    | nil => cases hsuper
    | cons i p =>
        have hp : p = s := Option.some.inj hsuper
        exact hp ▸ List.suffix_cons i p
  entryCode {q} hq := Statement.assigns_of_lvalues _ fun n hn heq => hq (heq ▸ hscope.entry q n hn)
  exitCode {q} hq := Statement.assigns_of_lvalues _ fun n hn heq => hq (heq ▸ hscope.exit q n hn)

section
variable {sc : Statechart} {c : CheckedStatechart}

/-- A fully qualified name on the left of an assignment is the only way out of the scope. -/
theorem writesInScope_of_unqualified (hc : typecheck sc = .ok c)
    (hstates : ∀ p s, c.root.stateAt p = some s → ∀ n ∈ s.entry.lvalues ++ s.exit.lvalues,
      ¬ Qualified sc.root n)
    (htransitions : ∀ p, ∀ t ∈ c.root.transitionsAt p, ∀ n ∈ t.action.lvalues,
      ¬ Qualified sc.root n) : WritesInScope c.root := by
  obtain ⟨d, _, hroot, _, hcheck⟩ := typecheck_eq_ok hc
  rw [← hroot] at hstates htransitions
  have hcode : ∀ {p : StateRef} {st : Statement Path} {st' : Statement Name},
      d.typecheckStatement (getEnvironment d.root p) (getEnvironment d.root p) st = .ok st' →
      ∀ n ∈ st'.lvalues, ¬ Qualified d.root n → n.declaration.state <:+ p := by
    intro p st st' h n hn hunqualified
    obtain ⟨name, type, hname⟩ := (Declared.typecheckStatement_names st h).2 n hn
    exact (mem_getEnvironment ((Declared.mem_declarations_iff hname).mpr
      fun hqualified => absurd hqualified hunqualified)).1
  refine ⟨fun p n hn => ?_, fun p n hn => ?_, fun p t ht n hn => ?_⟩
  · unfold State.entryAt at hn
    split at hn
    · rename_i s hs
      obtain ⟨s₀, _, hstate⟩ := Declared.stateAt_accepted hcheck hs
      exact hcode (Declared.typecheckedState hstate).entry n hn
        (hstates p s hs n (List.mem_append_left _ hn))
    · cases hn
  · unfold State.exitAt at hn
    split at hn
    · rename_i s hs
      obtain ⟨s₀, _, hstate⟩ := Declared.stateAt_accepted hcheck hs
      exact hcode (Declared.typecheckedState hstate).exit n hn
        (hstates p s hs n (List.mem_append_right _ hn))
    · cases hn
  · obtain ⟨t₀, _, htcheck⟩ := Declared.transition_accepted hcheck ht
    have ht' := Declared.typecheckedTransition htcheck
    obtain ⟨name, type, hname⟩ := (Declared.typecheckStatement_names t₀.action ht'.action).2 n hn
    have hmem := (Declared.mem_declarations_iff hname).mpr
      fun hqualified => absurd hqualified (htransitions p t ht n hn)
    have hlub : lub t₀.source t₀.destination = some p := by
      rw [← ht'.source, ← ht'.destination]
      exact ht'.lub
    rw [ht'.destination]
    rcases (mem_getWriteEnvironment (t := ⟨p, t₀⟩) hlub).mp hmem with ⟨hstate, _⟩ | ⟨hstate, _⟩
    · exact hstate
    · exact hstate ▸ List.suffix_rfl

/-- One round: a state that is inactive before it and after it keeps what belongs to it. -/
theorem simulateStep_sameState (hc : typecheck sc = .ok c) (hscope : WritesInScope c.root)
    {fuel : Nat} {head head' : StateRef × World} {typed : Option (List String)}
    (hhistory : head.2.HistoryBelow) {s : StateRef} (hbefore : ¬ s <:+ head.1)
    (hafter : ¬ s <:+ head'.1) (h : simulateStep c.root fuel head typed = .ok head') :
    SameState s head.2 head'.2 := by
  refine (sameState_kept hscope s head.2).simulateStep hc
    (fun _ _ h => ⟨h.values, h.valueHistory, h.stateHistory⟩) hhistory ?_ ?_ (.rfl s head.2) h
  · rintro q (hq | hq) hs
    · exact hbefore (hs.trans hq)
    · exact hafter (hs.trans hq)
  · intro p t ht hdest
    exact Statement.assigns_of_lvalues _ fun n hn heq =>
      hafter (heq ▸ (hscope.action p t ht n hn).trans hdest)

/-- Any number of rounds: a state that is inactive at every loop head on the way keeps what
belongs to it. -/
theorem run_sameState (hc : typecheck sc = .ok c) (hscope : WritesInScope c.root) {fuel : Nat}
    {s : StateRef} {replies : List (Option (List String))} {head head' : StateRef × World}
    (hhistory : head.2.HistoryBelow)
    (hinactive : ∀ pre post mid, replies = pre ++ post →
      pre.foldlM (simulateStep c.root fuel) head = .ok mid → ¬ s <:+ mid.1)
    (hrun : replies.foldlM (simulateStep c.root fuel) head = .ok head') :
    SameState s head.2 head'.2 := by
  induction replies generalizing head with
  | nil =>
      rw [List.foldlM_nil, pure_eq_ok] at hrun
      exact hrun ▸ .rfl s head.2
  | cons typed rest ih =>
      rw [List.foldlM_cons, bind_eq_ok] at hrun
      obtain ⟨mid, hstep, hrest⟩ := hrun
      have hfirst : ∀ pre post last, rest = pre ++ post →
          pre.foldlM (simulateStep c.root fuel) mid = .ok last → ¬ s <:+ last.1 := by
        intro pre post last heq hpre
        refine hinactive (typed :: pre) post last (by rw [heq, List.cons_append]) ?_
        rw [List.foldlM_cons, bind_eq_ok]
        exact ⟨mid, hstep, hpre⟩
      have hbelow : mid.2.HistoryBelow :=
        (historyBelow_kept c.root).simulateStep hc historyBelow_queueFree hhistory
          (fun _ _ => trivial) (fun _ _ _ _ => Statement.assigns_true _) hhistory hstep
      have hround : SameState s head.2 mid.2 :=
        simulateStep_sameState hc hscope hhistory (hinactive [] (typed :: rest) head rfl rfl)
          (hfirst [] rest mid rfl rfl) hstep
      exact hround.trans (ih hbelow hfirst hrest)

/-- While a state is inactive, its variables, its stored values and the child that it remembers do
not change, however many rounds pass. The state is inactive at a loop head when it is not on the
chain of the current state. -/
theorem inactive_unchanged (hc : typecheck sc = .ok c) (hscope : WritesInScope c.root)
    {fuel : Nat} {curr curr' : StateRef} {w w' : World} (hhead : AtLoopHead c curr w)
    {replies : List (Option (List String))}
    (hrun : replies.foldlM (simulateStep c.root fuel) (curr, w) = .ok (curr', w')) {s : StateRef}
    (hinactive : ∀ pre post mid, replies = pre ++ post →
      pre.foldlM (simulateStep c.root fuel) (curr, w) = .ok mid → ¬ s <:+ mid.1) :
    (∀ v, v.state = s → w'.eState.valueEnvironment v = w.eState.valueEnvironment v) ∧
      w'.eState.valueHistory s = w.eState.valueHistory s ∧
        w'.eState.stateHistory s = w.eState.stateHistory s := by
  have h := run_sameState hc hscope (hhead.historyBelow hc) hinactive hrun
  exact ⟨h.values, h.valueHistory, h.stateHistory⟩

end

/-! ### A gauge -/

/-- While the gauge shows, `Dark` remembers in `seen` what it has counted; `up` and `down` count
in a variable of the statechart. -/
def gauge : Statechart where
  root := { plainState "Gauge" with
    declarations := ⟨[integerVariable "count" .localScope], by decide⟩
    states := [
      { plainState "Dark" with
        declarations := ⟨[integerVariable "seen" .staticScope], by decide⟩
        exit := .assignmentStatement ["seen"] (.constant (.integerConstant 5)) },
      plainState "Low", plainState "High"]
    transitions := [
      plainTransition "show" "Gauge" "Dark" "Low" 0 1,
      { plainTransition "up" "Gauge" "Low" "High" 1 2 with
        action := .assignmentStatement ["count"] (.constant (.integerConstant 1)) },
      { plainTransition "down" "Gauge" "High" "Low" 2 1 with
        action := .assignmentStatement ["count"] (.constant (.integerConstant 2)) }] }
  moreTypes := []
  events := ["turn", "turn", "turn"]
  functionDeclarations := []
  initialised := by decide

theorem gauge_accepted : typecheck gauge = .ok (accepted gauge) := eq_ok_getD (by decide) _

/-- The head of the loop when the gauge shows `Low`. -/
def gaugeShows : StateRef × World := loopHead (accepted gauge) 10 [] [none]

/-- The loop heads after that. -/
def gaugeAfter (replies : List (Option (List String))) : StateRef × World :=
  getD (replies.foldlM (simulateStep (accepted gauge).root 10) gaugeShows) gaugeShows

/-- After `up` and `down`, `Dark` still has what it has seen. -/
theorem inactive_unchanged_gauge :
    (gaugeAfter [none, none]).2.eState.valueEnvironment ⟨[0], "seen"⟩ =
        some (.integerConstant 5) ∧
      (gaugeAfter [none, none]).2.eState.valueHistory [0] =
        gaugeShows.2.eState.valueHistory [0] := by
  have hrun : [none, none].foldlM (simulateStep (accepted gauge).root 10) gaugeShows =
      .ok (gaugeAfter [none, none]) := eq_ok_getD (by decide) _
  have h := inactive_unchanged (s := [0]) gauge_accepted (by decide)
    (atLoopHead (accepted gauge) 10 [] [none] (by decide)) hrun ?_
  · exact ⟨(h.1 ⟨[0], "seen"⟩ rfl).trans (by decide), h.2.1⟩
  · intro pre post mid heq hpre
    have hmid : (gaugeAfter pre).1 = mid.1 :=
      congrArg (fun r => (getD r gaugeShows).1) hpre
    have hinactive : ∀ pre ∈ [none, none].inits, ¬ [0] <:+ (gaugeAfter pre).1 := by decide
    rw [← hmid]
    exact hinactive pre ((List.mem_inits _ _).mpr ⟨post, heq.symm⟩)

end Stabl
