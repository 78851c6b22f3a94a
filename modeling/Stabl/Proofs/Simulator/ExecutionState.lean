import Stabl.Lib.EnterExit
import Stabl.Lib.Result
import Stabl.Simulator.ExecutionState

/-!
# `Stabl.Proofs.Simulator.ExecutionState`: entering and leaving a state

What `enterState` and `exitState` do, said once. `EntersTo` and `ExitsTo` list every
field of the world: the configuration, the queue, the histories, the log, and the
variables that keep their values. The values that the two methods themselves decide
follow separately (`enterState_local`, `enterState_static`, `exitState_local`).

`Prepared` is the condition under which no `enterState` throws, and `Tracked` ties the
configuration to the logged entries and exits.
-/

set_option autoImplicit false

namespace Stabl

open Result EnterExit

variable {ν : Type} (root : State ν)

/-- `v` is a variable of the state `s` with one of the given scopes. -/
def DeclaredIn (s : StateRef) (scopes : List ScopeName) (v : DeclarationRef) : Prop :=
  v.state = s ∧ ∃ d ∈ root.declarationsAt s, d.vname = v.vname ∧ d.scope ∈ scopes

/-- Static variables are declared in the statechart and its direct children only, the
states that the constructor of `ExecutionState` prepares. -/
def StaticsAtTop : Prop :=
  ∀ s, (∃ d ∈ root.declarationsAt s, d.scope = .staticScope) → s.length ≤ 1

namespace World

/-! ### `enterState` -/

/-- What `enterState s` does, whether it returns or throws. -/
structure EntersTo (s : StateRef) (w w' : World) : Prop where
  configuration : w'.eState.configuration = w.eState.configuration ++ [s]
  eventQueue : w'.eState.eventQueue = w.eState.eventQueue
  stateHistory : w'.eState.stateHistory = w.eState.stateHistory
  valueHistory : w'.eState.valueHistory = w.eState.valueHistory
  stdin : w'.stdin = w.stdin
  log : w'.log = w.log ++ [.enterState s]
  frame : ∀ v, ¬ DeclaredIn root s [.localScope, .staticScope] v →
    w'.eState.valueEnvironment v = w.eState.valueEnvironment v

variable {root}

/-- One declaration keeps what `EntersTo` says. -/
theorem EntersTo.enterDeclaration {s : StateRef} {w b b' : World} {d : Declaration}
    (hd : d ∈ root.declarationsAt s) (h : EntersTo root s w b)
    (hb : World.enterDeclaration s b d = .ok b') : EntersTo root s w b' := by
  -- In both writing branches the variable written is one that entering initialises.
  have hput : d.scope ∈ [ScopeName.localScope, .staticScope] → ∀ x,
      EntersTo root s w (b.put ⟨s, d.vname⟩ x) := by
    intro hscope x
    refine ⟨h.configuration, h.eventQueue, h.stateHistory, h.valueHistory, h.stdin, h.log, ?_⟩
    intro v hv
    have hne : v ≠ ⟨s, d.vname⟩ := by
      rintro rfl
      exact hv ⟨rfl, d, hd, rfl, hscope⟩
    rw [put_valueEnvironment, Function.update_of_ne hne]
    exact h.frame v hv
  unfold World.enterDeclaration at hb
  cases hscope : d.scope with
  | localScope =>
      simp only [hscope, Except.ok.injEq] at hb
      exact hb ▸ hput (by simp [hscope]) none
  | staticScope =>
      simp only [hscope] at hb
      split at hb
      · rw [Except.ok.injEq] at hb
        exact hb ▸ hput (by simp [hscope]) _
      · simp at hb
  | parameterScope =>
      simp only [hscope, Except.ok.injEq] at hb
      exact hb ▸ h

/-- The world in which the loop of `enterState` begins. -/
theorem EntersTo.start (s : StateRef) (w : World) :
    EntersTo root s w { w.record (.enterState s) with eState := { w.eState with
      configuration := w.eState.configuration ++ [s] } } :=
  ⟨rfl, rfl, rfl, rfl, rfl, rfl, fun _ _ => rfl⟩

/-- `enterState` that returns. -/
theorem enterState_entersTo {s : StateRef} {w w' : World}
    (h : w.enterState root s = .ok w') : EntersTo root s w w' := by
  unfold enterState at h
  exact foldlM_preserves (P := EntersTo root s w) (fun d hd b b' hb => hb.enterDeclaration hd)
    (.start s w) h

/-- `enterState` that throws: at a static variable of a state without a value history. -/
theorem enterState_throws {s : StateRef} {w : World} {e : Stop}
    (h : w.enterState root s = .error e) : ∃ w', e = .exception w' ∧ EntersTo root s w w' ∧
      (∃ d ∈ root.declarationsAt s, d.scope = .staticScope) ∧
        w.eState.valueHistory s = none := by
  unfold enterState at h
  obtain ⟨d, hd, b, hb, hfail⟩ := foldlM_fails_at (P := EntersTo root s w)
    (fun d hd b b' hb => hb.enterDeclaration hd) (.start s w) h
  unfold enterDeclaration at hfail
  cases hscope : d.scope with
  | localScope => simp [hscope] at hfail
  | staticScope =>
      simp only [hscope] at hfail
      split at hfail
      · simp at hfail
      · rename_i hnone
        rw [Except.error.injEq] at hfail
        exact ⟨b, hfail.symm, hb, ⟨d, hd, hscope⟩, hb.valueHistory ▸ hnone⟩
  | parameterScope => simp [hscope] at hfail

/-- A declaration gives a value to its own variable at most. -/
theorem enterDeclaration_eq_ok {s : StateRef} {w w' : World} {d : Declaration}
    (h : enterDeclaration s w d = .ok w') :
    (∀ v, v.vname ≠ d.vname → w'.eState.valueEnvironment v = w.eState.valueEnvironment v) ∧
      w'.eState.valueHistory = w.eState.valueHistory ∧
      (d.scope = .localScope → w'.eState.valueEnvironment ⟨s, d.vname⟩ = none) ∧
      (d.scope = .staticScope → ∃ values, w.eState.valueHistory s = some values ∧
        w'.eState.valueEnvironment ⟨s, d.vname⟩ = values ⟨s, d.vname⟩) := by
  have hother : ∀ {value : Option Constant} (v : DeclarationRef), v.vname ≠ d.vname →
      (w.put ⟨s, d.vname⟩ value).eState.valueEnvironment v = w.eState.valueEnvironment v := by
    intro value v hv
    rw [put_valueEnvironment, Function.update_of_ne]
    rintro rfl
    exact hv rfl
  unfold enterDeclaration at h
  cases hscope : d.scope with
  | localScope =>
      simp only [hscope, Except.ok.injEq] at h
      subst h
      exact ⟨hother, rfl, fun _ => by simp, fun hstatic => nomatch hstatic⟩
  | staticScope =>
      simp only [hscope] at h
      split at h
      · rename_i values hsome
        rw [Except.ok.injEq] at h
        subst h
        exact ⟨hother, rfl, fun hlocal => (nomatch hlocal), fun _ => ⟨values, hsome, by simp⟩⟩
      · cases h
  | parameterScope =>
      simp only [hscope, Except.ok.injEq] at h
      subst h
      exact ⟨fun _ _ => rfl, rfl, fun hlocal => (nomatch hlocal), fun hstatic => nomatch hstatic⟩

/-- The values that the loop of `enterState` gives to the variables of `ds`. -/
theorem foldlM_enterDeclaration {s : StateRef} {ds : List Declaration}
    (hnodup : (ds.map Declaration.vname).Nodup) {w w' : World}
    (h : ds.foldlM (enterDeclaration s) w = .ok w') :
    (∀ v, v.vname ∉ ds.map Declaration.vname →
        w'.eState.valueEnvironment v = w.eState.valueEnvironment v) ∧
      w'.eState.valueHistory = w.eState.valueHistory ∧
        ∀ d ∈ ds, (d.scope = .localScope → w'.eState.valueEnvironment ⟨s, d.vname⟩ = none) ∧
          (d.scope = .staticScope → ∃ values, w.eState.valueHistory s = some values ∧
            w'.eState.valueEnvironment ⟨s, d.vname⟩ = values ⟨s, d.vname⟩) := by
  induction ds generalizing w with
  | nil =>
      rw [List.foldlM_nil, pure_eq_ok] at h
      subst h
      simp
  | cons d ds ih =>
      obtain ⟨hd, hnodup⟩ := List.nodup_cons.mp hnodup
      obtain ⟨w₁, h₁, hrest⟩ := bind_eq_ok.mp h
      obtain ⟨hframe, hvh, hvalues⟩ := ih hnodup hrest
      have ⟨hother, hvh₁, hlocal, hstatic⟩ := enterDeclaration_eq_ok h₁
      refine ⟨fun v hv => ?_, hvh.trans hvh₁, fun d' hd' => ?_⟩
      · rw [List.map_cons, List.mem_cons, not_or] at hv
        exact (hframe v hv.2).trans (hother v hv.1)
      · rcases List.mem_cons.mp hd' with rfl | hd'
        · -- The names differ, so the rest of the loop leaves the value of `d'` as it is.
          refine ⟨fun hscope => (hframe _ hd).trans (hlocal hscope), fun hscope => ?_⟩
          have ⟨values, hsome, hvalue⟩ := hstatic hscope
          exact ⟨values, hsome, (hframe _ hd).trans hvalue⟩
        · rw [← hvh₁]
          exact hvalues d' hd'

/-- A local variable starts without a value. -/
theorem enterState_local {s : StateRef} {w w' : World} (h : w.enterState root s = .ok w')
    {v : DeclarationRef} (hv : DeclaredIn root s [.localScope] v) :
    w'.eState.valueEnvironment v = none := by
  obtain ⟨rfl, d, hd, hname, hscope⟩ := hv
  have hvalues := (foldlM_enterDeclaration (State.nodup_declarationsAt root v.state) h).2.2 d hd
  rw [List.mem_singleton] at hscope
  simpa [hname] using hvalues.1 hscope

/-- A static variable starts with the value of the last exit. -/
theorem enterState_static {s : StateRef} {w w' : World} (h : w.enterState root s = .ok w')
    {v : DeclarationRef} (hv : DeclaredIn root s [.staticScope] v) :
    ∃ values, w.eState.valueHistory s = some values ∧
      w'.eState.valueEnvironment v = values v := by
  obtain ⟨rfl, d, hd, hname, hscope⟩ := hv
  have hvalues := (foldlM_enterDeclaration (State.nodup_declarationsAt root v.state) h).2.2 d hd
  rw [List.mem_singleton] at hscope
  simpa [hname] using hvalues.2 hscope

/-! ### `exitState` -/

/-- What `exitState s` does. -/
structure ExitsTo (root : State ν) (s : StateRef) (w w' : World) : Prop where
  configuration : w'.eState.configuration = w.eState.configuration.erase s
  eventQueue : w'.eState.eventQueue = w.eState.eventQueue
  stateHistory : ∀ p, w'.eState.stateHistory p =
    if getSuperstate s = some p then some s else w.eState.stateHistory p
  valueHistory : ∀ p, w.eState.valueHistory p ≠ none → w'.eState.valueHistory p ≠ none
  stdin : w'.stdin = w.stdin
  log : w'.log = w.log ++ [.exitState s]
  frame : ∀ v, ¬ DeclaredIn root s [.localScope] v →
    w'.eState.valueEnvironment v = w.eState.valueEnvironment v

/-- One declaration keeps what `ExitsTo` says. -/
theorem ExitsTo.exitDeclaration {s : StateRef} {w : World}
    {acc : (DeclarationRef → Option Constant) × World} {d : Declaration}
    (hd : d ∈ root.declarationsAt s) (h : ExitsTo root s w acc.2) :
    ExitsTo root s w (World.exitDeclaration s acc d).2 := by
  have hvalues : ∀ p, w.eState.valueHistory p ≠ none →
      (World.exitDeclaration s acc d).2.eState.valueHistory p ≠ none := by
    intro p hp
    have hacc := h.valueHistory p hp
    unfold World.exitDeclaration
    by_cases hps : p = s
    · subst hps
      by_cases hlocal : d.scope = .localScope <;> simp [hlocal]
    · by_cases hlocal : d.scope = .localScope <;> simpa [hlocal, hps] using hacc
  unfold World.exitDeclaration at hvalues ⊢
  by_cases hlocal : d.scope = .localScope
  · simp only [hlocal, if_true] at hvalues ⊢
    refine ⟨h.configuration, h.eventQueue, h.stateHistory, hvalues, h.stdin, h.log, ?_⟩
    intro v hv
    have hne : v ≠ ⟨s, d.vname⟩ := by
      rintro rfl
      exact hv ⟨rfl, d, hd, rfl, by simp [hlocal]⟩
    rw [put_valueEnvironment, Function.update_of_ne hne]
    exact h.frame v hv
  · simp only [hlocal, if_false] at hvalues ⊢
    exact ⟨h.configuration, h.eventQueue, h.stateHistory, hvalues, h.stdin, h.log, h.frame⟩

theorem exitState_exitsTo (root : State ν) (s : StateRef) (w : World) :
    ExitsTo root s w (w.exitState root s) := by
  unfold exitState
  refine List.foldlRecOn (root.declarationsAt s) (World.exitDeclaration s)
    (motive := fun acc => ExitsTo root s w acc.2) ?_ ?_
  · -- The world in which the loop begins.
    cases hsuper : getSuperstate s with
    | none =>
        refine ⟨rfl, rfl, ?_, fun _ h => h, rfl, rfl, fun _ _ => rfl⟩
        intro p
        simp [hsuper]
    | some q =>
        refine ⟨rfl, rfl, ?_, fun _ h => h, rfl, rfl, fun _ _ => rfl⟩
        intro p
        by_cases hpq : q = p
        · subst hpq
          simp [hsuper]
        · simp [hsuper, hpq, Ne.symm hpq]
  · exact fun acc hacc d hd => hacc.exitDeclaration hd

/-- The loop of `exitState` removes the values of the local variables of `ds`. -/
theorem foldl_exitDeclaration_local {s : StateRef} {ds : List Declaration}
    (acc : (DeclarationRef → Option Constant) × World) {v : DeclarationRef} (hv : v.state = s)
    (h : (∃ d ∈ ds, d.vname = v.vname ∧ d.scope = .localScope) ∨
      acc.2.eState.valueEnvironment v = none) :
    (ds.foldl (exitDeclaration s) acc).2.eState.valueEnvironment v = none := by
  induction ds generalizing acc with
  | nil => simpa using h
  | cons d ds ih =>
      refine ih _ ?_
      rcases h with ⟨d', hd', hname, hlocal⟩ | h
      · rcases List.mem_cons.mp hd' with rfl | hd'
        · right
          have hv' : (⟨s, d'.vname⟩ : DeclarationRef) = v := by
            rw [← hv, hname]
          simp [exitDeclaration, hlocal, hv']
        · exact Or.inl ⟨d', hd', hname, hlocal⟩
      · right
        by_cases hlocal : d.scope = .localScope
        · by_cases hvd : v = ⟨s, d.vname⟩
          · simp [exitDeclaration, hlocal, hvd]
          · simp [exitDeclaration, hlocal, Function.update_of_ne hvd, h]
        · simpa [exitDeclaration, hlocal] using h

/-- A local variable has no value after the exit. -/
theorem exitState_local {s : StateRef} (w : World) {v : DeclarationRef}
    (hv : DeclaredIn root s [.localScope] v) :
    (w.exitState root s).eState.valueEnvironment v = none := by
  obtain ⟨hs, d, hd, hname, hscope⟩ := hv
  exact foldl_exitDeclaration_local _ hs (Or.inl ⟨d, hd, hname, List.mem_singleton.mp hscope⟩)

/-- `exitState s` touches no value history but that of `s`, which it makes for a state
with variables. -/
theorem exitState_valueHistory (root : State ν) (s : StateRef) (w : World) :
    (∀ p, p ≠ s → (w.exitState root s).eState.valueHistory p = w.eState.valueHistory p) ∧
      (root.declarationsAt s ≠ [] → (w.exitState root s).eState.valueHistory s ≠ none) := by
  have hloop : ∀ (ds : List Declaration) (acc : (DeclarationRef → Option Constant) × World),
      (∀ p, p ≠ s → (ds.foldl (exitDeclaration s) acc).2.eState.valueHistory p =
        acc.2.eState.valueHistory p) ∧
      (ds ≠ [] ∨ acc.2.eState.valueHistory s ≠ none →
        (ds.foldl (exitDeclaration s) acc).2.eState.valueHistory s ≠ none) := by
    intro ds
    induction ds with
    | nil => exact fun acc => ⟨fun _ _ => rfl, fun h => h.resolve_left (by simp)⟩
    | cons d ds ih =>
        intro acc
        have hstep : (∀ p, p ≠ s → (exitDeclaration s acc d).2.eState.valueHistory p =
            acc.2.eState.valueHistory p) ∧
            (exitDeclaration s acc d).2.eState.valueHistory s ≠ none := by
          unfold exitDeclaration
          by_cases hlocal : d.scope = .localScope
          · exact ⟨fun p hp => by simp [hlocal, hp], by simp [hlocal]⟩
          · exact ⟨fun p hp => by simp [hlocal, hp], by simp [hlocal]⟩
        have hrest := ih (exitDeclaration s acc d)
        exact ⟨fun p hp => (hrest.1 p hp).trans (hstep.1 p hp), fun _ => hrest.2 (Or.inr hstep.2)⟩
  -- Leaving a state records it with its superstate first, which no value history shows.
  unfold exitState
  have hstart := hloop (root.declarationsAt s)
  constructor
  · intro p hp
    refine ((hstart _).1 p hp).trans ?_
    cases getSuperstate s <;> rfl
  · exact fun hne => (hstart _).2 (Or.inl hne)

/-- The loop of `exitState` stores the values of the variables of `ds`. -/
theorem foldl_exitDeclaration_values {s : StateRef} {ds : List Declaration}
    (hnodup : (ds.map Declaration.vname).Nodup)
    (acc : (DeclarationRef → Option Constant) × World)
    (hacc : ds ≠ [] ∨ acc.2.eState.valueHistory s = some acc.1) :
    ∃ values, (ds.foldl (exitDeclaration s) acc).2.eState.valueHistory s = some values ∧
      (∀ v, v.vname ∉ ds.map Declaration.vname → values v = acc.1 v) ∧
        ∀ d ∈ ds, values ⟨s, d.vname⟩ = acc.2.eState.valueEnvironment ⟨s, d.vname⟩ := by
  induction ds generalizing acc with
  | nil => exact ⟨acc.1, hacc.resolve_left (by simp), fun _ _ => rfl, by simp⟩
  | cons d ds ih =>
      have ⟨hd, hnodup⟩ := List.nodup_cons.mp hnodup
      let ref : DeclarationRef := ⟨s, d.vname⟩
      -- The step stores the value of `d`, and changes no variable but `d`.
      have hstore : (exitDeclaration s acc d).2.eState.valueHistory s =
        some (exitDeclaration s acc d).1 := by
        unfold exitDeclaration
        by_cases hlocal : d.scope = .localScope
        · simp [hlocal]
        · simp [hlocal]
      have hframe : ∀ v, v ≠ ref →
          (exitDeclaration s acc d).2.eState.valueEnvironment v =
            acc.2.eState.valueEnvironment v := by
        intro v hv
        unfold exitDeclaration
        by_cases hlocal : d.scope = .localScope
        · simp only [hlocal, if_true, put_valueEnvironment]
          exact Function.update_of_ne hv _ _
        · simp [hlocal]
      have ⟨values, hvalues, hother, hds⟩ := ih hnodup (exitDeclaration s acc d) (Or.inr hstore)
      refine ⟨values, hvalues, fun v hv => ?_, fun d' hd' => ?_⟩
      · rw [List.map_cons, List.mem_cons, not_or] at hv
        have hne : v ≠ ref := by
          rintro rfl
          exact hv.1 rfl
        rw [hother v hv.2]
        exact Function.update_of_ne hne _ _
      · rcases List.mem_cons.mp hd' with rfl | hd'
        · rw [hother ⟨s, d'.vname⟩ hd]
          exact Function.update_self _ _ _
        · rw [hds d' hd']
          refine hframe _ fun heq => hd ?_
          have hname : d'.vname = d.vname := congrArg DeclarationRef.vname heq
          exact hname ▸ List.mem_map_of_mem hd'

/-- `exitState` stores the values of the variables that the state declares. -/
theorem exitState_stores (root : State ν) {s : StateRef} (w : World) {d : Declaration}
    (hd : d ∈ root.declarationsAt s) : ∃ values,
      (w.exitState root s).eState.valueHistory s = some values ∧
        values ⟨s, d.vname⟩ = w.eState.valueEnvironment ⟨s, d.vname⟩ := by
  have hne : root.declarationsAt s ≠ [] := List.ne_nil_of_mem hd
  have hloop : ∀ acc : (DeclarationRef → Option Constant) × World,
      acc.2.eState.valueEnvironment = w.eState.valueEnvironment →
      ∃ values, ((root.declarationsAt s).foldl (exitDeclaration s) acc).2.eState.valueHistory s =
          some values ∧ values ⟨s, d.vname⟩ = w.eState.valueEnvironment ⟨s, d.vname⟩ := by
    intro acc hacc
    have ⟨values, hvalues, _, hds⟩ :=
      foldl_exitDeclaration_values (s := s) (State.nodup_declarationsAt root s) acc (Or.inl hne)
    exact ⟨values, hvalues, (hds d hd).trans (congrFun hacc _)⟩
  unfold exitState
  refine hloop _ ?_
  cases getSuperstate s <;> rfl

/-! ### Preparation -/

/-- Every state with a static variable has a value history, so that no `enterState`
throws. -/
def Prepared (root : State ν) (w : World) : Prop :=
  ∀ s, (∃ d ∈ root.declarationsAt s, d.scope = .staticScope) →
    w.eState.valueHistory s ≠ none

theorem Prepared.enterState {w : World} (h : w.Prepared root) (s : StateRef) :
    ∃ w', w.enterState root s = .ok w' := by
  cases hw : w.enterState root s with
  | ok w' => exact ⟨w', rfl⟩
  | error e =>
      obtain ⟨_, _, _, hstatic, hnone⟩ := enterState_throws hw
      exact absurd hnone (h s hstatic)

theorem Prepared.of_valueHistory {w w' : World} (h : w.Prepared root)
    (heq : w'.eState.valueHistory = w.eState.valueHistory) : w'.Prepared root := by
  intro s hs
  rw [heq]
  exact h s hs

theorem Prepared.exitState {w : World} (h : w.Prepared root) (s : StateRef) :
    (w.exitState root s).Prepared root :=
  fun p hp => (exitState_exitsTo root s w).valueHistory p (h p hp)

/-! ### The configuration and the log -/

end World

/-- The entries and exits of a log. -/
def marks (log : List Event) : List (Mark StateRef) :=
  log.filterMap fun e =>
    match e with
    | .enterState s => some (.enter s)
    | .exitState s => some (.exit s)
    | _ => none

@[simp] theorem marks_append (log log' : List Event) :
    marks (log ++ log') = marks log ++ marks log' := by
  simp [marks]

@[simp] theorem marks_access
    (trace : List (AccessTrace.Access DeclarationRef (Option Constant))) :
    marks (trace.map Event.access) = [] := by
  simp [marks]

namespace World

/-- The configuration is what the logged entries and exits lead to, and no state has
been entered while it was in the configuration. -/
structure Tracked (w : World) : Prop where
  replay : w.eState.configuration = replay [] (marks w.log)
  alternates : Alternates (marks w.log)

/-- Nothing is entered or left. -/
theorem Tracked.of_marks {w w' : World} (h : w.Tracked)
    (hconf : w'.eState.configuration = w.eState.configuration) {es : List Event}
    (hlog : w'.log = w.log ++ es) (hes : marks es = []) : w'.Tracked := by
  have hmarks : marks w'.log = marks w.log := by
    rw [hlog, marks_append, hes, List.append_nil]
  exact ⟨by rw [hconf, hmarks, h.replay], hmarks ▸ h.alternates⟩

/-- A state is entered that is not in the configuration. -/
theorem Tracked.enter {w w' : World} (h : w.Tracked) {s : StateRef}
    (hs : s ∉ w.eState.configuration) (hw : EntersTo root s w w') : w'.Tracked := by
  have hmarks : marks w'.log = marks w.log ++ [.enter s] := by
    rw [hw.log, marks_append]
    rfl
  have hreplay : s ∉ EnterExit.replay [] (marks w.log) := h.replay ▸ hs
  refine ⟨?_, ?_⟩
  · rw [hw.configuration, hmarks, replay_append, ← h.replay]
    simp [mark, hs]
  · rw [hmarks]
    refine h.alternates.snoc ?_
    intro a ha
    obtain rfl : s = a := by simpa using ha
    exact hreplay

/-- A state is left. -/
theorem Tracked.exit {w w' : World} (h : w.Tracked) {s : StateRef}
    (hw : ExitsTo root s w w') : w'.Tracked := by
  have hmarks : marks w'.log = marks w.log ++ [.exit s] := by
    rw [hw.log, marks_append]
    rfl
  refine ⟨?_, ?_⟩
  · rw [hw.configuration, hmarks, replay_append, ← h.replay, replay_cons, replay_nil, mark]
    congr
    exact lawful_beq_subsingleton _ _
  · rw [hmarks]
    exact h.alternates.snoc (by simp)

end World

end Stabl
