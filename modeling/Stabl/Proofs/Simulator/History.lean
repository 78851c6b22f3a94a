import Stabl.Proofs.Simulator.StateCalls

/-!
# `Stabl.Proofs.Simulator.History`: static variables and history states

The two histories of the simulator, read off the calls of a run.

`valueHistory` holds the values of the last exit (`StateRun.valuesStored`). The constructor
prepares the statechart and its direct children only, so `enterState` throws for a static
variable further below, unless its state has been left before (`static_persists_iff`).

`stateHistory` holds the substate that was left last (`StateRun.stateHistory_eq`). A substate
that is left while its state stays active is no trace that a later descent could meet:
before the state is entered again it is left as well (`StateRun.leftBelow`). So the
descent goes on with the substate that was active at the last exit (`descends_into`).
-/

set_option autoImplicit false

namespace Stabl

open Result TreeAddress World CallTrace

/-! ### The last exit -/

/-- The world in which a state was left last. -/
def lastExit (s : StateRef) (calls : List StateCall) : Option World :=
  calls.foldl (fun last c =>
    match c with
    | .exit p w => if p = s then some w else last
    | .enter _ _ | .descend _ _ _ => last) none

theorem lastExit_exit (s p : StateRef) (w : World) (calls : List StateCall) :
    lastExit s (calls ++ [.exit p w]) = if p = s then some w else lastExit s calls := by
  simp [lastExit]

theorem lastExit_other (s : StateRef) (calls : List StateCall) {c : StateCall}
    (hc : ∀ p w, c ≠ .exit p w) : lastExit s (calls ++ [c]) = lastExit s calls := by
  cases c with
  | exit p w => exact absurd rfl (hc p w)
  | enter p w | descend p child w => simp [lastExit]

/-- A state has a last exit when it has been left. -/
theorem lastExit_isSome_iff {s : StateRef} {calls : List StateCall} :
    (lastExit s calls).isSome ↔ ∃ w, .exit s w ∈ calls := by
  induction calls using List.reverseRecOn with
  | nil => simp [lastExit]
  | append_singleton calls c ih =>
      cases c with
      | exit p w =>
          rw [lastExit_exit]
          by_cases hp : p = s
          · subst hp
            rw [if_pos rfl]
            exact ⟨fun _ => ⟨w, by simp⟩, fun _ => rfl⟩
          · rw [if_neg hp, ih]
            simp [Ne.symm hp]
      | enter p w | descend p child w =>
          rw [lastExit_other s calls (by simp), ih]
          simp

/-- The value of a variable at the last exit of its state, or `null`. -/
def lastExitValue (calls : List StateCall) (v : DeclarationRef) : Option Constant :=
  (lastExit v.state calls).bind fun w => w.eState.valueEnvironment v

/-! ### The value history -/

section
variable {root : State Name} {w₀ : World}

/-- The value history of a state with the static variable `d`: after an exit it has the
value of the last one, and before it is the one of the constructor. -/
def ValuesStored (s : StateRef) (d : Declaration) (calls : List StateCall) (w : World) : Prop :=
  match lastExit s calls with
  | some w₁ => ∃ values, w.eState.valueHistory s = some values ∧
      values ⟨s, d.vname⟩ = w₁.eState.valueEnvironment ⟨s, d.vname⟩
  | none => w.eState.valueHistory s = if s.length ≤ 1 then some fun _ => none else none

theorem populate_valueHistory_eq (root : State Name) (e : ExecutionState) (s p : StateRef) :
    (populate root e s).valueHistory p =
      if p = s ∧ (root.declarationsAt s).any (fun d => d.scope ≠ .localScope) then
        some fun _ => none
      else e.valueHistory p := by
  unfold populate
  by_cases hany : (root.declarationsAt s).any (fun d => d.scope ≠ .localScope)
  · rw [if_pos hany]
    by_cases hp : p = s
    · rw [if_pos ⟨hp, hany⟩, hp]
      exact Function.update_self _ _ _
    · rw [if_neg fun h => hp h.1]
      exact Function.update_of_ne hp _ _
  · rw [if_neg hany, if_neg fun h => hany h.2]

/-- The constructor prepares a state with a static variable exactly when it is the
statechart or a direct child. -/
theorem initial_valueHistory (events : List String) (stdin : List (Option Int32)) {s : StateRef}
    {d : Declaration} (hd : d ∈ root.declarationsAt s) (hscope : d.scope = .staticScope) :
    (World.initial root events stdin).eState.valueHistory s =
      if s.length ≤ 1 then some fun _ => none else none := by
  have hany : (root.declarationsAt s).any (fun d => d.scope ≠ .localScope) :=
    List.any_eq_true.mpr ⟨d, hd, by simp [hscope]⟩
  have hfold : ∀ (l : List StateRef) (e : ExecutionState),
      (l.foldl (populate root) e).valueHistory s =
        if s ∈ l then some fun _ => none else e.valueHistory s := by
    intro l
    induction l with
    | nil => exact fun _ => rfl
    | cons p l ih =>
        intro e
        rw [List.foldl_cons, ih, populate_valueHistory_eq]
        by_cases hp : s = p
        · subst hp
          simp only [hany, and_self, if_true, List.mem_cons_self, ite_self]
        · simp only [hp, false_and, if_false, List.mem_cons, false_or]
  have hinit := hfold ([] :: (List.range root.states.length).map fun i => [i])
    ⟨fun _ => none, [], events, fun _ => none, fun _ => none⟩
  have hmem : s ∈ ([] :: (List.range root.states.length).map fun i => [i]) ↔ s.length ≤ 1 := by
    constructor
    · intro h
      rcases List.mem_cons.mp h with rfl | h
      · simp
      · obtain ⟨i, _, hi⟩ := List.mem_map.mp h
        simp [← hi]
    · intro h
      cases s with
      | nil => exact List.mem_cons_self
      | cons i p =>
          obtain rfl : p = [] := by simpa using h
          refine List.mem_cons_of_mem _ (List.mem_map.mpr ⟨i, List.mem_range.mpr ?_, rfl⟩)
          -- The state has a declaration, so it is there.
          obtain ⟨st, hst, _⟩ := State.exists_of_mem_declarationsAt hd
          exact State.lt_length_of_stateAt hst
  refine hinit.trans ?_
  simp only [hmem]

/-- Entering and leaving states keep the value history up to date. -/
theorem StateRun.valuesStored {events : List String} {stdin : List (Option Int32)} {s : StateRef}
    {d : Declaration} (hd : d ∈ root.declarationsAt s) (hscope : d.scope = .staticScope)
    {calls : List StateCall} {w : World}
    (h : StateRun root (World.initial root events stdin) calls w) : ValuesStored s d calls w := by
  refine Run.invariant (I := ValuesStored s d) ?_ ?_ ?_ h
  · exact initial_valueHistory events stdin hd hscope
  · intro calls w₁ w₂ hstored hsame
    unfold ValuesStored at hstored ⊢
    rw [hsame.valueHistory]
    exact hstored
  · intro calls c w₂ _ hstored heffect
    unfold ValuesStored at hstored ⊢
    cases c with
    | enter p w =>
        have heffect : EntersTo root p w w₂ := heffect
        rw [lastExit_other s calls (by simp), heffect.valueHistory]
        exact hstored
    | descend p child w =>
        have heffect : w₂ = w := heffect
        rw [lastExit_other s calls (by simp), heffect]
        exact hstored
    | exit p w =>
        have heffect : w₂ = w.exitState root p := heffect
        rw [lastExit_exit, heffect]
        by_cases hp : p = s
        · subst hp
          rw [if_pos rfl]
          exact exitState_stores root w hd
        · rw [if_neg hp, (exitState_valueHistory root p w).1 s (Ne.symm hp)]
          exact hstored

end

/-- A call of a run is made in a world that the run reaches. -/
theorem callOfRun_run {sc : Statechart} {c : CheckedStatechart} (hc : typecheck sc = .ok c)
    {fuel : Nat} {stdin : List (Option Int32)} {replies : List (Option (List String))}
    {pre post : List StateCall} {call : StateCall}
    (hcall : simulateCalls c.root fuel c.events stdin replies = pre ++ call :: post) :
    StateRun c.root (World.initial c.root c.events stdin) pre call.world := by
  have halong := simulateCalls_along hc fuel stdin replies
  rw [hcall] at halong
  exact halong.split.1

/-- For every call of `enterState` in every run, and every static variable of the entered
state: the call returns with the variable as it was at the last exit, or without a value
when there was none, exactly when the state is the statechart or a direct child of it, or
has been left before. -/
theorem static_persists_iff {sc : Statechart} {c : CheckedStatechart} (hc : typecheck sc = .ok c)
    {fuel : Nat} {stdin : List (Option Int32)} {replies : List (Option (List String))}
    {pre post : List StateCall} {s : StateRef} {w : World}
    (hcall : simulateCalls c.root fuel c.events stdin replies = pre ++ .enter s w :: post)
    {d : Declaration} (hd : d ∈ c.root.declarationsAt s) (hscope : d.scope = .staticScope) :
    (∃ w', w.enterState c.root s = .ok w' ∧
        w'.eState.valueEnvironment ⟨s, d.vname⟩ = lastExitValue pre ⟨s, d.vname⟩) ↔
      s.length ≤ 1 ∨ ∃ w₁, .exit s w₁ ∈ pre := by
  have hstored : ValuesStored s d pre w := (callOfRun_run hc hcall).valuesStored hd hscope
  have hdeclared : DeclaredIn c.root s [.staticScope] ⟨s, d.vname⟩ :=
    ⟨rfl, d, hd, rfl, by simp [hscope]⟩
  -- With a value history the call returns, and the variable has the value in it.
  have hreturns : ∀ values, w.eState.valueHistory s = some values →
      ∃ w', w.enterState c.root s = .ok w' ∧
      w'.eState.valueEnvironment ⟨s, d.vname⟩ = values ⟨s, d.vname⟩ := by
    intro values hvalues
    cases henter : w.enterState c.root s with
    | error e =>
        have ⟨_, _, _, _, hnone⟩ := enterState_throws henter
        rw [hvalues] at hnone
        cases hnone
    | ok w' =>
        have ⟨values', hvalues', hvalue⟩ := enterState_static henter hdeclared
        rw [hvalues, Option.some.injEq] at hvalues'
        exact ⟨w', rfl, hvalues' ▸ hvalue⟩
  unfold ValuesStored at hstored
  rw [← lastExit_isSome_iff, lastExitValue]
  cases hlast : lastExit s pre with
  | some w₁ =>
      rw [hlast] at hstored
      have ⟨values, hvalues, hvalue⟩ := hstored
      have ⟨w', hw', hd'⟩ := hreturns values hvalues
      simp only [Option.bind_some, Option.isSome_some, or_true, iff_true]
      exact ⟨w', hw', hd'.trans hvalue⟩
  | none =>
      rw [hlast] at hstored
      have hstored : w.eState.valueHistory s = if s.length ≤ 1 then some fun _ => none else none :=
        hstored
      simp only [Option.bind_none, Option.isSome_none, Bool.false_eq_true, or_false]
      constructor
      · rintro ⟨w', hw', _⟩
        have ⟨values, hvalues, _⟩ := enterState_static hw' hdeclared
        by_contra hlength
        rw [hstored, if_neg hlength] at hvalues
        cases hvalues
      · intro hlength
        rw [if_pos hlength] at hstored
        exact hreturns _ hstored

/-- The call of a run at an index splits its calls. -/
theorem split_of_any {calls : List StateCall} {k : Nat} {p : StateCall → Bool}
    (h : calls[k]?.any p = true) :
    ∃ c, p c = true ∧ calls = calls.take k ++ c :: calls.drop (k + 1) := by
  rw [Option.any_eq_true] at h
  have ⟨c, hc, hp⟩ := h
  have ⟨hk, hget⟩ := List.getElem?_eq_some_iff.mp hc
  refine ⟨c, hp, ?_⟩
  rw [← hget, List.getElem_cons_drop, List.take_append_drop]

/-- The call enters `s`. -/
def StateCall.enters (s : StateRef) : StateCall → Bool
  | .enter p _ => p == s
  | .exit _ _ | .descend _ _ _ => false

/-- The call goes on from `s` with `child`. -/
def StateCall.descendsFrom (s child : StateRef) : StateCall → Bool
  | .descend p next _ => p == s && next == child
  | .enter _ _ | .exit _ _ => false

theorem exists_enter {s : StateRef} {calls : List StateCall} {k : Nat}
    (h : calls[k]?.any (StateCall.enters s) = true) :
    ∃ w, calls = calls.take k ++ .enter s w :: calls.drop (k + 1) := by
  have ⟨c, hc, heq⟩ := split_of_any h
  cases c with
  | enter p w =>
      have hp : p = s := by simpa [StateCall.enters] using hc
      exact ⟨w, hp ▸ heq⟩
  | exit p w | descend p child w => simp [StateCall.enters] at hc

theorem exists_descend {s child : StateRef} {calls : List StateCall} {k : Nat}
    (h : calls[k]?.any (StateCall.descendsFrom s child) = true) :
    ∃ w, calls = calls.take k ++ .descend s child w :: calls.drop (k + 1) := by
  have ⟨c, hc, heq⟩ := split_of_any h
  cases c with
  | descend p next w =>
      have ⟨hp, hnext⟩ : p = s ∧ next = child := by simpa [StateCall.descendsFrom] using hc
      exact ⟨w, hp ▸ hnext ▸ heq⟩
  | enter p w | exit p w => simp [StateCall.descendsFrom] at hc

/-- `On` has a history and a static variable, which its entry sets. -/
def radio : Statechart where
  root := { plainState "Radio" with
    states := [
      plainState "Off",
      { plainState "On" with
        declarations := ⟨[integerVariable "volume" .staticScope], by decide⟩
        entry := .statementList [.assignmentStatement ["volume"] (.constant (.integerConstant 3))]
        states := [plainState "Fm", plainState "Am"]
        transitions := [{
          name := "next"
          sourceName := ["Radio", "On", "Fm"]
          destinationName := ["Radio", "On", "Am"]
          trigger := "next"
          guard := .constant (.booleanConstant true)
          action := .statementList []
          source := [0, 1]
          destination := [1, 1] }]
        history := true }]
    transitions := [
      { plainTransition "on" "Radio" "Off" "On" 0 1 with trigger := "power" },
      { plainTransition "off" "Radio" "On" "Off" 1 0 with trigger := "power" }] }
  moreTypes := []
  events := ["power", "next"]
  functionDeclarations := []
  initialised := by decide

set_option maxRecDepth 4000 in
theorem radio_accepted : typecheck radio = .ok (accepted radio) :=
  eq_ok_getD (by decide) _

/-- The calls of the radio when it is switched on, tuned, switched off and switched on. -/
def radioCalls : List StateCall :=
  simulateCalls (accepted radio).root 10 (accepted radio).events []
    [none, none, some ["power"], some ["power"]]

set_option maxRecDepth 4000 in
/-- When the radio is switched on again, the volume is what it was. -/
theorem static_persists_iff_radio : ∃ w w', radioCalls = radioCalls.take 13 ++ .enter [1] w ::
      radioCalls.drop 14 ∧ w.enterState (accepted radio).root [1] = .ok w' ∧
      w'.eState.valueEnvironment ⟨[1], "volume"⟩ = some (.integerConstant 3) := by
  have ⟨w, hcall⟩ : ∃ w, radioCalls = radioCalls.take 13 ++ .enter [1] w :: radioCalls.drop 14 :=
    exists_enter (by decide +kernel)
  have ⟨w', hw', hvalue⟩ := (static_persists_iff radio_accepted hcall
    (d := integerVariable "volume" .staticScope) (List.mem_of_getElem? (i := 0) rfl) rfl).mpr
      (Or.inl (by decide))
  have hlast : lastExitValue (radioCalls.take 13) ⟨[1], "volume"⟩ = some (.integerConstant 3) := by
    decide +kernel
  exact ⟨w, w', hcall, hw', hvalue.trans hlast⟩

/-- In every run, entering a state brings its static variables
back. -/
def StaticsPersist (sc : Statechart) : Prop :=
  ∀ c, typecheck sc = .ok c → ∀ fuel stdin replies pre post s w,
    simulateCalls c.root fuel c.events stdin replies = pre ++ .enter s w :: post →
      ∀ d ∈ c.root.declarationsAt s, d.scope = .staticScope →
        ∃ w', w.enterState c.root s = .ok w' ∧
          w'.eState.valueEnvironment ⟨s, d.vname⟩ = lastExitValue pre ⟨s, d.vname⟩

/-- A static variable two levels below the statechart. -/
def nest : Statechart where
  root := { plainState "Nest" with
    states := [{ plainState "Outer" with
      states := [{ plainState "Inner" with
        declarations := ⟨[integerVariable "x" .staticScope], by decide⟩ }] }] }
  moreTypes := []
  events := []
  functionDeclarations := []
  initialised := by decide

/-- The calls of the initial descent. -/
def nestCalls : List StateCall := simulateCalls (accepted nest).root 10 (accepted nest).events [] []

set_option maxRecDepth 4000 in
/-- The initial descent throws when it enters `Inner`. -/
theorem not_staticsPersist_nest : (typecheck nest).isOk = true ∧ ¬ StaticsPersist nest := by
  have haccepted : typecheck nest = .ok (accepted nest) := eq_ok_getD (by decide) _
  refine ⟨by decide, fun h => ?_⟩
  have ⟨w, hcall⟩ : ∃ w, nestCalls = nestCalls.take 4 ++ .enter [0, 0] w :: nestCalls.drop 5 :=
    exists_enter (by decide)
  have hd : integerVariable "x" .staticScope ∈ (accepted nest).root.declarationsAt [0, 0] :=
    List.mem_of_getElem? (i := 0) rfl
  have ⟨w', hw', _⟩ := h _ haccepted _ _ _ _ _ _ _ hcall _ hd rfl
  -- The constructor has not prepared `Inner`, and it has not been left.
  have hstored : ValuesStored [0, 0] _ _ w := (callOfRun_run haccepted hcall).valuesStored hd rfl
  have hnever : lastExit [0, 0] (nestCalls.take 4) = none := by rfl
  rw [ValuesStored, hnever] at hstored
  have hdeclared : DeclaredIn (accepted nest).root [0, 0] [.staticScope] ⟨[0, 0], "x"⟩ :=
    ⟨rfl, _, hd, rfl, by decide⟩
  have ⟨values, hvalues, _⟩ := enterState_static hw' hdeclared
  rw [hstored] at hvalues
  simp at hvalues

/-! ### The state history -/

section
variable {root : State Name} {w₀ : World}

/-- The substate of a state that was left last. -/
def lastLeft (s : StateRef) (calls : List StateCall) : Option StateRef :=
  calls.foldl (fun last c =>
    match c with
    | .exit p _ => if getSuperstate p = some s then some p else last
    | .enter _ _ | .descend _ _ _ => last) none

theorem lastLeft_exit (s p : StateRef) (w : World) (calls : List StateCall) :
    lastLeft s (calls ++ [.exit p w]) =
      if getSuperstate p = some s then some p else lastLeft s calls := by
  simp [lastLeft]

theorem lastLeft_other (s : StateRef) (calls : List StateCall) {c : StateCall}
    (hc : ∀ p w, c ≠ .exit p w) : lastLeft s (calls ++ [c]) = lastLeft s calls := by
  cases c with
  | exit p w => exact absurd rfl (hc p w)
  | enter p w | descend p child w => simp [lastLeft]

/-- Where no substate is left any more, the last one stays. -/
theorem lastLeft_append {s : StateRef} {calls calls' : List StateCall}
    (h : ∀ i w, .exit (i :: s) w ∉ calls') : lastLeft s (calls ++ calls') = lastLeft s calls := by
  induction calls' using List.reverseRecOn with
  | nil => rw [List.append_nil]
  | append_singleton calls' c ih =>
      have ih := ih fun i w hmem => h i w (List.mem_append_left _ hmem)
      rw [← List.append_assoc]
      cases c with
      | exit p w =>
          have hp : ¬ getSuperstate p = some s := by
            intro hp
            cases p with
            | nil => cases hp
            | cons i p =>
                obtain rfl : p = s := by simpa [getSuperstate] using hp
                exact h i w (by simp)
          rw [lastLeft_exit, if_neg hp, ih]
      | enter p w | descend p child w => rw [lastLeft_other s _ (by simp), ih]

/-- `stateHistory` is the substate that was left last. -/
theorem StateRun.stateHistory_eq (hstart : w₀.eState.stateHistory = fun _ => none)
    {calls : List StateCall} {w : World} (h : StateRun root w₀ calls w) :
    ∀ s, w.eState.stateHistory s = lastLeft s calls := by
  refine Run.invariant (I := fun calls w =>
    ∀ s, w.eState.stateHistory s = lastLeft s calls) ?_ ?_ ?_ h
  · exact fun s => congrFun hstart s
  · intro calls w₁ w₂ hleft hsame s
    rw [hsame.stateHistory, hleft]
  · intro calls c w₂ _ hleft heffect s
    cases c with
    | enter p w =>
        have heffect : EntersTo root p w w₂ := heffect
        rw [lastLeft_other s calls (by simp), heffect.stateHistory]
        exact hleft s
    | descend p child w =>
        have heffect : w₂ = w := heffect
        rw [lastLeft_other s calls (by simp), heffect]
        exact hleft s
    | exit p w =>
        have heffect : w₂ = w.exitState root p := heffect
        rw [lastLeft_exit, heffect, (exitState_exitsTo root p w).stateHistory]
        split
        · rfl
        · exact hleft s

/-- A substate of `s` was left, and `s` was not left after it. -/
def LeftBelow (s : StateRef) (calls : List StateCall) : Prop :=
  ∃ pre i w post, calls = pre ++ .exit (i :: s) w :: post ∧ ∀ w, .exit s w ∉ post

/-- One more call, other than an exit of a substate. -/
theorem LeftBelow.of_snoc {s : StateRef} {calls : List StateCall} {c : StateCall}
    (h : LeftBelow s (calls ++ [c])) (hc : ∀ i w, c ≠ .exit (i :: s) w) :
    LeftBelow s calls ∧ ∀ w, c ≠ .exit s w := by
  obtain ⟨pre, i, w, post, heq, hpost⟩ := h
  rcases List.eq_nil_or_concat' post with rfl | ⟨post', last, rfl⟩
  · have ⟨_, hlast⟩ := List.append_inj' heq rfl
    exact absurd (List.cons.inj hlast).1 (hc i w)
  · rw [← List.cons_append, ← List.append_assoc] at heq
    have ⟨hcalls, hlast⟩ := List.append_inj' heq rfl
    have hlast : c = last := (List.cons.inj hlast).1
    refine ⟨⟨pre, i, w, post', hcalls, fun w hw => hpost w (List.mem_append_left _ hw)⟩, ?_⟩
    rintro w rfl
    exact hpost w (by simp [hlast])

/-- As long as a state is not left after one of its substates, it stays active. -/
theorem StateRun.leftBelow {calls : List StateCall} {w : World} (h : StateRun root w₀ calls w) :
    Along (Ordered root) [] calls → ∀ s, LeftBelow s calls → s ∈ w.eState.configuration := by
  refine Run.invariant (I := fun calls w =>
    Along (Ordered root) [] calls → ∀ s, LeftBelow s calls → s ∈ w.eState.configuration) ?_ ?_ ?_ h
  · rintro _ s ⟨pre, i, w, post, heq, _⟩
    simp at heq
  · intro calls w₁ w₂ hactive hsame halong s hleft
    rw [hsame.configuration]
    exact hactive halong s hleft
  · intro calls c w₂ _ hactive heffect halong s hleft
    have ⟨hcalls, hordered, _⟩ := along_append.mp halong
    have hactive := hactive hcalls s
    cases c with
    | enter p w =>
        have heffect : EntersTo root p w w₂ := heffect
        rw [heffect.configuration]
        exact List.mem_append_left _ (hactive (hleft.of_snoc (by simp)).1)
    | descend p child w =>
        have heffect : w₂ = w := heffect
        rw [heffect]
        exact hactive (hleft.of_snoc (by simp)).1
    | exit p w =>
        have heffect : w₂ = w.exitState root p := heffect
        rw [heffect, (exitState_exitsTo root p w).configuration]
        by_cases hp : ∃ i, p = i :: s
        · -- The substate is left now, so the configuration was its chain.
          obtain ⟨i, rfl⟩ := hp
          have hchain : w.eState.configuration = chain (i :: s) := hordered.1
          rw [hchain, erase_chain_cons]
          exact mem_chain.mpr List.suffix_rfl
        · have ⟨hbefore, hne⟩ := hleft.of_snoc fun i w' heq => hp ⟨i, by injection heq⟩
          refine (List.mem_erase_of_ne ?_).mpr (hactive hbefore)
          rintro rfl
          exact hne w rfl

/-- The last exit of a state splits the calls. -/
theorem exists_last_exit {s : StateRef} {calls : List StateCall} (h : ∃ w, .exit s w ∈ calls) :
    ∃ pre w post, calls = pre ++ .exit s w :: post ∧ ∀ w, .exit s w ∉ post := by
  induction calls using List.reverseRecOn with
  | nil => simp at h
  | append_singleton calls c ih =>
      by_cases hc : ∃ w, c = .exit s w
      · obtain ⟨w, rfl⟩ := hc
        exact ⟨calls, w, [], rfl, by simp⟩
      · have ⟨w, hw⟩ := h
        have hbefore : ∃ w, .exit s w ∈ calls := by
          rcases List.mem_append.mp hw with hw | hw
          · exact ⟨w, hw⟩
          · exact absurd ⟨w, (List.mem_singleton.mp hw).symm⟩ hc
        have ⟨pre, w', post, heq, hpost⟩ := ih hbefore
        refine ⟨pre, w', post ++ [c], by simp [heq], fun w hw => ?_⟩
        rcases List.mem_append.mp hw with hw | hw
        · exact hpost w hw
        · exact hc ⟨w, (List.mem_singleton.mp hw).symm⟩

/-- `child` is the substate of `s` that was active when `s` was left last: its exit is the
one right before, and it was in the configuration then. -/
def ActiveAtLastExit (s child : StateRef) (calls : List StateCall) : Prop :=
  ∃ pre w₁ w₂ post, calls = pre ++ .exit child w₁ :: .exit s w₂ :: post ∧ (∀ w, .exit s w ∉ post) ∧
    getSuperstate child = some s ∧ child ∈ w₁.eState.configuration

/-- A state that has just been entered: the substate that was left last is the one that
was active at its last exit, and there is none before that. -/
theorem StateRun.lastLeft_spec {s : StateRef} {calls : List StateCall} {w : World}
    (h : StateRun root w₀ calls w) (halong : Along (Ordered root) [] calls)
    (hinactive : s ∉ w.eState.configuration) (hatomic : ¬ root.isAtomicAt s) :
    ((∃ w₁, .exit s w₁ ∈ calls) → ∃ child, lastLeft s calls = some child ∧
      ActiveAtLastExit s child calls) ∧
      ((∀ w₁, .exit s w₁ ∉ calls) → lastLeft s calls = none) := by
  -- After every exit of a substate there is one of `s`.
  have hnot : ¬ LeftBelow s calls := fun hleft => hinactive (h.leftBelow halong s hleft)
  constructor
  · intro hexit
    obtain ⟨pre, w₂, post, rfl, hpost⟩ := exists_last_exit hexit
    have ⟨_, hordered⟩ : s ∈ chain s ∧ _ := ⟨self_mem_chain s, halong.split⟩
    obtain ⟨b, i, w₁, rfl⟩ := hordered.2.resolve_left hatomic
    have hchild : Ordered root b (.exit (i :: s) w₁) := by
      have hfirst := (along_append.mp halong).1
      exact hfirst.split
    have hpostChild : ∀ j w, .exit (j :: s) w ∉ post := by
      intro j w hmem
      have ⟨post₁, post₂, heq⟩ := List.append_of_mem hmem
      refine hnot
        ⟨b ++ [.exit (i :: s) w₁] ++ .exit s w₂ :: post₁, j, w, post₂,
          by simp [heq], fun w hw => ?_⟩
      exact hpost w (by simp [heq, hw])
    have hlast : lastLeft s (b ++ [.exit (i :: s) w₁]) = some (i :: s) := by
      rw [lastLeft_exit, if_pos (by simp [getSuperstate])]
    refine ⟨i :: s, ?_, b, w₁, w₂, post, by simp, hpost, by simp [getSuperstate], ?_⟩
    · rw [lastLeft_append, hlast]
      intro j w hmem
      rcases List.mem_cons.mp hmem with heq | hmem
      · have heq : j :: s = s := by injection heq
        simp at heq
      · exact hpostChild j w hmem
    · rw [hchild.1]
      exact self_mem_chain _
  · intro hexit
    have hnone : ∀ i w, .exit (i :: s) w ∉ calls := by
      intro i w hmem
      have ⟨pre, post, heq⟩ := List.append_of_mem hmem
      exact hnot ⟨pre, i, w, post, heq, fun w hw => hexit w (by simp [heq, hw])⟩
    have happend : lastLeft s ([] ++ calls) = lastLeft s [] := lastLeft_append hnone
    rw [List.nil_append] at happend
    exact happend

end

/-- Whenever `get_atomic_state` goes on below a state `s`: if `s` is marked HISTORY and has
been left before, it goes on with the substate that was active when `s` was left last, and
otherwise with the first one. -/
theorem descends_into {sc : Statechart} {c : CheckedStatechart} (hc : typecheck sc = .ok c)
    (hstatics : StaticsAtTop c.root) {fuel : Nat} {stdin : List (Option Int32)}
    {replies : List (Option (List String))} {pre post : List StateCall} {s child : StateRef}
    {w : World}
    (hcall : simulateCalls c.root fuel c.events stdin replies = pre ++ .descend s child w :: post) :
    (c.root.maintainsHistoryAt s ∧ (∃ w₁, .exit s w₁ ∈ pre) → ActiveAtLastExit s child pre) ∧
      (¬ (c.root.maintainsHistoryAt s ∧ ∃ w₁, .exit s w₁ ∈ pre) → child = 0 :: s) := by
  have halong := simulateCalls_along hc fuel stdin replies
  rw [hcall] at halong
  have ⟨hrun, hordered⟩ := halong.split
  have ⟨_, hatomic, hchild, b, w₁, hpre⟩ := hordered hstatics
  have hpre : pre = b ++ [.enter s w₁] := hpre
  subst hpre
  -- The world in which `s` was entered, right before the descent.
  have henter : CallOfRun c.root (World.initial c.root c.events stdin) b (.enter s w₁) := by
    have hfirst := (along_append.mp halong).1
    exact hfirst.split
  have hbefore : Along (Ordered c.root) [] b := by
    have hfirst := (along_append.mp (along_append.mp halong).1).1
    exact hfirst.mono fun _ _ hcallOfRun => hcallOfRun.2 hstatics
  have hconf : w₁.eState.configuration = getAllSuperstates s := henter.2 hstatics
  have hinactive : s ∉ w₁.eState.configuration := by
    rw [hconf, mem_getAllSuperstates]
    exact fun hs => hs.2 rfl
  have ⟨hexited, hnever⟩ := StateRun.lastLeft_spec henter.1 hbefore hinactive hatomic
  have hhistory : w.eState.stateHistory s = lastLeft s b := by
    have hrun : StateRun c.root (World.initial c.root c.events stdin) (b ++ [.enter s w₁]) w := hrun
    rw [hrun.stateHistory_eq (initial_histories c.root c.events stdin).2 s]
    exact lastLeft_other s b (by simp)
  have hmem : (∃ w', .exit s w' ∈ b ++ [.enter s w₁]) ↔ ∃ w', .exit s w' ∈ b := by simp
  rw [hmem, hchild, nextSubstate]
  constructor
  · rintro ⟨hmark, hexit⟩
    obtain ⟨last, hlast, pre, w₂, w₃, post, heq, hpost, hrest⟩ := hexited hexit
    rw [if_pos hmark, getHistoryState, hhistory, hlast]
    exact ⟨pre, w₂, w₃, post ++ [.enter s w₁], by simp [heq], by simpa using hpost, hrest⟩
  · intro hnot
    by_cases hmark : c.root.maintainsHistoryAt s = true
    · have hnever := hnever fun w' hw' => hnot ⟨hmark, w', hw'⟩
      rw [if_pos hmark, getHistoryState, hhistory, hnever]
    · rw [if_neg hmark]

set_option maxRecDepth 4000 in
/-- When the radio is switched on again, `On` goes on with `Am`. -/
theorem descends_into_radio : ∃ w, radioCalls = radioCalls.take 14 ++ .descend [1] [1, 1] w ::
      radioCalls.drop 15 ∧ ActiveAtLastExit [1] [1, 1] (radioCalls.take 14) := by
  have ⟨w, hcall⟩ : ∃ w,
      radioCalls = radioCalls.take 14 ++ .descend [1] [1, 1] w :: radioCalls.drop 15 :=
    exists_descend (by decide +kernel)
  have hexit : ∃ w₁, .exit [1] w₁ ∈ radioCalls.take 14 := by
    have hlast : (lastExit [1] (radioCalls.take 14)).isSome = true := by decide +kernel
    exact lastExit_isSome_iff.mp hlast
  have hactive := (descends_into radio_accepted (by decide) hcall).1 ⟨by decide, hexit⟩
  exact ⟨w, hcall, hactive⟩

end Stabl
