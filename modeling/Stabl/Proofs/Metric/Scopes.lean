import Stabl.Metric.Metric
import Stabl.Proofs.Frontend.FullNames

/-!
# `Stabl.Proofs.Metric.Scopes`: what the scope metrics count

A visit of the tree is a loop over the positions of the tree (`State.visit_eq`). So
`getNumberOfStates` counts the positions of a subtree, `allTransitions` collects the transitions
placed there, and `Wscope` and `Rscope` are puts of one entry for each variable
(`putScopes_eq`). In an accepted statechart the full names are distinct keys, so no entry is lost
(`scopeOf_puts`), and the metrics are what they should be just when they are so state by state.
-/

set_option autoImplicit false

namespace Stabl

open Puts

variable {ν : Type}

/-! ### Visits -/

/-- What a visit does at one position of the tree. -/
def visitAt {β : Type} (root : State ν) (f : StateRef → State ν → β → β) (b : β) (q : StateRef) :
    β :=
  match root.stateAt q with
  | some s => f q s b
  | none => b

theorem visitAt_some {β : Type} {root s : State ν} {f : StateRef → State ν → β → β} {b : β}
    {q : StateRef} (hs : root.stateAt q = some s) : visitAt root f b q = f q s b := by
  rw [visitAt, hs]

section
variable {β : Type} {root : State ν} {f : StateRef → State ν → β → β}

mutual

/-- A visit of a state is a loop over the positions below it. -/
theorem State.visit_eq : ∀ (s : State ν) {p : StateRef} (b : β), root.stateAt p = some s →
    s.visit f p b = (s.positions p).foldl (visitAt root f) b
  | ⟨name, declarations, entry, exit, states, transitions, history, region, shell, fin⟩, p, b,
      hs => by
      rw [State.visit, State.positions, List.foldl_cons, visitAt_some hs]
      exact statesVisit_eq states _ (State.stateAt_substates hs)

theorem statesVisit_eq : ∀ (ss : List (State ν)) {p : StateRef} {i : Nat} (b : β),
    (∀ j, root.stateAt ((i + j) :: p) = ss[j]?) →
    statesVisit f p i ss b = (statesPositions p i ss).foldl (visitAt root f) b
  | [], p, i, b, _ => by
      rw [statesVisit, statesPositions]
      rfl
  | s :: ss, p, i, b, hss => by
      have hs : root.stateAt (i :: p) = some s := hss 0
      rw [statesVisit, statesPositions, List.foldl_append, ← State.visit_eq s b hs]
      exact statesVisit_eq ss _ (State.stateAt_tail hss)

end

/-- A loop over the substates with their indices visits them all. -/
theorem zipIdx_foldl_visit (ss : List (State ν)) {p : StateRef} :
    ∀ (i : Nat) (b : β), (ss.zipIdx i).foldl (fun b (s, j) => s.visit f (j :: p) b) b =
      statesVisit f p i ss b := by
  induction ss with
  | nil =>
      intro i b
      rw [statesVisit]
      rfl
  | cons s ss ih =>
      intro i b
      rw [statesVisit, List.zipIdx_cons, List.foldl_cons, ih]

end

namespace Metric

variable {root : State ν}

/-! ### Numbers of states -/

mutual

theorem getNumberOfStates_eq : ∀ (s : State ν) (p : StateRef),
    getNumberOfStates s = (s.positions p).length
  | ⟨_, _, _, _, states, _, _, _, _, _⟩, p => by
      rw [getNumberOfStates, State.positions, addNumbersOfStates_eq states 1 p 0,
        List.length_cons, Nat.add_comm]

theorem addNumbersOfStates_eq : ∀ (ss : List (State ν)) (n : Nat) (p : StateRef) (i : Nat),
    addNumbersOfStates n ss = n + (statesPositions p i ss).length
  | [], n, p, i => by
      rw [addNumbersOfStates, statesPositions]
      rfl
  | s :: ss, n, p, i => by
      rw [addNumbersOfStates, statesPositions, addNumbersOfStates_eq ss _ p (i + 1),
        getNumberOfStates_eq s (i :: p), List.length_append, Nat.add_assoc]

end

/-- The states of the subtree of a state. -/
def subtree (root : State ν) (p : StateRef) : Finset StateRef :=
  (root.positions []).toFinset.filter (p <:+ ·)

/-- `getNumberOfStates` counts the states of the subtree. -/
theorem getNumberOfStates_eq_card {s : State ν} {p : StateRef} (hs : root.stateAt p = some s) :
    getNumberOfStates s = (subtree root p).card := by
  rw [getNumberOfStates_eq s p, ← List.toFinset_card_of_nodup (s.nodup_positions p)]
  congr 1
  ext q
  rw [subtree, Finset.mem_filter, List.mem_toFinset, List.mem_toFinset,
    State.mem_positions_iff hs, State.mem_positions_iff root.stateAt_nil,
    and_iff_left List.nil_suffix]

/-! ### Transitions -/

theorem mem_addTransitions {p : StateRef} {s : State ν} {set : Finset TransitionRef}
    {t : TransitionRef} : t ∈ addTransitions p s set ↔
      t ∈ set ∨ t.state = p ∧ t.index < s.transitions.length := by
  have hloop : ∀ (indices : List Nat) (set : Finset TransitionRef),
      t ∈ indices.foldl (fun transitions i => insert ⟨p, i⟩ transitions) set ↔
        t ∈ set ∨ t.state = p ∧ t.index ∈ indices := by
    intro indices
    induction indices with
    | nil => simp
    | cons i indices ih =>
        intro set
        rw [List.foldl_cons, ih, Finset.mem_insert, List.mem_cons]
        obtain ⟨q, j⟩ := t
        simp only [TransitionRef.mk.injEq]
        tauto
  rw [addTransitions, hloop, List.mem_range]

theorem transitionAt_isSome {s : State ν} {t : TransitionRef}
    (hs : root.stateAt t.state = some s) :
    (root.transitionAt t).isSome ↔ t.index < s.transitions.length := by
  rw [State.transitionAt, State.transitionsAt, hs, isSome_getElem?]

/-- A transition of the tree is placed in a state of the tree. -/
theorem stateAt_isSome {t : TransitionRef} (ht : (root.transitionAt t).isSome) :
    (root.stateAt t.state).isSome := by
  rw [State.transitionAt, State.transitionsAt] at ht
  split at ht
  · rename_i s hs
    rw [hs]
    rfl
  · cases ht

/-- `allTransitions` collects the transitions placed in the subtree. -/
theorem mem_allTransitions {s : State ν} {p : StateRef} (hs : root.stateAt p = some s)
    {t : TransitionRef} :
    t ∈ allTransitions p s ∅ ↔ (root.transitionAt t).isSome ∧ p <:+ t.state := by
  have hloop : ∀ (qs : List StateRef) (set : Finset TransitionRef),
      (∀ q ∈ qs, (root.stateAt q).isSome) →
      (t ∈ qs.foldl (visitAt root addTransitions) set ↔
        t ∈ set ∨ (root.transitionAt t).isSome ∧ t.state ∈ qs) := by
    intro qs
    induction qs with
    | nil => simp
    | cons q qs ih =>
        intro set hqs
        obtain ⟨u, hu⟩ := Option.isSome_iff_exists.mp (hqs q List.mem_cons_self)
        rw [List.foldl_cons, visitAt_some hu, ih _ fun r hr => hqs r (List.mem_cons_of_mem _ hr),
          mem_addTransitions, List.mem_cons]
        by_cases hq : t.state = q
        · rw [transitionAt_isSome (hq ▸ hu)]
          tauto
        · tauto
  rw [allTransitions, State.visit_eq s ∅ hs,
    hloop _ _ fun q hq => ((State.mem_positions_iff hs).mp hq).1]
  rw [State.mem_positions_iff hs]
  have hstate := @stateAt_isSome ν root t
  simp only [Finset.notMem_empty, false_or]
  tauto

/-- The transitions of the tree. -/
def treeTransitions (root : State ν) : Finset TransitionRef := allTransitions [] root ∅

/-- The transitions placed in the subtree of a state. -/
def placed (root : State ν) (p : StateRef) : Finset TransitionRef :=
  (treeTransitions root).filter (p <:+ TransitionRef.state ·)

/-- `getNumberOfTransitions` counts the transitions placed in the subtree. -/
theorem getNumberOfTransitions_eq {s : State ν} {p : StateRef} (hs : root.stateAt p = some s) :
    getNumberOfTransitions p s = (placed root p).card := by
  rw [getNumberOfTransitions]
  congr 1
  ext t
  rw [placed, treeTransitions, Finset.mem_filter, mem_allTransitions hs,
    mem_allTransitions root.stateAt_nil, and_iff_left List.nil_suffix]

/-! ### Entries -/

/-- The number that `scope_T` puts for the variables of a state. -/
def numberOfStatesAt (root : State ν) (p : StateRef) : Nat := (subtree root p).card

/-- The entries of some variables of a state, with the number `n`. -/
def declarationEntries (root : State ν) (p : StateRef) (declarations : List Declaration) (n : Nat) :
    List (String × Nat) :=
  declarations.filterMap fun d => (getFullVName root ⟨p, d.vname⟩).map (·, n)

theorem putDeclarations_eq (p : StateRef) (declarations : List Declaration) (n : Nat) :
    ∀ scope : ScopeMap, putDeclarations root p declarations n scope =
      puts (declarationEntries root p declarations n) scope := by
  induction declarations with
  | nil => exact fun scope => rfl
  | cons d declarations ih =>
      intro scope
      rw [putDeclarations, List.foldl_cons, declarationEntries, List.filterMap_cons]
      cases hname : getFullVName root ⟨p, d.vname⟩ with
      | none => exact ih scope
      | some full => exact ih _

/-- The entries of all variables of the states `qs`, where `value` is the number of each
state. -/
def scopeEntries (root : State ν) (value : StateRef → Nat) (qs : List StateRef) :
    List (String × Nat) :=
  qs.flatMap fun q => declarationEntries root q (root.declarationsAt q) (value q)

theorem scopeEntries_cons (value : StateRef → Nat) (q : StateRef) (qs : List StateRef) :
    scopeEntries root value (q :: qs) =
      declarationEntries root q (root.declarationsAt q) (value q) ++ scopeEntries root value qs :=
  List.flatMap_cons

theorem mem_scopeEntries {value : StateRef → Nat} {qs : List StateRef} {full : String} {n : Nat} :
    (full, n) ∈ scopeEntries root value qs ↔ ∃ q ∈ qs, ∃ dec ∈ root.declarationsAt q,
      getFullVName root ⟨q, dec.vname⟩ = some full ∧ value q = n := by
  simp [scopeEntries, declarationEntries]

/-- A loop of `scope_T` over positions of the tree puts their entries. -/
theorem visits_putNumberOfStates {qs : List StateRef} (hqs : ∀ q ∈ qs, (root.stateAt q).isSome) :
    ∀ scope : ScopeMap, qs.foldl (visitAt root (putNumberOfStates root)) scope =
      puts (scopeEntries root (numberOfStatesAt root) qs) scope := by
  induction qs with
  | nil => exact fun scope => rfl
  | cons q qs ih =>
      intro scope
      obtain ⟨s, hs⟩ := Option.isSome_iff_exists.mp (hqs q List.mem_cons_self)
      have hdeclarations : root.declarationsAt q = s.declarations.toList := by
        rw [State.declarationsAt, hs]
      rw [List.foldl_cons, ih fun r hr => hqs r (List.mem_cons_of_mem _ hr), visitAt_some hs,
        putNumberOfStates, putDeclarations_eq, getNumberOfStates_eq_card hs, scopeEntries_cons,
        puts_append, hdeclarations, numberOfStatesAt]

/-- The number `n` at the statechart, and the number of states at every other state. -/
def outerValue (root : State ν) (n : Nat) (p : StateRef) : Nat :=
  if p = [] then n else numberOfStatesAt root p

/-- `Wscope` and `Rscope` put one entry for each variable. -/
theorem putScopes_eq (n : Nat) (scope : ScopeMap) : putScopes root [] root n scope =
    puts (scopeEntries root (outerValue root n) (root.positions [])) scope := by
  have hbelow : ∀ q ∈ statesPositions [] 0 root.states, q ≠ [] := by
    rintro q hq rfl
    obtain ⟨j, _, hj⟩ := suffix_of_mem_statesPositions root.states hq
    exact TreeAddress.cons_not_suffix j [] hj
  have hpositions : root.positions [] = [] :: statesPositions [] 0 root.states := by
    cases root
    rw [State.positions]
  have hentries : scopeEntries root (numberOfStatesAt root) (statesPositions [] 0 root.states) =
      scopeEntries root (outerValue root n) (statesPositions [] 0 root.states) := by
    refine List.flatMap_congr fun q hq => ?_
    rw [outerValue, if_neg (hbelow q hq)]
  have hsubstates := State.stateAt_substates root.stateAt_nil
  show root.states.zipIdx.foldl
    (fun scope (s, i) => s.visit (putNumberOfStates root) (i :: []) scope) _ = _
  rw [zipIdx_foldl_visit, statesVisit_eq _ _ hsubstates, putDeclarations_eq,
    visits_putNumberOfStates fun q hq => isSome_of_mem_statesPositions _ hsubstates hq,
    ← puts_append, hentries, hpositions, scopeEntries_cons]
  rfl

/-! ### The metrics -/

/-- The map holds the value of its state under the full name of each variable, and no other
key. -/
structure ScopeOf (root : State ν) (value : StateRef → Nat) (scope : ScopeMap) : Prop where
  value : ∀ p, ∀ dec ∈ root.declarationsAt p, ∃ full,
    getFullVName root ⟨p, dec.vname⟩ = some full ∧ scope full = some (value p)
  keys : ∀ full, (scope full).isSome → ∃ p, ∃ dec ∈ root.declarationsAt p,
    getFullVName root ⟨p, dec.vname⟩ = some full

/-- Two numberings of the states agree in a map just when they agree on the states that declare
variables. -/
theorem ScopeOf.iff_agree {value value' : StateRef → Nat} {scope : ScopeMap}
    (h : ScopeOf root value scope) :
    ScopeOf root value' scope ↔ ∀ p, root.declarationsAt p ≠ [] → value p = value' p := by
  constructor
  · intro h' p hp
    obtain ⟨dec, hdec⟩ := List.exists_mem_of_ne_nil _ hp
    obtain ⟨full, hfull, hvalue⟩ := h.value p dec hdec
    obtain ⟨full', hfull', hvalue'⟩ := h'.value p dec hdec
    obtain rfl : full = full' := Option.some.inj (hfull.symm.trans hfull')
    exact Option.some.inj (hvalue.symm.trans hvalue')
  · intro hagree
    refine ⟨fun p dec hdec => ?_, h.keys⟩
    rw [← hagree p (List.ne_nil_of_mem hdec)]
    exact h.value p dec hdec

/-- The number that `Wscope` should put for the variables of a state. -/
def wvalue (root : State ν) (p : StateRef) : Nat :=
  (subtree root p).card + (placed root p).card + (tIn root p (treeTransitions root)).card

/-- The number that `Rscope` should put for the variables of a state. -/
def rvalue (root : State ν) (p : StateRef) : Nat :=
  (subtree root p).card + (placed root p).card + (tOut root p (treeTransitions root)).card

/-- `Wscope` and `Rscope` compute the scope metrics of the statechart, starting with empty
maps. -/
structure ScopeMetrics (root : State ν) : Prop where
  wscope : ScopeOf root (wvalue root)
    (wscope root [] root (fun _ => none) (allTransitions [] root ∅))
  rscope : ScopeOf root (rvalue root)
    (rscope root [] root (fun _ => none) (allTransitions [] root ∅))

section
variable {sc : WrittenStatechart} {statechart : Statechart} {c : CheckedStatechart}

/-- The full names of an accepted statechart's variables are distinct keys. -/
theorem nodup_scopeEntries (hparse : sc.result = .ok statechart)
    (hc : typecheck statechart = .ok c) (value : StateRef → Nat) :
    ((scopeEntries statechart.root value (statechart.root.positions [])).map Prod.fst).Nodup := by
  have hentry : ∀ {p : StateRef} {full : String},
      full ∈ (declarationEntries statechart.root p (statechart.root.declarationsAt p)
        (value p)).map Prod.fst → ∃ dec ∈ statechart.root.declarationsAt p,
          getFullVName statechart.root ⟨p, dec.vname⟩ = some full := by
    intro p full hfull
    simpa [declarationEntries] using hfull
  rw [scopeEntries, List.map_flatMap]
  refine List.nodup_flatMap.mpr ⟨fun p _ => ?_, ?_⟩
  · have hnames := List.pairwise_map.mp (statechart.root.nodup_declarationsAt p)
    rw [declarationEntries, List.map_filterMap]
    refine List.pairwise_filterMap.mpr (hnames.imp_of_mem ?_)
    intro dec dec' hdec hdec' hne full hfull full' hfull' heq
    have hfull : getFullVName statechart.root ⟨p, dec.vname⟩ = some full := by simpa using hfull
    have hfull' : getFullVName statechart.root ⟨p, dec'.vname⟩ = some full' := by simpa using hfull'
    rw [heq, ← hfull'] at hfull
    exact hne (congrArg _ (getFullVName_injective hparse hc hdec hdec' hfull).2)
  · -- Variables of different states have different full names too.
    refine (statechart.root.nodup_positions []).imp fun hne full hfull hfull' => hne ?_
    obtain ⟨dec, hdec, hname⟩ := hentry hfull
    obtain ⟨dec', hdec', hname'⟩ := hentry hfull'
    exact (getFullVName_injective hparse hc hdec hdec' (hname.trans hname'.symm)).1

/-- No entry is lost. -/
theorem scopeOf_puts (hparse : sc.result = .ok statechart) (hc : typecheck statechart = .ok c)
    (value : StateRef → Nat) : ScopeOf statechart.root value
      (puts (scopeEntries statechart.root value (statechart.root.positions []))
        fun _ => none) := by
  have hnodup := nodup_scopeEntries hparse hc value
  constructor
  case value =>
    intro p dec hdec
    obtain ⟨s, hs, _⟩ := State.exists_of_mem_declarationsAt hdec
    obtain ⟨full, _, hfull, _⟩ := exists_getFullVName hparse hdec
    refine ⟨full, hfull, ?_⟩
    rw [puts_eq_some hnodup, mem_scopeEntries]
    exact ⟨p, State.mem_positions (by simp [hs]), dec, hdec, hfull, rfl⟩
  case keys =>
    intro full hfull
    obtain ⟨m, hm⟩ := Option.isSome_iff_exists.mp hfull
    rw [puts_eq_some hnodup, mem_scopeEntries] at hm
    obtain ⟨p, _, dec, hdec, hname, _⟩ := hm
    exact ⟨p, dec, hdec, hname⟩

/-- `scope_S` puts the number of states of the subtree for every variable. -/
theorem scopeOf_scopeS (hparse : sc.result = .ok statechart)
    (hc : typecheck statechart = .ok c) :
    ScopeOf statechart.root (fun p => (subtree statechart.root p).card)
      (scopeS statechart.root [] statechart.root fun _ => none) := by
  have hroot := statechart.root.stateAt_nil
  rw [scopeS, State.visit_eq _ _ hroot,
    visits_putNumberOfStates fun q hq => ((State.mem_positions_iff hroot).mp hq).1]
  exact scopeOf_puts hparse hc (numberOfStatesAt statechart.root)

/-- The numbers that are put are right where the transitions to count are `transitions p`, just
when there are none at the states below the statechart. -/
theorem scopeOf_iff (hparse : sc.result = .ok statechart) (hc : typecheck statechart = .ok c)
    (transitions : StateRef → Finset TransitionRef) :
    ScopeOf statechart.root
      (fun p => (subtree statechart.root p).card + (placed statechart.root p).card +
        (transitions p).card)
      (putScopes statechart.root [] statechart.root
        (getNumberOfStates statechart.root + getNumberOfTransitions [] statechart.root +
          (transitions []).card) fun _ => none) ↔
      ∀ p, statechart.root.declarationsAt p ≠ [] → p ≠ [] →
        placed statechart.root p = ∅ ∧ transitions p = ∅ := by
  have hroot := statechart.root.stateAt_nil
  rw [putScopes_eq, (scopeOf_puts hparse hc _).iff_agree]
  refine forall₂_congr fun p _ => ?_
  by_cases hp : p = []
  · subst hp
    simp [outerValue, getNumberOfStates_eq_card hroot, getNumberOfTransitions_eq hroot]
  · -- Below the statechart only the states are counted, so the other summands must be 0.
    rw [outerValue, if_neg hp, numberOfStatesAt, ← Finset.card_eq_zero, ← Finset.card_eq_zero]
    simp only [ne_eq, hp, not_false_eq_true, forall_const]
    omega

/-- In an accepted statechart the scope metrics are right just when the states below the
statechart that declare variables have no transitions to count: none placed in their subtree,
none that goes to them, and none that comes from them. -/
theorem scopeMetrics_iff (hparse : sc.result = .ok statechart)
    (hc : typecheck statechart = .ok c) : ScopeMetrics statechart.root ↔
      ∀ p, p ≠ [] → statechart.root.declarationsAt p ≠ [] →
        placed statechart.root p = ∅ ∧
        tIn statechart.root p (treeTransitions statechart.root) = ∅ ∧
        tOut statechart.root p (treeTransitions statechart.root) = ∅ := by
  have hw := scopeOf_iff hparse hc fun p =>
    tIn statechart.root p (treeTransitions statechart.root)
  have hr := scopeOf_iff hparse hc fun p =>
    tOut statechart.root p (treeTransitions statechart.root)
  constructor
  · intro h p hp hdeclared
    have ⟨hplaced, hin⟩ := hw.mp h.wscope p hdeclared hp
    exact ⟨hplaced, hin, (hr.mp h.rscope p hdeclared hp).2⟩
  · intro h
    exact ⟨hw.mpr fun p hdeclared hp => ⟨(h p hp hdeclared).1, (h p hp hdeclared).2.1⟩,
      hr.mpr fun p hdeclared hp => ⟨(h p hp hdeclared).1, (h p hp hdeclared).2.2⟩⟩

end

/-- A gate that counts its coins, and that is out of order from some time on. -/
def gate : WrittenStatechart where
  types := []
  events := [⟨"coin", by decide, by decide⟩, ⟨"push", by decide, by decide⟩]
  functions := []
  root := .mk ⟨"Gate", by decide, by decide⟩ .unmarked
    [.normal ⟨"coins", by decide, by decide⟩ (.mk "int" []) .localWord] none none
    [.mk ⟨"Locked", by decide, by decide⟩ .unmarked [] none none [] [],
      .mk ⟨"Open", by decide, by decide⟩ .unmarked [] none none [] [],
      .mk ⟨"Broken", by decide, by decide⟩ .unmarked
        [.normal ⟨"since", by decide, by decide⟩ (.mk "int" []) .localWord] none none [] []]
    [⟨⟨"unlock", by decide, by decide⟩, ["Gate", "Locked"], ["Gate", "Open"],
        some ⟨"coin", by decide, by decide⟩, .constant (.booleanConstant true), .statementList []⟩,
      ⟨⟨"lock", by decide, by decide⟩, ["Gate", "Open"], ["Gate", "Locked"],
        some ⟨"push", by decide, by decide⟩, .constant (.booleanConstant true),
        .statementList []⟩]
  marks := Or.inl rfl

/-- The metrics of the gate are right: for `coins` they count four states and two transitions. -/
theorem gate_scopeMetrics :
    ScopeMetrics (parsed gate).root ∧ wvalue (parsed gate).root [] = 6 := by
  have hparsed : gate.result = .ok (parsed gate) := Result.eq_ok_getD (by decide) _
  have haccepted : typecheck (parsed gate) = .ok (accepted (parsed gate)) :=
    Result.eq_ok_getD (by decide) _
  have hpositions : ∀ p, (parsed gate).root.declarationsAt p ≠ [] →
      p ∈ (parsed gate).root.positions [] := by
    intro p hp
    obtain ⟨dec, hdec⟩ := List.exists_mem_of_ne_nil _ hp
    obtain ⟨s, hs, _⟩ := State.exists_of_mem_declarationsAt hdec
    exact State.mem_positions (by simp [hs])
  refine ⟨(scopeMetrics_iff hparsed haccepted).mpr fun p hp hdeclared => ?_, by decide⟩
  -- The only state below the statechart that declares a variable is `Broken`.
  have hbroken : ∀ p ∈ (parsed gate).root.positions [], p ≠ [] →
      (parsed gate).root.declarationsAt p ≠ [] → p = [2] := by decide
  obtain rfl := hbroken p (hpositions p hdeclared) hp hdeclared
  decide

/-! ### A variable below the statechart -/

/-- A turnstile that counts its coins while it is locked. -/
def turnstile : WrittenStatechart where
  types := []
  events := [⟨"coin", by decide, by decide⟩, ⟨"push", by decide, by decide⟩]
  functions := []
  root := .mk ⟨"Turnstile", by decide, by decide⟩ .unmarked [] none none
    [.mk ⟨"Locked", by decide, by decide⟩ .unmarked
      [.normal ⟨"coins", by decide, by decide⟩ (.mk "int" []) .localWord]
      none none [] [],
      .mk ⟨"Open", by decide, by decide⟩ .unmarked [] none none [] []]
    [⟨⟨"unlock", by decide, by decide⟩, ["Turnstile", "Locked"], ["Turnstile", "Open"],
        some ⟨"coin", by decide, by decide⟩, .constant (.booleanConstant true), .statementList []⟩,
      ⟨⟨"lock", by decide, by decide⟩, ["Turnstile", "Open"], ["Turnstile", "Locked"],
        some ⟨"push", by decide, by decide⟩, .constant (.booleanConstant true),
        .statementList []⟩]
  marks := Or.inl rfl

/-- `Wscope` puts 1 for `coins`, the number of states; one transition goes to the state. -/
theorem turnstile_not_scopeMetrics : turnstile.result = .ok (parsed turnstile) ∧
    typecheck (parsed turnstile) = .ok (accepted (parsed turnstile)) ∧
    ¬ ScopeMetrics (parsed turnstile).root := by
  refine ⟨Result.eq_ok_getD (by decide) _, Result.eq_ok_getD (by decide) _, fun h => ?_⟩
  obtain ⟨full, hfull, hvalue⟩ := h.wscope.value [0] _ (List.mem_of_getElem? (i := 0) rfl)
  have hname : getFullVName (parsed turnstile).root ⟨[0], "coins"⟩ =
      some "Turnstile.Locked.coins" := by decide
  obtain rfl := Option.some.inj (hname.symm.trans hfull)
  have hone : wscope (parsed turnstile).root [] (parsed turnstile).root (fun _ => none)
      (allTransitions [] (parsed turnstile).root ∅) "Turnstile.Locked.coins" = some 1 := by decide
  have htwo : wvalue (parsed turnstile).root [0] = 2 := by decide
  rw [hone, htwo] at hvalue
  cases hvalue

end Metric

end Stabl
