import Stabl.Frontend.Typechecker
import Stabl.Lib.Result

/-!
# `Stabl.Proofs.Frontend.Accepted`: what acceptance says about a statechart

The typechecker returns the tree that it was given, with names bound. So every state of
the accepted tree comes from the state at the same position, and has the same name,
declarations, marks and substates (`stateAt_accepted`, `stateAt_source`). For a
transition of the accepted tree, acceptance means that it is placed in the lub of its
source and destination (`lub_of_accepted`), which are states of the tree.
-/

set_option autoImplicit false

namespace Stabl

open Result TreeAddress

/-! ### Positions -/

section
variable {ν : Type}

/-- The positions below the `j`-th of some substates are listed. -/
theorem mem_statesPositions {p : StateRef} {ss : List (State ν)} {j : Nat} {s : State ν}
    (hs : ss[j]? = some s) (i : Nat) {x : StateRef} (hx : x ∈ s.positions ((i + j) :: p)) :
    x ∈ statesPositions p i ss := by
  induction ss generalizing i j with
  | nil => simp at hs
  | cons s₀ ss ih =>
      rw [statesPositions, List.mem_append]
      cases j with
      | zero =>
          obtain rfl : s₀ = s := by simpa using hs
          exact Or.inl hx
      | succ j =>
          refine Or.inr (ih (by simpa using hs) (i + 1) ?_)
          rwa [show i + 1 + j = i + (j + 1) by omega]

theorem self_mem_positions (s : State ν) (p : StateRef) : p ∈ s.positions p := by
  cases s
  simp [State.positions]

/-- The positions of a state are positions of the states above it. -/
theorem State.positions_subset {root s t : State ν} {p : StateRef} (hs : root.stateAt p = some s)
    {r x : StateRef} (ht : root.stateAt (r ++ p) = some t) (hx : x ∈ t.positions (r ++ p)) :
    x ∈ s.positions p := by
  induction r generalizing t with
  | nil =>
      obtain rfl : s = t := Option.some.inj (hs.symm.trans ht)
      exact hx
  | cons i r ih =>
      rw [List.cons_append, stateAt_cons] at ht
      obtain ⟨super, hsuper, hchild⟩ := Option.bind_eq_some_iff.mp ht
      refine ih hsuper ?_
      cases super with
      | mk name decs entry exit states transitions history region shell fin =>
          rw [State.positions, List.mem_cons]
          exact Or.inr (mem_statesPositions hchild 0 (by simpa using hx))

/-- Below a state, every state of the tree is visited. -/
theorem State.mem_positions_of_suffix {root s : State ν} {p q : StateRef}
    (hs : root.stateAt p = some s) (hq : (root.stateAt q).isSome) (hpq : p <:+ q) :
    q ∈ s.positions p := by
  obtain ⟨r, rfl⟩ := hpq
  obtain ⟨t, ht⟩ := Option.isSome_iff_exists.mp hq
  exact positions_subset hs ht (self_mem_positions t _)

/-- Every state of the tree is visited. -/
theorem State.mem_positions {root : State ν} {p : StateRef} (hp : (root.stateAt p).isSome) :
    p ∈ root.positions [] :=
  mem_positions_of_suffix root.stateAt_nil hp List.nil_suffix

/-- Only the states of the tree have transitions. -/
theorem State.forall_transitionsAt {root : State ν} {P : StateRef → Transition ν → Prop}
    (h : ∀ p ∈ root.positions [], ∀ t ∈ root.transitionsAt p, P p t) :
    ∀ p, ∀ t ∈ root.transitionsAt p, P p t := by
  intro p t ht
  refine h p (State.mem_positions ?_) t ht
  unfold State.transitionsAt at ht
  split at ht
  · rename_i s hs
    rw [hs]
    rfl
  · cases ht

mutual

/-- The positions of a state are those at it and below it. -/
theorem State.suffix_of_mem_positions :
    ∀ (s : State ν) {p x : StateRef}, x ∈ s.positions p → p <:+ x
  | ⟨_, _, _, _, states, _, _, _, _, _⟩, p, x, hx => by
      rw [State.positions] at hx
      rcases List.mem_cons.mp hx with rfl | hx
      · exact List.suffix_rfl
      · have ⟨j, _, hj⟩ := suffix_of_mem_statesPositions states hx
        exact (List.suffix_cons j p).trans hj

theorem suffix_of_mem_statesPositions : ∀ (ss : List (State ν)) {p x : StateRef} {i : Nat},
    x ∈ statesPositions p i ss → ∃ j, i ≤ j ∧ (j :: p) <:+ x
  | [], p, x, i, hx => by cases hx
  | s :: ss, p, x, i, hx => by
      rw [statesPositions] at hx
      rcases List.mem_append.mp hx with hx | hx
      · exact ⟨i, Nat.le_refl i, s.suffix_of_mem_positions hx⟩
      · have ⟨j, hj, hsuffix⟩ := suffix_of_mem_statesPositions ss hx
        exact ⟨j, by omega, hsuffix⟩

end

/-- The substates of a state, by their positions. -/
theorem State.stateAt_substates {root s : State ν} {p : StateRef} (hs : root.stateAt p = some s) :
    ∀ j, root.stateAt ((0 + j) :: p) = s.states[j]? := by
  intro j
  rw [stateAt_cons, hs, Nat.zero_add]
  rfl

theorem State.stateAt_tail {root s : State ν} {ss : List (State ν)} {p : StateRef} {i : Nat}
    (hss : ∀ j, root.stateAt ((i + j) :: p) = (s :: ss)[j]?) :
    ∀ j, root.stateAt ((i + 1 + j) :: p) = ss[j]? := by
  intro j
  have hj := hss (j + 1)
  rwa [List.getElem?_cons_succ, show i + (j + 1) = i + 1 + j by omega] at hj

mutual

theorem State.isSome_of_mem_positions {root : State ν} :
    ∀ (s : State ν) {p x : StateRef}, root.stateAt p = some s → x ∈ s.positions p →
      (root.stateAt x).isSome
  | ⟨_, _, _, _, states, _, _, _, _, _⟩, p, x, hs, hx => by
      rw [State.positions] at hx
      rcases List.mem_cons.mp hx with rfl | hx
      · rw [hs]
        rfl
      · exact isSome_of_mem_statesPositions states (State.stateAt_substates hs) hx

theorem isSome_of_mem_statesPositions {root : State ν} :
    ∀ (ss : List (State ν)) {p x : StateRef} {i : Nat},
      (∀ j, root.stateAt ((i + j) :: p) = ss[j]?) → x ∈ statesPositions p i ss →
      (root.stateAt x).isSome
  | [], p, x, i, _, hx => by cases hx
  | s :: ss, p, x, i, hss, hx => by
      rw [statesPositions] at hx
      rcases List.mem_append.mp hx with hx | hx
      · exact State.isSome_of_mem_positions s (hss 0) hx
      · exact isSome_of_mem_statesPositions ss (State.stateAt_tail hss) hx

end

/-- The positions of a state are the states of the tree at it and below it. -/
theorem State.mem_positions_iff {root s : State ν} {p q : StateRef}
    (hs : root.stateAt p = some s) : q ∈ s.positions p ↔ (root.stateAt q).isSome ∧ p <:+ q :=
  ⟨fun hq => ⟨isSome_of_mem_positions s hs hq, s.suffix_of_mem_positions hq⟩,
    fun ⟨hq, hpq⟩ => mem_positions_of_suffix hs hq hpq⟩

mutual

/-- Every state is visited once. -/
theorem State.nodup_positions : ∀ (s : State ν) (p : StateRef), (s.positions p).Nodup
  | ⟨_, _, _, _, states, _, _, _, _, _⟩, p => by
      rw [State.positions]
      refine List.nodup_cons.mpr ⟨?_, nodup_statesPositions states p 0⟩
      intro hp
      have ⟨j, _, hj⟩ := suffix_of_mem_statesPositions states hp
      exact TreeAddress.cons_not_suffix j p hj

theorem nodup_statesPositions : ∀ (ss : List (State ν)) (p : StateRef) (i : Nat),
    (statesPositions p i ss).Nodup
  | [], p, i => List.nodup_nil
  | s :: ss, p, i => by
      rw [statesPositions]
      refine List.nodup_append.mpr ⟨s.nodup_positions _, nodup_statesPositions ss p (i + 1), ?_⟩
      intro x hx y hy heq
      have hfirst : (i :: p) <:+ x := s.suffix_of_mem_positions hx
      have ⟨j, hj, hother⟩ := suffix_of_mem_statesPositions ss hy
      -- Two addresses of one length above the same address.
      have hsame : i :: p = j :: p :=
        (List.suffix_of_suffix_length_le hfirst (heq ▸ hother) (by simp)).eq_of_length (by simp)
      have hij : i = j := (List.cons.inj hsame).1
      omega

end

end

/-! ### States -/

namespace Declared

variable {sc : Declared}

/-- The names that are checked are distinct, and none has been seen before. -/
theorem nodup_of_checkNames {state : String} {names ns : List String} {u : Unit}
    (h : checkNames state names ns = .ok u) : ns.Nodup ∧ ∀ n ∈ ns, n ∉ names := by
  induction ns generalizing names with
  | nil => simp
  | cons n ns ih =>
      rw [checkNames] at h
      by_cases hn : n ∈ names
      · rw [if_pos hn] at h
        cases h
      · rw [if_neg hn] at h
        have ⟨hnodup, hnew⟩ := ih h
        refine ⟨List.nodup_cons.mpr ⟨fun hmem => hnew n hmem List.mem_cons_self, hnodup⟩, ?_⟩
        intro m hm
        rcases List.mem_cons.mp hm with rfl | hm
        · exact hn
        · exact fun hmem => hnew m hm (List.mem_cons_of_mem _ hmem)

/-- What `typecheckState` returns, field by field. -/
structure TypecheckedState (sc : Declared) (p : StateRef) (s : State Path) (s' : State Name) :
    Prop where
  name : s'.name = s.name
  names : (s.declarations.toList.map Declaration.vname ++ s.states.map State.name ++
    s.transitions.map Transition.name).Nodup
  declarations : s'.declarations = s.declarations
  history : s'.history = s.history
  entry : sc.typecheckStatement (getEnvironment sc.root p) (getEnvironment sc.root p) s.entry =
    .ok s'.entry
  exit : sc.typecheckStatement (getEnvironment sc.root p) (getEnvironment sc.root p) s.exit =
    .ok s'.exit
  transitions : List.Forall₂ (fun t t' => sc.typecheckTransition p t = .ok t')
    s.transitions s'.transitions
  states : sc.typecheckStates p 0 s.states = .ok s'.states

theorem typecheckedState {p : StateRef} {s : State Path} {s' : State Name}
    (h : sc.typecheckState p s = .ok s') : TypecheckedState sc p s s' := by
  cases s with
  | mk name decs entry exit states transitions history region shell fin =>
      rw [typecheckState] at h
      obtain ⟨_, hnames, h⟩ := bind_eq_ok.mp h
      obtain ⟨_, _, h⟩ := bind_eq_ok.mp h
      obtain ⟨entry', hentry, h⟩ := bind_eq_ok.mp h
      obtain ⟨exit', hexit, h⟩ := bind_eq_ok.mp h
      obtain ⟨transitions', htransitions, h⟩ := bind_eq_ok.mp h
      obtain ⟨states', hstates, h⟩ := bind_eq_ok.mp h
      rw [pure_eq_ok] at h
      subst h
      exact ⟨rfl, (nodup_of_checkNames hnames).1, rfl, rfl, hentry, hexit,
        mapM_eq_ok.mp htransitions, hstates⟩

/-- The substates are checked one by one, each at its own position. -/
theorem typecheckStates_getElem {p : StateRef} {i : Nat} {ss : List (State Path)}
    {ss' : List (State Name)} (h : sc.typecheckStates p i ss = .ok ss') (j : Nat) :
    (∀ s', ss'[j]? = some s' →
        ∃ s, ss[j]? = some s ∧ sc.typecheckState ((i + j) :: p) s = .ok s') ∧
      (∀ s, ss[j]? = some s → ∃ s', ss'[j]? = some s') := by
  induction ss generalizing i j ss' with
  | nil =>
      rw [typecheckStates, pure_eq_ok] at h
      subst h
      simp
  | cons s ss ih =>
      rw [typecheckStates] at h
      obtain ⟨s', hs, h⟩ := bind_eq_ok.mp h
      obtain ⟨rest, hrest, h⟩ := bind_eq_ok.mp h
      rw [pure_eq_ok] at h
      subst h
      cases j with
      | zero => simpa using hs
      | succ j =>
          have hj := ih hrest j
          rw [show i + 1 + j = i + (j + 1) by omega] at hj
          simpa using hj

end Declared

section
variable {sc : Statechart} {c : CheckedStatechart}

/-- The passes over the declarations keep the tree. -/
theorem typecheck_eq_ok (h : typecheck sc = .ok c) : ∃ d : Declared,
    typecheckDeclarations sc = .ok d ∧ d.root = sc.root ∧ d.events = c.events ∧
      d.typecheckState [] d.root = .ok c.root := by
  obtain ⟨d, hd, h⟩ := bind_eq_ok.mp h
  obtain ⟨root, hroot, h⟩ := bind_eq_ok.mp h
  rw [pure_eq_ok] at h
  subst h
  exact ⟨d, hd, (typecheckDeclarations_eq_ok hd).1, rfl, hroot⟩

/-- The accepted tree has the positions of the source tree, and the states at them checked. -/
theorem Declared.stateAt_related {d : Declared} {root : State Name}
    (h : d.typecheckState [] d.root = .ok root) (p : StateRef) :
    Option.Rel (fun s s' => d.typecheckState p s = .ok s') (d.root.stateAt p) (root.stateAt p) := by
  rw [State.stateAt_eq_nodeAt, State.stateAt_eq_nodeAt]
  refine nodeAt_related (R := fun p s s' => d.typecheckState p s = .ok s') (fun hcheck i => ?_) h p
  have ⟨hleft, hright⟩ := typecheckStates_getElem (typecheckedState hcheck).states i
  rename_i p s s'
  cases hs : s.states[i]? with
  | none =>
      cases hs' : s'.states[i]? with
      | none => exact .none
      | some st' =>
          have ⟨st, hst, _⟩ := hleft st' hs'
          rw [hs] at hst
          cases hst
  | some st =>
      have ⟨st', hst'⟩ := hright st hs
      have ⟨st₀, hst₀, hchecked⟩ := hleft st' hst'
      rw [hst']
      rw [hs, Option.some.injEq] at hst₀
      exact .some (by simpa [hst₀] using hchecked)

/-- Every state of the accepted tree comes from the state at its position. -/
theorem Declared.stateAt_accepted {d : Declared} {root : State Name}
    (h : d.typecheckState [] d.root = .ok root) {p : StateRef} {s' : State Name}
    (hs : root.stateAt p = some s') :
    ∃ s, d.root.stateAt p = some s ∧ d.typecheckState p s = .ok s' :=
  exists_left (stateAt_related h p) hs

/-- Every state of the source tree is in the accepted tree. -/
theorem Declared.stateAt_source {d : Declared} {root : State Name}
    (h : d.typecheckState [] d.root = .ok root) {p : StateRef} {s : State Path}
    (hs : d.root.stateAt p = some s) : ∃ s', root.stateAt p = some s' := by
  have ⟨s', hs', _⟩ := exists_right (stateAt_related h p) hs
  exact ⟨s', hs'⟩

/-- The accepted tree has the declarations of the source tree. -/
theorem Declared.declarationsAt_accepted {d : Declared} {root : State Name}
    (h : d.typecheckState [] d.root = .ok root) (p : StateRef) :
    root.declarationsAt p = d.root.declarationsAt p := by
  unfold State.declarationsAt
  cases hs' : root.stateAt p with
  | some s' =>
      obtain ⟨s, hs, hcheck⟩ := stateAt_accepted h hs'
      rw [hs]
      exact congrArg DeclarationList.toList (typecheckedState hcheck).declarations
  | none =>
      cases hs : d.root.stateAt p with
      | some s =>
          obtain ⟨s', hs''⟩ := stateAt_source h hs
          simp [hs'] at hs''
      | none => rfl

/-- The accepted tree has the environments of the source tree. -/
theorem Declared.getEnvironment_accepted {d : Declared} {root : State Name}
    (h : d.typecheckState [] d.root = .ok root) (p : StateRef) :
    getEnvironment root p = getEnvironment d.root p := by
  induction p with
  | nil => rw [getEnvironment, getEnvironment, declarationsAt_accepted h]
  | cons i p ih => rw [getEnvironment, getEnvironment, declarationsAt_accepted h, ih]

/-! ### Transitions -/

/-- What acceptance says about a transition placed in the state `p`. -/
structure TypecheckedTransition (d : Declared) (p : StateRef) (t : Transition Path)
    (t' : Transition Name) : Prop where
  name : t'.name = t.name
  source : t'.source = t.source
  destination : t'.destination = t.destination
  lub : lub t'.source t'.destination = some p
  trigger : t'.trigger = t.trigger ∧ t.trigger ∈ d.events
  guard : d.typecheckGuard (PlacedTransition.getReadEnvironment d.root ⟨p, t⟩) t.guard =
    .ok t'.guard
  action : d.typecheckStatement (PlacedTransition.getReadEnvironment d.root ⟨p, t⟩)
    (PlacedTransition.getWriteEnvironment d.root ⟨p, t⟩) t.action = .ok t'.action

theorem require_eq_ok {b : Bool} {e : TypecheckError} {u : Unit} :
    require b e = .ok u ↔ b = true := by
  cases b <;> simp [require]

theorem Declared.typecheckedTransition {d : Declared} {p : StateRef} {t : Transition Path}
    {t' : Transition Name} (h : d.typecheckTransition p t = .ok t') :
    TypecheckedTransition d p t t' := by
  simp only [typecheckTransition] at h
  split at h
  · simp at h
  · rename_i l hl
    obtain ⟨_, hplace, h⟩ := bind_eq_ok.mp h
    obtain ⟨_, _, h⟩ := bind_eq_ok.mp h
    obtain ⟨_, _, h⟩ := bind_eq_ok.mp h
    obtain ⟨_, _, h⟩ := bind_eq_ok.mp h
    obtain ⟨_, htrigger, h⟩ := bind_eq_ok.mp h
    obtain ⟨guard, hguard, h⟩ := bind_eq_ok.mp h
    obtain ⟨action, haction, h⟩ := bind_eq_ok.mp h
    rw [pure_eq_ok] at h
    subst h
    have hpl : p = l := by simpa using require_eq_ok.mp hplace
    refine ⟨rfl, rfl, rfl, hpl ▸ hl, ⟨rfl, ?_⟩, hguard, haction⟩
    simpa using require_eq_ok.mp htrigger

/-- A transition of the accepted tree comes from a transition of the same state. -/
theorem Declared.transition_accepted {d : Declared} {root : State Name}
    (h : d.typecheckState [] d.root = .ok root) {p : StateRef} {t' : Transition Name}
    (ht : t' ∈ root.transitionsAt p) :
    ∃ t ∈ d.root.transitionsAt p, d.typecheckTransition p t = .ok t' := by
  unfold State.transitionsAt at ht
  split at ht
  · rename_i s' hs'
    obtain ⟨s, hs, hcheck⟩ := stateAt_accepted h hs'
    have hforall := (typecheckedState hcheck).transitions
    obtain ⟨t, htmem, htcheck⟩ := forall₂_mem_right hforall ht
    refine ⟨t, ?_, htcheck⟩
    rw [State.transitionsAt, hs]
    exact htmem
  · simp at ht

/-- The transitions of a state of an accepted statechart have distinct names. -/
theorem nodup_transition_names (h : typecheck sc = .ok c) (p : StateRef) :
    ((c.root.transitionsAt p).map Transition.name).Nodup := by
  have ⟨d, _, _, _, hcheck⟩ := typecheck_eq_ok h
  unfold State.transitionsAt
  cases hs' : c.root.stateAt p with
  | none => exact List.nodup_nil
  | some s' =>
      have ⟨s, _, hstate⟩ := Declared.stateAt_accepted hcheck hs'
      have hchecked := Declared.typecheckedState hstate
      have hnames : s'.transitions.map Transition.name = s.transitions.map Transition.name :=
        map_eq_map_of_forall₂ (hchecked.transitions.imp fun t t' ht =>
          (Declared.typecheckedTransition ht).name)
      rw [hnames]
      exact (List.nodup_append.mp hchecked.names).2.1

theorem nodup_transitionsAt (h : typecheck sc = .ok c) (p : StateRef) :
    (c.root.transitionsAt p).Nodup :=
  List.Nodup.of_map Transition.name (nodup_transition_names h p)

/-! ### Variables -/

/-- The pass over the substates visits every one of them. -/
theorem typecheckVariableDeclarationsList_ok {ν : Type} {types : List TypeEntry}
    {ss : List (State ν)}
    {u : Unit} (h : typecheckVariableDeclarationsList types ss = .ok u) {s : State ν}
    (hs : s ∈ ss) :
    ∃ u, typecheckVariableDeclarations types s = .ok u := by
  induction ss generalizing u with
  | nil => cases hs
  | cons s₀ ss ih =>
      rw [typecheckVariableDeclarationsList] at h
      have ⟨u₀, hfirst, hrest⟩ := bind_eq_ok.mp h
      rcases List.mem_cons.mp hs with rfl | hs
      · exact ⟨u₀, hfirst⟩
      · exact ih hrest hs

/-- The pass over the variables visits every state of the tree. -/
theorem typecheckVariableDeclarations_ok {ν : Type} {types : List TypeEntry} {root : State ν}
    {u : Unit} (h : typecheckVariableDeclarations types root = .ok u) {p : StateRef} {s : State ν}
    (hs : root.stateAt p = some s) : ∃ u, typecheckVariableDeclarations types s = .ok u := by
  induction p generalizing s with
  | nil =>
      have hroot : root = s := by simpa using hs
      exact ⟨u, hroot ▸ h⟩
  | cons i p ih =>
      rw [State.stateAt_cons] at hs
      have ⟨super, hsuper, hchild⟩ := Option.bind_eq_some_iff.mp hs
      have ⟨u, hu⟩ := ih hsuper
      cases super with
      | mk name decs entry exit states transitions history region shell fin =>
          rw [typecheckVariableDeclarations] at hu
          have ⟨_, _, hstates⟩ := bind_eq_ok.mp hu
          exact typecheckVariableDeclarationsList_ok hstates (List.mem_of_getElem? hchild)

/-- Every variable of the statechart has got a type. -/
theorem Declared.typecheckDeclaration_of_mem {d : Declared} (hd : typecheckDeclarations sc = .ok d)
    {p : StateRef} {dec : Declaration} (hdec : dec ∈ d.root.declarationsAt p) :
    ∃ type, typecheckDeclaration d.types [] dec = .ok type := by
  have ⟨_, _, hvariables⟩ := typecheckDeclarations_eq_ok hd
  have ⟨s, hs, hmem⟩ := State.exists_of_mem_declarationsAt hdec
  have ⟨u, hu⟩ := typecheckVariableDeclarations_ok hvariables hs
  cases s with
  | mk name decs entry exit states transitions history region shell fin =>
      rw [typecheckVariableDeclarations] at hu
      have ⟨u', hdecs, _⟩ := bind_eq_ok.mp hu
      have ⟨u'', hone⟩ := forM_eq_ok hdecs hmem
      have ⟨type, htype, _⟩ := bind_eq_ok.mp hone
      exact ⟨type, htype⟩

/-- A transition of an accepted statechart is placed in the lub of its source and its
destination. Both are states of the tree. -/
theorem lub_of_accepted (h : typecheck sc = .ok c) {p : StateRef} {t : Transition Name}
    (ht : t ∈ c.root.transitionsAt p) :
    lub t.source t.destination = some p ∧ (c.root.stateAt t.source).isSome ∧
      (c.root.stateAt t.destination).isSome := by
  obtain ⟨d, _, hroot, _, hcheck⟩ := typecheck_eq_ok h
  obtain ⟨t₀, ht₀, htcheck⟩ := Declared.transition_accepted hcheck ht
  have ht' := Declared.typecheckedTransition htcheck
  have hp : (d.root.stateAt p).isSome := by
    unfold State.transitionsAt at ht₀
    split at ht₀
    · rename_i s hs
      rw [hs]
      rfl
    · simp at ht₀
  rw [hroot] at hp ht₀
  have hinit := sc.initialised p (State.mem_positions hp) t₀ ht₀
  have hsource : ∀ {q : StateRef} {n : Path}, nameToState sc.root n = some q →
      (c.root.stateAt q).isSome := by
    intro q n hq
    obtain ⟨s, hs⟩ := Option.isSome_iff_exists.mp (stateAt_nameToState hq)
    rw [← hroot] at hs
    obtain ⟨s', hs'⟩ := Declared.stateAt_source hcheck hs
    rw [hs']
    rfl
  refine ⟨ht'.lub, ?_, ?_⟩
  · rw [ht'.source]
    exact hsource hinit.1
  · rw [ht'.destination]
    exact hsource hinit.2

end

/-! ### Small statecharts -/

/-- An integer variable. -/
def integerVariable (vname : String) (scope : ScopeName) : Declaration :=
  ⟨vname, scope, .mk "int" [], false⟩

/-- An atomic state without variables and code. -/
def plainState (name : String) : State Path :=
  { name := name
    declarations := .empty
    entry := .statementList []
    exit := .statementList []
    states := [], transitions := []
    history := false, region := false, shell := false, fin := false }

/-- A transition between children of the statechart, with a guard that is always true. -/
def plainTransition (name : String) (chart source destination : String) (i j : Nat) :
    Transition Path where
  name := name
  sourceName := [chart, source]
  destinationName := [chart, destination]
  trigger := "turn"
  guard := .constant (.booleanConstant true)
  action := .statementList []
  source := [i]
  destination := [j]

/-- The result of a check, for a statechart that is known to be accepted. -/
def accepted (sc : Statechart) : CheckedStatechart :=
  getD (typecheck sc)
    ⟨⟨"", .empty, .skipStatement, .skipStatement, [], [], false, false, false, false⟩, [], [], []⟩

end Stabl
