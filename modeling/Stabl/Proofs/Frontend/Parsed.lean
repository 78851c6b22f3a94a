import Stabl.Frontend.Parser
import Stabl.Proofs.Frontend.Accepted

/-!
# `Stabl.Proofs.Frontend.Parsed`: what the parser keeps of the text

The actions build the state tree of the text, node by node (`WrittenState.yields`), and the
constructor of `Statechart` keeps it but for the sources and destinations. So a parsed statechart
has the positions of its text, and each of its states has the name, the declarations, the marks
and the transitions that are written at its position (`parsed_related`).
-/

set_option autoImplicit false

namespace Stabl

open Result TreeAddress

/-! ### Lists without repetitions -/

/-- A name that is not in the list yet is added at its end. -/
theorem addNew_eq_ok {α : Type} {name : α → String} {e : String → ParseError} {l l' : List α}
    {a : α} (hnodup : (l.map name).Nodup) (h : addNew name e l a = .ok l') :
    (l'.map name).Nodup ∧ l' = l ++ [a] := by
  unfold addNew at h
  split at h
  · cases h
  · rename_i hnew
    rw [Except.ok.injEq] at h
    subst h
    rw [List.map_append, List.map_singleton]
    exact ⟨hnodup.append (List.nodup_singleton _) (by simpa using hnew), rfl⟩

/-- A list that is collected with `addNew` is the list of the values, and no name occurs in it
twice. -/
theorem foldlM_addNew {α β : Type} {name : α → String} {e : String → ParseError}
    {value : β → Parse α} {bs : List β} : ∀ {l l' : List α}, (l.map name).Nodup →
      bs.foldlM (fun l b => do
        let a ← value b
        addNew name e l a) l = .ok l' →
      (l'.map name).Nodup ∧
        ∃ as, l' = l ++ as ∧ List.Forall₂ (fun b a => value b = .ok a) bs as := by
  induction bs with
  | nil =>
      intro l l' hnodup h
      rw [List.foldlM_nil, pure_eq_ok] at h
      subst h
      exact ⟨hnodup, [], (List.append_nil _).symm, .nil⟩
  | cons b bs ih =>
      intro l l' hnodup h
      rw [List.foldlM_cons] at h
      have ⟨l₁, hstep, hrest⟩ := bind_eq_ok.mp h
      have ⟨a, ha, hadd⟩ := bind_eq_ok.mp hstep
      have ⟨hnodup₁, hl₁⟩ := addNew_eq_ok hnodup hadd
      have ⟨hnodup', as, heq, has⟩ := ih hnodup₁ hrest
      refine ⟨hnodup', a :: as, ?_, .cons ha has⟩
      rw [heq, hl₁, List.append_assoc, List.singleton_append]

/-- The transitions are those that are written, in their order. -/
theorem transitionList_eq_ok {ts : List WrittenTransition} {tr : List (Transition Path)}
    (h : transitionList ts = .ok tr) :
    (tr.map Transition.name).Nodup ∧ tr = ts.map WrittenTransition.result := by
  have hstep : transitionList ts = ts.foldlM (fun tlist t => do
      let t ← (pure t.result : Parse (Transition Path))
      addNew Transition.name .duplicateTransition tlist t) [] := rfl
  rw [hstep] at h
  have hnil : (([] : List (Transition Path)).map Transition.name).Nodup := List.nodup_nil
  have ⟨hnodup, as, heq, has⟩ := foldlM_addNew hnil h
  rw [List.nil_append] at heq
  refine ⟨hnodup, heq.trans ?_⟩
  clear hnodup heq hstep h
  induction has with
  | nil => rfl
  | cons ha _ ih =>
      rw [pure_eq_ok] at ha
      rw [List.map_cons, ih, ha]

/-- The substates are those that are written, in their order. -/
theorem stateList_eq_ok (ss : List WrittenState) : ∀ {slist st : List (State Path)},
    (slist.map State.name).Nodup → stateList slist ss = .ok st →
    (st.map State.name).Nodup ∧
      ∃ new, st = slist ++ new ∧ List.Forall₂ (fun s s' => s.result = .ok s') ss new := by
  induction ss with
  | nil =>
      intro slist st hnodup h
      rw [stateList, pure_eq_ok] at h
      subst h
      exact ⟨hnodup, [], (List.append_nil _).symm, .nil⟩
  | cons s ss ih =>
      intro slist st hnodup h
      rw [stateList] at h
      have ⟨s', hs, h⟩ := bind_eq_ok.mp h
      have ⟨slist₁, hadd, h⟩ := bind_eq_ok.mp h
      have ⟨hnodup₁, hslist₁⟩ := addNew_eq_ok hnodup hadd
      have ⟨hnodup', new, heq, hnew⟩ := ih hnodup₁ h
      refine ⟨hnodup', s' :: new, ?_, .cons hs hnew⟩
      rw [heq, hslist₁, List.append_assoc, List.singleton_append]

/-! ### States -/

/-- The values of the parameters `history`, `region`, `shell` and `fin` in the call of the
constructor of `State`. -/
def Marks.flags (m : Marks) : Bool × Bool × Bool × Bool :=
  let s := m.action "" .empty (.statementList []) (.statementList []) [] []
  (s.history, s.region, s.shell, s.fin)

/-- What the actions make of a written state, field by field. -/
structure WrittenState.Yields (s : WrittenState) (s' : State Path) : Prop where
  name : s'.name = s.id.text
  declarations : declList s.declarations = .ok s'.declarations
  flags : (s'.history, s'.region, s'.shell, s'.fin) = s.marks.flags
  transitions : s'.transitions = s.transitions.map WrittenTransition.result
  states : List.Forall₂ (fun st st' => st.result = .ok st') s.states s'.states
  nodup : (s'.states.map State.name).Nodup ∧ (s'.transitions.map Transition.name).Nodup

theorem WrittenState.yields {s : WrittenState} {s' : State Path} (h : s.result = .ok s') :
    s.Yields s' := by
  cases s with
  | mk id marks declarations entry exit states transitions =>
      rw [result] at h
      obtain ⟨dlist, hdecls, h⟩ := bind_eq_ok.mp h
      obtain ⟨st, hstates, h⟩ := bind_eq_ok.mp h
      obtain ⟨tr, htransitions, h⟩ := bind_eq_ok.mp h
      rw [pure_eq_ok] at h
      subst h
      have hnil : (([] : List (State Path)).map State.name).Nodup := List.nodup_nil
      obtain ⟨hnodup, new, heq, hnew⟩ := stateList_eq_ok states hnil hstates
      rw [List.nil_append] at heq
      subst heq
      obtain ⟨htr, heq⟩ := transitionList_eq_ok htransitions
      subst heq
      cases marks <;> exact ⟨rfl, hdecls, rfl, rfl, hnew, hnodup, htr⟩

theorem WrittenState.stateAt_eq_nodeAt (root : WrittenState) (p : StateRef) :
    root.stateAt p = nodeAt WrittenState.states root p := by
  induction p with
  | nil => rfl
  | cons i p ih => rw [stateAt, nodeAt, ih]

/-- The tree that the actions build has the positions of the text, and the results of the states
at them. -/
theorem WrittenState.stateAt_result {root : WrittenState} {root' : State Path}
    (h : root.result = .ok root') (p : StateRef) :
    Option.Rel (fun s s' => s.result = .ok s') (root.stateAt p) (root'.stateAt p) := by
  rw [WrittenState.stateAt_eq_nodeAt, State.stateAt_eq_nodeAt]
  exact nodeAt_related (R := fun _ (s : WrittenState) s' => s.result = .ok s')
    (fun hresult => rel_getElem? (WrittenState.yields hresult).states) h p

/-- What is written about a state of a parsed statechart. -/
structure Parsed (statechart : State Path) (s : WrittenState) (s' : State Path) : Prop where
  name : s'.name = s.id.text
  declarations : declList s.declarations = .ok s'.declarations
  flags : (s'.history, s'.region, s'.shell, s'.fin) = s.marks.flags
  transitions : List.Forall₂
    (fun t t' => setSourceDestinationStates statechart t.result = .ok t')
    s.transitions s'.transitions
  nodup : (s.transitions.map fun t => t.id.text).Nodup
  length : s.states.length = s'.states.length

/-- A parsed statechart has the positions of its text, and the states written at them. -/
theorem parsed_related {sc : WrittenStatechart} {statechart : Statechart}
    (h : sc.result = .ok statechart) : ∃ root, ∀ p : StateRef,
      Option.Rel (Parsed root) (sc.root.stateAt p) (statechart.root.stateAt p) := by
  have ⟨root, hroot, hinit, _⟩ := WrittenStatechart.result_eq_ok h
  refine ⟨root, fun p => ?_⟩
  refine rel_trans (WrittenState.stateAt_result hroot p) (State.stateAt_initialised hinit p)
    fun {s s₁ s'} hresult hinit₁ => ?_
  have hyields := WrittenState.yields hresult
  have hinitialised := State.initialised hinit₁
  refine ⟨hinitialised.name.trans hyields.name, ?_, ?_, ?_, ?_, ?_⟩
  · rw [hinitialised.declarations]
    exact hyields.declarations
  · exact hinitialised.marks.trans hyields.flags
  · have htransitions := hinitialised.transitions
    rw [hyields.transitions] at htransitions
    exact List.forall₂_map_left_iff.mp htransitions
  · have hnodup := hyields.nodup.2
    rw [hyields.transitions, List.map_map] at hnodup
    exact hnodup
  · exact hyields.states.length_eq.trans hinitialised.states.length_eq

/-- Every state of a parsed statechart is written at its position. -/
theorem stateAt_parsed {sc : WrittenStatechart} {statechart : Statechart}
    (h : sc.result = .ok statechart) : ∃ root, ∀ {p : StateRef} {s' : State Path},
      statechart.root.stateAt p = some s' → ∃ s, sc.root.stateAt p = some s ∧ Parsed root s s' := by
  have ⟨root, hrelated⟩ := parsed_related h
  exact ⟨root, fun hs => exists_left (hrelated _) hs⟩

/-- What holds of the states written at the positions of a parsed statechart holds of every
written state. -/
theorem forall_written {sc : WrittenStatechart} {statechart : Statechart}
    (h : sc.result = .ok statechart) {P : WrittenState → Prop}
    (hP : ∀ p ∈ statechart.root.positions [], ∀ s ∈ sc.root.stateAt p, P s) :
    ∀ p s, sc.root.stateAt p = some s → P s := by
  intro p s hs
  have ⟨root, hrelated⟩ := parsed_related h
  have ⟨s', hs', _⟩ := exists_right (hrelated p) hs
  exact hP p (State.mem_positions (by rw [hs']; rfl)) s hs

/-- A transition of a parsed statechart is written in its state, under its name and with the
trigger that the clause says. -/
theorem transition_parsed {sc : WrittenStatechart} {statechart : Statechart}
    (h : sc.result = .ok statechart) {p : StateRef} {t' : Transition Path}
    (ht : t' ∈ statechart.root.transitionsAt p) {s : WrittenState}
    (hs : sc.root.stateAt p = some s) {t : WrittenTransition} (hmem : t ∈ s.transitions)
    (hname : t.id.text = t'.name) : t'.trigger = triggerClause t.trigger := by
  have ⟨root, hparsed⟩ := stateAt_parsed h
  unfold State.transitionsAt at ht
  split at ht
  · rename_i s' hs'
    have ⟨s₀, hs₀, hp⟩ := hparsed hs'
    rw [hs, Option.some.injEq] at hs₀
    subst hs₀
    have ⟨t₀, ht₀, hset⟩ := forall₂_mem_right hp.transitions ht
    have ⟨hname₀, htrigger⟩ : t'.name = t₀.id.text ∧ t'.trigger = triggerClause t₀.trigger := by
      unfold setSourceDestinationStates at hset
      split at hset
      · cases hset
      · split at hset
        · cases hset
        · rw [Except.ok.injEq] at hset
          subst hset
          exact ⟨rfl, rfl⟩
    -- The state has one transition of this name.
    have hsame : t = t₀ := List.inj_on_of_nodup_map hp.nodup hmem ht₀ (hname.trans hname₀)
    rw [hsame]
    exact htrigger
  · cases ht

/-- What the parser makes of a text that it accepts. -/
def parsed (sc : WrittenStatechart) : Statechart :=
  getD sc.result ⟨plainState "", [], [], [], by decide⟩

end Stabl
