import Mathlib.Data.List.Nodup
import Mathlib.Data.List.Flatten
import Stabl.Proofs.Frontend.Accepted
import Stabl.Proofs.Frontend.Parsed
import Stabl.Simulator.SymbolicEngine

/-!
# `Stabl.Proofs.Simulator.SymbolicEngine`: which input variables get a symbol

The calls of `populate` put the symbols of one list of declarations (`symbolMap_eq`), and the
tag of a declaration is its index in that list (`putSymbol_foldl`). The list has the input
variables of the statechart and of its substates, but not those further down, so every input
variable has its own symbol just when there are none further down (`ownSymbols_iff`).
-/

set_option autoImplicit false

namespace Stabl

open SymbolicEngine

variable {ν : Type}

/-! ### Tags -/

/-- The tags are the indices in the list of keys, counted on from the first tag. -/
theorem putSymbol_foldl {keys : List DeclarationRef} (hnodup : keys.Nodup) :
    ∀ (acc : SymbolMap × Nat) (d : DeclarationRef), (keys.foldl putSymbol acc).1 d =
      if d ∈ keys then some ⟨d, acc.2 + keys.idxOf d⟩ else acc.1 d := by
  induction keys with
  | nil => simp
  | cons k keys ih =>
      intro acc d
      have ⟨hk, htail⟩ := List.nodup_cons.mp hnodup
      rw [List.foldl_cons, ih htail]
      by_cases hd : d = k
      · subst hd
        simp [hk, putSymbol]
      · have hindex : (k :: keys).idxOf d = keys.idxOf d + 1 :=
          List.idxOf_cons_ne _ (Ne.symm hd)
        simp [hd, hindex, putSymbol, Nat.add_assoc, Nat.add_comm 1]

/-! ### The declarations that are reached -/

/-- The input variables of a state. -/
def State.inputs (p : StateRef) (s : State ν) : List DeclarationRef :=
  (s.declarations.toList.filter Declaration.input).map fun d => ⟨p, d.vname⟩

theorem State.mem_inputs {p : StateRef} {s : State ν} {d : DeclarationRef} :
    d ∈ s.inputs p ↔
      ∃ dec ∈ s.declarations.toList, dec.input = true ∧ d = ⟨p, dec.vname⟩ := by
  simp only [State.inputs, List.mem_map, List.mem_filter, and_assoc, eq_comm]

theorem State.nodup_inputs (p : StateRef) (s : State ν) : (s.inputs p).Nodup := by
  have hnames : ((s.declarations.toList.filter Declaration.input).map Declaration.vname).Nodup :=
    s.declarations.nodup.sublist (List.filter_sublist.map _)
  refine List.Nodup.of_map DeclarationRef.vname ?_
  rw [State.inputs, List.map_map]
  exact hnames

theorem State.state_of_mem_inputs {p : StateRef} {s : State ν} {d : DeclarationRef}
    (hd : d ∈ s.inputs p) : d.state = p := by
  obtain ⟨dec, _, _, rfl⟩ := State.mem_inputs.mp hd
  rfl

/-- `populate` puts the input variables of the state. -/
theorem populate_eq (p : StateRef) (s : State ν) (acc : SymbolMap × Nat) :
    SymbolicEngine.populate p s acc = (s.inputs p).foldl putSymbol acc := by
  rw [State.inputs, List.foldl_map, List.foldl_filter]
  rfl

/-- The input variables of the statechart and of its substates. -/
def upperInputs (root : State ν) : List DeclarationRef :=
  root.inputs [] ++ root.states.zipIdx.flatMap fun (s, i) => s.inputs [i]

/-- The constructor puts the upper input variables, in this order. -/
theorem symbolMap_eq (root : State ν) :
    symbolMap root = ((upperInputs root).foldl putSymbol (fun _ => none, 0)).1 := by
  have hloop : ∀ (l : List (State ν × Nat)) (acc : SymbolMap × Nat),
      l.foldl (fun acc (s, i) => SymbolicEngine.populate [i] s acc) acc =
        (l.flatMap fun (s, i) => s.inputs [i]).foldl putSymbol acc := by
    intro l
    induction l with
    | nil => simp
    | cons x l ih =>
        intro acc
        rw [List.foldl_cons, ih, List.flatMap_cons, List.foldl_append]
        exact congrArg (List.foldl putSymbol · _) (populate_eq [x.2] x.1 acc)
  rw [symbolMap, hloop, populate_eq, upperInputs, List.foldl_append]

/-! ### Every input variable has its own symbol -/

/-- The variables that are marked as input, of all states of the tree. -/
def treeInputs (root : State ν) : List DeclarationRef :=
  (root.positions []).flatMap fun p =>
    ((root.declarationsAt p).filter Declaration.input).map fun dec => ⟨p, dec.vname⟩

theorem mem_treeInputs {root : State ν} {d : DeclarationRef} :
    d ∈ treeInputs root ↔
      ∃ dec ∈ root.declarationsAt d.state, dec.input = true ∧ dec.vname = d.vname := by
  simp only [treeInputs, List.mem_flatMap, List.mem_map, List.mem_filter]
  constructor
  · rintro ⟨p, _, dec, ⟨hdec, hinput⟩, rfl⟩
    exact ⟨dec, hdec, hinput, rfl⟩
  · rintro ⟨dec, hdec, hinput, hname⟩
    obtain ⟨s, hs, _⟩ := State.exists_of_mem_declarationsAt hdec
    exact ⟨d.state, State.mem_positions (by simp [hs]), dec, ⟨hdec, hinput⟩, by rw [hname]⟩

theorem nodup_treeInputs (root : State ν) : (treeInputs root).Nodup := by
  refine List.nodup_flatMap.mpr ⟨fun p _ => ?_, (root.nodup_positions []).imp ?_⟩
  · refine List.Nodup.of_map DeclarationRef.vname ?_
    rw [List.map_map]
    exact (root.nodup_declarationsAt p).sublist (List.filter_sublist.map _)
  · intro p q hpq d hp hq
    obtain ⟨dec, _, rfl⟩ := List.mem_map.mp hp
    obtain ⟨dec', _, heq⟩ := List.mem_map.mp hq
    exact hpq (congrArg DeclarationRef.state heq).symm

/-- The upper input variables are those of the statechart and of the states directly below
it. -/
theorem mem_upperInputs {root : State ν} {d : DeclarationRef} :
    d ∈ upperInputs root ↔ d ∈ treeInputs root ∧ d.state.length ≤ 1 := by
  have hinputs : ∀ {p : StateRef} {s : State ν}, root.stateAt p = some s →
      (d ∈ s.inputs p ↔ d ∈ treeInputs root ∧ d.state = p) := by
    intro p s hs
    have hdeclarations : root.declarationsAt p = s.declarations.toList := by
      rw [State.declarationsAt, hs]
    rw [State.mem_inputs, mem_treeInputs]
    constructor
    · rintro ⟨dec, hdec, hinput, rfl⟩
      exact ⟨⟨dec, by rwa [hdeclarations], hinput, rfl⟩, rfl⟩
    · rintro ⟨⟨dec, hdec, hinput, hname⟩, rfl⟩
      exact ⟨dec, by rwa [← hdeclarations], hinput, by rw [hname]⟩
  have hsubstate : ∀ i : Nat, root.stateAt [i] = root.states[i]? := fun i => rfl
  simp only [upperInputs, List.mem_append, List.mem_flatMap, List.mem_zipIdx_iff_getElem?,
    hinputs root.stateAt_nil]
  constructor
  · rintro (⟨hd, hstate⟩ | ⟨⟨s, i⟩, hs, hd⟩)
    · exact ⟨hd, by simp [hstate]⟩
    · obtain ⟨hd, hstate⟩ := (hinputs ((hsubstate i).trans hs)).mp hd
      exact ⟨hd, by simp [hstate]⟩
  · rintro ⟨hd, hlength⟩
    obtain ⟨state, vname⟩ := d
    cases state with
    | nil => exact Or.inl ⟨hd, rfl⟩
    | cons i above =>
        obtain rfl : above = [] := List.length_eq_zero_iff.mp (Nat.le_zero.mp
          (Nat.le_of_succ_le_succ hlength))
        obtain ⟨dec, hdec, _⟩ := mem_treeInputs.mp hd
        obtain ⟨s, hs, _⟩ := State.exists_of_mem_declarationsAt hdec
        exact Or.inr ⟨(s, i), (hsubstate i).symm.trans hs, (hinputs hs).mpr ⟨hd, rfl⟩⟩

theorem nodup_upperInputs (root : State ν) : (upperInputs root).Nodup := by
  refine List.nodup_append.mpr ⟨root.nodup_inputs [], ?_, ?_⟩
  · refine List.nodup_flatMap.mpr ⟨fun x _ => x.1.nodup_inputs [x.2], ?_⟩
    have hindices : (root.states.zipIdx.map Prod.snd).Nodup := by
      rw [List.zipIdx_map_snd]
      exact List.nodup_range'
    refine (List.pairwise_map.mp hindices).imp fun hne d hd hd' => hne ?_
    have hstate := (State.state_of_mem_inputs hd).symm.trans (State.state_of_mem_inputs hd')
    exact (List.cons.inj hstate).1
  · intro d hd d' hd' heq
    obtain ⟨x, _, hx⟩ := List.mem_flatMap.mp hd'
    have hroot := State.state_of_mem_inputs hd
    have hsubstate := State.state_of_mem_inputs hx
    rw [heq, hsubstate] at hroot
    cases hroot

/-- The map has an entry for just the input variables of the tree, each entry is about its own
variable, and the tags are distinct and are the first natural numbers. -/
structure OwnSymbols (root : State ν) (symbols : SymbolMap) : Prop where
  keys : ∀ d, (symbols d).isSome ↔ d ∈ treeInputs root
  declaration : ∀ d s, symbols d = some s → s.declaration = d
  distinct : ∀ d d' s s', symbols d = some s → symbols d' = some s' → s.tag = s'.tag → d = d'
  tags : ∀ i, (∃ d s, symbols d = some s ∧ s.tag = i) ↔ i < (treeInputs root).length

/-- The entry of a variable: there is one for the upper input variables. -/
theorem symbolMap_apply (root : State ν) (d : DeclarationRef) :
    symbolMap root d =
      if d ∈ upperInputs root then some ⟨d, (upperInputs root).idxOf d⟩ else none := by
  rw [symbolMap_eq, putSymbol_foldl (nodup_upperInputs root)]
  simp

theorem symbolMap_eq_some {root : State ν} {d : DeclarationRef} {s : Symbol} :
    symbolMap root d = some s ↔
      d ∈ upperInputs root ∧ s = ⟨d, (upperInputs root).idxOf d⟩ := by
  rw [symbolMap_apply, Option.ite_none_right_eq_some, Option.some.injEq, eq_comm (b := s)]

/-- Every input variable has its own symbol just when no state below the substates of the
statechart declares an input variable. -/
theorem ownSymbols_iff (root : State ν) : OwnSymbols root (symbolMap root) ↔
    ∀ p : StateRef, 2 ≤ p.length → ∀ dec ∈ root.declarationsAt p, dec.input = false := by
  constructor
  · intro h p hp dec hdec
    -- An input variable that far down is a key of the map, and the map has upper ones only.
    by_contra hinput
    have hd : (⟨p, dec.vname⟩ : DeclarationRef) ∈ treeInputs root :=
      mem_treeInputs.mpr ⟨dec, hdec, by simpa using hinput, rfl⟩
    obtain ⟨s, hs⟩ := Option.isSome_iff_exists.mp ((h.keys _).mpr hd)
    have hupper := (mem_upperInputs.mp (symbolMap_eq_some.mp hs).1).2
    show False
    simp only at hupper
    omega
  · intro h
    have hmem : ∀ d, d ∈ upperInputs root ↔ d ∈ treeInputs root := by
      intro d
      rw [mem_upperInputs, and_iff_left_iff_imp]
      intro hd
      obtain ⟨dec, hdec, hinput, _⟩ := mem_treeInputs.mp hd
      by_contra hlength
      have hnot := h d.state (by omega) dec hdec
      rw [hinput] at hnot
      cases hnot
    -- The two lists may have different orders: the tags follow that of the upper ones.
    have hcount : (upperInputs root).length = (treeInputs root).length :=
      ((List.perm_ext_iff_of_nodup (nodup_upperInputs root) (nodup_treeInputs root)).mpr
        hmem).length_eq
    refine ⟨fun d => ?_, fun d s hs => ?_, fun d d' s s' hs hs' htag => ?_, fun i => ?_⟩
    · rw [symbolMap_apply, ← hmem]
      split <;> simp_all
    · obtain ⟨_, rfl⟩ := symbolMap_eq_some.mp hs
      rfl
    · obtain ⟨hd, rfl⟩ := symbolMap_eq_some.mp hs
      obtain ⟨_, rfl⟩ := symbolMap_eq_some.mp hs'
      exact (List.idxOf_inj hd).mp htag
    · rw [← hcount]
      constructor
      · rintro ⟨d, s, hs, rfl⟩
        obtain ⟨hd, rfl⟩ := symbolMap_eq_some.mp hs
        exact List.idxOf_lt_length_of_mem hd
      · intro hi
        refine ⟨(upperInputs root)[i], _, symbolMap_eq_some.mpr ⟨List.getElem_mem hi, rfl⟩, ?_⟩
        exact List.Nodup.idxOf_getElem (nodup_upperInputs root) i hi

/-- A burner in a heater, and a flame in the burner that reads its heat. -/
def heater : WrittenStatechart where
  types := []
  events := []
  functions := []
  root := .mk ⟨"Heater", by decide, by decide⟩ .unmarked [] none none
    [.mk ⟨"Burner", by decide, by decide⟩ .unmarked [] none none
      [.mk ⟨"Flame", by decide, by decide⟩ .unmarked
        [.input ⟨"heat", by decide, by decide⟩ (.mk "int" [])] none none [] []] []]
    []
  marks := Or.inl rfl

/-- The heater is accepted, and its flame's input variable gets no symbol. -/
theorem heater_not_ownSymbols : heater.result = .ok (parsed heater) ∧
    typecheck (parsed heater) = .ok (accepted (parsed heater)) ∧
    ¬ OwnSymbols (accepted (parsed heater)).root (symbolMap (accepted (parsed heater)).root) := by
  refine ⟨Result.eq_ok_getD (by decide) _, Result.eq_ok_getD (by decide) _, fun h => ?_⟩
  have hheat : (⟨[0, 0], "heat"⟩ : DeclarationRef) ∈
      treeInputs (accepted (parsed heater)).root := by decide
  have hnone : symbolMap (accepted (parsed heater)).root ⟨[0, 0], "heat"⟩ = none := by decide
  have hsome := (h.keys _).mpr hheat
  rw [hnone] at hsome
  cases hsome

end Stabl
