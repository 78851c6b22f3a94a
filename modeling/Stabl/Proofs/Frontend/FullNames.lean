import Stabl.Proofs.Frontend.FieldNames
import Stabl.Proofs.Frontend.Lexemes
import Stabl.Proofs.Frontend.Parsed
import Stabl.Proofs.Frontend.TypeIdentity

/-!
# `Stabl.Proofs.Frontend.FullNames`: fully qualified names

A full name is the list of the names on the chain of a state, written with dots
(`getFullName_eq`). An identifier has no dot in it, so the list can be read off the full name
again (`components_intercalate`). In an accepted statechart the substates and the variables of a
state have distinct names, and so `nameToState` follows the list to the state
(`nameToState_chainNames`), and `getDeclarationInState` follows it to a variable
(`getDeclarationInState_append`). A function with a left inverse is injective, and that is the
rest of `fullNames_resolve`.
-/

set_option autoImplicit false

namespace Stabl

open Result

/-! ### Dots -/

/-- The components of a dotted name. -/
def components (full : String) : Path := (full.toList.splitOn '.').map String.ofList

/-- The components of a dotted name are the names between the dots. -/
theorem components_intercalate {n : Path} (hne : n ≠ []) (hdots : ∀ x ∈ n, '.' ∉ x.toList) :
    components (".".intercalate n) = n := by
  have hsplit : ((['.'] : List Char).intercalate (n.map String.toList)).splitOn '.' =
      n.map String.toList := by
    refine List.splitOn_intercalate '.' (fun l hl => ?_) (by simpa using hne)
    have ⟨x, hx, heq⟩ := List.mem_map.mp hl
    exact heq ▸ hdots x hx
  have hlist : (".".intercalate n).toList = ['.'].intercalate (n.map String.toList) :=
    String.toList_intercalate
  rw [components, hlist, hsplit, List.map_map]
  simp

/-- An identifier has no dot in it. -/
theorem Identifier.dot_not_mem (id : Identifier) : '.' ∉ id.text.toList := by
  intro hdot
  have hword := Lexer.wordChar_of_isIdentifier id.wellFormed '.' hdot
  revert hword
  decide

/-! ### The names on a chain -/

section
variable {ν : Type} (root : State ν)

/-- The names on the chain of a state, the statechart's first. -/
def chainNames : StateRef → Option Path
  | [] => some [root.name]
  | i :: p => do
    let super ← chainNames p
    let s ← root.stateAt (i :: p)
    pure (super ++ [s.name])

variable {root}

theorem chainNames_ne_nil {p : StateRef} {n : Path} (h : chainNames root p = some n) : n ≠ [] := by
  cases p with
  | nil =>
      cases h
      exact List.cons_ne_nil _ _
  | cons i p =>
      have ⟨super, _, hrest⟩ := Option.bind_eq_some_iff.mp h
      have ⟨s, _, heq⟩ := Option.bind_eq_some_iff.mp hrest
      cases heq
      simp

/-- Every state of the tree has a full name. -/
theorem exists_chainNames {p : StateRef} {s : State ν} (hs : root.stateAt p = some s) :
    ∃ n, chainNames root p = some n := by
  induction p generalizing s with
  | nil => exact ⟨_, rfl⟩
  | cons i p ih =>
      have ⟨super, hsuper, _⟩ := Option.bind_eq_some_iff.mp (root.stateAt_cons i p ▸ hs)
      have ⟨n, hn⟩ := ih hsuper
      exact ⟨n ++ [s.name], by rw [chainNames, hn, hs]; rfl⟩

/-- The full name of a state is its chain, written with dots. -/
theorem getFullName_eq (p : StateRef) :
    getFullName root p = (chainNames root p).map (".".intercalate ·) := by
  induction p with
  | nil =>
      rw [getFullName, chainNames, Option.map_some, String.intercalate_singleton]
  | cons i p ih =>
      rw [getFullName, chainNames, ih]
      cases hn : chainNames root p with
      | none => rfl
      | some n =>
          cases root.stateAt (i :: p) with
          | none => rfl
          | some s =>
              have happend : ".".intercalate (n ++ [s.name]) =
                  ".".intercalate n ++ "." ++ s.name := by
                rw [String.intercalate_append_of_ne_nil (chainNames_ne_nil hn) (by simp),
                  String.intercalate_singleton]
              show some (".".intercalate n ++ "." ++ s.name) =
                some (".".intercalate (n ++ [s.name]))
              rw [happend]

/-- The names on a chain are names of states of the tree. -/
theorem mem_chainNames {p : StateRef} {n : Path} (h : chainNames root p = some n) {x : String}
    (hx : x ∈ n) : ∃ q s, root.stateAt q = some s ∧ s.name = x := by
  induction p generalizing n with
  | nil =>
      cases h
      exact ⟨[], root, rfl, (List.mem_singleton.mp hx).symm⟩
  | cons i p ih =>
      have ⟨super, hsuper, hrest⟩ := Option.bind_eq_some_iff.mp h
      have ⟨s, hs, heq⟩ := Option.bind_eq_some_iff.mp hrest
      cases heq
      rcases List.mem_append.mp hx with hx | hx
      · exact ih hsuper hx
      · exact ⟨i :: p, s, hs, (List.mem_singleton.mp hx).symm⟩

end

/-! ### Following the names -/

/-- The variables and the substates of every state have distinct names. -/
def NamesDistinct {ν : Type} (root : State ν) : Prop :=
  ∀ p s, root.stateAt p = some s →
    (s.declarations.toList.map Declaration.vname ++ s.states.map State.name).Nodup

section
variable {ν : Type} {root : State ν}

/-- Among substates with distinct names, the name of a substate leads to it. -/
theorem findIdx?_name {ss : List (State ν)} (hnodup : (ss.map State.name).Nodup) {i : Nat}
    {s : State ν} (hs : ss[i]? = some s) :
    ss.findIdx? (fun st => decide (st.name = s.name)) = some i := by
  have ⟨hi, hget⟩ := List.getElem?_eq_some_iff.mp hs
  refine List.findIdx?_eq_some_iff_getElem.mpr ⟨hi, by simp [hget], fun j hj => ?_⟩
  rw [decide_eq_true_eq]
  intro hname
  have hlt : j < ss.length := by omega
  have hi' : i < (ss.map State.name).length := by simpa using hi
  have hj' : j < (ss.map State.name).length := by simpa using hlt
  have hsame : (ss.map State.name)[j] = (ss.map State.name)[i] := by simp [hget, hname]
  have hij := (List.Nodup.getElem_inj_iff hnodup).mp hsame
  omega

/-- Following names is following the first of them, and then the others. -/
theorem State.nameToState_append (rest rest' : Path) : ∀ {s sq : State ν} {p q : StateRef},
    root.stateAt p = some s → s.nameToState p rest = some q → root.stateAt q = some sq →
      s.nameToState p (rest ++ rest') = sq.nameToState q rest' := by
  induction rest with
  | nil =>
      intro s sq p q hs h hq
      obtain rfl : p = q := Option.some.inj h
      obtain rfl : s = sq := Option.some.inj (hs.symm.trans hq)
      rfl
  | cons n rest ih =>
      intro s sq p q hs h hq
      rw [nameToState] at h
      rw [List.cons_append, nameToState]
      split at h
      · cases h
      · rename_i i hi
        split at h
        · cases h
        · rename_i st hst
          exact ih (by rw [stateAt_cons, hs]; exact hst) h hq

/-- The names on the chain of a state, followed from the statechart, lead to the state. -/
theorem nameToState_chainNames (h : NamesDistinct root) {p : StateRef} {n : Path}
    (hn : chainNames root p = some n) : ∃ rest, n = root.name :: rest ∧
      root.nameToState [] rest = some p := by
  induction p generalizing n with
  | nil =>
      cases hn
      exact ⟨[], rfl, rfl⟩
  | cons i p ih =>
      have ⟨super, hsuper, hrest⟩ := Option.bind_eq_some_iff.mp hn
      have ⟨s, hs, heq⟩ := Option.bind_eq_some_iff.mp hrest
      have ⟨rest, hsplit, hwalk⟩ := ih hsuper
      cases heq
      refine ⟨rest ++ [s.name], by rw [hsplit, List.cons_append], ?_⟩
      have ⟨sp, hsp, hchild⟩ := Option.bind_eq_some_iff.mp (root.stateAt_cons i p ▸ hs)
      have hnodup := (List.nodup_append.mp (h p sp hsp)).2.1
      rw [State.nameToState_append rest [s.name] rfl hwalk hsp, State.nameToState,
        findIdx?_name hnodup hchild]
      simp only [hchild]
      rfl

/-- Two states with one chain of names are one state. -/
theorem chainNames_injective (h : NamesDistinct root) {p q : StateRef} {n : Path}
    (hp : chainNames root p = some n) (hq : chainNames root q = some n) : p = q := by
  have ⟨rest, hsplit, hwalk⟩ := nameToState_chainNames h hp
  have ⟨rest', hsplit', hwalk'⟩ := nameToState_chainNames h hq
  have hrest : rest = rest' := (List.cons.inj (hsplit.symm.trans hsplit')).2
  rw [hrest, hwalk', Option.some.injEq] at hwalk
  exact hwalk.symm

/-- The name of a variable is not the name of a substate beside it. -/
theorem findSubstateByName_vname (h : NamesDistinct root) {p : StateRef} {s : State ν}
    (hs : root.stateAt p = some s) {d : Declaration} (hd : d ∈ s.declarations.toList) :
    s.findSubstateByName d.vname = none := by
  refine List.findIdx?_eq_none_iff.mpr fun st hst => ?_
  rw [decide_eq_false_iff_not]
  intro hname
  exact (List.nodup_append.mp (h p s hs)).2.2 _ (List.mem_map_of_mem hd) _
    (List.mem_map_of_mem hst) hname.symm

/-- The chain of a state, with a variable's name behind it, is no chain of a state. -/
theorem chainNames_ne_variable (h : NamesDistinct root) {p q : StateRef} {n : Path}
    {d : Declaration} (hq : chainNames root q = some n) (hd : d ∈ root.declarationsAt q) :
    chainNames root p ≠ some (n ++ [d.vname]) := by
  intro hp
  have ⟨s, hs, hmem⟩ := State.exists_of_mem_declarationsAt hd
  have ⟨rest, hsplit, hwalk⟩ := nameToState_chainNames h hq
  have ⟨rest', hsplit', hwalk'⟩ := nameToState_chainNames h hp
  rw [hsplit, List.cons_append] at hsplit'
  rw [← (List.cons.inj hsplit').2, State.nameToState_append rest [d.vname] rfl hwalk hs,
    State.nameToState] at hwalk'
  have hnone : s.states.findIdx? (fun st => decide (st.name = d.vname)) = none :=
    findSubstateByName_vname h hs hmem
  simp [hnone] at hwalk'

end

/-- The walk to a state, with a variable's name behind it, ends at the variable. The names after
it are left. -/
theorem getDeclarationInState_append {root : State Path} (h : NamesDistinct root) (rest : Path) :
    ∀ {s sq : State Path} {p q : StateRef}, root.stateAt p = some s →
      s.nameToState p rest = some q → root.stateAt q = some sq →
      ∀ {d : Declaration}, d ∈ sq.declarations.toList → ∀ first path,
        Declared.getDeclarationInState p s (first :: (rest ++ d.vname :: path)) =
          some ((⟨q, d.vname⟩, d), d.vname :: path) := by
  induction rest with
  | nil =>
      intro s sq p q hs hwalk hq d hd first path
      obtain rfl : p = q := Option.some.inj hwalk
      obtain rfl : s = sq := Option.some.inj (hs.symm.trans hq)
      have hlookup : s.declarations.lookup d.vname = some d := by
        have ⟨d', hd'⟩ := Option.isSome_iff_exists.mp
          (List.find?_isSome.mpr ⟨d, hd, by simp⟩ :
            (s.declarations.toList.find? fun d' => decide (d'.vname = d.vname)).isSome)
        have hname : d'.vname = d.vname := by simpa using List.find?_some hd'
        have hsame : d' = d := List.inj_on_of_nodup_map s.declarations.nodup
          (List.mem_of_find?_eq_some hd') hd hname
        exact hsame ▸ hd'
      rw [List.nil_append, Declared.getDeclarationInState, findSubstateByName_vname h hs hd,
        hlookup]
      rfl
  | cons n rest ih =>
      intro s sq p q hs hwalk hq d hd first path
      rw [State.nameToState] at hwalk
      rw [List.cons_append, Declared.getDeclarationInState, State.findSubstateByName]
      split at hwalk
      · cases hwalk
      · rename_i i hi
        simp only [hi]
        split at hwalk
        · cases hwalk
        · rename_i st hst
          simp only [hst]
          exact ih (by rw [State.stateAt_cons, hs]; exact hst) hwalk hq hd n path

/-! ### Accepted statecharts -/

section
variable {sc : WrittenStatechart} {statechart : Statechart} {c : CheckedStatechart}

/-- Acceptance checks the names in every state. -/
theorem namesDistinct_of_accepted (hc : typecheck statechart = .ok c) :
    NamesDistinct statechart.root := by
  intro p s hs
  have ⟨d, _, hroot, _, hcheck⟩ := typecheck_eq_ok hc
  rw [← hroot] at hs
  have ⟨s', hs'⟩ := Declared.stateAt_source hcheck hs
  have ⟨s₀, hs₀, hstate⟩ := Declared.stateAt_accepted hcheck hs'
  obtain rfl : s₀ = s := Option.some.inj (hs₀.symm.trans hs)
  exact (List.nodup_append.mp (Declared.typecheckedState hstate).names).1

/-- The name of a written variable is an identifier. -/
theorem WrittenDecl.result_identifier {decl : WrittenDecl} {d : Declaration}
    (h : decl.result = .ok d) : ∃ id : Identifier, d.vname = id.text := by
  cases decl with
  | normal id typeName scope =>
      have ⟨sid, _, hrest⟩ := bind_eq_ok.mp h
      rw [pure_eq_ok] at hrest
      exact ⟨id, hrest ▸ rfl⟩
  | input id typeName =>
      rw [WrittenDecl.result, pure_eq_ok] at h
      exact ⟨id, h ▸ rfl⟩

/-- The names of the variables of a list of declarations are identifiers. -/
theorem declList_identifier {decls : List WrittenDecl} {dlist : DeclarationList}
    (h : declList decls = .ok dlist) :
    ∀ d ∈ dlist.toList, ∃ id : Identifier, d.vname = id.text := by
  refine foldlM_preserves (P := fun dlist : DeclarationList =>
    ∀ d ∈ dlist.toList, ∃ id : Identifier, d.vname = id.text) ?_ (List.forall_mem_nil _) h
  intro decl _ l l' hl hstep
  have ⟨d, hd, hadd⟩ := bind_eq_ok.mp hstep
  unfold addDeclaration at hadd
  split at hadd
  · rename_i l₁ hl₁
    rw [Except.ok.injEq] at hadd
    subst hadd
    unfold DeclarationList.add at hl₁
    split at hl₁
    · cases hl₁
    · rw [Option.some.injEq] at hl₁
      subst hl₁
      refine List.forall_mem_append.mpr ⟨hl, fun d' hd' => ?_⟩
      rw [List.mem_singleton.mp hd']
      exact WrittenDecl.result_identifier hd
  · cases hadd

/-- No name of a state has a dot in it. -/
theorem dot_not_mem_state (hparse : sc.result = .ok statechart) {p : StateRef} {s : State Path}
    (hs : statechart.root.stateAt p = some s) : '.' ∉ s.name.toList := by
  have ⟨root, hparsed⟩ := stateAt_parsed hparse
  have ⟨s₀, _, h⟩ := hparsed hs
  rw [h.name]
  exact s₀.id.dot_not_mem

/-- No name of a variable has a dot in it. -/
theorem dot_not_mem_variable (hparse : sc.result = .ok statechart) {p : StateRef} {d : Declaration}
    (hd : d ∈ statechart.root.declarationsAt p) : '.' ∉ d.vname.toList := by
  have ⟨root, hparsed⟩ := stateAt_parsed hparse
  have ⟨s, hs, hmem⟩ := State.exists_of_mem_declarationsAt hd
  have ⟨s₀, _, h⟩ := hparsed hs
  have ⟨id, hid⟩ := declList_identifier h.declarations d hmem
  rw [hid]
  exact id.dot_not_mem

/-- The components of the full name of a state are the names on its chain. -/
theorem components_getFullName (hparse : sc.result = .ok statechart) {p : StateRef} {full : String}
    (h : getFullName statechart.root p = some full) :
    chainNames statechart.root p = some (components full) := by
  rw [getFullName_eq] at h
  have ⟨n, hn, heq⟩ := Option.map_eq_some_iff.mp h
  rw [← heq, components_intercalate (chainNames_ne_nil hn)]
  · exact hn
  · intro x hx
    have ⟨q, s, hs, hname⟩ := mem_chainNames hn hx
    exact hname ▸ dot_not_mem_state hparse hs

/-- The components of the full name of a variable are the names on the chain of its state, and
its own. -/
theorem components_getFullVName (hparse : sc.result = .ok statechart) {p : StateRef}
    {d : Declaration} (hd : d ∈ statechart.root.declarationsAt p) {full : String}
    (h : getFullVName statechart.root ⟨p, d.vname⟩ = some full) :
    ∃ n, chainNames statechart.root p = some n ∧ components full = n ++ [d.vname] := by
  have ⟨state, hstate, heq⟩ := Option.bind_eq_some_iff.mp h
  rw [getFullName_eq] at hstate
  have ⟨n, hn, hdots⟩ := Option.map_eq_some_iff.mp hstate
  refine ⟨n, hn, ?_⟩
  have hfull : full = ".".intercalate (n ++ [d.vname]) := by
    rw [String.intercalate_append_of_ne_nil (chainNames_ne_nil hn) (by simp),
      String.intercalate_singleton, hdots]
    exact (Option.some.inj heq).symm
  rw [hfull, components_intercalate (by simp)]
  intro x hx
  rcases List.mem_append.mp hx with hx | hx
  · have ⟨q, s, hs, hname⟩ := mem_chainNames hn hx
    exact hname ▸ dot_not_mem_state hparse hs
  · rw [List.mem_singleton.mp hx]
    exact dot_not_mem_variable hparse hd

/-- A variable has a full name: the names on the chain of its state, and its own. -/
theorem exists_getFullVName (hparse : sc.result = .ok statechart) {p : StateRef} {d : Declaration}
    (hd : d ∈ statechart.root.declarationsAt p) : ∃ full n,
      getFullVName statechart.root ⟨p, d.vname⟩ = some full ∧
      chainNames statechart.root p = some n ∧ components full = n ++ [d.vname] := by
  have ⟨s, hs, _⟩ := State.exists_of_mem_declarationsAt hd
  have ⟨n, hn⟩ := exists_chainNames hs
  have hfull : getFullVName statechart.root ⟨p, d.vname⟩ =
      some (".".intercalate n ++ "." ++ d.vname) := by
    rw [getFullVName, getFullName_eq, hn]
    rfl
  have ⟨n', hn', hcomponents⟩ := components_getFullVName hparse hd hfull
  exact ⟨_, n', hfull, hn', hcomponents⟩

/-- Different variables of an accepted statechart have different full names. -/
theorem getFullVName_injective (hparse : sc.result = .ok statechart)
    (hc : typecheck statechart = .ok c) {p q : StateRef} {dec dec' : Declaration}
    (hdec : dec ∈ statechart.root.declarationsAt p)
    (hdec' : dec' ∈ statechart.root.declarationsAt q)
    (heq : getFullVName statechart.root ⟨p, dec.vname⟩ =
      getFullVName statechart.root ⟨q, dec'.vname⟩) : p = q ∧ dec = dec' := by
  have ⟨full, n, hfull, hn, hcomponents⟩ := exists_getFullVName hparse hdec
  have ⟨full', n', hfull', hn', hcomponents'⟩ := exists_getFullVName hparse hdec'
  rw [hfull, hfull', Option.some.injEq] at heq
  rw [heq, hcomponents'] at hcomponents
  have ⟨hchains, hvnames⟩ := List.append_inj' hcomponents rfl
  have hpq : p = q := chainNames_injective (namesDistinct_of_accepted hc) hn (hchains ▸ hn')
  subst hpq
  refine ⟨rfl, List.inj_on_of_nodup_map (statechart.root.nodup_declarationsAt p) hdec hdec' ?_⟩
  exact (List.singleton_injective hvnames).symm

/-- The components of a variable's full name lead to the variable, in any environment. -/
theorem locateName_variable {d : Declared} (h : NamesDistinct d.root) {p : StateRef} {n : Path}
    (hn : chainNames d.root p = some n) {dec : Declaration} (hdec : dec ∈ d.root.declarationsAt p)
    (env : Environment) (path : Path) : d.locateName (n ++ dec.vname :: path) env =
      some ((⟨p, dec.vname⟩, dec), dec.vname :: path) := by
  have ⟨rest, hsplit, hwalk⟩ := nameToState_chainNames h hn
  have ⟨s, hs, hmem⟩ := State.exists_of_mem_declarationsAt hdec
  subst hsplit
  rw [List.cons_append]
  show (if d.root.name = d.root.name then _ else _) = _
  rw [if_pos rfl]
  exact getDeclarationInState_append h rest rfl hwalk hs hmem d.root.name path

end

/-- Full names resolve uniquely. The variables are those declared in a state, and `decType` is
the type that the typechecker stores in the declaration. -/
structure FullNamesResolve (d : Declared) : Prop where
  named : ∀ p, (d.root.stateAt p).isSome → ∃ full, getFullName d.root p = some full
  state_injective : ∀ p q full, getFullName d.root p = some full →
    getFullName d.root q = some full → p = q
  variable_injective : ∀ p q, ∀ dec ∈ d.root.declarationsAt p, ∀ dec' ∈ d.root.declarationsAt q,
    getFullVName d.root ⟨p, dec.vname⟩ = getFullVName d.root ⟨q, dec'.vname⟩ →
      p = q ∧ dec = dec'
  disjoint : ∀ p q, (d.root.stateAt p).isSome → ∀ dec ∈ d.root.declarationsAt q,
    getFullName d.root p ≠ getFullVName d.root ⟨q, dec.vname⟩
  nameToState : ∀ p full, getFullName d.root p = some full →
    nameToState d.root (components full) = some p
  typecheckName : ∀ p, ∀ dec ∈ d.root.declarationsAt p, ∃ full decType,
    getFullVName d.root ⟨p, dec.vname⟩ = some full ∧
      typecheckDeclaration d.types [] dec = .ok decType ∧
      ∀ env path t, FieldType decType path t →
        d.typecheckName (components full ++ path) env =
          .ok (⟨components full ++ path, ⟨p, dec.vname⟩⟩, t)

/-- In every statechart that the parser and the typechecker accept, full names resolve
uniquely. -/
theorem fullNames_resolve {sc : WrittenStatechart} {statechart : Statechart}
    {c : CheckedStatechart} {d : Declared} (hparse : sc.result = .ok statechart)
    (hd : typecheckDeclarations statechart = .ok d) (hc : typecheck statechart = .ok c) :
    FullNamesResolve d := by
  have hroot : d.root = statechart.root := (typecheckDeclarations_eq_ok hd).1
  have hdistinct : NamesDistinct d.root := hroot ▸ namesDistinct_of_accepted hc
  constructor
  case named =>
    intro p hp
    have ⟨s, hs⟩ := Option.isSome_iff_exists.mp hp
    have ⟨n, hn⟩ := exists_chainNames hs
    exact ⟨_, by rw [getFullName_eq, hn]; rfl⟩
  case state_injective =>
    intro p q full hp hq
    rw [hroot] at hp hq
    exact chainNames_injective (hroot ▸ hdistinct) (components_getFullName hparse hp)
      (components_getFullName hparse hq)
  case variable_injective =>
    intro p q dec hdec dec' hdec' heq
    rw [hroot] at hdec hdec' heq
    exact getFullVName_injective hparse hc hdec hdec' heq
  case disjoint =>
    intro p q hp dec hdec heq
    rw [hroot] at hdec heq
    have ⟨full, n, hfull, hn, hcomponents⟩ := exists_getFullVName hparse hdec
    have hchain := components_getFullName hparse (heq.trans hfull)
    rw [hcomponents] at hchain
    exact chainNames_ne_variable (hroot ▸ hdistinct) hn hdec hchain
  case nameToState =>
    intro p full hfull
    have hfull' := hfull
    rw [hroot] at hfull'
    have hchain := components_getFullName hparse hfull'
    rw [← hroot] at hchain
    have ⟨rest, hsplit, hwalk⟩ := nameToState_chainNames hdistinct hchain
    rw [hsplit]
    show (if d.root.name = d.root.name then _ else _) = _
    rw [if_pos rfl]
    exact hwalk
  case typecheckName =>
    intro p dec hdec
    have ⟨decType, htype⟩ := Declared.typecheckDeclaration_of_mem hd hdec
    have ⟨full, n, hfull, hn, hcomponents⟩ := exists_getFullVName hparse (hroot ▸ hdec)
    refine ⟨full, decType, hroot ▸ hfull, htype, fun env path t hpath => ?_⟩
    have hlocate := locateName_variable hdistinct (hroot ▸ hn) hdec env path
    rw [List.append_cons, ← hcomponents] at hlocate
    exact typecheckName_path hlocate htype
      (getTypeOfName_path hpath (distinctFields_of_declared hd htype) dec.vname)

/-- A shelf in a library, with a variable named like the library and one of a struct type. -/
def library : WrittenStatechart where
  types := [.struct ⟨"Book", by decide, by decide⟩
    [.normal ⟨"pages", by decide, by decide⟩ (.mk "int" []) .localWord] none]
  events := []
  functions := []
  root := .mk ⟨"Library", by decide, by decide⟩ .unmarked
    [.normal ⟨"Library", by decide, by decide⟩ (.mk "int" []) .localWord]
    none none
    [.mk ⟨"Shelf", by decide, by decide⟩ .unmarked
      [.normal ⟨"first", by decide, by decide⟩ (.mk "Book" []) .localWord]
      none none [] []]
    []
  marks := Or.inl rfl

theorem library_parsed : library.result = .ok (parsed library) :=
  eq_ok_getD (by decide) _

theorem library_declared :
    typecheckDeclarations (parsed library) = .ok (declared (parsed library)) :=
  eq_ok_getD (by decide) _

theorem library_accepted : typecheck (parsed library) = .ok (accepted (parsed library)) :=
  eq_ok_getD (by decide) _

/-- The library is accepted, and `Library.Shelf.first` is the full name of a variable. -/
theorem fullNames_resolve_library : FullNamesResolve (declared (parsed library)) ∧
    getFullVName (declared (parsed library)).root ⟨[0], "first"⟩ = some "Library.Shelf.first" :=
  ⟨fullNames_resolve library_parsed library_declared library_accepted, by decide⟩

end Stabl
