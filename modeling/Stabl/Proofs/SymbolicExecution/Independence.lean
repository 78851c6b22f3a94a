import Stabl.Proofs.SymbolicExecution.Barren
import Stabl.Proofs.SymbolicExecution.Symbols

/-!
# `Stabl.Proofs.SymbolicExecution.Independence`: two executions in one process

`conf` is not cleared. After an execution it begins with its statechart, so the next execution
enters that statechart first, and every node of its tree lies below this entry
(`firstEntry_executeIn`). In a new process the first entry is that of the other statechart. So the
two trees are different unless they are empty, and they are empty when both executions are barren.

`symvarslist` is not cleared either. A later script declares a symbol of the first statechart
when the variable that was read last under its name has a type with a sort
(`executionsAgree_iff`).
-/

set_option autoImplicit false

namespace Stabl

open EnterExit Result

/-! ### Entries -/

/-- A map that effects have filled has a list of entries. -/
theorem exists_entrySet (typeName : DeclarationRef → String) (effects : List Effect) :
    ∃ entries, EntrySet (symvarslist typeName (fun _ => none) effects) entries := by
  induction effects using List.reverseRecOn with
  | nil => exact ⟨[], List.nodup_nil, by simp [symvarslist]⟩
  | append_singleton effects e ih =>
      obtain ⟨entries, hkeys, hmem⟩ := ih
      have hput : symvarslist typeName (fun _ => none) (effects ++ [e]) =
          putSymVars typeName (symvarslist typeName (fun _ => none) effects) e := by
        rw [symvarslist, List.foldl_append]
        rfl
      rw [hput]
      cases e with
      | call call => exact ⟨entries, hkeys, hmem⟩
      | symVars var =>
          -- The old entry of the name is replaced.
          refine ⟨(symVarsName var, typeName var) ::
            entries.filter (fun v => v.1 ≠ symVarsName var), ?_, ?_⟩
          · rw [List.map_cons, List.nodup_cons]
            refine ⟨fun h => ?_, (List.filter_sublist.map Prod.fst).nodup hkeys⟩
            obtain ⟨v, hv, hname⟩ := List.mem_map.mp h
            have hne := (List.mem_filter.mp hv).2
            simp [hname] at hne
          · intro v type
            dsimp only [putSymVars]
            rw [List.mem_cons, List.mem_filter, hmem, Prod.mk.injEq]
            by_cases hv : v = symVarsName var
            · simp [hv, eq_comm]
            · simp [hv]

theorem symvarslist_append (typeName : DeclarationRef → String) (table : String → Option String)
    (effects effects' : List Effect) :
    symvarslist typeName (symvarslist typeName table effects) effects' =
      symvarslist typeName table (effects ++ effects') :=
  List.foldl_append.symm

/-- A script declares what has an entry whose type has a sort. -/
theorem EntrySet.mem_declarations {table : String → Option String}
    {entries : List (String × String)} (h : EntrySet table entries) (v : String) :
    v ∈ (declarations entries).map Prod.fst ↔
      ∃ type, table v = some type ∧ (sortOfType type).isSome = true := by
  simp only [declarations, List.mem_map, List.mem_filterMap, Option.map_eq_some_iff,
    Option.isSome_iff_exists]
  constructor
  · rintro ⟨_, ⟨⟨x, type⟩, hx, sort, hsort, rfl⟩, rfl⟩
    exact ⟨type, (h.mem x type).mp hx, sort, hsort⟩
  · rintro ⟨type, hv, sort, hsort⟩
    exact ⟨(v, sort), ⟨(v, type), (h.mem v type).mpr hv, sort, hsort, rfl⟩, rfl⟩

/-! ### The two executions -/

/-- A state of the statechart declares a variable of this name. -/
def Declares (c : CheckedStatechart) (vname : String) : Prop :=
  ∃ p, ∃ d ∈ c.root.declarationsAt p, d.vname = vname

/-- The symbol stands for variables of `a` and for none of `b`. -/
def SymbolOnlyOf (a b : CheckedStatechart) (v : String) : Prop :=
  ∃ vname, v = vname ++ "_1" ∧ Declares a vname ∧ ¬ Declares b vname

/-- The execution `after` of `b`, which follows `first` of `a`, agrees with the execution `fresh`
of `b` in a new process. -/
structure ExecutionsAgree (a b : CheckedStatechart) (first fresh after : Execution) : Prop where
  nodes : after.loop.done.map SETNode.source = fresh.loop.done.map SETNode.source
  scripts : ∀ before call rest, after.effects = before ++ .call call :: rest →
    ∀ entries, EntrySet (symvarslist (processTypeName a b)
      (symvarslist (processTypeName a b) (fun _ => none) first.effects) before) entries →
    ∀ v, SymbolOnlyOf a b v → v ∉ (declarations entries).map Prod.fst

/-- When the solver is called, the last variable that was read under the name of a variable of
`a` has no type with a sort, unless `b` has a variable of the name as well. -/
def NoSymbolLeft (a b : CheckedStatechart) (first after : Execution) : Prop :=
  ∀ before call rest, after.effects = before ++ .call call :: rest →
    ∀ vname, Declares a vname → ¬ Declares b vname →
      ∀ var ∈ lastMade vname (first.effects ++ before),
        sortOfType (processTypeName a b var) = none

/-- Where the two trees begin with different states, they are equal only if they are empty. -/
theorem map_source_eq_iff {done done' : List SETNode} {x y : StateRef} (hxy : x ≠ y)
    (hdone : ∀ n ∈ done, n.firstEntry = some x) (hdone' : ∀ n ∈ done', n.firstEntry = some y) :
    done.map SETNode.source = done'.map SETNode.source ↔ done = [] ∧ done' = [] := by
  constructor
  · intro h
    -- The first nodes of the two lists would begin with the same state.
    have hentries := congrArg (List.map SETNode.firstEntry) h
    simp only [List.map_map, Function.comp_def, SETNode.firstEntry_source] at hentries
    cases done with
    | nil => exact ⟨rfl, List.map_eq_nil_iff.mp h.symm⟩
    | cons n done =>
        cases done' with
        | nil => cases h
        | cons n' done' =>
            have hhead : n.firstEntry = n'.firstEntry := (List.cons.inj hentries).1
            rw [hdone n List.mem_cons_self, hdone' n' List.mem_cons_self] at hhead
            exact absurd (Option.some.inj hhead) hxy
  · rintro ⟨rfl, rfl⟩
    rfl

/-- The scripts declare no symbol of `a` alone exactly when none is left. -/
theorem scripts_iff {a b : CheckedStatechart} {first after : Execution} :
    (∀ before call rest, after.effects = before ++ .call call :: rest →
      ∀ entries, EntrySet (symvarslist (processTypeName a b)
        (symvarslist (processTypeName a b) (fun _ => none) first.effects) before) entries →
      ∀ v, SymbolOnlyOf a b v → v ∉ (declarations entries).map Prod.fst) ↔
    NoSymbolLeft a b first after := by
  -- `symVarsName` reads the simple name only, so any variable of this name will do.
  have hentry : ∀ (before : List Effect) (vname : String),
      (∃ type, symvarslist (processTypeName a b) (fun _ => none) (first.effects ++ before)
        (vname ++ "_1") = some type ∧ (sortOfType type).isSome = true) ↔
      ∃ var ∈ lastMade vname (first.effects ++ before),
        (sortOfType (processTypeName a b var)).isSome = true := by
    intro before vname
    have hmap := symvarslist_eq (processTypeName a b) (fun _ => none) (first.effects ++ before)
      ⟨[], vname⟩
    dsimp only [symVarsName] at hmap
    rw [hmap]
    cases lastMade vname (first.effects ++ before) with
    | none => simp
    | some var => simp
  simp only [symvarslist_append]
  constructor
  · intro h before call rest hcall vname ha hb var hvar
    have ⟨entries, hentries⟩ :=
      exists_entrySet (processTypeName a b) (first.effects ++ before)
    have hnot := h before call rest hcall entries hentries _ ⟨vname, rfl, ha, hb⟩
    rw [hentries.mem_declarations, hentry] at hnot
    by_contra hsort
    exact hnot ⟨var, hvar, Option.isSome_iff_ne_none.mpr hsort⟩
  · intro h before call rest hcall entries hentries v hv hmem
    obtain ⟨vname, rfl, ha, hb⟩ := hv
    rw [hentries.mem_declarations, hentry] at hmem
    have ⟨var, hvar, hsort⟩ := hmem
    rw [h before call rest hcall vname ha hb var hvar] at hsort
    cases hsort

theorem firstSubstatesAt_chart {root s : State Name} {k : Nat} (h : IsChart root k s)
    (hs : s.states ≠ []) : root.firstSubstatesAt [k] ≠ [] := by
  have hat : root.stateAt [k] = some (s.relocate k) := stateAt_chart h []
  unfold State.firstSubstatesAt
  rw [hat]
  obtain ⟨_, _, _, _, states, _, _, _, _, _⟩ := s
  cases states with
  | nil => exact absurd rfl hs
  | cons s states => exact List.cons_ne_nil _ _

/-- Every execution of an accepted statechart in a process returns. -/
theorem execution_returns {sc : Statechart} {c : CheckedStatechart} (hc : typecheck sc = .ok c)
    (hstates : c.root.states ≠ []) {root : State Name} {k : Nat} (h : IsChart root k c.root)
    (maxDepth : Int) (solver : Solver) {maxTreeDepth : Int} (conf : List StateRef) {fuel : Nat}
    (hfuel : max maxTreeDepth 0 + 2 < fuel) :
    ∃ e, executeIn root [k] maxDepth solver maxTreeDepth conf fuel = some e :=
  executeIn_returns (fun _ ht => leavesBelow_of_accepted hc h ht)
    (firstSubstatesAt_chart h hstates) maxDepth solver conf hfuel

/-- In a new process, `a` is executed, and then `b`. All three executions return. The second one
agrees with that of `b` in a new process exactly when neither adds a node to those that are done,
and no symbol of `a` alone is left for its scripts. The solvers may be different ones, since the
scripts are. -/
theorem executionsAgree_iff {sc sc' : Statechart} {a b : CheckedStatechart}
    (ha : typecheck sc = .ok a) (hb : typecheck sc' = .ok b) (hastates : a.root.states ≠ [])
    (hbstates : b.root.states ≠ []) (maxDepth maxTreeDepth : Int)
    (solver solver' solver'' : Solver) {fuel : Nat} (hfuel : max maxTreeDepth 0 + 2 < fuel) :
    ∃ first fresh after,
      executeIn (process a.root b.root) [0] maxDepth solver maxTreeDepth [] fuel = some first ∧
      executeIn (process a.root b.root) [1] maxDepth solver' maxTreeDepth [] fuel = some fresh ∧
      executeIn (process a.root b.root) [1] maxDepth solver'' maxTreeDepth first.loop.conf fuel =
        some after ∧
      (ExecutionsAgree a b first fresh after ↔
        BarrenExecution (process a.root b.root) maxDepth solver' [1] maxTreeDepth [] fuel ∧
        BarrenExecution (process a.root b.root) maxDepth solver'' [1] maxTreeDepth
          first.loop.conf fuel ∧
        NoSymbolLeft a b first after) := by
  have hA := isChart_fst a.root b.root
  have hB := isChart_snd a.root b.root
  have ⟨first, hfirst⟩ := execution_returns ha hastates hA maxDepth solver [] hfuel
  have ⟨fresh, hfresh⟩ := execution_returns hb hbstates hB maxDepth solver' [] hfuel
  have ⟨after, hafter⟩ := execution_returns hb hbstates hB maxDepth solver'' first.loop.conf hfuel
  refine ⟨first, fresh, after, hfirst, hfresh, hafter, ?_⟩
  -- `conf` begins with the statechart that was executed first in the process
  have hconf : first.loop.conf.head? = some [0] :=
    head?_executeIn (fun _ ht => leavesBelow_of_accepted ha hA ht) hfirst
  have hnoexit : ∀ states : List StateRef,
      (Mark.exit [0] : Mark StateRef) ∉ states.map Mark.enter := by simp
  have hafterEntry : ∀ n ∈ after.loop.nodes, n.firstEntry = some [0] :=
    firstEntry_executeIn (head?_replay hconf (hnoexit _)) hafter
  have hfreshEntry : ∀ n ∈ fresh.loop.nodes, n.firstEntry = some [1] :=
    firstEntry_executeIn (head?_chartConfiguration_nil _ _) hfresh
  have hnodes : after.loop.done.map SETNode.source = fresh.loop.done.map SETNode.source ↔
      after.loop.done = [] ∧ fresh.loop.done = [] :=
    map_source_eq_iff (by decide) (fun n hn => hafterEntry n (List.mem_append_right _ hn))
      (fun n hn => hfreshEntry n (List.mem_append_right _ hn))
  rw [← done_executeIn_iff hfresh, ← done_executeIn_iff hafter]
  constructor
  · intro h
    have ⟨hafterDone, hfreshDone⟩ := hnodes.mp h.nodes
    exact ⟨hfreshDone, hafterDone, scripts_iff.mp h.scripts⟩
  · rintro ⟨hfreshDone, hafterDone, hleft⟩
    exact ⟨hnodes.mpr ⟨hafterDone, hfreshDone⟩, scripts_iff.mpr hleft⟩

/-! ### Two forms, and a form before a swing -/

/-- What is known of the result is known of the execution. -/
theorem eq_of_map_eq_some {β : Type} {f : Execution → β} {v : β} {o : Option Execution}
    {e : Execution} (h : o = some e) (hf : o.map f = some v) : f e = v := by
  rw [h] at hf
  exact Option.some.inj hf

set_option maxRecDepth 4000 in
/-- A form returns no nodes, and another form has the same variables. -/
theorem executionsAgree_iff_form :
    ∃ first fresh after,
      executeIn (process (accepted form).root (accepted form).root) [0] 20 satisfied 2 [] 5 =
        some first ∧
      executeIn (process (accepted form).root (accepted form).root) [1] 20 satisfied 2 [] 5 =
        some fresh ∧
      executeIn (process (accepted form).root (accepted form).root) [1] 20 satisfied 2
        first.loop.conf 5 = some after ∧
      ExecutionsAgree (accepted form) (accepted form) first fresh after := by
  have hform : typecheck form = .ok (accepted form) := eq_ok_getD (by decide) _
  have hstates : (accepted form).root.states ≠ [] := by decide
  have ⟨first, fresh, after, hfirst, hfresh, hafter, hiff⟩ := executionsAgree_iff hform hform
    hstates hstates 20 2 satisfied satisfied satisfied
    (show max (2 : Int) 0 + 2 < (5 : Nat) by decide)
  have hconf : first.loop.conf = [[0], [0, 0]] :=
    eq_of_map_eq_some (f := fun e => e.loop.conf) hfirst (by decide)
  have hafter' := hafter
  rw [hconf] at hafter'
  have hfreshDone : fresh.loop.done.length = 0 :=
    eq_of_map_eq_some (f := fun e => e.loop.done.length) hfresh (by decide)
  have hafterDone : after.loop.done.length = 0 :=
    eq_of_map_eq_some (f := fun e => e.loop.done.length) hafter' (by decide)
  refine ⟨first, fresh, after, hfirst, hfresh, hafter, hiff.mpr ⟨?_, ?_, ?_⟩⟩
  · exact (done_executeIn_iff hfresh).mp (List.length_eq_zero_iff.mp hfreshDone)
  · exact (done_executeIn_iff hafter).mp (List.length_eq_zero_iff.mp hafterDone)
  · exact fun _ _ _ _ vname ha hb => absurd ha hb

/-- With the same limits and the same solver, an execution of the
second one after the first one agrees with one in a new process. -/
def ExecutionsIndependent (sc sc' : Statechart) : Prop :=
  ∀ a b, typecheck sc = .ok a → typecheck sc' = .ok b →
    ∀ maxDepth maxTreeDepth solver fuel first fresh after,
      executeIn (process a.root b.root) [0] maxDepth solver maxTreeDepth [] fuel = some first →
      executeIn (process a.root b.root) [1] maxDepth solver maxTreeDepth [] fuel = some fresh →
      executeIn (process a.root b.root) [1] maxDepth solver maxTreeDepth first.loop.conf fuel =
        some after →
      ExecutionsAgree a b first fresh after

set_option maxRecDepth 4000 in
/-- After the form, the tree of the swing begins with the states of the form. -/
theorem not_executionsIndependent_form_swing :
    (typecheck form).isOk = true ∧ (typecheck swing).isOk = true ∧
      ¬ ExecutionsIndependent form swing := by
  refine ⟨by decide, by decide, fun h => ?_⟩
  let root := process (accepted form).root (accepted swing).root
  have ⟨first, hfirst⟩ : ∃ first, executeIn root [0] 20 satisfied 2 [] 5 = some first :=
    Option.isSome_iff_exists.mp (by decide)
  have hconf : first.loop.conf = [[0], [0, 0]] :=
    eq_of_map_eq_some (f := fun e => e.loop.conf) hfirst (by decide)
  have ⟨fresh, hfresh⟩ : ∃ fresh, executeIn root [1] 20 satisfied 2 [] 5 = some fresh :=
    Option.isSome_iff_exists.mp (by decide)
  have ⟨after, hafter⟩ : ∃ after,
      executeIn root [1] 20 satisfied 2 [[0], [0, 0]] 5 = some after :=
    Option.isSome_iff_exists.mp (by decide)
  have hfreshEntries : fresh.loop.done.map SETNode.firstEntry = [some [1]] :=
    eq_of_map_eq_some (f := fun e => e.loop.done.map SETNode.firstEntry) hfresh (by decide)
  have hafterEntries : after.loop.done.map SETNode.firstEntry = [some [0]] :=
    eq_of_map_eq_some (f := fun e => e.loop.done.map SETNode.firstEntry) hafter (by decide)
  rw [← hconf] at hafter
  have hagree := h _ _ (eq_ok_getD (by decide) _) (eq_ok_getD (by decide) _) 20 2 satisfied 5 first
    fresh after hfirst hfresh hafter
  have hentries := congrArg (List.map SETNode.firstEntry) hagree.nodes
  simp only [List.map_map, Function.comp_def, SETNode.firstEntry_source] at hentries
  have hsame : [some [0]] = [some [1]] := hafterEntries.symm.trans (hentries.trans hfreshEntries)
  revert hsame
  decide

end Stabl
