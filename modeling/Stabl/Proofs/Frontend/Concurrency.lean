import Stabl.Proofs.Frontend.Parsed

/-!
# `Stabl.Proofs.Frontend.Concurrency`: shells, regions and final states

`typecheckConcurrency` asks for a rule about the marks of a state and of its children. The marks
are written as words, and go through the actions of the grammar into four parameters of the
constructor of `State`. The action for `HISTORY REGION` puts the second `true` in the place of
`shell`. So the check accepts the trees that obey the rule when `HISTORY REGION` is read as
`HISTORY` and `SHELL` (`acceptsConcurrency_iff_wellMarked`). No tree with such a state obeys the
rule in both readings (`not_wellMarked_both`), and `acceptsConcurrency_iff` follows.
-/

set_option autoImplicit false

namespace Stabl

open Result TreeAddress

/-! ### The rule -/

/-- What the marks of a state say. -/
structure Reading where
  shell : Marks → Bool
  region : Marks → Bool
  fin : Marks → Bool

namespace Reading

/-- The marks as they are written: each of the words counts. -/
def written : Reading where
  shell m := decide (m = .shell ∨ m = .shellRegion)
  region m := decide (m = .region ∨ m = .shellRegion ∨ m = .historyRegion)
  fin m := decide (m = .fin)

/-- The marks as they are written, but `HISTORY REGION` counts as `HISTORY` and `SHELL`. -/
def historyShell : Reading where
  shell m := decide (m = .shell ∨ m = .shellRegion ∨ m = .historyRegion)
  region m := decide (m = .region ∨ m = .shellRegion)
  fin m := decide (m = .fin)

end Reading

/-- The rule for a state and its children. A state that is no `SHELL` has no child marked
`REGION` or `FIN`. A `SHELL` has only such children, and exactly one of them is marked `FIN`. -/
structure WellMarkedState (r : Reading) (s : WrittenState) : Prop where
  plain : r.shell s.marks = false →
    ∀ st ∈ s.states, r.region st.marks = false ∧ r.fin st.marks = false
  shell : r.shell s.marks = true →
    (∀ st ∈ s.states, r.region st.marks = true ∨ r.fin st.marks = true) ∧
      s.states.countP (fun st => r.fin st.marks) = 1

/-- Every state of the tree obeys the rule. -/
def WellMarked (r : Reading) (root : WrittenState) : Prop :=
  ∀ p s, root.stateAt p = some s → WellMarkedState r s

/-- No state of the tree is marked `HISTORY REGION`. -/
def NoHistoryRegion (root : WrittenState) : Prop :=
  ∀ p s, root.stateAt p = some s → s.marks ≠ .historyRegion

/-- `typecheckConcurrency` accepts every state of the tree. -/
def AcceptsConcurrency (root : State Path) : Prop :=
  ∀ p s, root.stateAt p = some s → Declared.typecheckConcurrency s = .ok ()

/-! ### The check -/

/-- What `typecheckConcurrency` accepts, in the fields of the state and of its substates. -/
theorem typecheckConcurrency_eq_ok (s : State Path) :
    Declared.typecheckConcurrency s = .ok () ↔
      (s.shell = false → ∀ st ∈ s.states, st.region = false ∧ st.fin = false) ∧
      (s.shell = true → (∀ st ∈ s.states, st.region = true ∨ st.fin = true) ∧
        s.states.countP (fun st => st.fin) = 1) := by
  have hforM : ∀ f : State Path → Check Unit,
      s.states.forM f = .ok () ↔ ∀ st ∈ s.states, f st = .ok () := by
    intro f
    constructor
    · intro h st hst
      have ⟨u, hu⟩ := forM_eq_ok h hst
      exact hu
    · exact forM_ok
  rw [Declared.typecheckConcurrency]
  cases s.shell with
  | false =>
      rw [Bool.not_false, if_pos rfl, hforM]
      have hchild : ∀ st : State Path,
          ((if st.region = true then .error (.regionOutsideShell st.name s.name)
            else if st.fin = true then .error (.finalOutsideShell st.name s.name)
            else pure ()) : Check Unit) = .ok () ↔ st.region = false ∧ st.fin = false := by
        intro st
        cases st.region with
        | true => simp
        | false => cases st.fin <;> simp
      simp only [hchild, forall_const, Bool.false_eq_true, false_imp_iff, and_true]
  | true =>
      rw [Bool.not_true, if_neg Bool.false_ne_true]
      have hchild : ∀ st : State Path,
          ((if (!st.region && !st.fin) = true then .error (.notRegionOrFinal st.name s.name)
            else pure ()) : Check Unit) = .ok () ↔ st.region = true ∨ st.fin = true := by
        intro st
        cases st.region with
        | true => simp
        | false => cases st.fin <;> simp
      have hcount : ∀ n : Nat, (!decide (n < 1)) = true ∧ (!decide (n > 1)) = true ↔ n = 1 := by
        intro n
        simp only [Bool.not_eq_true', decide_eq_false_iff_not]
        omega
      simp only [bind_eq_ok, hforM, hchild, require_eq_ok]
      constructor
      · rintro ⟨_, hall, _, hlow, hhigh⟩
        exact ⟨fun h => (nomatch h), fun _ => ⟨hall, (hcount _).mp ⟨hlow, hhigh⟩⟩⟩
      · rintro ⟨_, h⟩
        have ⟨hall, hone⟩ := h trivial
        exact ⟨(), hall, (), (hcount _).mpr hone⟩

/-- The parameters that the action of a production hands to the constructor of `State`. -/
theorem flags_eq (m : Marks) : m.flags.2 =
    (Reading.historyShell.region m, Reading.historyShell.shell m, Reading.historyShell.fin m) := by
  cases m <;> rfl

section
variable {sc : WrittenStatechart} {statechart : Statechart}

/-- The check accepts the trees that obey the rule when `HISTORY REGION` counts as `SHELL`. -/
theorem acceptsConcurrency_iff_wellMarked (hparse : sc.result = .ok statechart) :
    AcceptsConcurrency statechart.root ↔ WellMarked .historyShell sc.root := by
  obtain ⟨root, hrelated⟩ := parsed_related hparse
  have hmarks : ∀ {s : WrittenState} {s' : State Path}, Parsed root s s' →
      s'.region = Reading.historyShell.region s.marks ∧
        s'.shell = Reading.historyShell.shell s.marks ∧
          s'.fin = Reading.historyShell.fin s.marks := by
    intro s s' h
    have hflags := congrArg Prod.snd h.flags
    rw [flags_eq, Prod.mk.injEq, Prod.mk.injEq] at hflags
    exact hflags
  -- The check of a state is the rule for the state that is written at its position.
  have hrule : ∀ {p s s'}, sc.root.stateAt p = some s → statechart.root.stateAt p = some s' →
      (Declared.typecheckConcurrency s' = .ok () ↔ WellMarkedState .historyShell s) := by
    intro p s s' hs hs'
    obtain ⟨s₀, hs₀, hparsed⟩ := exists_left (hrelated p) hs'
    obtain rfl : s₀ = s := Option.some.inj (hs₀.symm.trans hs)
    have hchildren : s'.states.map (fun st => (st.region, st.fin)) =
        s₀.states.map fun st => (Reading.historyShell.region st.marks,
          Reading.historyShell.fin st.marks) := by
      refine map_eq_map_of_rel fun i => ?_
      have hi := hrelated (i :: p)
      rw [WrittenState.stateAt, State.stateAt_cons, hs, hs'] at hi
      exact rel_imp hi fun h => by rw [(hmarks h).1, (hmarks h).2.2]
    have hplain : (∀ st ∈ s'.states, st.region = false ∧ st.fin = false) ↔ ∀ st ∈ s₀.states,
        Reading.historyShell.region st.marks = false ∧
          Reading.historyShell.fin st.marks = false := by
      have hforall := congrArg (fun l => ∀ c ∈ l, c.1 = false ∧ c.2 = false) hchildren
      rw [List.forall_mem_map, List.forall_mem_map] at hforall
      exact iff_of_eq hforall
    have hshell : (∀ st ∈ s'.states, st.region = true ∨ st.fin = true) ↔ ∀ st ∈ s₀.states,
        Reading.historyShell.region st.marks = true ∨ Reading.historyShell.fin st.marks = true := by
      have hforall := congrArg (fun l => ∀ c ∈ l, c.1 = true ∨ c.2 = true) hchildren
      rw [List.forall_mem_map, List.forall_mem_map] at hforall
      exact iff_of_eq hforall
    have hcount : s'.states.countP (fun st => st.fin) =
        s₀.states.countP fun st => Reading.historyShell.fin st.marks := by
      have hcountP := congrArg (List.countP Prod.snd) hchildren
      rw [List.countP_map, List.countP_map] at hcountP
      exact hcountP
    rw [typecheckConcurrency_eq_ok, (hmarks hparsed).2.1, hplain, hshell, hcount]
    exact ⟨fun h => ⟨h.1, h.2⟩, fun h => ⟨h.plain, h.shell⟩⟩
  constructor
  · intro h p s hs
    obtain ⟨s', hs', _⟩ := exists_right (hrelated p) hs
    exact (hrule hs hs').mp (h p s' hs')
  · intro h p s' hs'
    obtain ⟨s, hs, _⟩ := exists_left (hrelated p) hs'
    exact (hrule hs hs').mpr (h p s hs)

/-! ### Two readings -/

/-- Readings that say the same of a state and of its children ask for the same. -/
theorem WellMarkedState.of_agree {r r' : Reading} {s : WrittenState} (h : WellMarkedState r s)
    (hself : r.shell s.marks = r'.shell s.marks) (hchild : ∀ st ∈ s.states,
      r.region st.marks = r'.region st.marks ∧ r.fin st.marks = r'.fin st.marks) :
    WellMarkedState r' s := by
  have hcount : s.states.countP (fun st => r.fin st.marks) =
      s.states.countP fun st => r'.fin st.marks :=
    List.countP_congr fun st hst => by rw [(hchild st hst).2]
  constructor
  · intro hs st hst
    rw [← (hchild st hst).1, ← (hchild st hst).2]
    exact h.plain (hself.trans hs) st hst
  · intro hs
    have ⟨hall, hone⟩ := h.shell (hself.trans hs)
    refine ⟨fun st hst => ?_, hcount ▸ hone⟩
    rw [← (hchild st hst).1, ← (hchild st hst).2]
    exact hall st hst

/-- Without `HISTORY REGION` the readings agree. -/
theorem wellMarked_iff_of_noHistoryRegion {root : WrittenState} (h : NoHistoryRegion root) :
    WellMarked .historyShell root ↔ WellMarked .written root := by
  have hagree : ∀ m : Marks, m ≠ .historyRegion →
      Reading.historyShell.shell m = Reading.written.shell m ∧
        Reading.historyShell.region m = Reading.written.region m ∧
          Reading.historyShell.fin m = Reading.written.fin m := by
    intro m hm
    cases m with
    | historyRegion => exact absurd rfl hm
    | _ => exact ⟨rfl, rfl, rfl⟩
  refine forall_congr' fun p => forall_congr' fun s => forall_congr' fun hs => ?_
  have hself := (hagree s.marks (h p s hs)).1
  have hchild : ∀ st ∈ s.states,
      Reading.historyShell.region st.marks = Reading.written.region st.marks ∧
        Reading.historyShell.fin st.marks = Reading.written.fin st.marks := by
    intro st hst
    have ⟨i, hi⟩ := List.mem_iff_getElem?.mp hst
    refine (hagree st.marks (h (i :: p) st ?_)).2
    rw [WrittenState.stateAt, hs]
    exact hi
  constructor
  · exact fun hrule => hrule.of_agree hself hchild
  · exact fun hrule => hrule.of_agree hself.symm
      fun st hst => ⟨(hchild st hst).1.symm, (hchild st hst).2.symm⟩

/-- A tree with a state marked `HISTORY REGION` does not obey the rule in both readings. -/
theorem not_wellMarked_both (h : ¬ NoHistoryRegion sc.root) :
    ¬ (WellMarked .written sc.root ∧ WellMarked .historyShell sc.root) := by
  rintro ⟨hwritten, hhistory⟩
  refine h fun p s hs hmarks => ?_
  cases p with
  | nil =>
      -- The statechart itself cannot be marked so.
      obtain rfl : sc.root = s := Option.some.inj hs
      rcases sc.marks with hroot | hroot
      · rw [hroot] at hmarks
        cases hmarks
      · rw [hroot] at hmarks
        cases hmarks
  | cons i p =>
      have ⟨super, hsuper, hchild⟩ := Option.bind_eq_some_iff.mp hs
      have hmem := List.mem_of_getElem? hchild
      cases hshell : Reading.written.shell super.marks with
      | false =>
          have hregion := ((hwritten p super hsuper).plain hshell s hmem).1
          rw [hmarks] at hregion
          cases hregion
      | true =>
          have hshell' : Reading.historyShell.shell super.marks = true := by
            revert hshell
            cases super.marks <;> decide
          have hregion := ((hhistory p super hsuper).shell hshell').1 s hmem
          rw [hmarks] at hregion
          revert hregion
          decide

/-- The check accepts exactly the trees that obey the rule as it is written, if and only if no
state is marked `HISTORY REGION`, or the tree obeys the rule in neither reading. -/
theorem acceptsConcurrency_iff (hparse : sc.result = .ok statechart) :
    (AcceptsConcurrency statechart.root ↔ WellMarked .written sc.root) ↔
      NoHistoryRegion sc.root ∨
        ¬ WellMarked .written sc.root ∧ ¬ WellMarked .historyShell sc.root := by
  rw [acceptsConcurrency_iff_wellMarked hparse]
  constructor
  · intro hiff
    by_cases hno : NoHistoryRegion sc.root
    · exact Or.inl hno
    · have hnot := not_wellMarked_both hno
      exact Or.inr ⟨fun h => hnot ⟨h, hiff.mpr h⟩, fun h => hnot ⟨hiff.mp h, h⟩⟩
  · rintro (hno | ⟨hwritten, hhistory⟩)
    · exact wellMarked_iff_of_noHistoryRegion hno
    · exact iff_of_false hhistory hwritten

end

/-! ### A region with history -/

instance (r : Reading) (s : WrittenState) : Decidable (WellMarkedState r s) :=
  decidable_of_iff ((r.shell s.marks = false →
      ∀ st ∈ s.states, r.region st.marks = false ∧ r.fin st.marks = false) ∧
    (r.shell s.marks = true →
      (∀ st ∈ s.states, r.region st.marks = true ∨ r.fin st.marks = true) ∧
        s.states.countP (fun st => r.fin st.marks) = 1))
    ⟨fun h => ⟨h.1, h.2⟩, fun h => ⟨h.plain, h.shell⟩⟩

/-- A car with an engine that runs beside its radio, or with one that remembers its gear. -/
def car (engine : Marks) : WrittenStatechart where
  types := []
  events := []
  functions := []
  root := .mk ⟨"Car", by decide, by decide⟩ .unmarked [] none none
    [.mk ⟨"Drive", by decide, by decide⟩ .shell [] none none
      [.mk ⟨"Engine", by decide, by decide⟩ engine [] none none [] [],
        .mk ⟨"Radio", by decide, by decide⟩ .region [] none none [] [],
        .mk ⟨"Parked", by decide, by decide⟩ .fin [] none none [] []] []] []
  marks := Or.inl rfl

/-- With plain regions the check accepts the car, as it should. -/
theorem acceptsConcurrency_iff_car :
    AcceptsConcurrency (parsed (car .region)).root ↔ WellMarked .written (car .region).root :=
  have hparse : (car .region).result = .ok (parsed (car .region)) := eq_ok_getD (by decide) _
  (acceptsConcurrency_iff hparse).mpr (Or.inl (forall_written hparse (by decide)))

/-- The engine is a region with history, written in a shell, and the check does not accept it. -/
theorem not_acceptsConcurrency_car :
    (car .historyRegion).result = .ok (parsed (car .historyRegion)) ∧
      ¬ (AcceptsConcurrency (parsed (car .historyRegion)).root ↔
        WellMarked .written (car .historyRegion).root) := by
  have hparse : (car .historyRegion).result = .ok (parsed (car .historyRegion)) :=
    eq_ok_getD (by decide) _
  have hmarked : WellMarked .written (car .historyRegion).root :=
    forall_written hparse (by decide)
  refine ⟨hparse, fun hiff => ?_⟩
  have hdrive := hiff.mpr hmarked [0] _ rfl
  cases hdrive

end Stabl
