import Stabl.Proofs.Simulator.Configuration
import Stabl.Proofs.Simulator.Evaluation

/-!
# `Stabl.Proofs.Simulator.FieldStore`: assignments to fields

The typechecker resolves `v.f1...fm` to the variable `v` and walks on through the fields. The
bound name keeps the variable only, and the simulator stores one value for each variable. So
an assignment to a name is read back by every name of the same variable, whatever its fields
are (`executeAssignmentStatement_reads`), and a variable that is not assigned keeps its value.
`storeLaws_iff` says for which pairs of names this is what the fields ask for.
-/

set_option autoImplicit false

namespace Stabl

open Result World

/-- The variable and the field path that a name denotes. -/
def Declared.denotes (d : Declared) (n : Path) (env : Environment) :
    Option (DeclarationRef × Path) :=
  (d.locateName n env).map fun located => (located.1.1, located.2.tail)

/-- A bound name carries the variable that it denotes. -/
theorem Declared.denotes_of_typecheckName {d : Declared} {n : Path} {env : Environment}
    {name : Name} {type : Ty} (h : d.typecheckName n env = .ok (name, type)) :
    ∃ path, d.denotes n env = some (name.declaration, path) := by
  unfold typecheckName at h
  split at h
  · cases h
  · split at h
    · cases h
    · rename_i r dec left hlocate
      have ⟨_, _, h⟩ := bind_eq_ok.mp h
      have ⟨_, _, h⟩ := bind_eq_ok.mp h
      rw [pure_eq_ok, Prod.mk.injEq] at h
      obtain ⟨rfl, rfl⟩ := h
      exact ⟨left.tail, by rw [denotes, hlocate]; rfl⟩

/-- One of two field paths is a prefix of the other. -/
def Comparable (path₁ path₂ : Path) : Prop := path₁ <+: path₂ ∨ path₂ <+: path₁

instance (path₁ path₂ : Path) : Decidable (Comparable path₁ path₂) :=
  inferInstanceAs (Decidable (_ ∨ _))

/-- What an assignment of `c` does to a name: the other names of the variable read `c`, and
those of another variable read what they have read before. -/
theorem executeAssignmentStatement_reads {lhs n : Name} {rhs : Expression Name} {w : World}
    {c : Constant} (hvalue : (evaluate rhs w).1 = some c) :
    (evaluate (.name n) (executeAssignmentStatement lhs rhs w)).1 =
      if lhs.declaration = n.declaration then some c else (evaluate (.name n) w).1 := by
  have hstate := (evaluate_readsTo rhs w).eState
  show Function.update (evaluate rhs w).2.eState.valueEnvironment lhs.declaration
      (evaluate rhs w).1 n.declaration = _
  rw [hstate, hvalue, Function.update_apply]
  by_cases hsame : lhs.declaration = n.declaration
  · rw [if_pos hsame, if_pos hsame.symm]
  · rw [if_neg hsame, if_neg (Ne.symm hsame)]
    rfl

/-- The laws of the store for an assignment to `lhs`, a name with the fields `path₁`, and for
a name `n` with the fields `path₂`: after the assignment `lhs` reads `c`, and `n` what it has
read before when it is another variable or an incomparable field path. -/
def StoreLaws (lhs : Name) (path₁ : Path) (rhs : Expression Name) (n : Name) (path₂ : Path)
    (w : World) (c : Constant) : Prop :=
  ∃ w', (∀ fuel, executeStatement (fuel + 1) (.assignmentStatement lhs rhs) w = .ok w') ∧
    (evaluate (.name lhs) w').1 = some c ∧
    (lhs.declaration ≠ n.declaration ∨ ¬ Comparable path₁ path₂ →
      (evaluate (.name n) w').1 = (evaluate (.name n) w).1)

/-- The laws hold when the variables differ, when the field paths are comparable, and when the
variable holds the assigned constant already. -/
theorem storeLaws_of_bound {lhs n : Name} {path₁ path₂ : Path} {rhs : Expression Name} {w : World}
    {c : Constant} (hvalue : (evaluate rhs w).1 = some c) :
    StoreLaws lhs path₁ rhs n path₂ w c ↔ lhs.declaration ≠ n.declaration ∨
      Comparable path₁ path₂ ∨ w.eState.valueEnvironment n.declaration = some c := by
  have hread : ∀ m : Name, (evaluate (.name m) (executeAssignmentStatement lhs rhs w)).1 =
      if lhs.declaration = m.declaration then some c else (evaluate (.name m) w).1 :=
    fun m => executeAssignmentStatement_reads hvalue
  have hbefore : (evaluate (.name n) w).1 = w.eState.valueEnvironment n.declaration := rfl
  constructor
  · rintro ⟨w', hrun, _, hframe⟩
    by_cases hsame : lhs.declaration = n.declaration
    · by_cases hcomparable : Comparable path₁ path₂
      · exact Or.inr (Or.inl hcomparable)
      · -- The two fields share the value of the variable.
        have hw' : executeAssignmentStatement lhs rhs w = w' := Except.ok.inj (hrun 0)
        have hn := hframe (Or.inr hcomparable)
        rw [← hw', hread n, if_pos hsame, hbefore] at hn
        exact Or.inr (Or.inr hn.symm)
    · exact Or.inl hsame
  · intro hcondition
    refine ⟨executeAssignmentStatement lhs rhs w, fun _ => rfl, ?_, fun hapart => ?_⟩
    · rw [hread lhs, if_pos rfl]
    · rw [hread n]
      by_cases hsame : lhs.declaration = n.declaration
      · rw [if_pos hsame, hbefore]
        rcases hcondition with hne | hcomparable | hheld
        · exact absurd hsame hne
        · rcases hapart with hne | hnot
          · exact absurd hsame hne
          · exact absurd hcomparable hnot
        · exact hheld.symm
      · rw [if_neg hsame]

/-- An assignment that the typechecker accepts keeps the laws of the store with a name exactly
when the two names denote different variables or comparable field paths, or when the variable
holds the assigned constant already. -/
theorem storeLaws_iff {d : Declared} {renv wenv env : Environment} {n₁ n₂ : Path}
    {e : Expression Path} {lhs n : Name} {rhs : Expression Name} {type : Ty}
    (hassign : d.typecheckStatement renv wenv (.assignmentStatement n₁ e) =
      .ok (.assignmentStatement lhs rhs))
    (hname : d.typecheckName n₂ env = .ok (n, type)) {w : World} {c : Constant}
    (hvalue : (evaluate rhs w).1 = some c) :
    ∃ path₁ path₂, d.denotes n₁ wenv = some (lhs.declaration, path₁) ∧
      d.denotes n₂ env = some (n.declaration, path₂) ∧
      (StoreLaws lhs path₁ rhs n path₂ w c ↔ lhs.declaration ≠ n.declaration ∨
        Comparable path₁ path₂ ∨ w.eState.valueEnvironment n.declaration = some c) := by
  have ⟨⟨lhs', lhsType⟩, hlhs, hrest⟩ := bind_eq_ok.mp hassign
  have ⟨_, _, hrest⟩ := bind_eq_ok.mp hrest
  have ⟨_, _, hrest⟩ := bind_eq_ok.mp hrest
  rw [pure_eq_ok, Statement.assignmentStatement.injEq] at hrest
  have ⟨path₁, hpath₁⟩ := Declared.denotes_of_typecheckName hlhs
  have ⟨path₂, hpath₂⟩ := Declared.denotes_of_typecheckName hname
  have hlhsEq : lhs' = lhs := hrest.1
  rw [hlhsEq] at hpath₁
  exact ⟨path₁, path₂, hpath₁, hpath₂, storeLaws_of_bound hvalue⟩

/-! ### A variable with two fields -/

/-- A counter of goals: the entry code sets the goals of the guests, and the transition `goal`
those of the hosts. -/
def scoreboard : Statechart where
  root := { plainState "Scoreboard" with
    declarations := ⟨[⟨"goals", .localScope, .mk "Goals" [], false⟩,
      integerVariable "minute" .localScope], by decide⟩
    entry := .statementList [
      .assignmentStatement ["goals", "guests"] (.constant (.integerConstant 0))]
    states := [plainState "Playing", plainState "Kickoff"]
    transitions := [
      { plainTransition "goal" "Scoreboard" "Playing" "Kickoff" 0 1 with
        action := .assignmentStatement ["goals", "hosts"] (.constant (.integerConstant 1)) }] }
  moreTypes := [
    .struct "Goals" ⟨[integerVariable "hosts" .localScope, integerVariable "guests" .localScope],
      by decide⟩ []]
  events := ["turn"]
  functionDeclarations := []
  initialised := by decide

/-- What the passes over the declarations of `scoreboard` leave. -/
def declaredScoreboard : Declared :=
  getD (typecheckDeclarations scoreboard) ⟨scoreboard.root, [], [], []⟩

theorem declaredScoreboard_ok : typecheckDeclarations scoreboard = .ok declaredScoreboard :=
  eq_ok_getD (by decide) _

/-- The match has begun. -/
def kickoff : World := (loopHead (accepted scoreboard) 10 [] []).2

/-- An assignment to a field leaves the other variable alone. -/
theorem storeLaws_iff_minute : StoreLaws ⟨["goals", "hosts"], ⟨[], "goals"⟩⟩ ["hosts"]
    (.constant (.integerConstant 1)) ⟨["minute"], ⟨[], "minute"⟩⟩ [] kickoff
    (.integerConstant 1) := by
  have hassign : declaredScoreboard.typecheckStatement (getEnvironment scoreboard.root [])
      (getEnvironment scoreboard.root [])
      (.assignmentStatement ["goals", "hosts"] (.constant (.integerConstant 1))) =
      .ok (.assignmentStatement ⟨["goals", "hosts"], ⟨[], "goals"⟩⟩
        (.constant (.integerConstant 1))) := rfl
  have hname : declaredScoreboard.typecheckName ["minute"] (getEnvironment scoreboard.root []) =
      .ok (⟨["minute"], ⟨[], "minute"⟩⟩, Ty.int) := rfl
  have ⟨path₁, path₂, hpath₁, hpath₂, hiff⟩ := storeLaws_iff hassign hname (w := kickoff) rfl
  obtain rfl : ["hosts"] = path₁ := (Prod.mk.inj (Option.some.inj hpath₁)).2
  obtain rfl : [] = path₂ := (Prod.mk.inj (Option.some.inj hpath₂)).2
  exact hiff.mpr (Or.inl (by decide))

/-- Every accepted assignment keeps the laws of the store with
every accepted name, in every execution state. -/
def KeepsStoreLaws (d : Declared) : Prop :=
  ∀ renv wenv env n₁ n₂ e lhs rhs n type, d.typecheckStatement renv wenv
      (.assignmentStatement n₁ e) = .ok (.assignmentStatement lhs rhs) →
    d.typecheckName n₂ env = .ok (n, type) →
    ∀ path₁ path₂, d.denotes n₁ wenv = some (lhs.declaration, path₁) →
      d.denotes n₂ env = some (n.declaration, path₂) →
      ∀ w c, (evaluate rhs w).1 = some c → StoreLaws lhs path₁ rhs n path₂ w c

/-- The goal of the hosts is one of the guests, too. -/
theorem not_keepsStoreLaws_scoreboard : (typecheck scoreboard).isOk = true ∧
    typecheckDeclarations scoreboard = .ok declaredScoreboard ∧
    ¬ KeepsStoreLaws declaredScoreboard := by
  refine ⟨by decide, declaredScoreboard_ok, fun h => ?_⟩
  have ⟨w', hrun, _, hframe⟩ := h (getEnvironment scoreboard.root [])
    (getEnvironment scoreboard.root []) (getEnvironment scoreboard.root []) ["goals", "hosts"]
    ["goals", "guests"] (.constant (.integerConstant 1)) ⟨["goals", "hosts"], ⟨[], "goals"⟩⟩
    (.constant (.integerConstant 1)) ⟨["goals", "guests"], ⟨[], "goals"⟩⟩ Ty.int rfl rfl
    ["hosts"] ["guests"] rfl rfl kickoff (.integerConstant 1) rfl
  have hw' : executeAssignmentStatement ⟨["goals", "hosts"], ⟨[], "goals"⟩⟩
      (.constant (.integerConstant 1)) kickoff = w' := Except.ok.inj (hrun 0)
  have hguests := hframe (Or.inr (by decide))
  rw [← hw'] at hguests
  revert hguests
  decide

end Stabl
