import Stabl.Proofs.Simulator.Configuration

/-!
# `Stabl.Proofs.Simulator.BigStep`: statements against the standard semantics

`BigStep` is the textbook semantics of the action language: statements in order, the
branch that the condition selects, a loop while its condition holds, an assignment to its
left-hand variable. Expressions are evaluated by `evaluate`, and every evaluation has to
give a constant.

`executeStatement` agrees with it, but for one kind of condition. The simulator looks at
the class of a condition: a constant or a binary expression. A bare name of a boolean
variable is neither, and no branch is executed. So `BigStep` takes the conditions that an
execution may meet as a parameter. `runs_of_bigStep` says that an execution that meets no
bare name as a condition is an execution of the simulator. `runs_name_condition` says what
the simulator does with such a condition: nothing.
-/

set_option autoImplicit false

namespace Stabl

open Result

/-- The reference semantics, for executions whose conditions are all in `Meets`. -/
inductive BigStep (Meets : Expression Name → Prop) : Statement Name → World → World → Prop where
  | nil {w : World} : BigStep Meets (.statementList []) w w
  | cons {st : Statement Name} {sts : List (Statement Name)} {w w₁ w₂ : World} :
      BigStep Meets st w w₁ → BigStep Meets (.statementList sts) w₁ w₂ →
      BigStep Meets (.statementList (st :: sts)) w w₂
  | assignment {lhs : Name} {rhs : Expression Name} {w w₁ : World} {x : Constant} :
      evaluate rhs w = (some x, w₁) →
      BigStep Meets (.assignmentStatement lhs rhs) w (w₁.setValue lhs.declaration (some x))
  | ifTrue {condition : Expression Name} {thenBody elseBody : Statement Name}
      {w w₁ w₂ : World} :
      Meets condition → evaluate condition w = (some (.booleanConstant true), w₁) →
      BigStep Meets thenBody w₁ w₂ →
      BigStep Meets (.ifStatement condition thenBody elseBody) w w₂
  | ifFalse {condition : Expression Name} {thenBody elseBody : Statement Name}
      {w w₁ w₂ : World} :
      Meets condition → evaluate condition w = (some (.booleanConstant false), w₁) →
      BigStep Meets elseBody w₁ w₂ →
      BigStep Meets (.ifStatement condition thenBody elseBody) w w₂
  | whileTrue {condition : Expression Name} {body : Statement Name} {w w₁ w₂ w₃ : World} :
      Meets condition → evaluate condition w = (some (.booleanConstant true), w₁) →
      BigStep Meets body w₁ w₂ → BigStep Meets (.whileStatement condition body) w₂ w₃ →
      BigStep Meets (.whileStatement condition body) w w₃
  | whileFalse {condition : Expression Name} {body : Statement Name} {w w₁ : World} :
      Meets condition → evaluate condition w = (some (.booleanConstant false), w₁) →
      BigStep Meets (.whileStatement condition body) w w₁
  | expression {expression : Expression Name} {w w₁ : World} {x : Constant} :
      evaluate expression w = (some x, w₁) →
      BigStep Meets (.expressionStatement expression) w w₁
  | skip {w : World} : BigStep Meets .skipStatement w w

/-- The condition is no bare name. -/
def NotName (condition : Expression Name) : Prop := ∀ n, condition ≠ .name n

/-! ### How the simulator runs statements -/

theorem Runs.nil (w : World) : Runs (.statementList []) w w := ⟨1, rfl⟩

/-- A list runs its first statement and then the others. -/
theorem Runs.cons {st : Statement Name} {sts : List (Statement Name)} {w w₁ w₂ : World}
    (hst : Runs st w w₁) (hsts : Runs (.statementList sts) w₁ w₂) :
    Runs (.statementList (st :: sts)) w w₂ := by
  obtain ⟨m, hm⟩ := hst
  obtain ⟨n, hn⟩ := hsts
  obtain ⟨k, hk⟩ : ∃ k, max m n = k := ⟨_, rfl⟩
  have hst : executeStatement k st w = .ok w₁ := executeStatement_mono (by omega) _ _ _ hm
  have hsts : executeStatement (k + 1) (.statementList sts) w₁ = .ok w₂ :=
    executeStatement_mono (by omega) _ _ _ hn
  refine ⟨k + 1, ?_⟩
  show executeStatements (executeStatement k) (st :: sts) w = .ok w₂
  rw [executeStatements, bind_eq_ok]
  refine ⟨w₁, ?_, hsts⟩
  -- A nested list is flattened by the same call.
  cases st with
  | statementList inner =>
      have hinner := executeStatement_succ k _ _ _ hst
      exact hinner
  | assignmentStatement lhs rhs => exact hst
  | ifStatement condition thenBody elseBody => exact hst
  | whileStatement condition body => exact hst
  | expressionStatement expression => exact hst
  | haltStatement => exact hst
  | skipStatement => exact hst

/-- A condition that is no bare name is evaluated, as long as it has a boolean value. -/
theorem conditionValue_of_evaluate {condition : Expression Name} {b : Bool} {w w₁ : World}
    (hname : NotName condition)
    (h : evaluate condition w = (some (.booleanConstant b), w₁)) :
    conditionValue condition w = (some b, w₁) := by
  cases condition with
  | name n => exact absurd rfl (hname n)
  | constant c =>
      simp only [evaluate, Prod.mk.injEq, Option.some.injEq] at h
      obtain ⟨rfl, rfl⟩ := h
      rfl
  | binaryExpression left right operator => simp only [conditionValue, h]
  | functionCall name args =>
      -- `input` answers an integer, and any other function `null`.
      simp only [evaluate, evaluateFunction] at h
      split at h
      · split at h <;> simp at h
      · simp at h

theorem Runs.ifStatement {condition : Expression Name} {thenBody elseBody : Statement Name}
    {b : Bool} {w w₁ w₂ : World} (hvalue : conditionValue condition w = (some b, w₁))
    (hbranch : Runs (if b then thenBody else elseBody) w₁ w₂) :
    Runs (.ifStatement condition thenBody elseBody) w w₂ := by
  obtain ⟨n, hn⟩ := hbranch
  refine ⟨n + 1, ?_⟩
  rw [executeStatement, executeConditionalStatement, hvalue]
  cases b with
  | true => exact hn
  | false => exact hn

theorem Runs.whileTrue {condition : Expression Name} {body : Statement Name}
    {w w₁ w₂ w₃ : World} (hvalue : conditionValue condition w = (some true, w₁))
    (hbody : Runs body w₁ w₂) (hloop : Runs (.whileStatement condition body) w₂ w₃) :
    Runs (.whileStatement condition body) w w₃ := by
  obtain ⟨m, hm⟩ := hbody
  obtain ⟨n, hn⟩ := hloop
  refine ⟨max m n + 1, ?_⟩
  rw [executeStatement, executeWhileStatement, hvalue]
  exact bind_eq_ok.mpr ⟨w₂, executeStatement_mono (le_max_left m n) _ _ _ hm,
    executeStatement_mono (le_max_right m n) _ _ _ hn⟩

theorem Runs.whileFalse {condition : Expression Name} {body : Statement Name} {w w₁ : World}
    (hvalue : conditionValue condition w = (some false, w₁)) :
    Runs (.whileStatement condition body) w w₁ := by
  refine ⟨1, ?_⟩
  rw [executeStatement, executeWhileStatement, hvalue]

/-! ### Agreement -/

/-- An execution of the reference semantics that meets no bare name as a condition is one
of the simulator. -/
theorem runs_of_bigStep {s : Statement Name} {w w' : World} (h : BigStep NotName s w w') :
    Runs s w w' := by
  induction h with
  | nil => exact .nil _
  | cons _ _ hst hsts => exact hst.cons hsts
  | assignment hrhs => exact ⟨1, by rw [executeStatement, executeAssignmentStatement, hrhs]⟩
  | ifTrue hname hcond _ hthen =>
      exact .ifStatement (conditionValue_of_evaluate hname hcond) hthen
  | ifFalse hname hcond _ helse =>
      exact .ifStatement (conditionValue_of_evaluate hname hcond) helse
  | whileTrue hname hcond _ _ hbody hloop =>
      exact .whileTrue (conditionValue_of_evaluate hname hcond) hbody hloop
  | whileFalse hname hcond => exact .whileFalse (conditionValue_of_evaluate hname hcond)
  | expression he => exact ⟨1, by rw [executeStatement, he]⟩
  | skip => exact ⟨1, rfl⟩

/-- With a bare name as its condition, an if or a while ends at once and changes
nothing. -/
theorem runs_name_condition {s : Statement Name} {n : Name}
    (hs : (∃ thenBody elseBody, s = .ifStatement (.name n) thenBody elseBody) ∨
      ∃ body, s = .whileStatement (.name n) body) {w w' : World} : Runs s w w' ↔ w' = w := by
  have hend : ∀ fuel, executeStatement (fuel + 1) s w = .ok w := by
    intro fuel
    rcases hs with ⟨thenBody, elseBody, rfl⟩ | ⟨body, rfl⟩ <;> rfl
  constructor
  · rintro ⟨fuel, h⟩
    have hmore := executeStatement_succ fuel _ _ _ h
    rw [hend, Except.ok.injEq] at hmore
    exact hmore.symm
  · rintro rfl
    exact ⟨1, hend 0⟩

/-- The simulator against the reference semantics. An execution that meets no bare name as
a condition ends in the same world. An if or a while whose own condition is a bare name
agrees with the reference exactly where the reference changes no variable. -/
theorem executeStatement_agrees (s : Statement Name) (w w' : World) :
    (BigStep NotName s w w' → Runs s w w') ∧
      ∀ n, ((∃ thenBody elseBody, s = .ifStatement (.name n) thenBody elseBody) ∨
          ∃ body, s = .whileStatement (.name n) body) →
        BigStep (fun _ => True) s w w' →
          ((∃ w'', Runs s w w'' ∧
              w''.eState.valueEnvironment = w'.eState.valueEnvironment) ↔
            w'.eState.valueEnvironment = w.eState.valueEnvironment) := by
  refine ⟨runs_of_bigStep, ?_⟩
  intro n hs _
  simp only [runs_name_condition hs, exists_eq_left]
  exact eq_comm

/-! ### A condition that is a bare name -/

/-- On entry the level of the lamp is set if the lamp is on. -/
def lamp : Statechart where
  root := {
    name := "Lamp"
    declarations := ⟨[⟨"on", .localScope, .mk "boolean" [], false⟩,
      ⟨"level", .localScope, .mk "int" [], false⟩], by decide⟩
    entry := .ifStatement (.name ["on"])
      (.assignmentStatement ["level"] (.constant (.integerConstant 1))) (.statementList [])
    exit := .statementList []
    states := [], transitions := []
    history := false, region := false, shell := false, fin := false }
  moreTypes := []
  events := []
  functionDeclarations := []
  initialised := by decide

/-- Every accepted statement of the statechart ends with the values of the reference
semantics. -/
def ExecutesLikeReference (sc : Statechart) : Prop :=
  ∀ d renv wenv s s' w w', typecheckDeclarations sc = .ok d →
    d.typecheckStatement renv wenv s = .ok s' → BigStep (fun _ => True) s' w w' →
      ∃ w'', Runs s' w w'' ∧ w''.eState.valueEnvironment = w'.eState.valueEnvironment

/-- A list of two assignments, of which the second one reads the first one's variable. -/
theorem executeStatement_agrees_assignments :
    Runs (.statementList [
        .assignmentStatement ⟨["level"], ⟨[], "level"⟩⟩ (.constant (.integerConstant 1)),
        .assignmentStatement ⟨["level"], ⟨[], "level"⟩⟩
          (.binaryExpression (.name ⟨["level"], ⟨[], "level"⟩⟩)
            (.constant (.integerConstant 1)) .plus)])
      (World.initial (accepted lamp).root [] [])
      ((((World.initial (accepted lamp).root [] []).setValue ⟨[], "level"⟩
        (some (.integerConstant 1))).getValue ⟨[], "level"⟩).2.setValue ⟨[], "level"⟩
          (some (.integerConstant 2))) :=
  (executeStatement_agrees _ _ _).1 (.cons (.assignment rfl) (.cons (.assignment rfl) .nil))

/-- With `on` true, the reference sets `level` to 1, and the simulator does nothing. -/
theorem not_executesLikeReference_lamp :
    (typecheck lamp).isOk = true ∧ ¬ ExecutesLikeReference lamp := by
  refine ⟨by decide, fun h => ?_⟩
  let on : Name := ⟨["on"], ⟨[], "on"⟩⟩
  let level : Name := ⟨["level"], ⟨[], "level"⟩⟩
  let w : World :=
    (World.initial (accepted lamp).root [] []).put on.declaration (some (.booleanConstant true))
  have hentry : (getD (typecheckDeclarations lamp) ⟨lamp.root, [], [], []⟩).typecheckStatement
      (getEnvironment lamp.root []) (getEnvironment lamp.root []) lamp.root.entry =
      .ok (.ifStatement (.name on)
        (.assignmentStatement level (.constant (.integerConstant 1))) (.statementList [])) := rfl
  obtain ⟨w'', hruns, henv⟩ := h _ _ _ _ _ w _ (eq_ok_getD (by decide) _) hentry
    (.ifTrue trivial rfl (.assignment rfl))
  rw [runs_name_condition (Or.inl ⟨_, _, rfl⟩)] at hruns
  subst hruns
  have hlevel := congrFun henv ⟨[], "level"⟩
  revert hlevel
  decide

end Stabl
