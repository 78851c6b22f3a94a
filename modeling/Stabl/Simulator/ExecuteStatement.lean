import Stabl.Lib.Result
import Stabl.Simulator.EvaluateExpression

/-!
# `Stabl.Simulator.ExecuteStatement`: the execution of statements

The class `simulator.ExecuteStatement`. Its methods catch every exception themselves, so
a statement ends with a world, or with `System.exit`, or not at all. The fuel bounds
the depth of the calls of `executeStatement`: the while statement calls itself for the
rest of the loop.

`executeStatement` passes itself, with less fuel, to the methods it calls. The
`Runs` predicate says that some fuel is enough.
-/

set_option autoImplicit false

namespace Stabl

open AccessTrace Result

/-- `ExecuteStatement.executeAssignmentStatement`. -/
def executeAssignmentStatement (lhs : Name) (rhs : Expression Name) (w : World) : World :=
  (evaluate rhs w).2.setValue lhs.declaration (evaluate rhs w).1

mutual

/-- `ExecuteStatement.executeStatementList`: nested lists are flattened, and every other
statement is executed. -/
def executeStatementList (execute : Statement Name → World → Sim World) :
    Statement Name → World → Sim World
  | .statementList statements, w => executeStatements execute statements w
  | st, w => execute st w

/-- The loop of `executeStatementList`. -/
def executeStatements (execute : Statement Name → World → Sim World) :
    List (Statement Name) → World → Sim World
  | [], w => .ok w
  | st :: sts, w => do
    let w ← executeStatementList execute st w
    executeStatements execute sts w

end

/-- The value of a condition, as `executeConditionalStatement` and
`executeWhileStatement` find it: only a boolean constant or a binary expression is
looked at. `none` means that no branch is taken: the condition has another form, or it
evaluates to something that is no boolean constant and the cast throws. -/
def conditionValue (condition : Expression Name) (w : World) : Option Bool × World :=
  match condition with
  | .constant (.booleanConstant b) => (some b, w)
  | .binaryExpression left right operator =>
    match evaluate (.binaryExpression left right operator) w with
    | (some (.booleanConstant b), w) => (some b, w)
    | (_, w) => (none, w)
  | _ => (none, w)

/-- `ExecuteStatement.executeConditionalStatement`. -/
def executeConditionalStatement (execute : Statement Name → World → Sim World)
    (condition : Expression Name) (thenBody elseBody : Statement Name) (w : World) : Sim World :=
  match conditionValue condition w with
  | (some true, w) => execute thenBody w
  | (some false, w) => execute elseBody w
  | (none, w) => .ok w

/-- `ExecuteStatement.executeWhileStatement`: the body, then the loop again. -/
def executeWhileStatement (execute : Statement Name → World → Sim World)
    (condition : Expression Name) (body : Statement Name) (w : World) : Sim World :=
  match conditionValue condition w with
  | (some true, w) => do
    let w ← execute body w
    execute (.whileStatement condition body) w
  | (_, w) => .ok w

/-- `ExecuteStatement.executeStatement`. -/
def executeStatement : (fuel : Nat) → Statement Name → World → Sim World
  | 0, _, _ => .error .outOfFuel
  | fuel + 1, statement, w =>
    match statement with
    | .statementList statements =>
      executeStatementList (executeStatement fuel) (.statementList statements) w
    | .assignmentStatement lhs rhs => .ok (executeAssignmentStatement lhs rhs w)
    | .ifStatement condition thenBody elseBody =>
      executeConditionalStatement (executeStatement fuel) condition thenBody elseBody w
    | .whileStatement condition body =>
      executeWhileStatement (executeStatement fuel) condition body w
    | .expressionStatement expression => .ok (evaluate expression w).2
    | .skipStatement => .ok w
    | .haltStatement => .error .exit

/-- With enough fuel, `executeStatement` takes `w` to `w'`. -/
def Runs (s : Statement Name) (w w' : World) : Prop := ∃ fuel, executeStatement fuel s w = .ok w'

/-! ### More fuel gives the same result -/

/-- `f` ends wherever `g` ends, with the same world. -/
def Extends (g f : Statement Name → World → Sim World) : Prop :=
  ∀ s w w', f s w = .ok w' → g s w = .ok w'

mutual

theorem executeStatementList_extends {f g : Statement Name → World → Sim World}
    (h : Extends g f) : ∀ (s : Statement Name) (w w' : World),
      executeStatementList f s w = .ok w' → executeStatementList g s w = .ok w'
  | .statementList statements, w, w', hw => by
      rw [executeStatementList] at hw ⊢
      exact executeStatements_extends h statements w w' hw
  | .assignmentStatement _ _, w, w', hw => h _ w w' hw
  | .ifStatement _ _ _, w, w', hw => h _ w w' hw
  | .whileStatement _ _, w, w', hw => h _ w w' hw
  | .expressionStatement _, w, w', hw => h _ w w' hw
  | .haltStatement, w, w', hw => h _ w w' hw
  | .skipStatement, w, w', hw => h _ w w' hw

theorem executeStatements_extends {f g : Statement Name → World → Sim World}
    (h : Extends g f) : ∀ (sts : List (Statement Name)) (w w' : World),
      executeStatements f sts w = .ok w' → executeStatements g sts w = .ok w'
  | [], w, w', hw => hw
  | st :: sts, w, w', hw => by
      rw [executeStatements, bind_eq_ok] at hw ⊢
      obtain ⟨w₁, hst, hsts⟩ := hw
      exact ⟨w₁, executeStatementList_extends h st w w₁ hst,
        executeStatements_extends h sts w₁ w' hsts⟩

end

/-- One more unit of fuel changes no result. -/
theorem executeStatement_succ (fuel : Nat) :
    Extends (executeStatement (fuel + 1)) (executeStatement fuel) := by
  induction fuel with
  | zero =>
      intro s w w' h
      simp [executeStatement] at h
  | succ n ih =>
      intro s w w' h
      cases s with
      | statementList statements => exact executeStatementList_extends ih _ _ _ h
      | assignmentStatement lhs rhs => exact h
      | ifStatement condition thenBody elseBody =>
          simp only [executeStatement, executeConditionalStatement] at h ⊢
          split at h
          · exact ih _ _ _ h
          · exact ih _ _ _ h
          · exact h
      | whileStatement condition body =>
          simp only [executeStatement, executeWhileStatement] at h ⊢
          split at h
          · rw [bind_eq_ok] at h ⊢
            obtain ⟨w₁, hbody, hloop⟩ := h
            exact ⟨w₁, ih _ _ _ hbody, ih _ _ _ hloop⟩
          · exact h
      | expressionStatement expression => exact h
      | haltStatement => exact h
      | skipStatement => exact h

/-- More fuel changes no result. -/
theorem executeStatement_mono {m n : Nat} (hmn : m ≤ n) :
    Extends (executeStatement n) (executeStatement m) := by
  induction hmn with
  | refl => exact fun _ _ _ h => h
  | step _ ih => exact fun s w w' h => executeStatement_succ _ s w w' (ih s w w' h)

/-! ### What an execution can do -/

mutual

theorem executeStatementList_induction {P : World → World → Prop}
    (refl : ∀ w, P w w) (trans : ∀ a b c, P a b → P b c → P a c)
    {f : Statement Name → World → Sim World}
    (hf : ∀ s w w', f s w = .ok w' → P w w') : ∀ (s : Statement Name) (w w' : World),
      executeStatementList f s w = .ok w' → P w w'
  | .statementList statements, w, w', hw =>
      executeStatements_induction refl trans hf statements w w' hw
  | .assignmentStatement _ _, w, w', hw => hf _ w w' hw
  | .ifStatement _ _ _, w, w', hw => hf _ w w' hw
  | .whileStatement _ _, w, w', hw => hf _ w w' hw
  | .expressionStatement _, w, w', hw => hf _ w w' hw
  | .haltStatement, w, w', hw => hf _ w w' hw
  | .skipStatement, w, w', hw => hf _ w w' hw

theorem executeStatements_induction {P : World → World → Prop}
    (refl : ∀ w, P w w) (trans : ∀ a b c, P a b → P b c → P a c)
    {f : Statement Name → World → Sim World}
    (hf : ∀ s w w', f s w = .ok w' → P w w') : ∀ (sts : List (Statement Name)) (w w' : World),
      executeStatements f sts w = .ok w' → P w w'
  | [], w, w', hw => by
      rw [executeStatements, Except.ok.injEq] at hw
      exact hw ▸ refl w
  | st :: sts, w, w', hw => by
      rw [executeStatements, bind_eq_ok] at hw
      obtain ⟨w₁, hst, hsts⟩ := hw
      exact trans w w₁ w' (executeStatementList_induction refl trans hf st w w₁ hst)
        (executeStatements_induction refl trans hf sts w₁ w' hsts)

end

/-- The condition of an if or a while is evaluated, or it is not looked at. -/
theorem conditionValue_world (condition : Expression Name) (w : World) :
    (conditionValue condition w).2 = (evaluate condition w).2 ∨
      (conditionValue condition w).2 = w := by
  unfold conditionValue
  split
  · exact Or.inr rfl
  · split
    · rename_i heq
      exact Or.inl (by rw [heq])
    · rename_i heq
      exact Or.inl (by rw [heq])
  · exact Or.inr rfl

/-- The induction principle of executions: a relation that is reflexive and transitive and
holds across every evaluation and every assignment holds across every execution. -/
theorem executeStatement_induction {P : World → World → Prop}
    (refl : ∀ w, P w w) (trans : ∀ a b c, P a b → P b c → P a c)
    (eval : ∀ e w, P w (evaluate e w).2)
    (assign : ∀ lhs rhs w, P w (executeAssignmentStatement lhs rhs w)) (fuel : Nat) :
    ∀ (s : Statement Name) (w w' : World), executeStatement fuel s w = .ok w' → P w w' := by
  have hcond : ∀ c w, P w (conditionValue c w).2 := by
    intro c w
    rcases conditionValue_world c w with h | h
    · exact h ▸ eval c w
    · exact h.symm ▸ refl w
  induction fuel with
  | zero =>
      intro s w w' h
      simp [executeStatement] at h
  | succ n ih =>
      intro s w w' h
      cases s with
      | statementList statements => exact executeStatementList_induction refl trans ih _ w w' h
      | assignmentStatement lhs rhs =>
          rw [executeStatement, Except.ok.injEq] at h
          exact h ▸ assign lhs rhs w
      | ifStatement condition thenBody elseBody =>
          have hc := hcond condition w
          simp only [executeStatement, executeConditionalStatement] at h
          split at h <;> rename_i heq <;> rw [heq] at hc
          · exact trans _ _ _ hc (ih _ _ _ h)
          · exact trans _ _ _ hc (ih _ _ _ h)
          · rw [Except.ok.injEq] at h
            exact h ▸ hc
      | whileStatement condition body =>
          have hc := hcond condition w
          simp only [executeStatement, executeWhileStatement] at h
          split at h <;> rename_i heq
          · rw [heq] at hc
            obtain ⟨w₁, hbody, hloop⟩ := bind_eq_ok.mp h
            exact trans _ _ _ hc (trans _ _ _ (ih _ _ _ hbody) (ih _ _ _ hloop))
          · rw [heq] at hc
            rw [Except.ok.injEq] at h
            exact h ▸ hc
      | expressionStatement expression =>
          rw [executeStatement, Except.ok.injEq] at h
          exact h ▸ eval expression w
      | haltStatement => simp [executeStatement] at h
      | skipStatement =>
          rw [executeStatement, Except.ok.injEq] at h
          exact h ▸ refl w

/-- What code can do to a world: it reads and writes variables and takes input. The
configuration, the event queue and the histories stay, and the log grows by the accesses
to variables that lead from the old values to the new. -/
structure World.ComputesTo (w w' : World) : Prop where
  configuration : w'.eState.configuration = w.eState.configuration
  eventQueue : w'.eState.eventQueue = w.eState.eventQueue
  stateHistory : w'.eState.stateHistory = w.eState.stateHistory
  valueHistory : w'.eState.valueHistory = w.eState.valueHistory
  accesses : ∃ trace : List (Access DeclarationRef (Option Constant)),
    w'.log = w.log ++ trace.map Event.access ∧
      Honest w.eState.valueEnvironment trace ∧
        w'.eState.valueEnvironment = final w.eState.valueEnvironment trace

namespace World.ComputesTo

theorem rfl (w : World) : w.ComputesTo w :=
  ⟨Eq.refl _, Eq.refl _, Eq.refl _, Eq.refl _, [], by simp⟩

theorem trans {a b c : World} (h : a.ComputesTo b) (h' : b.ComputesTo c) : a.ComputesTo c := by
  refine ⟨h'.configuration.trans h.configuration, h'.eventQueue.trans h.eventQueue,
    h'.stateHistory.trans h.stateHistory, h'.valueHistory.trans h.valueHistory, ?_⟩
  obtain ⟨trace, hlog, hhonest, hfinal⟩ := h.accesses
  obtain ⟨trace', hlog', hhonest', hfinal'⟩ := h'.accesses
  rw [hfinal] at hhonest' hfinal'
  refine ⟨trace ++ trace', ?_, honest_append.mpr ⟨hhonest, hhonest'⟩, ?_⟩
  · rw [hlog', hlog, List.append_assoc, List.map_append]
  · rw [hfinal', final_append]

/-- An evaluation is a computation without writes. -/
theorem of_readsTo {a b : World} (h : a.ReadsTo b) : a.ComputesTo b := by
  obtain ⟨reads, hlog, hreads⟩ := h.log
  have hgets := honest_of_gets hreads
  refine ⟨?_, ?_, ?_, ?_, reads, hlog, hgets.1, ?_⟩ <;> rw [h.eState]
  exact hgets.2.symm

/-- A write of one variable. -/
theorem setValue (w : World) (d : DeclarationRef) (v : Option Constant) :
    w.ComputesTo (w.setValue d v) :=
  ⟨Eq.refl _, Eq.refl _, Eq.refl _, Eq.refl _, [.set d v], Eq.refl _, trivial, Eq.refl _⟩

end World.ComputesTo

/-- Statements compute: nothing but variables, the console and the log changes. -/
theorem executeStatement_computesTo {fuel : Nat} {s : Statement Name} {w w' : World}
    (h : executeStatement fuel s w = .ok w') : w.ComputesTo w' := by
  refine executeStatement_induction World.ComputesTo.rfl (fun _ _ _ => World.ComputesTo.trans)
    ?_ ?_ fuel s w w' h
  · exact fun e w => .of_readsTo (evaluate_readsTo e w)
  · intro lhs rhs w
    have hread : w.ComputesTo (evaluate rhs w).2 := .of_readsTo (evaluate_readsTo rhs w)
    exact hread.trans (.setValue _ lhs.declaration (evaluate rhs w).1)

/-! ### Statements do not throw -/

/-- `x` does not end with an exception. -/
def NoException (x : Sim World) : Prop := ∀ w, x ≠ .error (.exception w)

theorem noException_ok (w : World) : NoException (.ok w) := by
  intro w' h
  simp at h

theorem NoException.bind {x : Sim World} {f : World → Sim World} (hx : NoException x)
    (hf : ∀ w, NoException (f w)) : NoException (x >>= f) := by
  cases x with
  | error e =>
      intro w h
      exact hx w (by simpa [Bind.bind, Except.bind] using h)
  | ok w => exact hf w

mutual

theorem executeStatementList_noException {f : Statement Name → World → Sim World}
    (hf : ∀ s w, NoException (f s w)) : ∀ (s : Statement Name) (w : World),
      NoException (executeStatementList f s w)
  | .statementList statements, w => executeStatements_noException hf statements w
  | .assignmentStatement _ _, w => hf _ w
  | .ifStatement _ _ _, w => hf _ w
  | .whileStatement _ _, w => hf _ w
  | .expressionStatement _, w => hf _ w
  | .haltStatement, w => hf _ w
  | .skipStatement, w => hf _ w

theorem executeStatements_noException {f : Statement Name → World → Sim World}
    (hf : ∀ s w, NoException (f s w)) : ∀ (sts : List (Statement Name)) (w : World),
      NoException (executeStatements f sts w)
  | [], w => noException_ok w
  | st :: sts, w => (executeStatementList_noException hf st w).bind
      fun w => executeStatements_noException hf sts w

end

/-- Every method of `ExecuteStatement` catches what it throws. -/
theorem executeStatement_noException (fuel : Nat) (s : Statement Name) (w : World) :
    NoException (executeStatement fuel s w) := by
  induction fuel generalizing s w with
  | zero =>
      intro w' h
      simp [executeStatement] at h
  | succ n ih =>
      cases s with
      | statementList statements => exact executeStatementList_noException ih _ w
      | assignmentStatement lhs rhs => exact noException_ok _
      | ifStatement condition thenBody elseBody =>
          simp only [executeStatement, executeConditionalStatement]
          split
          · exact ih _ _
          · exact ih _ _
          · exact noException_ok _
      | whileStatement condition body =>
          simp only [executeStatement, executeWhileStatement]
          split
          · exact (ih _ _).bind fun w => ih _ w
          · exact noException_ok _
      | expressionStatement expression => exact noException_ok _
      | haltStatement =>
          intro w' h
          simp [executeStatement] at h
      | skipStatement => exact noException_ok _

end Stabl
