import Stabl.Lib.Commands
import Stabl.Proofs.Simulator.BigStep

/-!
# `Stabl.Proofs.Simulator.Hoare`: the program logic of the action language

`Statement.command` reads a statement as a command over worlds. Its steps are the
assignments and the expression statements, and its tests are the conditions, as the simulator
looks at them: a condition in which it finds no boolean constant has no outcome.

`runs_iff_exec` says that the simulator executes the command of a statement. So the rules of
`Commands` are rules for `executeStatement`, and `hoare_iff` that they miss nothing.
-/

set_option autoImplicit false

namespace Stabl

open Commands Result

mutual

/-- The command of a statement. -/
def Statement.command : Statement Name → Command World
  | .statementList statements => commandOfList statements
  | .assignmentStatement lhs rhs => .step (executeAssignmentStatement lhs rhs)
  | .ifStatement condition thenBody elseBody =>
    .branch (conditionValue condition) thenBody.command elseBody.command
  | .whileStatement condition body => .loop (conditionValue condition) body.command
  | .expressionStatement expression => .step fun w => (evaluate expression w).2
  | .haltStatement => .halt
  | .skipStatement => .skip

/-- The command of a list of statements. -/
def commandOfList : List (Statement Name) → Command World
  | [] => .skip
  | st :: sts => .seq st.command (commandOfList sts)

end

/-! ### The simulator executes the command -/

mutual

theorem exec_of_executeStatementList {f : Statement Name → World → Sim World}
    (hf : ∀ s w w', f s w = .ok w' → Exec s.command w w') : ∀ (s : Statement Name) (w w' : World),
      executeStatementList f s w = .ok w' → Exec s.command w w'
  | .statementList statements, w, w', hw => by
      rw [Statement.command]
      exact exec_of_executeStatements hf statements w w' hw
  | .assignmentStatement _ _, w, w', hw => hf _ w w' hw
  | .ifStatement _ _ _, w, w', hw => hf _ w w' hw
  | .whileStatement _ _, w, w', hw => hf _ w w' hw
  | .expressionStatement _, w, w', hw => hf _ w w' hw
  | .haltStatement, w, w', hw => hf _ w w' hw
  | .skipStatement, w, w', hw => hf _ w w' hw

theorem exec_of_executeStatements {f : Statement Name → World → Sim World}
    (hf : ∀ s w w', f s w = .ok w' → Exec s.command w w') :
    ∀ (sts : List (Statement Name)) (w w' : World),
      executeStatements f sts w = .ok w' → Exec (commandOfList sts) w w'
  | [], w, w', hw => by
      rw [executeStatements, Except.ok.injEq] at hw
      rw [commandOfList]
      exact hw ▸ .skip
  | st :: sts, w, w', hw => by
      rw [executeStatements, bind_eq_ok] at hw
      obtain ⟨w₁, hst, hsts⟩ := hw
      rw [commandOfList]
      exact .seq (exec_of_executeStatementList hf st w w₁ hst)
        (exec_of_executeStatements hf sts w₁ w' hsts)

end

/-- What the simulator executes is an execution of the command. -/
theorem exec_of_executeStatement (fuel : Nat) : ∀ (s : Statement Name) (w w' : World),
    executeStatement fuel s w = .ok w' → Exec s.command w w' := by
  induction fuel with
  | zero =>
      intro s w w' h
      simp [executeStatement] at h
  | succ n ih =>
      intro s w w' h
      cases s with
      | statementList statements => exact exec_of_executeStatementList ih _ w w' h
      | assignmentStatement lhs rhs =>
          rw [executeStatement, Except.ok.injEq] at h
          rw [Statement.command]
          exact h ▸ .step
      | ifStatement condition thenBody elseBody =>
          simp only [executeStatement, executeConditionalStatement] at h
          rw [Statement.command]
          split at h
          · exact .branchTrue ‹_› (ih _ _ _ h)
          · exact .branchFalse ‹_› (ih _ _ _ h)
          · rw [Except.ok.injEq] at h
            exact .branchNone (h ▸ ‹_›)
      | whileStatement condition body =>
          simp only [executeStatement, executeWhileStatement] at h
          rw [Statement.command]
          split at h
          · obtain ⟨w₁, hbody, hloop⟩ := bind_eq_ok.mp h
            have hloop := ih _ _ _ hloop
            rw [Statement.command] at hloop
            exact .loopTrue ‹_› (ih _ _ _ hbody) hloop
          · rename_i hend htest
            rw [Except.ok.injEq] at h
            refine .loopEnd (h ▸ htest) ?_
            rintro rfl
            exact hend rfl
      | expressionStatement expression =>
          rw [executeStatement, Except.ok.injEq] at h
          rw [Statement.command]
          exact h ▸ .step
      | haltStatement => simp [executeStatement] at h
      | skipStatement =>
          rw [executeStatement, Except.ok.injEq] at h
          rw [Statement.command]
          exact h ▸ .skip

/-- Without an outcome, neither body is executed. -/
theorem Runs.ifNone {condition : Expression Name} {thenBody elseBody : Statement Name}
    {w w₁ : World} (hvalue : conditionValue condition w = (none, w₁)) :
    Runs (.ifStatement condition thenBody elseBody) w w₁ :=
  ⟨1, by rw [executeStatement, executeConditionalStatement, hvalue]⟩

/-- A loop ends with its last test. -/
theorem Runs.whileEnd {condition : Expression Name} {body : Statement Name} {w w₁ : World}
    {outcome : Option Bool} (hvalue : conditionValue condition w = (outcome, w₁))
    (hend : outcome ≠ some true) : Runs (.whileStatement condition body) w w₁ := by
  refine ⟨1, ?_⟩
  rw [executeStatement, executeWhileStatement, hvalue]
  rcases outcome with _ | _ | _
  · rfl
  · rfl
  · exact absurd rfl hend

/-- The rounds of a loop, in the simulator. -/
theorem runs_while_of_exec {condition : Expression Name} {body : Statement Name}
    (hbody : ∀ w w', Exec body.command w w' → Runs body w w') {w w' : World}
    (h : Exec (.loop (conditionValue condition) body.command) w w') :
    Runs (.whileStatement condition body) w w' := by
  generalize hloop : Command.loop (conditionValue condition) body.command = loop at h
  induction h with
  | loopTrue htest hc _ _ ih =>
      cases hloop
      exact .whileTrue htest (hbody _ _ hc) (ih rfl)
  | loopEnd htest hend =>
      cases hloop
      exact .whileEnd htest hend
  | step | skip | seq | branchTrue | branchFalse | branchNone => cases hloop

mutual

/-- Every execution of the command is one of the simulator. -/
theorem runs_of_exec : ∀ (s : Statement Name) (w w' : World),
    Exec s.command w w' → Runs s w w'
  | .statementList statements, w, w', h => by
      rw [Statement.command] at h
      exact runs_of_execList statements w w' h
  | .assignmentStatement lhs rhs, w, w', h => by
      rw [Statement.command, Exec.step_iff] at h
      exact ⟨1, by rw [executeStatement, h]⟩
  | .ifStatement condition thenBody elseBody, w, w', h => by
      rw [Statement.command] at h
      cases h with
      | branchTrue htest hc => exact .ifStatement htest (runs_of_exec thenBody _ w' hc)
      | branchFalse htest hd => exact .ifStatement htest (runs_of_exec elseBody _ w' hd)
      | branchNone htest => exact .ifNone htest
  | .whileStatement condition body, w, w', h => by
      rw [Statement.command] at h
      exact runs_while_of_exec (runs_of_exec body) h
  | .expressionStatement expression, w, w', h => by
      rw [Statement.command, Exec.step_iff] at h
      exact ⟨1, by rw [executeStatement, h]⟩
  | .haltStatement, w, w', h => by
      rw [Statement.command] at h
      exact absurd h Exec.not_halt
  | .skipStatement, w, w', h => by
      rw [Statement.command, Exec.skip_iff] at h
      exact ⟨1, by rw [executeStatement, h]⟩

theorem runs_of_execList : ∀ (sts : List (Statement Name)) (w w' : World),
    Exec (commandOfList sts) w w' → Runs (.statementList sts) w w'
  | [], w, w', h => by
      rw [commandOfList, Exec.skip_iff] at h
      exact h ▸ .nil w
  | st :: sts, w, w', h => by
      rw [commandOfList, Exec.seq_iff] at h
      obtain ⟨w₁, hc, hd⟩ := h
      exact .cons (runs_of_exec st w w₁ hc) (runs_of_execList sts w₁ w' hd)

end

/-- The simulator executes the command of the statement. -/
theorem runs_iff_exec {s : Statement Name} {w w' : World} :
    Runs s w w' ↔ Exec s.command w w' :=
  ⟨fun h => by
    obtain ⟨fuel, hfuel⟩ := h
    exact exec_of_executeStatement fuel s w w' hfuel, runs_of_exec s w w'⟩

/-- The program logic is sound and complete for `ExecuteStatement`: a triple of a statement
is derivable exactly when it holds of every execution that ends, and a total one exactly
when from every world of the precondition an execution ends in the postcondition. -/
theorem hoare_iff (s : Statement Name) (P Q : World → Prop) :
    (Derives P s.command Q ↔ ∀ w w', P w → Runs s w w' → Q w') ∧
      (DerivesTotal P s.command Q ↔ ∀ w, P w → ∃ w', Runs s w w' ∧ Q w') := by
  simp only [runs_iff_exec]
  exact ⟨derives_iff, derivesTotal_iff⟩

end Stabl
