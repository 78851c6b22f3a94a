import Stabl.Simulator.EvaluateExpression
import Stabl.SymbolicExecution.Engine

/-!
# `Stabl.SymbolicExecution.Replay`: the concrete run along a path

A `Valuation` gives every symbolic variable a value. Under it a path can be replayed: an
update evaluates its expression in the store that the updates before it have made
(`SETNode.store`), and an assumed condition has to have the assumed value there
(`SETNode.Follows`). Expressions have the values that the simulator gives them
(`operandValue`).

The results of `sym_eval` have a value under a valuation too. A formula with `null` in it
has none: its text is not a term. Where the result of `sym_eval` has a value, it is the
value of the expression in the replayed store (`value_symEval`).
-/

set_option autoImplicit false

namespace Stabl

/-- The values of the variables of a statechart. -/
abbrev Store := DeclarationRef → Option Constant

/-- The values of the symbolic variables. -/
abbrev Valuation := String → Constant

/-! ### Values in a store -/

/-- `EvaluateExpression.evaluate` on an expression that calls no function. -/
def expressionValue (store : Store) (e : Expression Name) : Option Constant :=
  match operandValue store e with
  | .ok v => v
  | .error _ => none

/-- The value that an update gives its variable. -/
def SymbolicExpression.value (ρ : Valuation) (store : Store) : SymbolicExpression → Option Constant
  | .operands left right operator => expressionValue store (.binaryExpression left right operator)
  | .expression e => expressionValue store e
  | .symVars v => some (ρ v)

namespace SETNode

variable (ρ : Valuation)

/-- The store after the updates of a path. -/
def store : SETNode → Store
  | .start => fun _ => none
  | .instruction var e p => Function.update p.store var (e.value ρ p.store)
  | .decision _ p | .stateEntry _ p | .stateExit _ p | .note _ p => p.store

/-- The concrete run follows the path: every assumed condition has the assumed value. -/
def Follows : SETNode → Prop
  | .start => True
  | .note (.assume condition value) p =>
    p.Follows ∧ expressionValue (p.store ρ) condition = some (.booleanConstant value)
  | .instruction _ _ p | .decision _ p | .stateEntry _ p | .stateExit _ p
  | .note (.transition _ _) p | .note (.action _ _) p => p.Follows

end SETNode

/-! ### Values of formulas -/

/-- The value of a result of `sym_eval`. -/
def SymExpr.value (ρ : Valuation) : SymExpr → Except JavaException (Option Constant)
  | .null => .error .nullPointer
  | .constant c => .ok (some c)
  | .symVars v => .ok (some (ρ v))
  | .binaryExpression left right operator | .operands left right operator => do
    let lhs ← left.value ρ
    let rhs ← right.value ρ
    applyOperator operator lhs rhs
  | .expression e => e.value ρ
  | .not e => do
    let b ← booleanValue (← e.value ρ)
    pure (some (.booleanConstant !b))

/-- The formula is true. -/
def SymExpr.Holds (ρ : Valuation) (e : SymExpr) : Prop :=
  e.value ρ = .ok (some (.booleanConstant true))

instance (ρ : Valuation) (e : SymExpr) : Decidable (e.Holds ρ) := by
  unfold SymExpr.Holds
  infer_instance

section
variable {ρ : Valuation}

/-- Where the names of an expression have symbolic values, its formula has its value. -/
theorem value_symEvalWith {value : DeclarationRef → SymExpr} {store : Store}
    (hstore : ∀ d v, (value d).value ρ = .ok v → store d = v) :
    ∀ (e : Expression Name) {v : Option Constant}, (symEvalWith value e).value ρ = .ok v →
      operandValue store e = .ok v := by
  intro e
  induction e using Expression.operandInduction with
  | name n =>
      intro v h
      exact congrArg Except.ok (hstore n.declaration v h)
  | constant c => exact fun h => h
  | functionCall f args => exact fun h => nomatch h
  | binaryExpression left right operator ihl ihr =>
      intro v h
      have ⟨lhs, hl, h⟩ := Result.bind_eq_ok.mp h
      have ⟨rhs, hr, h⟩ := Result.bind_eq_ok.mp h
      rw [operandValue, ihl hl, ihr hr]
      exact h

theorem value_symEvalUpdateWith {value : DeclarationRef → SymExpr} {store : Store}
    (hstore : ∀ d v, (value d).value ρ = .ok v → store d = v) (e : SymbolicExpression)
    {v : Option Constant} (h : (symEvalUpdateWith value e).value ρ = .ok v) :
    e.value ρ store = v := by
  cases e with
  | operands left right operator =>
      have hvalue := value_symEvalWith hstore (.binaryExpression left right operator) h
      rw [SymbolicExpression.value, expressionValue, hvalue]
  | expression e =>
      have hvalue := value_symEvalWith hstore e h
      rw [SymbolicExpression.value, expressionValue, hvalue]
  | symVars x =>
      have hvalue : some (ρ x) = v := by simpa [symEvalUpdateWith, SymExpr.value] using h
      exact hvalue

/-- The symbolic value of a variable, where it is defined, is the value that the replay
gives it. -/
theorem SETNode.value_valueOf (n : SETNode) :
    ∀ d v, (n.valueOf d).value ρ = .ok v → n.store ρ d = v := by
  induction n with
  | start => exact fun d v h => nomatch h
  | instruction var e p ih =>
      intro d v h
      rw [SETNode.store]
      by_cases hd : var = d
      · subst hd
        rw [SETNode.valueOf, if_pos rfl] at h
        rw [Function.update_self]
        exact value_symEvalUpdateWith ih e h
      · rw [SETNode.valueOf, if_neg hd] at h
        rw [Function.update_of_ne (Ne.symm hd)]
        exact ih d v h
  | decision _ p ih | stateEntry _ p ih | stateExit _ p ih | note _ p ih => exact ih

/-- `sym_eval` followed by a valuation is the value in the replayed store. -/
theorem value_symEval {e : Expression Name} {leaf : SETNode} {v : Option Constant}
    (h : (symEval e leaf).value ρ = .ok v) : expressionValue (leaf.store ρ) e = v := by
  rw [expressionValue, value_symEvalWith leaf.value_valueOf e h]

theorem Question.holds_guard {t : PlacedTransition Name} {leaf : SETNode}
    (h : ((Question.guard t).expression leaf).Holds ρ) :
    expressionValue (leaf.store ρ) t.transition.guard = some (.booleanConstant true) :=
  value_symEval h

end

end Stabl
