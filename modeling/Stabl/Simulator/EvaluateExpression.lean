import Stabl.Simulator.ExecutionState

/-!
# `Stabl.Simulator.EvaluateExpression`: the evaluation of expressions

The class `simulator.EvaluateExpression`. A result `none` is `null`. `evaluate` catches
every exception and answers `null`; the evaluation of a binary expression throws through
to it. What was read before an exception stays read, so the evaluators return the world
in every case.
-/

set_option autoImplicit false

namespace Stabl

open AccessTrace

/-- The runtime exceptions that the evaluation of a binary expression can throw. -/
inductive JavaException where
  | nullPointer
  | classCast
  | arithmetic
deriving DecidableEq, Repr

/-- `((BooleanConstant)(e)).value`. -/
def booleanValue : Option Constant → Except JavaException Bool
  | some (.booleanConstant b) => .ok b
  | some _ => .error .classCast
  | none => .error .nullPointer

/-- `((IntegerConstant)(e)).value`. -/
def integerValue : Option Constant → Except JavaException Int32
  | some (.integerConstant n) => .ok n
  | some _ => .error .classCast
  | none => .error .nullPointer

theorem booleanValue_eq_ok {v : Option Constant} {b : Bool} (h : booleanValue v = .ok b) :
    v = some (.booleanConstant b) := by
  unfold booleanValue at h
  split at h
  · rw [Except.ok.inj h]
  · cases h
  · cases h

theorem integerValue_eq_ok {v : Option Constant} {n : Int32} (h : integerValue v = .ok n) :
    v = some (.integerConstant n) := by
  unfold integerValue at h
  split at h
  · rw [Except.ok.inj h]
  · cases h
  · cases h

/-- The operators on two integers. The division of Java truncates and throws for the
divisor 0. -/
def integerOperator (operator : OperatorType) (a b : Int32) :
    Except JavaException (Option Constant) :=
  match operator with
  | .plus => .ok (some (.integerConstant (a + b)))
  | .sub => .ok (some (.integerConstant (a - b)))
  | .div => if b = 0 then .error .arithmetic else .ok (some (.integerConstant (a / b)))
  | .mul => .ok (some (.integerConstant (a * b)))
  | .ge => .ok (some (.booleanConstant (decide (a ≥ b))))
  | .gt => .ok (some (.booleanConstant (decide (a > b))))
  | .le => .ok (some (.booleanConstant (decide (a ≤ b))))
  | .lt => .ok (some (.booleanConstant (decide (a < b))))
  | .eq => .ok (some (.booleanConstant (decide (a = b))))
  | .ne => .ok (some (.booleanConstant (decide (a ≠ b))))
  | .and | .or => .ok none

/-- The chain of `else if` at the end of `evaluateBinaryExpression`: it asks for the class
of the left operand, and casts the right one. Java's `&&` and `||` look at the right
operand only when they have to. -/
def applyOperator (operator : OperatorType) (lhs rhs : Option Constant) :
    Except JavaException (Option Constant) :=
  match lhs with
  | some (.booleanConstant a) =>
    match operator with
    | .and => if a then do
          let b ← booleanValue rhs
          pure (some (.booleanConstant b))
        else pure (some (.booleanConstant false))
    | .or => if a then pure (some (.booleanConstant true))
        else do
          let b ← booleanValue rhs
          pure (some (.booleanConstant b))
    | .eq => do
      let b ← booleanValue rhs
      pure (some (.booleanConstant (decide (a = b))))
    -- `!=` is for integers only.
    | _ => .ok none
  | some (.integerConstant a) =>
    match operator with
    | .and | .or => .ok none
    | _ => do
      let b ← integerValue rhs
      integerOperator operator a b
  -- No branch is for a string, or for `null`.
  | _ => .ok none

/-- An operand of a binary expression, and with it `evaluateBinaryExpression`: a constant
stands for itself, a name is looked up, and anything else is cast to a binary
expression, which throws for a function call. -/
def evaluateOperand : Expression Name → World → Except JavaException (Option Constant) × World
  | .constant c, w => (.ok (some c), w)
  | .name n, w => (.ok (w.getValue n.declaration).1, (w.getValue n.declaration).2)
  -- The cast to `BinaryExpression` throws.
  | .functionCall _ _, w => (.error .classCast, w)
  | .binaryExpression left right operator, w =>
    match evaluateOperand left w with
    | (.error e, w) => (.error e, w)
    | (.ok lhs, w) =>
      match evaluateOperand right w with
      | (.error e, w) => (.error e, w)
      | (.ok rhs, w) => (applyOperator operator lhs rhs, w)

/-- `EvaluateExpression.evaluateFunction`: only `input` has a meaning, and reads an
integer. The exceptions of `nextInt` end up in `evaluate` as well. -/
def evaluateFunction (name : FunctionName) (w : World) : Option Constant × World :=
  if name.name = "input" then
    match w.stdin with
    | some n :: rest => (some (.integerConstant n), { w with stdin := rest })
    | none :: rest => (none, { w with stdin := rest })
    | [] => (none, w)
  else
    (none, w)

/-- `EvaluateExpression.evaluate`. -/
def evaluate : Expression Name → World → Option Constant × World
  | .binaryExpression left right operator, w =>
    match evaluateOperand (.binaryExpression left right operator) w with
    | (.ok v, w) => (v, w)
    | (.error _, w) => (none, w)
  | .name n, w => w.getValue n.declaration
  | .constant c, w => (some c, w)
  | .functionCall name _, w => evaluateFunction name w

/-! ### What an evaluation leaves unchanged -/

/-- From `w` to `w'` only reads happen: the execution state is the same, and the log
grows by reads that obtain the stored values. -/
structure World.ReadsTo (w w' : World) : Prop where
  eState : w'.eState = w.eState
  log : ∃ reads : List (Access DeclarationRef (Option Constant)),
    w'.log = w.log ++ reads.map Event.access ∧ ∀ e ∈ reads, ∃ d, e =
      .get d (w.eState.valueEnvironment d)

namespace World.ReadsTo

theorem rfl (w : World) : w.ReadsTo w := ⟨Eq.refl _, [], by simp⟩

theorem trans {w w' w'' : World} (h : w.ReadsTo w') (h' : w'.ReadsTo w'') : w.ReadsTo w'' := by
  obtain ⟨reads, hlog, hreads⟩ := h.log
  obtain ⟨reads', hlog', hreads'⟩ := h'.log
  refine ⟨h'.eState.trans h.eState, reads ++ reads', ?_, ?_⟩
  · rw [hlog', hlog, List.append_assoc, List.map_append]
  · intro e he
    rcases List.mem_append.mp he with he | he
    · exact hreads e he
    · rw [← h.eState]
      exact hreads' e he

theorem getValue (w : World) (d : DeclarationRef) : w.ReadsTo (w.getValue d).2 :=
  ⟨Eq.refl _, [.get d (w.eState.valueEnvironment d)], Eq.refl _, by simp⟩

end World.ReadsTo

/-- Evaluating an operand only reads. -/
theorem evaluateOperand_readsTo (e : Expression Name) (w : World) :
    w.ReadsTo (evaluateOperand e w).2 := by
  fun_induction evaluateOperand e w with
  | case1 c w => exact .rfl w
  | case2 n w => exact .getValue w n.declaration
  | case3 f args w => exact .rfl w
  | case4 left right operator w e w' hl ihl => simpa [hl] using ihl
  | case5 left right operator w lhs w' hl e w'' hr ihl ihr =>
      simp only [hl] at ihl
      simp only [hr] at ihr
      exact ihl.trans ihr
  | case6 left right operator w lhs w' hl rhs w'' hr ihl ihr =>
      simp only [hl] at ihl
      simp only [hr] at ihr
      exact ihl.trans ihr

theorem evaluateFunction_readsTo (name : FunctionName) (w : World) :
    w.ReadsTo (evaluateFunction name w).2 := by
  unfold evaluateFunction
  split
  · split <;> exact ⟨rfl, [], by simp⟩
  · exact .rfl w

/-- An evaluation changes no variable, no configuration and no history. -/
theorem evaluate_readsTo (e : Expression Name) (w : World) : w.ReadsTo (evaluate e w).2 := by
  cases e with
  | name n => exact .getValue w n.declaration
  | constant c => exact .rfl w
  | functionCall name args => exact evaluateFunction_readsTo name w
  | binaryExpression left right operator =>
      have h := evaluateOperand_readsTo (.binaryExpression left right operator) w
      rw [evaluate]
      split
      · rename_i heq
        simpa [heq] using h
      · rename_i heq
        simpa [heq] using h

/-! ### Values of operands -/

/-- The value of an operand, as a function of the variables alone. -/
def operandValue (σ : DeclarationRef → Option Constant) :
    Expression Name → Except JavaException (Option Constant)
  | .constant c => .ok (some c)
  | .name n => .ok (σ n.declaration)
  | .functionCall _ _ => .error .classCast
  | .binaryExpression left right operator => do
    let lhs ← operandValue σ left
    let rhs ← operandValue σ right
    applyOperator operator lhs rhs

/-- The evaluator looks at the variables only. -/
theorem evaluateOperand_fst (e : Expression Name) (w : World) :
    (evaluateOperand e w).1 = operandValue w.eState.valueEnvironment e := by
  fun_induction evaluateOperand e w with
  | case1 c w => rfl
  | case2 n w => rfl
  | case3 name args w => rfl
  | case4 left right operator w x w' hl ihl =>
      have hleft : operandValue w.eState.valueEnvironment left = .error x := by
        rw [← ihl, hl]
      rw [operandValue, hleft]
      rfl
  | case5 left right operator w lhs w' hl x w'' hr ihl ihr =>
      have hleft : operandValue w.eState.valueEnvironment left = .ok lhs := by
        rw [← ihl, hl]
      have hstate : w'.eState = w.eState := by
        have hreads := evaluateOperand_readsTo left w
        rw [hl] at hreads
        exact hreads.eState
      have hright : operandValue w.eState.valueEnvironment right = .error x := by
        rw [← hstate, ← ihr, hr]
      rw [operandValue, hleft, hright]
      rfl
  | case6 left right operator w lhs w' hl rhs w'' hr ihl ihr =>
      have hleft : operandValue w.eState.valueEnvironment left = .ok lhs := by
        rw [← ihl, hl]
      have hstate : w'.eState = w.eState := by
        have hreads := evaluateOperand_readsTo left w
        rw [hl] at hreads
        exact hreads.eState
      have hright : operandValue w.eState.valueEnvironment right = .ok rhs := by
        rw [← hstate, ← ihr, hr]
      rw [operandValue, hleft, hright]
      rfl

end Stabl
