import Stabl.Lib.Precedence
import Stabl.Proofs.Frontend.ParsedExpressions
import Stabl.Proofs.Simulator.Evaluation

/-!
# `Stabl.Proofs.Frontend.Precedence`: the declared precedences

The precedence declarations prescribe a tree for every sequence of operands and arithmetic
operators: `*` and `/` bind tighter than `+` and `-`, and operators of one declaration
associate to the left. Its value is the usual one (`evaluate_prescribed`).

The parser builds the tree that nests to the right. The two are the same where each operator
binds tighter than the one before it. With two declarations this leaves the sequences with
at most one operator, and those of an addition or subtraction before one multiplication or
division.
-/

set_option autoImplicit false

namespace Stabl

open Result OperatorTree

/-! ### The prescribed tree -/

/-- The four operators of arithmetic. -/
def OperatorType.isArithmetic (o : OperatorType) : Bool := o ∈ [.plus, .sub, .mul, .div]

/-- The two that multiply and divide. -/
def OperatorType.isMultiplicative (o : OperatorType) : Bool := o ∈ [.mul, .div]

/-- The place of an operator among the precedence declarations. -/
def OperatorType.level (o : OperatorType) : ℕ := (o.terminal.precedence.map Prod.fst).getD 0

theorem isArithmetic_cases {o : OperatorType} (h : o.isArithmetic = true) :
    o = .plus ∨ o = .sub ∨ o = .mul ∨ o = .div := by
  simpa [OperatorType.isArithmetic] using h

/-- The operators of arithmetic stand in two declarations, which associate to the left. -/
theorem precedence_arithmetic {o : OperatorType} (h : o.isArithmetic = true) :
    o.terminal.precedence = some (if o.isMultiplicative then 4 else 3, .left) := by
  obtain rfl | rfl | rfl | rfl := isArithmetic_cases h <;> rfl

theorem level_arithmetic {o : OperatorType} (h : o.isArithmetic = true) :
    o.level = if o.isMultiplicative then 4 else 3 := by
  rw [OperatorType.level, precedence_arithmetic h]
  rfl

/-- A node of an expression. -/
def binaryNode (left : Expression Path) (o : OperatorType) (right : Expression Path) :
    Expression Path :=
  .binaryExpression left right o

/-- The text of a sequence of operands and operators. -/
def WrittenExpression.sequence (x : WrittenOperand) :
    List (OperatorType × WrittenOperand) → WrittenExpression
  | [] => .operand x
  | (o, y) :: rest => .binary x o (sequence y rest)

/-- The tree that the precedence declarations prescribe for a sequence. -/
def prescribedTree (x : WrittenOperand) (rest : List (OperatorType × WrittenOperand)) :
    OperatorTree OperatorType WrittenOperand :=
  group OperatorType.level x rest

/-- The expression of this tree. -/
def prescribed (x : WrittenOperand) (rest : List (OperatorType × WrittenOperand)) :
    Expression Path :=
  ((prescribedTree x rest).map WrittenOperand.value).fold binaryNode

/-- The parser nests a sequence to the right. -/
theorem value_sequence (x : WrittenOperand) (rest : List (OperatorType × WrittenOperand)) :
    (WrittenExpression.sequence x rest).value =
      ((rightNested x rest).map WrittenOperand.value).fold binaryNode := by
  induction rest generalizing x with
  | nil => rfl
  | cons p rest ih =>
      show Expression.binaryExpression x.value (WrittenExpression.sequence p.2 rest).value p.1 = _
      rw [ih]
      rfl

/-- The number of binary expressions outside of calls. -/
def Expression.operators {ν : Type} : Expression ν → ℕ
  | .name _ => 0
  | .constant _ => 0
  | .functionCall _ _ => 0
  | .binaryExpression left right _ => left.operators + right.operators + 1

/-- The parser builds the prescribed expression when each operator is tighter than the one
before it, and never otherwise. -/
theorem parses_prescribed_iff (x : WrittenOperand)
    (rest : List (OperatorType × WrittenOperand)) :
    Parses (WrittenExpression.sequence x rest).tokens (prescribed x rest) ↔
      (rest.map fun p => p.1.level).Pairwise (· < ·) := by
  have hparses := (WrittenExpression.sequence x rest).parses
  constructor
  · intro h
    have hfold := hparses.unique h
    rw [value_sequence] at hfold
    -- The two trees are over one sequence, so equal expressions come from equal trees.
    have htree : (rightNested x rest).map WrittenOperand.value =
        (prescribedTree x rest).map WrittenOperand.value := by
      have hsize : ∀ l o r, (binaryNode l o r).operators = l.operators + r.operators + 1 :=
        fun _ _ _ => rfl
      have hinj : ∀ l o r l' o' r', binaryNode l o r = binaryNode l' o' r' →
          l = l' ∧ o = o' ∧ r = r' := by
        intro l o r l' o' r' h
        simp only [binaryNode, Expression.binaryExpression.injEq] at h
        exact ⟨h.1, h.2.2, h.2.1⟩
      refine fold_injective hsize hinj ?_ ?_ hfold
      · rw [first_map, first_map, first_rightNested, prescribedTree, first_group]
      · rw [rest_map, rest_map, rest_rightNested, prescribedTree, rest_group]
    have hgrouped : ((prescribedTree x rest).map WrittenOperand.value).Grouped
        OperatorType.level :=
      (grouped_map _ _).mpr (grouped_group x rest)
    rw [← htree, grouped_map, grouped_rightNested_iff] at hgrouped
    exact hgrouped
  · intro h
    rw [value_sequence, (rightNested_eq_group_iff x rest).mpr h] at hparses
    exact hparses

/-! ### The usual value -/

/-- The operators on 32-bit integers. There is no quotient by 0. -/
def arithmetic (a : Int32) (o : OperatorType) (b : Int32) : Option Int32 :=
  match o with
  | .plus => some (a + b)
  | .sub => some (a - b)
  | .mul => some (a * b)
  | .div => if b = 0 then none else some (a / b)
  | _ => none

/-- The usual value of a sequence: products and quotients are calculated from left to right, and
added and subtracted from left to right. -/
def usualValue (a : Int32) (rest : List (OperatorType × Int32)) : Option Int32 :=
  sumOfTerms arithmetic OperatorType.isMultiplicative some a rest

/-- `1 + 2 * 3 - 4` is 3. -/
example : usualValue 1 [(.plus, 2), (.mul, 3), (.sub, 4)] = some 3 := by decide

/-- The value of the prescribed tree is the usual one. -/
theorem value_prescribedTree (v : WrittenOperand → Int32) (x : WrittenOperand)
    {rest : List (OperatorType × WrittenOperand)} (hrest : ∀ p ∈ rest, p.1.isArithmetic = true) :
    ((prescribedTree x rest).map v).value arithmetic =
      usualValue (v x) (rest.map (Prod.map id v)) := by
  have hlevels : ∀ p ∈ rest.map (Prod.map id v),
      p.1.level = if p.1.isMultiplicative then 4 else 3 := by
    intro p hp
    obtain ⟨q, hq, rfl⟩ := List.mem_map.mp hp
    exact level_arithmetic (hrest q hq)
  have htwo : ∀ o p : OperatorType,
      (if o.isMultiplicative then 4 else 3) < (if p.isMultiplicative then 4 else 3) ↔
        p.isMultiplicative = true ∧ ¬ o.isMultiplicative = true := by
    intro o p
    cases o.isMultiplicative <;> cases p.isMultiplicative <;> simp
  have hgroup : group OperatorType.level (v x) (rest.map (Prod.map id v)) =
      group (fun o => if o.isMultiplicative then 4 else 3) (v x) (rest.map (Prod.map id v)) :=
    group_congr (v x) hlevels
  rw [prescribedTree, map_group, hgroup]
  exact value_group htwo (v x) _

/-- The simulator's value of an operand is the integer `n`. -/
def HasIntegerValue (sc : Declared) (env : Environment) (w : World) (x : WrittenOperand)
    (n : Int32) : Prop :=
  ∃ x' ty, sc.typecheckExpression env x.value = .ok (x', ty) ∧
    (evaluateOperand x' w).1 = .ok (some (.integerConstant n))

/-- How the simulator answers for an integer, and for a division by 0. -/
def integerResult : Option Int32 → Except JavaException (Option Constant)
  | some n => .ok (some (.integerConstant n))
  | none => .error .arithmetic

section Evaluate

variable {sc : Declared} {env : Environment} {w : World} {v : WrittenOperand → Int32}

/-- The simulator applies an operator of arithmetic to two values. -/
theorem applyOperator_arithmetic {o : OperatorType} (h : o.isArithmetic = true) (a b : Int32) :
    applyOperator o (some (.integerConstant a)) (some (.integerConstant b)) =
      integerResult (arithmetic a o b) := by
  obtain rfl | rfl | rfl | rfl := isArithmetic_cases h
  · rfl
  · rfl
  · rfl
  · show (if b = 0 then _ else _) = integerResult (if b = 0 then _ else _)
    split <;> rfl

/-- A tree of operands is evaluated node by node. -/
theorem operandValue_tree {t : OperatorTree OperatorType WrittenOperand}
    (hoperators : t.AllOperators (·.isArithmetic = true))
    (hoperands : t.AllOperands fun y => HasIntegerValue sc env w y (v y))
    {e : Expression Name} {ty : Ty}
    (h : sc.typecheckExpression env ((t.map WrittenOperand.value).fold binaryNode) = .ok (e, ty)) :
    operandValue w.eState.valueEnvironment e = integerResult ((t.map v).value arithmetic) := by
  induction t generalizing e ty with
  | leaf x =>
      obtain ⟨x', type, hx, hvalue⟩ := hoperands
      have heq : (x', type) = (e, ty) := Except.ok.inj (hx.symm.trans h)
      obtain ⟨rfl, rfl⟩ := Prod.mk.inj heq
      rw [← evaluateOperand_fst]
      exact hvalue
  | node l o r ihl ihr =>
      obtain ⟨hlops, ho, hrops⟩ := hoperators
      simp only [OperatorTree.map, fold, binaryNode, Declared.typecheckExpression] at h
      obtain ⟨⟨left, leftType⟩, hleft, h⟩ := bind_eq_ok.mp h
      obtain ⟨⟨right, rightType⟩, hright, h⟩ := bind_eq_ok.mp h
      obtain ⟨type, _, h⟩ := bind_eq_ok.mp h
      rw [pure_eq_ok, Prod.mk.injEq] at h
      obtain ⟨rfl, rfl⟩ := h
      have hl := ihl hlops hoperands.1 hleft
      have hr := ihr hrops hoperands.2 hright
      simp only [operandValue, hl, hr, OperatorTree.map, value]
      cases (l.map v).value arithmetic with
      | none => rfl
      | some a =>
          cases (r.map v).value arithmetic with
          | none => rfl
          | some b => exact applyOperator_arithmetic ho a b

/-- The prescribed expression evaluates to the usual value. -/
theorem evaluate_prescribed {x : WrittenOperand} {rest : List (OperatorType × WrittenOperand)}
    (hrest : ∀ p ∈ rest, p.1.isArithmetic = true)
    (hx : HasIntegerValue sc env w x (v x))
    (hvalues : ∀ p ∈ rest, HasIntegerValue sc env w p.2 (v p.2)) {e : Expression Name} {ty : Ty}
    (h : sc.typecheckExpression env (prescribed x rest) = .ok (e, ty)) :
    (evaluate e w).1 = (usualValue (v x) (rest.map (Prod.map id v))).map .integerConstant := by
  have hoperators : (prescribedTree x rest).AllOperators (·.isArithmetic = true) := by
    rw [allOperators_iff, prescribedTree, rest_group]
    exact hrest
  have hoperands : (prescribedTree x rest).AllOperands
      fun y => HasIntegerValue sc env w y (v y) := by
    rw [allOperands_iff, prescribedTree, first_group, rest_group]
    exact ⟨hx, hvalues⟩
  have hvalue := operandValue_tree hoperators hoperands h
  rw [value_prescribedTree v x hrest] at hvalue
  -- A call is no operand, so `evaluate` answers as the operand does.
  have hcall : ∀ name args, e ≠ .functionCall name args := by
    intro name args he
    rw [he] at hvalue
    cases husual : usualValue (v x) (rest.map (Prod.map id v)) <;>
      simp [husual, operandValue, integerResult] at hvalue
  cases husual : usualValue (v x) (rest.map (Prod.map id v)) with
  | some n =>
      rw [husual] at hvalue
      exact (evaluate_fst w hcall _).mpr hvalue
  | none =>
      rw [husual] at hvalue
      rw [Option.map_none, Option.eq_none_iff_forall_ne_some]
      intro c hc
      rw [evaluate_fst w hcall, hvalue] at hc
      cases hc

end Evaluate

/-! ### Arithmetic as declared -/

/-- A sequence is calculated as the precedences declare it: the parser builds the prescribed
tree, and the simulator's value of what the parser builds is the usual one. -/
structure CalculatesAsDeclared (x : WrittenOperand)
    (rest : List (OperatorType × WrittenOperand)) : Prop where
  tree : Parses (WrittenExpression.sequence x rest).tokens (prescribed x rest)
  value : ∀ (sc : Declared) (env : Environment) (w : World) (v : WrittenOperand → Int32) e e' ty,
    Parses (WrittenExpression.sequence x rest).tokens e →
    sc.typecheckExpression env e = .ok (e', ty) →
    HasIntegerValue sc env w x (v x) → (∀ p ∈ rest, HasIntegerValue sc env w p.2 (v p.2)) →
    (evaluate e' w).1 = (usualValue (v x) (rest.map (Prod.map id v))).map .integerConstant

/-- At most one operator, or two of which the first adds or subtracts and the second
multiplies or divides. -/
def tightens : List OperatorType → Bool
  | [] => true
  | [_] => true
  | [o, p] => !o.isMultiplicative && p.isMultiplicative
  | _ => false

/-- There are two levels, so no three operators are each tighter than the one before. -/
theorem pairwise_level_iff {operators : List OperatorType}
    (h : ∀ o ∈ operators, o.isArithmetic = true) :
    (operators.map OperatorType.level).Pairwise (· < ·) ↔ tightens operators = true := by
  match operators with
  | [] => simp [tightens]
  | [o] => simp [tightens]
  | [o, p] =>
      have ho := level_arithmetic (h o (by simp))
      have hp := level_arithmetic (h p (by simp))
      simp only [List.map_cons, List.map_nil, List.pairwise_pair, ho, hp, tightens]
      cases o.isMultiplicative <;> cases p.isMultiplicative <;> simp
  | o :: p :: q :: operators =>
      have ho := level_arithmetic (h o (by simp))
      have hp := level_arithmetic (h p (by simp))
      have hq := level_arithmetic (h q (by simp))
      have hnot : ¬ (o.level < p.level ∧ p.level < q.level) := by
        rw [ho, hp, hq]
        split <;> split <;> split <;> omega
      show _ ↔ false = true
      simp only [List.map_cons, List.pairwise_cons, Bool.false_eq_true, iff_false]
      intro ⟨hop, hpq, _⟩
      exact hnot ⟨hop _ (by simp), hpq _ (by simp)⟩

/-- Exactly the sequences of increasing precedence are calculated as declared. -/
theorem calculatesAsDeclared_iff (x : WrittenOperand)
    (rest : List (OperatorType × WrittenOperand)) (hrest : ∀ p ∈ rest, p.1.isArithmetic = true) :
    CalculatesAsDeclared x rest ↔ tightens (rest.map Prod.fst) = true := by
  have hoperators : ∀ o ∈ rest.map Prod.fst, o.isArithmetic = true := by
    intro o ho
    obtain ⟨p, hp, rfl⟩ := List.mem_map.mp ho
    exact hrest p hp
  rw [← pairwise_level_iff hoperators, List.map_map]
  constructor
  · intro h
    exact (parses_prescribed_iff x rest).mp h.tree
  · intro h
    have htree := (parses_prescribed_iff x rest).mpr h
    refine ⟨htree, ?_⟩
    intro sc env w v e e' ty hparses htyped hx hvalues
    rw [hparses.unique htree] at htyped
    exact evaluate_prescribed hrest hx hvalues htyped

/-- `a + b * c`. -/
theorem calculatesAsDeclared_iff_sum :
    CalculatesAsDeclared (.name ["a"]) [(.plus, .name ["b"]), (.mul, .name ["c"])] :=
  (calculatesAsDeclared_iff (.name ["a"]) [(.plus, .name ["b"]), (.mul, .name ["c"])]
    (by decide)).mpr rfl

/-- An integer constant. -/
def integer (n : Int32) : WrittenOperand := .constant (.integerConstant n)

/-- The parser reads `1 - 2 - 3` as `1 - (2 - 3)`. The simulator's value of this is 2, and the
usual one is -4. -/
theorem not_calculatesAsDeclared_difference :
    ¬ CalculatesAsDeclared (integer 1) [(.sub, integer 2), (.sub, integer 3)] ∧
      Parses (WrittenExpression.sequence (integer 1) [(.sub, integer 2), (.sub, integer 3)]).tokens
        (.binaryExpression (.constant (.integerConstant 1)) (.binaryExpression
          (.constant (.integerConstant 2)) (.constant (.integerConstant 3)) .sub) .sub) ∧
      (∀ w, (evaluate (.binaryExpression (.constant (.integerConstant 1)) (.binaryExpression
        (.constant (.integerConstant 2)) (.constant (.integerConstant 3)) .sub) .sub) w).1 =
          some (.integerConstant 2)) ∧
      usualValue 1 [(.sub, 2), (.sub, 3)] = some (-4) := by
  refine ⟨?_, WrittenExpression.parses _, ?_, by decide⟩
  · intro h
    have hlevels := (parses_prescribed_iff _ _).mp h.tree
    revert hlevels
    decide
  · intro w
    rfl

end Stabl
