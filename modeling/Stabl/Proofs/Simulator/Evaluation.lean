import Stabl.Proofs.Frontend.TypeTable
import Stabl.Proofs.Simulator.BigStep

/-!
# `Stabl.Proofs.Simulator.Evaluation`: typed expressions and their values

The typechecker's table of operators against the evaluator's chain of class tests. The
typechecker compares any two operands of one type. The evaluator implements all
comparisons for integers, `=` for booleans, and nothing for strings, and it takes no
function call as an operand. Where it implements nothing it answers `null`.

`meaning` is the standard meaning of an expression, and `supported` tells, from the
expression and the values of its variables, whether the evaluator finds a constant. The
right operand of a `&&` or `||` that the left operand decides may lack a value; it may not
throw (`nullValued`). `operandValue_spec` is the comparison of the two tables: a typed
expression evaluates to a constant exactly when it is supported, and then to a constant of
its type, which is its meaning.
-/

set_option autoImplicit false

namespace Stabl

open Result World

/-! ### Values of operands -/

/-- `evaluate` turns an exception into `null`. -/
theorem evaluate_fst {e : Expression Name} (w : World)
    (he : ∀ name args, e ≠ .functionCall name args) (x : Constant) :
    (evaluate e w).1 = some x ↔ operandValue w.eState.valueEnvironment e = .ok (some x) := by
  cases e with
  | name n => simp [evaluate, operandValue, getValue]
  | constant c => simp [evaluate, operandValue]
  | functionCall name args => exact absurd rfl (he name args)
  | binaryExpression left right operator =>
      rw [← evaluateOperand_fst, evaluate]
      split
      · rename_i v w' heq
        simp [heq]
      · rename_i exception w' heq
        simp [heq]

/-! ### Types and meanings -/

/-- A constant has a type; the types of structs and of user-declared basic types have no
constants. -/
def HasType : Constant → Ty → Prop
  | .booleanConstant _, ty => ty = Ty.boolean
  | .integerConstant _, ty => ty = Ty.int
  | .stringLiteral _, ty => ty = Ty.string

/-- The standard meaning of the operators on integers; the quotient by 0 has none. -/
def integerMeaning (operator : OperatorType) (a b : Int32) : Option Constant :=
  match operator with
  | .plus => some (.integerConstant (a + b))
  | .sub => some (.integerConstant (a - b))
  | .mul => some (.integerConstant (a * b))
  | .div => if b = 0 then none else some (.integerConstant (a / b))
  | .ge => some (.booleanConstant (decide (a ≥ b)))
  | .gt => some (.booleanConstant (decide (a > b)))
  | .le => some (.booleanConstant (decide (a ≤ b)))
  | .lt => some (.booleanConstant (decide (a < b)))
  | .eq => some (.booleanConstant (decide (a = b)))
  | .ne => some (.booleanConstant (decide (a ≠ b)))
  | .and | .or => none

/-- The standard meaning of the operators. `&&` and `||` do not need their right operand
when the left one decides. -/
def operatorMeaning (operator : OperatorType) (lhs rhs : Option Constant) : Option Constant :=
  match lhs, rhs with
  | some (.integerConstant a), some (.integerConstant b) => integerMeaning operator a b
  | some (.booleanConstant a), rhs =>
    match operator, rhs with
    | .and, some (.booleanConstant b) => some (.booleanConstant (a && b))
    | .or, some (.booleanConstant b) => some (.booleanConstant (a || b))
    | .and, _ => if a then none else some (.booleanConstant false)
    | .or, _ => if a then some (.booleanConstant true) else none
    | .eq, some (.booleanConstant b) => some (.booleanConstant (decide (a = b)))
    | .ne, some (.booleanConstant b) => some (.booleanConstant (decide (a ≠ b)))
    | _, _ => none
  | some (.stringLiteral a), some (.stringLiteral b) =>
    match operator with
    | .eq => some (.booleanConstant (decide (a = b)))
    | .ne => some (.booleanConstant (decide (a ≠ b)))
    | _ => none
  | _, _ => none

/-- The standard meaning of an expression that calls no function. -/
def meaning (σ : DeclarationRef → Option Constant) : Expression Name → Option Constant
  | .constant c => some c
  | .name n => σ n.declaration
  | .functionCall _ _ => none
  | .binaryExpression left right operator =>
    operatorMeaning operator (meaning σ left) (meaning σ right)

/-! ### What the evaluator supports -/

/-- The operators that the evaluator implements for a left operand. -/
def implemented (operator : OperatorType) : Constant → Bool
  | .integerConstant _ => operator ≠ .and && operator ≠ .or
  | .booleanConstant _ => operator = .and || operator = .or || operator = .eq
  | .stringLiteral _ => false

/-- The left operand alone decides the value. -/
def decides (operator : OperatorType) : Constant → Bool
  | .booleanConstant a => if a then operator = .or else operator = .and
  | _ => false

mutual

/-- Every variable that is read has a value, no operand is a function call, and every
operator is implemented for its left operand. A right operand that is not needed may be
`nullValued` instead. -/
def supported (σ : DeclarationRef → Option Constant) : Expression Name → Bool
  | .constant _ => true
  | .name n => (σ n.declaration).isSome
  | .functionCall _ _ => false
  | .binaryExpression left right operator =>
    supported σ left &&
      match meaning σ left with
      | some a => implemented operator a &&
          (supported σ right || (decides operator a && nullValued σ right))
      | none => false

/-- The evaluator answers `null` without an exception: a variable has no value, or an
operator is not implemented. -/
def nullValued (σ : DeclarationRef → Option Constant) : Expression Name → Bool
  | .constant _ => false
  | .name n => (σ n.declaration).isNone
  | .functionCall _ _ => false
  | .binaryExpression left right operator =>
    (supported σ right || nullValued σ right) &&
      (nullValued σ left || (supported σ left &&
        match meaning σ left with
        | some a => !implemented operator a
        | none => false))

end

/-! ### Names -/

/-- `P` holds of the names that are evaluated as operands. -/
def Expression.AllNames {ν : Type} (P : ν → Prop) : Expression ν → Prop
  | .name n => P n
  | .constant _ => True
  | .binaryExpression left right _ => left.AllNames P ∧ right.AllNames P
  | .functionCall _ _ => True

/-- The name denotes a whole variable, without a field path, and the variable holds no
constant of another type than its own. -/
def NameRespected (sc : Declared) (env : Environment) (σ : DeclarationRef → Option Constant)
    (name : Path) : Prop :=
  ∀ ref dec rest, sc.locateName name env = some ((ref, dec), rest) → rest.length = 1 ∧
    ∀ ty c, typecheckDeclaration sc.types [] dec = .ok ty → σ ref = some c → HasType c ty

/-! ### The table of the typechecker -/

/-- What `typecheckOperator` asks of the operand types. -/
theorem typecheckOperator_eq_ok {sc : Declared} (hbuiltin : BuiltinFirst sc.types)
    {operator : OperatorType} {left right ty : Ty}
    (h : sc.typecheckOperator operator left right = .ok ty) :
    (operator ∈ [OperatorType.plus, .mul, .sub, .div] ∧ left.equals Ty.int ∧
        right.equals Ty.int ∧ ty = Ty.int) ∨
      (operator ∈ [OperatorType.ge, .gt, .le, .lt, .ne, .eq] ∧ left.equals right ∧
        ty = Ty.boolean) ∨
      (operator ∈ [OperatorType.and, .or] ∧ left.equals Ty.boolean ∧
        right.equals Ty.boolean ∧ ty = Ty.boolean) := by
  obtain ⟨hint, hboolean, _⟩ := hbuiltin.lookup
  cases operator
  case plus | mul | sub | div =>
    rw [Declared.typecheckOperator, hint] at h
    obtain ⟨type, htype, h⟩ := bind_eq_ok.mp h
    obtain ⟨_, hrequire, h⟩ := bind_eq_ok.mp h
    rw [pure_eq_ok] at h
    rw [Except.ok.injEq] at htype
    subst htype
    have hequal := require_eq_ok.mp hrequire
    rw [Bool.and_eq_true] at hequal
    exact Or.inl ⟨by decide, hequal.1, hequal.2, h.symm⟩
  case ge | gt | le | lt | ne | eq =>
    rw [Declared.typecheckOperator, hboolean] at h
    obtain ⟨_, hrequire, h⟩ := bind_eq_ok.mp h
    rw [Except.ok.injEq] at h
    exact Or.inr (Or.inl ⟨by decide, require_eq_ok.mp hrequire, h.symm⟩)
  case and | or =>
    rw [Declared.typecheckOperator, hboolean] at h
    obtain ⟨type, htype, h⟩ := bind_eq_ok.mp h
    obtain ⟨_, hrequire, h⟩ := bind_eq_ok.mp h
    rw [pure_eq_ok] at h
    rw [Except.ok.injEq] at htype
    subst htype
    have hequal := require_eq_ok.mp hrequire
    rw [Bool.and_eq_true] at hequal
    exact Or.inr (Or.inr ⟨by decide, hequal.1, hequal.2, h.symm⟩)

/-- The type of an expression with a given operator. -/
def resultType : OperatorType → Ty
  | .plus | .mul | .sub | .div => Ty.int
  | _ => Ty.boolean

theorem typecheckOperator_resultType {sc : Declared} (hbuiltin : BuiltinFirst sc.types)
    {operator : OperatorType} {left right ty : Ty}
    (h : sc.typecheckOperator operator left right = .ok ty) : ty = resultType operator := by
  rcases typecheckOperator_eq_ok hbuiltin h with ⟨hop, _, _, rfl⟩ | ⟨hop, _, rfl⟩ |
    ⟨hop, _, _, rfl⟩ <;> cases operator <;> simp [resultType] at hop ⊢

/-- Constants of equal types are constants of one class. -/
theorem HasType.sameClass {a b : Constant} {left right : Ty} (ha : HasType a left)
    (hb : HasType b right) (h : left.equals right = true) :
    (∃ x y, a = .booleanConstant x ∧ b = .booleanConstant y) ∨
      (∃ x y, a = .integerConstant x ∧ b = .integerConstant y) ∨
        ∃ x y, a = .stringLiteral x ∧ b = .stringLiteral y := by
  cases a <;> cases b <;> simp only [HasType] at ha hb <;> subst ha hb
  case booleanConstant.booleanConstant x y => exact Or.inl ⟨x, y, rfl, rfl⟩
  case integerConstant.integerConstant x y => exact Or.inr (Or.inl ⟨x, y, rfl, rfl⟩)
  case stringLiteral.stringLiteral x y => exact Or.inr (Or.inr ⟨x, y, rfl, rfl⟩)
  all_goals exact absurd h (by decide)

/-- The operands of a typed operator are constants of one class. -/
theorem sameClass_of_typed {sc : Declared} (hbuiltin : BuiltinFirst sc.types)
    {operator : OperatorType} {left right ty : Ty} {a b : Constant}
    (h : sc.typecheckOperator operator left right = .ok ty) (ha : HasType a left)
    (hb : HasType b right) :
    (∃ x y, a = .booleanConstant x ∧ b = .booleanConstant y) ∨
      (∃ x y, a = .integerConstant x ∧ b = .integerConstant y) ∨
        ∃ x y, a = .stringLiteral x ∧ b = .stringLiteral y := by
  have hint : HasType (.integerConstant 0) Ty.int := rfl
  have hboolean : HasType (.booleanConstant true) Ty.boolean := rfl
  rcases typecheckOperator_eq_ok hbuiltin h with ⟨_, hl, hr, _⟩ | ⟨_, heq, _⟩ | ⟨_, hl, hr, _⟩
  · obtain ⟨x, rfl⟩ : ∃ x, a = .integerConstant x := by
      have hclass := ha.sameClass hint hl
      simpa using hclass
    obtain ⟨y, rfl⟩ : ∃ y, b = .integerConstant y := by
      have hclass := hb.sameClass hint hr
      simpa using hclass
    exact Or.inr (Or.inl ⟨x, y, rfl, rfl⟩)
  · exact ha.sameClass hb heq
  · obtain ⟨x, rfl⟩ : ∃ x, a = .booleanConstant x := by
      have hclass := ha.sameClass hboolean hl
      simpa using hclass
    obtain ⟨y, rfl⟩ : ∃ y, b = .booleanConstant y := by
      have hclass := hb.sameClass hboolean hr
      simpa using hclass
    exact Or.inl ⟨x, y, rfl, rfl⟩

/-! ### The comparison -/

/-- A left operand that decides gives the operator its meaning, whatever the right one
means, and the evaluator agrees. -/
theorem decides_spec {operator : OperatorType} {a : Constant} (h : decides operator a = true) :
    implemented operator a = true ∧ resultType operator = Ty.boolean ∧ ∃ b,
      applyOperator operator (some a) none = .ok (some (.booleanConstant b)) ∧
        ∀ rhs, operatorMeaning operator (some a) rhs = some (.booleanConstant b) := by
  cases a with
  | stringLiteral a => simp [decides] at h
  | integerConstant a => simp [decides] at h
  | booleanConstant a =>
      cases a with
      | true =>
          obtain rfl : operator = .or := by simpa [decides] using h
          refine ⟨rfl, rfl, true, rfl, ?_⟩
          rintro (_ | _ | _ | _) <;> simp [operatorMeaning]
      | false =>
          obtain rfl : operator = .and := by simpa [decides] using h
          refine ⟨rfl, rfl, false, rfl, ?_⟩
          rintro (_ | _ | _ | _) <;> simp [operatorMeaning]

/-- A right operand without a value that the left one does not make superfluous: `null`
where the operator is not implemented, and otherwise an exception. -/
theorem applyOperator_none {operator : OperatorType} {a : Constant}
    (h : decides operator a = false) :
    applyOperator operator (some a) none =
      if implemented operator a then .error .nullPointer else .ok none := by
  cases a with
  | stringLiteral a => rfl
  | integerConstant a => cases operator <;> rfl
  | booleanConstant a =>
      cases a <;> cases operator <;> first | rfl | simp [decides] at h

/-- One operator with two constants of one class: it is implemented, and then it yields
its meaning, which is a constant of the type that the typechecker gives. -/
theorem applyOperator_some {sc : Declared} (hbuiltin : BuiltinFirst sc.types)
    {operator : OperatorType} {left right ty : Ty} {a b : Constant}
    (h : sc.typecheckOperator operator left right = .ok ty) (ha : HasType a left)
    (hb : HasType b right) (hzero : applyOperator operator (some a) (some b) ≠ .error .arithmetic) :
    (implemented operator a = false ∧ applyOperator operator (some a) (some b) = .ok none) ∨
      (implemented operator a = true ∧ ∃ c,
        applyOperator operator (some a) (some b) = .ok (some c) ∧
          operatorMeaning operator (some a) (some b) = some c ∧ HasType c ty) := by
  have hty := typecheckOperator_resultType hbuiltin h
  rcases sameClass_of_typed hbuiltin h ha hb with ⟨x, y, rfl, rfl⟩ | ⟨x, y, rfl, rfl⟩ |
    ⟨x, y, rfl, rfl⟩
  · -- Booleans: three operators are implemented.
    cases operator
    case and | or => exact Or.inr ⟨rfl, by cases x <;> exact ⟨_, rfl, rfl, hty⟩⟩
    case eq => exact Or.inr ⟨rfl, _, rfl, rfl, hty⟩
    all_goals exact Or.inl ⟨rfl, rfl⟩
  · -- Integers: all but the boolean connectives are.
    cases operator
    case and | or => exact Or.inl ⟨rfl, rfl⟩
    case div =>
      have hy : y ≠ 0 := by
        rintro rfl
        exact hzero rfl
      refine Or.inr ⟨rfl, .integerConstant (x / y), ?_, ?_, hty⟩
      · simp [applyOperator, integerValue, integerOperator, hy, bind, Except.bind]
      · simp [operatorMeaning, integerMeaning, hy]
    all_goals exact Or.inr ⟨rfl, _, rfl, rfl, hty⟩
  · -- Strings: none is.
    cases operator <;> exact Or.inl ⟨rfl, rfl⟩

/-- The evaluator agrees with the tables on an expression: a constant comes out exactly when the
expression is supported, `null` exactly when it is null-valued; the constant has the type of the
expression, and is its meaning. -/
structure Agrees (σ : DeclarationRef → Option Constant) (e : Expression Name) (ty : Ty) : Prop where
  supported : supported σ e = true ↔ ∃ c, operandValue σ e = .ok (some c)
  nullValued : nullValued σ e = true ↔ operandValue σ e = .ok none
  typed : ∀ c, operandValue σ e = .ok (some c) → meaning σ e = some c ∧ HasType c ty

section
variable {sc : Declared} {σ : DeclarationRef → Option Constant} {left right : Expression Name}
  {leftType rightType ty : Ty} {operator : OperatorType}

theorem agrees_constant (hbuiltin : BuiltinFirst sc.types) {c : Constant}
    (h : sc.typecheckConstant c = .ok ty) : Agrees σ (.constant c) ty := by
  have ⟨hint, hboolean, hstring⟩ := hbuiltin.lookup
  refine ⟨by simp [Stabl.supported, operandValue], by simp [Stabl.nullValued, operandValue], ?_⟩
  intro x hx
  obtain rfl : c = x := by simpa [operandValue] using hx
  refine ⟨rfl, ?_⟩
  cases c with
  | booleanConstant b =>
      simp only [Declared.typecheckConstant, hboolean, Except.ok.injEq] at h
      exact h.symm
  | integerConstant n =>
      simp only [Declared.typecheckConstant, hint, Except.ok.injEq] at h
      exact h.symm
  | stringLiteral s =>
      simp only [Declared.typecheckConstant, hstring, Except.ok.injEq] at h
      exact h.symm

theorem agrees_name {env : Environment} {n : Path} {n' : Name}
    (h : sc.typecheckName n env = .ok (n', ty)) (hrespected : NameRespected sc env σ n) :
    Agrees σ (.name n') ty := by
  unfold Declared.typecheckName at h
  split at h
  · simp at h
  · split at h
    · simp at h
    · rename_i ref dec rest hlocate
      have ⟨decType, hdec, h⟩ := bind_eq_ok.mp h
      have ⟨fieldType, hfield, h⟩ := bind_eq_ok.mp h
      rw [pure_eq_ok, Prod.mk.injEq] at h
      obtain ⟨rfl, rfl⟩ := h
      have ⟨hrest, htyped⟩ := hrespected ref dec rest hlocate
      obtain ⟨last, rfl⟩ := List.length_eq_one_iff.mp hrest
      rw [Declared.getTypeOfName, pure_eq_ok] at hfield
      subst hfield
      refine ⟨?_, by simp [Stabl.nullValued, operandValue], ?_⟩
      · simp [Stabl.supported, operandValue, Option.isSome_iff_exists]
      · intro c hc
        have hvalue : σ ref = some c := by simpa [operandValue] using hc
        exact ⟨hvalue, htyped decType c hdec hvalue⟩

/-- Two operands that have values. -/
theorem agrees_applied (hbuiltin : BuiltinFirst sc.types)
    (htype : sc.typecheckOperator operator leftType rightType = .ok ty)
    (hleft : Agrees σ left leftType) (hright : Agrees σ right rightType) {lhs rhs : Option Constant}
    (hl : operandValue σ left = .ok lhs) (hr : operandValue σ right = .ok rhs)
    (hzero : applyOperator operator lhs rhs ≠ .error .arithmetic) :
    Agrees σ (.binaryExpression left right operator) ty := by
  obtain ⟨hsl, hnl, htl⟩ := hleft
  obtain ⟨hsr, hnr, htr⟩ := hright
  have happly : operandValue σ (.binaryExpression left right operator) =
      applyOperator operator lhs rhs := by
    rw [operandValue, hl, hr]
    rfl
  suffices hspec : (Stabl.supported σ (.binaryExpression left right operator) = true ↔
        ∃ c, applyOperator operator lhs rhs = .ok (some c)) ∧
      (Stabl.nullValued σ (.binaryExpression left right operator) = true ↔
        applyOperator operator lhs rhs = .ok none) ∧
      ∀ c, applyOperator operator lhs rhs = .ok (some c) →
        meaning σ (.binaryExpression left right operator) = some c ∧ HasType c ty by
    rw [← happly] at hspec
    exact ⟨hspec.1, hspec.2.1, hspec.2.2⟩
  cases lhs with
  | none =>
      -- The left operand is `null`, and so is the result.
      have hs : Stabl.supported σ left = false := by simpa [hl] using hsl
      have hn : Stabl.nullValued σ left = true := by simpa [hl] using hnl
      have hnone : applyOperator operator none rhs = .ok none := rfl
      have hright' : Stabl.supported σ right = true ∨ Stabl.nullValued σ right = true := by
        cases rhs <;> simp [hsr, hnr, hr]
      rw [hnone]
      simp [Stabl.supported, Stabl.nullValued, hs, hn, hright']
  | some a =>
      have hs : Stabl.supported σ left = true := by simp [hsl, hl]
      have hn : Stabl.nullValued σ left = false := by simpa [hl] using hnl
      obtain ⟨hm, hta⟩ := htl a hl
      cases rhs with
      | none =>
          have hsr' : Stabl.supported σ right = false := by simpa [hr] using hsr
          have hnr' : Stabl.nullValued σ right = true := by simpa [hr] using hnr
          cases hd : decides operator a with
          | true =>
              obtain ⟨hi, hresult, b, happ, hmeaning⟩ := decides_spec hd
              have hty := typecheckOperator_resultType hbuiltin htype
              rw [hresult] at hty
              rw [happ]
              simp [Stabl.supported, Stabl.nullValued, meaning, hs, hn, hm, hi, hd, hnr', hmeaning,
                HasType, hty]
          | false =>
              rw [applyOperator_none hd]
              cases hi : implemented operator a <;>
                simp [Stabl.supported, Stabl.nullValued, hs, hn, hm, hi, hd, hsr', hnr']
      | some b =>
          obtain ⟨hmr, htb⟩ := htr b hr
          have hsr' : Stabl.supported σ right = true := by simp [hsr, hr]
          rcases applyOperator_some hbuiltin htype hta htb hzero with ⟨hi, happ⟩ |
            ⟨hi, c, happ, hmeaning, htc⟩
          · rw [happ]
            simp [Stabl.supported, Stabl.nullValued, hs, hn, hm, hi, hsr']
          · rw [happ]
            simp [Stabl.supported, Stabl.nullValued, meaning, hs, hn, hm, hmr, hi, hsr', hmeaning,
              htc]

/-- A binary expression evaluates its operands from left to right, and throws where one does. -/
theorem agrees_binaryExpression (hbuiltin : BuiltinFirst sc.types)
    (htype : sc.typecheckOperator operator leftType rightType = .ok ty)
    (ihl : operandValue σ left ≠ .error .arithmetic → Agrees σ left leftType)
    (ihr : operandValue σ right ≠ .error .arithmetic → Agrees σ right rightType)
    (hzero : operandValue σ (.binaryExpression left right operator) ≠ .error .arithmetic) :
    Agrees σ (.binaryExpression left right operator) ty := by
  have hvalue : operandValue σ (.binaryExpression left right operator) =
      (operandValue σ left >>= fun lhs => operandValue σ right >>= fun rhs =>
        applyOperator operator lhs rhs) := rfl
  have hleft := ihl fun hthrows => hzero (by rw [hvalue, hthrows]; rfl)
  cases hl : operandValue σ left with
  | error x =>
      have hs : Stabl.supported σ left = false := by simpa [hl] using hleft.supported
      have hn : Stabl.nullValued σ left = false := by simpa [hl] using hleft.nullValued
      have hthrows : operandValue σ (.binaryExpression left right operator) = .error x := by
        rw [hvalue, hl]
        rfl
      constructor <;> simp [Stabl.supported, Stabl.nullValued, hs, hn, hthrows]
  | ok lhs =>
      have hright := ihr fun hthrows => hzero (by rw [hvalue, hl, hthrows]; rfl)
      cases hr : operandValue σ right with
      | error x =>
          have hs : Stabl.supported σ right = false := by simpa [hr] using hright.supported
          have hn : Stabl.nullValued σ right = false := by simpa [hr] using hright.nullValued
          have hthrows : operandValue σ (.binaryExpression left right operator) = .error x := by
            rw [hvalue, hl, hr]
            rfl
          constructor <;> cases hm : meaning σ left <;>
            simp [Stabl.supported, Stabl.nullValued, hs, hn, hm, hthrows]
      | ok rhs =>
          have happly : operandValue σ (.binaryExpression left right operator) =
              applyOperator operator lhs rhs := by
            rw [hvalue, hl, hr]
            rfl
          exact agrees_applied hbuiltin htype hleft hright hl hr (happly ▸ hzero)

/-- The evaluator on a typed expression, without a division by zero. -/
theorem operandValue_spec (hbuiltin : BuiltinFirst sc.types) {env : Environment}
    {e : Expression Path} {e' : Expression Name} (h : sc.typecheckExpression env e = .ok (e', ty))
    (hnames : e.AllNames (NameRespected sc env σ))
    (hzero : operandValue σ e' ≠ .error .arithmetic) : Agrees σ e' ty := by
  induction e using Expression.operandInduction generalizing e' ty with
  | constant c =>
      rw [Declared.typecheckExpression] at h
      obtain ⟨type, htype, h⟩ := bind_eq_ok.mp h
      rw [pure_eq_ok, Prod.mk.injEq] at h
      obtain ⟨rfl, rfl⟩ := h
      exact agrees_constant hbuiltin htype
  | name n =>
      rw [Declared.typecheckExpression] at h
      obtain ⟨⟨n', type⟩, hname, h⟩ := bind_eq_ok.mp h
      rw [pure_eq_ok, Prod.mk.injEq] at h
      obtain ⟨rfl, rfl⟩ := h
      exact agrees_name hname hnames
  | functionCall name args =>
      rw [Declared.typecheckExpression] at h
      obtain ⟨_, _, h⟩ := bind_eq_ok.mp h
      obtain ⟨_, _, h⟩ := bind_eq_ok.mp h
      obtain ⟨_, _, h⟩ := bind_eq_ok.mp h
      obtain ⟨args', _, h⟩ := bind_eq_ok.mp h
      rw [pure_eq_ok, Prod.mk.injEq] at h
      obtain ⟨rfl, rfl⟩ := h
      constructor <;> simp [Stabl.supported, Stabl.nullValued, operandValue]
  | binaryExpression left right operator ihl ihr =>
      rw [Declared.typecheckExpression] at h
      obtain ⟨⟨left', leftType⟩, hleft, h⟩ := bind_eq_ok.mp h
      obtain ⟨⟨right', rightType⟩, hright, h⟩ := bind_eq_ok.mp h
      obtain ⟨type, htype, h⟩ := bind_eq_ok.mp h
      rw [pure_eq_ok, Prod.mk.injEq] at h
      obtain ⟨rfl, rfl⟩ := h
      exact agrees_binaryExpression hbuiltin htype (ihl hleft hnames.1) (ihr hright hnames.2) hzero

end

/-! ### Type soundness -/

/-- Every variable of the environment holds a constant of its declared type. -/
def EnvironmentHolds (sc : Declared) (env : Environment)
    (σ : DeclarationRef → Option Constant) : Prop :=
  ∀ f ∈ env, ∀ d ∈ f.declarations, ∃ c, σ ⟨f.state, d.vname⟩ = some c ∧
    ∀ ty, typecheckDeclaration sc.types [] d = .ok ty → HasType c ty

/-- A simple name that is found in such an environment respects its type, and has a
value. -/
theorem EnvironmentHolds.lookup {sc : Declared} {env : Environment}
    {σ : DeclarationRef → Option Constant} (henv : EnvironmentHolds sc env σ) {x : String}
    {ref : DeclarationRef} {dec : Declaration} (h : env.lookup x = some (ref, dec)) :
    ∃ c, σ ref = some c ∧ ∀ ty, typecheckDeclaration sc.types [] dec = .ok ty → HasType c ty := by
  obtain ⟨f, hf, hd, rfl, _⟩ := Environment.exists_frame_of_lookup h
  exact henv f hf dec hd

/-- Simple names respect their types in a state in which the environment holds. -/
theorem nameRespected_of_environment {sc : Declared} {env : Environment}
    {σ : DeclarationRef → Option Constant} (henv : EnvironmentHolds sc env σ) {x : String}
    (hx : x ≠ sc.root.name) : NameRespected sc env σ [x] := by
  intro ref dec rest hlocate
  simp only [Declared.locateName, if_neg hx, Option.map_eq_some_iff, Prod.mk.injEq] at hlocate
  obtain ⟨⟨ref', dec'⟩, hlookup, ⟨rfl, rfl⟩, rfl⟩ := hlocate
  obtain ⟨c, hvalue, htyped⟩ := henv.lookup hlookup
  refine ⟨rfl, ?_⟩
  intro ty c' hty hc'
  obtain rfl : c = c' := by simpa [hvalue] using hc'
  exact htyped ty hty

/-- A call of `input` that stands alone, with an integer on the console. -/
def ReadsInteger (e : Expression Name) (w : World) : Prop :=
  ∃ name args n rest, e = .functionCall name args ∧ w.stdin = some n :: rest

/-- The type of a call of `input`, where `input` is declared to return `int`. -/
theorem typecheck_input {sc : Declared} {env : Environment} {name : FunctionName}
    {args : List (Expression Path)} {e' : Expression Name} {ty : Ty}
    (h : sc.typecheckExpression env (.functionCall name args) = .ok (e', ty))
    (hinput : ∀ f ∈ sc.functions, f.name = name.name → f.returnType = Ty.int) :
    (∃ args', e' = .functionCall name args') ∧ ty = Ty.int := by
  rw [Declared.typecheckExpression] at h
  obtain ⟨⟨fdec, typeArguments⟩, hfunc, h⟩ := bind_eq_ok.mp h
  obtain ⟨_, _, h⟩ := bind_eq_ok.mp h
  obtain ⟨⟨parameterTypes, returnType⟩, hsubst, h⟩ := bind_eq_ok.mp h
  obtain ⟨args', _, h⟩ := bind_eq_ok.mp h
  rw [pure_eq_ok, Prod.mk.injEq] at h
  obtain ⟨rfl, rfl⟩ := h
  refine ⟨⟨args', rfl⟩, ?_⟩
  have hreturn : fdec.returnType = Ty.int := by
    unfold Declared.lookupFunctionName at hfunc
    split at hfunc
    · simp [bind, Except.bind] at hfunc
    · rename_i f hf
      split at hfunc
      · obtain ⟨f', hf', hfunc⟩ := bind_eq_ok.mp hfunc
        rw [pure_eq_ok] at hf'
        subst hf'
        obtain ⟨_, _, hfunc⟩ := bind_eq_ok.mp hfunc
        rw [pure_eq_ok, Prod.mk.injEq] at hfunc
        obtain ⟨rfl, _⟩ := hfunc
        rw [hinput f (List.mem_of_find?_eq_some hf) (by simpa using List.find?_some hf)]
        rfl
      · simp [bind, Except.bind] at hfunc
  -- The type `int` has no type arguments, so it is the same after a substantiation.
  rw [Declared.substantiateFunction, hreturn] at hsubst
  split at hsubst
  · rw [pure_eq_ok, Prod.mk.injEq] at hsubst
    exact hsubst.2.symm
  · obtain ⟨_, _, hsubst⟩ := bind_eq_ok.mp hsubst
    obtain ⟨type, htype, hsubst⟩ := bind_eq_ok.mp hsubst
    rw [pure_eq_ok, Prod.mk.injEq] at hsubst
    exact hsubst.2.symm.trans (Except.ok.inj htype).symm

/-- An accepted expression, evaluated in a state where its variables hold no constants of
other types, without a division by zero: a constant of the expression's type comes out
exactly when the expression is supported, or is a call of `input` that reads an
integer. -/
theorem evaluate_hasType_iff {statechart : Statechart} {sc : Declared}
    (hdeclared : typecheckDeclarations statechart = .ok sc) {env : Environment}
    {e : Expression Path} {e' : Expression Name} {ty : Ty}
    (h : sc.typecheckExpression env e = .ok (e', ty))
    (hcall : ∀ name args, e = .functionCall name args → name.name = "input")
    (hinput : ∀ f ∈ sc.functions, f.name = "input" → f.returnType = Ty.int)
    {w : World} (hnames : e.AllNames (NameRespected sc env w.eState.valueEnvironment))
    (hzero : (evaluateOperand e' w).1 ≠ .error .arithmetic) :
    (∃ c, (evaluate e' w).1 = some c ∧ HasType c ty) ↔
      supported w.eState.valueEnvironment e' = true ∨ ReadsInteger e' w := by
  have hspec := operandValue_spec (builtinFirst_of_declared hdeclared) h hnames
    (evaluateOperand_fst e' w ▸ hzero)
  by_cases he : ∃ name args, e = .functionCall name args
  · obtain ⟨name, args, rfl⟩ := he
    have hname := hcall name args rfl
    obtain ⟨⟨args', rfl⟩, rfl⟩ := typecheck_input h (hname ▸ hinput)
    have hsupported : supported w.eState.valueEnvironment (.functionCall name args') = false := rfl
    rw [hsupported, evaluate, evaluateFunction, if_pos hname]
    constructor
    · rintro ⟨c, hc, _⟩
      split at hc
      · rename_i n rest hstdin
        exact Or.inr ⟨name, args', n, rest, rfl, hstdin⟩
      · simp at hc
      · simp at hc
    · rintro (hfalse | ⟨_, _, n, rest, _, hstdin⟩)
      · simp at hfalse
      · rw [hstdin]
        exact ⟨.integerConstant n, rfl, rfl⟩
  · have he' : ∀ name args, e' ≠ .functionCall name args := by
      rintro name args rfl
      refine he ?_
      cases e with
      | functionCall name args => exact ⟨name, args, rfl⟩
      | name n =>
          rw [Declared.typecheckExpression] at h
          obtain ⟨_, _, h⟩ := bind_eq_ok.mp h
          simp [pure, Except.pure] at h
      | constant c =>
          rw [Declared.typecheckExpression] at h
          obtain ⟨_, _, h⟩ := bind_eq_ok.mp h
          simp [pure, Except.pure] at h
      | binaryExpression left right operator =>
          rw [Declared.typecheckExpression] at h
          obtain ⟨_, _, h⟩ := bind_eq_ok.mp h
          obtain ⟨_, _, h⟩ := bind_eq_ok.mp h
          obtain ⟨_, _, h⟩ := bind_eq_ok.mp h
          simp [pure, Except.pure] at h
    have hread : ¬ ReadsInteger e' w := by
      rintro ⟨name, args, _, _, heq, _⟩
      exact he' name args heq
    simp only [evaluate_fst w he', hread, or_false, hspec.supported]
    constructor
    · rintro ⟨c, hc, _⟩
      exact ⟨c, hc⟩
    · rintro ⟨c, hc⟩
      exact ⟨c, hc, (hspec.typed c hc).2⟩

/-- What the passes over the declarations of `lamp` leave. -/
def declaredLamp : Declared := getD (typecheckDeclarations lamp) ⟨lamp.root, [], [], []⟩

/-- The lamp is on, at level 0. -/
def lampOn : World :=
  ((World.initial (accepted lamp).root [] []).put ⟨[], "on"⟩ (some (.booleanConstant true))).put
    ⟨[], "level"⟩ (some (.integerConstant 0))

theorem declaredLamp_ok : typecheckDeclarations lamp = .ok declaredLamp :=
  eq_ok_getD (by decide) _

/-- In this state both variables of the lamp hold constants of their types. -/
theorem lampOn_holds : EnvironmentHolds declaredLamp (getEnvironment lamp.root [])
    lampOn.eState.valueEnvironment := by
  intro f hf d hd
  obtain rfl := List.mem_singleton.mp hf
  rcases List.mem_cons.mp hd with rfl | hd
  · exact ⟨.booleanConstant true, rfl, fun ty hty => (Except.ok.injEq _ _ ▸ hty).symm⟩
  · obtain rfl := List.mem_singleton.mp hd
    exact ⟨.integerConstant 0, rfl, fun ty hty => (Except.ok.injEq _ _ ▸ hty).symm⟩

/-- `on && level < 1` is supported, and evaluates to a boolean. -/
theorem evaluate_hasType_iff_lamp :
    ∃ c, (evaluate (.binaryExpression (.name ⟨["on"], ⟨[], "on"⟩⟩)
      (.binaryExpression (.name ⟨["level"], ⟨[], "level"⟩⟩) (.constant (.integerConstant 1)) .lt)
      .and) lampOn).1 = some c ∧ HasType c Ty.boolean := by
  have htyped : declaredLamp.typecheckExpression (getEnvironment lamp.root [])
      (.binaryExpression (.name ["on"])
        (.binaryExpression (.name ["level"]) (.constant (.integerConstant 1)) .lt) .and) =
      .ok (.binaryExpression (.name ⟨["on"], ⟨[], "on"⟩⟩)
        (.binaryExpression (.name ⟨["level"], ⟨[], "level"⟩⟩) (.constant (.integerConstant 1))
          .lt) .and, Ty.boolean) := rfl
  refine (evaluate_hasType_iff declaredLamp_ok htyped ?_ ?_ ?_ ?_).mpr (Or.inl (by decide))
  · rintro name args ⟨⟩
  · intro f hf
    exact absurd hf List.not_mem_nil
  · exact ⟨nameRespected_of_environment lampOn_holds (by decide),
      nameRespected_of_environment lampOn_holds (by decide), trivial⟩
  · decide

/-- `P` holds of the functions that an expression calls. -/
def Expression.AllCalls {ν : Type} (P : FunctionName → Prop) : Expression ν → Prop
  | .binaryExpression left right _ => left.AllCalls P ∧ right.AllCalls P
  | .functionCall f _ => P f
  | _ => True

/-- The type soundness of the evaluator: in a state in which the environment holds, an
accepted expression of a built-in type evaluates to a constant of its type, unless it
divides by zero. -/
def EvaluatesToItsType (sc : Declared) : Prop :=
  ∀ env e e' ty w, sc.typecheckExpression env e = .ok (e', ty) →
    ty = Ty.int ∨ ty = Ty.boolean ∨ ty = Ty.string →
    e.AllCalls (fun name => name.name = "input") →
    (∀ f ∈ sc.functions, f.name = "input" → f.typeParameterNames = [] ∧ f.returnType = Ty.int) →
    e.AllNames (fun name => ∀ ref dec rest,
      sc.locateName name env = some ((ref, dec), rest) → rest.length = 1) →
    EnvironmentHolds sc env w.eState.valueEnvironment →
    (evaluateOperand e' w).1 ≠ .error .arithmetic →
    ∃ c, (evaluate e' w).1 = some c ∧ HasType c ty

/-- `on != true` is accepted as a boolean, and evaluates to `null`. -/
theorem not_evaluatesToItsType_lamp :
    typecheckDeclarations lamp = .ok declaredLamp ∧ ¬ EvaluatesToItsType declaredLamp := by
  refine ⟨declaredLamp_ok, fun h => ?_⟩
  obtain ⟨c, hc, _⟩ := h (getEnvironment lamp.root [])
    (.binaryExpression (.name ["on"]) (.constant (.booleanConstant true)) .ne)
    (.binaryExpression (.name ⟨["on"], ⟨[], "on"⟩⟩) (.constant (.booleanConstant true)) .ne)
    Ty.boolean lampOn rfl (Or.inr (Or.inl rfl)) ⟨trivial, trivial⟩
    (fun f hf => absurd hf List.not_mem_nil)
    ⟨fun ref dec rest hlocate =>
      (nameRespected_of_environment lampOn_holds (by decide) ref dec rest hlocate).1, trivial⟩
    lampOn_holds (by decide)
  have hnull : (evaluate (.binaryExpression (.name ⟨["on"], ⟨[], "on"⟩⟩)
      (.constant (.booleanConstant true)) .ne) lampOn).1 = none := by decide
  rw [hnull] at hc
  simp at hc

end Stabl
