import Stabl.Proofs.SimSee.Totality

/-!
# `Stabl.Proofs.SimSee.Soundness`: what the typechecker of `sim-see` promises

`typecheck_expr` has one case for `Or`, `And` and `Equals`: the operands must have the same
type, whichever it is. So an expression with a type can be stuck, and it is stuck exactly
when an operand of an `Or` or an `And` is not boolean (`evaluatesTo_iff`).

The condition reads the type of an operand off its outermost constructor. In an expression
with a type that is the type of the operand (`typecheckExpr_boolean_iff`).
-/

set_option autoImplicit false

namespace Stabl.SimSee

/-! ### What is promised -/

/-- In every store that fits the environment, whatever the inputs are, the expression has a
value, and the value is of the type. -/
def Expr.EvaluatesTo (env : Env) (e : Expr) (t : Typ) : Prop :=
  ∀ (store : Store), store.Typed env → ∀ (inputs : Inputs) (k : Nat),
    ∃ v k', evalExpr inputs store e k = some (v, k') ∧ v.typ = t

mutual

/-- The conditions of the ifs in a statement. -/
def Stmt.conditions : Stmt → List Expr
  | .assignment _ _ => []
  | .ifStmt b s1 s2 => b :: (s1.conditions ++ s2.conditions)
  | .block stmts => Stmt.conditionsBlock stmts

def Stmt.conditionsBlock : List Stmt → List Expr
  | [] => []
  | stmt :: stmts => stmt.conditions ++ Stmt.conditionsBlock stmts

end

namespace Expr

/-- The outermost constructor makes the expression a boolean one. -/
def outerBoolean (env : Env) : Expr → Bool
  | .id vname => decide (env.apply vname = .ok .boolean)
  | .boolConst _ | .not _ | .or _ _ | .and _ _ | .equals _ _ => true
  | .intConst _ | .add _ _ | .sub _ _ => false
  | .input t => decide (t = .boolean)

/-- The operands of every `Or` and `And` are boolean. -/
def booleanOperands (env : Env) : Expr → Bool
  | .id _ | .intConst _ | .boolConst _ | .input _ => true
  | .not e => e.booleanOperands env
  | .add e1 e2 | .sub e1 e2 | .equals e1 e2 => e1.booleanOperands env && e2.booleanOperands env
  | .or e1 e2 | .and e1 e2 =>
    e1.booleanOperands env && e2.booleanOperands env &&
      (e1.outerBoolean env && e2.outerBoolean env)

end Expr

/-! ### The outermost constructor gives the type -/

theorem typecheckExpr_boolean_iff {env : Env} {e : Expr} {t : Typ}
    (h : typecheckExpr env e = .ok t) :
    typecheckExpr env e = .ok .boolean ↔ e.outerBoolean env = true := by
  rw [h]
  cases e with
  | id vname =>
      have hvar : env.apply vname = .ok t := h
      simp [Expr.outerBoolean, hvar]
  | intConst n =>
      have ht := Except.ok.inj h
      simp [Expr.outerBoolean, ← ht]
  | boolConst b =>
      have ht := Except.ok.inj h
      simp [Expr.outerBoolean, ← ht]
  | add e1 e2 | sub e1 e2 =>
      have ht := (typecheckExpr_arith h).2.2
      simp [Expr.outerBoolean, ht]
  | not e =>
      have ht := (typecheckExpr_not h).2
      simp [Expr.outerBoolean, ht]
  | or e1 e2 | and e1 e2 | equals e1 e2 =>
      have ht := (typecheckExpr_equals h).2.2
      simp [Expr.outerBoolean, ht]
  | input t' =>
      have ht : t' = t := Except.ok.inj h
      simp [Expr.outerBoolean, ht]

/-- On an expression with a type, the two ways to ask for boolean operands agree. -/
theorem logicalBoolean_iff {env : Env} {e : Expr} : ∀ {t : Typ}, typecheckExpr env e = .ok t →
    (e.logicalBoolean env = true ↔ e.booleanOperands env = true) := by
  induction e with
  | id vname | intConst n | boolConst b | input t => exact fun _ => Iff.rfl
  | not e ih =>
      intro t h
      exact ih (typecheckExpr_not h).1
  | add e1 e2 ih1 ih2 | sub e1 e2 ih1 ih2 =>
      intro t h
      obtain ⟨h1, h2, _⟩ := typecheckExpr_arith h
      simp only [Expr.logicalBoolean, Expr.booleanOperands, Bool.and_eq_true, ih1 h1, ih2 h2]
  | equals e1 e2 ih1 ih2 =>
      intro t h
      obtain ⟨⟨t1, h1⟩, ⟨t2, h2⟩, _⟩ := typecheckExpr_equals h
      simp only [Expr.logicalBoolean, Expr.booleanOperands, Bool.and_eq_true, ih1 h1, ih2 h2]
  | or e1 e2 ih1 ih2 | and e1 e2 ih1 ih2 =>
      intro t h
      obtain ⟨⟨t1, h1⟩, ⟨t2, h2⟩, _⟩ := typecheckExpr_equals h
      simp only [Expr.logicalBoolean, Expr.booleanOperands, Bool.and_eq_true, ih1 h1, ih2 h2,
        decide_eq_true_eq, typecheckExpr_boolean_iff h1, typecheckExpr_boolean_iff h2]

/-! ### An expression that is not stuck has boolean operands -/

namespace Value

theorem or_eq_some {v w u : Value} (h : v.or w = some u) :
    v.typ = .boolean ∧ w.typ = .boolean := by
  cases v <;> cases w <;> simp_all [Value.or, typ]

theorem and_eq_some {v w u : Value} (h : v.and w = some u) :
    v.typ = .boolean ∧ w.typ = .boolean := by
  cases v <;> cases w <;> simp_all [Value.and, typ]

/-- Some value of the type. -/
def ofTyp : Typ → Value
  | .boolean => .bool false
  | .integer => .int 0

theorem typ_ofTyp (t : Typ) : (ofTyp t).typ = t := by
  cases t <;> rfl

end Value

/-- Some store that fits the environment. -/
def Env.store (env : Env) : Store := fun x => (env.apply x).toOption.map Value.ofTyp

theorem Env.store_typed (env : Env) : env.store.Typed env := by
  intro x t hx
  exact ⟨Value.ofTyp t, by simp [Env.store, hx, Except.toOption], Value.typ_ofTyp t⟩

/-- Some inputs. -/
def Inputs.ofTyp : Inputs where
  get _ t := Value.ofTyp t
  typ_get _ t := Value.typ_ofTyp t

/-- A value that the expression has is of its type. -/
theorem evalExpr_typ {env : Env} {store : Store} (hstore : store.Typed env) {inputs : Inputs}
    {e : Expr} {t : Typ} {k k' : Nat} {v : Value} (h : typecheckExpr env e = .ok t)
    (hlogic : e.logicalBoolean env = true) (hv : evalExpr inputs store e k = some (v, k')) :
    v.typ = t := by
  have ⟨w, k'', hw, htyp⟩ := evalExpr_total hstore inputs k h hlogic
  have heq : (w, k'') = (v, k') := Option.some.inj (hw.symm.trans hv)
  cases heq
  exact htyp

/-- An expression with a value had boolean operands for every connective it evaluated, and it
evaluates all of them. -/
theorem evalExpr_logical {env : Env} {store : Store} (hstore : store.Typed env)
    {inputs : Inputs} {e : Expr} : ∀ {t : Typ} {k k' : Nat} {v : Value},
      typecheckExpr env e = .ok t → evalExpr inputs store e k = some (v, k') →
      e.logicalBoolean env = true := by
  induction e with
  | id vname | intConst n | boolConst b | input t' => exact fun _ _ => rfl
  | not e ih =>
      intro t k k' v h hv
      simp only [evalExpr, Option.bind_eq_bind, Option.bind_eq_some_iff, Prod.exists] at hv
      obtain ⟨v1, k1, hv1, _⟩ := hv
      exact ih (typecheckExpr_not h).1 hv1
  | add e1 e2 ih1 ih2 | sub e1 e2 ih1 ih2 =>
      intro t k k' v h hv
      simp only [evalExpr, Option.bind_eq_bind, Option.bind_eq_some_iff, Prod.exists] at hv
      obtain ⟨v1, k1, hv1, v2, k2, hv2, _⟩ := hv
      obtain ⟨h1, h2, _⟩ := typecheckExpr_arith h
      exact Bool.and_eq_true_iff.mpr ⟨ih1 h1 hv1, ih2 h2 hv2⟩
  | equals e1 e2 ih1 ih2 =>
      intro t k k' v h hv
      simp only [evalExpr, Option.bind_eq_bind, Option.bind_eq_some_iff, Prod.exists] at hv
      obtain ⟨v1, k1, hv1, v2, k2, hv2, _⟩ := hv
      obtain ⟨⟨t1, h1⟩, ⟨t2, h2⟩, _⟩ := typecheckExpr_equals h
      exact Bool.and_eq_true_iff.mpr ⟨ih1 h1 hv1, ih2 h2 hv2⟩
  | or e1 e2 ih1 ih2 =>
      intro t k k' v h hv
      simp only [evalExpr, Option.bind_eq_bind, Option.bind_eq_some_iff, Prod.exists] at hv
      obtain ⟨v1, k1, hv1, v2, k2, hv2, u, hu, _⟩ := hv
      obtain ⟨⟨t1, h1⟩, ⟨t2, h2⟩, _⟩ := typecheckExpr_equals h
      have hl1 := ih1 h1 hv1
      have hl2 := ih2 h2 hv2
      -- The operator had a value, so its operands are boolean, and their values are of their types.
      obtain ⟨hb1, hb2⟩ := Value.or_eq_some hu
      have ht1 : Typ.boolean = t1 := hb1.symm.trans (evalExpr_typ hstore h1 hl1 hv1)
      have ht2 : Typ.boolean = t2 := hb2.symm.trans (evalExpr_typ hstore h2 hl2 hv2)
      simp [Expr.logicalBoolean, hl1, hl2, h1, h2, ← ht1, ← ht2]
  | and e1 e2 ih1 ih2 =>
      intro t k k' v h hv
      simp only [evalExpr, Option.bind_eq_bind, Option.bind_eq_some_iff, Prod.exists] at hv
      obtain ⟨v1, k1, hv1, v2, k2, hv2, u, hu, _⟩ := hv
      obtain ⟨⟨t1, h1⟩, ⟨t2, h2⟩, _⟩ := typecheckExpr_equals h
      have hl1 := ih1 h1 hv1
      have hl2 := ih2 h2 hv2
      obtain ⟨hb1, hb2⟩ := Value.and_eq_some hu
      have ht1 : Typ.boolean = t1 := hb1.symm.trans (evalExpr_typ hstore h1 hl1 hv1)
      have ht2 : Typ.boolean = t2 := hb2.symm.trans (evalExpr_typ hstore h2 hl2 hv2)
      simp [Expr.logicalBoolean, hl1, hl2, h1, h2, ← ht1, ← ht2]

/-- An expression with a type has a value of the type in every store exactly when its `Or`s
and `And`s have boolean operands. -/
theorem evaluatesTo_of_typed {env : Env} {e : Expr} {t : Typ}
    (h : typecheckExpr env e = .ok t) :
    e.EvaluatesTo env t ↔ e.booleanOperands env = true := by
  rw [← logicalBoolean_iff h]
  constructor
  · intro hev
    have ⟨v, k', hv, _⟩ := hev env.store env.store_typed Inputs.ofTyp 0
    exact evalExpr_logical env.store_typed h hv
  · intro hlogic store hstore inputs k
    exact evalExpr_total hstore inputs k h hlogic

/-! ### The conditions of a program -/

mutual

/-- The conditions in a statement that the typechecker accepts are boolean. -/
theorem Stmt.conditions_boolean {env : Env} : ∀ {stmt : Stmt},
    typecheckStmt env stmt = .ok () →
    ∀ b ∈ stmt.conditions, typecheckExpr env b = .ok .boolean
  | .assignment vname e, _ => fun b hb => by simp [Stmt.conditions] at hb
  | .ifStmt b s1 s2, h => by
      have ⟨tb, hb, h⟩ := Result.bind_eq_ok.mp h
      have ⟨_, h1, h⟩ := Result.bind_eq_ok.mp h
      have ⟨_, h2, h⟩ := Result.bind_eq_ok.mp h
      have htb : tb = .boolean := by
        by_contra hne
        simp [hne] at h
      intro c hc
      simp only [Stmt.conditions, List.mem_cons, List.mem_append] at hc
      rcases hc with rfl | hc | hc
      · exact htb ▸ hb
      · exact Stmt.conditions_boolean h1 c hc
      · exact Stmt.conditions_boolean h2 c hc
  | .block stmts, h => fun c hc => by
      rw [Stmt.conditions] at hc
      exact Stmt.conditionsBlock_boolean h c hc

theorem Stmt.conditionsBlock_boolean {env : Env} : ∀ {stmts : List Stmt},
    typecheckStmtblock env stmts = .ok () →
    ∀ b ∈ Stmt.conditionsBlock stmts, typecheckExpr env b = .ok .boolean
  | [], _ => fun b hb => by simp [Stmt.conditionsBlock] at hb
  | stmt :: stmts, h => by
      have ⟨_, h1, h2⟩ := Result.bind_eq_ok.mp h
      intro c hc
      simp only [Stmt.conditionsBlock, List.mem_append] at hc
      rcases hc with hc | hc
      · exact Stmt.conditions_boolean h1 c hc
      · exact Stmt.conditionsBlock_boolean h2 c hc

end

/-- What the typechecker promises, of expressions and of the conditions of programs, holds of
those in which every operand of an `Or` or an `And` is boolean, and of no others. -/
theorem evaluatesTo_iff (env : Env) :
    (∀ (e : Expr) (t : Typ), typecheckExpr env e = .ok t →
      (e.EvaluatesTo env t ↔ e.booleanOperands env = true)) ∧
    ∀ p : Program, typecheckProg p = .ok () → typecheckDeclarations p.decls = env →
      ∀ b ∈ p.statement.conditions,
        (b.EvaluatesTo env .boolean ↔ b.booleanOperands env = true) := by
  constructor
  · intro e t h
    exact evaluatesTo_of_typed h
  · intro p hp henv b hb
    exact evaluatesTo_of_typed (Stmt.conditions_boolean (henv ▸ hp) b hb)

/-- `if (true or x) then {} else {}`, with a boolean `x`. -/
def guarded : Program where
  decls := [("x", .boolean)]
  statement := .ifStmt (.or (.boolConst true) (.id "x")) (.block []) (.block [])

theorem evaluatesTo_iff_guarded :
    (Expr.or (.boolConst true) (.id "x")).EvaluatesTo [("x", .boolean)] .boolean :=
  ((evaluatesTo_iff [("x", .boolean)]).2 guarded rfl rfl _
    (by simp [guarded, Stmt.conditions])).mpr rfl

/-- `if (1 or 2) then {} else {}`. -/
def oneOrTwo : Program where
  decls := []
  statement := .ifStmt (.or (.intConst 1) (.intConst 2)) (.block []) (.block [])

/-- `1 or 2` is boolean for the typechecker, and it is stuck. -/
theorem stuck_oneOrTwo :
    (¬ ∀ (env : Env) (e : Expr) (t : Typ), typecheckExpr env e = .ok t → e.EvaluatesTo env t) ∧
    ¬ ∀ p : Program, typecheckProg p = .ok () → ∀ b ∈ p.statement.conditions,
      b.EvaluatesTo (typecheckDeclarations p.decls) .boolean := by
  have hstuck : ¬ (Expr.or (.intConst 1) (.intConst 2)).EvaluatesTo [] .boolean := by
    intro h
    have ⟨v, k', hv, _⟩ := h (Env.store []) (Env.store_typed []) Inputs.ofTyp 0
    cases hv
  constructor
  · intro h
    exact hstuck (h [] _ _ rfl)
  · intro h
    exact hstuck (h oneOrTwo rfl _ (by simp [oneOrTwo, Stmt.conditions]))

end Stabl.SimSee
