import Stabl.SimSee.Parser

/-!
# `Stabl.Proofs.SimSee.Sentences`: every expression is parsed

The resolution of the conflicts decides which tree is built, but it does not make the parser
reject a sentence of the grammar (`parsesExpr_of_sentence`). While the parser waits for an
expression, the stack holds negations and operators with the expressions before them, above a
bottom or an open parenthesis. Before an operator some of them are reduced, and before the end all
of them.

An expression in full parentheses is parsed as itself (`parsesExpr_exprTokens`).
-/

set_option autoImplicit false

namespace Stabl.SimSee

open StateTransition

/-! ### Sentences -/

/-- The token of an expression that consists of it alone. -/
def ExprToken.operand : ExprToken → Option Expr
  | .id vname => some (.id vname)
  | .integer n => some (.intConst n)
  | .boolean b => some (.boolConst b)
  | .input t => some (.input t)
  | _ => none

/-- The sentences of `expr`. -/
inductive ExprSentence : List ExprToken → Prop where
  | operand {t : ExprToken} {e : Expr} (h : t.operand = some e) : ExprSentence [t]
  | operator {ts ts' : List ExprToken} (o : BinaryOperator) (h : ExprSentence ts)
    (h' : ExprSentence ts') : ExprSentence (ts ++ o.token :: ts')
  | not {ts : List ExprToken} (h : ExprSentence ts) : ExprSentence (.not :: ts)
  | parentheses {ts : List ExprToken} (h : ExprSentence ts) :
    ExprSentence (.lparen :: ts ++ [.rparen])

namespace ExprParser

/-! ### The stack before an expression -/

/-- The symbols above `base` wait for an expression. -/
inductive Waiting (base : List ExprSymbol) : List ExprSymbol → Prop where
  | base : Waiting base base
  | operator {stack : List ExprSymbol} (h : Waiting base stack) (o : BinaryOperator) (e : Expr) :
    Waiting base (.token o.token :: .expr e :: stack)
  | not {stack : List ExprSymbol} (h : Waiting base stack) : Waiting base (.token .not :: stack)

/-- The bottom, or an open parenthesis. -/
def IsBase (base : List ExprSymbol) : Prop := base = [] ∨ ∃ stack, base = .token .lparen :: stack

section
variable {base stack : List ExprSymbol} {input : List ExprToken}

/-- Behind an open parenthesis nothing is reduced. -/
theorem reduction_lparen (e : Expr) (stack : List ExprSymbol) :
    reduction (.expr e :: .token .lparen :: stack) = none := by
  rcases stack with _ | ⟨x, stack⟩
  · rfl
  · cases x <;> rfl

/-- Where an expression is expected, the tokens that one begins with are shifted. -/
theorem Waiting.shifts (h : Waiting base stack) (hbase : IsBase base) {t : ExprToken}
    (ht : t.startsExpr = true) : ExprParser.shifts stack t = true := by
  cases h with
  | base =>
      rcases hbase with rfl | ⟨stack, rfl⟩
      · exact ht
      · simp [ExprParser.shifts, ExprToken.endsExpr, ht]
  | operator _ o e => cases o <;> simp [ExprParser.shifts, BinaryOperator.token,
      ExprToken.endsExpr, ht]
  | not => simp [ExprParser.shifts, ExprToken.endsExpr, ht]

/-- The parser does not reduce before a token that an expression begins with. -/
theorem step_of_startsExpr {t : ExprToken} (ht : t.startsExpr = true)
    (hshift : ExprParser.shifts stack t = true) (input : List ExprToken) :
    step ⟨stack, t :: input⟩ = some ⟨.token t :: stack, input⟩ := by
  have hfollows : follows (some t) = false := by
    cases t <;> simp_all [follows, ExprToken.operator, ExprToken.startsExpr]
  simp [step, hfollows, hshift]

/-- An operand is shifted and reduced. -/
theorem reaches_operand (h : Waiting base stack) (hbase : IsBase base) {t : ExprToken} {e : Expr}
    (ht : t.operand = some e) (hinput : follows input.head? = true) :
    Reaches step ⟨stack, t :: input⟩ ⟨.expr e :: stack, input⟩ := by
  have hstarts : t.startsExpr = true := by
    cases t <;> simp_all [ExprToken.operand, ExprToken.startsExpr]
  have hreduction : ∃ p, reduction (.token t :: stack) = some (p, .expr e :: stack) := by
    cases t <;> simp_all [ExprToken.operand, reduction]
  have hends : t.endsExpr = true := by
    cases t <;> simp_all [ExprToken.operand, ExprToken.endsExpr]
  obtain ⟨p, hreduction⟩ := hreduction
  have hreduce : step ⟨.token t :: stack, input⟩ = some ⟨.expr e :: stack, input⟩ := by
    cases input with
    | nil => simp [step, follows, hreduction]
    | cons u input =>
        rw [List.head?_cons] at hinput
        simp [step, hinput, hreduction, ExprParser.shifts, hends]
  have hshift := step_of_startsExpr hstarts (h.shifts hbase hstarts) input
  exact .head hshift (.single hreduce)

/-- Right above the base, an operator is shifted. -/
theorem step_operator_base (hbase : IsBase base) (o : BinaryOperator) (e : Expr)
    (input : List ExprToken) : step ⟨.expr e :: base, o.token :: input⟩ =
      some ⟨.token o.token :: .expr e :: base, input⟩ := by
  rcases hbase with rfl | ⟨stack, rfl⟩
  · cases o <;> rfl
  · cases o <;> simp [step, reduction_lparen, ExprParser.shifts, BinaryOperator.token,
      ExprToken.operator]

/-- Before an operator, some of the waiting symbols are reduced, and then the operator waits. -/
theorem reaches_waiting (h : Waiting base stack) (hbase : IsBase base) (o : BinaryOperator)
    (input : List ExprToken) : ∀ e, ∃ stack', Waiting base stack' ∧
      Reaches step ⟨.expr e :: stack, o.token :: input⟩ ⟨stack', input⟩ := by
  induction h with
  | base => exact fun e => ⟨_, .operator .base o e, .single (step_operator_base hbase o e input)⟩
  | @operator stack h p e' ih =>
      intro e
      -- The pending operator is reduced, or the one ahead is shifted.
      by_cases hresolve : resolve (.binary p) o.token = true
      · obtain ⟨stack', hwaiting, hreaches⟩ := ih (p.apply e' e)
        refine ⟨stack', hwaiting, .head ?_ hreaches⟩
        revert hresolve
        cases p <;> cases o <;> intro hresolve <;> first | rfl | cases hresolve
      · refine ⟨_, .operator (.operator h p e') o e, .single ?_⟩
        revert hresolve
        cases p <;> cases o <;> intro hresolve <;> first | rfl | exact absurd rfl hresolve
  | @not stack h ih =>
      intro e
      by_cases hresolve : resolve .not o.token = true
      · obtain ⟨stack', hwaiting, hreaches⟩ := ih (.not e)
        refine ⟨stack', hwaiting, .head ?_ hreaches⟩
        revert hresolve
        cases o <;> intro hresolve <;> first | rfl | cases hresolve
      · refine ⟨_, .operator (.not h) o e, .single ?_⟩
        revert hresolve
        cases o <;> intro hresolve <;> first | rfl | exact absurd rfl hresolve

/-- The tokens at which nothing is left to wait for. -/
def Closing (input : List ExprToken) : Prop :=
  input.head? = none ∨ input.head? = some .rparen

theorem step_operator_closing (hinput : Closing input) (o : BinaryOperator) (e1 e2 : Expr)
    (stack : List ExprSymbol) : step ⟨.expr e2 :: .token o.token :: .expr e1 :: stack, input⟩ =
      some ⟨.expr (o.apply e1 e2) :: stack, input⟩ := by
  cases input with
  | nil => cases o <;> rfl
  | cons t input =>
      obtain rfl : t = .rparen := by simpa [Closing] using hinput
      cases o <;> rfl

theorem step_not_closing (hinput : Closing input) (e : Expr) (stack : List ExprSymbol) :
    step ⟨.expr e :: .token .not :: stack, input⟩ = some ⟨.expr (.not e) :: stack, input⟩ := by
  cases input with
  | nil => rfl
  | cons t input =>
      obtain rfl : t = .rparen := by simpa [Closing] using hinput
      rfl

/-- Before the end, and before a closing parenthesis, all of the waiting symbols are reduced. -/
theorem reaches_base (h : Waiting base stack) (hinput : Closing input) :
    ∀ e, ∃ e', Reaches step ⟨.expr e :: stack, input⟩ ⟨.expr e' :: base, input⟩ := by
  induction h with
  | base => exact fun e => ⟨e, .refl⟩
  | operator _ o e' ih =>
      intro e
      obtain ⟨e₁, hreaches⟩ := ih (o.apply e' e)
      exact ⟨e₁, .head (step_operator_closing hinput o e' e _) hreaches⟩
  | not _ ih =>
      intro e
      obtain ⟨e₁, hreaches⟩ := ih (.not e)
      exact ⟨e₁, .head (step_not_closing hinput e _) hreaches⟩

/-- A parenthesis is closed, and the three symbols are reduced. -/
theorem reaches_closed (e : Expr) (hinput : follows input.head? = true) :
    Reaches step ⟨.expr e :: .token .lparen :: stack, .rparen :: input⟩
      ⟨.expr e :: stack, input⟩ := by
  have hshift : step ⟨.expr e :: .token .lparen :: stack, .rparen :: input⟩ =
      some ⟨.token .rparen :: .expr e :: .token .lparen :: stack, input⟩ := by
    simp [step, reduction_lparen, ExprParser.shifts]
  have hreduce : step ⟨.token .rparen :: .expr e :: .token .lparen :: stack, input⟩ =
      some ⟨.expr e :: stack, input⟩ := by
    cases input with
    | nil => rfl
    | cons t input =>
        rw [List.head?_cons] at hinput
        simp [step, hinput, reduction, ExprParser.shifts, ExprToken.endsExpr]
  exact .head hshift (.single hreduce)

theorem follows_operator (o : BinaryOperator) : follows (some o.token) = true := by
  cases o <;> rfl

/-- What stands in parentheses is read before the closing one. -/
theorem reaches_parentheses {ts : List ExprToken} {e : Expr} (h : Waiting base stack)
    (hbase : IsBase base) (hinput : follows input.head? = true)
    (hinside : Reaches step ⟨.token .lparen :: stack, ts ++ .rparen :: input⟩
      ⟨.expr e :: .token .lparen :: stack, .rparen :: input⟩) :
    Reaches step ⟨stack, .lparen :: ts ++ [.rparen] ++ input⟩ ⟨.expr e :: stack, input⟩ := by
  have hshift := step_of_startsExpr rfl (h.shifts hbase (t := .lparen) rfl)
    (ts ++ .rparen :: input)
  rw [List.append_assoc]
  exact .head hshift (hinside.trans (reaches_closed e hinput))

end

/-- A sentence is read where an expression is expected. -/
theorem reaches_sentence {ts : List ExprToken} (h : ExprSentence ts) :
    ∀ {base stack : List ExprSymbol} (rest : List ExprToken), IsBase base → Waiting base stack →
      follows rest.head? = true → ∃ stack' e, Waiting base stack' ∧
        Reaches step ⟨stack, ts ++ rest⟩ ⟨.expr e :: stack', rest⟩ := by
  induction h with
  | @operand t e ht =>
      intro base stack rest hbase hwaiting hrest
      exact ⟨stack, e, hwaiting, reaches_operand hwaiting hbase ht hrest⟩
  | @operator ts ts' o _ _ ih ih' =>
      intro base stack rest hbase hwaiting hrest
      obtain ⟨stack₁, e₁, hwaiting₁, hleft⟩ :=
        ih (o.token :: ts' ++ rest) hbase hwaiting (follows_operator o)
      obtain ⟨stack₂, hwaiting₂, hoperator⟩ :=
        reaches_waiting hwaiting₁ hbase o (ts' ++ rest) e₁
      obtain ⟨stack₃, e₃, hwaiting₃, hright⟩ := ih' rest hbase hwaiting₂ hrest
      refine ⟨stack₃, e₃, hwaiting₃, ?_⟩
      rw [List.append_assoc]
      exact (hleft.trans hoperator).trans hright
  | @not ts _ ih =>
      intro base stack rest hbase hwaiting hrest
      obtain ⟨stack₁, e, hwaiting₁, hreaches⟩ := ih rest hbase hwaiting.not hrest
      have hshift := step_of_startsExpr rfl (hwaiting.shifts hbase (t := .not) rfl) (ts ++ rest)
      exact ⟨stack₁, e, hwaiting₁, .head hshift hreaches⟩
  | @parentheses ts _ ih =>
      intro base stack rest hbase hwaiting hrest
      have hbase' : IsBase (.token .lparen :: stack) := Or.inr ⟨stack, rfl⟩
      have hclosing : Closing (.rparen :: rest) := Or.inr rfl
      obtain ⟨stack₁, e₁, hwaiting₁, hinside⟩ := ih (.rparen :: rest) hbase' .base rfl
      obtain ⟨e, hclose⟩ := reaches_base hwaiting₁ hclosing e₁
      exact ⟨stack, e, hwaiting, reaches_parentheses hwaiting hbase hrest (hinside.trans hclose)⟩

end ExprParser

/-- The parser accepts every sentence. -/
theorem parsesExpr_of_sentence {ts : List ExprToken} (h : ExprSentence ts) :
    ∃ e, ParsesExpr ts e := by
  obtain ⟨stack, e₁, hwaiting, hreaches⟩ :=
    ExprParser.reaches_sentence h [] (Or.inl rfl) .base rfl
  have hclosing : ExprParser.Closing [] := Or.inl rfl
  obtain ⟨e, hend⟩ := ExprParser.reaches_base hwaiting hclosing e₁
  rw [List.append_nil] at hreaches
  exact ⟨e, hreaches.trans hend⟩

/-! ### Expressions in full parentheses -/

/-- The tokens of an operator between two operands, in parentheses. -/
def operatorTokens (o : BinaryOperator) (ts ts' : List ExprToken) : List ExprToken :=
  .lparen :: (ts ++ o.token :: ts') ++ [.rparen]

/-- The tokens of an expression, with parentheses around every operator. -/
def exprTokens : Expr → List ExprToken
  | .id vname => [.id vname]
  | .intConst n => [.integer n]
  | .boolConst b => [.boolean b]
  | .input t => [.input t]
  | .add e1 e2 => operatorTokens .add (exprTokens e1) (exprTokens e2)
  | .sub e1 e2 => operatorTokens .subtract (exprTokens e1) (exprTokens e2)
  | .and e1 e2 => operatorTokens .and (exprTokens e1) (exprTokens e2)
  | .or e1 e2 => operatorTokens .or (exprTokens e1) (exprTokens e2)
  | .equals e1 e2 => operatorTokens .equals (exprTokens e1) (exprTokens e2)
  | .not e => .lparen :: (.not :: exprTokens e) ++ [.rparen]

namespace ExprParser

/-- Wherever an expression is expected, the tokens are read as the expression. -/
def ReadAs (ts : List ExprToken) (e : Expr) : Prop :=
  ∀ {base stack : List ExprSymbol} (rest : List ExprToken), IsBase base → Waiting base stack →
    follows rest.head? = true → Reaches step ⟨stack, ts ++ rest⟩ ⟨.expr e :: stack, rest⟩

theorem readAs_operatorTokens (o : BinaryOperator) {ts ts' : List ExprToken} {e1 e2 : Expr}
    (h1 : ReadAs ts e1) (h2 : ReadAs ts' e2) :
    ReadAs (operatorTokens o ts ts') (o.apply e1 e2) := by
  intro base stack rest hbase hwaiting hrest
  refine reaches_parentheses hwaiting hbase hrest ?_
  have hbase' : IsBase (.token .lparen :: stack) := Or.inr ⟨stack, rfl⟩
  have hclosing : Closing (.rparen :: rest) := Or.inr rfl
  have hleft := h1 (o.token :: ts' ++ .rparen :: rest) hbase' .base (follows_operator o)
  have hshift := step_operator_base hbase' o e1 (ts' ++ .rparen :: rest)
  have hright := h2 (.rparen :: rest) hbase' (.operator .base o e1) rfl
  have hreduce := step_operator_closing hclosing o e1 e2 (.token .lparen :: stack)
  rw [List.append_assoc]
  exact hleft.trans (.head hshift (hright.trans (.single hreduce)))

theorem readAs_operand {t : ExprToken} {e : Expr} (h : t.operand = some e) : ReadAs [t] e :=
  fun _ hbase hwaiting hrest => reaches_operand hwaiting hbase h hrest

theorem readAs_exprTokens (e : Expr) : ReadAs (exprTokens e) e := by
  induction e with
  | id vname => exact readAs_operand rfl
  | intConst n => exact readAs_operand rfl
  | boolConst b => exact readAs_operand rfl
  | input t => exact readAs_operand rfl
  | add e1 e2 ih1 ih2 => exact readAs_operatorTokens .add ih1 ih2
  | sub e1 e2 ih1 ih2 => exact readAs_operatorTokens .subtract ih1 ih2
  | and e1 e2 ih1 ih2 => exact readAs_operatorTokens .and ih1 ih2
  | or e1 e2 ih1 ih2 => exact readAs_operatorTokens .or ih1 ih2
  | equals e1 e2 ih1 ih2 => exact readAs_operatorTokens .equals ih1 ih2
  | not e ih =>
      intro base stack rest hbase hwaiting hrest
      refine reaches_parentheses hwaiting hbase hrest ?_
      have hbase' : IsBase (.token .lparen :: stack) := Or.inr ⟨stack, rfl⟩
      have hclosing : Closing (.rparen :: rest) := Or.inr rfl
      have hshift := step_of_startsExpr rfl (Waiting.base.shifts hbase' (t := .not) rfl)
        (exprTokens e ++ .rparen :: rest)
      have hoperand := ih (.rparen :: rest) hbase' (.not .base) rfl
      have hreduce := step_not_closing hclosing e (.token .lparen :: stack)
      exact .head hshift (hoperand.trans (.single hreduce))

end ExprParser

/-- Full parentheses leave nothing to the precedences. -/
theorem parsesExpr_exprTokens (e : Expr) : ParsesExpr (exprTokens e) e := by
  have h := ExprParser.readAs_exprTokens e [] (Or.inl rfl) .base rfl
  rwa [List.append_nil] at h

end Stabl.SimSee
