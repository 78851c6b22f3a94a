import Stabl.Proofs.SimSee.ParserTable
import Stabl.Proofs.SimSee.Sentences

/-!
# `Stabl.Proofs.SimSee.ProgramParser`: programs are parsed as they are written

Where an expression is expected, the table takes the steps of the parser of expressions
(`stepMirrored`): its entries are what the precedence declarations say about the conflicts. So each
expression of a program gets the tree that this parser builds (`parses_expr`).

`Written` says how statements can be written. The parser with the table reads them back
(`parses_program`), and every sentence of the grammar is written in this way
(`written_of_derives`). Together with the soundness of the parser this is all that it accepts
(`parseTokens_language`). Other tokens are refused at the first one that is wrong
(`parseTokens_fails_iff`).
-/

set_option autoImplicit false

namespace Stabl.SimSee

open ShiftReduce StateTransition

/-! ### Steps with the table -/

/-- A stack of the parser. -/
abbrev ParserStack : Type := List (ShiftReduce.Frame grammar ParserState)

/-- The parser gets from one stack and input to another. -/
def Parses (stack : ParserStack) (input : List ProgramToken) (stack' : ParserStack)
    (input' : List ProgramToken) : Prop :=
  Reaches table.step ⟨stack, input⟩ ⟨stack', input'⟩

theorem Parses.trans {stack stack' stack'' : ParserStack} {input input' input'' : List ProgramToken}
    (h : Parses stack input stack' input') (h' : Parses stack' input' stack'' input'') :
    Parses stack input stack'' input'' :=
  Relation.ReflTransGen.trans h h'

/-- Where there is an action for a token ahead, there is no default reduction. -/
theorem looks_ahead : ∀ s ∈ ParserState.all, ∀ t ∈ Terminal.all, (parserAction s t).isSome = true →
    defaultReduction s = none ∧ s ≠ .s4 := by
  decide +kernel

section
variable {stack stack' : ParserStack} {rest : List ProgramToken} {s : ParserState}

theorem parses_shift {t : Terminal} (v : SymbolValue (.terminal t))
    (h : parserAction (table.top stack) t = some (.shift s)) :
    Parses stack (⟨t, v⟩ :: rest) (⟨s, .terminal t, v⟩ :: stack) rest := by
  obtain ⟨hdefault, hs⟩ := looks_ahead _ (ParserState.mem_all _) t t.mem_all (by rw [h]; rfl)
  exact .single (Table.step_shift (decide_eq_false hs) hdefault h v rest)

theorem parses_default (p : Production) (args : p.rhs.TProd SymbolValue)
    (h : defaultReduction (table.top stack) = some p)
    (hpop : pop (G := grammar) p.rhs stack = some (args, stack'))
    (hgoto : parserGoto (table.top stack') p.lhs = some s) :
    Parses stack rest (⟨s, .nonterminal p.lhs, p.action args⟩ :: stack') rest := by
  have haccepts : table.accepts (table.top stack) = false := by
    refine decide_eq_false fun hs => ?_
    rw [hs] at h
    cases h
  refine .single ?_
  rw [Option.mem_def, Table.step_default haccepts h]
  exact Table.reduceBy_eq_some.mpr ⟨args, stack', s, hpop, hgoto, rfl⟩

theorem parses_ahead (p : Production) (args : p.rhs.TProd SymbolValue) {t : ProgramToken}
    (h : parserAction (table.top stack) t.1 = some (.reduce p))
    (hpop : pop (G := grammar) p.rhs stack = some (args, stack'))
    (hgoto : parserGoto (table.top stack') p.lhs = some s) :
    Parses stack (t :: rest) (⟨s, .nonterminal p.lhs, p.action args⟩ :: stack') (t :: rest) := by
  obtain ⟨hdefault, hs⟩ := looks_ahead _ (ParserState.mem_all _) t.1 t.1.mem_all (by rw [h]; rfl)
  refine .single ?_
  rw [Option.mem_def, Table.step_ahead (decide_eq_false hs) hdefault h]
  exact Table.reduceBy_eq_some.mpr ⟨args, stack', s, hpop, hgoto, rfl⟩

end

/-! ### The parser of expressions in the table -/

/-- A token of an expression, as a token of a program. -/
def ExprToken.programToken : ExprToken → ProgramToken
  | .id vname => ⟨.id, vname⟩
  | .integer n => ⟨.integer, n⟩
  | .boolean b => ⟨.boolean, b⟩
  | .input t => ⟨.input, t⟩
  | .add => ⟨.add, ()⟩
  | .subtract => ⟨.subtract, ()⟩
  | .eq => ⟨.eq, ()⟩
  | .and => ⟨.and, ()⟩
  | .or => ⟨.or, ()⟩
  | .not => ⟨.not, ()⟩
  | .lparen => ⟨.lparen, ()⟩
  | .rparen => ⟨.rparen, ()⟩

/-- The state after the token. -/
def ExprToken.state : ExprToken → ParserState
  | .lparen => .s20
  | .not => .s21
  | .integer _ => .s22
  | .id _ => .s23
  | .boolean _ => .s24
  | .input _ => .s25
  | .add => .s34
  | .subtract => .s35
  | .eq => .s36
  | .and => .s37
  | .or => .s38
  | .rparen => .s40

def ExprToken.frame (t : ExprToken) : ShiftReduce.Frame grammar ParserState :=
  ⟨t.state, .terminal t.programToken.1, t.programToken.2⟩

/-- The production of an operator. -/
def BinaryOperator.production : BinaryOperator → Production
  | .add => .add
  | .subtract => .subtract
  | .and => .and
  | .or => .or
  | .equals => .eq

/-- The state after the expression on the right of an operator. -/
def BinaryOperator.endState : BinaryOperator → ParserState
  | .add => .s42
  | .subtract => .s43
  | .equals => .s44
  | .and => .s45
  | .or => .s46

def exprFrame (s : ParserState) (e : Expr) : ShiftReduce.Frame grammar ParserState :=
  ⟨s, .nonterminal .expr, e⟩

/-- An expression ends at the token. -/
def ProgramToken.Ends (t : ProgramToken) : Prop := t.1 = .semicolon ∨ t.1 = .then

theorem shifts_start {s s' : ParserState} (h : parserGoto s .expr = some s') {t : ExprToken}
    (ht : t.startsExpr = true) :
    parserAction s t.programToken.1 = some (.shift t.state) := by
  cases s <;> cases h <;> cases t <;> first | rfl | cases ht

theorem goto_operator (o : BinaryOperator) :
    parserGoto o.token.state .expr = some o.endState := by
  cases o <;> rfl

/-- The table resolves the conflicts as the precedences do. -/
theorem action_operator (p o : BinaryOperator) :
    parserAction p.endState o.token.programToken.1 =
      if ExprParser.resolve (.binary p) o.token then some (.reduce p.production)
      else some (.shift o.token.state) := by
  cases p <;> cases o <;> decide

theorem action_not (o : BinaryOperator) :
    parserAction .s32 o.token.programToken.1 =
      if ExprParser.resolve .not o.token then some (.reduce .not)
      else some (.shift o.token.state) := by
  cases o <;> decide

theorem action_closing {t : Terminal} (ht : t = .rparen ∨ t = .semicolon ∨ t = .then)
    (p : BinaryOperator) : parserAction p.endState t = some (.reduce p.production) ∧
      parserAction .s32 t = some (.reduce .not) := by
  rcases ht with rfl | rfl | rfl <;> cases p <;> decide

/-- The parser of expressions shifts, or it reduces. -/
theorem ExprParser.step_cases {es : List ExprSymbol} {input : List ExprToken} {c : ExprParser}
    (h : ExprParser.step ⟨es, input⟩ = some c) :
    (∃ t input', input = t :: input' ∧ ExprParser.shifts es t = true ∧
      (∀ p r, ExprParser.follows (some t) = true → ExprParser.reduction es = some (p, r) →
        ExprParser.resolve p t = false) ∧ c = ⟨.token t :: es, input'⟩) ∨
    ∃ p r, ExprParser.reduction es = some (p, r) ∧ ExprParser.follows input.head? = true ∧
      (∀ t ∈ input.head?, ExprParser.shifts es t = true → ExprParser.resolve p t = true) ∧
        c = ⟨r, input⟩ := by
  cases input with
  | nil =>
      cases hreduction : ExprParser.reduction es with
      | none => simp [ExprParser.step, hreduction] at h
      | some r =>
          refine Or.inr ⟨r.1, r.2, rfl, rfl, by simp, ?_⟩
          simpa [ExprParser.step, hreduction, ExprParser.follows, eq_comm] using h
  | cons t input =>
      simp only [ExprParser.step, List.head?_cons] at h ⊢
      cases hshifts : ExprParser.shifts es t with
      | false =>
          cases hfollows : ExprParser.follows (some t) with
          | false => simp [hshifts, hfollows] at h
          | true =>
              cases hreduction : ExprParser.reduction es with
              | none => simp [hshifts, hfollows, hreduction] at h
              | some r =>
                  refine Or.inr ⟨r.1, r.2, rfl, rfl, ?_, ?_⟩
                  · intro u hu hshifts'
                    cases hu
                    cases hshifts.symm.trans hshifts'
                  · simpa [hshifts, hfollows, hreduction, eq_comm] using h
      | true =>
          cases hfollows : ExprParser.follows (some t) with
          | false =>
              refine Or.inl ⟨t, input, rfl, hshifts, by simp_all, ?_⟩
              simpa [hshifts, hfollows, eq_comm] using h
          | true =>
              cases hreduction : ExprParser.reduction es with
              | none =>
                  refine Or.inl ⟨t, input, rfl, hshifts, by simp_all, ?_⟩
                  simpa [hshifts, hfollows, hreduction, eq_comm] using h
              | some r =>
                  cases hresolve : ExprParser.resolve r.1 t with
                  | false =>
                      refine Or.inl ⟨t, input, rfl, hshifts, ?_, ?_⟩
                      · intro p r' _ hr
                        cases hr
                        exact hresolve
                      · simpa [hshifts, hfollows, hreduction, hresolve, eq_comm] using h
                  | true =>
                      refine Or.inr ⟨r.1, r.2, rfl, rfl, ?_, ?_⟩
                      · intro u hu _
                        cases hu
                        exact hresolve
                      · simpa [hshifts, hfollows, hreduction, hresolve, eq_comm] using h

/-- The upper part of a stack, over `base`, as a stack of the parser of expressions that waits for
an expression. -/
inductive Mirrors (base : ParserStack) : List ExprSymbol → ParserStack → Prop where
  | base : Mirrors base [] base
  | lparen {es : List ExprSymbol} {stack : ParserStack} (h : Mirrors base es stack) :
    Mirrors base (.token .lparen :: es) (ExprToken.lparen.frame :: stack)
  | not {es : List ExprSymbol} {stack : ParserStack} (h : Mirrors base es stack) :
    Mirrors base (.token .not :: es) (ExprToken.not.frame :: stack)
  | operator {es : List ExprSymbol} {stack : ParserStack} {s : ParserState}
    (h : Mirrors base es stack) (o : BinaryOperator) (e : Expr)
    (hs : parserGoto (table.top stack) .expr = some s) :
    Mirrors base (.token o.token :: .expr e :: es) (o.token.frame :: exprFrame s e :: stack)

/-- The same for all stacks that the parser of expressions gets to. -/
inductive MirrorsAll (base : ParserStack) : List ExprSymbol → ParserStack → Prop where
  | waiting {es : List ExprSymbol} {stack : ParserStack} (h : Mirrors base es stack) :
    MirrorsAll base es stack
  | operand {es : List ExprSymbol} {stack : ParserStack} (h : Mirrors base es stack)
    {t : ExprToken} {e : Expr} (ht : t.operand = some e) :
    MirrorsAll base (.token t :: es) (t.frame :: stack)
  | expr {es : List ExprSymbol} {stack : ParserStack} {s : ParserState}
    (h : Mirrors base es stack) (e : Expr) (hs : parserGoto (table.top stack) .expr = some s) :
    MirrorsAll base (.expr e :: es) (exprFrame s e :: stack)
  | closed {es : List ExprSymbol} {stack : ParserStack} (h : Mirrors base es stack) (e : Expr) :
    MirrorsAll base (.token .rparen :: .expr e :: .token .lparen :: es)
      (ExprToken.rparen.frame :: exprFrame .s31 e :: ExprToken.lparen.frame :: stack)

section
variable {base stack : ParserStack} {es : List ExprSymbol} {s : ParserState}

theorem Mirrors.goto (h : Mirrors base es stack)
    (hbase : parserGoto (table.top base) .expr = some s) :
    ∃ s', parserGoto (table.top stack) .expr = some s' := by
  cases h with
  | base => exact ⟨s, hbase⟩
  | lparen => exact ⟨_, rfl⟩
  | not => exact ⟨_, rfl⟩
  | operator _ o => exact ⟨o.endState, goto_operator o⟩

theorem Mirrors.reduction (h : Mirrors base es stack) : ExprParser.reduction es = none := by
  cases h with
  | base => rfl
  | lparen => rfl
  | not => rfl
  | operator _ o => cases o <;> rfl

theorem Mirrors.startsExpr (h : Mirrors base es stack) {t : ExprToken}
    (ht : ExprParser.shifts es t = true) : t.startsExpr = true := by
  cases h with
  | base => exact ht
  | lparen => simpa [ExprParser.shifts, ExprToken.endsExpr] using ht
  | not => simpa [ExprParser.shifts, ExprToken.endsExpr] using ht
  | operator _ o => cases o <;> simpa [ExprParser.shifts, ExprToken.endsExpr,
      BinaryOperator.token] using ht

/-- A token that an expression begins with is shifted, and mirrored. -/
theorem Mirrors.shift (h : Mirrors base es stack) {t : ExprToken} (ht : t.startsExpr = true) :
    MirrorsAll base (.token t :: es) (t.frame :: stack) := by
  cases t with
  | lparen => exact .waiting h.lparen
  | not => exact .waiting h.not
  | id vname => exact .operand h rfl
  | integer n => exact .operand h rfl
  | boolean b => exact .operand h rfl
  | input t => exact .operand h rfl
  | add | subtract | eq | and | or | rparen => cases ht

/-- The tokens of an expression, and then a token at which it ends. -/
def exprInput (ts : List ExprToken) (t : ProgramToken) (rest : List ProgramToken) :
    List ProgramToken :=
  ts.map ExprToken.programToken ++ t :: rest

/-- One step of the parser of expressions is one step with the table. -/
def StepMirrored (base : ParserStack) (es : List ExprSymbol) (stack : ParserStack) : Prop :=
  ∀ {input : List ExprToken} {c : ExprParser} {t : ProgramToken} {rest : List ProgramToken},
    t.Ends → ExprParser.step ⟨es, input⟩ = some c → ∃ stack', MirrorsAll base c.stack stack' ∧
      Parses stack (exprInput input t rest) stack' (exprInput c.input t rest)

theorem stepMirrored_waiting (h : Mirrors base es stack)
    (hbase : parserGoto (table.top base) .expr = some s) : StepMirrored base es stack := by
  intro input c t rest _ hstep
  rcases ExprParser.step_cases hstep with ⟨u, input', rfl, hshifts, _, rfl⟩ | ⟨p, r, hr, _⟩
  · have hstarts := h.startsExpr hshifts
    obtain ⟨s', hs'⟩ := h.goto hbase
    exact ⟨_, h.shift hstarts, parses_shift u.programToken.2 (shifts_start hs' hstarts)⟩
  · rw [h.reduction] at hr
    cases hr

theorem stepMirrored_operand (h : Mirrors base es stack) {u : ExprToken} {e : Expr}
    (hu : u.operand = some e) (hbase : parserGoto (table.top base) .expr = some s) :
    StepMirrored base (.token u :: es) (u.frame :: stack) := by
  intro input c t rest _ hstep
  obtain ⟨s', hs'⟩ := h.goto hbase
  rcases ExprParser.step_cases hstep with ⟨u', input', rfl, hshifts, _⟩ | ⟨p, r, hr, _, _, rfl⟩
  · cases u <;> simp_all [ExprParser.shifts, ExprToken.endsExpr, ExprToken.operand]
  · cases u with
    | id vname =>
        cases hr
        exact ⟨_, .expr h (.id vname) hs', parses_default .id (vname, ⟨⟩) rfl rfl hs'⟩
    | integer n =>
        cases hr
        exact ⟨_, .expr h (.intConst n) hs', parses_default .integer (n, ⟨⟩) rfl rfl hs'⟩
    | boolean b =>
        cases hr
        exact ⟨_, .expr h (.boolConst b) hs', parses_default .boolean (b, ⟨⟩) rfl rfl hs'⟩
    | input ty =>
        cases hr
        exact ⟨_, .expr h (.input ty) hs', parses_default .input (ty, ⟨⟩) rfl rfl hs'⟩
    | add | subtract | eq | and | or | not | lparen | rparen => cases hu

theorem stepMirrored_closed (h : Mirrors base es stack) (e : Expr)
    (hbase : parserGoto (table.top base) .expr = some s) :
    StepMirrored base (.token .rparen :: .expr e :: .token .lparen :: es)
      (ExprToken.rparen.frame :: exprFrame .s31 e :: ExprToken.lparen.frame :: stack) := by
  intro input c t rest _ hstep
  obtain ⟨s', hs'⟩ := h.goto hbase
  rcases ExprParser.step_cases hstep with ⟨u', input', rfl, hshifts, _⟩ | ⟨p, r, hr, _, _, rfl⟩
  · simp [ExprParser.shifts, ExprToken.endsExpr] at hshifts
  · cases hr
    exact ⟨_, .expr h e hs', parses_default .parentheses ((), e, (), ⟨⟩) rfl rfl hs'⟩

/-- The tokens behind an expression that are not shifted end it. -/
theorem head_exprInput {input : List ExprToken} {t : ProgramToken} (rest : List ProgramToken)
    (ht : t.Ends) (hfollows : ExprParser.follows input.head? = true) :
    ∃ u rest', exprInput input t rest = u :: rest' ∧
      ((u.1 = .rparen ∨ u.1 = .semicolon ∨ u.1 = .then) ∨
        ∃ o : BinaryOperator, input.head? = some o.token ∧ u.1 = o.token.programToken.1) := by
  cases input with
  | nil => exact ⟨t, rest, rfl, Or.inl (Or.inr ht)⟩
  | cons u input =>
      refine ⟨u.programToken, exprInput input t rest, rfl, ?_⟩
      cases u with
      | rparen => exact Or.inl (Or.inl rfl)
      | add => exact Or.inr ⟨.add, rfl, rfl⟩
      | subtract => exact Or.inr ⟨.subtract, rfl, rfl⟩
      | and => exact Or.inr ⟨.and, rfl, rfl⟩
      | or => exact Or.inr ⟨.or, rfl, rfl⟩
      | eq => exact Or.inr ⟨.equals, rfl, rfl⟩
      | id | integer | boolean | input | not | lparen => cases hfollows

theorem eq_token_of_operator {t : ExprToken} (h : t.operator.isSome = true) :
    ∃ o : BinaryOperator, t = o.token := by
  cases t with
  | add => exact ⟨.add, rfl⟩
  | subtract => exact ⟨.subtract, rfl⟩
  | and => exact ⟨.and, rfl⟩
  | or => exact ⟨.or, rfl⟩
  | eq => exact ⟨.equals, rfl⟩
  | id | integer | boolean | input | not | lparen | rparen => cases h

theorem isSome_operator (o : BinaryOperator) : o.token.operator.isSome = true := by
  cases o <;> rfl

/-- Above the state of `base` an expression is expected, and an operator behind it is shifted. -/
def IsContext (base : ParserStack) (s : ParserState) : Prop :=
  parserGoto (table.top base) .expr = some s ∧
    ∀ o : BinaryOperator, parserAction s o.token.programToken.1 = some (.shift o.token.state)

/-- An operator behind an expression is shifted, and mirrored. -/
theorem Mirrors.parses_operator (h : Mirrors base es stack) (e : Expr)
    (hs : parserGoto (table.top stack) .expr = some s) {o : BinaryOperator}
    (haction : parserAction s o.token.programToken.1 = some (.shift o.token.state))
    (rest : List ProgramToken) : ∃ stack',
      MirrorsAll base (.token o.token :: .expr e :: es) stack' ∧
        Parses (exprFrame s e :: stack) (o.token.programToken :: rest) stack' rest :=
  ⟨_, .waiting (.operator h o e hs), parses_shift o.token.programToken.2 haction⟩

/-- Right above the base nothing is reduced. -/
theorem stepMirrored_base (hbase : IsContext base s) (e : Expr) :
    StepMirrored base [.expr e] (exprFrame s e :: base) := by
  intro input c t rest _ hstep
  rcases ExprParser.step_cases hstep with ⟨u, input', rfl, hshifts, _, rfl⟩ | ⟨p, r, hr, _⟩
  · obtain ⟨o, rfl⟩ := eq_token_of_operator hshifts
    exact Mirrors.base.parses_operator e hbase.1 (hbase.2 o) _
  · cases hr

/-- Behind a parenthesis an operator is shifted, or the parenthesis is closed. -/
theorem stepMirrored_lparen (h : Mirrors base es stack) (e : Expr) :
    StepMirrored base (.expr e :: .token .lparen :: es)
      (exprFrame .s31 e :: ExprToken.lparen.frame :: stack) := by
  intro input c t rest _ hstep
  rcases ExprParser.step_cases hstep with ⟨u, input', rfl, hshifts, _, rfl⟩ | ⟨p, r, hr, _⟩
  · rcases Bool.or_eq_true_iff.mp hshifts with hoperator | hclose
    · obtain ⟨o, rfl⟩ := eq_token_of_operator hoperator
      exact h.lparen.parses_operator e rfl (by cases o <;> rfl) _
    · obtain rfl := of_decide_eq_true hclose
      exact ⟨_, .closed h e, parses_shift (t := .rparen) () rfl⟩
  · rw [ExprParser.reduction_lparen] at hr
    cases hr

theorem stepMirrored_not (h : Mirrors base es stack) (e : Expr)
    (hbase : parserGoto (table.top base) .expr = some s) :
    StepMirrored base (.expr e :: .token .not :: es)
      (exprFrame .s32 e :: ExprToken.not.frame :: stack) := by
  intro input c t rest ht hstep
  rcases ExprParser.step_cases hstep with
    ⟨u, input', rfl, hshifts, hresolve, rfl⟩ | ⟨p, r, hr, hfollows, hresolve, rfl⟩
  · obtain ⟨o, rfl⟩ := eq_token_of_operator hshifts
    have hresolve := hresolve _ _ (ExprParser.follows_operator o) rfl
    have haction := action_not o
    rw [if_neg (by simp [hresolve])] at haction
    exact h.not.parses_operator e rfl haction _
  · cases hr
    obtain ⟨s', hs'⟩ := h.goto hbase
    obtain ⟨u, rest', hinput, hu⟩ := head_exprInput rest ht hfollows
    have haction : parserAction .s32 u.1 = some (.reduce .not) := by
      rcases hu with hclosing | ⟨o, hhead, hu⟩
      · exact (action_closing hclosing .add).2
      · have hresolve := hresolve o.token (by rw [hhead]; rfl) (isSome_operator o)
        rw [hu, action_not, if_pos hresolve]
    refine ⟨_, .expr h (.not e) hs', ?_⟩
    rw [hinput]
    exact parses_ahead .not ((), e, ⟨⟩) haction rfl hs'

theorem stepMirrored_operator (h : Mirrors base es stack) (p : BinaryOperator) (e1 e2 : Expr)
    (hs : parserGoto (table.top stack) .expr = some s) :
    StepMirrored base (.expr e2 :: .token p.token :: .expr e1 :: es)
      (exprFrame p.endState e2 :: p.token.frame :: exprFrame s e1 :: stack) := by
  intro input c t rest ht hstep
  have hreduction : ExprParser.reduction (.expr e2 :: .token p.token :: .expr e1 :: es) =
      some (.binary p, .expr (p.apply e1 e2) :: es) := by
    cases p <;> rfl
  have hshifts : ∀ u, ExprParser.shifts (.expr e2 :: .token p.token :: .expr e1 :: es) u =
      u.operator.isSome := by
    cases p <;> exact fun _ => rfl
  rcases ExprParser.step_cases hstep with
    ⟨u, input', rfl, hu, hresolve, rfl⟩ | ⟨p', r, hr, hfollows, hresolve, rfl⟩
  · rw [hshifts] at hu
    obtain ⟨o, rfl⟩ := eq_token_of_operator hu
    have hresolve := hresolve _ _ (ExprParser.follows_operator o) hreduction
    have haction := action_operator p o
    rw [if_neg (by simp [hresolve])] at haction
    exact (Mirrors.operator h p e1 hs).parses_operator e2 (goto_operator p) haction _
  · obtain ⟨rfl, rfl⟩ : .binary p = p' ∧ .expr (p.apply e1 e2) :: es = r := by
      simpa [hreduction] using hr
    obtain ⟨u, rest', hinput, hu⟩ := head_exprInput rest ht hfollows
    have haction : parserAction p.endState u.1 = some (.reduce p.production) := by
      rcases hu with hclosing | ⟨o, hhead, hu⟩
      · exact (action_closing hclosing p).1
      · have hresolve := hresolve o.token (by rw [hhead]; rfl)
          (by rw [hshifts]; exact isSome_operator o)
        rw [hu, action_operator, if_pos hresolve]
    refine ⟨_, .expr h (p.apply e1 e2) hs, ?_⟩
    rw [hinput]
    cases p with
    | add => exact parses_ahead .add (e1, (), e2, ⟨⟩) haction rfl hs
    | subtract => exact parses_ahead .subtract (e1, (), e2, ⟨⟩) haction rfl hs
    | and => exact parses_ahead .and (e1, (), e2, ⟨⟩) haction rfl hs
    | or => exact parses_ahead .or (e1, (), e2, ⟨⟩) haction rfl hs
    | equals => exact parses_ahead .eq (e1, (), e2, ⟨⟩) haction rfl hs

/-- Every step of the parser of expressions is one with the table. -/
theorem stepMirrored (h : MirrorsAll base es stack) (hbase : IsContext base s) :
    StepMirrored base es stack := by
  cases h with
  | waiting h => exact stepMirrored_waiting h hbase.1
  | operand h ht => exact stepMirrored_operand h ht hbase.1
  | closed h e => exact stepMirrored_closed h e hbase.1
  | expr h e hs =>
      cases h with
      | base =>
          obtain rfl := Option.some.inj (hs.symm.trans hbase.1)
          exact stepMirrored_base hbase e
      | lparen h =>
          cases hs
          exact stepMirrored_lparen h e
      | not h =>
          cases hs
          exact stepMirrored_not h e hbase.1
      | operator h o e1 hs1 =>
          obtain rfl := Option.some.inj (hs.symm.trans (goto_operator o))
          exact stepMirrored_operator h o e1 e hs1

/-- What the parser of expressions builds is built with the table, where an expression is
expected. -/
theorem parses_expr {ts : List ExprToken} {e : Expr} (h : ParsesExpr ts e)
    (hbase : IsContext base s) {t : ProgramToken} (ht : t.Ends) (rest : List ProgramToken) :
    Parses base (ts.map ExprToken.programToken ++ t :: rest) (exprFrame s e :: base)
      (t :: rest) := by
  have hrun : ∀ {c c' : ExprParser}, Reaches ExprParser.step c c' → ∀ {stack},
      MirrorsAll base c.stack stack → ∃ stack', MirrorsAll base c'.stack stack' ∧
        Parses stack (exprInput c.input t rest) stack' (exprInput c'.input t rest) := by
    intro c c' hreaches
    induction hreaches with
    | refl => exact fun hstack => ⟨_, hstack, .refl⟩
    | tail _ hstep ih =>
        intro stack hstack
        obtain ⟨stack₁, hstack₁, hparses⟩ := ih hstack
        obtain ⟨stack₂, hstack₂, hparses'⟩ := stepMirrored hstack₁ hbase ht hstep
        exact ⟨stack₂, hstack₂, hparses.trans hparses'⟩
  obtain ⟨stack, hstack, hparses⟩ := hrun h (.waiting .base)
  cases hstack with
  | waiting h => cases h
  | expr h e hs =>
      cases h
      obtain rfl := Option.some.inj (hs.symm.trans hbase.1)
      exact hparses

end

/-! ### Statements and programs as they are written -/

/-- The tokens of a list of statements. An expression can be written in every way that is read as
the expression. -/
inductive Written : List Stmt → List ProgramToken → Prop where
  | nil : Written [] []
  | assignment (vname : String) {ts : List ExprToken} {e : Expr} {ss : List Stmt}
    {u : List ProgramToken} (he : ParsesExpr ts e) (h : Written ss u) :
    Written (.assignment vname e :: ss)
      (⟨.id, vname⟩ :: ⟨.assign, ()⟩ :: ts.map ExprToken.programToken ++ ⟨.semicolon, ()⟩ :: u)
  | ifStmt {ts : List ExprToken} {b : Expr} {s1 s2 : Stmt} {ss : List Stmt}
    {u1 u2 u : List ProgramToken} (hb : ParsesExpr ts b) (h1 : Written [s1] u1)
    (h2 : Written [s2] u2) (h : Written ss u) :
    Written (.ifStmt b s1 s2 :: ss)
      (⟨.if, ()⟩ :: ts.map ExprToken.programToken ++ ⟨.then, ()⟩ :: u1 ++ ⟨.else, ()⟩ :: u2 ++ u)
  | block {ss' ss : List Stmt} {u' u : List ProgramToken} (h' : Written ss' u')
    (h : Written ss u) :
    Written (.block ss' :: ss) (⟨.lbrace, ()⟩ :: u' ++ ⟨.rbrace, ()⟩ :: u)

/-- The tokens of a declaration. -/
def declTokens (d : String × Typ) : List ProgramToken :=
  [⟨.type, d.2⟩, ⟨.id, d.1⟩, ⟨.semicolon, ()⟩]

def declsTokens (ds : List (String × Typ)) : List ProgramToken :=
  ⟨.lbrace, ()⟩ :: ds.flatMap declTokens ++ [⟨.rbrace, ()⟩]

def WrittenProgram (p : Program) (tokens : List ProgramToken) : Prop :=
  ∃ u, Written [p.statement] u ∧ tokens = declsTokens p.decls ++ u

/-- Wherever a statement is expected, the tokens are read as the statement. The tokens behind them
do not matter. -/
def ReadsStmt (st : Stmt) (u : List ProgramToken) : Prop :=
  ∀ {stack : ParserStack} {s : ParserState} {rest : List ProgramToken},
    parserGoto (table.top stack) .stmt = some s →
      Parses stack (u ++ rest) (⟨s, .nonterminal .stmt, st⟩ :: stack) rest

theorem shifts_stmt {s s' : ParserState} (h : parserGoto s .stmt = some s') {t : Terminal}
    (ht : (stmtAction t).isSome = true) : parserAction s t = stmtAction t := by
  cases s <;> cases h <;> cases t <;> first | rfl | cases ht

theorem isContext_if (v : Unit) (stack : ParserStack) :
    IsContext (⟨.s11, .terminal .if, v⟩ :: stack) .s26 :=
  ⟨rfl, fun o => by cases o <;> rfl⟩

theorem isContext_assign (v : Unit) (stack : ParserStack) :
    IsContext (⟨.s27, .terminal .assign, v⟩ :: stack) .s39 :=
  ⟨rfl, fun o => by cases o <;> rfl⟩

theorem readsStmt_assignment (vname : String) {ts : List ExprToken} {e : Expr}
    (he : ParsesExpr ts e) : ReadsStmt (.assignment vname e)
      (⟨.id, vname⟩ :: ⟨.assign, ()⟩ :: ts.map ExprToken.programToken ++ [⟨.semicolon, ()⟩]) := by
  intro stack s rest hs
  simp only [List.cons_append, List.append_assoc, List.nil_append]
  refine (parses_shift (t := .id) vname (shifts_stmt hs rfl)).trans ?_
  refine (parses_shift (t := .assign) () rfl).trans ?_
  refine (parses_expr he (isContext_assign () _) (Or.inl rfl) rest).trans ?_
  refine (parses_shift (t := .semicolon) () rfl).trans ?_
  exact parses_default .assignment (vname, (), e, (), ⟨⟩) rfl rfl hs

theorem readsStmt_ifStmt {ts : List ExprToken} {b : Expr} {s1 s2 : Stmt}
    {u1 u2 : List ProgramToken} (hb : ParsesExpr ts b) (h1 : ReadsStmt s1 u1)
    (h2 : ReadsStmt s2 u2) : ReadsStmt (.ifStmt b s1 s2)
      (⟨.if, ()⟩ :: ts.map ExprToken.programToken ++ ⟨.then, ()⟩ :: u1 ++ ⟨.else, ()⟩ :: u2) := by
  intro stack s rest hs
  simp only [List.cons_append, List.append_assoc]
  refine (parses_shift (t := .if) () (shifts_stmt hs rfl)).trans ?_
  refine (parses_expr hb (isContext_if () _) (Or.inr rfl) _).trans ?_
  refine (parses_shift (t := .then) () rfl).trans ?_
  refine (h1 rfl).trans ?_
  refine (parses_shift (t := .else) () rfl).trans ?_
  refine (h2 rfl).trans ?_
  exact parses_default .ifStmt ((), b, (), s1, (), s2, ⟨⟩) rfl rfl hs

/-- The frames of a block with the statements that have been read, the last one first. -/
def blockFrames (ss : List Stmt) (stack : ParserStack) : ParserStack :=
  ⟨.s19, .nonterminal .nonemptystmts, ss⟩ :: ⟨.s10, .terminal .lbrace, ()⟩ :: stack

theorem parses_moreStmts {ss : List Stmt} {us : List (List ProgramToken)}
    (h : List.Forall₂ ReadsStmt ss us) : ∀ (acc : List Stmt) (stack : ParserStack)
      (rest : List ProgramToken),
        Parses (blockFrames acc stack) (us.flatten ++ rest)
          (blockFrames (ss.reverse ++ acc) stack) rest := by
  induction h with
  | nil => exact fun acc stack rest => .refl
  | @cons st u ss us hst _ ih =>
      intro acc stack rest
      simp only [List.flatten_cons, List.append_assoc, List.reverse_cons, List.nil_append,
        List.cons_append]
      refine (hst rfl).trans ?_
      refine .trans ?_ (ih (st :: acc) stack rest)
      exact parses_default .moreStmts (acc, st, ⟨⟩) rfl rfl rfl

/-- The statements of a block, up to its end. -/
theorem parses_stmts {ss : List Stmt} {us : List (List ProgramToken)}
    (h : List.Forall₂ ReadsStmt ss us) (stack : ParserStack) (rest : List ProgramToken) :
    Parses (⟨.s10, .terminal .lbrace, ()⟩ :: stack) (us.flatten ++ ⟨.rbrace, ()⟩ :: rest)
      (⟨.s18, .nonterminal .stmts, ss⟩ :: ⟨.s10, .terminal .lbrace, ()⟩ :: stack)
        (⟨.rbrace, ()⟩ :: rest) := by
  cases h with
  | nil => exact parses_ahead .noStmts ⟨⟩ rfl rfl rfl
  | @cons st u ss us hst h =>
      simp only [List.flatten_cons, List.append_assoc]
      refine (hst rfl).trans ?_
      have hone : Parses (⟨.s17, .nonterminal .stmt, st⟩ :: ⟨.s10, .terminal .lbrace, ()⟩ :: stack)
          (us.flatten ++ ⟨.rbrace, ()⟩ :: rest) (blockFrames [st] stack)
            (us.flatten ++ ⟨.rbrace, ()⟩ :: rest) :=
        parses_default .oneStmt (st, ⟨⟩) rfl rfl rfl
      refine (hone.trans (parses_moreStmts h [st] stack _)).trans ?_
      have hreverse : st :: ss = (ss.reverse ++ [st]).reverse := by simp
      rw [hreverse]
      exact parses_ahead .stmts (ss.reverse ++ [st], ⟨⟩) rfl rfl rfl

theorem readsStmt_block {ss : List Stmt} {us : List (List ProgramToken)}
    (h : List.Forall₂ ReadsStmt ss us) :
    ReadsStmt (.block ss) (⟨.lbrace, ()⟩ :: us.flatten ++ [⟨.rbrace, ()⟩]) := by
  intro stack s rest hs
  simp only [List.cons_append, List.append_assoc, List.nil_append]
  refine (parses_shift (t := .lbrace) () (shifts_stmt hs rfl)).trans ?_
  refine (parses_stmts h stack rest).trans ?_
  refine (parses_shift (t := .rbrace) () rfl).trans ?_
  exact parses_default .block ((), ss, (), ⟨⟩) rfl rfl hs

/-- Written statements are read one after the other. -/
theorem readsStmt_of_written {ss : List Stmt} {u : List ProgramToken} (h : Written ss u) :
    ∃ us, List.Forall₂ ReadsStmt ss us ∧ us.flatten = u := by
  induction h with
  | nil => exact ⟨[], .nil, rfl⟩
  | assignment vname he _ ih =>
      obtain ⟨us, hus, rfl⟩ := ih
      exact ⟨_, .cons (readsStmt_assignment vname he) hus, by simp⟩
  | ifStmt hb _ _ _ ih1 ih2 ih =>
      obtain ⟨us, hus, rfl⟩ := ih
      obtain ⟨us1, hus1, rfl⟩ := ih1
      obtain ⟨us2, hus2, rfl⟩ := ih2
      cases hus1 with
      | cons h1 hnil1 =>
          cases hnil1
          cases hus2 with
          | cons h2 hnil2 =>
              cases hnil2
              exact ⟨_, .cons (readsStmt_ifStmt hb h1 h2) hus, by simp⟩
  | block _ _ ih' ih =>
      obtain ⟨us', hus', rfl⟩ := ih'
      obtain ⟨us, hus, rfl⟩ := ih
      exact ⟨_, .cons (readsStmt_block hus') hus, by simp⟩

/-! ### Declarations and programs -/

/-- The frames of the declarations that have been read, the last one first. -/
def declsFrames (ds : List (String × Typ)) : ParserStack :=
  [⟨.s8, .nonterminal .nonemptydecls, ds⟩, ⟨.s3, .terminal .lbrace, ()⟩]

theorem parses_decl (stack : ParserStack) {s : ParserState} (d : String × Typ)
    (rest : List ProgramToken) (hs : parserGoto (table.top stack) .decl = some s)
    (hshift : parserAction (table.top stack) .type = some (.shift .s7)) :
    Parses stack (declTokens d ++ rest) (⟨s, .nonterminal .decl, d⟩ :: stack) rest := by
  refine (parses_shift (t := .type) d.2 hshift).trans ?_
  refine (parses_shift (t := .id) d.1 rfl).trans ?_
  refine (parses_shift (t := .semicolon) () rfl).trans ?_
  exact parses_default .decl (d.2, d.1, (), ⟨⟩) rfl rfl hs

theorem parses_moreDecls (ds : List (String × Typ)) : ∀ (acc : List (String × Typ))
    (rest : List ProgramToken), Parses (declsFrames acc) (ds.flatMap declTokens ++ rest)
      (declsFrames (ds.reverse ++ acc)) rest := by
  induction ds with
  | nil => exact fun acc rest => .refl
  | cons d ds ih =>
      intro acc rest
      simp only [List.flatMap_cons, List.append_assoc, List.reverse_cons, List.nil_append,
        List.cons_append]
      refine (parses_decl (declsFrames acc) d _ rfl rfl).trans ?_
      refine .trans ?_ (ih (d :: acc) rest)
      exact parses_default .moreDecls (acc, d, ⟨⟩) rfl rfl rfl

theorem parses_decls (ds : List (String × Typ)) (rest : List ProgramToken) :
    Parses [] (declsTokens ds ++ rest) [⟨.s5, .nonterminal .decls, ds⟩] rest := by
  simp only [declsTokens, List.cons_append, List.append_assoc, List.nil_append]
  refine (parses_shift (t := .lbrace) () rfl).trans ?_
  cases ds with
  | nil =>
      refine (parses_shift (t := .rbrace) () rfl).trans ?_
      exact parses_default .noDecls ((), (), ⟨⟩) rfl rfl rfl
  | cons d ds =>
      simp only [List.flatMap_cons, List.append_assoc]
      refine (parses_decl _ d _ rfl rfl).trans ?_
      have hone : ∀ rest, Parses [⟨.s9, .nonterminal .decl, d⟩, ⟨.s3, .terminal .lbrace, ()⟩] rest
          (declsFrames [d]) rest :=
        fun _ => parses_default .oneDecl (d, ⟨⟩) rfl rfl rfl
      refine (hone _).trans ?_
      refine (parses_moreDecls ds [d] _).trans ?_
      refine (parses_shift (t := .rbrace) () rfl).trans ?_
      have hreverse : d :: ds = (ds.reverse ++ [d]).reverse := by simp
      rw [hreverse]
      exact parses_default .decls ((), ds.reverse ++ [d], (), ⟨⟩) rfl rfl rfl

/-- The stack on which the parser returns a program. -/
def accepted (p : Program) : ParserStack := [⟨.s4, .nonterminal .prog, p⟩]

/-- A program is parsed as it is written, and the tokens behind it are left. -/
theorem parses_program {p : Program} {u : List ProgramToken} (h : WrittenProgram p u)
    (rest : List ProgramToken) : Parses [] (u ++ rest) (accepted p) rest := by
  obtain ⟨u, hstmt, rfl⟩ := h
  obtain ⟨us, hus, rfl⟩ := readsStmt_of_written hstmt
  cases hus with
  | cons hreads hnil =>
      cases hnil
      rw [List.append_assoc]
      refine (parses_decls p.decls _).trans ?_
      simp only [List.flatten_cons, List.flatten_nil, List.append_nil]
      refine (hreads rfl).trans ?_
      exact parses_default .prog (p.decls, p.statement, ⟨⟩) rfl rfl rfl

/-! ### The language -/

/-- What the symbols of the grammar stand for in a written program. -/
def Piece : Symbol Terminal Nonterminal → List ProgramToken → Prop
  | .terminal t, u => ∃ v, u = [⟨t, v⟩]
  | .nonterminal .expr, u => ∃ ts, ExprSentence ts ∧ u = ts.map ExprToken.programToken
  | .nonterminal .stmt, u => ∃ s, Written [s] u
  | .nonterminal .stmts, u | .nonterminal .nonemptystmts, u => ∃ ss, Written ss u
  | .nonterminal .decl, u => ∃ d, u = declTokens d
  | .nonterminal .nonemptydecls, u => ∃ ds : List (String × Typ), u = ds.flatMap declTokens
  | .nonterminal .decls, u => ∃ ds, u = declsTokens ds
  | .nonterminal .prog, u => ∃ p, WrittenProgram p u

theorem Written.append {ss ss' : List Stmt} {u u' : List ProgramToken} (h : Written ss u)
    (h' : Written ss' u') : Written (ss ++ ss') (u ++ u') := by
  induction h with
  | nil => exact h'
  | assignment vname he _ ih => simpa using Written.assignment vname he ih
  | ifStmt hb h1 h2 _ _ _ ih => simpa using Written.ifStmt hb h1 h2 ih
  | block hss _ _ ih => simpa using Written.block hss ih

theorem piece_operator (o : BinaryOperator) {u u' : List ProgramToken}
    (h : Piece (.nonterminal .expr) u) (h' : Piece (.nonterminal .expr) u') :
    Piece (.nonterminal .expr) [u, [o.token.programToken], u'].flatten := by
  obtain ⟨ts, hts, rfl⟩ := h
  obtain ⟨ts', hts', rfl⟩ := h'
  exact ⟨ts ++ o.token :: ts', .operator o hts hts', by simp⟩

theorem piece_operand {t : ExprToken} {e : Expr} (h : t.operand = some e) :
    Piece (.nonterminal .expr) [t.programToken] :=
  ⟨[t], .operand h, rfl⟩

/-- Every production puts its pieces together to one. -/
theorem piece_production (p : Production) {us : List (List ProgramToken)}
    (h : List.Forall₂ Piece p.rhs us) : Piece (.nonterminal p.lhs) us.flatten := by
  cases p with
  | prog =>
      obtain _ | ⟨⟨ds, rfl⟩, _ | ⟨⟨s, hs⟩, ⟨⟩⟩⟩ := h
      exact ⟨⟨ds, s⟩, _, hs, by simp⟩
  | decls =>
      obtain _ | ⟨⟨⟨⟩, rfl⟩, _ | ⟨⟨ds, rfl⟩, _ | ⟨⟨⟨⟩, rfl⟩, ⟨⟩⟩⟩⟩ := h
      exact ⟨ds, rfl⟩
  | noDecls =>
      obtain _ | ⟨⟨⟨⟩, rfl⟩, _ | ⟨⟨⟨⟩, rfl⟩, ⟨⟩⟩⟩ := h
      exact ⟨[], rfl⟩
  | moreDecls =>
      obtain _ | ⟨⟨ds, rfl⟩, _ | ⟨⟨d, rfl⟩, ⟨⟩⟩⟩ := h
      exact ⟨ds ++ [d], by simp⟩
  | oneDecl =>
      obtain _ | ⟨⟨d, rfl⟩, ⟨⟩⟩ := h
      exact ⟨[d], by simp⟩
  | decl =>
      obtain _ | ⟨⟨t, rfl⟩, _ | ⟨⟨vname, rfl⟩, _ | ⟨⟨⟨⟩, rfl⟩, ⟨⟩⟩⟩⟩ := h
      exact ⟨(vname, t), rfl⟩
  | stmts =>
      obtain _ | ⟨⟨ss, hss⟩, ⟨⟩⟩ := h
      exact ⟨ss, by simpa using hss⟩
  | noStmts =>
      obtain ⟨⟩ := h
      exact ⟨[], .nil⟩
  | moreStmts =>
      obtain _ | ⟨⟨ss, hss⟩, _ | ⟨⟨s, hs⟩, ⟨⟩⟩⟩ := h
      exact ⟨ss ++ [s], by simpa using hss.append hs⟩
  | oneStmt =>
      obtain _ | ⟨⟨s, hs⟩, ⟨⟩⟩ := h
      exact ⟨[s], by simpa using hs⟩
  | assignment =>
      obtain _ | ⟨⟨vname, rfl⟩, _ | ⟨⟨⟨⟩, rfl⟩, _ | ⟨⟨ts, hts, rfl⟩, _ | ⟨⟨⟨⟩, rfl⟩, ⟨⟩⟩⟩⟩⟩ := h
      obtain ⟨e, he⟩ := parsesExpr_of_sentence hts
      exact ⟨.assignment vname e, .assignment vname he .nil⟩
  | ifStmt =>
      obtain _ | ⟨⟨⟨⟩, rfl⟩, _ | ⟨⟨ts, hts, rfl⟩, _ | ⟨⟨⟨⟩, rfl⟩, _ | ⟨⟨s1, h1⟩, _ | ⟨⟨⟨⟩, rfl⟩,
        _ | ⟨⟨s2, h2⟩, ⟨⟩⟩⟩⟩⟩⟩⟩ := h
      obtain ⟨b, hb⟩ := parsesExpr_of_sentence hts
      exact ⟨.ifStmt b s1 s2, by simpa using Written.ifStmt hb h1 h2 .nil⟩
  | block =>
      obtain _ | ⟨⟨⟨⟩, rfl⟩, _ | ⟨⟨ss, hss⟩, _ | ⟨⟨⟨⟩, rfl⟩, ⟨⟩⟩⟩⟩ := h
      exact ⟨.block ss, .block hss .nil⟩
  | id =>
      obtain _ | ⟨⟨vname, rfl⟩, ⟨⟩⟩ := h
      exact piece_operand (t := .id vname) rfl
  | integer =>
      obtain _ | ⟨⟨n, rfl⟩, ⟨⟩⟩ := h
      exact piece_operand (t := .integer n) rfl
  | boolean =>
      obtain _ | ⟨⟨b, rfl⟩, ⟨⟩⟩ := h
      exact piece_operand (t := .boolean b) rfl
  | input =>
      obtain _ | ⟨⟨ty, rfl⟩, ⟨⟩⟩ := h
      exact piece_operand (t := .input ty) rfl
  | add =>
      obtain _ | ⟨h1, _ | ⟨⟨⟨⟩, rfl⟩, _ | ⟨h2, ⟨⟩⟩⟩⟩ := h
      exact piece_operator .add h1 h2
  | subtract =>
      obtain _ | ⟨h1, _ | ⟨⟨⟨⟩, rfl⟩, _ | ⟨h2, ⟨⟩⟩⟩⟩ := h
      exact piece_operator .subtract h1 h2
  | and =>
      obtain _ | ⟨h1, _ | ⟨⟨⟨⟩, rfl⟩, _ | ⟨h2, ⟨⟩⟩⟩⟩ := h
      exact piece_operator .and h1 h2
  | or =>
      obtain _ | ⟨h1, _ | ⟨⟨⟨⟩, rfl⟩, _ | ⟨h2, ⟨⟩⟩⟩⟩ := h
      exact piece_operator .or h1 h2
  | eq =>
      obtain _ | ⟨h1, _ | ⟨⟨⟨⟩, rfl⟩, _ | ⟨h2, ⟨⟩⟩⟩⟩ := h
      exact piece_operator .equals h1 h2
  | not =>
      obtain _ | ⟨⟨⟨⟩, rfl⟩, _ | ⟨⟨ts, hts, rfl⟩, ⟨⟩⟩⟩ := h
      exact ⟨.not :: ts, .not hts, by simp [ExprToken.programToken]⟩
  | parentheses =>
      obtain _ | ⟨⟨⟨⟩, rfl⟩, _ | ⟨⟨ts, hts, rfl⟩, _ | ⟨⟨⟨⟩, rfl⟩, ⟨⟩⟩⟩⟩ := h
      exact ⟨.lparen :: ts ++ [.rparen], .parentheses hts, by simp [ExprToken.programToken]⟩

/-- A sentence of the grammar is a program, as it is written. -/
theorem written_of_derives {u : List ProgramToken} {p : Program}
    (h : grammar.Derives [.nonterminal .prog] u (p, ⟨⟩)) : ∃ p', WrittenProgram p' u := by
  obtain ⟨us, hus, rfl⟩ := h.pieces (R := Piece) (fun t => ⟨t.2, rfl⟩)
    (fun p _ hus => piece_production p hus)
  obtain _ | ⟨hprog, ⟨⟩⟩ := hus
  rwa [List.flatten_cons, List.flatten_nil, List.append_nil]

theorem parseTokens_of_written {p : Program} {u : List ProgramToken} (h : WrittenProgram p u)
    (rest : List ProgramToken) : parseTokens (u ++ rest) = ⟨accepted p, rest⟩ :=
  parseTokens_eq (parses_program h rest) rfl

theorem result_accepted (p : Program) (rest : List ProgramToken) :
    table.result ⟨accepted p, rest⟩ = some p := rfl

/-- What the parser accepts is derived by the grammar. -/
theorem derives_of_parseTokens {tokens rest : List ProgramToken} {p : Program}
    (h : parseTokens tokens = ⟨accepted p, rest⟩) :
    ∃ u, tokens = u ++ rest ∧ grammar.Derives [.nonterminal .prog] u (p, ⟨⟩) := by
  have hreaches := reaches_parseTokens tokens
  rw [h] at hreaches
  exact table_checked.derives_of_result hreaches (result_accepted p rest)

/-- The parser accepts the programs as they are written. It stops behind them. -/
theorem parseTokens_eq_accepted_iff {tokens rest : List ProgramToken} {p : Program} :
    parseTokens tokens = ⟨accepted p, rest⟩ ↔ ∃ u, tokens = u ++ rest ∧ WrittenProgram p u := by
  constructor
  · intro h
    obtain ⟨u, rfl, hderives⟩ := derives_of_parseTokens h
    obtain ⟨p', hwritten⟩ := written_of_derives hderives
    have hparse := parseTokens_of_written hwritten rest
    rw [h] at hparse
    obtain rfl : p = p' := by
      have hresult := congrArg table.result hparse
      exact Option.some.inj hresult
    exact ⟨u, rfl, hwritten⟩
  · rintro ⟨u, rfl, h⟩
    exact parseTokens_of_written h rest

/-- The parser that is generated from the grammar accepts exactly the tokens that begin with a
sentence of the grammar. It returns behind the sentence. What it returns is the program in which
every expression is the tree that the precedences make of its tokens. -/
theorem parseTokens_language (tokens : List ProgramToken) :
    (∀ p rest, parseTokens tokens = ⟨accepted p, rest⟩ ↔
      ∃ u, tokens = u ++ rest ∧ WrittenProgram p u) ∧
    ∀ rest, (∃ p, parseTokens tokens = ⟨accepted p, rest⟩) ↔
      ∃ u p, tokens = u ++ rest ∧ grammar.Derives [.nonterminal .prog] u (p, ⟨⟩) := by
  refine ⟨fun p rest => parseTokens_eq_accepted_iff, fun rest => ⟨?_, ?_⟩⟩
  · rintro ⟨p, h⟩
    obtain ⟨u, htokens, hderives⟩ := derives_of_parseTokens h
    exact ⟨u, p, htokens, hderives⟩
  · rintro ⟨u, p, rfl, h⟩
    obtain ⟨p', hwritten⟩ := written_of_derives h
    exact ⟨p', parseTokens_of_written hwritten rest⟩

/-! ### Errors -/

/-- Where the parser stops it has accepted, or the token ahead has no entry, or there is none. -/
theorem parseTokens_stops (tokens : List ProgramToken) :
    (∃ p, (parseTokens tokens).stack = accepted p) ∨
      defaultReduction (table.top (parseTokens tokens).stack) = none ∧
        ∀ t ∈ (parseTokens tokens).input.head?,
          parserAction (table.top (parseTokens tokens).stack) t.1 = none := by
  have hpath : table.Path (parseTokens tokens).stack :=
    Table.path_of_reaches .nil (reaches_parseTokens tokens)
  rcases (table_checked.step_eq_none_iff hpath).mp (step_parseTokens tokens) with haccepts | hstuck
  · obtain ⟨s, p, hs, hstack⟩ := table_checked.stack_of_accepts hpath haccepts
    obtain rfl : s = .s4 := of_decide_eq_true hs
    exact Or.inl ⟨p, hstack⟩
  · exact Or.inr hstuck

/-- A program can begin with the tokens. -/
def BeginsProgram (u : List ProgramToken) : Prop := ∃ p w, WrittenProgram p (u ++ w)

theorem BeginsProgram.of_append {u v : List ProgramToken} (h : BeginsProgram (u ++ v)) :
    BeginsProgram u := by
  obtain ⟨p, w, h⟩ := h
  rw [List.append_assoc] at h
  exact ⟨p, v ++ w, h⟩

/-- A program can begin with the tokens `u`, but they are not a whole one, and no program goes on
with the token behind them. -/
structure WrongAhead (u rest : List ProgramToken) : Prop where
  begins : BeginsProgram u
  incomplete : ∀ p, ¬ WrittenProgram p u
  ahead : ∀ t ∈ rest.head?, ¬ BeginsProgram (u ++ [t])

/-- Nothing can follow on a whole program. -/
theorem WrittenProgram.eq_nil_of_append {p q : Program} {u v : List ProgramToken}
    (h : WrittenProgram p u) (h' : WrittenProgram q (u ++ v)) : v = [] := by
  have hparse := parseTokens_of_written h v
  have hparse' := parseTokens_of_written h' []
  rw [List.append_nil, hparse] at hparse'
  exact congrArg Parser.input hparse'

/-- What the parser has read is the beginning of a program. -/
theorem beginsProgram_read (tokens : List ProgramToken) :
    ∃ u, tokens = u ++ (parseTokens tokens).input ∧ BeginsProgram u := by
  have hreaches := reaches_parseTokens tokens
  obtain ⟨u, hspells, hinput⟩ := Table.spells_of_reaches .nil hreaches
  obtain ⟨w, p, hderives⟩ := Table.exists_sentence table_checked tableCompletion
    (Table.path_of_reaches .nil hreaches) hspells
  obtain ⟨p', hwritten⟩ := written_of_derives hderives
  exact ⟨u, hinput, p', w, hwritten⟩

/-- No program goes on with a token at which the parser is stuck. -/
theorem not_beginsProgram {u rest : List ProgramToken} {t : ProgramToken} {stack : ParserStack}
    (hparse : parseTokens (u ++ t :: rest) = ⟨stack, t :: rest⟩)
    (hdefault : defaultReduction (table.top stack) = none)
    (haction : parserAction (table.top stack) t.1 = none) : ¬ BeginsProgram (u ++ [t]) := by
  intro hbegins
  obtain ⟨p, w, hwritten⟩ := hbegins
  have hreaches := reaches_parseTokens (u ++ t :: rest)
  rw [hparse] at hreaches
  have hpath : table.Path stack := Table.path_of_reaches .nil hreaches
  obtain ⟨u', hu', hahead⟩ := Table.reaches_ahead hreaches
  obtain rfl := List.append_cancel_right hu'
  -- The parser is stuck at this token before it sees the rest of the program.
  have hend : table.step ⟨stack, t :: w⟩ = none := by
    refine (table_checked.step_eq_none_iff hpath).mpr (Or.inr ⟨hdefault, ?_⟩)
    intro t' ht'
    cases ht'
    exact haction
  have hstuck := parseTokens_eq (hahead w) hend
  have haccepted := parseTokens_of_written hwritten []
  rw [List.append_nil, List.append_assoc, List.singleton_append, hstuck] at haccepted
  cases congrArg Parser.input haccepted

theorem wrongAhead_of_result {tokens : List ProgramToken}
    (h : table.result (parseTokens tokens) = none) :
    ∃ u, tokens = u ++ (parseTokens tokens).input ∧ WrongAhead u (parseTokens tokens).input := by
  obtain ⟨u, htokens, hbegins⟩ := beginsProgram_read tokens
  have hincomplete : ∀ p, ¬ WrittenProgram p u := by
    intro p hwritten
    have haccepted := parseTokens_of_written hwritten (parseTokens tokens).input
    rw [← htokens] at haccepted
    rw [haccepted, result_accepted] at h
    cases h
  refine ⟨u, htokens, hbegins, hincomplete, ?_⟩
  intro t ht
  obtain ⟨rest, hinput⟩ : ∃ rest, (parseTokens tokens).input = t :: rest := by
    cases hinput : (parseTokens tokens).input with
    | nil =>
        rw [hinput] at ht
        cases ht
    | cons t' rest =>
        rw [hinput] at ht
        cases ht
        exact ⟨rest, rfl⟩
  rcases parseTokens_stops tokens with ⟨p, hstack⟩ | ⟨hdefault, haction⟩
  · have haccepted : table.result (parseTokens tokens) = some p := by
      rw [← result_accepted p (parseTokens tokens).input, ← hstack]
    rw [haccepted] at h
    cases h
  · have hparse : parseTokens (u ++ t :: rest) = ⟨(parseTokens tokens).stack, t :: rest⟩ := by
      rw [← hinput, ← htokens]
    exact not_beginsProgram hparse hdefault (haction t ht)

/-- The beginning of a program ends before the token that is wrong. -/
theorem WrongAhead.isPrefix {u rest u' rest' : List ProgramToken} (h : WrongAhead u rest)
    (h' : BeginsProgram u') (heq : u ++ rest = u' ++ rest') : u' <+: u := by
  rcases List.append_eq_append_iff.mp heq with ⟨v, rfl, rfl⟩ | ⟨v, rfl, _⟩
  · cases v with
    | nil => simp
    | cons t v =>
        rw [List.append_cons] at h'
        exact absurd h'.of_append (h.ahead t rfl)
  · exact List.prefix_append u' v

theorem WrongAhead.not_written {u rest u' rest' : List ProgramToken} (h : WrongAhead u rest)
    {p : Program} (heq : u ++ rest = u' ++ rest') : ¬ WrittenProgram p u' := by
  intro hwritten
  obtain ⟨v, rfl⟩ := h.isPrefix ⟨p, [], by rwa [List.append_nil]⟩ heq
  obtain ⟨q, w, hbegins⟩ := h.begins
  rw [List.append_assoc] at hbegins
  obtain ⟨rfl, _⟩ := List.append_eq_nil_iff.mp (hwritten.eq_nil_of_append hbegins)
  rw [List.append_nil] at h
  exact h.incomplete p hwritten

/-- The parser fails on tokens exactly where they stop to be the beginning of a program: it has
read all that is one, and the token at which it stops is the first that no program goes on with. -/
theorem parseTokens_fails_iff {tokens rest : List ProgramToken} :
    (table.result (parseTokens tokens) = none ∧ (parseTokens tokens).input = rest) ↔
      ∃ u, tokens = u ++ rest ∧ WrongAhead u rest := by
  constructor
  · rintro ⟨hresult, rfl⟩
    exact wrongAhead_of_result hresult
  · rintro ⟨u, rfl, hwrong⟩
    cases hresult : table.result (parseTokens (u ++ rest)) with
    | some p =>
        obtain ⟨u', htokens, hderives⟩ :=
          table_checked.derives_of_result (reaches_parseTokens (u ++ rest)) hresult
        obtain ⟨p', hwritten⟩ := written_of_derives hderives
        exact absurd hwritten (hwrong.not_written htokens)
    | none =>
        obtain ⟨u', htokens, hwrong'⟩ := wrongAhead_of_result hresult
        have hprefix := hwrong.isPrefix hwrong'.begins htokens
        have hprefix' := hwrong'.isPrefix hwrong.begins htokens.symm
        obtain rfl := hprefix.eq_of_length_le hprefix'.length_le
        exact ⟨rfl, (List.append_cancel_left htokens).symm⟩

end Stabl.SimSee
