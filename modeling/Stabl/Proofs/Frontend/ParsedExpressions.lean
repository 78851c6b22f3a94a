import Stabl.Frontend.ExpressionParser

/-!
# `Stabl.Proofs.Frontend.ParsedExpressions`: what the parser makes of an expression

`WrittenExpression` is the text of an expression, as a sequence of operands and operators
with no grouping of its own. The parser reads every such text, and builds `value`: it
ends with the first operand on the left, and with the whole rest on the right
(`WrittenExpression.parses`).

The reason is one conflict. With `expr binop expr` on its stack and an operator ahead the
parser can reduce and it can shift. The production has no precedence, so it shifts
(`step_operator`), whatever the two operators are. An expression is reduced only when the
text around it goes on, or ends.

The proof follows the text. An operand is read in every stack that expects an expression,
and a whole expression in the same stacks, up to a token that closes it.
-/

set_option autoImplicit false

namespace Stabl

open ParserState StateTransition

/-! ### Texts -/

mutual

/-- An operand, as it is written. -/
inductive WrittenOperand where
  | name (n : Path)
  | constant (c : Constant)
  | parentheses (e : WrittenExpression)
  | functionCall (f : FunctionName) (args : WrittenArguments)

/-- A sequence of operands, with an operator before each further one. -/
inductive WrittenExpression where
  | operand (x : WrittenOperand)
  | binary (x : WrittenOperand) (operator : OperatorType) (e : WrittenExpression)

/-- The arguments of a call. -/
inductive WrittenArguments where
  | nil
  | cons (e : WrittenExpression) (args : WrittenArguments)

end

/-- The token of a constant. -/
def Constant.token : Constant → Token
  | .booleanConstant true => .symbol .true
  | .booleanConstant false => .symbol .false
  | .integerConstant n => .intConst n
  | .stringLiteral s => .strLiteral s

mutual

def WrittenOperand.tokens : WrittenOperand → List Token
  | .name n => [.name n]
  | .constant c => [c.token]
  | .parentheses e => .symbol .lparen :: (e.tokens ++ [.symbol .rparen])
  | .functionCall f args => .funcName f :: .symbol .lparen :: (args.tokens ++ [.symbol .rparen])

def WrittenExpression.tokens : WrittenExpression → List Token
  | .operand x => x.tokens
  | .binary x operator e => x.tokens ++ .symbol operator.terminal :: e.tokens

def WrittenArguments.tokens : WrittenArguments → List Token
  | .nil => []
  | .cons e args => e.tokens ++ args.moreTokens

/-- The tokens of arguments that are not the first ones. -/
def WrittenArguments.moreTokens : WrittenArguments → List Token
  | .nil => []
  | .cons e args => .symbol .comma :: (e.tokens ++ args.moreTokens)

end

mutual

/-- The expression that the parser builds from an operand. -/
def WrittenOperand.value : WrittenOperand → Expression Path
  | .name n => .name n
  | .constant c => .constant c
  | .parentheses e => e.value
  | .functionCall f args => .functionCall f args.values

/-- The expression that the parser builds: all operators nest to the right. -/
def WrittenExpression.value : WrittenExpression → Expression Path
  | .operand x => x.value
  | .binary x operator e => .binaryExpression x.value e.value operator

def WrittenArguments.values : WrittenArguments → List (Expression Path)
  | .nil => []
  | .cons e args => e.value :: args.values

end

/-- The stacks on which an expression can begin. -/
inductive ExpectsExpr : List StackSymbol → Prop
  | start : ExpectsExpr []
  | lparen (s : List StackSymbol) : ExpectsExpr (.token (.symbol .lparen) :: s)
  | comma (s : List StackSymbol) : ExpectsExpr (.token (.symbol .comma) :: s)
  | binop (operator : OperatorType) (s : List StackSymbol) : ExpectsExpr (.binop operator :: s)

/-- The inputs that end an expression. -/
inductive Closes : List Token → Prop
  | eof : Closes []
  | rparen (rest : List Token) : Closes (.symbol .rparen :: rest)
  | comma (rest : List Token) : Closes (.symbol .comma :: rest)

/-- The inputs that end an operand. -/
inductive EndsOperand : List Token → Prop
  | closes {rest : List Token} (h : Closes rest) : EndsOperand rest
  | operator (o : OperatorType) (rest : List Token) : EndsOperand (.symbol o.terminal :: rest)

/-- The terminal that a parser with this input looks at. -/
def headTerminal (input : List Token) : Option Terminal := input.head?.map Token.terminal

theorem Closes.not_isBinop {rest : List Token} (h : Closes rest) {t : Terminal}
    (ht : headTerminal rest = some t) : t.isBinop = false := by
  cases h <;> simp [headTerminal, Token.terminal] at ht <;> subst ht <;> rfl

theorem EndsOperand.follow {rest : List Token} (h : EndsOperand rest) :
    NonTerminal.expr.follow (headTerminal rest) = true := by
  cases h with
  | closes h => cases h <;> rfl
  | operator o rest => cases o <;> rfl

/-- A boolean constant and a call end where an expression ends. -/
theorem EndsOperand.follow_boolconst {rest : List Token} (h : EndsOperand rest) :
    NonTerminal.boolconst.follow (headTerminal rest) = true := by
  rw [← h.follow]
  cases headTerminal rest <;> rfl

theorem EndsOperand.follow_funcCall {rest : List Token} (h : EndsOperand rest) :
    NonTerminal.funcCall.follow (headTerminal rest) = true := by
  rw [← h.follow]
  cases headTerminal rest <;> rfl

/-! ### One step -/

section Step

variable {s s' : List StackSymbol} {token : Token} {input : List Token} {p : Production}

/-- The parser shifts where it cannot reduce, and where the production has no precedence. -/
theorem step_shift (h : shifts s token.terminal = true)
    (hreduce : ∀ p s', reduction s = some (p, s') →
      p.lhs.follow (some token.terminal) = false ∨ p.precedence = none) :
    step ⟨s, token :: input⟩ = some ⟨.token token :: s, input⟩ := by
  have hshift : ParserState.shift ⟨s, token :: input⟩ =
      some (token.terminal, ⟨.token token :: s, input⟩) := by
    simp [ParserState.shift, h]
  rw [step, hshift, ParserState.reduce]
  cases hr : reduction s with
  | none => rfl
  | some r =>
      obtain hfollow | hnone := hreduce r.1 r.2 hr
      · simp [lookahead, hfollow]
      · simp only [resolve]
        split <;> simp_all

/-- The parser reduces where the next token cannot be shifted. -/
theorem step_reduce (h : reduction s = some (p, s'))
    (hfollow : p.lhs.follow (headTerminal input) = true)
    (hshift : ∀ t, headTerminal input = some t → shifts s t = false) :
    step ⟨s, input⟩ = some ⟨s', input⟩ := by
  have hreduce : ParserState.reduce ⟨s, input⟩ = some (p, ⟨s', input⟩) := by
    simp only [ParserState.reduce, h]
    exact if_pos hfollow
  have hnone : ParserState.shift ⟨s, input⟩ = none := by
    cases input with
    | nil => rfl
    | cons token input => simp [ParserState.shift, hshift token.terminal rfl]
  rw [step, hreduce, hnone]

/-- The production of a binary expression has no terminal, and so no precedence. -/
theorem precedence_exprBinary : Production.exprBinary.precedence = none := by decide

/-- The productions that end with an expression. -/
theorem reduction_expr {e : Expression Path} (h : reduction (.expr e :: s) = some (p, s')) :
    p = .exprBinary ∨ p.lhs = .nonEmptyArgList := by
  unfold reduction at h
  split at h <;> simp_all
  all_goals exact Or.inr (h.1 ▸ rfl)

/-- Only an empty list of arguments ends with a left parenthesis. -/
theorem reduction_lparen (h : reduction (.token (.symbol .lparen) :: s) = some (p, s')) :
    p = .argListEmpty := by
  cases s with
  | nil => simp [reduction, Terminal.binop] at h
  | cons top s =>
      cases top with
      | token t => cases t <;> simp_all [reduction, Terminal.binop]
      | _ => simp [reduction, Terminal.binop] at h

/-- An operator after an expression is shifted, also where the stack ends with a whole binary
expression. -/
theorem step_operator (e : Expression Path) (o : OperatorType) :
    step ⟨.expr e :: s, .symbol o.terminal :: input⟩ =
      some ⟨.token (.symbol o.terminal) :: .expr e :: s, input⟩ := by
  apply step_shift
  · have hbinop : o.terminal.isBinop = true := by simp [Terminal.isBinop]
    show shifts (.expr e :: s) o.terminal = true
    unfold shifts
    split <;> simp_all
  · intro p s' hr
    obtain rfl | hlhs := reduction_expr hr
    · exact Or.inr precedence_exprBinary
    · -- No operator follows the arguments of a call.
      refine Or.inl ?_
      show p.lhs.follow (some o.terminal) = false
      rw [hlhs]
      cases o <;> rfl

/-- An expression begins with a shift. -/
theorem step_start (h : ExpectsExpr s) (ht : token.terminal.startsExpr = true) :
    step ⟨s, token :: input⟩ = some ⟨.token token :: s, input⟩ := by
  apply step_shift
  · cases h <;> simpa [shifts] using ht
  · intro p s' hr
    refine Or.inl ?_
    cases h with
    | start => simp [reduction] at hr
    | comma s => simp [reduction, Terminal.binop] at hr
    | binop o s => simp [reduction] at hr
    | lparen s =>
        obtain rfl := reduction_lparen hr
        show decide (some token.terminal = some .rparen) = false
        simp only [Option.some.injEq, decide_eq_false_iff_not]
        intro hrparen
        rw [hrparen] at ht
        cases ht

/-- The token of an operator becomes a `binop` when an operand comes next. -/
theorem step_binop (o : OperatorType) (ht : ∀ t, headTerminal input = some t → t.startsExpr = true)
    (hinput : input ≠ []) :
    step ⟨.token (.symbol o.terminal) :: s, input⟩ = some ⟨.binop o :: s, input⟩ := by
  obtain ⟨token, input, rfl⟩ := List.exists_cons_of_ne_nil hinput
  apply step_reduce
  · show reduction (.token (.symbol o.terminal) :: s) = some (.binop o, .binop o :: s)
    cases o <;> rfl
  · exact ht token.terminal rfl
  · intro t _
    cases o <;> rfl

/-- A binary expression is reduced when nothing can go on with it. -/
theorem step_exprBinary (e₁ e₂ : Expression Path) (o : OperatorType) (h : Closes input) :
    step ⟨.expr e₂ :: .binop o :: .expr e₁ :: s, input⟩ =
      some ⟨.expr (.binaryExpression e₁ e₂ o) :: s, input⟩ :=
  step_reduce rfl (EndsOperand.closes h).follow fun _ ht => h.not_isBinop ht

/-- The list of arguments is reduced at the right parenthesis. -/
theorem step_argList (h : reduction s = some (p, s')) (hlhs : p.lhs = .argList)
    (hshift : shifts s .rparen = false) :
    step ⟨s, .symbol .rparen :: input⟩ = some ⟨s', .symbol .rparen :: input⟩ := by
  apply step_reduce h
  · rw [hlhs]
    rfl
  · intro t ht
    have hrparen : some Terminal.rparen = some t := ht
    rw [← Option.some.inj hrparen]
    exact hshift

end Step

/-! ### Whole texts -/

/-- A token that is an expression by itself. -/
theorem Constant.reaches (c : Constant) {s : List StackSymbol} {rest : List Token}
    (hs : ExpectsExpr s) (hrest : EndsOperand rest) :
    Reaches ParserState.step ⟨s, c.token :: rest⟩ ⟨.expr (.constant c) :: s, rest⟩ := by
  cases c with
  | booleanConstant b =>
      cases b with
      | true =>
          have htoken := step_reduce (s := .token (.symbol .true) :: s) rfl
            hrest.follow_boolconst fun _ _ => rfl
          exact .head (step_start hs rfl) (.head htoken
            (.single (step_reduce rfl hrest.follow fun _ _ => rfl)))
      | false =>
          have htoken := step_reduce (s := .token (.symbol .false) :: s) rfl
            hrest.follow_boolconst fun _ _ => rfl
          exact .head (step_start hs rfl) (.head htoken
            (.single (step_reduce rfl hrest.follow fun _ _ => rfl)))
  | integerConstant n =>
      exact .head (step_start hs rfl) (.single (step_reduce rfl hrest.follow fun _ _ => rfl))
  | stringLiteral v =>
      exact .head (step_start hs rfl) (.single (step_reduce rfl hrest.follow fun _ _ => rfl))

/-- The parentheses around an expression disappear. -/
theorem reaches_rparen (e : Expression Path) {s : List StackSymbol} {rest : List Token}
    (hs : ExpectsExpr s) (hrest : EndsOperand rest) :
    Reaches ParserState.step ⟨.expr e :: .token (.symbol .lparen) :: s, .symbol .rparen :: rest⟩
      ⟨.expr e :: s, rest⟩ := by
  have hshift : ParserState.step
      ⟨.expr e :: .token (.symbol .lparen) :: s, .symbol .rparen :: rest⟩ =
      some ⟨.token (.symbol .rparen) :: .expr e :: .token (.symbol .lparen) :: s, rest⟩ := by
    apply step_shift
    · cases hs <;> rfl
    · intro p s' hr
      cases hs <;> simp [reduction] at hr
  exact .head hshift (.single (step_reduce rfl hrest.follow fun _ _ => rfl))

/-- After its arguments a call is complete. -/
theorem reaches_call (f : FunctionName) (args : List (Expression Path)) {s : List StackSymbol}
    {rest : List Token} (hrest : EndsOperand rest) :
    Reaches ParserState.step
      ⟨.argList args :: .token (.symbol .lparen) :: .token (.funcName f) :: s,
        .symbol .rparen :: rest⟩
      ⟨.expr (.functionCall f args) :: s, rest⟩ := by
  have hshift : ParserState.step
      ⟨.argList args :: .token (.symbol .lparen) :: .token (.funcName f) :: s,
        .symbol .rparen :: rest⟩ =
      some ⟨.token (.symbol .rparen) :: .argList args :: .token (.symbol .lparen) ::
        .token (.funcName f) :: s, rest⟩ :=
    step_shift rfl fun p s' hr => by simp [reduction] at hr
  exact .head hshift (.head (step_reduce rfl hrest.follow_funcCall fun _ _ => rfl)
    (.single (step_reduce rfl hrest.follow fun _ _ => rfl)))

/-- Every operand starts with a token that an expression can start with. -/
theorem WrittenOperand.head_tokens (x : WrittenOperand) :
    ∃ token rest, x.tokens = token :: rest ∧ token.terminal.startsExpr = true := by
  cases x with
  | name n => exact ⟨_, _, rfl, rfl⟩
  | constant c =>
      refine ⟨c.token, [], rfl, ?_⟩
      cases c with
      | booleanConstant b => cases b <;> rfl
      | integerConstant n => rfl
      | stringLiteral s => rfl
  | parentheses e => exact ⟨_, _, rfl, rfl⟩
  | functionCall f args => exact ⟨_, _, rfl, rfl⟩

theorem WrittenExpression.head_tokens (e : WrittenExpression) :
    ∃ token rest, e.tokens = token :: rest ∧ token.terminal.startsExpr = true := by
  cases e with
  | operand x => exact x.head_tokens
  | binary x o e =>
      obtain ⟨token, rest, hx, hstarts⟩ := x.head_tokens
      refine ⟨token, rest ++ .symbol o.terminal :: e.tokens, ?_, hstarts⟩
      rw [tokens, hx, List.cons_append]

/-- What comes after an argument closes it. -/
theorem WrittenArguments.closes (args : WrittenArguments) (rest : List Token) :
    Closes (args.moreTokens ++ .symbol .rparen :: rest) := by
  cases args with
  | nil => exact .rparen rest
  | cons e args => exact .comma _

theorem WrittenArguments.follow (args : WrittenArguments) (rest : List Token) :
    NonTerminal.nonEmptyArgList.follow
      (headTerminal (args.moreTokens ++ .symbol .rparen :: rest)) = true := by
  cases args <;> rfl

mutual

/-- An operand is read in every stack that expects an expression. -/
theorem WrittenOperand.reaches (x : WrittenOperand) {s : List StackSymbol} {rest : List Token}
    (hs : ExpectsExpr s) (hrest : EndsOperand rest) :
    Reaches ParserState.step ⟨s, x.tokens ++ rest⟩ ⟨.expr x.value :: s, rest⟩ := by
  match x with
  | .name n =>
      exact .head (step_start hs rfl) (.single (step_reduce rfl hrest.follow fun _ _ => rfl))
  | .constant c => exact c.reaches hs hrest
  | .parentheses e =>
      have hinner := e.reaches (.lparen s) (.rparen rest)
      have htokens : (WrittenOperand.parentheses e).tokens ++ rest =
          .symbol .lparen :: (e.tokens ++ .symbol .rparen :: rest) := by
        simp [WrittenOperand.tokens]
      rw [htokens]
      exact .head (step_start hs rfl) (hinner.trans (reaches_rparen e.value hs hrest))
  | .functionCall f args =>
      have harguments := args.reaches f s rest
      have htokens : (WrittenOperand.functionCall f args).tokens ++ rest =
          .funcName f :: .symbol .lparen :: (args.tokens ++ .symbol .rparen :: rest) := by
        simp [WrittenOperand.tokens]
      rw [htokens]
      have hshift : ParserState.step
          ⟨.token (.funcName f) :: s, .symbol .lparen :: (args.tokens ++ .symbol .rparen :: rest)⟩ =
          some ⟨.token (.symbol .lparen) :: .token (.funcName f) :: s,
            args.tokens ++ .symbol .rparen :: rest⟩ :=
        step_shift rfl fun p s' hr => by simp [reduction] at hr
      exact .head (step_start hs rfl) (.head hshift
        (harguments.trans (reaches_call f args.values hrest)))

/-- An expression is read up to the token that closes it. -/
theorem WrittenExpression.reaches (e : WrittenExpression) {s : List StackSymbol}
    {rest : List Token} (hs : ExpectsExpr s) (hrest : Closes rest) :
    Reaches ParserState.step ⟨s, e.tokens ++ rest⟩ ⟨.expr e.value :: s, rest⟩ := by
  match e with
  | .operand x => exact x.reaches hs (.closes hrest)
  | .binary x o e =>
      have htokens : (WrittenExpression.binary x o e).tokens ++ rest =
          x.tokens ++ .symbol o.terminal :: (e.tokens ++ rest) := by
        simp [WrittenExpression.tokens]
      rw [htokens]
      have hleft := x.reaches hs (.operator o (e.tokens ++ rest))
      have hright := e.reaches (.binop o (.expr x.value :: s)) hrest
      have hbinop : ParserState.step
          ⟨.token (.symbol o.terminal) :: .expr x.value :: s, e.tokens ++ rest⟩ =
          some ⟨.binop o :: .expr x.value :: s, e.tokens ++ rest⟩ := by
        obtain ⟨token, tokens, he, hstarts⟩ := e.head_tokens
        rw [he]
        refine step_binop o ?_ (by simp)
        intro t ht
        obtain rfl : token.terminal = t := by simpa [headTerminal] using ht
        exact hstarts
      exact hleft.trans (.head (step_operator x.value o) (.head hbinop
        (hright.trans (.single (step_exprBinary x.value e.value o hrest)))))

/-- The arguments of a call are read up to the right parenthesis. -/
theorem WrittenArguments.reaches (args : WrittenArguments) (f : FunctionName)
    (s : List StackSymbol) (rest : List Token) :
    Reaches ParserState.step
      ⟨.token (.symbol .lparen) :: .token (.funcName f) :: s,
        args.tokens ++ .symbol .rparen :: rest⟩
      ⟨.argList args.values :: .token (.symbol .lparen) :: .token (.funcName f) :: s,
        .symbol .rparen :: rest⟩ := by
  match args with
  | .nil => exact .single (step_argList rfl rfl rfl)
  | .cons e args =>
      have hclose := args.closes rest
      have hfirst := e.reaches (.lparen (.token (.funcName f) :: s)) hclose
      have hmore := args.moreReaches [e.value] f s rest
      have hreduce : ParserState.step
          ⟨.expr e.value :: .token (.symbol .lparen) :: .token (.funcName f) :: s,
            args.moreTokens ++ .symbol .rparen :: rest⟩ =
          some ⟨.nonEmptyArgList [e.value] :: .token (.symbol .lparen) :: .token (.funcName f) :: s,
            args.moreTokens ++ .symbol .rparen :: rest⟩ :=
        step_reduce rfl (args.follow rest) fun _ ht => hclose.not_isBinop ht
      have htokens : (WrittenArguments.cons e args).tokens ++ .symbol .rparen :: rest =
          e.tokens ++ (args.moreTokens ++ .symbol .rparen :: rest) := by
        simp [WrittenArguments.tokens]
      rw [htokens]
      exact hfirst.trans (.head hreduce hmore)

/-- Each further argument joins the ones before it. -/
theorem WrittenArguments.moreReaches (args : WrittenArguments) (before : List (Expression Path))
    (f : FunctionName) (s : List StackSymbol) (rest : List Token) :
    Reaches ParserState.step
      ⟨.nonEmptyArgList before :: .token (.symbol .lparen) :: .token (.funcName f) :: s,
        args.moreTokens ++ .symbol .rparen :: rest⟩
      ⟨.argList (before ++ args.values) :: .token (.symbol .lparen) :: .token (.funcName f) :: s,
        .symbol .rparen :: rest⟩ := by
  match args with
  | .nil =>
      rw [WrittenArguments.values, List.append_nil]
      exact .single (step_argList rfl rfl rfl)
  | .cons e args =>
      have hclose := args.closes rest
      have hargument := e.reaches (.comma (.nonEmptyArgList before ::
        .token (.symbol .lparen) :: .token (.funcName f) :: s)) hclose
      have hmore := args.moreReaches (before ++ [e.value]) f s rest
      have hreduce : ParserState.step
          ⟨.expr e.value :: .token (.symbol .comma) :: .nonEmptyArgList before ::
            .token (.symbol .lparen) :: .token (.funcName f) :: s,
            args.moreTokens ++ .symbol .rparen :: rest⟩ =
          some ⟨.nonEmptyArgList (before ++ [e.value]) ::
            .token (.symbol .lparen) :: .token (.funcName f) :: s,
            args.moreTokens ++ .symbol .rparen :: rest⟩ :=
        step_reduce rfl (args.follow rest) fun _ ht => hclose.not_isBinop ht
      have hcomma : ParserState.step
          ⟨.nonEmptyArgList before :: .token (.symbol .lparen) :: .token (.funcName f) :: s,
            .symbol .comma :: (e.tokens ++ (args.moreTokens ++ .symbol .rparen :: rest))⟩ =
          some ⟨.token (.symbol .comma) :: .nonEmptyArgList before ::
            .token (.symbol .lparen) :: .token (.funcName f) :: s,
            e.tokens ++ (args.moreTokens ++ .symbol .rparen :: rest)⟩ := by
        refine step_shift rfl fun p s' hr => Or.inl ?_
        have hproduction : some (Production.argListSome, _) = some (p, s') := hr
        obtain rfl := (Prod.mk.inj (Option.some.inj hproduction)).1
        rfl
      have htokens : (WrittenArguments.cons e args).moreTokens ++ .symbol .rparen :: rest =
          .symbol .comma :: (e.tokens ++ (args.moreTokens ++ .symbol .rparen :: rest)) := by
        simp [WrittenArguments.moreTokens]
      rw [htokens, WrittenArguments.values]
      rw [List.append_assoc, List.singleton_append] at hmore
      exact .head hcomma (hargument.trans (.head hreduce hmore))

end

/-- Every expression is parsed, with all its operators nested to the right. -/
theorem WrittenExpression.parses (e : WrittenExpression) : Parses e.tokens e.value := by
  have h := e.reaches .start .eof
  rwa [List.append_nil] at h

/-- The parser builds at most one expression. -/
theorem Parses.unique {tokens : List Token} {e e' : Expression Path} (h : Parses tokens e)
    (h' : Parses tokens e') : e = e' := by
  have hend : ∀ e : Expression Path, ParserState.step ⟨[.expr e], []⟩ = none := fun _ => rfl
  have hstate := Part.mem_unique (mem_eval.mpr ⟨h, hend e⟩) (mem_eval.mpr ⟨h', hend e'⟩)
  simpa using hstate

end Stabl
