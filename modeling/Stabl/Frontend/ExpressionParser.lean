import Mathlib.Computability.StateTransition
import Stabl.Ast.Syntax

/-!
# `Stabl.Frontend.ExpressionParser`: the parser of expressions

The productions of `expr` in `frontend/parser.cup`, and the precedence declarations at its
head. The generated parser keeps a stack of grammar symbols with the values that the actions
have computed, and looks one terminal ahead. It shifts the terminal or reduces by the
production whose right-hand side ends the stack.

Where both are possible the generator resolves the conflict from the precedences. A
production has the precedence of its last terminal. `expr ::= expr binop expr` has no
terminal, because the operators stand behind the nonterminal `binop`, so it has no
precedence. In the tables of the committed `Parser.java` the state after this right-hand side
shifts all twelve operators.

The productions of `name` and of `func_name` end before an operator can follow, so a name and
the name of a called function are single tokens here. The terminals that end an expression in
the productions around it are the end of the input.
-/

set_option autoImplicit false

namespace Stabl

/-! ### Terminals and their precedences -/

/-- The terminals of an expression, and the others that have a precedence. -/
inductive Terminal where
  | identifier | intConst | strLiteral
  | lbrace | rbrace | lparen | rparen | comma | dot
  | and | or
  | eq | ne | ge | gt | le | lt
  | sub | add | mul | div
  | true | false
deriving DecidableEq, Repr

/-- The sides of a precedence declaration. The grammar has no `precedence right`. -/
inductive Associativity where
  | left
  | nonassoc
deriving DecidableEq, Repr

/-- The precedence declarations of `parser.cup`, the loosest ones first. -/
def precedenceDeclarations : List (Associativity × List Terminal) :=
  [(.nonassoc, [.le, .lt, .eq, .ne, .ge, .gt]),
    (.left, [.lbrace, .rbrace, .and, .or]),
    (.left, [.dot]),
    (.left, [.add, .sub]),
    (.left, [.mul, .div]),
    (.left, [.lparen, .rparen])]

/-- The place of a terminal among the declarations, and its side. -/
def Terminal.precedence (t : Terminal) : Option (ℕ × Associativity) :=
  (precedenceDeclarations.zipIdx.find? fun d => t ∈ d.1.2).map fun d => (d.2, d.1.1)

/-- The production of `binop` for a terminal. -/
def Terminal.binop : Terminal → Option OperatorType
  | .add => some .plus
  | .mul => some .mul
  | .sub => some .sub
  | .div => some .div
  | .ge => some .ge
  | .gt => some .gt
  | .le => some .le
  | .lt => some .lt
  | .eq => some .eq
  | .ne => some .ne
  | .and => some .and
  | .or => some .or
  | _ => none

/-- The terminal of a production of `binop`. -/
def OperatorType.terminal : OperatorType → Terminal
  | .plus => .add
  | .mul => .mul
  | .sub => .sub
  | .div => .div
  | .ge => .ge
  | .gt => .gt
  | .le => .le
  | .lt => .lt
  | .ne => .ne
  | .eq => .eq
  | .and => .and
  | .or => .or

@[simp]
theorem OperatorType.binop_terminal (operator : OperatorType) :
    operator.terminal.binop = some operator := by
  cases operator <;> rfl

/-- The terminals that a `binop` consists of. -/
def Terminal.isBinop (t : Terminal) : Bool := t.binop.isSome

/-- The terminals that an `expr` can start with. -/
def Terminal.startsExpr (t : Terminal) : Bool :=
  t ∈ [.identifier, .intConst, .strLiteral, .lparen, .true, .false]

/-! ### Productions -/

/-- The nonterminals on the left-hand sides. -/
inductive NonTerminal where
  | expr | funcCall | argList | nonEmptyArgList | boolconst | binop
  | name | funcName
deriving DecidableEq, Repr

/-- A symbol of a right-hand side. -/
inductive GrammarSymbol where
  | terminal (t : Terminal)
  | nonTerminal (n : NonTerminal)
deriving DecidableEq, Repr

/-- The productions from `expr` to `binop`, named after what they build. -/
inductive Production where
  | exprName | exprBinary | exprBoolconst | exprIntConst | exprStrLiteral | exprParentheses
  | exprFuncCall
  | funcCall
  | argListSome | argListEmpty
  | nonEmptyArgListMore | nonEmptyArgListFirst
  | boolconstTrue | boolconstFalse
  | binop (operator : OperatorType)
deriving DecidableEq, Repr

namespace Production

/-- The left-hand side. -/
def lhs : Production → NonTerminal
  | exprName | exprBinary | exprBoolconst | exprIntConst | exprStrLiteral | exprParentheses
  | exprFuncCall => .expr
  | funcCall => .funcCall
  | argListSome | argListEmpty => .argList
  | nonEmptyArgListMore | nonEmptyArgListFirst => .nonEmptyArgList
  | boolconstTrue | boolconstFalse => .boolconst
  | binop _ => .binop

/-- The right-hand side. -/
def rhs : Production → List GrammarSymbol
  | exprName => [.nonTerminal .name]
  | exprBinary => [.nonTerminal .expr, .nonTerminal .binop, .nonTerminal .expr]
  | exprBoolconst => [.nonTerminal .boolconst]
  | exprIntConst => [.terminal .intConst]
  | exprStrLiteral => [.terminal .strLiteral]
  | exprParentheses => [.terminal .lparen, .nonTerminal .expr, .terminal .rparen]
  | exprFuncCall => [.nonTerminal .funcCall]
  | funcCall =>
    [.nonTerminal .funcName, .terminal .lparen, .nonTerminal .argList, .terminal .rparen]
  | argListSome => [.nonTerminal .nonEmptyArgList]
  | argListEmpty => []
  | nonEmptyArgListMore => [.nonTerminal .nonEmptyArgList, .terminal .comma, .nonTerminal .expr]
  | nonEmptyArgListFirst => [.nonTerminal .expr]
  | boolconstTrue => [.terminal .true]
  | boolconstFalse => [.terminal .false]
  | binop operator => [.terminal operator.terminal]

/-- A production takes the precedence of its last terminal. -/
def precedence (p : Production) : Option (ℕ × Associativity) :=
  let terminals := p.rhs.filterMap fun
    | .terminal t => some t
    | .nonTerminal _ => none
  terminals.getLast?.bind Terminal.precedence

end Production

/-- The terminals that can follow a nonterminal. `none` is the end of the expression. -/
def NonTerminal.follow : NonTerminal → Option Terminal → Bool
  | expr, some t | boolconst, some t | funcCall, some t | name, some t =>
    t.isBinop || t = .rparen || t = .comma
  | expr, none | boolconst, none | funcCall, none | name, none => true
  | argList, t => t = some .rparen
  | nonEmptyArgList, t => t = some .rparen || t = some .comma
  | binop, some t => t.startsExpr
  | funcName, t => t = some .lparen
  | binop, none => false

/-! ### The stack -/

/-- A terminal with its value, or a name that is read as a whole. -/
inductive Token where
  | name (n : Path)
  | funcName (f : FunctionName)
  | intConst (n : Int32)
  | strLiteral (s : String)
  | symbol (t : Terminal)

/-- The terminal that a token starts with. -/
def Token.terminal : Token → Terminal
  | .name _ => .identifier
  | .funcName _ => .identifier
  | .intConst _ => .intConst
  | .strLiteral _ => .strLiteral
  | .symbol t => t

/-- A token that was shifted, or a nonterminal with the value of its action. -/
inductive StackSymbol where
  | token (t : Token)
  | expr (e : Expression Path)
  | funcCall (e : Expression Path)
  | argList (args : List (Expression Path))
  | nonEmptyArgList (args : List (Expression Path))
  | boolconst (b : Bool)
  | binop (operator : OperatorType)

/-- The stack, with its top first, and the rest of the input. -/
structure ParserState where
  stack : List StackSymbol
  input : List Token

/-- The terminals that can be shifted. -/
def shifts : List StackSymbol → Terminal → Bool
  | .expr _ :: .token (.symbol .lparen) :: .token (.funcName _) :: _, t => t.isBinop
  | .expr _ :: .token (.symbol .lparen) :: _, t => t.isBinop || t = .rparen
  | .expr _ :: _, t => t.isBinop
  | .argList _ :: _, t => t = .rparen
  | .nonEmptyArgList _ :: _, t => t = .comma
  | .token (.funcName _) :: _, t => t = .lparen
  -- The items that an expression follows.
  | [], t | .binop _ :: _, t | .token (.symbol .lparen) :: _, t
  | .token (.symbol .comma) :: _, t => t.startsExpr
  | _, _ => false

/-- The production whose right-hand side ends the stack, with the stack that is left by its
action. -/
def reduction : List StackSymbol → Option (Production × List StackSymbol)
  | .token (.name n) :: s => some (.exprName, .expr (.name n) :: s)
  | .token (.intConst n) :: s => some (.exprIntConst, .expr (.constant (.integerConstant n)) :: s)
  | .token (.strLiteral v) :: s => some (.exprStrLiteral, .expr (.constant (.stringLiteral v)) :: s)
  | .token (.symbol .true) :: s => some (.boolconstTrue, .boolconst true :: s)
  | .token (.symbol .false) :: s => some (.boolconstFalse, .boolconst false :: s)
  | .boolconst b :: s => some (.exprBoolconst, .expr (.constant (.booleanConstant b)) :: s)
  | .token (.symbol .rparen) :: .expr e :: .token (.symbol .lparen) :: s =>
    some (.exprParentheses, .expr e :: s)
  | .token (.symbol .rparen) :: .argList args :: .token (.symbol .lparen) ::
      .token (.funcName f) :: s =>
    some (.funcCall, .funcCall (.functionCall f args) :: s)
  | .funcCall e :: s => some (.exprFuncCall, .expr e :: s)
  | .expr e₂ :: .binop operator :: .expr e₁ :: s =>
    some (.exprBinary, .expr (.binaryExpression e₁ e₂ operator) :: s)
  | .expr e :: .token (.symbol .comma) :: .nonEmptyArgList args :: s =>
    some (.nonEmptyArgListMore, .nonEmptyArgList (args ++ [e]) :: s)
  | .expr e :: .token (.symbol .lparen) :: .token (.funcName f) :: s =>
    some (.nonEmptyArgListFirst,
      .nonEmptyArgList [e] :: .token (.symbol .lparen) :: .token (.funcName f) :: s)
  | .nonEmptyArgList args :: s => some (.argListSome, .argList args :: s)
  | .token (.symbol .lparen) :: .token (.funcName f) :: s =>
    some (.argListEmpty, .argList [] :: .token (.symbol .lparen) :: .token (.funcName f) :: s)
  | .token (.symbol t) :: s => t.binop.map fun operator => (.binop operator, .binop operator :: s)
  | _ => none

/-! ### The parser -/

/-- What the parser does with its lookahead. -/
inductive Move where
  | shift
  | reduce
deriving DecidableEq, Repr

/-- The resolution of a conflict between the reduction by a production and the shift of a
terminal. `none` is an error of the input. -/
def resolve (p : Production) (t : Terminal) : Option Move :=
  match p.precedence, t.precedence with
  -- A terminal with a precedence is shifted, and without one the shift is the default.
  | none, _ => some .shift
  | some _, none => some .reduce
  | some (l, _), some (l', side) =>
    if l' < l then some .reduce
    else if l < l' then some .shift
    else
      match side with
      | .left => some .reduce
      | .nonassoc => none

namespace ParserState

/-- The terminal that the parser looks at. -/
def lookahead (c : ParserState) : Option Terminal := c.input.head?.map Token.terminal

/-- The state after the shift of the next token. -/
def shift (c : ParserState) : Option (Terminal × ParserState) :=
  match c.input with
  | token :: input =>
    if shifts c.stack token.terminal then
      some (token.terminal, ⟨.token token :: c.stack, input⟩)
    else none
  | [] => none

/-- The state after a reduction. The lookahead has to be able to follow the left-hand side. -/
def reduce (c : ParserState) : Option (Production × ParserState) :=
  match reduction c.stack with
  | some (p, stack) => if p.lhs.follow c.lookahead then some (p, ⟨stack, c.input⟩) else none
  | none => none

/-- One step of the generated parser. `none` is the end, or an error. -/
def step (c : ParserState) : Option ParserState :=
  match c.shift, c.reduce with
  | some (t, shifted), some (p, reduced) =>
    match resolve p t with
    | some .shift => some shifted
    | some .reduce => some reduced
    | none => none
  | some (_, shifted), none => some shifted
  | none, some (_, reduced) => some reduced
  | none, none => none

end ParserState

/-- The parser builds the expression `e` from the tokens, and reads all of them. -/
def Parses (tokens : List Token) (e : Expression Path) : Prop :=
  StateTransition.Reaches ParserState.step ⟨[], tokens⟩ ⟨[.expr e], []⟩

end Stabl
