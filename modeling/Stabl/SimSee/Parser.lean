import Mathlib.Computability.StateTransition
import Stabl.SimSee.Syntax

/-!
# `Stabl.SimSee.Parser`: the parser of expressions of `sim-see`

The productions of `expr` in `parser.mly`, with the precedence declarations at its head. The
parser that is generated from them keeps a stack of tokens and of expressions that the
actions have built, and looks one token ahead. It shifts the token, or it reduces by the
production whose right-hand side ends the stack.

Where it could do both, the generator compares the precedence of the production, which is
that of its last token, with that of the token ahead. `EQ` has none, and then the token is
shifted. These are the conflicts that `parser.output` reports in the states 32 and 42 to 46.

The tokens that end an expression in the productions of `stmt` are the end of the input.
-/

set_option autoImplicit false

namespace Stabl.SimSee

/-! ### Tokens and productions -/

/-- The tokens of an expression, with their values. -/
inductive ExprToken where
  | id (vname : String)
  | integer (n : BitVec 63)
  | boolean (b : Bool)
  | input (t : Typ)
  | add | subtract | eq
  | and | or | not
  | lparen | rparen
deriving DecidableEq, Repr

/-- The sides of the precedence declarations. -/
inductive TokenSide where
  | left
  | right
deriving DecidableEq, Repr

/-- The precedence declarations, the loosest ones first: the place of a token and its side. -/
def ExprToken.precedence : ExprToken → Option (Nat × TokenSide)
  | .add => some (0, .left)
  | .subtract => some (1, .left)
  | .and => some (2, .left)
  | .or => some (3, .left)
  | .not => some (4, .right)
  | .rparen => some (5, .left)
  | .lparen => some (6, .left)
  | _ => none

/-- The tokens that an expression can start with. -/
def ExprToken.startsExpr : ExprToken → Bool
  | .id _ | .integer _ | .boolean _ | .input _ | .not | .lparen => true
  | .add | .subtract | .eq | .and | .or | .rparen => false

/-- The tokens that an expression can end with. -/
def ExprToken.endsExpr : ExprToken → Bool
  | .id _ | .integer _ | .boolean _ | .input _ | .rparen => true
  | .add | .subtract | .eq | .and | .or | .not | .lparen => false

/-- The operators between two expressions. -/
inductive BinaryOperator where
  | add | subtract | and | or | equals
deriving DecidableEq, Repr

/-- The token of an operator. -/
def BinaryOperator.token : BinaryOperator → ExprToken
  | .add => .add
  | .subtract => .subtract
  | .and => .and
  | .or => .or
  | .equals => .eq

/-- The operator that a token stands for. -/
def ExprToken.operator : ExprToken → Option BinaryOperator
  | .add => some .add
  | .subtract => some .subtract
  | .and => some .and
  | .or => some .or
  | .eq => some .equals
  | _ => none

/-- The action of a production `expr op expr`. -/
def BinaryOperator.apply : BinaryOperator → Expr → Expr → Expr
  | .add => .add
  | .subtract => .sub
  | .and => .and
  | .or => .or
  | .equals => .equals

/-- The productions of `expr`, by what they build. -/
inductive ExprProduction where
  | id | integer | boolean | input
  | binary (o : BinaryOperator)
  | not
  | parentheses
deriving DecidableEq, Repr

/-- A production takes the precedence of its last token. -/
def ExprProduction.precedence : ExprProduction → Option (Nat × TokenSide)
  | .id | .integer | .boolean | .input => none
  | .binary o => o.token.precedence
  | .not => ExprToken.not.precedence
  | .parentheses => ExprToken.rparen.precedence

/-! ### The stack -/

/-- A token that was shifted, or an expression. -/
inductive ExprSymbol where
  | token (t : ExprToken)
  | expr (e : Expr)
deriving DecidableEq

/-- The stack, with its top first, and the rest of the input. -/
structure ExprParser where
  stack : List ExprSymbol
  input : List ExprToken

namespace ExprParser

/-- The tokens that can be shifted. -/
def shifts : List ExprSymbol → ExprToken → Bool
  | [], t => t.startsExpr
  | .token u :: _, t => !u.endsExpr && t.startsExpr
  | .expr _ :: .token .lparen :: _, t => t.operator.isSome || t = .rparen
  | .expr _ :: _, t => t.operator.isSome

/-- The production whose right-hand side ends the stack, with the stack after its action. -/
def reduction : List ExprSymbol → Option (ExprProduction × List ExprSymbol)
  | .token (.id vname) :: s => some (.id, .expr (.id vname) :: s)
  | .token (.integer n) :: s => some (.integer, .expr (.intConst n) :: s)
  | .token (.boolean b) :: s => some (.boolean, .expr (.boolConst b) :: s)
  | .token (.input t) :: s => some (.input, .expr (.input t) :: s)
  | .token .rparen :: .expr e :: .token .lparen :: s => some (.parentheses, .expr e :: s)
  | .expr e :: .token .not :: s => some (.not, .expr (.not e) :: s)
  | .expr e2 :: .token t :: .expr e1 :: s =>
    t.operator.map fun o => (.binary o, .expr (o.apply e1 e2) :: s)
  | _ => none

/-- The tokens that can follow an expression. `none` is the end of the expression. -/
def follows : Option ExprToken → Bool
  | some t => t.operator.isSome || t = .rparen
  | none => true

/-! ### The parser -/

/-- Whether a conflict is resolved by the reduction. -/
def resolve (p : ExprProduction) (t : ExprToken) : Bool :=
  match p.precedence, t.precedence with
  | some (l, _), some (l', side) =>
    if l' < l then true else if l < l' then false else decide (side = .left)
  -- Without a precedence on either side the token is shifted.
  | _, _ => false

/-- The entries of the states 42 to 46 of `parser.output`: with an operator on the stack, the
operators ahead at which it is reduced. -/
example : [BinaryOperator.add, .subtract, .equals, .and, .or].map (fun p =>
      [ExprToken.add, .subtract, .eq, .and, .or].filter fun t => resolve (.binary p) t) =
    [[.add], [.add, .subtract], [], [.add, .subtract, .and], [.add, .subtract, .and, .or]] := by
  decide

/-- One step of the generated parser. `none` is the end, or an error. -/
def step (c : ExprParser) : Option ExprParser :=
  let reduced :=
    if follows c.input.head? then reduction c.stack else none
  match c.input with
  | [] => reduced.map fun r => ⟨r.2, []⟩
  | t :: input =>
    match shifts c.stack t, reduced with
    | true, some (p, s) =>
      if resolve p t then some ⟨s, c.input⟩ else some ⟨.token t :: c.stack, input⟩
    | true, none => some ⟨.token t :: c.stack, input⟩
    | false, some (_, s) => some ⟨s, c.input⟩
    | false, none => none

end ExprParser

/-- The parser builds the expression `e` from the tokens, and reads all of them. -/
def ParsesExpr (tokens : List ExprToken) (e : Expr) : Prop :=
  StateTransition.Reaches ExprParser.step ⟨[], tokens⟩ ⟨[.expr e], []⟩

end Stabl.SimSee
