import Stabl.Lib.ShiftReduce
import Stabl.SimSee.Syntax

/-!
# `Stabl.SimSee.ProgramParser`: the parser of programs of `sim-see`

The tokens, the productions and the actions of `parser.mly`, and the table that is generated from
them, with the numbers of `parser.output`. The states 0 and 2 only handle the entry: the parser
starts in the state 1, and where the state 4 is reached it returns the program. It does not look
at the tokens after it.
-/

set_option autoImplicit false

namespace Stabl.SimSee

open ShiftReduce (Grammar Table Action)

/-! ### The grammar -/

/-- The tokens that `parser.mly` declares. -/
inductive Terminal where
  | newline | ws | comma | eof | lparen | rparen | lbrace | rbrace | semicolon | assign | colon
  | «if» | «then» | «else» | «let» | «in» | «return»
  | add | subtract | eq
  | and | or | not
  | integer | id | boolean | type | input
deriving DecidableEq, Repr

inductive Nonterminal where
  | prog | decls | nonemptydecls | decl | stmts | nonemptystmts | stmt | expr
deriving DecidableEq, Repr

/-- The types of the values. -/
def SymbolValue : Symbol Terminal Nonterminal → Type
  | .terminal .integer => BitVec 63
  | .terminal .id => String
  | .terminal .boolean => Bool
  | .terminal .type | .terminal .input => Typ
  | .terminal _ => Unit
  | .nonterminal .prog => Program
  | .nonterminal .decls | .nonterminal .nonemptydecls => List (String × Typ)
  | .nonterminal .decl => String × Typ
  | .nonterminal .stmts | .nonterminal .nonemptystmts => List Stmt
  | .nonterminal .stmt => Stmt
  | .nonterminal .expr => Expr

/-- The productions 1 to 24 of `parser.output`, in this order. -/
inductive Production where
  | prog
  | decls | noDecls
  | moreDecls | oneDecl
  | decl
  | stmts | noStmts
  | moreStmts | oneStmt
  | assignment | ifStmt | block
  | id | integer | boolean
  | add | subtract | and | or
  | not
  | eq
  | parentheses
  | input
deriving DecidableEq, Repr

def Production.lhs : Production → Nonterminal
  | .prog => .prog
  | .decls | .noDecls => .decls
  | .moreDecls | .oneDecl => .nonemptydecls
  | .decl => .decl
  | .stmts | .noStmts => .stmts
  | .moreStmts | .oneStmt => .nonemptystmts
  | .assignment | .ifStmt | .block => .stmt
  | .id | .integer | .boolean | .add | .subtract | .and | .or | .not | .eq | .parentheses
  | .input => .expr

def Production.rhs : Production → List (Symbol Terminal Nonterminal)
  | .prog => [.nonterminal .decls, .nonterminal .stmt]
  | .decls => [.terminal .lbrace, .nonterminal .nonemptydecls, .terminal .rbrace]
  | .noDecls => [.terminal .lbrace, .terminal .rbrace]
  | .moreDecls => [.nonterminal .nonemptydecls, .nonterminal .decl]
  | .oneDecl => [.nonterminal .decl]
  | .decl => [.terminal .type, .terminal .id, .terminal .semicolon]
  | .stmts => [.nonterminal .nonemptystmts]
  | .noStmts => []
  | .moreStmts => [.nonterminal .nonemptystmts, .nonterminal .stmt]
  | .oneStmt => [.nonterminal .stmt]
  | .assignment =>
    [.terminal .id, .terminal .assign, .nonterminal .expr, .terminal .semicolon]
  | .ifStmt =>
    [.terminal .if, .nonterminal .expr, .terminal .then, .nonterminal .stmt, .terminal .else,
      .nonterminal .stmt]
  | .block => [.terminal .lbrace, .nonterminal .stmts, .terminal .rbrace]
  | .id => [.terminal .id]
  | .integer => [.terminal .integer]
  | .boolean => [.terminal .boolean]
  | .add => [.nonterminal .expr, .terminal .add, .nonterminal .expr]
  | .subtract => [.nonterminal .expr, .terminal .subtract, .nonterminal .expr]
  | .and => [.nonterminal .expr, .terminal .and, .nonterminal .expr]
  | .or => [.nonterminal .expr, .terminal .or, .nonterminal .expr]
  | .not => [.terminal .not, .nonterminal .expr]
  | .eq => [.nonterminal .expr, .terminal .eq, .nonterminal .expr]
  | .parentheses => [.terminal .lparen, .nonterminal .expr, .terminal .rparen]
  | .input => [.terminal .input]

/-- The actions. The lists are built from the right, and reversed at their end. -/
def Production.action : (p : Production) → p.rhs.TProd SymbolValue →
    SymbolValue (.nonterminal p.lhs)
  | .prog, (ds, s, _) => (⟨ds, s⟩ : Program)
  | .decls, (_, ds, _) => List.reverse (α := String × Typ) ds
  | .noDecls, _ => ([] : List (String × Typ))
  | .moreDecls, (ds, d, _) => List.cons (α := String × Typ) d ds
  | .oneDecl, (d, _) => [(d : String × Typ)]
  | .decl, (t, vname, _) => ((vname, t) : String × Typ)
  | .stmts, (ss, _) => List.reverse (α := Stmt) ss
  | .noStmts, _ => ([] : List Stmt)
  | .moreStmts, (ss, s, _) => List.cons (α := Stmt) s ss
  | .oneStmt, (s, _) => [(s : Stmt)]
  | .assignment, (vname, _, e, _) => Stmt.assignment vname e
  | .ifStmt, (_, b, _, s1, _, s2, _) => Stmt.ifStmt b s1 s2
  | .block, (_, ss, _) => Stmt.block ss
  | .id, (vname, _) => Expr.id vname
  | .integer, (n, _) => Expr.intConst n
  | .boolean, (b, _) => Expr.boolConst b
  | .add, (e1, _, e2, _) => Expr.add e1 e2
  | .subtract, (e1, _, e2, _) => Expr.sub e1 e2
  | .and, (e1, _, e2, _) => Expr.and e1 e2
  | .or, (e1, _, e2, _) => Expr.or e1 e2
  | .not, (_, e, _) => Expr.not e
  | .eq, (e1, _, e2, _) => Expr.equals e1 e2
  | .parentheses, (_, e, _) => e
  | .input, (t, _) => Expr.input t

/-- The grammar of `parser.mly`. -/
def grammar : Grammar Terminal Nonterminal Production where
  Value := SymbolValue
  lhs := Production.lhs
  rhs := Production.rhs
  action := Production.action

/-- The tokens of programs. -/
abbrev ProgramToken : Type := grammar.Token

/-! ### The table -/

/-- The states of `parser.output`, with their numbers. -/
inductive ParserState where
  | s1 | s3 | s4 | s5 | s6 | s7 | s8 | s9 | s10 | s11 | s12 | s13 | s14 | s15 | s16 | s17 | s18
  | s19 | s20 | s21 | s22 | s23 | s24 | s25 | s26 | s27 | s28 | s29 | s30 | s31 | s32 | s33 | s34
  | s35 | s36 | s37 | s38 | s39 | s40 | s41 | s42 | s43 | s44 | s45 | s46 | s47 | s48 | s49
deriving DecidableEq, Repr

/-- The reductions of the states that do not look ahead. -/
def defaultReduction : ParserState → Option Production
  | .s6 => some .noDecls
  | .s9 => some .oneDecl
  | .s13 => some .prog
  | .s15 => some .decls
  | .s16 => some .moreDecls
  | .s17 => some .oneStmt
  | .s22 => some .integer
  | .s23 => some .id
  | .s24 => some .boolean
  | .s25 => some .input
  | .s28 => some .decl
  | .s29 => some .block
  | .s30 => some .moreStmts
  | .s40 => some .parentheses
  | .s47 => some .assignment
  | .s49 => some .ifStmt
  | _ => none

/-- The entries of the states in which a statement begins. -/
def stmtAction : Terminal → Option (Action Production ParserState)
  | .lbrace => some (.shift .s10)
  | .if => some (.shift .s11)
  | .id => some (.shift .s12)
  | _ => none

/-- The entries of the states in which an expression begins. -/
def exprAction : Terminal → Option (Action Production ParserState)
  | .lparen => some (.shift .s20)
  | .not => some (.shift .s21)
  | .integer => some (.shift .s22)
  | .id => some (.shift .s23)
  | .boolean => some (.shift .s24)
  | .input => some (.shift .s25)
  | _ => none

/-- The entries for the operators after an expression that is not complete. -/
def operatorAction : Terminal → Option (Action Production ParserState)
  | .add => some (.shift .s34)
  | .subtract => some (.shift .s35)
  | .eq => some (.shift .s36)
  | .and => some (.shift .s37)
  | .or => some (.shift .s38)
  | _ => none

/-- The entries of a state in which an expression by `p` ends: `p` is reduced at the operators in
`reduced`, and the others are shifted. -/
def endAction (p : Production) (reduced : List Terminal) (t : Terminal) :
    Option (Action Production ParserState) :=
  if t ∈ reduced ++ [.rparen, .semicolon, .then] then some (.reduce p) else operatorAction t

def parserAction (s : ParserState) (t : Terminal) : Option (Action Production ParserState) :=
  match s with
  | .s1 => if t = .lbrace then some (.shift .s3) else none
  | .s3 =>
    if t = .rbrace then some (.shift .s6) else if t = .type then some (.shift .s7) else none
  | .s5 | .s33 | .s48 => stmtAction t
  | .s7 => if t = .id then some (.shift .s14) else none
  | .s8 =>
    if t = .rbrace then some (.shift .s15) else if t = .type then some (.shift .s7) else none
  | .s10 => if t = .rbrace then some (.reduce .noStmts) else stmtAction t
  | .s11 | .s20 | .s21 | .s27 | .s34 | .s35 | .s36 | .s37 | .s38 => exprAction t
  | .s12 => if t = .assign then some (.shift .s27) else none
  | .s14 => if t = .semicolon then some (.shift .s28) else none
  | .s18 => if t = .rbrace then some (.shift .s29) else none
  | .s19 => if t = .rbrace then some (.reduce .stmts) else stmtAction t
  | .s26 => if t = .then then some (.shift .s33) else operatorAction t
  | .s31 => if t = .rparen then some (.shift .s40) else operatorAction t
  | .s39 => if t = .semicolon then some (.shift .s47) else operatorAction t
  | .s41 => if t = .else then some (.shift .s48) else none
  | .s32 => endAction .not [.add, .subtract, .and, .or] t
  | .s42 => endAction .add [.add] t
  | .s43 => endAction .subtract [.add, .subtract] t
  | .s44 => endAction .eq [] t
  | .s45 => endAction .and [.add, .subtract, .and] t
  | .s46 => endAction .or [.add, .subtract, .and, .or] t
  | _ => none

def parserGoto (s : ParserState) (n : Nonterminal) : Option ParserState :=
  match s, n with
  | .s1, .prog => some .s4
  | .s1, .decls => some .s5
  | .s3, .nonemptydecls => some .s8
  | .s3, .decl => some .s9
  | .s5, .stmt => some .s13
  | .s8, .decl => some .s16
  | .s10, .stmt => some .s17
  | .s10, .stmts => some .s18
  | .s10, .nonemptystmts => some .s19
  | .s19, .stmt => some .s30
  | .s33, .stmt => some .s41
  | .s48, .stmt => some .s49
  | .s11, .expr => some .s26
  | .s20, .expr => some .s31
  | .s21, .expr => some .s32
  | .s27, .expr => some .s39
  | .s34, .expr => some .s42
  | .s35, .expr => some .s43
  | .s36, .expr => some .s44
  | .s37, .expr => some .s45
  | .s38, .expr => some .s46
  | _, _ => none

/-- The generated table. The action of the entry raises `Parsing.YYexit` in the state 4. -/
def table : Table grammar ParserState where
  start := .s1
  target := .prog
  default := defaultReduction
  action := parserAction
  goto := parserGoto
  accepts s := s = .s4

/-- The parser on a list of tokens, until it stops. Each token takes five steps at most. -/
def parseTokens (tokens : List ProgramToken) : ShiftReduce.Parser grammar ParserState :=
  table.run (5 * tokens.length) ⟨[], tokens⟩

end Stabl.SimSee
