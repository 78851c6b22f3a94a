import Mathlib.Data.Fintype.Basic
import Stabl.SimSee.ProgramParser

/-!
# `Stabl.Proofs.SimSee.ParserTable`: the generated table

The table of `parser.output` is checked against the grammar of `parser.mly`: the items that are
listed for its states bear out its reductions (`table_checked`). So the parser never finds another
symbol on the stack than the action is for, and the lookup after an action never fails.
`tableCompletion` says how each state can be completed, so that what the parser has read is the
beginning of a program. `tableMeasure` are the weights by which the parser stops.
-/

set_option autoImplicit false

namespace Stabl.SimSee

open ShiftReduce StateTransition

def Terminal.all : List Terminal :=
  [.newline, .ws, .comma, .eof, .lparen, .rparen, .lbrace, .rbrace, .semicolon, .assign, .colon,
    .if, .then, .else, .let, .in, .return, .add, .subtract, .eq, .and, .or, .not, .integer, .id,
    .boolean, .type, .input]

theorem Terminal.mem_all (t : Terminal) : t ∈ all := by cases t <;> decide

def Nonterminal.all : List Nonterminal :=
  [.prog, .decls, .nonemptydecls, .decl, .stmts, .nonemptystmts, .stmt, .expr]

theorem Nonterminal.mem_all (n : Nonterminal) : n ∈ all := by cases n <;> decide

def ParserState.all : List ParserState :=
  [.s1, .s3, .s4, .s5, .s6, .s7, .s8, .s9, .s10, .s11, .s12, .s13, .s14, .s15, .s16, .s17, .s18,
    .s19, .s20, .s21, .s22, .s23, .s24, .s25, .s26, .s27, .s28, .s29, .s30, .s31, .s32, .s33, .s34,
    .s35, .s36, .s37, .s38, .s39, .s40, .s41, .s42, .s43, .s44, .s45, .s46, .s47, .s48, .s49]

theorem ParserState.mem_all (s : ParserState) : s ∈ all := by cases s <;> decide

/-! ### The items -/

/-- The items of a state after an expression: an operator can follow. -/
def operatorItems : List (Production × ℕ) :=
  [(.add, 1), (.subtract, 1), (.and, 1), (.or, 1), (.eq, 1)]

/-- The items that `parser.output` lists for a state, with the places of their dots. Items that
begin with the dot are left out. -/
def kernelItems : ParserState → List (Production × ℕ)
  | .s3 => [(.decls, 1), (.noDecls, 1)]
  | .s5 => [(.prog, 1)]
  | .s6 => [(.noDecls, 2)]
  | .s7 => [(.decl, 1)]
  | .s8 => [(.decls, 2), (.moreDecls, 1)]
  | .s9 => [(.oneDecl, 1)]
  | .s10 => [(.block, 1)]
  | .s11 => [(.ifStmt, 1)]
  | .s12 => [(.assignment, 1)]
  | .s13 => [(.prog, 2)]
  | .s14 => [(.decl, 2)]
  | .s15 => [(.decls, 3)]
  | .s16 => [(.moreDecls, 2)]
  | .s17 => [(.oneStmt, 1)]
  | .s18 => [(.block, 2)]
  | .s19 => [(.stmts, 1), (.moreStmts, 1)]
  | .s20 => [(.parentheses, 1)]
  | .s21 => [(.not, 1)]
  | .s22 => [(.integer, 1)]
  | .s23 => [(.id, 1)]
  | .s24 => [(.boolean, 1)]
  | .s25 => [(.input, 1)]
  | .s26 => (.ifStmt, 2) :: operatorItems
  | .s27 => [(.assignment, 2)]
  | .s28 => [(.decl, 3)]
  | .s29 => [(.block, 3)]
  | .s30 => [(.moreStmts, 2)]
  | .s31 => (.parentheses, 2) :: operatorItems
  | .s32 => (.not, 2) :: operatorItems
  | .s33 => [(.ifStmt, 3)]
  | .s34 => [(.add, 2)]
  | .s35 => [(.subtract, 2)]
  | .s36 => [(.eq, 2)]
  | .s37 => [(.and, 2)]
  | .s38 => [(.or, 2)]
  | .s39 => (.assignment, 3) :: operatorItems
  | .s40 => [(.parentheses, 3)]
  | .s41 => [(.ifStmt, 4)]
  | .s42 => (.add, 3) :: operatorItems
  | .s43 => (.subtract, 3) :: operatorItems
  | .s44 => (.eq, 3) :: operatorItems
  | .s45 => (.and, 3) :: operatorItems
  | .s46 => (.or, 3) :: operatorItems
  | .s47 => [(.assignment, 4)]
  | .s48 => [(.ifStmt, 5)]
  | .s49 => [(.ifStmt, 6)]
  | _ => []

/-- What holds of all entries holds of all edges. -/
theorem forall_edges {p : ParserState → Symbol Terminal Nonterminal → ParserState → Prop}
    (hshift : ∀ s ∈ ParserState.all, ∀ t ∈ Terminal.all, ∀ s' ∈ table.edge s (.terminal t),
      p s (.terminal t) s')
    (hgoto : ∀ s ∈ ParserState.all, ∀ n ∈ Nonterminal.all, ∀ s' ∈ table.edge s (.nonterminal n),
      p s (.nonterminal n) s') :
    ∀ s X, ∀ s' ∈ table.edge s X, p s X s' := by
  intro s X
  cases X with
  | terminal t => exact hshift s s.mem_all t t.mem_all
  | nonterminal n => exact hgoto s s.mem_all n n.mem_all

theorem forall_reduces {p : ParserState → Production → Prop}
    (hdefault : ∀ s ∈ ParserState.all, ∀ r ∈ table.default s, p s r)
    (hahead : ∀ s ∈ ParserState.all, ∀ t ∈ Terminal.all, ∀ r ∈ table.reduction s t, p s r) :
    ∀ s r, table.Reduces s r → p s r := by
  intro s r h
  rcases h with h | ⟨t, h⟩
  · exact hdefault s s.mem_all r h
  · exact hahead s s.mem_all t t.mem_all r h

/-- The table fits the grammar. -/
theorem table_checked : table.Checked kernelItems where
  items := forall_edges (by decide +kernel) (by decide +kernel)
  reduces := forall_reduces (by decide +kernel) (by decide +kernel)
  start_kernel := rfl
  start_edge := forall_edges (by decide +kernel) (by decide +kernel)
  accepts_start := rfl
  accepts_edge := forall_edges (by decide +kernel) (by decide +kernel)

/-! ### Completions -/

/-- The item by which a state is completed: the one that is not about an operator. -/
def completedItem (s : ParserState) : Production × ℕ := (kernelItems s).headD (.prog, 0)

/-- The number of reductions by which a state is completed before the stack gets shorter. -/
def completionRank : ParserState → ℕ
  | .s5 | .s9 | .s19 | .s20 | .s21 | .s22 | .s23 | .s24 | .s25 => 1
  | .s3 | .s7 | .s17 => 2
  | .s10 | .s11 | .s12 => 3
  | _ => 0

theorem mem_kernelItems : ∀ s ∈ ParserState.all, s ≠ .s1 → s ≠ .s4 →
    completedItem s ∈ kernelItems s := by
  decide +kernel

theorem completionRank_lower : ∀ s ∈ ParserState.all, (completedItem s).2 = 1 →
    ∀ q ∈ ParserState.all, ∀ s' ∈ parserGoto q (completedItem s).1.lhs,
      completionRank s' < completionRank s := by
  decide +kernel

theorem derives_token (t : ProgramToken) : grammar.Derives [.terminal t.1] [t] (t.2, ⟨⟩) :=
  .token t .nil

theorem derives_production (p : Production) {u : List ProgramToken} {args : p.rhs.TProd SymbolValue}
    (h : grammar.Derives p.rhs u args) :
    grammar.Derives [.nonterminal p.lhs] u (p.action args, ⟨⟩) := by
  have hnode := Grammar.Derives.node (G := grammar) p h .nil
  rwa [List.append_nil] at hnode

/-- Every symbol has a sentence. -/
theorem exists_derives_symbol (X : Symbol Terminal Nonterminal) :
    ∃ u v, grammar.Derives [X] u (v, ⟨⟩) := by
  have hexpr := derives_production .id (derives_token ⟨.id, "x"⟩)
  have hstmts := derives_production .noStmts .nil
  have hstmt := derives_production .block
    ((derives_token ⟨.lbrace, ()⟩).cons (hstmts.cons (derives_token ⟨.rbrace, ()⟩)))
  have hdecl := derives_production .decl
    ((derives_token ⟨.type, Typ.integer⟩).cons
      ((derives_token ⟨.id, "x"⟩).cons (derives_token ⟨.semicolon, ()⟩)))
  have hdecls := derives_production .noDecls
    ((derives_token ⟨.lbrace, ()⟩).cons (derives_token ⟨.rbrace, ()⟩))
  cases X with
  | terminal t =>
      have v : SymbolValue (.terminal t) := by
        cases t <;> first | exact () | exact (0 : BitVec 63) | exact "x" | exact true |
          exact Typ.integer
      exact ⟨_, _, derives_token ⟨t, v⟩⟩
  | nonterminal n =>
      cases n with
      | prog => exact ⟨_, _, derives_production .prog (hdecls.cons hstmt)⟩
      | decls => exact ⟨_, _, hdecls⟩
      | nonemptydecls => exact ⟨_, _, derives_production .oneDecl hdecl⟩
      | decl => exact ⟨_, _, hdecl⟩
      | stmts => exact ⟨_, _, hstmts⟩
      | nonemptystmts => exact ⟨_, _, derives_production .oneStmt hstmt⟩
      | stmt => exact ⟨_, _, hstmt⟩
      | expr => exact ⟨_, _, hexpr⟩

theorem exists_derives (Xs : List (Symbol Terminal Nonterminal)) :
    ∃ u vs, grammar.Derives Xs u vs := by
  induction Xs with
  | nil => exact ⟨[], ⟨⟩, .nil⟩
  | cons X Xs ih =>
      obtain ⟨u, v, h⟩ := exists_derives_symbol X
      obtain ⟨u', vs, h'⟩ := ih
      exact ⟨u ++ u', (v, vs), h.cons h'⟩

def tableCompletion : table.Completion kernelItems where
  item := completedItem
  rank := completionRank
  bound := 4
  rank_lt s := by cases s <;> decide
  mem_kernel s hstart haccepts := mem_kernelItems s s.mem_all hstart (of_decide_eq_false haccepts)
  lower s hone q := completionRank_lower s s.mem_all hone q q.mem_all
  sentence := exists_derives

/-! ### The number of steps -/

def symbolWeight : Symbol Terminal Nonterminal → ℕ
  | .terminal _ => 3
  | .nonterminal .prog | .nonterminal .stmts => 0
  | .nonterminal .decls | .nonterminal .nonemptydecls | .nonterminal .nonemptystmts
  | .nonterminal .expr => 1
  | .nonterminal .decl | .nonterminal .stmt => 2

theorem reduce_lowers : ∀ s r, table.Reduces s r → ∀ q ∈ ParserState.all,
    ∀ s' ∈ table.goto q r.lhs, symbolWeight (.nonterminal r.lhs) + (if s' = .s10 then 1 else 0) <
      (r.rhs.map symbolWeight).sum + (if s = .s10 then 1 else 0) :=
  forall_reduces (by decide +kernel) (by decide +kernel)

theorem shift_lowers : ∀ s X, ∀ s' ∈ table.edge s X,
    symbolWeight X + (if s' = .s10 then 1 else 0) < 5 :=
  forall_edges (by decide +kernel) (by decide +kernel)

/-- In the state 10 the parser can reduce by the empty production, so this state has a bonus. -/
def tableMeasure : table.Measure where
  weight := symbolWeight
  bonus s := if s = .s10 then 1 else 0
  ahead := 5
  shift s t s' h := shift_lowers s (.terminal t) s' (table.edge_terminal.mpr h)
  reduce s p h q := reduce_lowers s p h q q.mem_all

/-- The parser stops. -/
theorem step_parseTokens (tokens : List ProgramToken) : table.step (parseTokens tokens) = none :=
  Table.step_run_eq_none tableMeasure (Nat.le_refl _)

theorem reaches_parseTokens (tokens : List ProgramToken) :
    Reaches table.step ⟨[], tokens⟩ (parseTokens tokens) :=
  Table.reaches_run _ _

/-- Where the parser stops, it has parsed. -/
theorem parseTokens_eq {tokens : List ProgramToken}
    {c : ShiftReduce.Parser grammar ParserState}
    (h : Reaches table.step ⟨[], tokens⟩ c) (hend : table.step c = none) :
    parseTokens tokens = c :=
  Table.run_eq_of_reaches tableMeasure (Nat.le_refl _) h hend

end Stabl.SimSee
