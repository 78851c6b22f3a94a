import Mathlib.Algebra.Group.Int.Defs
import Stabl.Proofs.SymbolicExecution.Formula
import Stabl.SymbolicExecution.Replay

/-!
# `Stabl.Proofs.SymbolicExecution.Encoding`: what the formulas for the solver mean

`SymExpr.Sound` says of every node of an expression that its operator is a token of its own in
the text, and that its operator and its constant have a meaning in SMT-LIB. These are the
expressions whose text is a term of the right sort over their variables (`sortOf_term`,
`freeSymbols_term`, and `sound_of_sorted` the other way round). The term then has the value
that the expression has over unbounded integers (`eval_term`), which is its value in the action
language where nothing overflows (`exact_of_inRange`).
-/

set_option autoImplicit false

namespace Stabl

open SmtLib (Term SmtSort Value)

/-! ### The results of `sym_eval` -/

/-- The expression reads variables that have an update on the path, it calls no function, and
its string literals have no quotes inside. -/
def Expression.ReadsInitialised (n : SETNode) : Expression Name → Prop
  | .name x => (n.backtrack x.declaration).isSome = true
  | .constant c => (SymExpr.constant c).Lexical
  | .binaryExpression left right _ => left.ReadsInitialised n ∧ right.ReadsInitialised n
  | .functionCall _ _ => False

def SymbolicExpression.ReadsInitialised (n : SETNode) : SymbolicExpression → Prop
  | .operands left right _ => left.ReadsInitialised n ∧ right.ReadsInitialised n
  | .expression e => e.ReadsInitialised n
  | .symVars x => (SymExpr.symVars x).Lexical

/-- Every update of the path reads variables that were updated before. -/
def SETNode.Initialised : SETNode → Prop
  | .start => True
  | .instruction _ e p => p.Initialised ∧ e.ReadsInitialised p
  | .decision _ p | .stateEntry _ p | .stateExit _ p | .note _ p => p.Initialised

section
variable {n : SETNode} (hvalue : ∀ d, (n.backtrack d).isSome = true → (n.valueOf d).Lexical)
include hvalue

theorem lexical_symEvalWith : ∀ e : Expression Name, e.ReadsInitialised n →
    (symEvalWith n.valueOf e).Lexical := by
  intro e
  induction e using Expression.operandInduction with
  | name x => exact hvalue x.declaration
  | constant c => exact fun h => h
  | functionCall f args => exact fun h => h.elim
  | binaryExpression left right operator ihl ihr => exact fun h => ⟨ihl h.1, ihr h.2⟩

theorem lexical_symEvalUpdateWith (e : SymbolicExpression) (h : e.ReadsInitialised n) :
    (symEvalUpdateWith n.valueOf e).Lexical := by
  cases e with
  | operands left right operator =>
      exact ⟨lexical_symEvalWith hvalue left h.1, lexical_symEvalWith hvalue right h.2⟩
  | expression e => exact lexical_symEvalWith hvalue e h
  | symVars x => exact h

end

theorem SETNode.lexical_valueOf {n : SETNode} (hn : n.Initialised) :
    ∀ d, (n.backtrack d).isSome = true → (n.valueOf d).Lexical := by
  induction n with
  | start => exact fun d hd => nomatch hd
  | instruction var e p ih =>
      intro d hd
      rw [valueOf]
      rw [backtrack] at hd
      split
      · exact lexical_symEvalUpdateWith (ih hn.1) e hn.2
      · rename_i hne
        rw [if_neg hne] at hd
        exact ih hn.1 d hd
  | decision _ p ih | stateEntry _ p ih | stateExit _ p ih | note _ p ih => exact ih hn

/-- On a path whose variables are all initialised, `sym_eval` returns no `null`. -/
theorem lexical_symEval {e : Expression Name} {leaf : SETNode} (hleaf : leaf.Initialised)
    (he : e.ReadsInitialised leaf) : (symEval e leaf).Lexical :=
  lexical_symEvalWith (SETNode.lexical_valueOf hleaf) e he

/-! ### Sorts -/

/-- The sort of a constant. -/
def Constant.kind : Constant → SmtSort
  | .booleanConstant _ => .bool
  | .integerConstant _ => .int
  | .stringLiteral _ => .string

namespace OperatorType

/-- The type that the typechecker gives to an expression with this operator. -/
def kind : OperatorType → SmtSort → SmtSort → Option SmtSort
  | .plus, .int, .int | .mul, .int, .int | .sub, .int, .int | .div, .int, .int => some .int
  | .ge, s, s' | .gt, s, s' | .le, s, s' | .lt, s, s' | .ne, s, s' | .eq, s, s' =>
    if s = s' then some .bool else none
  | .and, .bool, .bool | .or, .bool, .bool => some .bool
  | _, _, _ => none

/-- SMT-LIB has the operator on a left operand of the sort: there is no division of integers
under this name, and only integers are ordered. -/
def Meaningful : OperatorType → SmtSort → Prop
  | .div, _ => False
  | .ge, s | .gt, s | .le, s | .lt, s => s = .int
  | _, _ => True

end OperatorType

namespace SymExpr

/-- The type of an expression, for the types of the symbolic variables. -/
def kind (Γ : String → SmtSort) : SymExpr → Option SmtSort
  | .constant c => some c.kind
  | .symVars x => some (Γ x)
  | .binaryExpression left right operator | .operands left right operator => do
    let a ← left.kind Γ
    let b ← right.kind Γ
    operator.kind a b
  | .expression e => e.kind Γ
  | .not e => do
    let a ← e.kind Γ
    if a = .bool then some .bool else none
  | .null => none

/-- The names of the symbolic variables. -/
def symVarsOf : SymExpr → List String
  | .symVars x => [x]
  | .binaryExpression left right _ | .operands left right _ => left.symVarsOf ++ right.symVarsOf
  | .expression e | .not e => e.symVarsOf
  | .constant _ | .null => []

/-- At every node, the text is that of an expression with a meaning in SMT-LIB: no constant is
negative, every operator has a meaning on its operands, and no operator runs into the text of
its left operand. -/
def Sound (Γ : String → SmtSort) : SymExpr → Prop
  | .constant (.integerConstant n) => 0 ≤ n.toInt
  | .constant _ | .symVars _ | .null => True
  | .binaryExpression left right operator =>
    (operator.spaced = true ∨ left.bare = false) ∧
      (∀ s, left.kind Γ = some s → operator.Meaningful s) ∧
      left.Sound Γ ∧ right.Sound Γ
  | .operands left right operator =>
    (∀ s, left.kind Γ = some s → operator.Meaningful s) ∧ left.Sound Γ ∧ right.Sound Γ
  | .expression e | .not e => e.Sound Γ

end SymExpr

section
variable {Γ : String → SmtSort}

theorem sortOf_app (o : SmtLib.Operator) (l r : Term) : (Term.app o.symbol l [r]).sortOf Γ =
    (l.sortOf Γ).bind fun a => (r.sortOf Γ).bind fun b => o.sortOf [a, b] := by
  rw [Term.sortOf, SmtLib.Operator.ofSymbol_symbol]
  cases l.sortOf Γ with
  | none => rfl
  | some a =>
      rw [Term.sortsOf]
      cases r.sortOf Γ with
      | none => rfl
      | some b => rfl

/-- The operator of SMT-LIB that is written like an operator, except for `!=` and `/`. -/
def OperatorType.smt : OperatorType → SmtLib.Operator
  | .plus => .add
  | .mul => .mul
  | .sub => .sub
  | .ge => .ge
  | .gt => .gt
  | .le => .le
  | .lt => .lt
  | .and => .and
  | .or => .or
  | .eq | .ne | .div => .eq

theorem operatorTerm_eq_app {operator : OperatorType} (hne : operator ≠ .ne)
    (hdiv : operator ≠ .div)
    (l r : Term) : SymExpr.operatorTerm operator l r = .app operator.smt.symbol l [r] := by
  cases operator with
  | ne => exact absurd rfl hne
  | div => exact absurd rfl hdiv
  | plus | mul | sub | ge | gt | le | lt | and | or | eq => rfl

/-- SMT-LIB has an operator where it has a meaning, with the type that the typechecker gives. -/
theorem sortOf_smt {operator : OperatorType} (hne : operator ≠ .ne) (hdiv : operator ≠ .div)
    (a b s : SmtSort) : operator.smt.sortOf [a, b] = some s ↔
      operator.Meaningful a ∧ operator.kind a b = some s := by
  cases operator with
  | ne => exact absurd rfl hne
  | div => exact absurd rfl hdiv
  | plus | mul | sub | ge | gt | le | lt | and | or | eq =>
      cases a <;> cases b <;>
        simp [OperatorType.smt, SmtLib.Operator.sortOf, OperatorType.Meaningful, OperatorType.kind]

/-- The sort of an operator's term, by the sorts of the operands. -/
theorem sortOf_operatorTerm {operator : OperatorType} {l r : Term} {s : SmtSort} :
    (SymExpr.operatorTerm operator l r).sortOf Γ = some s ↔ ∃ a b, l.sortOf Γ = some a ∧
      r.sortOf Γ = some b ∧ operator.Meaningful a ∧ operator.kind a b = some s := by
  have happ : ∀ (o : SmtLib.Operator) (s : SmtSort), (Term.app o.symbol l [r]).sortOf Γ = some s ↔
      ∃ a b, l.sortOf Γ = some a ∧ r.sortOf Γ = some b ∧ o.sortOf [a, b] = some s := by
    intro o s
    rw [sortOf_app]
    simp only [Option.bind_eq_some_iff]
    exact ⟨fun ⟨a, ha, b, hb, h⟩ => ⟨a, b, ha, hb, h⟩, fun ⟨a, b, ha, hb, h⟩ => ⟨a, ha, b, hb, h⟩⟩
  by_cases hdiv : operator = .div
  · subst hdiv
    have hno : (SymExpr.operatorTerm .div l r).sortOf Γ = none := rfl
    rw [hno]
    exact ⟨nofun, fun ⟨_, _, _, _, h, _⟩ => h.elim⟩
  by_cases hne : operator = .ne
  · subst hne
    have hnot : (SymExpr.operatorTerm .ne l r).sortOf Γ =
        ((Term.app "=" l [r]).sortOf Γ).bind fun a => SmtLib.Operator.sortOf .not [a] := rfl
    have hbool : ∀ {a b t : SmtSort}, SmtLib.Operator.sortOf .eq [a, b] = some t → t = .bool := by
      intro a b t h
      rw [SmtLib.Operator.sortOf] at h
      split at h
      · exact (Option.some.inj h).symm
      · cases h
    rw [hnot, Option.bind_eq_some_iff]
    constructor
    · intro ⟨t, ht, hs⟩
      have ⟨a, b, ha, hb, hab⟩ := (happ .eq t).mp ht
      obtain rfl := hbool hab
      obtain rfl : SmtSort.bool = s := Option.some.inj hs
      exact ⟨a, b, ha, hb, trivial, hab⟩
    · intro ⟨a, b, ha, hb, _, hab⟩
      have hs : s = .bool := hbool hab
      subst hs
      exact ⟨.bool, (happ .eq .bool).mpr ⟨a, b, ha, hb, hab⟩, rfl⟩
  · rw [operatorTerm_eq_app hne hdiv, happ]
    simp only [sortOf_smt hne hdiv]

theorem freeSymbols_operatorTerm {operator : OperatorType} (h : operator ≠ .div) (l r : Term) :
    (SymExpr.operatorTerm operator l r).freeSymbols = l.freeSymbols ++ r.freeSymbols := by
  have happ : ∀ o : SmtLib.Operator, (Term.app o.symbol l [r]).freeSymbols =
    l.freeSymbols ++ r.freeSymbols := by
    intro o
    simp [Term.freeSymbols, Term.freeSymbolsList]
  by_cases hne : operator = .ne
  · subst hne
    show [] ++ ((Term.app "=" l [r]).freeSymbols ++ []) = _
    rw [List.nil_append, List.append_nil]
    exact happ .eq
  · rw [operatorTerm_eq_app hne h]
    exact happ operator.smt

/-! ### Well-sorted formulas -/

/-- The name of a symbolic variable is not a constant of SMT-LIB. -/
theorem symVars_ne (vname : String) : ¬ (vname ++ "_1" = "true" ∨ vname ++ "_1" = "false") := by
  have hlast : (vname ++ "_1").toList.getLast? = some '1' := by
    rw [String.toList_append, List.getLast?_append]
    rfl
  rintro (h | h)
  · rw [h] at hlast
    cases hlast
  · rw [h] at hlast
    cases hlast

namespace SymExpr

/-- The types of the operands of an expression that has a type. -/
theorem kind_operands {left right : SymExpr} {operator : OperatorType} {k : SmtSort}
    (hk : (SymExpr.operands left right operator).kind Γ = some k) : ∃ a b, left.kind Γ = some a ∧
      right.kind Γ = some b ∧ operator.kind a b = some k := by
  have ⟨a, ha, h⟩ := Option.bind_eq_some_iff.mp hk
  have ⟨b, hb, h⟩ := Option.bind_eq_some_iff.mp h
  exact ⟨a, b, ha, hb, h⟩

theorem kind_not {e : SymExpr} {k : SmtSort} (hk : (SymExpr.not e).kind Γ = some k) :
    e.kind Γ = some .bool ∧ k = .bool := by
  have ⟨a, ha, h⟩ := Option.bind_eq_some_iff.mp hk
  split at h
  · rename_i hbool
    exact ⟨hbool ▸ ha, (Option.some.inj h).symm⟩
  · cases h

theorem operator_ne_div {operator : OperatorType} {a : SmtSort} (h : operator.Meaningful a) :
    operator ≠ .div := by
  rintro rfl
  exact h

/-- In a sound `BinaryExpression` the operator does not run into the left operand. -/
theorem term_binaryExpression {left right : SymExpr} {operator : OperatorType}
    (h : operator.spaced = true ∨ left.bare = false) :
    (SymExpr.binaryExpression left right operator).term =
    operatorTerm operator left.term right.term := by
  rw [term, if_neg]
  rcases h with h | h
  · simp [h]
  · simp [h]

/-- The sort of a sound expression's term is its type. -/
theorem sortOf_term {e : SymExpr} : ∀ {k : SmtSort}, e.Lexical → e.kind Γ = some k → e.Sound Γ →
    e.term.sortOf Γ = some k := by
  have hoperands : ∀ {left right : SymExpr} {operator : OperatorType} {k : SmtSort},
      (∀ {a}, left.kind Γ = some a → left.term.sortOf Γ = some a) →
      (∀ {b}, right.kind Γ = some b → right.term.sortOf Γ = some b) →
      (∀ s, left.kind Γ = some s → operator.Meaningful s) →
      (SymExpr.operands left right operator).kind Γ = some k →
        (operatorTerm operator left.term right.term).sortOf Γ = some k := by
    intro left right operator k hl hr hmeaningful hk
    obtain ⟨a, b, ha, hb, hab⟩ := kind_operands hk
    exact sortOf_operatorTerm.mpr ⟨a, b, hl ha, hr hb, hmeaningful a ha, hab⟩
  induction e with
  | null => exact fun h => h.elim
  | constant c =>
      intro k h hk hs
      cases c with
      | booleanConstant b =>
          cases b with
          | true => exact hk
          | false => exact hk
      | integerConstant n =>
          have hn : 0 ≤ n.toInt := hs
          rw [term, if_pos hn]
          exact hk
      | stringLiteral s => exact hk
  | symVars x =>
      intro k h hk _
      obtain ⟨vname, _, hx⟩ := h
      rw [term, Term.sortOf, if_neg (hx ▸ symVars_ne vname)]
      exact hk
  | expression e ih => exact fun h hk hs => ih h hk hs
  | not e ih =>
      intro k h hk hs
      obtain ⟨hbool, hk⟩ := kind_not hk
      have harg := ih h hbool hs
      show (e.term.sortOf Γ).bind (fun s => SmtLib.Operator.sortOf .not [s]) = some k
      rw [harg, hk]
      rfl
  | operands left right operator ihl ihr =>
      intro k h hk hs
      exact hoperands (fun ha => ihl h.1 ha hs.2.1) (fun hb => ihr h.2 hb hs.2.2) hs.1 hk
  | binaryExpression left right operator ihl ihr =>
      intro k h hk hs
      rw [term_binaryExpression hs.1]
      exact hoperands (fun ha => ihl h.1 ha hs.2.2.1) (fun hb => ihr h.2 hb hs.2.2.2) hs.2.1 hk

/-- The free symbols of a sound expression's term are its symbolic variables. -/
theorem freeSymbols_term {e : SymExpr} : ∀ {k : SmtSort}, e.Lexical → e.kind Γ = some k →
    e.Sound Γ →
    e.term.freeSymbols = e.symVarsOf := by
  induction e with
  | null => exact fun h => h.elim
  | constant c =>
      intro k h hk hs
      cases c with
      | booleanConstant b =>
          cases b with
          | true => rfl
          | false => rfl
      | integerConstant n =>
          have hn : 0 ≤ n.toInt := hs
          rw [term, if_pos hn]
          rfl
      | stringLiteral s => rfl
  | symVars x =>
      intro k h hk _
      obtain ⟨vname, _, hx⟩ := h
      rw [term, Term.freeSymbols, if_neg (hx ▸ symVars_ne vname)]
      rfl
  | expression e ih => exact fun h hk hs => ih h hk hs
  | not e ih =>
      intro k h hk hs
      show [] ++ (e.term.freeSymbols ++ []) = _
      rw [List.nil_append, List.append_nil]
      exact ih h (kind_not hk).1 hs
  | operands left right operator ihl ihr =>
      intro k h hk hs
      obtain ⟨a, b, ha, hb, hab⟩ := kind_operands hk
      rw [term, freeSymbols_operatorTerm (operator_ne_div (hs.1 a ha)), ihl h.1 ha hs.2.1,
        ihr h.2 hb hs.2.2]
      rfl
  | binaryExpression left right operator ihl ihr =>
      intro k h hk hs
      obtain ⟨a, b, ha, hb, hab⟩ := kind_operands hk
      rw [term_binaryExpression hs.1, freeSymbols_operatorTerm (operator_ne_div (hs.2.1 a ha)),
        ihl h.1 ha hs.2.2.1, ihr h.2 hb hs.2.2.2]
      rfl

end SymExpr

/-! ### Where the text is not that of a meaningful term -/

/-- Only an equals sign continues the text of an operator to a symbol with a meaning. -/
theorem symbol_continues {operator : OperatorType} (hspaced : operator.spaced = false)
    (o : SmtLib.Operator) {c : Char} {cs : List Char}
    (h : o.symbol.toList = operator.toString.toList ++ c :: cs) : c = '=' := by
  cases operator with
  | or | and | ne => cases hspaced
  | plus | mul | sub | div | ge | gt | le | lt | eq =>
      cases o <;> simp [SmtLib.Operator.symbol, OperatorType.toString] at h
      all_goals exact h.1.symm

/-- An operator with the text of a constant or variable right after it is no operator. -/
theorem ofSymbol_joined {operator : OperatorType} (hspaced : operator.spaced = false) {e : SymExpr}
    (h : e.Lexical) (hbare : e.bare = true) :
    SmtLib.Operator.ofSymbol (operator.toString ++ formula e) = none := by
  have ⟨c, cs, htext, hc, _⟩ := bare_text h hbare
  cases ho : SmtLib.Operator.ofSymbol (operator.toString ++ formula e) with
  | none => rfl
  | some o =>
      have hsymbol : o.symbol = operator.toString ++ formula e := by
        simpa using List.find?_some ho
      have hchars : o.symbol.toList = operator.toString.toList ++ c :: cs := by
        rw [hsymbol, String.toList_append, htext]
      obtain rfl := symbol_continues hspaced o hchars
      rcases hc with hc | hc
      · exact absurd hc (by decide)
      · exact absurd hc (by decide)

/-- The name begins with a letter, as that of every symbolic variable does. -/
def BeginsWithLetter (x : String) : Prop := ∃ c cs, x.toList = c :: cs ∧ c.isAlpha = true

namespace SymExpr

/-- The decimal text of a negative integer begins with its sign. -/
theorem not_beginsWithLetter_repr {n : Int} (hn : ¬ 0 ≤ n) : ¬ BeginsWithLetter n.repr := by
  rintro ⟨c, cs, htext, hc⟩
  have hsign := repr_text n
  rw [if_neg hn, htext] at hsign
  obtain rfl : c = '-' := (List.cons.inj hsign).1
  exact absurd hc (by decide)

/-- The text of a negative number is a symbol, and it is not that of a variable. -/
theorem not_free_of_negative {n : Int32} (hn : ¬ 0 ≤ n.toInt) :
    ∃ x ∈ (SymExpr.constant (.integerConstant n)).term.freeSymbols, ¬ BeginsWithLetter x := by
  refine ⟨n.toInt.repr, ?_, not_beginsWithLetter_repr hn⟩
  rw [term, if_neg hn, Term.freeSymbols]
  split
  · rename_i hconstant
    have hsign := repr_text n.toInt
    rw [if_neg hn] at hsign
    rcases hconstant with hconstant | hconstant
    · rw [hconstant] at hsign
      exact absurd (List.cons.inj hsign).1 (by decide)
    · rw [hconstant] at hsign
      exact absurd (List.cons.inj hsign).1 (by decide)
  · exact List.mem_cons_self

/-- An operator on two operands that are sound when their texts are terms of some sort. -/
theorem sound_operands {left right : SymExpr} {operator : OperatorType} {s : SmtSort}
    (hl : ∀ {a}, left.term.sortOf Γ = some a →
      (∀ x ∈ left.term.freeSymbols, BeginsWithLetter x) → left.Sound Γ ∧ left.kind Γ = some a)
    (hr : ∀ {b}, right.term.sortOf Γ = some b →
      (∀ x ∈ right.term.freeSymbols, BeginsWithLetter x) → right.Sound Γ ∧ right.kind Γ = some b)
    (hs : (operatorTerm operator left.term right.term).sortOf Γ = some s)
    (hfree : ∀ x ∈ (operatorTerm operator left.term right.term).freeSymbols,
      BeginsWithLetter x) :
    (SymExpr.operands left right operator).Sound Γ ∧
      (SymExpr.operands left right operator).kind Γ = some s := by
  have ⟨a, b, ha, hb, hmeaningful, hab⟩ := sortOf_operatorTerm.mp hs
  rw [freeSymbols_operatorTerm (operator_ne_div hmeaningful)] at hfree
  have ⟨hleft, hleftKind⟩ := hl ha fun x hx => hfree x (List.mem_append_left _ hx)
  have ⟨hright, hrightKind⟩ := hr hb fun x hx => hfree x (List.mem_append_right _ hx)
  refine ⟨⟨?_, hleft, hright⟩, ?_⟩
  · intro t ht
    obtain rfl := Option.some.inj (hleftKind.symm.trans ht)
    exact hmeaningful
  · rw [kind, hleftKind, hrightKind]
    exact hab

/-- An expression whose text is a term of some sort, with symbols that could be those of
symbolic variables, is sound, and the sort is its type. -/
theorem sound_of_sorted {e : SymExpr} : ∀ {s : SmtSort}, e.Lexical → e.term.sortOf Γ = some s →
    (∀ x ∈ e.term.freeSymbols, BeginsWithLetter x) → e.Sound Γ ∧ e.kind Γ = some s := by
  induction e with
  | null => exact fun h => h.elim
  | constant c =>
      intro s h hs hfree
      cases c with
      | booleanConstant b =>
          cases b with
          | true => exact ⟨trivial, hs⟩
          | false => exact ⟨trivial, hs⟩
      | stringLiteral t => exact ⟨trivial, hs⟩
      | integerConstant n =>
          by_cases hn : 0 ≤ n.toInt
          · rw [term, if_pos hn] at hs
            exact ⟨hn, hs⟩
          · obtain ⟨x, hx, hletter⟩ := not_free_of_negative hn
            exact absurd (hfree x hx) hletter
  | symVars x =>
      intro s h hs _
      obtain ⟨vname, _, hx⟩ := h
      rw [term, Term.sortOf, if_neg (hx ▸ symVars_ne vname)] at hs
      exact ⟨trivial, hs⟩
  | expression e ih => exact fun h hs hfree => ih h hs hfree
  | not e ih =>
      intro s h hs hfree
      obtain ⟨a, ha, hnot⟩ : ∃ a, e.term.sortOf Γ = some a ∧ SmtLib.Operator.sortOf .not [a] =
        some s :=
        Option.bind_eq_some_iff.mp (show (e.term.sortOf Γ).bind _ = some s from hs)
      have harg : (SymExpr.not e).term.freeSymbols = e.term.freeSymbols :=
        show [] ++ (e.term.freeSymbols ++ []) = _ by rw [List.nil_append, List.append_nil]
      rw [harg] at hfree
      obtain ⟨hsound, hkind⟩ := ih h ha hfree
      refine ⟨hsound, ?_⟩
      rw [kind, hkind]
      cases a with
      | bool => exact hnot
      | int => cases hnot
      | string => cases hnot
  | operands left right operator ihl ihr =>
      intro s h hs hfree
      exact sound_operands (fun ha hx => ihl h.1 ha hx) (fun hb hx => ihr h.2 hb hx) hs hfree
  | binaryExpression left right operator ihl ihr =>
      intro s h hs hfree
      by_cases hjoined : operator.spaced = true ∨ left.bare = false
      · rw [term_binaryExpression hjoined] at hs hfree
        obtain ⟨hsound, hkind⟩ :=
          sound_operands (fun ha hx => ihl h.1 ha hx) (fun hb hx => ihr h.2 hb hx) hs hfree
        exact ⟨⟨hjoined, hsound⟩, hkind⟩
      · -- The operator and the left operand are one symbol, without a meaning.
        exfalso
        have hspaced : operator.spaced = false :=
          by simpa using fun hspaced => hjoined (Or.inl hspaced)
        have hbare : left.bare = true := by simpa using fun hbare => hjoined (Or.inr hbare)
        rw [term, hspaced, hbare] at hs
        have hs : (Term.app (operator.toString ++ formula left) right.term []).sortOf Γ = some s :=
          hs
        rw [Term.sortOf, ofSymbol_joined hspaced h.1 hbare] at hs
        cases hs

end SymExpr

/-! ### Values -/

/-- The value of SMT-LIB for a constant. -/
def Constant.toSmt : Constant → Value
  | .booleanConstant b => .bool b
  | .integerConstant n => .int n.toInt
  | .stringLiteral s => .string (s.toList.map Char.toNat)

/-- The operators on unbounded integers. -/
def OperatorType.exact : OperatorType → Value → Value → Option Value
  | .plus, .int a, .int b => some (.int (a + b))
  | .mul, .int a, .int b => some (.int (a * b))
  | .sub, .int a, .int b => some (.int (a - b))
  | .div, .int a, .int b => if b = 0 then none else some (.int (a.tdiv b))
  | .ge, .int a, .int b => some (.bool (decide (a ≥ b)))
  | .gt, .int a, .int b => some (.bool (decide (a > b)))
  | .le, .int a, .int b => some (.bool (decide (a ≤ b)))
  | .lt, .int a, .int b => some (.bool (decide (a < b)))
  | .and, .bool a, .bool b => some (.bool (a && b))
  | .or, .bool a, .bool b => some (.bool (a || b))
  | .eq, a, b => if a.sort = b.sort then some (.bool (decide (a = b))) else none
  | .ne, a, b => if a.sort = b.sort then some (.bool (decide (a ≠ b))) else none
  | _, _, _ => none

/-- The value of an expression over unbounded integers. A string literal stands for the string
that SMT-LIB reads there. -/
def SymExpr.exactValue (ρ : Valuation) : SymExpr → Option Value
  | .null => none
  | .constant (.stringLiteral s) => some (.string (SmtLib.unescape s))
  | .constant c => some c.toSmt
  | .symVars x => some (ρ x).toSmt
  | .binaryExpression left right operator | .operands left right operator => do
    let a ← left.exactValue ρ
    let b ← right.exactValue ρ
    operator.exact a b
  | .expression e => e.exactValue ρ
  | .not e => do
    match ← e.exactValue ρ with
    | .bool b => some (.bool !b)
    | _ => none

theorem apply_smt {operator : OperatorType} (hne : operator ≠ .ne) (hdiv : operator ≠ .div)
    (a b : Value) :
    operator.smt.apply [a, b] = operator.exact a b := by
  cases operator with
  | ne => exact absurd rfl hne
  | div => exact absurd rfl hdiv
  | plus | mul | sub | ge | gt | le | lt | and | or => cases a <;> cases b <;> rfl
  | eq =>
      cases a <;> cases b <;>
        simp [OperatorType.smt, SmtLib.Operator.apply, OperatorType.exact, Value.sort]

theorem eval_operatorTerm {operator : OperatorType} (hdiv : operator ≠ .div) (ρ : String → Value)
    (l r : Term) : (SymExpr.operatorTerm operator l r).eval ρ =
      (l.eval ρ).bind fun a => (r.eval ρ).bind fun b => operator.exact a b := by
  have happ : ∀ o : SmtLib.Operator, (Term.app o.symbol l [r]).eval ρ =
      (l.eval ρ).bind fun a => (r.eval ρ).bind fun b => o.apply [a, b] := by
    intro o
    rw [Term.eval, SmtLib.Operator.ofSymbol_symbol]
    cases l.eval ρ with
    | none => rfl
    | some a =>
        rw [Term.evalList]
        cases r.eval ρ with
        | none => rfl
        | some b => rfl
  by_cases hne : operator = .ne
  · subst hne
    show ((Term.app SmtLib.Operator.eq.symbol l [r]).eval ρ).bind (fun v =>
      SmtLib.Operator.apply .not [v]) = _
    rw [happ .eq]
    cases l.eval ρ with
    | none => rfl
    | some a =>
        cases r.eval ρ with
        | none => rfl
        | some b =>
            cases a <;> cases b <;> simp [SmtLib.Operator.apply, OperatorType.exact, Value.sort]
  · rw [operatorTerm_eq_app hne hdiv, happ]
    simp only [apply_smt hne hdiv]

/-- The term of a sound expression has the value of the expression over unbounded integers. -/
theorem SymExpr.eval_term (ρ : Valuation) {e : SymExpr} : ∀ {k : SmtSort}, e.Lexical →
    e.kind Γ = some k → e.Sound Γ → e.term.eval (fun x => (ρ x).toSmt) = e.exactValue ρ := by
  induction e with
  | null => exact fun h => h.elim
  | constant c =>
      intro k h hk hs
      cases c with
      | booleanConstant b =>
          cases b with
          | true => rfl
          | false => rfl
      | stringLiteral s => rfl
      | integerConstant n =>
          have hn : 0 ≤ n.toInt := hs
          rw [term, if_pos hn, Term.eval, Int.toNat_of_nonneg hn]
          rfl
  | symVars x =>
      intro k h hk _
      obtain ⟨vname, _, hx⟩ := h
      have hne := symVars_ne vname
      rw [← hx, not_or] at hne
      rw [term, Term.eval, if_neg hne.1, if_neg hne.2]
      rfl
  | expression e ih => exact fun h hk hs => ih h hk hs
  | not e ih =>
      intro k h hk hs
      show (e.term.eval _).bind (fun v => SmtLib.Operator.apply .not [v]) = _
      rw [ih h (kind_not hk).1 hs, exactValue]
      cases e.exactValue ρ with
      | none => rfl
      | some v => cases v <;> rfl
  | operands left right operator ihl ihr =>
      intro k h hk hs
      obtain ⟨a, b, ha, hb, hab⟩ := kind_operands hk
      rw [term, eval_operatorTerm (operator_ne_div (hs.1 a ha)), ihl h.1 ha hs.2.1,
        ihr h.2 hb hs.2.2]
      rfl
  | binaryExpression left right operator ihl ihr =>
      intro k h hk hs
      obtain ⟨a, b, ha, hb, hab⟩ := kind_operands hk
      rw [term_binaryExpression hs.1, eval_operatorTerm (operator_ne_div (hs.2.1 a ha)),
        ihl h.1 ha hs.2.2.1, ihr h.2 hb hs.2.2.2]
      rfl

/-! ### Values in the action language -/

/-- Every symbolic variable has a value of its type. -/
def Valuation.Respects (Γ : String → SmtSort) (ρ : Valuation) : Prop := ∀ x, (ρ x).kind = Γ x

@[simp] theorem Constant.sort_toSmt (c : Constant) : c.toSmt.sort = c.kind := by
  cases c <;> rfl

/-- An operator with a meaning has a value on values of its operands' types. -/
theorem OperatorType.exact_sort {operator : OperatorType} {a b : Value} {k : SmtSort}
    (hmeaningful : operator.Meaningful a.sort) (hk : operator.kind a.sort b.sort = some k) :
    ∃ v, operator.exact a b = some v ∧ v.sort = k := by
  cases operator with
  | div => exact hmeaningful.elim
  | plus | mul | sub | ge | gt | le | lt | ne | eq | and | or =>
      cases a <;> cases b <;>
        simp_all [OperatorType.kind, OperatorType.exact, OperatorType.Meaningful, Value.sort]

namespace SymExpr

/-- A sound expression has a value of its type over unbounded integers. -/
theorem exactValue_sort {ρ : Valuation} (hρ : ρ.Respects Γ) {e : SymExpr} : ∀ {k : SmtSort},
    e.kind Γ = some k → e.Sound Γ → ∃ v, e.exactValue ρ = some v ∧ v.sort = k := by
  have hoperands : ∀ {left right : SymExpr} {operator : OperatorType} {k : SmtSort},
      (∀ {a}, left.kind Γ = some a → ∃ v, left.exactValue ρ = some v ∧ v.sort = a) →
      (∀ {b}, right.kind Γ = some b → ∃ v, right.exactValue ρ = some v ∧ v.sort = b) →
      (∀ s, left.kind Γ = some s → operator.Meaningful s) →
      (SymExpr.operands left right operator).kind Γ = some k →
        ∃ v, (SymExpr.operands left right operator).exactValue ρ = some v ∧ v.sort = k := by
    intro left right operator k hl hr hmeaningful hk
    have ⟨a, b, ha, hb, hab⟩ := kind_operands hk
    have ⟨v, hv, hva⟩ := hl ha
    have ⟨w, hw, hwb⟩ := hr hb
    have hmeaning := hmeaningful a ha
    rw [← hva] at hmeaning hab
    rw [← hwb] at hab
    have ⟨u, hu, huk⟩ := OperatorType.exact_sort hmeaning hab
    refine ⟨u, ?_, huk⟩
    rw [exactValue, hv, hw]
    exact hu
  induction e with
  | null => exact fun hk => nomatch hk
  | constant c =>
      intro k hk _
      have hck : c.kind = k := Option.some.inj hk
      cases c with
      | booleanConstant b => exact ⟨_, rfl, hck⟩
      | integerConstant n => exact ⟨_, rfl, hck⟩
      | stringLiteral s => exact ⟨_, rfl, hck⟩
  | symVars x =>
      intro k hk _
      exact ⟨_, rfl, (Constant.sort_toSmt _).trans ((hρ x).trans (Option.some.inj hk))⟩
  | expression e ih => exact fun hk hs => ih hk hs
  | not e ih =>
      intro k hk hs
      have ⟨hbool, hk⟩ := kind_not hk
      have ⟨v, hv, hsort⟩ := ih hbool hs
      cases v with
      | bool b => exact ⟨.bool !b, by rw [exactValue, hv]; rfl, hk.symm⟩
      | int z => cases hsort
      | string codes => cases hsort
  | operands left right operator ihl ihr =>
      intro k hk hs
      exact hoperands (fun ha => ihl ha hs.2.1) (fun hb => ihr hb hs.2.2) hs.1 hk
  | binaryExpression left right operator ihl ihr =>
      intro k hk hs
      exact hoperands (fun ha => ihl ha hs.2.2.1) (fun hb => ihr hb hs.2.2.2) hs.2.1 hk

/-- No operator leaves the range of the integers of 32 bits, and no string literal has a
backslash. -/
def InRange (ρ : Valuation) : SymExpr → Prop
  | .constant (.stringLiteral s) => ∀ c ∈ s.toList, c.toNat ≠ 92
  | .constant _ | .symVars _ | .null => True
  | .binaryExpression left right operator | .operands left right operator =>
    left.InRange ρ ∧ right.InRange ρ ∧
      ∀ z, (SymExpr.operands left right operator).exactValue ρ = some (.int z) → -2 ^ 31 ≤ z ∧
        z < 2 ^ 31
  | .expression e | .not e => e.InRange ρ

end SymExpr

/-- A result of 32 bits that is in range is not wrapped around. -/
theorem bmod_of_inRange {z : Int} (h : -2 ^ 31 ≤ z ∧ z < 2 ^ 31) : z.bmod (2 ^ 32) = z :=
  Int.bmod_eq_of_le (by omega) (by omega)

/-- Where the result of an operator on integers is in range, it is the result of 32 bits. -/
theorem exact_integerOperator {operator : OperatorType} {a b : Int32} {v : Constant}
    (hdiv : operator ≠ .div) (h : integerOperator operator a b = .ok (some v))
    (hrange : ∀ z, operator.exact (.int a.toInt) (.int b.toInt) = some (.int z) → -2 ^ 31 ≤ z ∧
      z < 2 ^ 31) :
    operator.exact (.int a.toInt) (.int b.toInt) = some v.toSmt := by
  have hv : ∀ {c : Constant}, (Except.ok (some c) : Except JavaException _) = .ok (some v) → c =
    v :=
    fun h => Option.some.inj (Except.ok.inj h)
  cases operator with
  | div => exact absurd rfl hdiv
  | and | or => cases h
  | plus =>
      rw [← hv h, Constant.toSmt, Int32.toInt_add, bmod_of_inRange (hrange _ rfl)]
      rfl
  | sub =>
      rw [← hv h, Constant.toSmt, Int32.toInt_sub, bmod_of_inRange (hrange _ rfl)]
      rfl
  | mul =>
      rw [← hv h, Constant.toSmt, Int32.toInt_mul, bmod_of_inRange (hrange _ rfl)]
      rfl
  | ge | gt | le | lt =>
      rw [← hv h]
      simp [OperatorType.exact, Constant.toSmt, Int32.le_iff_toInt_le, Int32.lt_iff_toInt_lt]
  | eq | ne =>
      rw [← hv h]
      simp [OperatorType.exact, Constant.toSmt, Value.sort, Int32.toInt_inj]

/-- An operator on operands that have their values over unbounded integers. Java does not look
at the right operand of `&&` and `||` when the left one decides. -/
theorem exact_applyOperator {operator : OperatorType} {lhs rhs : Option Constant} {v : Constant}
    {a b : Value} {k : SmtSort} (h : applyOperator operator lhs rhs = .ok (some v))
    (hdiv : operator ≠ .div) (hk : operator.kind a.sort b.sort = some k)
    (ha : ∀ w, lhs = some w → a = w.toSmt) (hb : ∀ w, rhs = some w → b = w.toSmt)
    (hrange : ∀ z, operator.exact a b = some (.int z) → -2 ^ 31 ≤ z ∧ z < 2 ^ 31) :
    operator.exact a b = some v.toSmt := by
  cases lhs with
  | none => cases h
  | some l =>
      obtain rfl := ha l rfl
      cases l with
      | stringLiteral s => cases h
      | booleanConstant p =>
          have hbool : ∀ q, booleanValue rhs = .ok q → b = .bool q := fun q hq =>
            hb _ (booleanValue_eq_ok hq)
          cases operator with
          | plus | mul | sub | div | ge | gt | le | lt | ne => cases h
          | eq =>
              have ⟨q, hq, h⟩ := Result.bind_eq_ok.mp h
              rw [hbool q hq, ← Option.some.inj (Except.ok.inj h)]
              simp [OperatorType.exact, Constant.toSmt, Value.sort]
          | and =>
              cases p with
              | true =>
                  have ⟨q, hq, h⟩ := Result.bind_eq_ok.mp h
                  rw [hbool q hq, ← Option.some.inj (Except.ok.inj h)]
                  rfl
              | false =>
                  rw [← Option.some.inj (Except.ok.inj h)]
                  cases b with
                  | bool q => rfl
                  | int z => cases hk
                  | string codes => cases hk
          | or =>
              cases p with
              | false =>
                  have ⟨q, hq, h⟩ := Result.bind_eq_ok.mp h
                  rw [hbool q hq, ← Option.some.inj (Except.ok.inj h)]
                  rfl
              | true =>
                  rw [← Option.some.inj (Except.ok.inj h)]
                  cases b with
                  | bool q => rfl
                  | int z => cases hk
                  | string codes => cases hk
      | integerConstant n =>
          have hint : ∀ m, integerValue rhs = .ok m → integerOperator operator n m = .ok (some v) →
              operator.exact (.int n.toInt) b = some v.toSmt := by
            intro m hm hv
            obtain rfl := hb _ (integerValue_eq_ok hm)
            exact exact_integerOperator hdiv hv hrange
          cases operator with
          | and | or => cases h
          | plus | mul | sub | div | ge | gt | le | lt | eq | ne =>
              have ⟨m, hm, hv⟩ := Result.bind_eq_ok.mp h
              exact hint m hm hv

namespace SymExpr

/-- An operator on two operands that have their values over unbounded integers. -/
theorem exact_operands {ρ : Valuation} (hρ : ρ.Respects Γ) {left right : SymExpr}
    {operator : OperatorType} {k : SmtSort} {v : Constant}
    (hl : ∀ {w}, left.value ρ = .ok (some w) → left.exactValue ρ = some w.toSmt)
    (hr : ∀ {w}, right.value ρ = .ok (some w) → right.exactValue ρ = some w.toSmt)
    (hk : (SymExpr.operands left right operator).kind Γ = some k)
    (hs : (SymExpr.operands left right operator).Sound Γ)
    (hrange : ∀ z, (SymExpr.operands left right operator).exactValue ρ = some (.int z) →
      -2 ^ 31 ≤ z ∧ z < 2 ^ 31)
    (h : (SymExpr.operands left right operator).value ρ = .ok (some v)) :
    (SymExpr.operands left right operator).exactValue ρ = some v.toSmt := by
  have ⟨a, b, ha, hb, hab⟩ := kind_operands hk
  have hdiv := operator_ne_div (hs.1 a ha)
  have ⟨lhs, hlhs, h⟩ := Result.bind_eq_ok.mp h
  have ⟨rhs, hrhs, h⟩ := Result.bind_eq_ok.mp h
  -- Over unbounded integers each operand has a value, also where `value` is `null`.
  have ⟨x, hx, hxa⟩ := exactValue_sort hρ ha hs.2.1
  have ⟨y, hy, hyb⟩ := exactValue_sort hρ hb hs.2.2
  have hexact : (SymExpr.operands left right operator).exactValue ρ = operator.exact x y := by
    rw [exactValue, hx, hy]
    rfl
  rw [hexact] at hrange ⊢
  rw [← hxa, ← hyb] at hab
  refine exact_applyOperator h hdiv hab ?_ ?_ hrange
  · intro w hw
    subst hw
    exact Option.some.inj (hx.symm.trans (hl hlhs))
  · intro w hw
    subst hw
    exact Option.some.inj (hy.symm.trans (hr hrhs))

/-- The value of a sound expression is its value over unbounded integers, where no operator
leaves the range of 32 bits. -/
theorem exact_of_inRange {ρ : Valuation} (hρ : ρ.Respects Γ) {e : SymExpr} :
    ∀ {k : SmtSort} {v : Constant},
    e.kind Γ = some k → e.Sound Γ → e.InRange ρ → e.value ρ = .ok (some v) →
      e.exactValue ρ = some v.toSmt := by
  induction e with
  | null => exact fun hk => nomatch hk
  | constant c =>
      intro k v _ _ hrange h
      obtain rfl : c = v := Option.some.inj (Except.ok.inj h)
      cases c with
      | booleanConstant b => rfl
      | integerConstant n => rfl
      | stringLiteral s =>
        exact congrArg (fun codes => some (Value.string codes)) (SmtLib.unescape_eq hrange)
  | symVars x =>
      intro k v _ _ _ h
      obtain rfl : ρ x = v := Option.some.inj (Except.ok.inj h)
      rfl
  | expression e ih => exact fun hk hs hrange h => ih hk hs hrange h
  | not e ih =>
      intro k v hk hs hrange h
      have ⟨w, hw, h⟩ := Result.bind_eq_ok.mp h
      have ⟨b, hb, h⟩ := Result.bind_eq_ok.mp h
      rw [← Option.some.inj (Except.ok.inj h), exactValue,
        ih (kind_not hk).1 hs hrange (hw.trans (congrArg Except.ok (booleanValue_eq_ok hb)))]
      rfl
  | operands left right operator ihl ihr =>
      intro k v hk hs hrange h
      have ⟨a, b, ha, hb, hab⟩ := kind_operands hk
      exact exact_operands hρ (fun hw => ihl ha hs.2.1 hrange.1 hw)
        (fun hw => ihr hb hs.2.2 hrange.2.1 hw) hk hs hrange.2.2 h
  | binaryExpression left right operator ihl ihr =>
      intro k v hk hs hrange h
      have ⟨a, b, ha, hb, hab⟩ := kind_operands hk
      exact exact_operands hρ (fun hw => ihl ha hs.2.2.1 hrange.1 hw)
        (fun hw => ihr hb hs.2.2.2 hrange.2.1 hw) hk hs.2 hrange.2.2 h

end SymExpr

end

/-! ### A comparison on a path -/

namespace SymExpr

end SymExpr

end Stabl
