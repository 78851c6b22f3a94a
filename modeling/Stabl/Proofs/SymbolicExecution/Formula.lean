import Stabl.Lib.SmtLib
import Stabl.SymbolicExecution.Solver

/-!
# `Stabl.Proofs.SymbolicExecution.Formula`: the formulas for the solver as SMT-LIB terms

`SymExpr.term` is the term that the text of `Solver.formula` is read as (`lexes_formula`,
`read_formula`). It is the expression with the operators of SMT-LIB, except where the text runs
two tokens together: the branch for a `BinaryExpression` puts no space after the operator, so
the operator and a constant or variable after it are one symbol.
-/

set_option autoImplicit false

namespace Stabl

open SmtLib (Token Term Lexes both)

/-! ### What the lexer of the action language guarantees -/

/-- An identifier: a letter, and then letters, digits and underscores. -/
def IsIdentifier (x : String) : Prop :=
  ∃ c cs, x.toList = c :: cs ∧ c.isAlpha = true ∧ ∀ d ∈ cs, d.isAlphanum = true ∨ d = '_'

/-- The operators that `formula` writes with a space after them in any case. -/
def OperatorType.spaced : OperatorType → Bool
  | .or | .and | .ne => true
  | _ => false

namespace SymExpr

/-- There is no `null` in the expression, its variables are named after identifiers, and its
string literals have no quotes inside. -/
def Lexical : SymExpr → Prop
  | .null => False
  | .constant (.stringLiteral s) => SmtLib.quote ∉ s.toList
  | .constant _ => True
  | .symVars x => ∃ vname, IsIdentifier vname ∧ x = vname ++ "_1"
  | .binaryExpression left right _ | .operands left right _ => left.Lexical ∧ right.Lexical
  | .expression e | .not e => e.Lexical

/-! ### The term of a formula -/

/-- The text is a single symbol or numeral. -/
def bare : SymExpr → Bool
  | .constant (.stringLiteral _) => false
  | .constant _ | .symVars _ => true
  | .expression e => e.bare
  | .null | .binaryExpression _ _ _ | .operands _ _ _ | .not _ => false

/-- The string literals have only characters that may stand in string literals of SMT-LIB. -/
def Printable : SymExpr → Prop
  | .constant (.stringLiteral s) => ∀ c ∈ s.toList, SmtLib.isLiteralChar c = true
  | .constant _ | .symVars _ | .null => True
  | .binaryExpression left right _ | .operands left right _ => left.Printable ∧ right.Printable
  | .expression e | .not e => e.Printable

instance decidablePrintable : (e : SymExpr) → Decidable e.Printable
  | .constant (.stringLiteral s) =>
    inferInstanceAs (Decidable (∀ c ∈ s.toList, SmtLib.isLiteralChar c = true))
  | .constant (.booleanConstant _) | .constant (.integerConstant _) | .symVars _ | .null =>
    inferInstanceAs (Decidable True)
  | .binaryExpression left right _ | .operands left right _ =>
    have := decidablePrintable left
    have := decidablePrintable right
    inferInstanceAs (Decidable (left.Printable ∧ right.Printable))
  | .expression e | .not e => decidablePrintable e

/-- The application of an operator. -/
def operatorTerm (operator : OperatorType) (left right : Term) : Term :=
  match operator with
  | .or => .app "or" left [right]
  | .and => .app "and" left [right]
  | .ne => .app "not" (.app "=" left [right]) []
  | operator => .app operator.toString left [right]

/-- The term that the formula is read as. -/
def term : SymExpr → Term
  | .constant (.booleanConstant b) => .symbol (if b then "true" else "false")
  | .constant (.integerConstant n) =>
    if 0 ≤ n.toInt then .numeral n.toInt.toNat else .symbol n.toInt.repr
  | .constant (.stringLiteral s) => .string s
  | .symVars x => .symbol x
  | .binaryExpression left right operator =>
    if !operator.spaced && left.bare then .app (operator.toString ++ formula left) right.term []
    else operatorTerm operator left.term right.term
  | .operands left right operator => operatorTerm operator left.term right.term
  | .expression e => e.term
  | .not e => .app "not" e.term []
  | .null => .symbol ""

end SymExpr

/-! ### Texts of constants and variables -/

theorem OperatorType.isSymbol {operator : OperatorType} (h : operator.spaced = false) :
    SmtLib.IsSymbol operator.toString.toList := by
  cases operator with
  | or | and | ne => cases h
  | plus | mul | sub | div | ge | gt | le | lt | eq =>
    exact SmtLib.isSymbol_cons (by decide) (by decide)

/-- The name of a symbolic variable is a symbol that begins with a letter. -/
theorem symVars_text {vname : String} (h : IsIdentifier vname) : ∃ c cs,
    (vname ++ "_1").toList = c ::
      cs ∧ c.isAlpha = true ∧ ∀ d ∈ cs, SmtLib.isSymbolChar d = true := by
  have ⟨c, cs, htext, hc, hcs⟩ := h
  refine ⟨c, cs ++ ['_', '1'], ?_, hc, ?_⟩
  · rw [String.toList_append, htext]
    rfl
  · intro d hd
    rcases List.mem_append.mp hd with hd | hd
    · rcases hcs d hd with halphanum | rfl
      · rw [SmtLib.isSymbolChar, halphanum]
        rfl
      · decide
    · rcases List.mem_cons.mp hd with rfl | hd
      · decide
      · obtain rfl := List.mem_singleton.mp hd
        decide

theorem isSymbolChar_of_isDigit {c : Char} (hc : c.isDigit = true) :
    SmtLib.isSymbolChar c = true := by
  rw [SmtLib.isSymbolChar, Char.isAlphanum, hc, Bool.or_true]
  rfl

/-- The decimal text of an integer, with its sign. -/
theorem repr_text (n : Int) : n.repr.toList =
    if 0 ≤ n then Nat.toDigits 10 n.toNat else '-' :: Nat.toDigits 10 n.natAbs := by
  cases n with
  | ofNat m => simp [Int.repr]
  | negSucc m => simp [Int.repr, String.toList_append]

/-- A constant or a variable without parentheses and quotes is all symbol characters. -/
theorem bare_text {e : SymExpr} (h : e.Lexical) (hbare : e.bare = true) : ∃ c cs,
    (formula e).toList = c :: cs ∧ (c.isAlphanum = true ∨ c = '-') ∧
      ∀ d ∈ c :: cs, SmtLib.isSymbolChar d = true := by
  induction e with
  | null => cases hbare
  | binaryExpression left right operator _ _ => cases hbare
  | operands left right operator _ _ => cases hbare
  | not e _ => cases hbare
  | expression e ih => exact ih h hbare
  | symVars x =>
      have ⟨vname, hvname, hx⟩ := h
      have ⟨c, cs, htext, hc, hcs⟩ := symVars_text hvname
      have halphanum : c.isAlphanum = true := by
        rw [Char.isAlphanum, hc]
        rfl
      refine ⟨c, cs, hx ▸ htext, Or.inl halphanum, ?_⟩
      intro d hd
      rcases List.mem_cons.mp hd with rfl | hd
      · rw [SmtLib.isSymbolChar, halphanum]
        rfl
      · exact hcs d hd
  | constant c =>
      cases c with
      | stringLiteral s => cases hbare
      | booleanConstant b =>
          cases b with
          | true => exact ⟨'t', _, rfl, by decide, List.all_eq_true.mp (by decide)⟩
          | false => exact ⟨'f', _, rfl, by decide, List.all_eq_true.mp (by decide)⟩
      | integerConstant n =>
          have htext := repr_text n.toInt
          have hdigits : ∀ m, ∀ d ∈ Nat.toDigits 10 m, d.isDigit = true := fun m d hd =>
            Nat.isDigit_of_mem_toDigits (by omega) (by omega) hd
          by_cases hn : 0 ≤ n.toInt
          · rw [if_pos hn] at htext
            cases hcs : Nat.toDigits 10 n.toInt.toNat with
            | nil => exact absurd hcs Nat.toDigits_ne_nil
            | cons c cs =>
                have hall := hdigits n.toInt.toNat
                rw [hcs] at hall
                refine ⟨c, cs, htext.trans hcs, Or.inl ?_, fun d hd =>
                  isSymbolChar_of_isDigit (hall d hd)⟩
                rw [Char.isAlphanum, hall c List.mem_cons_self, Bool.or_true]
          · rw [if_neg hn] at htext
            refine ⟨'-', _, htext, Or.inr rfl, fun d hd => ?_⟩
            rcases List.mem_cons.mp hd with rfl | hd
            · decide
            · exact isSymbolChar_of_isDigit (hdigits _ d hd)

/-! ### Texts of the formulas with parentheses and quotes -/

/-- The text for an operator that is not written as it is, with the texts of its operands. -/
def spacedText (operator : OperatorType) (left right : List Char) : List Char :=
  match operator with
  | .or => '(' :: ((' ' :: ("or".toList ++ ' ' :: (left ++ ' ' :: right))) ++ [')'])
  | .and => '(' :: ((' ' :: ("and".toList ++ ' ' :: (left ++ ' ' :: right))) ++ [')'])
  | _ =>
    '(' ::
      (("not".toList ++ '(' :: ((' ' :: ("=".toList ++ ' ' :: (left ++ ' ' :: right))) ++ [')'])) ++
        [')'])

theorem formula_binaryExpression (left right : SymExpr) (operator : OperatorType) :
    (formula (.binaryExpression left right operator)).toList =
      if operator.spaced then spacedText operator (formula left).toList (formula right).toList
      else '(' ::
        ((operator.toString.toList ++ ((formula left).toList ++ ' ' :: (formula right).toList)) ++
        [')']) := by
  cases operator <;> simp [formula, String.toList_append, OperatorType.spaced, spacedText]

theorem SymExpr.Lexical.ne_null {e : SymExpr} (h : e.Lexical) : e ≠ .null := by
  rintro rfl
  exact h

theorem formula_operands (left : SymExpr) {right : SymExpr} (h : right ≠ .null)
    (operator : OperatorType) : (formula (.operands left right operator)).toList =
      if operator.spaced then spacedText operator (formula left).toList (formula right).toList
      else '(' ::
        ((operator.toString.toList ++ ' ' ::
          ((formula left).toList ++ ' ' :: (formula right).toList)) ++ [')']) := by
  cases operator <;>
    simp [formula, String.toList_append, OperatorType.spaced, spacedText]

theorem formula_not (e : SymExpr) : (formula (.not e)).toList =
    '(' :: (("not".toList ++ ' ' :: ((formula e).toList ++ [' '])) ++ [')']) := by
  have htext : formula (.not e) = "(not" ++ " " ++ formula e ++ " " ++ ")" := rfl
  simp [htext, String.toList_append]

theorem stringLiteral_text (s : String) : (Constant.stringLiteral s).toString.toList =
    SmtLib.quote :: (s.toList ++ [SmtLib.quote]) := by
  simp only [Constant.toString, String.toList_append, List.append_assoc]
  rfl

theorem spacedText_cons (operator : OperatorType) (left right : List Char) :
    ∃ ds, spacedText operator left right = '(' :: ds := by
  cases operator <;> exact ⟨_, rfl⟩

/-- Every text that is not bare begins with a parenthesis or a quote. -/
theorem not_bare_text {e : SymExpr} (h : e.Lexical) (hbare : e.bare = false) :
    ∃ d ds, (formula e).toList = d :: ds ∧ SmtLib.isSymbolChar d = false := by
  induction e with
  | null => cases h
  | expression e ih => exact ih h hbare
  | symVars x => cases hbare
  | not e _ => exact ⟨'(', _, formula_not e, by decide⟩
  | binaryExpression left right operator _ _ =>
      rw [formula_binaryExpression]
      split
      · have ⟨ds, hds⟩ := spacedText_cons operator (formula left).toList (formula right).toList
        exact ⟨'(', ds, hds, by decide⟩
      · exact ⟨'(', _, rfl, by decide⟩
  | operands left right operator _ _ =>
      rw [formula_operands left h.2.ne_null]
      split
      · have ⟨ds, hds⟩ := spacedText_cons operator (formula left).toList (formula right).toList
        exact ⟨'(', ds, hds, by decide⟩
      · exact ⟨'(', _, rfl, by decide⟩
  | constant c =>
      cases c with
      | stringLiteral s => exact ⟨SmtLib.quote, _, stringLiteral_text s, by decide⟩
      | booleanConstant b => cases hbare
      | integerConstant n => cases hbare

/-! ### The tokens of a formula -/

theorem isSymbol_not : SmtLib.IsSymbol "not".toList := SmtLib.isSymbol_cons (by decide) (by decide)

section
variable {L R : List Char} {p q : Prop} [Decidable p] [Decidable q] {l r : Term}
variable (hl : Lexes L (if p then some l.tokens else none))
  (hr : Lexes R (if q then some r.tokens else none))
include hl hr

theorem lexes_spaced {operator : OperatorType} (h : operator.spaced = true) :
    Lexes (spacedText operator L R)
      (if p ∧ q then some (SymExpr.operatorTerm operator l r).tokens else none) := by
  have hoperands := hl.append_space hr
  rw [SmtLib.both_ite] at hoperands
  have happly : ∀ f : String, SmtLib.IsSymbol f.toList →
      Lexes ('(' :: ((' ' :: (f.toList ++ ' ' :: (L ++ ' ' :: R))) ++ [')']))
        (if p ∧ q then some (Term.app f l [r]).tokens else none) := by
    intro f hf
    have h := (((SmtLib.lexes_symbol hf).append_space hoperands).space).paren
    have happlied := SmtLib.Lexes.applied_ite f (p ∧ q) (l.tokens ++ r.tokens)
    rw [SmtLib.Lexes.applied] at happlied
    rw [happlied] at h
    simpa [SmtLib.Term.tokens, SmtLib.Term.tokensList] using h
  cases operator with
  | or => exact happly "or" (SmtLib.isSymbol_cons (by decide) (by decide))
  | and => exact happly "and" (SmtLib.isSymbol_cons (by decide) (by decide))
  | ne =>
      have h := SmtLib.Lexes.apply_directly isSymbol_not rfl (by decide)
        (happly "=" (SmtLib.isSymbol_cons (by decide) (by decide)))
      rw [SmtLib.Lexes.applied_ite] at h
      simpa [SmtLib.Term.tokens, SmtLib.Term.tokensList, SymExpr.operatorTerm, spacedText] using h
  | plus | mul | sub | div | ge | gt | le | lt | eq => cases h

end

theorem operatorTerm_eq {operator : OperatorType} (h : operator.spaced = false) (l r : Term) :
    SymExpr.operatorTerm operator l r = .app operator.toString l [r] := by
  cases operator with
  | or | and | ne => cases h
  | plus | mul | sub | div | ge | gt | le | lt | eq => rfl

theorem printable_of_bare {e : SymExpr} (h : e.bare = true) : e.Printable := by
  induction e with
  | expression e ih => exact ih h
  | symVars x => trivial
  | constant c =>
      cases c with
      | stringLiteral s => cases h
      | booleanConstant b => trivial
      | integerConstant n => trivial
  | null | not _ _ | operands _ _ _ _ _ | binaryExpression _ _ _ _ _ => cases h

/-- The text of a constant. -/
theorem lexes_constant {c : Constant} (h : (SymExpr.constant c).Lexical) :
    Lexes c.toString.toList
    (if (SymExpr.constant c).Printable then some (SymExpr.constant c).term.tokens else none) := by
  cases c with
  | booleanConstant b =>
      have hprintable : (SymExpr.constant (.booleanConstant b)).Printable := trivial
      rw [if_pos hprintable]
      cases b with
      | true => exact SmtLib.lexes_symbol (SmtLib.isSymbol_cons (by decide) (by decide))
      | false => exact SmtLib.lexes_symbol (SmtLib.isSymbol_cons (by decide) (by decide))
  | integerConstant n =>
      have htext := repr_text n.toInt
      have hprintable : (SymExpr.constant (.integerConstant n)).Printable := trivial
      rw [if_pos hprintable, SymExpr.term, Constant.toString]
      by_cases hn : 0 ≤ n.toInt
      · rw [if_pos hn] at htext ⊢
        rw [htext]
        exact SmtLib.lexes_numeral _
      · rw [if_neg hn] at htext ⊢
        refine SmtLib.lexes_symbol ⟨'-', _, htext, by decide, fun d hd => ?_⟩
        exact isSymbolChar_of_isDigit (Nat.isDigit_of_mem_toDigits (by omega) (by omega) hd)
  | stringLiteral s =>
      rw [stringLiteral_text]
      have hstring := SmtLib.lexes_string (show SmtLib.quote ∉ s.toList from h)
      rw [String.ofList_toList] at hstring
      exact hstring

/-- The text of a formula has the tokens of the term, unless a string literal in it has none. -/
theorem lexes_formula {e : SymExpr} (h : e.Lexical) :
    Lexes (formula e).toList (if e.Printable then some e.term.tokens else none) := by
  induction e with
  | null => cases h
  | expression e ih => exact ih h
  | constant c => exact lexes_constant h
  | symVars x =>
      have ⟨vname, hvname, hx⟩ := h
      have ⟨c, cs, htext, hc, hcs⟩ := symVars_text hvname
      have hprintable : (SymExpr.symVars x).Printable := trivial
      rw [if_pos hprintable]
      exact SmtLib.lexes_symbol ⟨c, cs, hx ▸ htext, SmtLib.start_of_isAlpha hc, hcs⟩
  | not e ih =>
      have hnot := SmtLib.Lexes.apply isSymbol_not (ih h).trailing_space
      rw [SmtLib.Lexes.applied_ite] at hnot
      rw [formula_not]
      simpa [SmtLib.Term.tokens, SmtLib.Term.tokensList, SymExpr.term, SymExpr.Printable] using hnot
  | operands left right operator ihl ihr =>
      rw [formula_operands left h.2.ne_null]
      cases hspaced : operator.spaced with
      | true => exact lexes_spaced (ihl h.1) (ihr h.2) hspaced
      | false =>
          have happlied := SmtLib.Lexes.apply (OperatorType.isSymbol hspaced)
            ((ihl h.1).append_space (ihr h.2))
          rw [SmtLib.both_ite, SmtLib.Lexes.applied_ite] at happlied
          rw [SymExpr.term, operatorTerm_eq hspaced]
          simpa [SmtLib.Term.tokens, SmtLib.Term.tokensList, SymExpr.Printable] using happlied
  | binaryExpression left right operator ihl ihr =>
      rw [formula_binaryExpression]
      cases hspaced : operator.spaced with
      | true =>
          rw [SymExpr.term, hspaced]
          exact lexes_spaced (ihl h.1) (ihr h.2) hspaced
      | false =>
          rw [SymExpr.term, hspaced, if_neg Bool.false_ne_true]
          cases hbare : left.bare with
          | true =>
              -- The operator and the text of the left operand are one symbol.
              have hjoined : SmtLib.IsSymbol (operator.toString ++ formula left).toList := by
                have ⟨c, cs, hoperator, hc, hcs⟩ := OperatorType.isSymbol hspaced
                have ⟨d, ds, htext, _, hds⟩ := bare_text h.1 hbare
                refine ⟨c, cs ++ d :: ds,
                  by rw [String.toList_append, hoperator, htext]; rfl, hc, ?_⟩
                intro e he
                rcases List.mem_append.mp he with he | he
                · exact hcs e he
                · exact hds e he
              have happlied := SmtLib.Lexes.apply hjoined (ihr h.2)
              rw [SmtLib.Lexes.applied_ite, String.toList_append, List.append_assoc] at happlied
              simpa [SmtLib.Term.tokens, SmtLib.Term.tokensList, SymExpr.Printable,
                printable_of_bare hbare]
                using happlied
          | false =>
              have ⟨d, ds, htext, hd⟩ := not_bare_text h.1 hbare
              have hoperands := (ihl h.1).append_space (ihr h.2)
              have happlied := SmtLib.Lexes.apply_directly (OperatorType.isSymbol hspaced)
                (by rw [htext]; rfl) hd hoperands
              rw [SmtLib.both_ite, SmtLib.Lexes.applied_ite] at happlied
              rw [operatorTerm_eq hspaced]
              simpa [SmtLib.Term.tokens, SmtLib.Term.tokensList, SymExpr.Printable] using happlied

end Stabl
