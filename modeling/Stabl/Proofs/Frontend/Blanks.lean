import Stabl.Proofs.Frontend.Lexemes

/-!
# `Stabl.Proofs.Frontend.Blanks`: blanks between the tokens of an expression

The tokens of an expression are written one after another, with a blank between two of them or
without one. A token is a lexeme before a blank, and before every token that it does not glue to
(`reads_token`). In an expression no two operators stand side by side, and so only a sign and the
literal 0 can glue: the macro `intconst` has a sign before 0, and before no other number. That is
the rest of `blanks_iff`.
-/

set_option autoImplicit false

namespace Stabl.Lexer

open Regex MaximalMunch

/-! ### Tokens and their texts -/

/-- The tokens of expressions without names of several components and without arguments after a
comma. The symbol `AND` has two texts, and `and` is the longer one. -/
inductive ExprSym where
  | identifier (id : Identifier)
  | intconst (n : Nat) (hn : n < 2 ^ 31)
  | boolconst (b : Bool)
  | lparen
  | rparen
  | operator (o : OperatorType)
  | ampersand

namespace ExprSym

/-- The text of an operator. -/
def operatorText : OperatorType → String
  | .plus => "+"
  | .mul => "*"
  | .sub => "-"
  | .div => "/"
  | .ge => ">="
  | .gt => ">"
  | .le => "<="
  | .lt => "<"
  | .ne => "!="
  | .eq => "="
  | .and => "&&"
  | .or => "||"

/-- The symbol of an operator. -/
def operatorSym : OperatorType → Sym
  | .plus => .add
  | .mul => .mul
  | .sub => .sub
  | .div => .div
  | .ge => .ge
  | .gt => .gt
  | .le => .le
  | .lt => .lt
  | .ne => .ne
  | .eq => .eq
  | .and => .and
  | .or => .or

/-- The text of a token. -/
def text : ExprSym → List Char
  | identifier id => id.text.toList
  | intconst n _ => Nat.toDigits 10 n
  | boolconst true => "true".toList
  | boolconst false => "false".toList
  | lparen => ['(']
  | rparen => [')']
  | operator o => (operatorText o).toList
  | ampersand => ['&']

/-- The symbol that the lexer should return. -/
def sym : ExprSym → Sym
  | identifier id => .identifier id.text
  | intconst n _ => .intconst (Int32.ofNat n)
  | boolconst true => .true
  | boolconst false => .false
  | lparen => .lparen
  | rparen => .rparen
  | operator o => operatorSym o
  | ampersand => .and

/-- A word or a number. -/
def isWord : ExprSym → Bool
  | identifier _ | intconst _ _ | boolconst _ => true
  | lparen | rparen | operator _ | ampersand => false

/-- A binary operator. -/
def isOperator : ExprSym → Bool
  | operator _ | ampersand => true
  | identifier _ | intconst _ _ | boolconst _ | lparen | rparen => false

/-- `+` or `-`. -/
def isSign : ExprSym → Bool
  | operator o => o = .plus || o = .sub
  | identifier _ | intconst _ _ | boolconst _ | lparen | rparen | ampersand => false

/-- The literal 0. -/
def isZero : ExprSym → Bool
  | intconst n _ => n = 0
  | identifier _ | boolconst _ | lparen | rparen | operator _ | ampersand => false

end ExprSym

/-- The productions of `expr` that need no other tokens. -/
inductive IsExpr : List ExprSym → Prop where
  | name (id : Identifier) : IsExpr [.identifier id]
  | boolconst (b : Bool) : IsExpr [.boolconst b]
  | intconst (n : Nat) (hn : n < 2 ^ 31) : IsExpr [.intconst n hn]
  | parentheses {e : List ExprSym} (he : IsExpr e) : IsExpr (.lparen :: (e ++ [.rparen]))
  | binop {e1 e2 : List ExprSym} {op : ExprSym} (he1 : IsExpr e1) (hop : op.isOperator = true)
    (he2 : IsExpr e2) : IsExpr (e1 ++ op :: e2)
  | emptyCall (id : Identifier) : IsExpr [.identifier id, .lparen, .rparen]
  | call (id : Identifier) {e : List ExprSym} (he : IsExpr e) :
    IsExpr (.identifier id :: .lparen :: (e ++ [.rparen]))

/-- The tokens one after another, with blanks between those that `blank` says. -/
def written (blank : ExprSym → ExprSym → Bool) : List ExprSym → List Char
  | [] => []
  | [t] => t.text
  | t :: u :: ts => t.text ++ ((if blank t u then [' '] else []) ++ written blank (u :: ts))

/-- A blank between every two tokens. -/
def spaced : List ExprSym → List Char := written fun _ _ => true

/-- Blanks only between words and numbers. -/
def compact : List ExprSym → List Char := written fun t u => t.isWord && u.isWord

/-! ### One token -/

/-- Only the number 0 is written with a zero in front. -/
theorem head_toDigits {n : Nat} (hn : n ≠ 0) : (Nat.toDigits 10 n).head? ≠ some '0' := by
  induction n using Nat.strongRecOn with
  | ind n ih =>
      by_cases hlt : n < 10
      · have hdigits : ∀ d < 10, d ≠ 0 → (Nat.digitChar d) ≠ '0' := by decide
        rw [Nat.toDigits_of_lt_base hlt]
        simpa using hdigits n hlt hn
      · have hdiv := ih (n / 10) (by omega) (by omega)
        rw [Nat.toDigits_of_base_le (by decide) (by omega),
          List.head?_append_of_ne_nil _ Nat.toDigits_ne_nil]
        exact hdiv

theorem isDigit_toDigits {n : Nat} {c : Char} (hc : c ∈ Nat.toDigits 10 n) : c.isDigit = true :=
  Nat.isDigit_of_mem_toDigits (by decide) (by decide) hc

/-- The digits of a number are an `intconst`. -/
theorem toDigits_mem_intconst (n : Nat) : Nat.toDigits 10 n ∈ intconst.language := by
  rw [mem_intconst]
  by_cases hn : n = 0
  · exact Or.inl (by rw [hn, Nat.toDigits_zero])
  · obtain ⟨c, y, hdigits⟩ := List.exists_cons_of_ne_nil (Nat.toDigits_ne_nil (n := n) (b := 10))
    have hall : ∀ d ∈ c :: y, d.isDigit = true := fun d hd => isDigit_toDigits (hdigits ▸ hd)
    have hhead := head_toDigits hn
    rw [hdigits] at hhead ⊢
    exact Or.inr (Or.inr (Or.inr ⟨c, y, rfl, hall c List.mem_cons_self, by simpa using hhead,
      fun d hd => hall d (List.mem_cons_of_mem c hd)⟩))

/-- `Integer.parseInt` reads the digits of an `int`. -/
theorem parseInt_toDigits {n : Nat} (hn : n < 2 ^ 31) :
    parseInt (Nat.toDigits 10 n) = some (Int32.ofNat n) := by
  have hall : (Nat.toDigits 10 n).all Char.isDigit = true :=
    List.all_eq_true.mpr fun c hc => isDigit_toDigits hc
  obtain ⟨c, y, hdigits⟩ := List.exists_cons_of_ne_nil (Nat.toDigits_ne_nil (n := n) (b := 10))
  have hc : c.isDigit = true := isDigit_toDigits (hdigits ▸ List.mem_cons_self)
  have hvalue : Nat.ofDigitChars 10 (c :: y) 0 = n := by
    rw [← hdigits, Nat.ofDigitChars_ten_toDigits]
  have hparse : parseInt (c :: y) = parseDigits 1 (c :: y) := by
    rw [parseInt]
    · rintro digits h
      rw [(List.cons.inj h).1] at hc
      cases hc
    · rintro digits h
      rw [(List.cons.inj h).1] at hc
      cases hc
  have hbounds : ¬ ((1 : Int) * n < -2 ^ 31 ∨ 2 ^ 31 ≤ (1 : Int) * n) := by omega
  rw [hdigits] at hall ⊢
  rw [hparse, parseDigits, hvalue, hall]
  simp only [List.cons_ne_nil, Bool.not_true, Bool.false_eq_true, false_or, hbounds, if_false]
  rw [Int.one_mul, Int32.ofInt_eq_ofNat]

/-- A text that begins with a digit is matched by no rule before `intconst`. -/
theorem firstRule_intconst {x : List Char} (hx : x ∈ intconst.language)
    (hdigit : ∀ c ∈ x.head?, c.isDigit = true) : firstRule initialRules x = some .intconst := by
  have hliterals : ∀ r ∈ literalRules, ¬ r.1.toList.head?.all Char.isDigit = true := by decide
  have hne : x ≠ [] := by
    rintro rfl
    simp [mem_intconst] at hx
  obtain ⟨c, y, rfl⟩ := List.exists_cons_of_ne_nil hne
  have hc : c.isDigit = true := hdigit c rfl
  have hother : firstRule initialRules (c :: y) = firstRule otherRules (c :: y) :=
    firstRule_of_no_literal (P := fun x => x.head?.all Char.isDigit = true) hliterals (by simpa)
  have hidentifier : identifier.accepts (c :: y) = false := by
    rw [Bool.eq_false_iff, ne_eq, accepts_iff, mem_identifier, isIdentifier, Bool.and_eq_true]
    rintro ⟨halpha, _⟩
    rw [isAlpha_of_isDigit hc] at halpha
    cases halpha
  rw [hother, firstRule, otherRules, List.findSome?_cons, hidentifier, List.findSome?_cons,
    (accepts_iff _ _).mpr hx]
  rfl

/-- The lexeme of a token and the rule for it. -/
theorem firstRule_text (t : ExprSym) : ∃ a, firstRule initialRules t.text = some a ∧
    act .yyinitial a t.text = .ok (some t.sym, .yyinitial) := by
  cases t with
  | identifier id =>
      have hliterals : ∀ r ∈ literalRules, r.1 ∈ keywords ∨ isIdentifier r.1.toList = false := by
        decide
      have hnot : id.text.toList ∉ literalRules.map fun r => r.1.toList := by
        intro hmem
        obtain ⟨r, hr, heq⟩ := List.mem_map.mp hmem
        rcases hliterals r hr with hkeyword | hidentifier
        · rw [String.toList_inj.mp heq] at hkeyword
          exact id.notKeyword hkeyword
        · rw [heq, id.wellFormed] at hidentifier
          cases hidentifier
      refine ⟨.identifier, ?_, ?_⟩
      · have haccepts := (accepts_iff _ _).mpr ((mem_identifier _).mpr id.wellFormed)
        rw [ExprSym.text, firstRule_not_literal hnot, firstRule, otherRules, List.findSome?_cons,
          haccepts]
        rfl
      · simp [act, ExprSym.text, ExprSym.sym]
  | intconst n hn =>
      refine ⟨.intconst, firstRule_intconst (toDigits_mem_intconst n) fun c hc => ?_, ?_⟩
      · exact isDigit_toDigits (List.mem_of_mem_head? hc)
      · rw [ExprSym.text, act, parseInt_toDigits hn]
        rfl
  | boolconst b => cases b <;> exact ⟨_, firstRule_literal rfl, rfl⟩
  | lparen => exact ⟨_, firstRule_literal rfl, rfl⟩
  | rparen => exact ⟨_, firstRule_literal rfl, rfl⟩
  | operator o => cases o <;> exact ⟨_, firstRule_literal rfl, rfl⟩
  | ampersand => exact ⟨_, firstRule_literal rfl, rfl⟩

theorem text_ne_nil (t : ExprSym) : t.text ≠ [] := by
  cases t with
  | identifier id =>
      intro h
      have hid := id.wellFormed
      rw [show id.text.toList = [] from h] at hid
      cases hid
  | intconst n hn => exact Nat.toDigits_ne_nil
  | boolconst b => cases b <;> exact List.cons_ne_nil _ _
  | operator o => cases o <;> exact List.cons_ne_nil _ _
  | lparen | rparen | ampersand => exact List.cons_ne_nil _ _

/-- Words consist of word characters. -/
theorem wordChar_of_isWord {t : ExprSym} (ht : t.isWord = true) :
    ∀ c ∈ t.text, wordChar c = true := by
  cases t with
  | identifier id => exact wordChar_of_isIdentifier id.wellFormed
  | intconst n hn => exact fun c hc => wordChar_of_isDigit (isDigit_toDigits hc)
  | boolconst b => cases b <;> simp [ExprSym.text, wordChar]
  | lparen | rparen | operator | ampersand => cases ht

/-- Tokens that are no words have no word characters. -/
theorem wordChar_of_not_isWord {t : ExprSym} (ht : t.isWord = false) :
    ∀ c ∈ t.text, wordChar c = false := by
  cases t with
  | identifier | intconst | boolconst => cases ht
  | lparen | rparen | ampersand => simp [ExprSym.text, wordChar]
  | operator o => cases o <;> simp [ExprSym.text, ExprSym.operatorText, wordChar]

/-- The only word that begins with a zero is the literal 0. -/
theorem isZero_of_head {t : ExprSym} (ht : '0' ∈ t.text.head?) : t.isZero = true := by
  cases t with
  | identifier id =>
      have hid := id.wellFormed
      cases hcs : id.text.toList with
      | nil =>
          rw [ExprSym.text, hcs] at ht
          cases ht
      | cons c cs =>
          rw [ExprSym.text, hcs] at ht
          obtain rfl : c = '0' := by simpa using ht
          rw [hcs, isIdentifier, Bool.and_eq_true] at hid
          cases hid.1
  | intconst n hn =>
      by_contra hzero
      exact head_toDigits (by simpa [ExprSym.isZero] using hzero) ht
  | boolconst b => cases b <;> simp [ExprSym.text] at ht
  | lparen | rparen | ampersand => simp [ExprSym.text] at ht
  | operator o => cases o <;> simp [ExprSym.text, ExprSym.operatorText] at ht

/-- Behind a character of an operator, among those that an operand begins or ends with, only 0
glues, to a sign. -/
theorem eq_zero_of_glues {b c : Char} (hb : wordChar b = false)
    (hc : wordChar c = true ∨ c = '(' ∨ c = ')') (hglue : glues b c = true) :
    c = '0' ∧ (b = '+' ∨ b = '-') := by
  have hpairs : ∀ p ∈ [(':', '='), ('!', '='), ('<', '|'), ('|', '>'), ('>', '='), ('<', '='),
      ('&', '&'), ('|', '|'), ('+', '0'), ('-', '0')],
      (wordChar p.2 = true ∨ p.2 = '(' ∨ p.2 = ')') → p.2 = '0' ∧ (p.1 = '+' ∨ p.1 = '-') := by
    decide
  rw [glues, hb, Bool.false_and, Bool.false_or, decide_eq_true_eq] at hglue
  exact hpairs _ hglue hc

/-- The tokens stay apart when they are written without a blank. -/
def Apart (t u : ExprSym) : Prop :=
  (∀ b ∈ t.text.getLast?, ∀ c ∈ u.text.head?, glues b c = false) ∧
    ¬ (t.text = ['/'] ∧ ∃ c ∈ u.text.head?, c = '*' ∨ c = '/')

/-- Only an operator can begin a comment, with another operator. -/
theorem operator_of_beginsComment {t : ExprSym} {v : List Char} (h : BeginsComment (t.text ++ v)) :
    t.text = ['/'] ∧ ∃ c ∈ v.head?, c = '*' ∨ c = '/' := by
  obtain ⟨d, w, hd, htext⟩ : ∃ d w, (d = '*' ∨ d = '/') ∧ t.text ++ v = '/' :: d :: w := by
    rcases h with ⟨w, hw⟩ | ⟨w, hw⟩
    · exact ⟨'*', w, Or.inl rfl, hw.symm⟩
    · exact ⟨'/', w, Or.inr rfl, hw.symm⟩
  obtain ⟨c, y, hcy⟩ := List.exists_cons_of_ne_nil (text_ne_nil t)
  rw [hcy, List.cons_append, List.cons.injEq] at htext
  obtain ⟨rfl, htext⟩ := htext
  cases t with
  | identifier | intconst | boolconst =>
      have hslash := wordChar_of_isWord rfl '/' (hcy ▸ List.mem_cons_self)
      cases hslash
  | lparen | rparen | ampersand => cases hcy
  | operator o =>
      cases o with
      | div =>
          obtain rfl : [] = y := (List.cons.inj hcy).2
          exact ⟨rfl, d, by simp [show v = d :: w from htext], hd⟩
      | plus | mul | sub | ge | gt | le | lt | ne | eq | and | or => cases hcy

/-- The first character of a token that is no operator. -/
theorem head_of_not_isOperator {t : ExprSym} (ht : t.isOperator = false) {c : Char}
    (hc : c ∈ t.text.head?) : wordChar c = true ∨ c = '(' ∨ c = ')' := by
  cases t with
  | identifier | intconst | boolconst =>
      exact Or.inl (wordChar_of_isWord rfl c (List.mem_of_mem_head? hc))
  | lparen => exact Or.inr (Or.inl (by simpa [ExprSym.text, eq_comm] using hc))
  | rparen => exact Or.inr (Or.inr (by simpa [ExprSym.text, eq_comm] using hc))
  | operator | ampersand => cases ht

theorem isSign_of_last {t : ExprSym} (ht : t.isOperator = true) {b : Char}
    (hb : b ∈ t.text.getLast?) (hsign : b = '+' ∨ b = '-') : t.isSign = true := by
  cases t with
  | identifier | intconst | boolconst | lparen | rparen => cases ht
  | ampersand =>
      obtain rfl : '&' = b := by simpa [ExprSym.text] using hb
      revert hsign
      decide
  | operator o =>
      have hlast : (ExprSym.operatorText o).toList.getLast? = some b := hb
      revert hlast
      rcases hsign with rfl | rfl <;> cases o <;> decide

/-- Tokens stay apart unless they are two words, two operators, or a sign and the literal 0. -/
theorem apart {t u : ExprSym} (hword : (t.isWord && u.isWord) = false)
    (hoperator : t.isOperator = true → u.isOperator = false)
    (hjoin : ¬ (t.isSign = true ∧ u.isZero = true)) : Apart t u := by
  constructor
  · intro b hb c hc
    have hbmem := List.mem_of_mem_getLast? hb
    have hcmem := List.mem_of_mem_head? hc
    cases ht : t.isWord with
    | true =>
        rw [ht, Bool.true_and] at hword
        exact glues_of_wordChar (wordChar_of_isWord ht b hbmem)
          (wordChar_of_not_isWord hword c hcmem)
    | false =>
        have hbword := wordChar_of_not_isWord ht b hbmem
        cases hop : t.isOperator with
        | true =>
            by_contra hglue
            have hglue : glues b c = true := by simpa using hglue
            obtain ⟨rfl, hsign⟩ :=
              eq_zero_of_glues hbword (head_of_not_isOperator (hoperator hop) hc) hglue
            exact hjoin ⟨isSign_of_last hop hb hsign, isZero_of_head hc⟩
        | false =>
            cases t with
            | identifier | intconst | boolconst => cases ht
            | operator | ampersand => cases hop
            | lparen =>
                obtain rfl : '(' = b := by simpa [ExprSym.text] using hb
                simp [glues, wordChar]
            | rparen =>
                obtain rfl : ')' = b := by simpa [ExprSym.text] using hb
                simp [glues, wordChar]
  · rintro ⟨htext, c, hc, hsecond⟩
    have hop : t.isOperator = true := by
      cases t with
      | operator | ampersand => rfl
      | lparen | rparen => cases htext
      | identifier | intconst | boolconst =>
          have hslash := wordChar_of_isWord rfl '/' (htext ▸ List.mem_cons_self)
          cases hslash
    have hfirst := head_of_not_isOperator (hoperator hop) hc
    rcases hsecond with rfl | rfl <;> revert hfirst <;> decide

/-! ### Texts of tokens -/

/-- A token is read before a text that does not go on with it. -/
theorem reads_token (t : ExprSym) {v : List Char}
    (hglue : ∀ b ∈ t.text.getLast?, ∀ c ∈ v.head?, glues b c = false)
    (hcomment : ¬ BeginsComment (t.text ++ v)) :
    scanner.Reads v .yyinitial t.text [t.sym] .yyinitial := by
  obtain ⟨a, hrule, hact⟩ := firstRule_text t
  have hlexeme := isLexeme_of_not_glued (text_ne_nil t) hrule hglue hcomment
  exact Scanner.Reads.lexeme (S := scanner) (t := some t.sym) hlexeme hact

/-- A token is read before a blank. -/
theorem reads_token_blank (t : ExprSym) (v : List Char) :
    scanner.Reads (' ' :: v) .yyinitial t.text [t.sym] .yyinitial := by
  refine reads_token t (fun b _ c hc => ?_) fun hcomment => ?_
  · obtain rfl : ' ' = c := by simpa using hc
    exact glues_blank b
  · obtain ⟨_, c, hc, hsecond⟩ := operator_of_beginsComment hcomment
    obtain rfl : ' ' = c := by simpa using hc
    revert hsecond
    decide

theorem head_written (blank : ExprSym → ExprSym → Bool) (t : ExprSym) (ts : List ExprSym) :
    (written blank (t :: ts)).head? = t.text.head? := by
  cases ts with
  | nil => rfl
  | cons u ts => rw [written, List.head?_append_of_ne_nil _ (text_ne_nil t)]

/-- A token is read before a token that it stays apart from. -/
theorem reads_token_apart {t u : ExprSym} (h : Apart t u) (blank : ExprSym → ExprSym → Bool)
    (ts : List ExprSym) :
    scanner.Reads (written blank (u :: ts)) .yyinitial t.text [t.sym] .yyinitial := by
  refine reads_token t ?_ fun hcomment => h.2 ?_
  · rw [head_written]
    exact h.1
  · rw [← head_written blank u ts]
    exact operator_of_beginsComment hcomment

/-- Where a blank stands between two tokens, or the tokens stay apart without it, the lexer returns
the first one and goes on with the second one. -/
theorem lex_written_cons {blank : ExprSym → ExprSym → Bool} {t u : ExprSym}
    (h : blank t u = true ∨ Apart t u) (ts : List ExprSym) :
    lex (written blank (t :: u :: ts)) =
      (t.sym :: (lex (written blank (u :: ts))).1, (lex (written blank (u :: ts))).2) := by
  rw [written]
  by_cases hblank : blank t u = true
  · rw [if_pos hblank, List.singleton_append]
    have htoken := Scanner.lex_of_reads (reads_token_blank t (written blank (u :: ts)))
    have hgap := Scanner.lex_of_reads (reads_blank (written blank (u :: ts)))
    rw [List.singleton_append] at hgap
    rw [lex, htoken, hgap]
    rfl
  · rw [if_neg hblank, List.nil_append]
    exact Scanner.lex_of_reads (reads_token_apart (h.resolve_left hblank) blank ts)

/-- One token. -/
theorem lex_token (t : ExprSym) : lex t.text = ([t.sym], none) := by
  have hread : scanner.Reads [] .yyinitial t.text [t.sym] .yyinitial := by
    refine reads_token t (fun _ _ _ hc => by cases hc) fun hcomment => ?_
    obtain ⟨_, c, hc, _⟩ := operator_of_beginsComment hcomment
    cases hc
  have hlex := Scanner.lex_of_reads hread
  rwa [List.append_nil, Scanner.lex_nil, List.append_nil] at hlex

/-- Where the tokens without a blank between them stay apart, the lexer returns the tokens. -/
theorem lex_written {blank : ExprSym → ExprSym → Bool} {ts : List ExprSym}
    (h : ts.IsChain fun t u => blank t u = true ∨ Apart t u) :
    lex (written blank ts) = (ts.map ExprSym.sym, none) := by
  induction h with
  | nil => rfl
  | singleton t => exact lex_token t
  | cons_cons htu _ ih =>
      rw [lex_written_cons htu, ih]
      rfl

/-! ### Expressions -/

/-- No two operators stand side by side, and there is none at the beginning or at the end. -/
structure Separated (e : List ExprSym) : Prop where
  nonempty : e ≠ []
  head : ∀ t ∈ e.head?, t.isOperator = false
  last : ∀ t ∈ e.getLast?, t.isOperator = false
  chain : e.IsChain fun t u => t.isOperator = true → u.isOperator = false

theorem separated_singleton {t : ExprSym} (ht : t.isOperator = false) : Separated [t] where
  nonempty := List.cons_ne_nil _ _
  head := by simpa using ht
  last := by simpa using ht
  chain := .singleton t

theorem Separated.append {e1 e2 : List ExprSym} (h1 : Separated e1) (h2 : Separated e2) :
    Separated (e1 ++ e2) where
  nonempty := List.append_ne_nil_of_left_ne_nil h1.nonempty e2
  head := by
    rw [List.head?_append_of_ne_nil _ h1.nonempty]
    exact h1.head
  last := by
    rw [List.getLast?_append_of_ne_nil _ h2.nonempty]
    exact h2.last
  chain := h1.chain.append h2.chain fun _ _ u hu _ => h2.head u hu

theorem Separated.binop {e1 e2 : List ExprSym} (op : ExprSym) (h1 : Separated e1)
    (h2 : Separated e2) : Separated (e1 ++ op :: e2) where
  nonempty := List.append_ne_nil_of_left_ne_nil h1.nonempty _
  head := by
    rw [List.head?_append_of_ne_nil _ h1.nonempty]
    exact h1.head
  last := by
    rw [List.getLast?_append_of_ne_nil _ (List.cons_ne_nil _ _),
      List.getLast?_cons_of_ne_nil h2.nonempty]
    exact h2.last
  chain := by
    refine h1.chain.append (List.isChain_cons.mpr ⟨fun u hu _ => h2.head u hu, h2.chain⟩) ?_
    intro t ht u _ hop
    rw [h1.last t ht] at hop
    cases hop

/-- In an expression operators stand between operands. -/
theorem IsExpr.separated {e : List ExprSym} (h : IsExpr e) : Separated e := by
  have hparentheses : ∀ {e : List ExprSym}, Separated e →
      Separated (.lparen :: (e ++ [.rparen])) := fun he =>
    (separated_singleton rfl).append (he.append (separated_singleton rfl))
  induction h with
  | name | boolconst | intconst => exact separated_singleton rfl
  | parentheses _ ih => exact hparentheses ih
  | binop _ _ _ ih1 ih2 => exact ih1.binop _ ih2
  | emptyCall id =>
      exact (separated_singleton rfl).append
        ((separated_singleton rfl).append (separated_singleton rfl))
  | call id _ ih => exact (separated_singleton rfl).append (hparentheses ih)

/-- A sign and the literal 0. -/
def SignedZero (t u : ExprSym) : Prop := t.isSign = true ∧ u.isZero = true

instance (t u : ExprSym) : Decidable (SignedZero t u) := by
  unfold SignedZero
  infer_instance

/-- Without blanks, a word is followed by a character that is no word character. -/
theorem compact_word {u : ExprSym} (hu : u.isWord = true) (ts : List ExprSym) :
    ∃ v, compact (u :: ts) = u.text ++ v ∧ ∀ c ∈ v.head?, wordChar c = false := by
  cases ts with
  | nil => exact ⟨[], (List.append_nil _).symm, by simp⟩
  | cons t ts =>
      refine ⟨_, rfl, fun c hc => ?_⟩
      cases ht : t.isWord with
      | true =>
          obtain rfl : ' ' = c := by simpa [hu, ht] using hc
          rfl
      | false =>
          have hhead : c ∈ t.text.head? := by
            rw [← head_written (fun t u => t.isWord && u.isWord) t ts]
            simpa [hu, ht] using hc
          exact wordChar_of_not_isWord ht c (List.mem_of_mem_head? hhead)

/-- Directly before the literal 0, a sign is no lexeme: it belongs to the number. -/
theorem lex_signedZero {t u : ExprSym} (h : SignedZero t u) (ts : List ExprSym) :
    (lex (compact (t :: u :: ts))).1.head? = some (.intconst 0) := by
  obtain ⟨ht, hu⟩ := h
  have hword : u.isWord = true ∧ u.text = ['0'] := by
    cases u with
    | intconst n hn =>
        obtain rfl : n = 0 := by simpa [ExprSym.isZero] using hu
        exact ⟨rfl, rfl⟩
    | identifier | boolconst | lparen | rparen | operator | ampersand => cases hu
  obtain ⟨v, hv, hhead⟩ := compact_word hword.1 ts
  obtain ⟨s, hs, hsign⟩ : ∃ s, t.text = [s] ∧ (s = '+' ∨ s = '-') := by
    cases t with
    | operator o =>
        cases o with
        | plus => exact ⟨'+', rfl, Or.inl rfl⟩
        | sub => exact ⟨'-', rfl, Or.inr rfl⟩
        | mul | div | ge | gt | le | lt | ne | eq | and | or => cases ht
    | identifier | intconst | boolconst | lparen | rparen | ampersand => cases ht
  have htext : compact (t :: u :: ts) = [s, '0'] ++ v := by
    have hnot : t.isWord = false := by
      cases t with
      | operator => rfl
      | identifier | intconst | boolconst | lparen | rparen | ampersand => cases ht
    show t.text ++ ((if (t.isWord && u.isWord) = true then [' '] else []) ++ compact (u :: ts)) = _
    rw [hnot, hv, hs, hword.2]
    rfl
  have hread : scanner.Reads v .yyinitial [s, '0'] [.intconst 0] .yyinitial := by
    have hlexeme : IsLexeme (firstRule initialRules) .intconst [s, '0'] v := by
      refine isLexeme_of_not_glued (List.cons_ne_nil _ _) ?_ ?_ ?_
      · rcases hsign with rfl | rfl
        · rw [firstRule_not_literal (by decide)]
          decide
        · rw [firstRule_not_literal (by decide)]
          decide
      · intro b hb c hc
        obtain rfl : '0' = b := by simpa using hb
        exact glues_of_wordChar rfl (hhead c hc)
      · rcases hsign with rfl | rfl <;> rintro (⟨w, hw⟩ | ⟨w, hw⟩) <;> simp at hw
    refine Scanner.Reads.lexeme (S := scanner) (t := some (.intconst 0)) hlexeme ?_
    rcases hsign with rfl | rfl <;> rfl
  rw [htext, lex, Scanner.lex_of_reads hread]
  rfl

/-- The lexer returns the tokens, with all blanks and with the necessary ones only. -/
structure BlanksOptional (ts : List ExprSym) : Prop where
  spaced : lex (spaced ts) = (ts.map ExprSym.sym, none)
  compact : lex (compact ts) = (ts.map ExprSym.sym, none)

/-- With the necessary blanks, the lexer returns the tokens just when no sign stands directly before
the literal 0. -/
theorem lex_compact_iff {ts : List ExprSym}
    (h : ts.IsChain fun t u => t.isOperator = true → u.isOperator = false) :
    lex (compact ts) = (ts.map ExprSym.sym, none) ↔ ts.IsChain fun t u => ¬ SignedZero t u := by
  induction h with
  | nil => exact iff_of_true rfl .nil
  | singleton t => exact iff_of_true (lex_token t) (.singleton t)
  | @cons_cons t u ts htu _ ih =>
      rw [List.isChain_cons_cons]
      by_cases hzero : SignedZero t u
      · -- The first token is then a number, and an operator is none.
        refine iff_of_false (fun hlex => ?_) fun hnot => hnot.1 hzero
        have hhead := lex_signedZero hzero ts
        rw [hlex] at hhead
        have hsym : t.sym = .intconst 0 := Option.some.inj hhead
        obtain ⟨ht, _⟩ := hzero
        cases t with
        | operator o => cases o <;> cases hsym
        | identifier | intconst | boolconst | lparen | rparen | ampersand => cases ht
      · have hapart : (t.isWord && u.isWord) = true ∨ Apart t u := by
          by_cases hword : (t.isWord && u.isWord) = true
          · exact Or.inl hword
          · exact Or.inr (apart (by simpa using hword) htu hzero)
        have hcons : lex (compact (t :: u :: ts)) =
            (t.sym :: (lex (compact (u :: ts))).1, (lex (compact (u :: ts))).2) :=
          lex_written_cons hapart ts
        rw [and_iff_right hzero, ← ih, hcons]
        simp only [Prod.ext_iff, List.map_cons, List.cons.injEq, true_and]

/-- Blanks do not matter in an expression just when no sign stands directly before the literal
0. -/
theorem blanksOptional_iff {ts : List ExprSym} (h : IsExpr ts) :
    BlanksOptional ts ↔ ts.IsChain fun t u => ¬ SignedZero t u := by
  rw [← lex_compact_iff h.separated.chain]
  refine ⟨fun hblanks => hblanks.compact, fun hcompact => ⟨?_, hcompact⟩⟩
  exact lex_written (List.pairwise_of_forall fun _ _ => Or.inl rfl).isChain

/-- `level + 1`, and what the lexer returns for its text without blanks. -/
theorem blanksOptional_sum : BlanksOptional [.identifier ⟨"level", by decide, by decide⟩,
    .operator .plus, .intconst 1 (by decide)] := by
  have hexpr : IsExpr ([.identifier ⟨"level", by decide, by decide⟩] ++ .operator .plus ::
      [.intconst 1 (by decide)]) := .binop (.name _) rfl (.intconst 1 _)
  exact (blanksOptional_iff hexpr).mpr (by decide)

/-- `level + 0` -/
def levelPlusZero : List ExprSym :=
  [.identifier ⟨"level", by decide, by decide⟩, .operator .plus, .intconst 0 (by decide)]

set_option maxRecDepth 4000 in
/-- Without its blanks, `level + 0` is read as a name and a number. -/
theorem levelPlusZero_not_blanksOptional : IsExpr levelPlusZero ∧
    lex (compact levelPlusZero) = ([.identifier "level", .intconst 0], none) ∧
    ¬ BlanksOptional levelPlusZero := by
  refine ⟨.binop (.name _) rfl (.intconst 0 _), by decide, fun h => ?_⟩
  exact absurd ((lex_compact_iff (by decide)).mp h.compact) (by decide)

end Stabl.Lexer
