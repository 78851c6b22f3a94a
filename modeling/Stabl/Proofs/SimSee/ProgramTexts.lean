import Stabl.Proofs.SimSee.Printing
import Stabl.Proofs.SimSee.ProgramParser
import Stabl.SimSee.ProgramLexer

/-!
# `Stabl.Proofs.SimSee.ProgramTexts`: the texts of programs

A lexeme does not reach into blanks (`firstScanRule_mixed`), so tokens with blanks between their
texts come back from the lexer (`lexProgram_spaced`). What `readProg` makes of a text depends on
the tokens of the program at its beginning only.

* `readProg_programText`: a program is read back from its text, with any text behind it.
* `exists_readProg_iff`: the programs that can be read are those with identifiers that the lexer
  can produce and without negative integers.
* `readProg_eq_error_iff`: an error is at the first token with which no program goes on.
-/

set_option autoImplicit false

namespace Stabl.SimSee

open Regex MaximalMunch

/-! ### The rules -/

/-- The rules for one text each. -/
def literals : List (String × ProgramToken) :=
  [("(", ⟨.lparen, ()⟩), (")", ⟨.rparen, ()⟩), ("\x7b", ⟨.lbrace, ()⟩), ("\x7d", ⟨.rbrace, ()⟩),
    (":=", ⟨.assign, ()⟩), (":", ⟨.colon, ()⟩), (";", ⟨.semicolon, ()⟩), ("-", ⟨.subtract, ()⟩),
    ("+", ⟨.add, ()⟩), ("=", ⟨.eq, ()⟩), ("if", ⟨.if, ()⟩), ("then", ⟨.then, ()⟩),
    ("else", ⟨.else, ()⟩), ("true", ⟨.boolean, true⟩), ("false", ⟨.boolean, false⟩),
    ("and", ⟨.and, ()⟩), ("or", ⟨.or, ()⟩), ("not", ⟨.not, ()⟩), ("boolean", ⟨.type, Typ.boolean⟩),
    ("int", ⟨.type, Typ.integer⟩), ("input_boolean", ⟨.input, Typ.boolean⟩),
    ("input_int", ⟨.input, Typ.integer⟩), (",", ⟨.comma, ()⟩)]

/-- What a rule can be. -/
inductive IsScanRule : Regex Char × LexAction → Prop where
  | blank : IsScanRule (plus (cls isBlank), .skip)
  | literal {s : String} {t : ProgramToken} (h : (s, t) ∈ literals) : IsScanRule (literalRule s t)
  | integer : IsScanRule (integerRegex, .integer)
  | id : IsScanRule (idRegex, .id)

theorem isScanRule_of_mem : ∀ r ∈ scanRules, IsScanRule r := by
  have hliteral : ∀ l ∈ literals, IsScanRule (literalRule l.1 l.2) := fun _ h => .literal h
  simp only [literals, List.forall_mem_cons] at hliteral
  simp only [scanRules, List.forall_mem_cons]
  simp only [hliteral, IsScanRule.blank, IsScanRule.integer, IsScanRule.id, true_and]
  exact List.forall_mem_nil _

section
variable {x : List Char}

theorem mem_blanks : x ∈ (plus (cls isBlank)).language ↔ x ≠ [] ∧ ∀ c ∈ x, isBlank c = true := by
  cases x <;> simp [plus]

theorem mem_integerRegex : x ∈ integerRegex.language ↔ x ≠ [] ∧ ∀ c ∈ x, c.isDigit = true := by
  cases x <;> simp [integerRegex]

theorem mem_idRegex : x ∈ idRegex.language ↔ ∃ c cs, x = c :: cs ∧ isLetter c = true ∧
    ∀ d ∈ cs, (isLetter d || d.isDigit) = true := by
  cases x <;> simp [idRegex]

theorem firstScanRule_eq_none (h : ∀ r, IsScanRule r → x ∉ r.1.language) :
    firstScanRule x = none := by
  rw [firstScanRule, List.findSome?_eq_none_iff]
  intro r hr
  rw [if_neg (mt (accepts_iff r.1 x).mp (h r (isScanRule_of_mem r hr)))]

theorem exists_scanRule {a : LexAction} (h : firstScanRule x = some a) :
    ∃ r, IsScanRule r ∧ x ∈ r.1.language ∧ r.2 = a := by
  obtain ⟨r, hr, hrule⟩ := List.exists_of_findSome?_eq_some h
  split at hrule
  · rename_i haccepts
    exact ⟨r, isScanRule_of_mem r hr, (accepts_iff r.1 x).mp haccepts, Option.some.inj hrule⟩
  · cases hrule

/-- The first rule that matches, after some that do not. -/
theorem firstScanRule_eq (before after : List (Regex Char × LexAction))
    {r : Regex Char × LexAction} (hrules : scanRules = before ++ r :: after)
    (hbefore : ∀ r ∈ before, x ∉ r.1.language) (hx : x ∈ r.1.language) :
    firstScanRule x = some r.2 := by
  have hnone : before.findSome? (fun r => if r.1.accepts x then some r.2 else none) = none := by
    rw [List.findSome?_eq_none_iff]
    intro r hr
    rw [if_neg (mt (accepts_iff r.1 x).mp (hbefore r hr))]
  rw [firstScanRule, hrules, List.findSome?_append, hnone, List.findSome?_cons,
    if_pos ((accepts_iff r.1 x).mpr hx)]
  rfl

theorem firstScanRule_literal :
    ∀ l ∈ literals, firstScanRule l.1.toList = some (.token l.2) := by
  simp only [literals, List.forall_mem_cons]
  refine ⟨rfl, rfl, rfl, rfl, rfl, rfl, rfl, rfl, rfl, rfl, rfl, rfl, rfl, rfl, rfl, rfl, rfl, rfl,
    rfl, rfl, rfl, rfl, rfl, List.forall_mem_nil _⟩

theorem not_isBlank {c : Char} (h : (isLetter c || c.isDigit) = true) : isBlank c = false := by
  rw [Bool.eq_false_iff]
  intro hblank
  simp only [isBlank, Bool.or_eq_true, decide_eq_true_eq] at hblank
  rcases hblank with (rfl | rfl) | rfl <;> revert h <;> decide

theorem literals_not_isBlank : ∀ l ∈ literals, ∀ c ∈ l.1.toList, isBlank c = false := by
  have h : (literals.all fun l => l.1.toList.all fun c => !isBlank c) = true := by decide
  simpa only [List.all_eq_true, Bool.not_eq_true'] using h

/-- The characters of a match are all blank, or none of them is. -/
theorem unmixed_of_isScanRule {r : Regex Char × LexAction} (hr : IsScanRule r)
    (hx : x ∈ r.1.language) : (∀ c ∈ x, isBlank c = true) ∨ ∀ c ∈ x, isBlank c = false := by
  cases hr with
  | blank => exact Or.inl (mem_blanks.mp hx).2
  | literal h =>
      obtain rfl := mem_literal.mp hx
      exact Or.inr (literals_not_isBlank _ h)
  | integer =>
      have hdigits := (mem_integerRegex.mp hx).2
      exact Or.inr fun c hc => not_isBlank (by rw [hdigits c hc, Bool.or_true])
  | id =>
      obtain ⟨c, cs, rfl, hc, hcs⟩ := mem_idRegex.mp hx
      refine Or.inr fun d hd => not_isBlank ?_
      rcases List.mem_cons.mp hd with rfl | hd
      · rw [hc, Bool.true_or]
      · exact hcs d hd

/-- No lexeme reaches from other characters into blanks, or from blanks into others. -/
theorem firstScanRule_mixed {c d : Char} (hc : c ∈ x) (hd : d ∈ x) (hblank : isBlank c = true)
    (hother : isBlank d = false) : firstScanRule x = none := by
  refine firstScanRule_eq_none fun r hr hx => ?_
  rcases unmixed_of_isScanRule hr hx with hall | hnone
  · cases (hall d hd).symm.trans hother
  · cases (hnone c hc).symm.trans hblank

theorem firstScanRule_blanks (hne : x ≠ []) (h : ∀ c ∈ x, isBlank c = true) :
    firstScanRule x = some .skip :=
  firstScanRule_eq [] scanRules.tail (r := (plus (cls isBlank), .skip)) rfl (List.forall_mem_nil _)
    (mem_blanks.mpr ⟨hne, h⟩)

/-- An identifier is none of the words that other rules match. -/
theorem firstScanRule_id {vname : String} (h : lexesAsId vname = true) :
    firstScanRule vname.toList = some .id := by
  have hliterals : ∀ l ∈ literals, lexesAsId l.1 = false := by decide
  obtain ⟨c, cs, htext, hc, hall, _⟩ := lexesAsId_cases h
  have hliteral : ∀ l ∈ literals, vname.toList ∉ (literalRule l.1 l.2).1.language := by
    intro l hl hmem
    obtain rfl := String.toList_inj.mp (mem_literal.mp hmem)
    cases (hliterals l hl).symm.trans h
  have hblank : vname.toList ∉ (plus (cls isBlank)).language := by
    rw [mem_blanks, htext]
    intro ⟨_, hblanks⟩
    have hc' := not_isBlank (c := c) (by rw [hc, Bool.true_or])
    cases (hblanks c List.mem_cons_self).symm.trans hc'
  have hinteger : vname.toList ∉ integerRegex.language := by
    rw [mem_integerRegex, htext]
    intro ⟨_, hdigits⟩
    have hc' := not_isLetter_of_numeral (Or.inl (hdigits c List.mem_cons_self))
    cases hc.symm.trans hc'
  have hid : vname.toList ∈ idRegex.language := by
    rw [htext] at hall ⊢
    exact mem_idRegex.mpr ⟨c, cs, rfl, hc, fun d hd => hall d (List.mem_cons_of_mem c hd)⟩
  refine firstScanRule_eq (scanRules.take 24) (scanRules.drop 25) (r := (idRegex, .id)) rfl ?_ hid
  simp only [literals, List.forall_mem_cons] at hliteral
  simp only [scanRules, List.take_succ_cons, List.take_zero, List.forall_mem_cons]
  simp only [hliteral, hblank, hinteger, not_false_eq_true, true_and]
  exact List.forall_mem_nil _

theorem firstScanRule_integer (hne : x ≠ []) (h : ∀ c ∈ x, c.isDigit = true) :
    firstScanRule x = some .integer := by
  have hliterals : ∀ l ∈ literals, ∃ c ∈ l.1.toList, c.isDigit = false := by
    have h : (literals.all fun l => l.1.toList.any fun c => !c.isDigit) = true := by decide
    simpa only [List.all_eq_true, List.any_eq_true, Bool.not_eq_true'] using h
  have hliteral : ∀ l ∈ literals, x ∉ (literalRule l.1 l.2).1.language := by
    intro l hl hmem
    obtain rfl := mem_literal.mp hmem
    obtain ⟨c, hc, hdigit⟩ := hliterals l hl
    cases (h c hc).symm.trans hdigit
  have hblank : x ∉ (plus (cls isBlank)).language := by
    rw [mem_blanks]
    intro ⟨_, hblanks⟩
    obtain ⟨c, hc⟩ := List.exists_mem_of_ne_nil x hne
    have hc' := not_isBlank (c := c) (by rw [h c hc, Bool.or_true])
    cases (hblanks c hc).symm.trans hc'
  refine firstScanRule_eq (scanRules.take 11) (scanRules.drop 12) (r := (integerRegex, .integer))
    rfl ?_ (mem_integerRegex.mpr ⟨hne, h⟩)
  simp only [literals, List.forall_mem_cons] at hliteral
  simp only [scanRules, List.take_succ_cons, List.take_zero, List.forall_mem_cons]
  simp only [hliteral, hblank, not_false_eq_true, true_and]
  exact List.forall_mem_nil _

end

/-! ### Tokens and their texts -/

/-- The texts of a token. An integer can have leading zeros. -/
inductive TokenText : ProgramToken → List Char → Prop where
  | literal {s : String} {t : ProgramToken} (h : (s, t) ∈ literals) : TokenText t s.toList
  | id {vname : String} (h : lexesAsId vname = true) : TokenText ⟨.id, vname⟩ vname.toList
  | integer {digits : List Char} {n : BitVec 63} (hne : digits ≠ [])
    (h : ∀ c ∈ digits, c.isDigit = true) (hn : intOfString digits = some n) :
    TokenText ⟨.integer, n⟩ digits

/-- The lexer gives the token for its text. -/
theorem TokenText.scan {t : ProgramToken} {x : List Char} (h : TokenText t x) :
    ∃ a, firstScanRule x = some a ∧ scanAct a x = .ok (some t) := by
  cases h with
  | literal h => exact ⟨_, firstScanRule_literal _ h, rfl⟩
  | id h => exact ⟨_, firstScanRule_id h, by simp [scanAct]⟩
  | integer hne h hn => exact ⟨_, firstScanRule_integer hne h, by simp [scanAct, hn]⟩

/-- It gives no other tokens. -/
theorem tokenText_of_scan {t : ProgramToken} {x : List Char} {a : LexAction}
    (h : firstScanRule x = some a) (hact : scanAct a x = .ok (some t)) : TokenText t x := by
  obtain ⟨r, hr, hx, rfl⟩ := exists_scanRule h
  cases hr with
  | blank => cases hact
  | literal hmem =>
      cases hact
      obtain rfl := mem_literal.mp hx
      exact .literal hmem
  | integer =>
      obtain ⟨hne, hdigits⟩ := mem_integerRegex.mp hx
      simp only [scanAct] at hact
      split at hact
      · rename_i n hn
        cases hact
        exact .integer hne hdigits hn
      · cases hact
  | id =>
      obtain ⟨vname, rfl⟩ : ∃ vname : String, x = vname.toList := ⟨String.ofList x, by simp⟩
      simp only [scanAct, String.ofList_toList] at hact
      cases hact
      obtain ⟨c, cs, htext, hc, hcs⟩ := mem_idRegex.mp hx
      have hreserved : vname ∉ reservedWords := by
        have hliterals : ∀ w ∈ reservedWords, w ∈ literals.map Prod.fst := by decide
        intro hw
        obtain ⟨l, hl, rfl⟩ := List.mem_map.mp (hliterals vname hw)
        -- The rule for the word comes before the one for identifiers.
        cases (firstScanRule_literal l hl).symm.trans h
      refine .id ?_
      have hall : (cs.all fun d => isLetter d || d.isDigit) = true := List.all_eq_true.mpr hcs
      simp [lexesAsId, htext, hc, hall, hreserved]

theorem TokenText.ne_nil {t : ProgramToken} {x : List Char} (h : TokenText t x) : x ≠ [] := by
  cases h with
  | literal h =>
      have hliterals : ∀ l ∈ literals, l.1.toList ≠ [] := by decide
      exact hliterals _ h
  | id h =>
      obtain ⟨c, cs, htext, _⟩ := lexesAsId_cases h
      rw [htext]
      exact List.cons_ne_nil c cs
  | integer hne => exact hne

theorem TokenText.not_isBlank {t : ProgramToken} {x : List Char} (h : TokenText t x) :
    ∀ c ∈ x, isBlank c = false := by
  cases h with
  | literal h =>
      exact literals_not_isBlank _ h
  | id h =>
      obtain ⟨_, _, _, _, hall, _⟩ := lexesAsId_cases h
      exact fun c hc => SimSee.not_isBlank (hall c hc)
  | integer _ h =>
      exact fun c hc => SimSee.not_isBlank (by rw [h c hc, Bool.or_true])

/-! ### Lexemes -/

/-- A token ends before a blank. -/
theorem lexProgram_token {t : ProgramToken} {x : List Char} (h : TokenText t x) {b : Char}
    (hb : isBlank b = true) (rest : List Char) :
    lexProgram (x ++ b :: rest) =
      (t :: (lexProgram (b :: rest)).1, (lexProgram (b :: rest)).2) := by
  obtain ⟨a, hrule, hact⟩ := h.scan
  have hlexeme : IsLexeme firstScanRule a x (b :: rest) := by
    refine ⟨h.ne_nil, hrule, fun y hy hprefix => ?_⟩
    obtain ⟨c, hc⟩ := List.exists_mem_of_ne_nil x h.ne_nil
    have hby : b ∈ y := by
      cases y with
      | nil => exact absurd rfl hy
      | cons d y =>
          obtain rfl := (List.cons_prefix_cons.mp hprefix).1
          exact List.mem_cons_self
    exact firstScanRule_mixed (List.mem_append_right x hby) (List.mem_append_left y hc) hb
      (h.not_isBlank c hc)
  have hlex := Scanner.lex_lexeme (S := programScanner) (s := ()) hlexeme
  simpa [lexProgram, programScanner, hact, Except.map] using hlex

/-- Blanks are one lexeme, up to the next character that is none. -/
theorem isLexeme_blanks {x rest : List Char} (hne : x ≠ []) (hx : ∀ c ∈ x, isBlank c = true)
    (hrest : ∀ c ∈ rest.head?, isBlank c = false) :
    IsLexeme firstScanRule .skip x rest := by
  refine ⟨hne, firstScanRule_blanks hne hx, fun y hy hprefix => ?_⟩
  obtain ⟨b, hb⟩ := List.exists_mem_of_ne_nil x hne
  cases y with
  | nil => exact absurd rfl hy
  | cons d y =>
      have hd : isBlank d = false := by
        cases rest with
        | nil => cases List.prefix_nil.mp hprefix
        | cons c rest =>
            obtain rfl := (List.cons_prefix_cons.mp hprefix).1
            exact hrest d rfl
      exact firstScanRule_mixed (List.mem_append_left _ hb)
        (List.mem_append_right _ List.mem_cons_self) (hx b hb) hd

/-- Blanks do not matter. -/
theorem lexProgram_blank {b : Char} (hb : isBlank b = true) (rest : List Char) :
    lexProgram (b :: rest) = lexProgram rest := by
  have hskip : ∀ {x rest : List Char}, x ≠ [] → (∀ c ∈ x, isBlank c = true) →
      (∀ c ∈ rest.head?, isBlank c = false) → lexProgram (x ++ rest) = lexProgram rest := by
    intro x rest hne hx hrest
    have hlex := Scanner.lex_lexeme (S := programScanner) (s := ()) (isLexeme_blanks hne hx hrest)
    simpa [lexProgram, programScanner, scanAct, Except.map] using hlex
  -- The blanks at the beginning of the rest belong to the same lexeme.
  have hhead : ∀ c ∈ (rest.dropWhile isBlank).head?, isBlank c = false := by
    intro c hc
    have hdrop := List.head?_dropWhile_not isBlank rest
    rw [Option.mem_def.mp hc] at hdrop
    exact hdrop
  have hblanks : ∀ c ∈ rest.takeWhile isBlank, isBlank c = true :=
    List.all_eq_true.mp List.all_takeWhile
  have hall : ∀ c ∈ b :: rest.takeWhile isBlank, isBlank c = true :=
    List.forall_mem_cons.mpr ⟨hb, hblanks⟩
  have hsplit := hskip (List.cons_ne_nil b _) hall hhead
  rw [List.cons_append, List.takeWhile_append_dropWhile] at hsplit
  rw [hsplit]
  by_cases hne : rest.takeWhile isBlank = []
  · have hrest := List.takeWhile_append_dropWhile (p := isBlank) (l := rest)
    rw [hne, List.nil_append] at hrest
    rw [hrest]
  · have hskip' := hskip hne hblanks hhead
    rw [List.takeWhile_append_dropWhile] at hskip'
    exact hskip'.symm

theorem lexProgram_blanks {blanks : List Char} (hblanks : ∀ c ∈ blanks, isBlank c = true)
    (rest : List Char) : lexProgram (blanks ++ rest) = lexProgram rest := by
  induction blanks with
  | nil => rfl
  | cons b blanks ih =>
      rw [List.forall_mem_cons] at hblanks
      rw [List.cons_append, lexProgram_blank hblanks.1]
      exact ih hblanks.2

/-- Texts of tokens with blanks behind each of them. -/
inductive Spaced : List ProgramToken → List Char → Prop where
  | nil : Spaced [] []
  | cons {t : ProgramToken} {ts : List ProgramToken} {x blanks text : List Char}
    (hx : TokenText t x) (hne : blanks ≠ []) (hblanks : ∀ c ∈ blanks, isBlank c = true)
    (h : Spaced ts text) : Spaced (t :: ts) (x ++ blanks ++ text)

/-- The tokens of a text come back. -/
theorem lexProgram_spaced {ts : List ProgramToken} {text : List Char} (h : Spaced ts text)
    (rest : List Char) : lexProgram (text ++ rest) =
      (ts ++ (lexProgram rest).1, (lexProgram rest).2) := by
  induction h with
  | nil => rfl
  | @cons t ts x blanks text hx hne hblanks _ ih =>
      cases blanks with
      | nil => exact absurd rfl hne
      | cons b blanks =>
          have hb := (List.forall_mem_cons.mp hblanks).1
          have htoken := lexProgram_token hx hb (blanks ++ text ++ rest)
          have hskip := lexProgram_blanks hblanks (text ++ rest)
          rw [ih, List.cons_append, ← List.append_assoc] at hskip
          simp only [List.append_assoc, List.cons_append] at htoken hskip ⊢
          rw [htoken, hskip]

/-- The tokens of a text have texts. -/
theorem tokenText_of_mem {text : List Char} :
    ∀ t ∈ (lexProgram text).1, ∃ x, TokenText t x := by
  refine Scanner.forall_mem_lex (fun _ a x t _ hrule hact => ⟨x, ?_⟩) () text
  have hscan : scanAct a x = .ok (some t) := by
    simp only [programScanner] at hact
    cases hresult : scanAct a x with
    | error e => simp [hresult, Except.map] at hact
    | ok r => simp_all [Except.map]
  exact tokenText_of_scan hrule hscan

/-! ### Reading -/

theorem readProg_eq_ok {text : List Char} {p : Program}
    (h : table.result (parseTokens (parserInput text)) = some p) : readProg text = .ok p := by
  simp only [readProg, h]

theorem result_of_readProg {text : List Char} {p : Program} (h : readProg text = .ok p) :
    table.result (parseTokens (parserInput text)) = some p := by
  cases hresult : table.result (parseTokens (parserInput text)) with
  | none =>
      simp only [readProg, hresult] at h
      split at h
      · rename_i heq
        cases heq
      · cases h
      · cases h
  | some p' =>
      simp only [readProg, hresult] at h
      exact congrArg some (Except.ok.inj h)

theorem parserInput_of_end {text : List Char} (h : (lexProgram text).2 = none) :
    parserInput text = (lexProgram text).1 ++ [⟨.eof, ()⟩] := by
  rw [parserInput]
  split
  · rename_i tokens hlex
    rw [hlex]
  · rename_i tokens message hlex
    rw [hlex] at h
    cases h

theorem parserInput_of_failure {text : List Char} {message : String}
    (h : (lexProgram text).2 = some message) : parserInput text = (lexProgram text).1 := by
  rw [parserInput]
  split
  · rename_i tokens hlex
    rw [hlex] at h
    cases h
  · rename_i tokens message' hlex
    rw [hlex]

/-- The parser gets the tokens of the text, and then the end if the lexer gets there. -/
theorem parserInput_cases (text : List Char) :
    parserInput text = (lexProgram text).1 ∨
      parserInput text = (lexProgram text).1 ++ [⟨.eof, ()⟩] := by
  cases h : (lexProgram text).2 with
  | none => exact Or.inr (parserInput_of_end h)
  | some message => exact Or.inl (parserInput_of_failure h)

theorem prefix_parserInput (text : List Char) : (lexProgram text).1 <+: parserInput text := by
  rcases parserInput_cases text with h | h
  · rw [h]
  · rw [h]
    exact List.prefix_append _ _

/-- A program is read from every text whose tokens begin with its own. -/
theorem readProg_of_written {text : List Char} {p : Program} {u : List ProgramToken}
    (h : WrittenProgram p u) (htext : u <+: (lexProgram text).1) : readProg text = .ok p := by
  obtain ⟨rest, hrest⟩ := htext.trans (prefix_parserInput text)
  refine readProg_eq_ok ?_
  rw [← hrest, parseTokens_of_written h rest]
  exact result_accepted p rest

theorem readProg_of_spaced {p : Program} {u : List ProgramToken} {text : List Char}
    (h : WrittenProgram p u) (htext : Spaced u text) (rest : List Char) :
    readProg (text ++ rest) = .ok p := by
  refine readProg_of_written h ?_
  rw [lexProgram_spaced htext]
  exact List.prefix_append u _

/-! ### Programs that can be read -/

/-- The identifiers are some that the lexer can produce, and the integers are not negative. -/
def Expr.Readable : Expr → Prop
  | .id vname => lexesAsId vname = true
  | .intConst n => n.toNat < 2 ^ 62
  | .boolConst _ | .input _ => True
  | .not e => e.Readable
  | .add e1 e2 | .sub e1 e2 | .or e1 e2 | .and e1 e2 | .equals e1 e2 => e1.Readable ∧ e2.Readable

mutual

def Stmt.Readable : Stmt → Prop
  | .assignment vname e => lexesAsId vname = true ∧ e.Readable
  | .ifStmt b s1 s2 => b.Readable ∧ s1.Readable ∧ s2.Readable
  | .block ss => StmtsReadable ss

def StmtsReadable : List Stmt → Prop
  | [] => True
  | s :: ss => s.Readable ∧ StmtsReadable ss

end

def DeclsReadable (ds : List (String × Typ)) : Prop := ∀ d ∈ ds, lexesAsId d.1 = true

structure Program.Readable (p : Program) : Prop where
  decls : DeclsReadable p.decls
  statement : p.statement.Readable

theorem stmtsReadable_iff {ss : List Stmt} : StmtsReadable ss ↔ ∀ s ∈ ss, s.Readable := by
  induction ss with
  | nil => simp [StmtsReadable]
  | cons s ss ih => rw [StmtsReadable, ih, List.forall_mem_cons]

/-- The same for the values of the symbols of the grammar. -/
def ReadableValue : (X : Symbol Terminal Nonterminal) → SymbolValue X → Prop
  | .terminal .id, vname => lexesAsId vname = true
  | .terminal .integer, n => BitVec.toNat n < 2 ^ 62
  | .terminal _, _ => True
  | .nonterminal .prog, p => Program.Readable p
  | .nonterminal .decls, ds | .nonterminal .nonemptydecls, ds => DeclsReadable ds
  | .nonterminal .decl, d => DeclsReadable [d]
  | .nonterminal .stmts, ss | .nonterminal .nonemptystmts, ss => StmtsReadable ss
  | .nonterminal .stmt, s => Stmt.Readable s
  | .nonterminal .expr, e => Expr.Readable e

theorem readableValue_action (p : Production) (args : p.rhs.TProd SymbolValue)
    (h : ShiftReduce.Grammar.Derives.AllArgs (G := grammar) ReadableValue p.rhs args) :
    ReadableValue (.nonterminal p.lhs) (p.action args) := by
  cases p with
  | prog => exact ⟨h.1, h.2.1⟩
  | decls => exact fun d hd => h.2.1 d (List.mem_reverse.mp hd)
  | noDecls => exact fun d hd => absurd hd List.not_mem_nil
  | moreDecls => exact List.forall_mem_cons.mpr ⟨h.2.1 _ List.mem_cons_self, h.1⟩
  | oneDecl => exact h.1
  | decl => exact List.forall_mem_singleton.mpr h.2.1
  | stmts =>
      refine stmtsReadable_iff.mpr fun s hs => ?_
      exact stmtsReadable_iff.mp h.1 s (List.mem_reverse.mp hs)
  | noStmts => exact trivial
  | moreStmts => exact ⟨h.2.1, h.1⟩
  | oneStmt => exact ⟨h.1, trivial⟩
  | assignment => exact ⟨h.1, h.2.2.1⟩
  | ifStmt => exact ⟨h.2.1, h.2.2.2.1, h.2.2.2.2.2.1⟩
  | block => exact h.2.1
  | id | integer => exact h.1
  | boolean | input => exact trivial
  | add | subtract | and | or | eq => exact ⟨h.1, h.2.2.1⟩
  | not | parentheses => exact h.2.1

theorem TokenText.readableValue {t : ProgramToken} {x : List Char} (h : TokenText t x) :
    ReadableValue (.terminal t.1) t.2 := by
  cases h with
  | literal h =>
      have hliterals : ∀ l ∈ literals, ReadableValue (.terminal l.2.1) l.2.2 := by
        simp [literals, ReadableValue]
      exact hliterals _ h
  | id h => exact h
  | @integer _ n _ _ hn =>
      simp only [intOfString] at hn
      split at hn
      · rename_i hlt
        cases hn
        show (BitVec.ofNat 63 _).toNat < 2 ^ 62
        rw [BitVec.toNat_ofNat]
        omega
      · cases hn

/-- What is read has readable names and integers. -/
theorem readable_of_readProg {text : List Char} {p : Program} (h : readProg text = .ok p) :
    p.Readable := by
  obtain ⟨u, htokens, hderives⟩ :=
    table_checked.derives_of_result (reaches_parseTokens _) (result_of_readProg h)
  have htoken : ∀ t ∈ u, ReadableValue (.terminal t.1) t.2 := by
    intro t ht
    have hmem : t ∈ parserInput text := by
      rw [htokens]
      exact List.mem_append_left _ ht
    have hcases : t ∈ (lexProgram text).1 ∨ t = ⟨.eof, ()⟩ := by
      rcases parserInput_cases text with h | h
      · exact Or.inl (by rwa [h] at hmem)
      · simpa [h] using hmem
    rcases hcases with hlexed | rfl
    · obtain ⟨x, hx⟩ := tokenText_of_mem t hlexed
      exact hx.readableValue
    · exact trivial
  exact (hderives.allArgs readableValue_action htoken).1

/-! ### The text of a program -/

mutual

/-- The tokens of a statement, with every operator in parentheses. -/
def Stmt.tokens : Stmt → List ProgramToken
  | .assignment vname e =>
    ⟨.id, vname⟩ :: ⟨.assign, ()⟩ :: (exprTokens e).map ExprToken.programToken ++
      [⟨.semicolon, ()⟩]
  | .ifStmt b s1 s2 =>
    ⟨.if, ()⟩ :: (exprTokens b).map ExprToken.programToken ++ ⟨.then, ()⟩ :: s1.tokens ++
      ⟨.else, ()⟩ :: s2.tokens
  | .block ss => ⟨.lbrace, ()⟩ :: stmtsTokens ss ++ [⟨.rbrace, ()⟩]

def stmtsTokens : List Stmt → List ProgramToken
  | [] => []
  | s :: ss => s.tokens ++ stmtsTokens ss

end

def Program.tokens (p : Program) : List ProgramToken := declsTokens p.decls ++ p.statement.tokens

mutual

theorem written_tokens : ∀ s : Stmt, Written [s] s.tokens
  | .assignment vname e => .assignment vname (parsesExpr_exprTokens e) .nil
  | .ifStmt b s1 s2 => by
    have h := Written.ifStmt (parsesExpr_exprTokens b) (written_tokens s1) (written_tokens s2) .nil
    rwa [List.append_nil] at h
  | .block ss => .block (written_stmtsTokens ss) .nil

theorem written_stmtsTokens : ∀ ss : List Stmt, Written ss (stmtsTokens ss)
  | [] => .nil
  | s :: ss => (written_tokens s).append (written_stmtsTokens ss)

end

theorem writtenProgram_tokens (p : Program) : WrittenProgram p p.tokens :=
  ⟨p.statement.tokens, written_tokens p.statement, rfl⟩

/-- A text of the token. -/
def ProgramToken.text (t : ProgramToken) : List Char :=
  match t with
  | ⟨.id, vname⟩ => String.toList vname
  | ⟨.integer, n⟩ => Nat.toDigits 10 (BitVec.toNat n)
  | ⟨.boolean, b⟩ => (cond b "true" "false").toList
  | ⟨.type, t⟩ => (stringOfTyp t).toList
  | ⟨.input, t⟩ => ("input_" ++ stringOfTyp t).toList
  | ⟨.lparen, _⟩ => "(".toList
  | ⟨.rparen, _⟩ => ")".toList
  | ⟨.lbrace, _⟩ => "\x7b".toList
  | ⟨.rbrace, _⟩ => "\x7d".toList
  | ⟨.semicolon, _⟩ => ";".toList
  | ⟨.assign, _⟩ => ":=".toList
  | ⟨.if, _⟩ => "if".toList
  | ⟨.then, _⟩ => "then".toList
  | ⟨.else, _⟩ => "else".toList
  | ⟨.add, _⟩ => "+".toList
  | ⟨.subtract, _⟩ => "-".toList
  | ⟨.eq, _⟩ => "=".toList
  | ⟨.and, _⟩ => "and".toList
  | ⟨.or, _⟩ => "or".toList
  | ⟨.not, _⟩ => "not".toList
  | ⟨.colon, _⟩ => ":".toList
  | ⟨.comma, _⟩ => ",".toList
  | _ => []

/-- The text of a program. -/
def programText (p : Program) : List Char := p.tokens.flatMap fun t => t.text ++ [' ']

/-- The token has its text. -/
def HasText (t : ProgramToken) : Prop := TokenText t t.text

theorem spaced_of_hasText {ts : List ProgramToken} (h : ∀ t ∈ ts, HasText t) :
    Spaced ts (ts.flatMap fun t => t.text ++ [' ']) := by
  induction ts with
  | nil => exact .nil
  | cons t ts ih =>
      rw [List.forall_mem_cons] at h
      exact .cons h.1 (List.cons_ne_nil ' ' []) (List.forall_mem_singleton.mpr rfl) (ih h.2)

theorem hasText_literals : ∀ l ∈ literals, HasText l.2 := by
  have htext : ∀ l ∈ literals, l.2.text = l.1.toList := by
    simp only [literals, List.forall_mem_cons]
    exact ⟨rfl, rfl, rfl, rfl, rfl, rfl, rfl, rfl, rfl, rfl, rfl, rfl, rfl, rfl, rfl, rfl, rfl, rfl,
      rfl, rfl, rfl, rfl, rfl, List.forall_mem_nil _⟩
  intro l hl
  rw [HasText, htext l hl]
  exact .literal hl

/-- The terminals whose tokens the lexer finds as a text of their own. -/
def Terminal.isLiteral : Terminal → Bool
  | .id | .integer | .newline | .ws | .eof | .let | .in | .return => false
  | _ => true

theorem hasText_of_isLiteral {t : ProgramToken} (h : t.1.isLiteral = true) : HasText t := by
  have hliterals := hasText_literals
  simp only [literals, List.forall_mem_cons] at hliterals
  obtain ⟨t, v⟩ := t
  cases t with
  | id | integer | newline | ws | eof | «let» | «in» | «return» => cases h
  | boolean | type | input => cases v <;> simp [hliterals]
  | _ =>
      cases v
      simp [hliterals]

theorem hasText_integer {n : BitVec 63} (h : n.toNat < 2 ^ 62) : HasText ⟨.integer, n⟩ := by
  have hdigits : ∀ c ∈ Nat.toDigits 10 n.toNat, c.isDigit = true := fun c hc =>
    Nat.isDigit_of_mem_toDigits (by omega) (by omega) hc
  refine .integer Nat.toDigits_ne_nil hdigits ?_
  show intOfString (Nat.toDigits 10 n.toNat) = some n
  simp only [intOfString, Nat.ofDigitChars_ten_toDigits, if_pos h]
  simp

section
variable {ts ts' : List ExprToken}

/-- The tokens of an expression have their texts. -/
def HaveTexts (ts : List ExprToken) : Prop := ∀ t ∈ ts, HasText t.programToken

theorem haveTexts_operatorTokens (o : BinaryOperator) (h : HaveTexts ts) (h' : HaveTexts ts') :
    HaveTexts (operatorTokens o ts ts') := by
  intro t ht
  simp only [operatorTokens, List.mem_append, List.mem_cons, List.not_mem_nil, or_false] at ht
  rcases ht with (rfl | ht | rfl | ht) | rfl
  · exact hasText_of_isLiteral rfl
  · exact h t ht
  · exact hasText_of_isLiteral (by cases o <;> rfl)
  · exact h' t ht
  · exact hasText_of_isLiteral rfl

theorem haveTexts_exprTokens {e : Expr} (h : e.Readable) : HaveTexts (exprTokens e) := by
  induction e with
  | id vname => exact List.forall_mem_singleton.mpr (.id h)
  | intConst n => exact List.forall_mem_singleton.mpr (hasText_integer h)
  | boolConst b =>
      exact List.forall_mem_singleton.mpr (hasText_of_isLiteral rfl)
  | input t =>
      exact List.forall_mem_singleton.mpr (hasText_of_isLiteral rfl)
  | add e1 e2 ih1 ih2 => exact haveTexts_operatorTokens .add (ih1 h.1) (ih2 h.2)
  | sub e1 e2 ih1 ih2 => exact haveTexts_operatorTokens .subtract (ih1 h.1) (ih2 h.2)
  | and e1 e2 ih1 ih2 => exact haveTexts_operatorTokens .and (ih1 h.1) (ih2 h.2)
  | or e1 e2 ih1 ih2 => exact haveTexts_operatorTokens .or (ih1 h.1) (ih2 h.2)
  | equals e1 e2 ih1 ih2 => exact haveTexts_operatorTokens .equals (ih1 h.1) (ih2 h.2)
  | not e ih =>
      intro t ht
      simp only [exprTokens, List.mem_append, List.mem_cons, List.not_mem_nil, or_false] at ht
      rcases ht with (rfl | rfl | ht) | rfl
      · exact hasText_of_isLiteral rfl
      · exact hasText_of_isLiteral rfl
      · exact ih h t ht
      · exact hasText_of_isLiteral rfl

end

theorem hasText_of_exprTokens {e : Expr} (h : e.Readable) {t : ProgramToken}
    (ht : t ∈ (exprTokens e).map ExprToken.programToken) : HasText t := by
  obtain ⟨u, hu, rfl⟩ := List.mem_map.mp ht
  exact haveTexts_exprTokens h u hu

mutual

theorem hasText_of_tokens : ∀ {s : Stmt}, s.Readable → ∀ t ∈ s.tokens, HasText t
  | .assignment vname e, h, t, ht => by
    simp only [Stmt.tokens, List.mem_append, List.mem_cons, List.not_mem_nil, or_false] at ht
    rcases ht with (rfl | rfl | ht) | rfl
    · exact .id h.1
    · exact hasText_of_isLiteral rfl
    · exact hasText_of_exprTokens h.2 ht
    · exact hasText_of_isLiteral rfl
  | .ifStmt b s1 s2, h, t, ht => by
    simp only [Stmt.tokens, List.mem_append, List.mem_cons] at ht
    rcases ht with ((rfl | ht) | rfl | ht) | rfl | ht
    · exact hasText_of_isLiteral rfl
    · exact hasText_of_exprTokens h.1 ht
    · exact hasText_of_isLiteral rfl
    · exact hasText_of_tokens h.2.1 t ht
    · exact hasText_of_isLiteral rfl
    · exact hasText_of_tokens h.2.2 t ht
  | .block ss, h, t, ht => by
    simp only [Stmt.tokens, List.mem_append, List.mem_cons, List.not_mem_nil, or_false] at ht
    rcases ht with (rfl | ht) | rfl
    · exact hasText_of_isLiteral rfl
    · exact hasText_of_stmtsTokens h t ht
    · exact hasText_of_isLiteral rfl

theorem hasText_of_stmtsTokens : ∀ {ss : List Stmt}, StmtsReadable ss →
    ∀ t ∈ stmtsTokens ss, HasText t
  | [], _, _, ht => by
    rw [stmtsTokens] at ht
    cases ht
  | s :: ss, h, t, ht => by
    rw [stmtsTokens, List.mem_append] at ht
    rcases ht with ht | ht
    · exact hasText_of_tokens h.1 t ht
    · exact hasText_of_stmtsTokens h.2 t ht

end

theorem hasText_of_declsTokens {ds : List (String × Typ)} (h : DeclsReadable ds) :
    ∀ t ∈ declsTokens ds, HasText t := by
  intro t ht
  simp only [declsTokens, List.mem_append, List.mem_cons, List.not_mem_nil, or_false,
    List.mem_flatMap, declTokens] at ht
  rcases ht with (rfl | ⟨d, hd, rfl | rfl | rfl⟩) | rfl
  · exact hasText_of_isLiteral rfl
  · exact hasText_of_isLiteral rfl
  · exact .id (h d hd)
  · exact hasText_of_isLiteral rfl
  · exact hasText_of_isLiteral rfl

theorem spaced_programText {p : Program} (h : p.Readable) : Spaced p.tokens (programText p) := by
  refine spaced_of_hasText fun t ht => ?_
  rcases List.mem_append.mp ht with ht | ht
  · exact hasText_of_declsTokens h.decls t ht
  · exact hasText_of_tokens h.statement t ht

/-- A program is read back from its text, whatever follows. -/
theorem readProg_programText {p : Program} (h : p.Readable) (rest : List Char) :
    readProg (programText p ++ rest) = .ok p :=
  readProg_of_spaced (writtenProgram_tokens p) (spaced_programText h) rest

/-- A counter with one input. -/
def counter : Program where
  decls := [("x", .integer)]
  statement := .block [.assignment "x" (.add (.input .integer) (.intConst 1))]

theorem counter_readable : counter.Readable where
  decls := List.forall_mem_singleton.mpr (by decide)
  statement := ⟨⟨by decide, trivial, (by decide : (1 : BitVec 63).toNat < 2 ^ 62)⟩, trivial⟩

/-- The text behind the counter is not one of tokens. -/
theorem readProg_programText_counter :
    readProg (programText counter ++ "@".toList) = .ok counter :=
  readProg_programText counter_readable "@".toList

/-- The programs that can be read from some text. -/
theorem exists_readProg_iff {p : Program} : (∃ text, readProg text = .ok p) ↔ p.Readable := by
  constructor
  · rintro ⟨text, h⟩
    exact readable_of_readProg h
  · intro h
    exact ⟨_, readProg_of_spaced (writtenProgram_tokens p) (spaced_programText h) []⟩

/-! ### Errors -/

theorem eof_ne {t : ProgramToken} (h : t.1 ≠ .eof) : ⟨.eof, ()⟩ ≠ t := by
  rintro rfl
  exact h rfl

/-- The end of the text is no part of a program. -/
theorem Written.eof_notMem {ss : List Stmt} {u : List ProgramToken} (h : Written ss u) :
    ⟨.eof, ()⟩ ∉ u := by
  have hexpr : ∀ ts : List ExprToken, ⟨.eof, ()⟩ ∉ ts.map ExprToken.programToken := by
    intro ts hmem
    obtain ⟨t, _, ht⟩ := List.mem_map.mp hmem
    cases t <;> cases ht
  induction h with
  | nil => exact List.not_mem_nil
  | assignment vname _ _ ih =>
      simp only [List.cons_append, List.mem_cons, List.mem_append, hexpr, ih]
      simp [eof_ne]
  | ifStmt _ _ _ _ ih1 ih2 ih =>
      simp only [List.cons_append, List.mem_cons, List.mem_append, List.append_assoc, hexpr, ih1,
        ih2, ih]
      simp [eof_ne]
  | block _ _ ih' ih =>
      simp only [List.cons_append, List.mem_cons, List.mem_append, ih', ih]
      simp [eof_ne]

theorem WrittenProgram.eof_notMem {p : Program} {u : List ProgramToken} (h : WrittenProgram p u) :
    ⟨.eof, ()⟩ ∉ u := by
  obtain ⟨u, hstmt, rfl⟩ := h
  simp [declsTokens, declTokens, hstmt.eof_notMem, eof_ne]

/-- The parser does not take the end of the text. -/
theorem input_ne_nil {text : List Char} (hlex : (lexProgram text).2 = none)
    (h : table.result (parseTokens (parserInput text)) = none) :
    (parseTokens (parserInput text)).input ≠ [] := by
  intro hinput
  obtain ⟨u, htext, hwrong⟩ := wrongAhead_of_result h
  obtain ⟨p, w, hwritten⟩ := hwrong.begins
  rw [hinput, List.append_nil] at htext
  subst htext
  refine hwritten.eof_notMem (List.mem_append_left w ?_)
  rw [parserInput_of_end hlex]
  exact List.mem_append_right _ (List.mem_singleton_self _)

/-- Where the parser does not accept, it is stuck at a token, or the lexer has failed. -/
theorem readProg_of_result {text : List Char}
    (h : table.result (parseTokens (parserInput text)) = none) :
    ((parseTokens (parserInput text)).input = [] ∧ ∃ message, (lexProgram text).2 = some message ∧
      readProg text = .error (.failure message)) ∨
    ((parseTokens (parserInput text)).input ≠ [] ∧ readProg text = .error .parseError) := by
  have hread : ∀ t rest, (parseTokens (parserInput text)).input = t :: rest →
      readProg text = .error .parseError := by
    intro t rest hinput
    simp only [readProg, h, hinput]
  cases hinput : (parseTokens (parserInput text)).input with
  | cons t rest => exact Or.inr ⟨List.cons_ne_nil t rest, hread t rest hinput⟩
  | nil =>
      cases hlex : (lexProgram text).2 with
      | none => exact absurd hinput (input_ne_nil hlex h)
      | some message =>
          refine Or.inl ⟨rfl, message, rfl, ?_⟩
          simp only [readProg, h, hinput, hlex]

/-- Reading fails in the lexer where the tokens before the failure are the beginning of a program
but not a whole one, and in the parser at the first token that no program goes on with. -/
theorem readProg_eq_error_iff (text : List Char) :
    (∀ message, readProg text = .error (.failure message) ↔
      (lexProgram text).2 = some message ∧ WrongAhead (lexProgram text).1 []) ∧
    (readProg text = .error .parseError ↔
      ∃ u t rest, parserInput text = u ++ t :: rest ∧ WrongAhead u (t :: rest)) := by
  -- What is wrong with the tokens says that the parser does not accept, and where it stops.
  have hfails : ∀ u rest, parserInput text = u ++ rest → WrongAhead u rest →
      table.result (parseTokens (parserInput text)) = none ∧
        (parseTokens (parserInput text)).input = rest :=
    fun u rest htext hwrong => parseTokens_fails_iff.mpr ⟨u, htext, hwrong⟩
  have hfailure : ∀ message, (lexProgram text).2 = some message →
      parserInput text = (lexProgram text).1 ++ [] := by
    intro message hlex
    rw [parserInput_of_failure hlex, List.append_nil]
  cases hresult : table.result (parseTokens (parserInput text)) with
  | some p =>
      have hread := readProg_eq_ok hresult
      refine ⟨fun message => iff_of_false (by simp [hread]) ?_, iff_of_false (by simp [hread]) ?_⟩
      · rintro ⟨hlex, hwrong⟩
        cases hresult.symm.trans (hfails _ _ (hfailure message hlex) hwrong).1
      · rintro ⟨u, t, rest, htext, hwrong⟩
        cases hresult.symm.trans (hfails _ _ htext hwrong).1
  | none =>
      obtain ⟨u, htext, hwrong⟩ := wrongAhead_of_result hresult
      rcases readProg_of_result hresult with ⟨hinput, message, hlex, hread⟩ | ⟨hinput, hread⟩
      · rw [hinput, hfailure message hlex] at htext
        obtain rfl := List.append_cancel_right htext
        rw [hinput] at hwrong
        refine ⟨fun message' => ?_, iff_of_false (by simp [hread]) ?_⟩
        · simp [hread, hlex, hwrong]
        · rintro ⟨u, t, rest, htext', hwrong'⟩
          cases hinput.symm.trans (hfails _ _ htext' hwrong').2
      · refine ⟨fun message => iff_of_false (by simp [hread]) ?_, iff_of_true hread ?_⟩
        · rintro ⟨hlex, hwrong'⟩
          exact hinput (hfails _ _ (hfailure message hlex) hwrong').2
        · obtain ⟨t, rest, hcons⟩ := List.exists_cons_of_ne_nil hinput
          rw [hcons] at htext hwrong
          exact ⟨u, t, rest, htext, hwrong⟩

end Stabl.SimSee
