import Stabl.Proofs.Frontend.Lexemes

/-!
# `Stabl.Proofs.Frontend.Comments`: comments between tokens

A comment with a blank on either side is put between two tokens. Whatever follows it, the comment is
a lexeme and skipped (`isLexeme_traditionalComment`, `isLexeme_endOfLineComment`), and the lexemes
before it stay the same (`reads_insert`), with two exceptions. A text that begins with a star and
does not consist of stars makes no comment between `/*` and `*/`. And where the tokens before the
place have `/*` as two operators, because nothing closed a comment there, the inserted `*/` does.
`comments_transparent_iff` says that there are no further ones.
-/

set_option autoImplicit false

namespace Stabl.Lexer

open Regex MaximalMunch

/-! ### Comments are lexemes -/

/-- A match that begins like a comment is one. -/
theorem comment_of_firstRule {x : List Char} {a : Action} (hbegins : BeginsComment x)
    (h : firstRule initialRules x = some a) : x ∈ comment.language := by
  rcases glued_of_firstRule h with hchain | hmem
  · exfalso
    obtain ⟨v, rfl⟩ | ⟨v, rfl⟩ := hbegins
    · have hglue := (List.isChain_cons_cons.mp hchain).1
      revert hglue
      decide
    · have hglue := (List.isChain_cons_cons.mp hchain).1
      revert hglue
      decide
  · exact hmem

/-- The rule for comments is the first one that matches them. -/
theorem firstRule_comment {x : List Char} (hx : x ∈ comment.language) :
    firstRule initialRules x = some .ignore := by
  obtain ⟨c, v, hc, rfl⟩ : ∃ c v, (c = '*' ∨ c = '/') ∧ x = '/' :: c :: v := by
    obtain ⟨v, rfl⟩ | ⟨v, rfl⟩ := beginsComment_of_mem hx
    · exact ⟨'*', v, Or.inl rfl, rfl⟩
    · exact ⟨'/', v, Or.inr rfl, rfl⟩
  have hliterals : ∀ r ∈ literalRules,
      ¬ (r.1.toList.head? = some '/' ∧ r.1.toList.tail ≠ []) := by decide
  have hidentifier : identifier.accepts ('/' :: c :: v) = false := by
    rw [Bool.eq_false_iff, ne_eq, accepts_iff, mem_identifier]
    simp [isIdentifier]
  have hintconst : intconst.accepts ('/' :: c :: v) = false := by
    rw [Bool.eq_false_iff, ne_eq, accepts_iff, mem_intconst]
    rintro (h | h | h | ⟨d, y, h, hd, _⟩)
    · cases h
    · cases h
    · cases h
    · obtain ⟨rfl, _⟩ := List.cons.inj h
      revert hd
      decide
  have hwhiteSpace : whiteSpace.accepts ('/' :: c :: v) = false := by
    rw [Bool.eq_false_iff, ne_eq, accepts_iff]
    rintro (⟨d, _, h⟩ | ⟨d, _, h⟩) <;> cases h
  have hcomment : comment.accepts ('/' :: c :: v) = true := (accepts_iff _ _).mpr hx
  have hother : firstRule initialRules ('/' :: c :: v) = firstRule otherRules ('/' :: c :: v) :=
    firstRule_of_no_literal (P := fun x => x.head? = some '/' ∧ x.tail ≠ []) hliterals
      ⟨rfl, List.cons_ne_nil c v⟩
  rw [hother]
  simp [firstRule, otherRules, hidentifier, hintconst, hwhiteSpace, hcomment]

/-- Where a text with `*/` behind it goes on, the first `*/` is not at the end any more. -/
theorem closing_of_append {v v' y : List Char} (hy : y ≠ [])
    (h : v ++ ['*', '/'] ++ y = v' ++ ['*', '/']) : ['*', '/'] <:+: v' := by
  obtain ⟨y, d, rfl⟩ := (List.eq_nil_or_concat y).resolve_left hy
  rw [List.concat_eq_append, ← List.append_assoc,
    show v' ++ ['*', '/'] = (v' ++ ['*']) ++ ['/'] by simp] at h
  obtain ⟨h, -⟩ := List.append_inj' h rfl
  rcases List.eq_nil_or_concat y with rfl | ⟨y, e, rfl⟩
  · have hlast := congrArg List.getLast? h
    simp at hlast
  · rw [List.concat_eq_append, ← List.append_assoc] at h
    obtain ⟨rfl, -⟩ := List.append_inj' h rfl
    exact ⟨v, y, rfl⟩

/-- No comment that ends with `*/` goes on to another one. -/
theorem traditionalComment_prefix_free {x y : List Char} (hx : x ∈ traditionalComment.language)
    (hxy : x ++ y ∈ traditionalComment.language) : y = [] := by
  by_contra hy
  rcases mem_traditionalComment.mp hx with ⟨c, v, hc, hv, rfl⟩ | ⟨n, rfl⟩
  · rcases mem_traditionalComment.mp hxy with ⟨c', v', hc', hv', h⟩ | ⟨n', h⟩
    · have ⟨_, htail⟩ : c = c' ∧ v ++ ['*', '/'] ++ y = v' ++ ['*', '/'] := by simpa using h
      exact hv' (closing_of_append hy htail)
    · rw [List.replicate_succ] at h
      obtain ⟨rfl, -⟩ : c = '*' ∧ _ := by simpa using h
      exact hc rfl
  · rcases mem_traditionalComment.mp hxy with ⟨c', v', hc', hv', h⟩ | ⟨n', h⟩
    · rw [List.replicate_succ] at h
      obtain ⟨rfl, -⟩ : '*' = c' ∧ _ := by simpa using h
      exact hc' rfl
    · -- The slash of the shorter one is a star of the longer one.
      have hstars : ['*', '/'] <:+: List.replicate n' '*' := by
        refine closing_of_append (v := List.replicate n '*') hy ?_
        have htail : List.replicate (n + 1) '*' ++ ['/'] ++ y =
            List.replicate (n' + 1) '*' ++ ['/'] := by simpa using h
        rw [List.replicate_succ', List.replicate_succ'] at htail
        simpa using htail
      have hslash : '/' ∈ List.replicate n' '*' := hstars.subset (by simp)
      cases List.eq_of_mem_replicate hslash

theorem not_endOfLineComment (y : List Char) : '/' :: '*' :: y ∉ endOfLineComment.language := by
  intro h
  obtain ⟨v, _, w, _, h⟩ := mem_endOfLineComment.mp h
  cases h

theorem not_traditionalComment (y : List Char) : '/' :: '/' :: y ∉ traditionalComment.language := by
  intro h
  rcases mem_traditionalComment.mp h with ⟨c, v, _, _, h⟩ | ⟨n, h⟩ <;> cases h

/-- A comment that ends with `*/` is a lexeme, whatever follows. -/
theorem isLexeme_traditionalComment {x : List Char} (hx : x ∈ traditionalComment.language)
    (v : List Char) : IsLexeme (firstRule initialRules) .ignore x v := by
  have hmem : x ∈ comment.language := Or.inl hx
  obtain ⟨x', rfl⟩ : ∃ x', x = '/' :: '*' :: x' := by
    rcases mem_traditionalComment.mp hx with ⟨c, v, _, _, rfl⟩ | ⟨n, rfl⟩ <;> exact ⟨_, rfl⟩
  refine ⟨List.cons_ne_nil _ _, firstRule_comment hmem, fun y hy _ => ?_⟩
  cases hmatch : firstRule initialRules ('/' :: '*' :: x' ++ y) with
  | none => rfl
  | some a =>
      rcases comment_of_firstRule (Or.inl ⟨x' ++ y, rfl⟩) hmatch with h | h
      · exact absurd (traditionalComment_prefix_free hx h) hy
      · exact absurd h (not_endOfLineComment _)

/-- Only the last character of a comment up to the end of a line can be a line terminator. -/
theorem inputCharacters_of_endOfLineComment {x z : List Char} (hz : z ≠ [])
    (h : '/' :: '/' :: x ++ z ∈ endOfLineComment.language) : ∀ c ∈ x, c ≠ '\r' ∧ c ≠ '\n' := by
  obtain ⟨v, hv, w, hw, heq⟩ := mem_endOfLineComment.mp h
  have htail : x ++ z = v ++ w := by simpa using heq
  have hinit : x <+: v := by
    refine List.prefix_of_prefix_length_le ⟨z, htail⟩ (List.prefix_append v w) ?_
    have hlength := congrArg List.length htail
    have hpos := List.length_pos_iff.mpr hz
    have hwlength : w.length ≤ 1 := by rcases hw with rfl | rfl | rfl | rfl <;> simp
    simp only [List.length_append] at hlength
    omega
  exact fun c hc => hv c (hinit.subset hc)

/-- A comment that ends with the line is a lexeme, whatever follows. -/
theorem isLexeme_endOfLineComment {w : List Char} (hw : ∀ c ∈ w, c ≠ '\r' ∧ c ≠ '\n')
    (v : List Char) :
    IsLexeme (firstRule initialRules) .ignore ('/' :: '/' :: (w ++ ['\n'])) v := by
  have hmem : '/' :: '/' :: (w ++ ['\n']) ∈ comment.language :=
    Or.inr (mem_endOfLineComment.mpr ⟨w, hw, ['\n'], by simp, rfl⟩)
  refine ⟨List.cons_ne_nil _ _, firstRule_comment hmem, fun y hy _ => ?_⟩
  cases hmatch : firstRule initialRules ('/' :: '/' :: (w ++ ['\n']) ++ y) with
  | none => rfl
  | some a =>
      exfalso
      rcases comment_of_firstRule (Or.inr ⟨w ++ ['\n'] ++ y, rfl⟩) hmatch with h | h
      · exact not_traditionalComment _ h
      · have hnewline := inputCharacters_of_endOfLineComment hy h '\n' (by simp)
        exact hnewline.2 rfl

/-! ### Open comments -/

/-- After `/*`, the text leaves a comment open: it does not begin with a star, and no `*/` stands
behind its first character. -/
structure Unclosed (q : List Char) : Prop where
  head : q.head? ≠ some '*'
  tail : ¬ ['*', '/'] <:+: q.tail

/-- A `*/` stands before a blank or behind it. -/
theorem closing_append_blank (a b : List Char) :
    ['*', '/'] <:+: a ++ ' ' :: b ↔ ['*', '/'] <:+: a ∨ ['*', '/'] <:+: b := by
  induction a with
  | nil => simp [List.infix_cons_iff]
  | cons c a ih =>
      have hinit : ['*', '/'] <+: c :: (a ++ ' ' :: b) ↔ ['*', '/'] <+: c :: a := by
        cases a <;> simp
      rw [List.cons_append, List.infix_cons_iff, List.infix_cons_iff, ih, hinit, or_assoc]

/-- A comment with a blank closes what an open one before the blank left open. -/
theorem unclosed_of_comment {h k : List Char} (hne : h ≠ [])
    (hmem : h ++ ' ' :: k ∈ traditionalComment.language) :
    ∃ q, h = '/' :: '*' :: q ∧ Unclosed q ∧ ['*', '/'] <:+: k := by
  rcases mem_traditionalComment.mp hmem with ⟨c, v, hc, hv, heq⟩ | ⟨n, heq⟩
  · rcases List.append_eq_append_iff.mp heq with ⟨a, ha, hk⟩ | ⟨b, _, hb⟩
    · cases a with
      | nil => cases hk
      | cons d a =>
          obtain ⟨rfl, rfl⟩ : ' ' = d ∧ k = a ++ ['*', '/'] := by simpa using hk
          have hclosing : ['*', '/'] <:+: a ++ ['*', '/'] := List.infix_append_right
          match h, hne with
          | [e], _ => cases ha
          | e :: e' :: q, _ =>
              obtain ⟨rfl, rfl, hq⟩ : '/' = e ∧ '*' = e' ∧ c :: v = q ++ ' ' :: a := by
                simpa using ha
              refine ⟨q, rfl, ?_, hclosing⟩
              cases q with
              | nil => exact ⟨by simp, by simp⟩
              | cons f q =>
                  obtain ⟨rfl, rfl⟩ : c = f ∧ v = q ++ ' ' :: a := by simpa using hq
                  rw [closing_append_blank] at hv
                  exact ⟨by simpa using hc, fun hclosing => hv (Or.inl hclosing)⟩
    · have hblank : ' ' ∈ ['*', '/'] := by rw [hb]; simp
      simp at hblank
  · have hblank : ' ' ∈ '/' :: '*' :: List.replicate (n + 1) '*' ++ ['/'] := by
      rw [← heq]
      simp
    simp at hblank

/-- The next `*/` closes an open comment. -/
theorem comment_of_unclosed {q k : List Char} (hq : Unclosed q) (hk : ¬ ['*', '/'] <:+: k) :
    '/' :: '*' :: (q ++ ' ' :: k) ++ ['*', '/'] ∈ traditionalComment.language := by
  rw [mem_traditionalComment]
  cases q with
  | nil => exact Or.inl ⟨' ', k, by decide, hk, rfl⟩
  | cons c q =>
      refine Or.inl ⟨c, q ++ ' ' :: k, by simpa using hq.head, ?_, rfl⟩
      rw [closing_append_blank]
      exact not_or.mpr ⟨hq.tail, hk⟩

/-- In a text that leaves a comment open there is no whole comment. -/
theorem not_comment_of_unclosed {x u q : List Char} (hq : Unclosed q)
    (h : x ++ u = '/' :: '*' :: q) : x ∉ traditionalComment.language := by
  intro hx
  rcases mem_traditionalComment.mp hx with ⟨c, v, _, _, rfl⟩ | ⟨n, rfl⟩
  · obtain rfl : c :: (v ++ ['*', '/'] ++ u) = q := by simpa using h
    exact hq.tail (List.infix_append v _ u)
  · rw [List.replicate_succ] at h
    obtain rfl : '*' :: (List.replicate n '*' ++ ['/'] ++ u) = q := by simpa using h
    exact hq.head rfl

/-- Where a comment up to the end of the line goes on behind `x`, it goes on with every
character. -/
theorem endOfLineComment_extend {x z : List Char} {d : Char} (hx : x ≠ []) (hz : z ≠ [])
    (h : x ++ z ∈ endOfLineComment.language) (hd : x = ['/'] → d = '/') :
    x ++ [d] ∈ endOfLineComment.language := by
  obtain ⟨v, _, w, _, heq⟩ := mem_endOfLineComment.mp h
  rw [mem_endOfLineComment]
  match x, hx with
  | [e], _ =>
      obtain ⟨rfl, _⟩ := List.cons.inj heq
      obtain rfl := hd rfl
      exact ⟨[], by simp, [], Or.inl rfl, rfl⟩
  | e :: e' :: x, _ =>
      obtain ⟨rfl, rfl, _⟩ : e = '/' ∧ e' = '/' ∧ x ++ z = v ++ w := by simpa using heq
      have hinput := inputCharacters_of_endOfLineComment hz h
      by_cases hterminator : d = '\r' ∨ d = '\n'
      · refine ⟨x, hinput, [d], ?_, rfl⟩
        rcases hterminator with rfl | rfl <;> simp
      · refine ⟨x ++ [d], ?_, [], Or.inl rfl, by simp⟩
        intro c hc
        rcases List.mem_append.mp hc with hc | hc
        · exact hinput c hc
        · rw [List.mem_singleton.mp hc]
          exact not_or.mp hterminator

/-! ### A text between two tokens -/

/-- The rules for string literals match single characters. -/
theorem eq_singleton_of_strliteralRules {x : List Char} {a : Action}
    (h : firstRule strliteralRules x = some a) : ∃ c, x = [c] := by
  obtain ⟨r, hr, hx⟩ := exists_of_firstRule h
  simp only [strliteralRules, List.mem_cons, List.not_mem_nil, or_false] at hr
  rcases hr with rfl | rfl | rfl | rfl
  · rw [text, mem_literal] at hx
    exact ⟨'"', hx ▸ rfl⟩
  · obtain ⟨c, _, hc⟩ := hx
    exact ⟨c, hc⟩
  · obtain ⟨c, _, hc⟩ := hx
    exact ⟨c, hc⟩
  · obtain ⟨c, _, hc⟩ := hx
    exact ⟨c, hc⟩

/-- A lexeme stays one when a blank and some text are put in behind it, unless the text closes a
comment that the lexeme and what follows it leave open. -/
theorem isLexeme_insert {s : LexicalState} {r : Action} {x a v i : List Char}
    (h : IsLexeme (scanner.rule s) r x (a ++ v)) (hv : v ≠ [])
    (hopen : s = .yyinitial → ∀ q, x ++ a = '/' :: '*' :: q → Unclosed q → ¬ ['*', '/'] <:+: i) :
    IsLexeme (scanner.rule s) r x (a ++ ' ' :: i) := by
  refine h.replace fun y hy hinit => ?_
  obtain ⟨c, y, rfl⟩ := List.exists_cons_of_ne_nil hy
  obtain ⟨rfl, htail⟩ := List.cons_prefix_cons.mp hinit
  have hxa : x ++ a ≠ [] := List.append_ne_nil_of_left_ne_nil h.nonempty a
  cases hmatch : scanner.rule s (x ++ (a ++ ' ' :: y)) with
  | none => rfl
  | some b =>
      exfalso
      rw [← List.append_assoc] at hmatch
      cases s with
      | strliteral s =>
          obtain ⟨c, hc⟩ := eq_singleton_of_strliteralRules hmatch
          have hlength := congrArg List.length hc
          have hpos := List.length_pos_iff.mpr hxa
          rw [List.length_append, List.length_cons, List.length_singleton] at hlength
          omega
      | yyinitial =>
          rcases glued_of_firstRule hmatch with hchain | htraditional | hendOfLine
          · have hglue := (List.isChain_append.mp hchain).2.2 _ (List.getLast?_eq_some_getLast hxa)
              ' ' rfl
            rw [glues_blank] at hglue
            cases hglue
          · obtain ⟨q, hq, hunclosed, hclosing⟩ := unclosed_of_comment hxa htraditional
            exact hopen rfl q hq hunclosed (hclosing.trans htail.isInfix)
          · -- Without the insertion, the comment went on with the next character too.
            have hav : a ++ v ≠ [] := List.append_ne_nil_of_right_ne_nil a hv
            obtain ⟨d, w, hdw⟩ := List.exists_cons_of_ne_nil hav
            have hslash : x = ['/'] → d = '/' := by
              rintro rfl
              obtain ⟨v', _, w', _, heq⟩ := mem_endOfLineComment.mp hendOfLine
              cases a with
              | nil => cases heq
              | cons e a =>
                  obtain ⟨rfl, _⟩ : d = e ∧ w = a ++ v := by simpa [eq_comm] using hdw
                  exact (List.cons.inj (List.cons.inj heq).2).1
            rw [List.append_assoc] at hendOfLine
            have hextend := endOfLineComment_extend h.nonempty (by simp) hendOfLine hslash
            have hnone := h.longest [d] (List.cons_ne_nil _ _) ⟨w, hdw.symm⟩
            have hsome : firstRule initialRules (x ++ [d]) = some .ignore :=
              firstRule_comment (Or.inr hextend)
            rw [show scanner.rule .yyinitial (x ++ [d]) = _ from hsome] at hnone
            cases hnone

/-- The scanner reads `u` in the same way when a blank and some text are put in behind `b`, unless
the text closes a comment that is open at a token of `u`. -/
theorem reads_insert {s s' : LexicalState} {u b v i : List Char} {ts : List Sym}
    (h : scanner.Reads (b ++ v) s u ts s') (hv : v ≠ [])
    (hopen : ∀ p q ts₁, u ++ b = p ++ '/' :: '*' :: q → p.length < u.length →
      scanner.Reads ('/' :: '*' :: q ++ v) s p ts₁ .yyinitial → Unclosed q →
        ¬ ['*', '/'] <:+: i) :
    scanner.Reads (b ++ ' ' :: i) s u ts s' := by
  refine h.replace fun p s₁ ts₁ r x u' hu hp hx => ?_
  subst hu
  rw [← List.append_assoc] at hx ⊢
  refine isLexeme_insert hx hv ?_
  rintro rfl q hq hunclosed
  have hxu : x ++ u' ++ b = '/' :: '*' :: q := by rw [List.append_assoc, hq]
  refine hopen p q ts₁ ?_ ?_ ?_ hunclosed
  · rw [List.append_assoc, hxu]
  · have hpos := List.length_pos_iff.mpr hx.nonempty
    simp only [List.length_append]
    omega
  · rwa [← List.append_assoc, hxu] at hp

/-- A comment with a blank on either side is skipped. -/
theorem lex_skip {c : List Char} (hc : ∀ v, IsLexeme (firstRule initialRules) .ignore c v)
    (v : List Char) : lex (' ' :: (c ++ ' ' :: v)) = lex v := by
  have hcomment : scanner.Reads (' ' :: v) .yyinitial c [] .yyinitial :=
    Scanner.Reads.lexeme (t := none) (hc _) rfl
  exact (Scanner.lex_of_reads (reads_blank (c ++ ' ' :: v))).trans
    ((Scanner.lex_of_reads hcomment).trans (Scanner.lex_of_reads (reads_blank v)))

/-! ### Comments between tokens -/

/-- The place between `u` and `v` is between two tokens, and not in a string literal. -/
structure Between (u v : List Char) : Prop where
  reads : ∃ ts, scanner.Reads v .yyinitial u ts .yyinitial
  rest : v ≠ []

/-- At a place between two tokens of `u`, there is a `/*` that leaves a comment open. -/
def Opens (u v : List Char) : Prop :=
  ∃ p q, u = p ++ '/' :: '*' :: q ∧ Between p ('/' :: '*' :: q ++ v) ∧ Unclosed q

/-- `/*`, the text and `*/` -/
def traditionalText (w : List Char) : List Char := '/' :: '*' :: w ++ ['*', '/']

/-- `//`, the text and a line terminator -/
def endOfLineText (w : List Char) : List Char := '/' :: '/' :: (w ++ ['\n'])

/-- The text does not begin with a star, or it consists of stars. -/
def IsCommentText (w : List Char) : Prop := w.head? ≠ some '*' ∨ ∀ c ∈ w, c = '*'

/-- The lexer returns the same tokens with the comment between `u` and `v` and without it. -/
def Transparent (c u v : List Char) : Prop :=
  (lex (u ++ ' ' :: (c ++ ' ' :: v))).1 = (lex (u ++ v)).1

/-- The lexer returns the tokens of `u` before a blank and some text as it does before `v`, unless
the text closes a comment that was open. -/
theorem lex_behind {u v i : List Char} (h : Between u v)
    (hopen : Opens u v → ¬ ['*', '/'] <:+: i) :
    ∃ ts, lex (u ++ ' ' :: i) = (ts ++ (lex (' ' :: i)).1, (lex (' ' :: i)).2) ∧
      lex (u ++ v) = (ts ++ (lex v).1, (lex v).2) := by
  obtain ⟨ts, hu⟩ := h.reads
  have hinsert : scanner.Reads (' ' :: i) .yyinitial u ts .yyinitial := by
    refine reads_insert (b := []) hu h.rest fun p q ts₁ htext _ hp hq => ?_
    rw [List.append_nil] at htext
    exact hopen ⟨p, q, htext, ⟨⟨ts₁, hp⟩, by simp⟩, hq⟩
  exact ⟨ts, Scanner.lex_of_reads hinsert, Scanner.lex_of_reads hu⟩

/-- With a comment between two tokens the lexer returns the same tokens, and stops with the same
error, unless the text behind the place closes a comment that was open there. -/
theorem lex_insert {c u v : List Char} (h : Between u v)
    (hc : ∀ v, IsLexeme (firstRule initialRules) .ignore c v)
    (hopen : Opens u v → ¬ ['*', '/'] <:+: c ++ ' ' :: v) :
    lex (u ++ ' ' :: (c ++ ' ' :: v)) = lex (u ++ v) := by
  obtain ⟨ts, hinsert, hwithout⟩ := lex_behind h hopen
  rw [hinsert, hwithout, lex_skip hc]

/-- Between `/*` and `*/`, the text makes a comment. -/
theorem traditionalText_mem {w : List Char} (hw : ¬ ['*', '/'] <:+: w) (h : IsCommentText w) :
    traditionalText w ∈ traditionalComment.language := by
  rw [mem_traditionalComment]
  by_cases hstars : ∀ c ∈ w, c = '*'
  · refine Or.inr ⟨w.length, ?_⟩
    rw [traditionalText, List.replicate_succ', ← List.eq_replicate_of_mem hstars]
    simp
  · have hhead : w.head? ≠ some '*' := h.resolve_right hstars
    cases w with
    | nil => exact absurd (List.forall_mem_nil _) hstars
    | cons c w =>
        exact Or.inl ⟨c, w, by simpa using hhead, fun hclosing => hw (List.infix_cons hclosing),
          rfl⟩

/-- A token is read where a `/*` leaves a comment open. -/
theorem ne_nil_of_unclosed {q v : List Char} {ts : List Sym} {s : LexicalState} (hq : Unclosed q)
    (h : scanner.Reads v .yyinitial ('/' :: '*' :: q) ts s) : ts ≠ [] := by
  obtain ⟨r, x, u, t, s₁, ts', htext, rfl, hx, hact, _⟩ := h.first (List.cons_ne_nil _ _)
  have hrule : firstRule initialRules x = some r := hx.matched
  match x, hx.nonempty with
  | [c], _ =>
      obtain ⟨rfl, _⟩ := List.cons.inj htext
      have hdiv : firstRule initialRules ['/'] = some (.symbol .div) :=
        firstRule_literal (s := "/") rfl
      rw [hdiv] at hrule
      obtain rfl := Option.some.inj hrule
      obtain ⟨rfl, _⟩ : some Sym.div = t ∧ _ := by simpa [scanner, act] using hact
      exact List.cons_ne_nil _ _
  | c :: d :: x, _ =>
      exfalso
      obtain ⟨rfl, rfl, _⟩ : '/' = c ∧ '*' = d ∧ q = x ++ u := by simpa using htext
      rcases comment_of_firstRule (Or.inl ⟨x, rfl⟩) hrule with hmem | hmem
      · exact not_comment_of_unclosed hq htext.symm hmem
      · exact not_endOfLineComment _ hmem

/-- The first place of the text where a `/*` leaves a comment open. -/
theorem Opens.first {u v : List Char} (h : Opens u v) :
    ∃ p q, u = p ++ '/' :: '*' :: q ∧ Between p ('/' :: '*' :: q ++ v) ∧ Unclosed q ∧
      ∀ p' q', p'.length < p.length → u = p' ++ '/' :: '*' :: q' →
        Between p' ('/' :: '*' :: q' ++ v) → ¬ Unclosed q' := by
  classical
  obtain ⟨p, q, h⟩ := h
  have hex : ∃ n p q, p.length = n ∧ u = p ++ '/' :: '*' :: q ∧
      Between p ('/' :: '*' :: q ++ v) ∧ Unclosed q := ⟨p.length, p, q, rfl, h⟩
  obtain ⟨p, q, hlength, htext, hbetween, hq⟩ := Nat.find_spec hex
  refine ⟨p, q, htext, hbetween, hq, fun p' q' hlt htext' hbetween' hq' => ?_⟩
  rw [hlength] at hlt
  exact Nat.find_min hex hlt ⟨p', q', rfl, htext', hbetween', hq'⟩

/-- Where a comment is open, a text up to the next `*/` is lost with the tokens before it. -/
theorem lex_swallowed {u v k l : List Char} (h : Between u v) (hopens : Opens u v)
    (hk : ¬ ['*', '/'] <:+: k) (hrest : lex l = lex v) :
    (lex (u ++ ' ' :: (k ++ ['*', '/'] ++ l))).1 ≠ (lex (u ++ v)).1 := by
  obtain ⟨p, q, rfl, hp, hq, hfirst⟩ := hopens.first
  obtain ⟨ts, hu⟩ := h.reads
  obtain ⟨ts₁, hp⟩ := hp.reads
  obtain ⟨ts₂, rfl, hbehind⟩ := Scanner.Reads.behind hp hu
  have hinsert : scanner.Reads ('/' :: '*' :: q ++ ' ' :: (k ++ ['*', '/'] ++ l)) .yyinitial p ts₁
      .yyinitial := by
    refine reads_insert hp h.rest fun p' q' ts' htext hlength hp' hq' => ?_
    exact absurd hq' (hfirst p' q' hlength htext ⟨⟨ts', hp'⟩, by simp⟩)
  have hcomment : scanner.Reads l .yyinitial ('/' :: '*' :: (q ++ ' ' :: k) ++ ['*', '/']) []
      .yyinitial :=
    Scanner.Reads.lexeme (t := none)
      (isLexeme_traditionalComment (comment_of_unclosed hq hk) l) rfl
  have hwithout : lex (p ++ '/' :: '*' :: q ++ v) = _ := Scanner.lex_of_reads hu
  have hbefore := Scanner.lex_of_reads hinsert
  have hswallowed := Scanner.lex_of_reads hcomment
  have htext : p ++ '/' :: '*' :: q ++ ' ' :: (k ++ ['*', '/'] ++ l) =
      p ++ ('/' :: '*' :: q ++ ' ' :: (k ++ ['*', '/'] ++ l)) := List.append_assoc ..
  have htext' : '/' :: '*' :: q ++ ' ' :: (k ++ ['*', '/'] ++ l) =
      '/' :: '*' :: (q ++ ' ' :: k) ++ ['*', '/'] ++ l := by simp
  rw [htext'] at hbefore
  rw [hswallowed] at hbefore
  rw [htext, lex, htext', hbefore, hwithout]
  rw [lex, lex] at hrest
  intro heq
  rw [hrest, List.nil_append, List.append_assoc] at heq
  have hlost : ts₂ = [] := List.self_eq_append_left.mp (List.append_cancel_left heq)
  exact ne_nil_of_unclosed hq hbehind hlost

/-- The end of a line comment does not close a comment. -/
theorem not_closing_endOfLineText {w v : List Char} (hw : ¬ ['*', '/'] <:+: w)
    (hv : ¬ ['*', '/'] <:+: v) : ¬ ['*', '/'] <:+: endOfLineText w ++ ' ' :: v := by
  have hline : ['*', '/'] <:+: w ++ ['\n'] → ['*', '/'] <:+: w := by
    rw [List.infix_concat_iff]
    rintro (hsuffix | hinfix)
    · have hlast := hsuffix.getLast (by simp)
      simp at hlast
    · exact hinfix
  rw [closing_append_blank]
  rintro (hclosing | hclosing)
  · have htail : ['*', '/'] <:+: w ++ ['\n'] := by
      simpa [endOfLineText, List.infix_cons_iff] using hclosing
    exact hw (hline htail)
  · exact hv hclosing

/-- A text that begins with a star and does not consist of stars makes no comment: between `/*` and
`*/`, the slash is an operator. -/
theorem lex_not_isCommentText {w : List Char} (hw : ¬ ['*', '/'] <:+: w) (h : ¬ IsCommentText w)
    (v : List Char) : (lex (' ' :: (traditionalText w ++ v))).1.head? = some .div := by
  obtain ⟨hhead, hstars⟩ := not_or.mp h
  obtain ⟨w', rfl⟩ : ∃ w', w = '*' :: w' := by
    cases w with
    | nil => exact absurd (List.forall_mem_nil _) hstars
    | cons c w' =>
        obtain rfl : c = '*' := by simpa using hhead
        exact ⟨w', rfl⟩
  have hlexeme : IsLexeme (firstRule initialRules) (.symbol .div) ['/']
      ('*' :: ('*' :: w' ++ ['*', '/'] ++ v)) := by
    refine ⟨List.cons_ne_nil _ _, firstRule_literal (s := "/") rfl, fun y hy hinit => ?_⟩
    cases hmatch : firstRule initialRules (['/'] ++ y) with
    | none => rfl
    | some a =>
        exfalso
        obtain ⟨c, y, rfl⟩ := List.exists_cons_of_ne_nil hy
        obtain ⟨rfl, htail⟩ := List.cons_prefix_cons.mp hinit
        rcases comment_of_firstRule (Or.inl ⟨y, rfl⟩) hmatch with hmem | hmem
        · rcases mem_traditionalComment.mp hmem with ⟨c, v', hc, _, heq⟩ | ⟨n, heq⟩
          · obtain rfl : y = c :: (v' ++ ['*', '/']) := by simpa using heq
            exact hc (List.cons_prefix_cons.mp htail).1
          · -- The stars end before `*/`, so a slash behind them closes the text.
            obtain rfl : y = List.replicate (n + 1) '*' ++ ['/'] := by simpa using heq
            have hclosing : ['*', '/'] <:+: List.replicate (n + 1) '*' ++ ['/'] := by
              rw [List.replicate_succ', List.append_assoc]
              exact List.infix_append_right
            rw [List.append_assoc] at htail
            rcases List.prefix_or_prefix_of_prefix htail (List.prefix_append ('*' :: w') _) with
              hshort | hlong
            · exact hw (hclosing.trans hshort.isInfix)
            · rcases List.prefix_concat_iff.mp hlong with heq | hinit
              · exact hw (heq ▸ hclosing)
              · exact hstars fun c hc => List.eq_of_mem_replicate (hinit.subset hc)
        · exact not_endOfLineComment _ hmem
  have hread : scanner.Reads ('*' :: ('*' :: w' ++ ['*', '/'] ++ v)) .yyinitial ['/'] [.div]
      .yyinitial := Scanner.Reads.lexeme (t := some Sym.div) hlexeme rfl
  have hslash : lex ('/' :: '*' :: ('*' :: w' ++ ['*', '/'] ++ v)) = _ :=
    Scanner.lex_of_reads hread
  have hblank : lex (' ' :: (traditionalText ('*' :: w') ++ v)) =
      lex (traditionalText ('*' :: w') ++ v) := Scanner.lex_of_reads (reads_blank _)
  rw [hblank, traditionalText, List.cons_append, List.cons_append, List.cons_append,
    List.cons_append, hslash]
  rfl

/-- Behind `;` and before `;` there is a place between two tokens, where no comment is open. -/
theorem between_semicolons : Between [';'] [';'] ∧ ¬ Opens [';'] [';'] := by
  refine ⟨⟨⟨[.semicolon], ?_⟩, List.cons_ne_nil _ _⟩, ?_⟩
  · have hlexeme : IsLexeme (firstRule initialRules) (.symbol .semicolon) [';'] [';'] := by
      refine isLexeme_of_not_glued (List.cons_ne_nil _ _) (firstRule_literal (s := ";") rfl) ?_ ?_
      · simp [glues, wordChar]
      · rintro (⟨w, hw⟩ | ⟨w, hw⟩) <;> simp at hw
    exact Scanner.Reads.lexeme (t := some Sym.semicolon) hlexeme rfl
  · rintro ⟨p, q, htext, _⟩
    have hlength := congrArg List.length htext
    simp only [List.length_append, List.length_cons, List.length_nil] at hlength
    omega

/-- The texts that make a comment between `/*` and `*/`, at every place where none is open. -/
theorem forall_transparent_iff_isCommentText {w : List Char} (hw : ¬ ['*', '/'] <:+: w) :
    (∀ u v, Between u v → ¬ Opens u v → Transparent (traditionalText w) u v) ↔
      IsCommentText w := by
  constructor
  · intro h
    by_contra hnot
    have ⟨hbetween, hopens⟩ := between_semicolons
    have hsame := h [';'] [';'] hbetween hopens
    obtain ⟨ts, hinsert, hwithout⟩ := lex_behind (i := traditionalText w ++ ' ' :: [';']) hbetween
      fun h => absurd h hopens
    rw [Transparent, hinsert, hwithout] at hsame
    have hdiv := lex_not_isCommentText hw hnot (' ' :: [';'])
    rw [List.append_cancel_left hsame] at hdiv
    revert hdiv
    decide
  · intro h u v hbetween hopens
    have hlexeme := isLexeme_traditionalComment (traditionalText_mem hw h)
    exact congrArg Prod.fst (lex_insert hbetween hlexeme fun h => absurd h hopens)

/-- The places where every comment between `/*` and `*/` can be inserted. -/
theorem forall_transparent_traditionalText_iff {u v : List Char} (h : Between u v) :
    (∀ w, ¬ ['*', '/'] <:+: w → IsCommentText w → Transparent (traditionalText w) u v) ↔
      ¬ Opens u v := by
  constructor
  · intro htransparent hopens
    have hempty := htransparent [] (by simp) (Or.inl (by simp))
    refine lex_swallowed (k := ['/', '*']) (l := ' ' :: v) h hopens (by decide) ?_ hempty
    exact Scanner.lex_of_reads (reads_blank v)
  · intro hopens w hw hcomment
    exact (forall_transparent_iff_isCommentText hw).mpr hcomment u v h hopens

/-- The places where every comment up to the end of a line can be inserted. -/
theorem forall_transparent_endOfLineText_iff {u v : List Char} (h : Between u v) :
    (∀ w : List Char, (∀ c ∈ w, c ≠ '\r' ∧ c ≠ '\n') → Transparent (endOfLineText w) u v) ↔
      ¬ Opens u v := by
  constructor
  · intro htransparent hopens
    have hclosing := htransparent ['*', '/', ' ', '/', '/'] (by simp)
    refine lex_swallowed (k := ['/', '/']) (l := ' ' :: (endOfLineText [] ++ ' ' :: v)) h hopens
      (by decide) ?_ hclosing
    exact lex_skip (isLexeme_endOfLineComment (List.forall_mem_nil _)) v
  · intro hopens w hw
    have hlexeme := isLexeme_endOfLineComment hw
    exact congrArg Prod.fst (lex_insert h hlexeme fun h => absurd h hopens)

/-- Wherever no `*/` stands in it or behind it, a comment up to the end of a line can be
inserted. -/
theorem transparent_endOfLineText {u v w : List Char} (h : Between u v)
    (hw : ∀ c ∈ w, c ≠ '\r' ∧ c ≠ '\n') (hclosing : ¬ ['*', '/'] <:+: w)
    (hv : ¬ ['*', '/'] <:+: v) : Transparent (endOfLineText w) u v := by
  have hlexeme := isLexeme_endOfLineComment hw
  exact congrArg Prod.fst (lex_insert h hlexeme fun _ => not_closing_endOfLineText hclosing hv)

/-- A comment between two tokens does not change the tokens. This holds for just those texts between
`/*` and `*/` that make a comment, and at just those places where no comment is open. At the other
places it still holds for a comment up to the end of a line, if no `*/` stands in it or behind
it. -/
theorem comments_transparent_iff {u v w : List Char} (h : Between u v)
    (hw : ¬ ['*', '/'] <:+: w) :
    ((∀ u v, Between u v → ¬ Opens u v → Transparent (traditionalText w) u v) ↔
      IsCommentText w) ∧
    ((∀ w, ¬ ['*', '/'] <:+: w → IsCommentText w → Transparent (traditionalText w) u v) ↔
      ¬ Opens u v) ∧
    ((∀ w : List Char, (∀ c ∈ w, c ≠ '\r' ∧ c ≠ '\n') → Transparent (endOfLineText w) u v) ↔
      ¬ Opens u v) ∧
    ((∀ c ∈ w, c ≠ '\r' ∧ c ≠ '\n') → ¬ ['*', '/'] <:+: v →
      Transparent (endOfLineText w) u v) :=
  ⟨forall_transparent_iff_isCommentText hw, forall_transparent_traditionalText_iff h,
    forall_transparent_endOfLineText_iff h, fun hline hv => transparent_endOfLineText h hline hw hv⟩

/-- Comments between two semicolons. -/
theorem comments_transparent_semicolons : Transparent (traditionalText ['x']) [';'] [';'] ∧
    Transparent (endOfLineText ['x']) [';'] [';'] := by
  have ⟨hbetween, hopens⟩ := between_semicolons
  have ⟨htexts, _, hplaces, _⟩ := comments_transparent_iff (w := ['x']) hbetween (by decide)
  constructor
  · exact htexts.mpr (Or.inl (by decide)) _ _ hbetween hopens
  · exact hplaces.mpr hopens ['x'] (by simp)

set_option maxRecDepth 4000 in
/-- `/**x*/` between `a` and `b` is no comment. -/
theorem starred_not_transparent : Between ['a'] [' ', 'b'] ∧ ¬ ['*', '/'] <:+: ['*', 'x'] ∧
    (lex (['a'] ++ [' ', 'b'])).1 = [.identifier "a", .identifier "b"] ∧
    (lex (['a'] ++ ' ' :: (traditionalText ['*', 'x'] ++ ' ' :: [' ', 'b']))).1 =
      [.identifier "a", .div, .mul, .mul, .identifier "x", .mul, .div, .identifier "b"] ∧
    ¬ Transparent (traditionalText ['*', 'x']) ['a'] [' ', 'b'] := by
  have hwithout : (lex (['a'] ++ [' ', 'b'])).1 = [.identifier "a", .identifier "b"] := by decide
  have hwith : (lex (['a'] ++ ' ' :: (traditionalText ['*', 'x'] ++ ' ' :: [' ', 'b']))).1 =
      [.identifier "a", .div, .mul, .mul, .identifier "x", .mul, .div, .identifier "b"] := by
    decide
  refine ⟨⟨⟨[.identifier "a"], ?_⟩, List.cons_ne_nil _ _⟩, by decide, hwithout, hwith, fun h => ?_⟩
  · have hlexeme : IsLexeme (firstRule initialRules) .identifier ['a'] [' ', 'b'] := by
      refine isLexeme_of_not_glued (List.cons_ne_nil _ _) (by decide) ?_ ?_
      · simp [glues_blank]
      · rintro (⟨w, hw⟩ | ⟨w, hw⟩) <;> simp at hw
    exact Scanner.Reads.lexeme (t := some (Sym.identifier "a")) hlexeme rfl
  · rw [Transparent, hwithout, hwith] at h
    revert h
    decide

end Stabl.Lexer
