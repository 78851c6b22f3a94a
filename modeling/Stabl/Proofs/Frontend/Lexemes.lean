import Mathlib.Data.List.Chain
import Stabl.Frontend.Lexer

/-!
# `Stabl.Proofs.Frontend.Lexemes`: where a lexeme ends

What the rules of the state `YYINITIAL` match. Two characters that stand side by side in a match
glue, or the match is a comment (`glued_of_firstRule`). So a lexeme ends before every
character that does not glue with its last one (`isLexeme_of_not_glued`): this is all that the
longest match needs, whatever follows.
-/

set_option autoImplicit false

namespace Stabl.Lexer

open Regex MaximalMunch

/-! ### The first rule -/

theorem firstRule_eq_none {rules : List (Regex Char × Action)} {x : List Char} :
    firstRule rules x = none ↔ ∀ r ∈ rules, x ∉ r.1.language := by
  rw [firstRule, List.findSome?_eq_none_iff]
  refine forall₂_congr fun r _ => ?_
  rw [← accepts_iff]
  split <;> simp_all

/-- Some rule matches. -/
theorem exists_of_firstRule {rules : List (Regex Char × Action)} {x : List Char} {a : Action}
    (h : firstRule rules x = some a) : ∃ r ∈ rules, x ∈ r.1.language := by
  by_contra hnone
  rw [firstRule_eq_none.mpr fun r hr hx => hnone ⟨r, hr, hx⟩] at h
  cases h

/-- The rules after the literal ones. -/
def otherRules : List (Regex Char × Action) :=
  [(identifier, .identifier), (intconst, .intconst), (whiteSpace, .ignore), (comment, .ignore),
    (text "\"", .beginString), (any, .illegalCharacter)]

theorem firstRule_initialRules (x : List Char) : firstRule initialRules x =
    ((literalRules.find? fun r => r.1.toList = x).map fun r => Action.symbol r.2).or
      (firstRule otherRules x) := by
  have hliteral : ∀ rules : List (String × Sym),
      firstRule (rules.map fun r => (text r.1, Action.symbol r.2)) x =
        (rules.find? fun r => r.1.toList = x).map fun r => Action.symbol r.2 := by
    intro rules
    induction rules with
    | nil => rfl
    | cons r rules ih =>
        have haccepts : (text r.1).accepts x = decide (r.1.toList = x) := by
          rw [Bool.eq_iff_iff, accepts_iff, text, mem_literal, decide_eq_true_iff, eq_comm]
        rw [firstRule] at ih ⊢
        rw [List.map_cons, List.findSome?_cons, List.find?_cons, haccepts, ih]
        by_cases hr : r.1.toList = x <;> simp [hr]
  rw [← hliteral]
  exact List.findSome?_append

/-- A text that a literal rule matches. -/
theorem firstRule_literal {x : List Char} {s : String} {sym : Sym}
    (h : literalRules.find? (fun r => r.1.toList = x) = some (s, sym)) :
    firstRule initialRules x = some (.symbol sym) := by
  rw [firstRule_initialRules, h]
  rfl

/-- A text that no literal rule matches. -/
theorem firstRule_not_literal {x : List Char} (h : x ∉ literalRules.map fun r => r.1.toList) :
    firstRule initialRules x = firstRule otherRules x := by
  have hnone : literalRules.find? (fun r => r.1.toList = x) = none := by
    rw [List.find?_eq_none]
    intro r hr hx
    exact h (List.mem_map.mpr ⟨r, hr, by simpa using hx⟩)
  rw [firstRule_initialRules, hnone]
  rfl

/-- A text with a property that no literal has is matched by no literal rule. -/
theorem firstRule_of_no_literal {P : List Char → Prop} {x : List Char}
    (hliterals : ∀ r ∈ literalRules, ¬ P r.1.toList) (hx : P x) :
    firstRule initialRules x = firstRule otherRules x := by
  refine firstRule_not_literal fun hmem => ?_
  obtain ⟨r, hr, htext⟩ := List.mem_map.mp hmem
  exact hliterals r hr (htext ▸ hx)

/-! ### Identifiers -/

theorem mem_identifierPart {x : List Char} :
    x ∈ (seq (opt (char '_')) (cls Char.isAlphanum)).language ↔
      ∃ c : Char, c.isAlphanum = true ∧ (x = [c] ∨ x = ['_', c]) := by
  simp only [mem_seq, mem_opt, char, mem_cls, decide_eq_true_eq]
  constructor
  · rintro ⟨u, ⟨_, rfl, rfl⟩ | rfl, v, ⟨c, hc, rfl⟩, rfl⟩
    · exact ⟨c, hc, Or.inr rfl⟩
    · exact ⟨c, hc, Or.inl rfl⟩
  · rintro ⟨c, hc, rfl | rfl⟩
    · exact ⟨[], Or.inr rfl, [c], ⟨c, hc, rfl⟩, rfl⟩
    · exact ⟨['_'], Or.inl ⟨'_', rfl, rfl⟩, [c], ⟨c, hc, rfl⟩, rfl⟩

/-- `identifierTail` decides the repeated part of `identifier`. -/
theorem mem_identifierTail (x : List Char) :
    x ∈ (star (seq (opt (char '_')) (cls Char.isAlphanum))).language ↔
      identifierTail x = true := by
  have hcons : ∀ (c : Char) (x : List Char),
      c :: x ∈ (star (seq (opt (char '_')) (cls Char.isAlphanum))).language ↔
        c.isAlphanum = true ∧
            x ∈ (star (seq (opt (char '_')) (cls Char.isAlphanum))).language ∨
          c = '_' ∧ ∃ d y, x = d :: y ∧ d.isAlphanum = true ∧
            y ∈ (star (seq (opt (char '_')) (cls Char.isAlphanum))).language := by
    intro c x
    refine cons_mem_kstar.trans ?_
    simp only [mem_identifierPart]
    constructor
    · rintro ⟨u, ⟨d, hd, hu⟩, v, hv, rfl⟩
      rcases hu with hu | hu
      · obtain ⟨rfl, rfl⟩ : c = d ∧ u = [] := by simpa using hu
        exact Or.inl ⟨hd, hv⟩
      · obtain ⟨rfl, rfl⟩ : c = '_' ∧ u = [d] := by simpa using hu
        exact Or.inr ⟨rfl, d, v, rfl, hd, hv⟩
    · rintro (⟨hc, hx⟩ | ⟨rfl, d, y, rfl, hd, hy⟩)
      · exact ⟨[], ⟨c, hc, Or.inl rfl⟩, x, hx, rfl⟩
      · exact ⟨[d], ⟨d, hd, Or.inr rfl⟩, y, hy, rfl⟩
  have hunderscore : '_'.isAlphanum = false := by decide
  fun_induction identifierTail x with
  | case1 => exact iff_of_true ((nullable_iff _).mp rfl) rfl
  | case2 c x ih => simp [hcons, hunderscore, ih]
  | case3 c x hnot ih =>
      have hpair : ¬ (c = '_' ∧ ∃ d y, x = d :: y ∧ d.isAlphanum = true ∧
          y ∈ (star (seq (opt (char '_')) (cls Char.isAlphanum))).language) := by
        rintro ⟨rfl, d, y, rfl, _⟩
        exact hnot d y rfl rfl
      simp only [hcons, ih, hpair, or_false, Bool.and_eq_true]

/-- `isIdentifier` decides `identifier`. -/
theorem mem_identifier (x : List Char) : x ∈ identifier.language ↔ isIdentifier x = true := by
  rw [identifier, mem_seq]
  simp only [mem_cls, mem_identifierTail]
  cases x with
  | nil => simp [isIdentifier]
  | cons c x =>
      rw [isIdentifier, Bool.and_eq_true]
      constructor
      · rintro ⟨u, ⟨d, hd, rfl⟩, v, hv, huv⟩
        obtain ⟨rfl, rfl⟩ : d = c ∧ v = x := by simpa using huv
        exact ⟨hd, hv⟩
      · rintro ⟨hc, hx⟩
        exact ⟨[c], ⟨c, hc, rfl⟩, x, hx, rfl⟩

/-! ### Characters that glue -/

/-- The characters of words and numbers. -/
def wordChar (c : Char) : Bool := c.isAlphanum || c = '_'

/-- The characters can stand side by side in a lexeme that is no comment. -/
def glues (a b : Char) : Bool :=
  (wordChar a && wordChar b) ||
    (a, b) ∈ [(':', '='), ('!', '='), ('<', '|'), ('|', '>'), ('>', '='), ('<', '='), ('&', '&'),
      ('|', '|'), ('+', '0'), ('-', '0')]

/-- A text that begins like a comment. -/
def BeginsComment (x : List Char) : Prop := ['/', '*'] <+: x ∨ ['/', '/'] <+: x

/-- A digit is no letter. -/
theorem isAlpha_of_isDigit {c : Char} (h : c.isDigit = true) : c.isAlpha = false := by
  have hlast := of_decide_eq_true ((Bool.and_eq_true _ _).mp h).2
  have hdigit : c.toNat ≤ 57 := UInt32.le_iff_toNat_le.mp hlast
  by_contra halpha
  rw [Bool.not_eq_false] at halpha
  cases (Bool.or_eq_true _ _).mp halpha with
  | inl hupper =>
      have hfirst := (of_decide_eq_true hupper).1
      have hletter : 65 ≤ c.toNat := UInt32.le_iff_toNat_le.mp hfirst
      omega
  | inr hlower =>
      have hfirst := of_decide_eq_true ((Bool.and_eq_true _ _).mp hlower).1
      have hletter : 97 ≤ c.toNat := UInt32.le_iff_toNat_le.mp hfirst
      omega

/-- A word character glues with word characters only. -/
theorem glues_of_wordChar {b c : Char} (hb : wordChar b = true) (hc : wordChar c = false) :
    glues b c = false := by
  have hfirst : ∀ p ∈ [(':', '='), ('!', '='), ('<', '|'), ('|', '>'), ('>', '='), ('<', '='),
      ('&', '&'), ('|', '|'), ('+', '0'), ('-', '0')], wordChar p.1 = false := by decide
  have hnot : (b, c) ∉ [(':', '='), ('!', '='), ('<', '|'), ('|', '>'), ('>', '='), ('<', '='),
      ('&', '&'), ('|', '|'), ('+', '0'), ('-', '0')] := by
    intro hmem
    have hfalse := hfirst _ hmem
    rw [hb] at hfalse
    cases hfalse
  rw [glues, hb, hc, decide_eq_false hnot]
  rfl

/-- Nothing glues with a blank. -/
theorem glues_blank (b : Char) : glues b ' ' = false := by
  simp [glues, wordChar]

theorem wordChar_of_isDigit {c : Char} (h : c.isDigit = true) : wordChar c = true := by
  simp [wordChar, Char.isAlphanum, h]

theorem wordChar_of_identifierTail (x : List Char) (h : identifierTail x = true) :
    ∀ c ∈ x, wordChar c = true := by
  fun_induction identifierTail x with
  | case1 => exact List.forall_mem_nil _
  | case2 c x ih =>
      rw [Bool.and_eq_true] at h
      simpa [wordChar, h.1] using ih h.2
  | case3 c x _ ih =>
      rw [Bool.and_eq_true] at h
      simpa [wordChar, h.1] using ih h.2

theorem wordChar_of_isIdentifier {x : List Char} (h : isIdentifier x = true) :
    ∀ c ∈ x, wordChar c = true := by
  cases x with
  | nil => exact List.forall_mem_nil _
  | cons c x =>
      rw [isIdentifier, Bool.and_eq_true] at h
      refine List.forall_mem_cons.mpr ⟨?_, wordChar_of_identifierTail x h.2⟩
      simp [wordChar, Char.isAlphanum, h.1]

theorem glued_of_wordChars {x : List Char} (h : ∀ c ∈ x, wordChar c = true) :
    x.IsChain fun a b => glues a b = true := by
  have hpairs : x.Pairwise fun a b => glues a b = true :=
    List.pairwise_of_forall_mem_list fun a ha b hb => by simp [glues, h a ha, h b hb]
  exact hpairs.isChain

/-- The words of `intconst`: zero with a sign or without one, and numbers that do not begin with
zero. -/
theorem mem_intconst {x : List Char} : x ∈ intconst.language ↔
    x = ['0'] ∨ x = ['+', '0'] ∨ x = ['-', '0'] ∨
      ∃ c y, x = c :: y ∧ c.isDigit = true ∧ c ≠ '0' ∧ ∀ d ∈ y, d.isDigit = true := by
  simp only [intconst, mem_alt, mem_seq, mem_opt, mem_cls, char, mem_star_cls]
  constructor
  · rintro (⟨u, ⟨c, hc, rfl⟩ | rfl, v, ⟨d, hd, rfl⟩, rfl⟩ | ⟨u, ⟨c, hc, rfl⟩, v, hv, rfl⟩)
    · obtain rfl : d = '0' := by simpa using hd
      obtain rfl | rfl : c = '+' ∨ c = '-' := by simpa using hc
      · exact Or.inr (Or.inl rfl)
      · exact Or.inr (Or.inr (Or.inl rfl))
    · obtain rfl : d = '0' := by simpa using hd
      exact Or.inl rfl
    · obtain ⟨hdigit, hzero⟩ : c.isDigit = true ∧ c ≠ '0' := by simpa using hc
      exact Or.inr (Or.inr (Or.inr ⟨c, v, rfl, hdigit, hzero, hv⟩))
  · rintro (rfl | rfl | rfl | ⟨c, y, rfl, hdigit, hzero, hy⟩)
    · exact Or.inl ⟨[], Or.inr rfl, ['0'], ⟨'0', rfl, rfl⟩, rfl⟩
    · exact Or.inl ⟨['+'], Or.inl ⟨'+', rfl, rfl⟩, ['0'], ⟨'0', rfl, rfl⟩, rfl⟩
    · exact Or.inl ⟨['-'], Or.inl ⟨'-', rfl, rfl⟩, ['0'], ⟨'0', rfl, rfl⟩, rfl⟩
    · exact Or.inr ⟨[c], ⟨c, by simp [hdigit, hzero], rfl⟩, y, hy, rfl⟩

/-! ### Comments -/

/-- The comments that end with a star and a slash: after the opening one there is no star and up to
the end no further closing one, or there are stars only. -/
theorem mem_traditionalComment {x : List Char} : x ∈ traditionalComment.language ↔
    (∃ c v, c ≠ '*' ∧ ¬ ['*', '/'] <:+: v ∧ x = '/' :: '*' :: c :: v ++ ['*', '/']) ∨
      ∃ n, x = '/' :: '*' :: List.replicate (n + 1) '*' ++ ['/'] := by
  have hopen : "/*".toList = ['/', '*'] := rfl
  have hclose : "*/".toList = ['*', '/'] := rfl
  simp only [traditionalComment, text, char, plus, mem_alt, mem_seq, mem_cls, mem_literal, hopen,
    hclose, mem_upTo_literal, mem_star_cls, decide_eq_true_eq]
  refine or_congr ⟨?_, ?_⟩ ⟨?_, ?_⟩
  · rintro ⟨_, rfl, _, ⟨_, ⟨c, hc, rfl⟩, _, ⟨v, hv, rfl⟩, rfl⟩, rfl⟩
    exact ⟨c, v, by simpa using hc, hv, rfl⟩
  · rintro ⟨c, v, hc, hv, rfl⟩
    exact ⟨_, rfl, _, ⟨[c], ⟨c, by simpa using hc, rfl⟩, _, ⟨v, hv, rfl⟩, rfl⟩, rfl⟩
  · rintro ⟨_, rfl, _, ⟨_, ⟨_, ⟨_, rfl, rfl⟩, v, hv, rfl⟩, _, ⟨_, rfl, rfl⟩, rfl⟩, rfl⟩
    refine ⟨v.length, ?_⟩
    rw [List.replicate_succ, ← List.eq_replicate_of_mem hv]
    rfl
  · rintro ⟨n, rfl⟩
    exact ⟨_, rfl, _, ⟨_, ⟨['*'], ⟨'*', rfl, rfl⟩, List.replicate n '*',
      fun _ hc => List.eq_of_mem_replicate hc, rfl⟩, ['/'], ⟨'/', rfl, rfl⟩, rfl⟩, rfl⟩

/-- The comments up to the end of a line, and the line terminator, if there is one. -/
theorem mem_endOfLineComment {x : List Char} : x ∈ endOfLineComment.language ↔
    ∃ v, (∀ c ∈ v, c ≠ '\r' ∧ c ≠ '\n') ∧ ∃ w, (w = [] ∨ w = ['\r'] ∨ w = ['|'] ∨ w = ['\n']) ∧
      x = '/' :: '/' :: v ++ w := by
  have hopen : "//".toList = ['/', '/'] := rfl
  simp only [endOfLineComment, text, inputCharacter, lineTerminator, mem_seq, mem_opt, mem_cls,
    mem_literal, hopen, mem_star_cls]
  constructor
  · rintro ⟨_, rfl, _, ⟨v, hv, w, hw, rfl⟩, rfl⟩
    refine ⟨v, fun c hc => by simpa using hv c hc, w, ?_, rfl⟩
    rcases hw with ⟨c, hc, rfl⟩ | rfl
    · obtain (rfl | rfl) | rfl : (c = '\r' ∨ c = '|') ∨ c = '\n' := by simpa using hc
      · exact Or.inr (Or.inl rfl)
      · exact Or.inr (Or.inr (Or.inl rfl))
      · exact Or.inr (Or.inr (Or.inr rfl))
    · exact Or.inl rfl
  · rintro ⟨v, hv, w, hw, rfl⟩
    refine ⟨_, rfl, _, ⟨v, fun c hc => by simpa using hv c hc, w, ?_, rfl⟩, rfl⟩
    rcases hw with rfl | rfl | rfl | rfl
    · exact Or.inr rfl
    · exact Or.inl ⟨'\r', rfl, rfl⟩
    · exact Or.inl ⟨'|', rfl, rfl⟩
    · exact Or.inl ⟨'\n', rfl, rfl⟩

theorem beginsComment_of_mem {x : List Char} (h : x ∈ comment.language) : BeginsComment x := by
  rcases mem_alt.mp h with h | h
  · rcases mem_traditionalComment.mp h with ⟨c, v, _, _, rfl⟩ | ⟨n, rfl⟩
    · exact Or.inl ⟨_, rfl⟩
    · exact Or.inl ⟨_, rfl⟩
  · obtain ⟨v, _, w, _, rfl⟩ := mem_endOfLineComment.mp h
    exact Or.inr ⟨_, rfl⟩

/-- Two characters that stand side by side in a match glue, or the match is a comment. -/
theorem glued_of_firstRule {x : List Char} {a : Action} (h : firstRule initialRules x = some a) :
    (x.IsChain fun a b => glues a b = true) ∨ x ∈ comment.language := by
  obtain ⟨r, hr, hx⟩ := exists_of_firstRule h
  rcases List.mem_append.mp hr with hr | hr
  · obtain ⟨⟨s, sym⟩, hs, rfl⟩ := List.mem_map.mp hr
    rw [text, mem_literal] at hx
    subst hx
    have hliterals : ∀ r ∈ literalRules, r.1.toList.IsChain fun a b => glues a b = true := by
      decide
    exact Or.inl (hliterals _ hs)
  · have hsingle : ∀ c : Char, [c].IsChain fun a b => glues a b = true := List.IsChain.singleton
    simp only [List.mem_cons, List.not_mem_nil, or_false] at hr
    rcases hr with rfl | rfl | rfl | rfl | rfl | rfl
    · exact Or.inl (glued_of_wordChars (wordChar_of_isIdentifier ((mem_identifier x).mp hx)))
    · rcases mem_intconst.mp hx with rfl | rfl | rfl | ⟨c, y, rfl, hc, _, hy⟩
      · exact Or.inl (hsingle '0')
      · exact Or.inl (by decide)
      · exact Or.inl (by decide)
      · exact Or.inl (glued_of_wordChars (List.forall_mem_cons.mpr
          ⟨wordChar_of_isDigit hc, fun d hd => wordChar_of_isDigit (hy d hd)⟩))
    · obtain ⟨c, rfl⟩ : ∃ c, x = [c] := by
        rcases hx with ⟨c, _, rfl⟩ | ⟨c, _, rfl⟩ <;> exact ⟨c, rfl⟩
      exact Or.inl (hsingle c)
    · exact Or.inr hx
    · rw [text, mem_literal] at hx
      exact Or.inl (hx ▸ hsingle '"')
    · obtain ⟨c, _, rfl⟩ := hx
      exact Or.inl (hsingle c)

/-! ### The end of a lexeme -/

/-- A lexeme ends before every text that does not begin with a character that glues with its last
one, unless the text continues a comment. -/
theorem isLexeme_of_not_glued {x v : List Char} {a : Action} (hx : x ≠ [])
    (hrule : firstRule initialRules x = some a)
    (hglue : ∀ b ∈ x.getLast?, ∀ c ∈ v.head?, glues b c = false)
    (hcomment : ¬ BeginsComment (x ++ v)) : IsLexeme (firstRule initialRules) a x v := by
  refine ⟨hx, hrule, fun y hy hprefix => ?_⟩
  obtain ⟨v', rfl⟩ := hprefix
  cases hmatch : firstRule initialRules (x ++ y) with
  | none => rfl
  | some b =>
      exfalso
      rcases glued_of_firstRule hmatch with hchain | hmem
      · have hadjacent := (List.isChain_append.mp hchain).2.2
        have hlast := List.getLast?_eq_some_getLast hx
        obtain ⟨c, y, rfl⟩ := List.exists_cons_of_ne_nil hy
        have hglued := hadjacent _ hlast c rfl
        rw [hglue _ hlast c rfl] at hglued
        cases hglued
      · refine hcomment ?_
        rw [← List.append_assoc]
        exact (beginsComment_of_mem hmem).imp (fun h => h.trans (List.prefix_append _ v'))
          fun h => h.trans (List.prefix_append _ v')

/-- A blank is a lexeme before every text, and is skipped. -/
theorem reads_blank (v : List Char) : scanner.Reads v .yyinitial [' '] [] .yyinitial := by
  have hlexeme : IsLexeme (firstRule initialRules) .ignore [' '] v := by
    refine isLexeme_of_not_glued (List.cons_ne_nil _ _) ?_ ?_ ?_
    · rw [firstRule_not_literal (by decide)]
      decide
    · intro b hb c _
      obtain rfl : ' ' = b := by simpa using hb
      simp [glues, wordChar]
    · rintro (⟨w, hw⟩ | ⟨w, hw⟩) <;> simp at hw
  exact Scanner.Reads.lexeme (t := none) hlexeme rfl

end Stabl.Lexer
