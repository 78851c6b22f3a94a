import Stabl.SimSee.Printer
import Stabl.SimSee.Semantics

/-!
# `Stabl.Proofs.SimSee.Printing`: what a printed expression says

The text of an expression is read here as a `PrintedSum`: words with the signs `+` and `-`
between them, where a word is an operand that is printed as a whole. A text has only one such
reading (`chars_unique`). It does not show how the `Add`s and `Sub`s were nested, and that
matters where a word comes into the right operand of a `Sub`: then it is subtracted once
more.

`signs` lists for each word whether it is subtracted in the end. Two expressions with one
text and with the same signs have the same value (`evalExpr_eq_of_signs`), and where the
words are different identifiers nothing less will do (`signs_eq_of_sameValue`).
-/

set_option autoImplicit false

namespace Stabl.SimSee

/-! ### Printed sums -/

inductive SumSign where
  | plus
  | minus
deriving DecidableEq, Repr

/-- The operators that are printed between parentheses. -/
inductive Connective where
  | or | and | equals
deriving DecidableEq, Repr

/-- The words without parentheses. -/
inductive PlainWord where
  | id (vname : String)
  | int (n : BitVec 63)
  | bool (b : Bool)
deriving DecidableEq, Repr

mutual

/-- An operand of a sum, as it is printed. -/
inductive Word where
  | plain (p : PlainWord)
  | input (t : Typ)
  | not (x : PrintedSum)
  | binary (o : Connective) (x y : PrintedSum)

/-- Words with signs between them. -/
inductive PrintedSum where
  | last (w : Word)
  | more (w : Word) (o : SumSign) (x : PrintedSum)

end

def SumSign.chars : SumSign → List Char
  | .plus => [' ', '+', ' ']
  | .minus => [' ', '-', ' ']

def Connective.chars : Connective → List Char
  | .or => [' ', 'o', 'r', ' ']
  | .and => [' ', 'a', 'n', 'd', ' ']
  | .equals => [' ', '=', ' ']

def PlainWord.chars : PlainWord → List Char
  | .id vname => vname.toList
  | .int n => (toString n.toInt).toList
  | .bool b => (toString b).toList

/-- What a word begins with, up to a parenthesis. -/
def Word.lead : Word → List Char
  | .plain p => p.chars
  | .input _ => ['i', 'n', 'p', 'u', 't']
  | .not _ => ['n', 'o', 't']
  | .binary _ _ _ => []

mutual

/-- The rest of a word. -/
def Word.tail : Word → List Char
  | .plain _ => []
  | .input t => '(' :: ((stringOfTyp t).toList ++ [')'])
  | .not x => '(' :: (x.chars ++ [')'])
  | .binary o x y => '(' :: (x.chars ++ ')' :: (o.chars ++ '(' :: (y.chars ++ [')'])))

def PrintedSum.chars : PrintedSum → List Char
  | .last w => w.lead ++ w.tail
  | .more w o x => w.lead ++ w.tail ++ o.chars ++ x.chars

end

/-- Puts two sums behind each other. -/
def PrintedSum.append : PrintedSum → SumSign → PrintedSum → PrintedSum
  | .last w, o, y => .more w o y
  | .more w o' x, o, y => .more w o' (x.append o y)

@[simp] theorem PrintedSum.chars_append (o : SumSign) (y : PrintedSum) :
    ∀ x : PrintedSum, (x.append o y).chars = x.chars ++ o.chars ++ y.chars
  | .last w => by simp [append, chars]
  | .more w o' x => by simp [append, chars, chars_append o y x]

/-- The printed form of an expression. -/
def text : Expr → PrintedSum
  | .id vname => .last (.plain (.id vname))
  | .intConst n => .last (.plain (.int n))
  | .boolConst b => .last (.plain (.bool b))
  | .add e1 e2 => (text e1).append .plus (text e2)
  | .sub e1 e2 => (text e1).append .minus (text e2)
  | .not e => .last (.not (text e))
  | .or e1 e2 => .last (.binary .or (text e1) (text e2))
  | .and e1 e2 => .last (.binary .and (text e1) (text e2))
  | .equals e1 e2 => .last (.binary .equals (text e1) (text e2))
  | .input t => .last (.input t)

theorem toList_stringOfExpr (e : Expr) : (stringOfExpr e).toList = (text e).chars := by
  induction e with
  | id vname | intConst n | boolConst b =>
      simp [stringOfExpr, text, PrintedSum.chars, Word.lead, Word.tail, PlainWord.chars]
  | add e1 e2 ih1 ih2 | sub e1 e2 ih1 ih2 =>
      simp [stringOfExpr, text, SumSign.chars, ih1, ih2]
  | not e ih => simp [stringOfExpr, text, PrintedSum.chars, Word.lead, Word.tail, ih]
  | or e1 e2 ih1 ih2 | and e1 e2 ih1 ih2 | equals e1 e2 ih1 ih2 =>
      simp [stringOfExpr, text, PrintedSum.chars, Word.lead, Word.tail, Connective.chars, ih1, ih2]
  | input t => simp [stringOfExpr, text, PrintedSum.chars, Word.lead, Word.tail]

/-! ### A text has one reading -/

/-- The identifier is one that the lexer can produce. -/
def PlainWord.lexable : PlainWord → Bool
  | .id vname => lexesAsId vname
  | .int _ | .bool _ => true

mutual

def Word.lexable : Word → Bool
  | .plain p => p.lexable
  | .input _ => true
  | .not x => x.lexable
  | .binary _ x y => x.lexable && y.lexable

def PrintedSum.lexable : PrintedSum → Bool
  | .last w => w.lexable
  | .more w _ x => w.lexable && x.lexable

end

theorem PrintedSum.lexable_append (o : SumSign) (y : PrintedSum) :
    ∀ x : PrintedSum, (x.append o y).lexable = (x.lexable && y.lexable)
  | .last w => by simp [append, lexable]
  | .more w o' x => by simp [append, lexable, lexable_append o y x, Bool.and_assoc]

theorem lexable_text (e : Expr) : (text e).lexable = e.lexable := by
  induction e with
  | id vname | intConst n | boolConst b | input t => rfl
  | add e1 e2 ih1 ih2 | sub e1 e2 ih1 ih2 =>
      rw [text, PrintedSum.lexable_append, ih1, ih2]
      rfl
  | not e ih => exact ih
  | or e1 e2 ih1 ih2 | and e1 e2 ih1 ih2 | equals e1 e2 ih1 ih2 =>
      rw [Expr.lexable, ← ih1, ← ih2]
      rfl

/-- The characters that a beginning of a word does not have. -/
def isDelimiter (c : Char) : Bool := c = ' ' || c = '(' || c = ')'

/-- Two texts are cut at the same place where the first delimiter stands. -/
theorem append_cancel_delimiter {a b u v : List Char} (ha : ∀ c ∈ a, isDelimiter c = false)
    (hb : ∀ c ∈ b, isDelimiter c = false) (hu : ∀ c ∈ u.head?, isDelimiter c = true)
    (hv : ∀ c ∈ v.head?, isDelimiter c = true) (h : a ++ u = b ++ v) : a = b ∧ u = v := by
  induction a generalizing b with
  | nil =>
      cases b with
      | nil => exact ⟨rfl, h⟩
      | cons d b =>
          have hd := hu d (by rw [← List.nil_append u, h]; rfl)
          rw [hb d List.mem_cons_self] at hd
          cases hd
  | cons c a ih =>
      cases b with
      | nil =>
          have hc := hv c (by rw [← List.nil_append v, ← h]; rfl)
          rw [ha c List.mem_cons_self] at hc
          cases hc
      | cons d b =>
          simp only [List.cons_append, List.cons.injEq] at h
          obtain ⟨rfl, h⟩ := h
          obtain ⟨rfl, rfl⟩ := ih (fun c hc => ha c (List.mem_cons_of_mem _ hc))
            (fun c hc => hb c (List.mem_cons_of_mem _ hc)) h
          exact ⟨rfl, rfl⟩

theorem toList_toString_int (n : Int) : (toString n).toList =
    if n < 0 then '-' :: Nat.toDigits 10 n.natAbs else Nat.toDigits 10 n.natAbs := by
  cases n with
  | ofNat m =>
      have hnonneg : ¬ Int.ofNat m < 0 := by simp
      rw [if_neg hnonneg]
      simp [toString, Int.repr, Nat.repr]
  | negSucc m =>
      have hneg : Int.negSucc m < 0 := Int.negSucc_lt_zero m
      rw [if_pos hneg]
      simp [toString, Int.repr, Nat.repr]

theorem toDigits_injective {m n : Nat} (h : Nat.toDigits 10 m = Nat.toDigits 10 n) : m = n := by
  rw [← Nat.ofDigitChars_ten_toDigits (n := m), h, Nat.ofDigitChars_ten_toDigits]

/-- A decimal numeral has no sign in it. -/
theorem minus_not_mem_toDigits (n : Nat) : '-' ∉ Nat.toDigits 10 n := by
  intro h
  have hdigit := Nat.isDigit_of_mem_toDigits (by decide) (by decide) h
  revert hdigit
  decide

theorem toString_int_injective {m n : Int} (h : (toString m).toList = (toString n).toList) :
    m = n := by
  rw [toList_toString_int, toList_toString_int] at h
  by_cases hm : m < 0
  · by_cases hn : n < 0
    · rw [if_pos hm, if_pos hn] at h
      have := toDigits_injective (List.cons.inj h).2
      omega
    · rw [if_pos hm, if_neg hn] at h
      exact absurd (h ▸ List.mem_cons_self) (minus_not_mem_toDigits n.natAbs)
  · by_cases hn : n < 0
    · rw [if_neg hm, if_pos hn] at h
      exact absurd (h.symm ▸ List.mem_cons_self) (minus_not_mem_toDigits m.natAbs)
    · rw [if_neg hm, if_neg hn] at h
      have := toDigits_injective h
      omega

/-- The characters of a number. -/
theorem mem_toString_int {n : Int} {c : Char} (h : c ∈ (toString n).toList) :
    c.isDigit = true ∨ c = '-' := by
  rw [toList_toString_int] at h
  split at h
  · obtain rfl | h := List.mem_cons.mp h
    · exact Or.inr rfl
    · exact Or.inl (Nat.isDigit_of_mem_toDigits (by decide) (by decide) h)
  · exact Or.inl (Nat.isDigit_of_mem_toDigits (by decide) (by decide) h)

/-- An identifier starts with a letter, goes on with letters and digits, and is not a word
with a meaning of its own. -/
theorem lexesAsId_cases {s : String} (h : lexesAsId s = true) :
    ∃ c cs, s.toList = c :: cs ∧ isLetter c = true ∧
      (∀ d ∈ s.toList, (isLetter d || d.isDigit) = true) ∧ s ∉ reservedWords := by
  unfold lexesAsId at h
  split at h
  · cases h
  · rename_i c cs hs
    simp only [Bool.and_eq_true, Bool.not_eq_true', List.all_eq_true] at h
    obtain ⟨⟨hc, hcs⟩, hreserved⟩ := h
    refine ⟨c, cs, hs, hc, fun d hd => ?_, ?_⟩
    · rw [hs] at hd
      obtain rfl | hd := List.mem_cons.mp hd
      · rw [hc, Bool.true_or]
      · exact hcs d hd
    · simpa using hreserved

theorem isLetter_iff {c : Char} : isLetter c = true ↔
    97 ≤ c.toNat ∧ c.toNat ≤ 122 ∨ 65 ≤ c.toNat ∧ c.toNat ≤ 90 := by
  simp only [isLetter, decide_eq_true_eq]
  exact Iff.rfl

/-- No word that begins with a letter begins as a number does. -/
theorem not_isLetter_of_numeral {c : Char} (h : c.isDigit = true ∨ c = '-') :
    isLetter c = false := by
  rw [Bool.eq_false_iff]
  intro hletter
  have hbounds := isLetter_iff.mp hletter
  obtain h | rfl := h
  · have hdigit := Char.isDigit_iff_toNat.mp h
    have h0 : '0'.toNat = 48 := rfl
    have h9 : '9'.toNat = 57 := rfl
    omega
  · revert hbounds
    decide

theorem isDelimiter_iff {c : Char} : isDelimiter c = true ↔ c = ' ' ∨ c = '(' ∨ c = ')' := by
  simp [isDelimiter, or_assoc]

/-- Letters, digits and the minus sign do not end a word. -/
theorem not_isDelimiter {c : Char} (h : isLetter c = true ∨ c.isDigit = true ∨ c = '-') :
    isDelimiter c = false := by
  rw [Bool.eq_false_iff]
  intro hdelimiter
  rw [isDelimiter_iff] at hdelimiter
  obtain rfl | rfl | rfl := hdelimiter <;> revert h <;> decide

namespace PlainWord

theorem not_isDelimiter_of_mem {p : PlainWord} (hp : p.lexable = true) :
    ∀ c ∈ p.chars, isDelimiter c = false := by
  intro c hc
  cases p with
  | id vname =>
      obtain ⟨_, _, _, _, hall, _⟩ := lexesAsId_cases hp
      have hcases := hall c hc
      rw [Bool.or_eq_true] at hcases
      exact not_isDelimiter (hcases.imp_right Or.inl)
  | int n => exact not_isDelimiter (Or.inr (mem_toString_int hc))
  | bool b =>
      have hchars : ∀ b : Bool, (PlainWord.bool b).chars.all (!isDelimiter ·) = true := by decide
      simpa using List.all_eq_true.mp (hchars b) c hc

/-- Words that begin with a letter are no numbers. -/
theorem chars_ne_int {p : PlainWord} {c : Char} {cs : List Char} (h : p.chars = c :: cs)
    (hc : isLetter c = true) (n : BitVec 63) : p.chars ≠ (int n).chars := by
  intro heq
  have hmem : c ∈ (int n).chars := by
    rw [← heq, h]
    exact List.mem_cons_self
  rw [not_isLetter_of_numeral (mem_toString_int hmem)] at hc
  cases hc

theorem bool_begins (b : Bool) : ∃ c cs, (bool b).chars = c :: cs ∧ isLetter c = true := by
  cases b
  · exact ⟨'f', ['a', 'l', 's', 'e'], rfl, rfl⟩
  · exact ⟨'t', ['r', 'u', 'e'], rfl, rfl⟩

theorem id_begins {vname : String} (h : lexesAsId vname = true) :
    ∃ c cs, (id vname).chars = c :: cs ∧ isLetter c = true := by
  obtain ⟨c, cs, hcs, hc, _⟩ := lexesAsId_cases h
  exact ⟨c, cs, hcs, hc⟩

theorem id_ne_bool {vname : String} (h : lexesAsId vname = true) (b : Bool) :
    (id vname).chars ≠ (bool b).chars := by
  intro heq
  obtain ⟨_, _, _, _, _, hreserved⟩ := lexesAsId_cases h
  have hname : vname = toString b := String.toList_inj.mp heq
  rw [hname] at hreserved
  revert hreserved
  cases b <;> decide

theorem chars_injective {p q : PlainWord} (hp : p.lexable = true) (hq : q.lexable = true)
    (h : p.chars = q.chars) : p = q := by
  cases p with
  | id vname =>
      cases q with
      | id vname' => rw [String.toList_inj.mp h]
      | int n =>
          obtain ⟨c, cs, hcs, hc⟩ := id_begins hp
          exact absurd h (chars_ne_int hcs hc n)
      | bool b => exact absurd h (id_ne_bool hp b)
  | int n =>
      cases q with
      | id vname =>
          obtain ⟨c, cs, hcs, hc⟩ := id_begins hq
          exact absurd h.symm (chars_ne_int hcs hc n)
      | int n' => rw [BitVec.toInt_inj.mp (toString_int_injective h)]
      | bool b =>
          obtain ⟨c, cs, hcs, hc⟩ := bool_begins b
          exact absurd h.symm (chars_ne_int hcs hc n)
  | bool b =>
      cases q with
      | id vname => exact absurd h.symm (id_ne_bool hq b)
      | int n =>
          obtain ⟨c, cs, hcs, hc⟩ := bool_begins b
          exact absurd h (chars_ne_int hcs hc n)
      | bool b' => cases b <;> cases b' <;> first | rfl | (revert h; decide)

end PlainWord

theorem Word.not_isDelimiter_of_mem_lead {w : Word} (hw : w.lexable = true) :
    ∀ c ∈ w.lead, isDelimiter c = false := by
  cases w with
  | plain p => exact PlainWord.not_isDelimiter_of_mem hw
  | input t =>
      show ∀ c ∈ ['i', 'n', 'p', 'u', 't'], isDelimiter c = false
      simp [isDelimiter]
  | not x =>
      show ∀ c ∈ ['n', 'o', 't'], isDelimiter c = false
      simp [isDelimiter]
  | binary o x y => exact fun c hc => absurd hc List.not_mem_nil

/-- What can stand after a word: the end, a sign, or the end of parentheses. -/
def EndsWord (u : List Char) : Prop := ∀ c ∈ u.head?, c = ' ' ∨ c = ')'

/-- What can stand after a sum. -/
def EndsSum (u : List Char) : Prop := ∀ c ∈ u.head?, c = ')'

theorem EndsSum.endsWord {u : List Char} (h : EndsSum u) : EndsWord u :=
  fun c hc => Or.inr (h c hc)

theorem endsSum_rparen (u : List Char) : EndsSum (')' :: u) := by
  intro c hc
  exact (Option.some.inj hc).symm

theorem endsWord_sign (o : SumSign) (u : List Char) : EndsWord (o.chars ++ u) := by
  intro c hc
  cases o <;> exact Or.inl (Option.some.inj hc).symm

theorem SumSign.not_endsSum (o : SumSign) (u : List Char) : ¬ EndsSum (o.chars ++ u) := by
  intro h
  have hspace : ' ' = ')' := h ' ' (by cases o <;> rfl)
  revert hspace
  decide

theorem EndsWord.tail {u : List Char} (h : EndsWord u) (w : Word) :
    ∀ c ∈ (w.tail ++ u).head?, isDelimiter c = true := by
  intro c hc
  rw [isDelimiter_iff]
  cases w with
  | plain p =>
      obtain hc | hc := h c hc
      · exact Or.inl hc
      · exact Or.inr (Or.inr hc)
  | input t | not x | binary o x y => exact Or.inr (Or.inl (Option.some.inj hc).symm)

/-- A parenthesis does not stand after a word. -/
theorem EndsWord.ne_lparen {u v : List Char} (h : EndsWord u) : u ≠ '(' :: v := by
  rintro rfl
  have hcases := h '(' rfl
  revert hcases
  decide

theorem SumSign.chars_cancel {o o' : SumSign} {u u' : List Char}
    (h : o.chars ++ u = o'.chars ++ u') : o = o' ∧ u = u' := by
  cases o <;> cases o' <;> simp_all [SumSign.chars]

theorem Connective.chars_cancel {o o' : Connective} {u u' : List Char}
    (h : o.chars ++ u = o'.chars ++ u') : o = o' ∧ u = u' := by
  cases o <;> cases o' <;> simp_all [Connective.chars]

/-- Words with one text before their ends begin in the same way, up to the first delimiter. -/
theorem Word.cut {w w' : Word} {u u' : List Char} (hw : w.lexable = true)
    (hw' : w'.lexable = true) (hu : EndsWord u) (hu' : EndsWord u')
    (h : w.lead ++ (w.tail ++ u) = w'.lead ++ (w'.tail ++ u')) :
    w.lead = w'.lead ∧ w.tail ++ u = w'.tail ++ u' :=
  append_cancel_delimiter (not_isDelimiter_of_mem_lead hw) (not_isDelimiter_of_mem_lead hw')
    (hu.tail w) (hu'.tail w') h

/-- A word without parentheses has one reading. -/
theorem PlainWord.chars_unique {p : PlainWord} {w : Word} {u u' : List Char}
    (hp : p.lexable = true) (hw : w.lexable = true) (hu : EndsWord u)
    (hlead : p.chars = w.lead) (htail : u = w.tail ++ u') : .plain p = w ∧ u = u' := by
  cases w with
  | plain q => exact ⟨congrArg Word.plain (PlainWord.chars_injective hp hw hlead), htail⟩
  | input t | not x | binary o x y => exact absurd htail hu.ne_lparen

theorem stringOfTyp_cancel {t t' : Typ} {u u' : List Char}
    (h : (stringOfTyp t).toList ++ [')'] ++ u = (stringOfTyp t').toList ++ [')'] ++ u') :
    t = t' ∧ u = u' := by
  cases t <;> cases t' <;> simp_all [stringOfTyp]

mutual

theorem Word.chars_unique : ∀ (w w' : Word) {u u' : List Char}, w.lexable = true →
    w'.lexable = true → EndsWord u → EndsWord u' →
    w.lead ++ (w.tail ++ u) = w'.lead ++ (w'.tail ++ u') → w = w' ∧ u = u'
  | .plain p, w', u, u', hw, hw', hu, hu', h => by
      obtain ⟨hlead, htail⟩ := Word.cut hw hw' hu hu' h
      exact PlainWord.chars_unique hw hw' hu hlead htail
  | .input t, w', u, u', hw, hw', hu, hu', h => by
      obtain ⟨hlead, htail⟩ := Word.cut hw hw' hu hu' h
      cases w' with
      | plain p =>
          obtain ⟨hword, rfl⟩ := PlainWord.chars_unique hw' hw hu' hlead.symm htail.symm
          exact ⟨hword.symm, rfl⟩
      | input t' =>
          obtain ⟨rfl, rfl⟩ := stringOfTyp_cancel (List.cons.inj htail).2
          exact ⟨rfl, rfl⟩
      | not x | binary o x y => cases hlead
  | .not x, w', u, u', hw, hw', hu, hu', h => by
      obtain ⟨hlead, htail⟩ := Word.cut hw hw' hu hu' h
      cases w' with
      | plain p =>
          obtain ⟨hword, rfl⟩ := PlainWord.chars_unique hw' hw hu' hlead.symm htail.symm
          exact ⟨hword.symm, rfl⟩
      | input t | binary o x y => cases hlead
      | not x' =>
          have hrest : x.chars ++ ')' :: u = x'.chars ++ ')' :: u' := by
            simpa [Word.tail] using htail
          obtain ⟨rfl, hafter⟩ := PrintedSum.chars_unique x x' hw hw' (endsSum_rparen u)
            (endsSum_rparen u') hrest
          exact ⟨rfl, (List.cons.inj hafter).2⟩
  | .binary o x y, w', u, u', hw, hw', hu, hu', h => by
      obtain ⟨hlead, htail⟩ := Word.cut hw hw' hu hu' h
      cases w' with
      | plain p =>
          obtain ⟨hword, rfl⟩ := PlainWord.chars_unique hw' hw hu' hlead.symm htail.symm
          exact ⟨hword.symm, rfl⟩
      | input t | not x => cases hlead
      | binary o' x' y' =>
          obtain ⟨hx, hy⟩ := Bool.and_eq_true_iff.mp hw
          obtain ⟨hx', hy'⟩ := Bool.and_eq_true_iff.mp hw'
          have hrest : x.chars ++ ')' :: (o.chars ++ '(' :: (y.chars ++ ')' :: u)) =
              x'.chars ++ ')' :: (o'.chars ++ '(' :: (y'.chars ++ ')' :: u')) := by
            simpa [Word.tail] using htail
          -- The operands are read one after the other, with the operator between them.
          obtain ⟨rfl, hafter⟩ := PrintedSum.chars_unique x x' hx hx' (endsSum_rparen _)
            (endsSum_rparen _) hrest
          obtain ⟨rfl, hsecond⟩ := Connective.chars_cancel (List.cons.inj hafter).2
          obtain ⟨rfl, hend⟩ := PrintedSum.chars_unique y y' hy hy' (endsSum_rparen u)
            (endsSum_rparen u') (List.cons.inj hsecond).2
          exact ⟨rfl, (List.cons.inj hend).2⟩

theorem PrintedSum.chars_unique : ∀ (x x' : PrintedSum) {u u' : List Char}, x.lexable = true →
    x'.lexable = true → EndsSum u → EndsSum u' → x.chars ++ u = x'.chars ++ u' → x = x' ∧ u = u'
  | .last w, .last w', u, u', hx, hx', hu, hu', h => by
      obtain ⟨rfl, rfl⟩ := Word.chars_unique w w' hx hx' hu.endsWord hu'.endsWord
        (by simpa [PrintedSum.chars] using h)
      exact ⟨rfl, rfl⟩
  | .last w, .more w' o' x', u, u', hx, hx', hu, hu', h => by
      obtain ⟨hw', _⟩ := Bool.and_eq_true_iff.mp hx'
      obtain ⟨rfl, rfl⟩ := Word.chars_unique w w' hx hw' hu.endsWord
        (endsWord_sign o' (x'.chars ++ u')) (by simpa [PrintedSum.chars] using h)
      exact absurd hu (o'.not_endsSum _)
  | .more w o x, .last w', u, u', hx, hx', hu, hu', h => by
      obtain ⟨hw, _⟩ := Bool.and_eq_true_iff.mp hx
      obtain ⟨rfl, rfl⟩ := Word.chars_unique w w' hw hx' (endsWord_sign o (x.chars ++ u))
        hu'.endsWord (by simpa [PrintedSum.chars] using h)
      exact absurd hu' (o.not_endsSum _)
  | .more w o x, .more w' o' x', u, u', hx, hx', hu, hu', h => by
      obtain ⟨hw, hsum⟩ := Bool.and_eq_true_iff.mp hx
      obtain ⟨hw', hsum'⟩ := Bool.and_eq_true_iff.mp hx'
      obtain ⟨rfl, hafter⟩ := Word.chars_unique w w' hw hw' (endsWord_sign o (x.chars ++ u))
        (endsWord_sign o' (x'.chars ++ u')) (by simpa [PrintedSum.chars] using h)
      obtain ⟨rfl, hrest⟩ := SumSign.chars_cancel hafter
      obtain ⟨rfl, rfl⟩ := PrintedSum.chars_unique x x' hsum hsum' hu hu' hrest
      exact ⟨rfl, rfl⟩

end

/-- Expressions with one text are read as the same words and signs. -/
theorem text_eq_of_stringOfExpr {e1 e2 : Expr} (h1 : e1.lexable = true) (h2 : e2.lexable = true)
    (h : stringOfExpr e1 = stringOfExpr e2) : text e1 = text e2 := by
  have hend : EndsSum [] := fun c hc => by cases hc
  have hchars : (text e1).chars ++ [] = (text e2).chars ++ [] := by
    rw [← toList_stringOfExpr, ← toList_stringOfExpr, h]
  exact (PrintedSum.chars_unique _ _ ((lexable_text e1).trans h1) ((lexable_text e2).trans h2)
    hend hend hchars).1

end Stabl.SimSee
