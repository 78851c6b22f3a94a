import Mathlib.Computability.Language

/-!
# `Stabl.Lib.Regex`: regular expressions with character classes and complements

Regular expressions as scanner generators have them. The language of an expression is one of
Mathlib's languages. `accepts` decides it by derivatives: the derivative of an expression by a
letter is an expression for the rest of the words that begin with the letter, also for a
complement. The derived forms are a literal text, the optional and the repeated expression, and
`upTo r`, the shortest text that ends in a match of `r`.
-/

set_option autoImplicit false

open Computability

/-- Regular expressions over the letters `α`. A class of letters is a predicate. -/
inductive Regex (α : Type) where
  | empty
  | epsilon
  | cls (p : α → Bool)
  | alt (r s : Regex α)
  | seq (r s : Regex α)
  | star (r : Regex α)
  | compl (r : Regex α)

namespace Regex

variable {α : Type}

/-- The words that match. -/
def language : Regex α → Language α
  | empty => 0
  | epsilon => 1
  | cls p => {w | ∃ a, p a = true ∧ w = [a]}
  | alt r s => r.language + s.language
  | seq r s => r.language * s.language
  | star r => r.language∗
  | compl r => {w | w ∉ r.language}

section
variable {r s : Regex α} {p : α → Bool} {w : List α}

theorem mem_empty : w ∉ (empty : Regex α).language := Language.notMem_zero w

@[simp] theorem mem_epsilon : w ∈ (epsilon : Regex α).language ↔ w = [] := Iff.rfl

@[simp] theorem mem_cls : w ∈ (cls p).language ↔ ∃ a, p a = true ∧ w = [a] := Iff.rfl

@[simp] theorem mem_alt : w ∈ (alt r s).language ↔ w ∈ r.language ∨ w ∈ s.language := Iff.rfl

@[simp] theorem mem_seq :
    w ∈ (seq r s).language ↔ ∃ u ∈ r.language, ∃ v ∈ s.language, u ++ v = w := Iff.rfl

theorem mem_compl : w ∈ (compl r).language ↔ w ∉ r.language := Iff.rfl

end

/-! ### Derivatives -/

/-- The empty word matches. -/
def nullable : Regex α → Bool
  | empty => false
  | epsilon => true
  | cls _ => false
  | alt r s => r.nullable || s.nullable
  | seq r s => r.nullable && s.nullable
  | star _ => true
  | compl r => !r.nullable

/-- The rest of the words that begin with `a`. -/
def deriv (a : α) : Regex α → Regex α
  | empty => empty
  | epsilon => empty
  | cls p => if p a then epsilon else empty
  | alt r s => alt (r.deriv a) (s.deriv a)
  | seq r s => if r.nullable then alt (seq (r.deriv a) s) (s.deriv a) else seq (r.deriv a) s
  | star r => seq (r.deriv a) (star r)
  | compl r => compl (r.deriv a)

/-- The word matches. -/
def accepts (r : Regex α) : List α → Bool
  | [] => r.nullable
  | a :: w => (r.deriv a).accepts w

theorem nullable_iff (r : Regex α) : r.nullable = true ↔ [] ∈ r.language := by
  induction r with
  | empty => simp [nullable, mem_empty]
  | epsilon => simp [nullable]
  | cls p => simp [nullable]
  | alt r s ihr ihs => simp [nullable, ihr, ihs]
  | seq r s ihr ihs => simp [nullable, ihr, ihs]
  | star r _ => exact iff_of_true rfl (Language.nil_mem_kstar _)
  | compl r ih => simp [nullable, mem_compl, ← ih]

/-- A nonempty word of a repetition begins with a nonempty word of the repeated language. -/
theorem cons_mem_kstar {L : Language α} {a : α} {w : List α} :
    a :: w ∈ L∗ ↔ ∃ u, a :: u ∈ L ∧ ∃ v ∈ L∗, u ++ v = w := by
  -- Empty words are left out of the repetition, so the letter stands in its first word.
  rw [Language.mem_kstar_iff_exists_nonempty]
  constructor
  · rintro ⟨words, hw, hwords⟩
    match words, hw, hwords with
    | (b :: u) :: words, hw, hwords =>
        obtain ⟨rfl, rfl⟩ : a = b ∧ w = u ++ words.flatten := by simpa using hw
        refine ⟨u, (hwords _ List.mem_cons_self).1, words.flatten, ?_, rfl⟩
        exact Language.mem_kstar.mpr
          ⟨words, rfl, fun y hy => (hwords y (List.mem_cons_of_mem _ hy)).1⟩
    | [] :: words, _, hwords => exact absurd rfl (hwords [] List.mem_cons_self).2
  · rintro ⟨u, hu, v, hv, rfl⟩
    obtain ⟨words, rfl, hwords⟩ := Language.mem_kstar_iff_exists_nonempty.mp hv
    refine ⟨(a :: u) :: words, rfl, fun y hy => ?_⟩
    rcases List.mem_cons.mp hy with rfl | hy
    · exact ⟨hu, List.cons_ne_nil a u⟩
    · exact hwords y hy

theorem mem_deriv (a : α) (r : Regex α) :
    ∀ w : List α, w ∈ (r.deriv a).language ↔ a :: w ∈ r.language := by
  induction r with
  | empty => exact fun w => iff_of_false mem_empty mem_empty
  | epsilon => exact fun w => iff_of_false mem_empty (by simp)
  | cls p =>
      intro w
      rw [deriv]
      split
      · rename_i hp
        simp [hp]
      · rename_i hp
        exact iff_of_false mem_empty (by simp [hp])
  | alt r s ihr ihs =>
      intro w
      rw [deriv, mem_alt, mem_alt, ihr, ihs]
  | seq r s ihr ihs =>
      intro w
      have hsplit : a :: w ∈ (seq r s).language ↔
          w ∈ (seq (r.deriv a) s).language ∨ r.nullable = true ∧ w ∈ (s.deriv a).language := by
        rw [nullable_iff, ihs, mem_seq, mem_seq]
        constructor
        · rintro ⟨u, hu, v, hv, huv⟩
          -- The letter belongs to the second part only if the first part is empty.
          cases u with
          | nil =>
              obtain rfl : v = a :: w := huv
              exact Or.inr ⟨hu, hv⟩
          | cons b u =>
              obtain ⟨rfl, rfl⟩ : b = a ∧ u ++ v = w := by simpa using huv
              exact Or.inl ⟨u, (ihr u).mpr hu, v, hv, rfl⟩
        · rintro (⟨u, hu, v, hv, rfl⟩ | ⟨hr, hs⟩)
          · exact ⟨a :: u, (ihr u).mp hu, v, hv, rfl⟩
          · exact ⟨[], hr, a :: w, hs, rfl⟩
      rw [hsplit, deriv]
      split
      · rename_i hr
        simp [hr]
      · rename_i hr
        simp [hr]
  | star r ih =>
      intro w
      show w ∈ (seq (r.deriv a) (star r)).language ↔ a :: w ∈ r.language∗
      rw [cons_mem_kstar, mem_seq]
      simp only [ih]
      rfl
  | compl r ih =>
      intro w
      rw [deriv, mem_compl, mem_compl, ih]

/-- The derivatives decide the language. -/
theorem accepts_iff (r : Regex α) (w : List α) : r.accepts w = true ↔ w ∈ r.language := by
  induction w generalizing r with
  | nil => exact nullable_iff r
  | cons a w ih => rw [accepts, ih, mem_deriv]

/-! ### Derived forms -/

/-- The text itself. -/
def literal [DecidableEq α] : List α → Regex α
  | [] => epsilon
  | a :: w => seq (cls fun b => b = a) (literal w)

/-- The expression, or nothing. -/
def opt (r : Regex α) : Regex α := alt r epsilon

/-- The expression, once or more often. -/
def plus (r : Regex α) : Regex α := seq r (star r)

/-- Any letter. -/
def any : Regex α := cls fun _ => true

/-- The shortest text that ends in a match of `r`. -/
def upTo (r : Regex α) : Regex α := seq (compl (seq (star any) (seq r (star any)))) r

section
variable {r : Regex α} {p : α → Bool} {w : List α}

@[simp] theorem mem_literal [DecidableEq α] {text : List α} :
    w ∈ (literal text).language ↔ w = text := by
  induction text generalizing w with
  | nil => exact mem_epsilon
  | cons a text ih => simp [literal, ih, eq_comm]

@[simp] theorem mem_opt : w ∈ (opt r).language ↔ w ∈ r.language ∨ w = [] := Iff.rfl

/-- A repeated class is a class of all letters. -/
@[simp] theorem mem_star_cls : w ∈ (star (cls p)).language ↔ ∀ a ∈ w, p a = true := by
  induction w with
  | nil => simp [(nullable_iff (star (cls p))).mp rfl]
  | cons a w ih =>
      show a :: w ∈ (cls p).language∗ ↔ _
      rw [cons_mem_kstar, List.forall_mem_cons, ← ih]
      constructor
      · rintro ⟨u, hu, v, hv, rfl⟩
        obtain ⟨b, hb, hbu⟩ := mem_cls.mp hu
        obtain ⟨rfl, rfl⟩ : a = b ∧ u = [] := by simpa using hbu
        exact ⟨hb, hv⟩
      · intro ⟨ha, hw⟩
        exact ⟨[], mem_cls.mpr ⟨a, ha, rfl⟩, w, hw, rfl⟩

/-- Up to a literal text: the text stands at the end, and nowhere before the end. -/
theorem mem_upTo_literal [DecidableEq α] {text : List α} :
    w ∈ (upTo (literal text)).language ↔ ∃ v, ¬ text <:+: v ∧ w = v ++ text := by
  have hinfix : ∀ v : List α,
      v ∈ (seq (star any) (seq (literal text) (star any))).language ↔ text <:+: v := by
    intro v
    simp [any, List.IsInfix]
  rw [upTo, mem_seq]
  simp only [mem_compl, hinfix, mem_literal, exists_eq_left, @eq_comm _ w]

end

end Regex
