import Stabl.Ast.Hierarchy

/-!
# `Stabl.Proofs.Ast.Lub`: the lub of two states

`Statechart.lub` strips the common prefix of the two lists of superstates and returns the last
state of it. The superstates of `i :: p` are the chain of `p`, so the loop walks down from the
statechart as long as the two chains agree (`lubLoop_eq`). The state at which they part is the
deepest proper ancestor that the two states have in common (`lub_eq_some_iff`), and all other
facts about `lub` follow from this one.
-/

set_option autoImplicit false

namespace Stabl

open TreeAddress

theorem isAncestor_iff {p q : StateRef} : isAncestor p q = true ↔ ProperAncestor p q := by
  rw [isAncestor, List.contains_iff_mem, mem_getAllSuperstates]
  rfl

/-- The loop strips a common prefix, up to the place where the lists part, and returns its last
element. -/
theorem lubLoop_eq (a1 : List StateRef) : ∀ (a2 : List StateRef) (cca : Option StateRef),
    ∃ common rest1 rest2, a1 = common ++ rest1 ∧ a2 = common ++ rest2 ∧
      (∀ x r y s, rest1 = x :: r → rest2 = y :: s → x ≠ y) ∧
      lubLoop a1 a2 cca = common.getLast?.or cca := by
  induction a1 with
  | nil =>
      intro a2 cca
      exact ⟨[], [], a2, rfl, rfl, fun _ _ _ _ h _ => (by cases h), rfl⟩
  | cons x a1 ih =>
      intro a2 cca
      cases a2 with
      | nil => exact ⟨[], x :: a1, [], rfl, rfl, fun _ _ _ _ _ h => (by cases h), rfl⟩
      | cons y a2 =>
          rw [lubLoop]
          by_cases hxy : x = y
          · rw [if_pos hxy]
            obtain ⟨common, rest1, rest2, h1, h2, hpart, hloop⟩ := ih a2 (some x)
            refine ⟨x :: common, rest1, rest2, by rw [h1]; rfl, by rw [h2, hxy]; rfl, hpart, ?_⟩
            rw [hloop, List.getLast?_cons]
            cases common.getLast? <;> rfl
          · rw [if_neg hxy]
            refine ⟨[], x :: a1, y :: a2, rfl, rfl, ?_, rfl⟩
            intro x' r y' s hx hy
            rw [← (List.cons.inj hx).1, ← (List.cons.inj hy).1]
            exact hxy

/-- Two states below the statechart have a lub. -/
theorem exists_lub (i j : Nat) (p q : StateRef) :
    ∃ l, lub (i :: p) (j :: q) = some l ∧ DeepestCommonAncestor l (i :: p) (j :: q) := by
  have ⟨common, rest1, rest2, h1, h2, hpart, hloop⟩ := lubLoop_eq (chain p) (chain q) none
  have hroot : ∀ r : StateRef, ∃ rest, chain r = [] :: rest := by
    intro r
    have hhead := chain_eq_append_climb (List.nil_suffix (l := r))
    exact ⟨_, hhead⟩
  have ⟨restp, hp⟩ := hroot p
  have ⟨restq, hq⟩ := hroot q
  rcases List.eq_nil_or_concat common with rfl | ⟨before, l, rfl⟩
  · -- Both chains begin with the statechart.
    rw [List.nil_append] at h1 h2
    rw [hp] at h1
    rw [hq] at h2
    exact absurd rfl (hpart [] restp [] restq h1.symm h2.symm)
  · rw [List.concat_eq_append, List.append_assoc, List.singleton_append] at h1 h2
    have hmem : ∀ {r : StateRef} {after : List StateRef},
        chain r = before ++ l :: after → l <:+ r :=
      fun h => mem_chain.mp (h ▸ List.mem_append_right _ List.mem_cons_self)
    refine ⟨l, ?_, properAncestor_cons.mpr (hmem h1), properAncestor_cons.mpr (hmem h2), ?_⟩
    · rw [lub, getAllSuperstates_cons, getAllSuperstates_cons, hloop, List.concat_eq_append,
        List.getLast?_concat]
      rfl
    · intro x hxp hxq
      exact suffix_of_chains h1 h2 hpart (properAncestor_cons.mp hxp) (properAncestor_cons.mp hxq)

theorem lub_eq_none_iff {s1 s2 : StateRef} : lub s1 s2 = none ↔ s1 = [] ∨ s2 = [] := by
  cases s1 with
  | nil => simp [lub, getAllSuperstates, lubLoop]
  | cons i p =>
      cases s2 with
      | nil =>
          refine iff_of_true ?_ (Or.inr rfl)
          rw [lub, getAllSuperstates_cons]
          cases chain p <;> rfl
      | cons j q =>
          obtain ⟨l, hl, _⟩ := exists_lub i j p q
          simp [hl]

theorem deepest_of_lub {s1 s2 l : StateRef} (h : lub s1 s2 = some l) :
    DeepestCommonAncestor l s1 s2 := by
  cases s1 with
  | nil =>
      rw [lub_eq_none_iff.mpr (Or.inl rfl)] at h
      cases h
  | cons i p =>
      cases s2 with
      | nil =>
          rw [lub_eq_none_iff.mpr (Or.inr rfl)] at h
          cases h
      | cons j q =>
          have ⟨l', hl', hdeepest⟩ := exists_lub i j p q
          rw [h, Option.some.injEq] at hl'
          exact hl' ▸ hdeepest

/-- The lub is the deepest proper ancestor that the two states have in common. -/
theorem lub_eq_some_iff {s1 s2 l : StateRef} :
    lub s1 s2 = some l ↔ DeepestCommonAncestor l s1 s2 := by
  refine ⟨deepest_of_lub, fun h => ?_⟩
  cases hlub : lub s1 s2 with
  | none =>
      -- The statechart has no proper ancestor.
      rcases lub_eq_none_iff.mp hlub with rfl | rfl
      · exact absurd (List.suffix_nil.mp h.left.1) h.left.2
      · exact absurd (List.suffix_nil.mp h.right.1) h.right.2
  | some l' => rw [(deepest_of_lub hlub).unique h]

theorem lub_comm (s1 s2 : StateRef) : lub s1 s2 = lub s2 s1 := by
  cases h : lub s2 s1 with
  | none => exact lub_eq_none_iff.mpr (lub_eq_none_iff.mp h).symm
  | some l => exact lub_eq_some_iff.mpr (deepest_of_lub h).symm

/-- The lub of a state and of one below it, or of itself, is its superstate. -/
theorem lub_of_suffix {s1 s2 : StateRef} (h : s1 <:+ s2) : lub s1 s2 = getSuperstate s1 := by
  cases s1 with
  | nil => exact lub_eq_none_iff.mpr (Or.inl rfl)
  | cons i p => exact lub_eq_some_iff.mpr (.of_suffix h)

/-- `lub` is the least common proper ancestor. -/
theorem lub_spec (s1 s2 : StateRef) :
    (lub s1 s2 = none ↔ s1 = [] ∨ s2 = []) ∧
      (∀ l, lub s1 s2 = some l → isAncestor l s1 = true ∧ isAncestor l s2 = true ∧
        ∀ q, isAncestor q s1 = true → isAncestor q s2 = true → q = l ∨ isAncestor q l = true) ∧
      lub s1 s2 = lub s2 s1 ∧
      (s1 = s2 ∨ isAncestor s1 s2 = true → lub s1 s2 = getSuperstate s1) := by
  refine ⟨lub_eq_none_iff, fun l hl => ?_, lub_comm s1 s2, fun h => ?_⟩
  · have hdeepest := deepest_of_lub hl
    refine ⟨isAncestor_iff.mpr hdeepest.left, isAncestor_iff.mpr hdeepest.right, ?_⟩
    intro q h1 h2
    have hq : q <:+ l := hdeepest.deepest q (isAncestor_iff.mp h1) (isAncestor_iff.mp h2)
    by_cases hql : q = l
    · exact Or.inl hql
    · exact Or.inr (isAncestor_iff.mpr ⟨hq, hql⟩)
  · rcases h with rfl | h
    · exact lub_of_suffix List.suffix_rfl
    · exact lub_of_suffix (isAncestor_iff.mp h).1

end Stabl
