import Mathlib.Data.List.Perm.Basic
import Mathlib.Data.List.Pairwise

/-!
# `Stabl.Lib.Forest`: antichains of a forest

A relation "is an ancestor of, or the same as" in which the ancestors of an element are
comparable. A list is an antichain when no two of its positions are comparable. Growing
keeps that: where elements of an antichain are replaced by antichains below them, the
result is an antichain (`Antichain.grow`, `Antichain.flatMap`).
-/

set_option autoImplicit false

namespace Forest

variable {α : Type}

/-- `r a b` says that `a` is `b` or an ancestor of `b`. -/
structure IsForest (r : α → α → Prop) : Prop where
  refl : ∀ a, r a a
  trans : ∀ {a b c}, r a b → r b c → r a c
  linear : ∀ {a b c}, r a c → r b c → r a b ∨ r b a

/-- Neither is an ancestor of the other, nor are they the same. -/
def Apart (r : α → α → Prop) (a b : α) : Prop := ¬ r a b ∧ ¬ r b a

/-- No two positions of the list are comparable. -/
def Antichain (r : α → α → Prop) (l : List α) : Prop := l.Pairwise (Apart r)

section
variable {r : α → α → Prop}

theorem Apart.symm {a b : α} (h : Apart r a b) : Apart r b a := ⟨h.2, h.1⟩

theorem antichain_append {l l' : List α} :
    Antichain r (l ++ l') ↔
      Antichain r l ∧ Antichain r l' ∧ ∀ a ∈ l, ∀ b ∈ l', Apart r a b :=
  List.pairwise_append

theorem Antichain.perm {l l' : List α} (h : Antichain r l) (hperm : l.Perm l') :
    Antichain r l' :=
  (hperm.pairwise_iff fun hab => hab.symm).mp h

theorem Antichain.sublist {l l' : List α} (h : Antichain r l) (hsub : l'.Sublist l) :
    Antichain r l' :=
  List.Pairwise.sublist hsub h

/-- Elements of an antichain that are comparable are one element. -/
theorem Antichain.eq_of_le {l : List α} (h : Antichain r l) {a b : α} (ha : a ∈ l) (hb : b ∈ l)
    (hab : r a b) : a = b := by
  by_contra hne
  have : Std.Symm (Apart r) := ⟨fun _ _ hapart => hapart.symm⟩
  exact (List.Pairwise.forall h ha hb hne).1 hab

variable (hr : IsForest r)
include hr

/-- What is below one of two elements that are apart is apart from the other. -/
theorem Apart.below {a b n : α} (h : Apart r a b) (hn : r b n) : Apart r a n := by
  constructor
  · intro han
    rcases hr.linear han hn with hab | hba
    · exact h.1 hab
    · exact h.2 hba
  · intro hna
    exact h.2 (hr.trans hn hna)

theorem Apart.below_both {a b m n : α} (h : Apart r a b) (hm : r a m) (hn : r b n) :
    Apart r m n :=
  ((h.below hr hn).symm.below hr hm).symm

/-- The elements of a part of an antichain grow into an antichain. -/
theorem Antichain.grow {l l' m : List α} (h : Antichain r (l ++ l')) (hm : Antichain r m)
    (hbelow : ∀ n ∈ m, ∃ a ∈ l', r a n) : Antichain r (l ++ m) := by
  have ⟨hl, _, hapart⟩ := antichain_append.mp h
  refine antichain_append.mpr ⟨hl, hm, ?_⟩
  intro a ha n hn
  have ⟨b, hb, hbn⟩ := hbelow n hn
  exact (hapart a ha b hb).below hr hbn

/-- Every element grows into an antichain of its own. -/
theorem Antichain.flatMap {l : List α} {f : α → List α} (h : Antichain r l)
    (hf : ∀ a ∈ l, Antichain r (f a)) (hbelow : ∀ a ∈ l, ∀ n ∈ f a, r a n) :
    Antichain r (l.flatMap f) := by
  refine List.pairwise_flatMap.mpr ⟨hf, h.imp_of_mem ?_⟩
  intro a b ha hb hapart m hm n hn
  exact hapart.below_both hr (hbelow a ha m hm) (hbelow b hb n hn)

/-- Every element of the second part grows into an antichain, which is split in two. -/
theorem Antichain.grow_split {l l' : List α} {f g : α → List α} (h : Antichain r (l ++ l'))
    (hfg : ∀ a ∈ l', Antichain r (f a ++ g a)) (hbelow : ∀ a ∈ l', ∀ n ∈ f a ++ g a, r a n) :
    Antichain r ((l ++ l'.flatMap f) ++ l'.flatMap g) := by
  have hl' : Antichain r l' := (antichain_append.mp h).2.1
  have hboth : Antichain r (l'.flatMap fun a => f a ++ g a) := hl'.flatMap hr hfg hbelow
  have hgrown : Antichain r (l ++ l'.flatMap fun a => f a ++ g a) := by
    refine h.grow hr hboth ?_
    intro n hn
    have ⟨a, ha, hn⟩ := List.mem_flatMap.mp hn
    exact ⟨a, ha, hbelow a ha n hn⟩
  rw [List.append_assoc]
  exact hgrown.perm (((List.flatMap_append_perm l' f g).symm).append_left l)

end

end Forest
