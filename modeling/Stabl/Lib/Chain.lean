import Mathlib.Data.List.Infix
import Mathlib.Data.List.Nodup

/-!
# `Stabl.Lib.Chain`: chains of tree addresses

A node of a tree is addressed by the list of child indices that leads to it, innermost
index first. So the parent of `i :: p` is `p`, the root is `[]`, and `q` is an
ancestor of `p`, or `p` itself, exactly when `q <:+ p`.

* `chain p` lists the ancestors of `p` and `p` itself, root first.
* `climb l p` lists the nodes met on the way from `p` up to `l`, `p` first and `l`
  excluded.

`chain_eq_append_climb` is the fact that everything else rests on: below an ancestor
`l`, the chain of `p` is the chain of `l` followed by the climb, read downwards.
-/

set_option autoImplicit false

namespace TreeAddress

variable {α : Type}

/-- The ancestors of `p` and `p` itself, root first. -/
def chain (p : List α) : List (List α) := p.tails.reverse

@[simp] theorem chain_nil : chain ([] : List α) = [[]] := rfl

@[simp] theorem chain_cons (i : α) (p : List α) : chain (i :: p) = chain p ++ [i :: p] := by
  simp [chain]

@[simp] theorem mem_chain {p q : List α} : q ∈ chain p ↔ q <:+ p := by
  simp [chain]

theorem self_mem_chain (p : List α) : p ∈ chain p := by simp

/-- A proper extension is no suffix. -/
theorem cons_not_suffix (i : α) (p : List α) : ¬ (i :: p) <:+ p := by
  intro h
  have hlen := h.length_le
  rw [List.length_cons] at hlen
  omega

/-- The ancestors of the parent are the proper ancestors. -/
theorem suffix_iff_cons {i : α} {q p : List α} : q <:+ p ↔ q <:+ i :: p ∧ q ≠ i :: p := by
  rw [List.suffix_cons_iff]
  constructor
  · intro hq
    exact ⟨Or.inr hq, fun heq => cons_not_suffix i p (heq ▸ hq)⟩
  · rintro ⟨hq | hq, hne⟩
    · exact absurd hq hne
    · exact hq

theorem nodup_chain (p : List α) : (chain p).Nodup := by
  induction p with
  | nil => simp
  | cons i p ih =>
      rw [chain_cons, List.nodup_append_comm, List.singleton_append, List.nodup_cons]
      exact ⟨by simpa using cons_not_suffix i p, ih⟩

/-- A chain, cut after one of its addresses, is the chain of that address. -/
theorem chain_of_append {p x : List α} {before : List (List α)} (after : List (List α))
    (h : chain p = before ++ x :: after) : chain x = before ++ [x] := by
  induction p generalizing after with
  | nil =>
      have hlength := congrArg List.length h
      simp only [chain_nil, List.length_append, List.length_cons, List.length_nil] at hlength
      have hbefore : before = [] := List.eq_nil_of_length_eq_zero (by omega)
      subst hbefore
      have hx : [] = x := (List.cons.inj h).1
      rw [← hx]
      rfl
  | cons i p ih =>
      rcases List.eq_nil_or_concat after with rfl | ⟨init, last, rfl⟩
      · rw [chain_cons] at h
        have ⟨hbefore, hx⟩ := List.append_inj' h rfl
        have hx : i :: p = x := (List.cons.inj hx).1
        rw [← hx, chain_cons, hbefore]
      · refine ih init ?_
        rw [chain_cons, List.concat_eq_append, ← List.cons_append, ← List.append_assoc] at h
        exact (List.append_inj' h rfl).1

/-- The parent of an address is the last ancestor in its chain. -/
theorem erase_chain_cons [DecidableEq α] (i : α) (p : List α) :
    (chain (i :: p)).erase (i :: p) = chain p := by
  rw [chain_cons, List.erase_append_right _ (by simpa using cons_not_suffix i p)]
  simp

/-- The nodes from `p` up to `l`, `p` first and `l` excluded. Where `l` is not met, the
climb ends after the root. -/
def climb [DecidableEq α] (l : List α) : List α → List (List α)
  | [] => if [] = l then [] else [[]]
  | i :: p => if i :: p = l then [] else (i :: p) :: climb l p

section
variable [DecidableEq α]

@[simp] theorem climb_self (l : List α) : climb l l = [] := by
  cases l <;> simp [climb]

theorem climb_cons_of_ne {l : List α} {i : α} {p : List α} (h : i :: p ≠ l) :
    climb l (i :: p) = (i :: p) :: climb l p := by
  simp [climb, h]

/-- The climb from a proper extension of an ancestor starts with that extension. -/
theorem climb_cons_of_suffix {l : List α} {i : α} {p : List α} (h : l <:+ p) :
    climb l (i :: p) = (i :: p) :: climb l p :=
  climb_cons_of_ne fun he => cons_not_suffix i p (he ▸ h)

/-- The climb from `p` to an ancestor `l` meets exactly the states between them. -/
theorem mem_climb {l p q : List α} (h : l <:+ p) :
    q ∈ climb l p ↔ q <:+ p ∧ l <:+ q ∧ q ≠ l := by
  induction p with
  | nil =>
      obtain rfl := List.suffix_nil.mp h
      simp only [climb_self, List.not_mem_nil, List.suffix_nil, List.nil_suffix, true_and,
        false_iff, not_and, not_not]
      exact id
  | cons i p ih =>
      rcases List.suffix_cons_iff.mp h with rfl | h
      · simp only [climb_self, List.not_mem_nil, false_iff, not_and, not_not]
        intro hq hl
        exact hq.eq_of_length_le hl.length_le
      · rw [climb_cons_of_suffix h, List.mem_cons, ih h, List.suffix_cons_iff]
        constructor
        · rintro (rfl | ⟨hq, hl, hne⟩)
          · exact ⟨Or.inl rfl, h.trans (List.suffix_cons i p),
              fun he => cons_not_suffix i p (he ▸ h)⟩
          · exact ⟨Or.inr hq, hl, hne⟩
        · rintro ⟨rfl | hq, hl, hne⟩
          · exact Or.inl rfl
          · exact Or.inr ⟨hq, hl, hne⟩

/-- Below an ancestor, a chain goes on with the climb, read downwards. -/
theorem chain_eq_append_climb {l p : List α} (h : l <:+ p) :
    chain p = chain l ++ (climb l p).reverse := by
  induction p with
  | nil =>
      obtain rfl := List.suffix_nil.mp h
      simp
  | cons i p ih =>
      rcases List.suffix_cons_iff.mp h with rfl | h
      · simp
      · rw [climb_cons_of_suffix h, List.reverse_cons, ← List.append_assoc, ← ih h, chain_cons]

theorem nodup_climb {l p : List α} (h : l <:+ p) : (climb l p).Nodup := by
  have hchain := nodup_chain p
  rw [chain_eq_append_climb h] at hchain
  exact List.nodup_reverse.mp (List.nodup_append.mp hchain).2.1

theorem climb_ne_nil {l p : List α} (h : l <:+ p) (hne : p ≠ l) : climb l p ≠ [] :=
  List.ne_nil_of_mem ((mem_climb h).mpr ⟨List.suffix_rfl, h, hne⟩)

end

/-! ### Common ancestors -/

/-- `x` is a proper ancestor of `p`. -/
def ProperAncestor (x p : List α) : Prop := x <:+ p ∧ x ≠ p

theorem ProperAncestor.of_suffix {x l p : List α} (hx : x <:+ l) (h : ProperAncestor l p) :
    ProperAncestor x p := by
  refine ⟨hx.trans h.1, ?_⟩
  rintro rfl
  exact h.2 (h.1.eq_of_length_le hx.length_le)

/-- The proper ancestors of a node are the ancestors of its parent, and the parent. -/
theorem properAncestor_cons {x p : List α} {i : α} : ProperAncestor x (i :: p) ↔ x <:+ p :=
  suffix_iff_cons.symm

/-- `l` is the deepest one of the proper ancestors that `p` and `q` have in common. -/
structure DeepestCommonAncestor (l p q : List α) : Prop where
  left : ProperAncestor l p
  right : ProperAncestor l q
  deepest : ∀ x, ProperAncestor x p → ProperAncestor x q → x <:+ l

namespace DeepestCommonAncestor

variable {l l' p q : List α}

theorem symm (h : DeepestCommonAncestor l p q) : DeepestCommonAncestor l q p :=
  ⟨h.right, h.left, fun x hq hp => h.deepest x hp hq⟩

theorem unique (h : DeepestCommonAncestor l p q) (h' : DeepestCommonAncestor l' p q) : l = l' := by
  have hle := h'.deepest l h.left h.right
  have hge := h.deepest l' h'.left h'.right
  exact hle.eq_of_length_le hge.length_le

/-- Below a node, or at it, the parent of the node is the deepest common ancestor. -/
theorem of_suffix {i : α} (h : i :: p <:+ q) : DeepestCommonAncestor p (i :: p) q := by
  refine ⟨properAncestor_cons.mpr List.suffix_rfl, ?_, fun x hx _ => properAncestor_cons.mp hx⟩
  refine ⟨(List.suffix_cons i p).trans h, ?_⟩
  rintro rfl
  exact cons_not_suffix i p h

end DeepestCommonAncestor

/-- Where the chains of two nodes part, the node before is their deepest common one. -/
theorem suffix_of_chains {p q l x : List α} {before after₁ after₂ : List (List α)}
    (hp : chain p = before ++ l :: after₁) (hq : chain q = before ++ l :: after₂)
    (hpart : ∀ a r b s, after₁ = a :: r → after₂ = b :: s → a ≠ b)
    (hxp : x <:+ p) (hxq : x <:+ q) : x <:+ l := by
  have hl : chain l = before ++ [l] := chain_of_append after₁ hp
  by_contra hx
  have hnot : x ∉ before ++ [l] := fun h => hx (mem_chain.mp (hl ▸ h))
  -- Past the last common node, `x` is reached from both sides over the same nodes.
  have hreach : ∀ {r : List α} {after : List (List α)}, chain r = before ++ l :: after → x <:+ r →
      ∃ between rest, after = between ++ x :: rest ∧ chain x = before ++ [l] ++ between ++ [x] := by
    intro r after hr hxr
    have hmem : x ∈ before ++ l :: after := hr ▸ mem_chain.mpr hxr
    have hmem : x ∈ (before ++ [l]) ++ after := by simpa using hmem
    rcases List.mem_append.mp hmem with h | h
    · exact absurd h hnot
    · have ⟨between, rest, heq⟩ := List.append_of_mem h
      refine ⟨between, rest, heq, chain_of_append (p := r) rest ?_⟩
      rw [hr, heq]
      simp
  have ⟨between₁, rest₁, heq₁, hchain₁⟩ := hreach hp hxp
  have ⟨between₂, rest₂, heq₂, hchain₂⟩ := hreach hq hxq
  have hbetween : between₁ ++ [x] = between₂ ++ [x] := by
    have h := hchain₁.symm.trans hchain₂
    simpa [List.append_assoc] using h
  have hsame : between₁ = between₂ := List.append_cancel_right hbetween
  subst hsame
  cases between₁ with
  | nil => exact hpart x rest₁ x rest₂ heq₁ heq₂ rfl
  | cons a r => exact hpart a (r ++ x :: rest₁) a (r ++ x :: rest₂) heq₁ heq₂ rfl

/-- A climb goes from each node to a proper ancestor of it. -/
theorem pairwise_climb [DecidableEq α] {l p : List α} (h : l <:+ p) :
    (climb l p).Pairwise fun x y => ProperAncestor y x := by
  induction p with
  | nil =>
      rw [List.suffix_nil.mp h, climb_self]
      exact List.Pairwise.nil
  | cons i p ih =>
      rcases List.suffix_cons_iff.mp h with rfl | h
      · rw [climb_self]
        exact List.Pairwise.nil
      · rw [climb_cons_of_suffix h]
        refine List.pairwise_cons.mpr ⟨fun x hx => ?_, ih h⟩
        exact properAncestor_cons.mpr ((mem_climb h).mp hx).1

end TreeAddress
