import Mathlib.Algebra.GroupWithZero.Nat
import Mathlib.Data.List.Basic
import Mathlib.Order.Basic

/-!
# `Stabl.Lib.Precedence`: the grouping of infix operators

A sequence `a₀ o₁ a₁ … oₙ aₙ` of operands and operators, where each operator has a level, a
higher level binds tighter, and operators of one level associate to the left. A tree over
the sequence is `Grouped` when every node respects this: no operator of its left part is
looser than the node's own, and every operator of its right part is tighter.

A sequence has exactly one such tree (`Grouped.unique`), and `group` builds it by hanging
one operator after the other into the right edge. `rightNested` is the tree that ignores the
levels and nests to the right. It is the grouped one only when the levels increase from
each operator to the next (`grouped_rightNested_iff`).

A tree is evaluated by `fold`, or by `value` where an operator may have no result. `fold`
forgets no grouping when its function builds terms (`fold_injective`). For two levels, the
value of the grouped tree is the one of the usual calculation, which reads the sequence once
from left to right (`value_group`).
-/

set_option autoImplicit false

variable {O α β : Type*}

/-- A tree of binary operators. -/
inductive OperatorTree (O α : Type*) where
  | leaf (a : α)
  | node (left : OperatorTree O α) (o : O) (right : OperatorTree O α)

namespace OperatorTree

/-! ### The sequence of a tree -/

/-- The first operand. -/
def first : OperatorTree O α → α
  | leaf a => a
  | node l _ _ => l.first

/-- The operators from left to right, each with the operand after it. -/
def rest : OperatorTree O α → List (O × α)
  | leaf _ => []
  | node l o r => l.rest ++ (o, r.first) :: r.rest

/-- A tree without operators is its operand. -/
theorem eq_leaf {t : OperatorTree O α} (h : t.rest = []) : t = leaf t.first := by
  cases t with
  | leaf a => rfl
  | node l o r => simp [rest] at h

/-- `P` holds of all operators. -/
def AllOperators (P : O → Prop) : OperatorTree O α → Prop
  | leaf _ => True
  | node l o r => l.AllOperators P ∧ P o ∧ r.AllOperators P

theorem allOperators_iff {P : O → Prop} (t : OperatorTree O α) :
    t.AllOperators P ↔ ∀ p ∈ t.rest, P p.1 := by
  induction t with
  | leaf a => simp [AllOperators, rest]
  | node l o r ihl ihr =>
      simp only [AllOperators, rest, ihl, ihr, List.mem_append, List.mem_cons]
      constructor
      · intro ⟨hl, ho, hr⟩ p hp
        obtain hp | rfl | hp := hp
        · exact hl p hp
        · exact ho
        · exact hr p hp
      · intro h
        exact ⟨fun p hp => h p (.inl hp), h _ (.inr (.inl rfl)), fun p hp => h p (.inr (.inr hp))⟩

/-- `P` holds of all operands. -/
def AllOperands (P : α → Prop) : OperatorTree O α → Prop
  | leaf a => P a
  | node l _ r => l.AllOperands P ∧ r.AllOperands P

theorem allOperands_iff {P : α → Prop} (t : OperatorTree O α) :
    t.AllOperands P ↔ P t.first ∧ ∀ p ∈ t.rest, P p.2 := by
  induction t with
  | leaf a => simp [AllOperands, first, rest]
  | node l o r ihl ihr =>
      simp only [AllOperands, first, rest, ihl, ihr, List.mem_append, List.mem_cons]
      constructor
      · intro ⟨⟨hfirst, hl⟩, hr, hrs⟩
        refine ⟨hfirst, ?_⟩
        intro p hp
        obtain hp | rfl | hp := hp
        · exact hl p hp
        · exact hr
        · exact hrs p hp
      · intro ⟨hfirst, h⟩
        exact ⟨⟨hfirst, fun p hp => h p (.inl hp)⟩, h _ (.inr (.inl rfl)),
          fun p hp => h p (.inr (.inr hp))⟩

/-- The same tree over other operands. -/
def map (f : α → β) : OperatorTree O α → OperatorTree O β
  | leaf a => leaf (f a)
  | node l o r => node (l.map f) o (r.map f)

theorem first_map (f : α → β) (t : OperatorTree O α) : (t.map f).first = f t.first := by
  induction t with
  | leaf a => rfl
  | node l o r ihl ihr => simpa [map, first] using ihl

theorem rest_map (f : α → β) (t : OperatorTree O α) :
    (t.map f).rest = t.rest.map (Prod.map id f) := by
  induction t with
  | leaf a => rfl
  | node l o r ihl ihr => simp [map, rest, ihl, ihr, first_map]

/-- The tree that nests to the right. -/
def rightNested (a : α) : List (O × α) → OperatorTree O α
  | [] => leaf a
  | (o, b) :: s => node (leaf a) o (rightNested b s)

/-! ### Grouped trees -/

section Level

variable (level : O → ℕ)

/-- Every node has the loosest operator of its part of the sequence, and the last one of
these. -/
def Grouped : OperatorTree O α → Prop
  | leaf _ => True
  | node l o r => l.Grouped ∧ r.Grouped ∧ l.AllOperators (level o ≤ level ·) ∧
      r.AllOperators (level o < level ·)

/-- Hangs an operator and its right operand into the right edge of a tree, below the
operators that are looser. -/
def insert (o : O) (a : α) : OperatorTree O α → OperatorTree O α
  | leaf b => node (leaf b) o (leaf a)
  | node l p r =>
    if level p < level o then node l p (insert o a r) else node (node l p r) o (leaf a)

/-- The tree of a sequence. -/
def group (a : α) (s : List (O × α)) : OperatorTree O α :=
  s.foldl (fun t p => t.insert level p.1 p.2) (leaf a)

theorem first_insert (o : O) (a : α) (t : OperatorTree O α) :
    (t.insert level o a).first = t.first := by
  induction t with
  | leaf b => rfl
  | node l p r ihl ihr =>
      rw [insert]
      split <;> rfl

theorem rest_insert (o : O) (a : α) (t : OperatorTree O α) :
    (t.insert level o a).rest = t.rest ++ [(o, a)] := by
  induction t with
  | leaf b => rfl
  | node l p r ihl ihr =>
      rw [insert]
      split
      · simp [rest, ihr, first_insert]
      · simp [rest, first]

variable {level}

theorem grouped_map (f : α → β) (t : OperatorTree O α) :
    (t.map f).Grouped level ↔ t.Grouped level := by
  induction t with
  | leaf a => rfl
  | node l o r ihl ihr =>
      have hops : ∀ (P : O → Prop) (t : OperatorTree O α),
          (t.map f).AllOperators P ↔ t.AllOperators P := by
        intro P t
        rw [allOperators_iff, allOperators_iff, rest_map, List.forall_mem_map]
        rfl
      simp only [map, Grouped, ihl, ihr, hops]

theorem grouped_leaf (a : α) : (leaf a : OperatorTree O α).Grouped level := trivial

theorem grouped_insert {t : OperatorTree O α} (h : t.Grouped level) (o : O) (a : α) :
    (t.insert level o a).Grouped level := by
  induction t with
  | leaf b => simp [insert, Grouped, AllOperators]
  | node l p r ihl ihr =>
      obtain ⟨hl, hr, hlp, hrp⟩ := h
      rw [insert]
      split
      · rename_i hlt
        -- The new operator joins the right part, and is tighter than the node's own.
        have hnew : (r.insert level o a).AllOperators (level p < level ·) := by
          rw [allOperators_iff, rest_insert]
          intro q hq
          obtain hq | hq := List.mem_append.mp hq
          · exact (allOperators_iff r).mp hrp q hq
          · obtain rfl := List.mem_singleton.mp hq
            exact hlt
        exact ⟨hl, ihr hr, hlp, hnew⟩
      · rename_i hle
        have hop : level o ≤ level p := Nat.le_of_not_lt hle
        have hleft : (node l p r).AllOperators (level o ≤ level ·) := by
          simp only [AllOperators, allOperators_iff] at hlp hrp ⊢
          refine ⟨fun q hq => ?_, hop, fun q hq => ?_⟩
          · have hle := hlp q hq
            omega
          · have hlt := hrp q hq
            omega
        exact ⟨⟨hl, hr, hlp, hrp⟩, trivial, hleft, trivial⟩

/-- What hanging a whole sequence into a tree leaves. -/
theorem foldl_insert (s : List (O × α)) {t : OperatorTree O α} (h : t.Grouped level) :
    let t' := s.foldl (fun t p => t.insert level p.1 p.2) t
    t'.Grouped level ∧ t'.first = t.first ∧ t'.rest = t.rest ++ s := by
  induction s generalizing t with
  | nil => simp [h]
  | cons p s ih =>
      obtain ⟨hgrouped, hfirst, hrest⟩ := ih (grouped_insert h p.1 p.2)
      refine ⟨hgrouped, ?_, ?_⟩
      · rw [List.foldl_cons, hfirst, first_insert]
      · rw [List.foldl_cons, hrest, rest_insert, List.append_assoc, List.singleton_append]

theorem grouped_group (a : α) (s : List (O × α)) : (group level a s).Grouped level :=
  (foldl_insert s (grouped_leaf a)).1

@[simp]
theorem first_group (a : α) (s : List (O × α)) : (group level a s).first = a :=
  (foldl_insert s (grouped_leaf a : (leaf a).Grouped level)).2.1

@[simp]
theorem rest_group (a : α) (s : List (O × α)) : (group level a s).rest = s :=
  (foldl_insert s (grouped_leaf a : (leaf a).Grouped level)).2.2

/-! ### The grouping is unique -/

/-- Two nodes over one sequence that stand at different operators: the one that stands
further left has the other one's operator in its right part, and the other one has its
operator in the left part. Both parts cannot be grouped. -/
theorem not_grouped_of_overlap {l r l' r' : OperatorTree O α} {o o' : O} {m : List (O × α)}
    (h : (node l o r).Grouped level) (h' : (node l' o' r').Grouped level)
    (hleft : l.rest = l'.rest ++ (o', r'.first) :: m)
    (hright : r'.rest = m ++ (o, r.first) :: r.rest) : False := by
  have hle : level o ≤ level o' :=
    (allOperators_iff l).mp h.2.2.1 (o', r'.first) (by simp [hleft])
  have hlt : level o' < level o :=
    (allOperators_iff r').mp h'.2.2.2 (o, r.first) (by simp [hright])
  omega

/-- Two grouped nodes over one sequence stand at the same operator. -/
theorem Grouped.split {l r l' r' : OperatorTree O α} {o o' : O}
    (h : (node l o r).Grouped level) (h' : (node l' o' r').Grouped level)
    (hrest : (node l o r).rest = (node l' o' r').rest) :
    l.rest = l'.rest ∧ o = o' ∧ r.first = r'.first ∧ r.rest = r'.rest := by
  simp only [rest] at hrest
  obtain ⟨m, hm, hm'⟩ | ⟨m, hm, hm'⟩ := List.append_eq_append_iff.mp hrest
  · cases m with
    | nil =>
        simp only [List.append_nil, List.nil_append, List.cons.injEq, Prod.mk.injEq] at hm hm'
        exact ⟨hm.symm, hm'.1.1, hm'.1.2, hm'.2⟩
    | cons p m =>
        simp only [List.cons_append, List.cons.injEq] at hm'
        obtain ⟨rfl, hm'⟩ := hm'
        exact (not_grouped_of_overlap h' h hm hm').elim
  · cases m with
    | nil =>
        simp only [List.append_nil, List.nil_append, List.cons.injEq, Prod.mk.injEq] at hm hm'
        exact ⟨hm, hm'.1.1.symm, hm'.1.2.symm, hm'.2.symm⟩
    | cons p m =>
        simp only [List.cons_append, List.cons.injEq] at hm'
        obtain ⟨rfl, hm'⟩ := hm'
        exact (not_grouped_of_overlap h h' hm hm').elim

/-- A sequence has one grouped tree. -/
theorem Grouped.unique {t t' : OperatorTree O α} (h : t.Grouped level) (h' : t'.Grouped level)
    (hfirst : t.first = t'.first) (hrest : t.rest = t'.rest) : t = t' := by
  induction t generalizing t' with
  | leaf a =>
      rw [eq_leaf hrest.symm, ← hfirst]
      rfl
  | node l o r ihl ihr =>
      cases t' with
      | leaf a' => simp [rest] at hrest
      | node l' o' r' =>
          obtain ⟨hl, rfl, hr, hrs⟩ := h.split h' hrest
          rw [ihl h.1 h'.1 hfirst hl, ihr h.2.1 h'.2.1 hr hrs]

/-- Only the levels of the operators of a tree matter. -/
theorem Grouped.congr {level' : O → ℕ} {t : OperatorTree O α} (h : t.Grouped level)
    (hlevel : t.AllOperators fun o => level o = level' o) : t.Grouped level' := by
  induction t with
  | leaf a => trivial
  | node l o r ihl ihr =>
      obtain ⟨hl, hr, hleft, hright⟩ := h
      obtain ⟨hllevel, ho, hrlevel⟩ := hlevel
      refine ⟨ihl hl hllevel, ihr hr hrlevel, ?_, ?_⟩
      · rw [allOperators_iff] at hleft hllevel ⊢
        intro p hp
        rw [← ho, ← hllevel p hp]
        exact hleft p hp
      · rw [allOperators_iff] at hright hrlevel ⊢
        intro p hp
        rw [← ho, ← hrlevel p hp]
        exact hright p hp

theorem group_congr {level' : O → ℕ} (a : α) {s : List (O × α)}
    (hlevel : ∀ p ∈ s, level p.1 = level' p.1) : group level a s = group level' a s := by
  have hgrouped : (group level a s).Grouped level' := by
    refine (grouped_group a s).congr ?_
    rw [allOperators_iff, rest_group]
    exact hlevel
  refine hgrouped.unique (grouped_group a s) ?_ ?_
  · rw [first_group, first_group]
  · rw [rest_group, rest_group]

theorem map_group (f : α → β) (a : α) (s : List (O × α)) :
    (group level a s).map f = group level (f a) (s.map (Prod.map id f)) := by
  refine ((grouped_map f _).mpr (grouped_group a s)).unique (grouped_group _ _) ?_ ?_
  · rw [first_map, first_group, first_group]
  · rw [rest_map, rest_group, rest_group]

/-! ### Nesting to the right -/

theorem first_rightNested (a : α) (s : List (O × α)) : (rightNested a s).first = a := by
  cases s <;> rfl

theorem rest_rightNested (a : α) (s : List (O × α)) : (rightNested a s).rest = s := by
  induction s generalizing a with
  | nil => rfl
  | cons p s ih => simp [rightNested, rest, first_rightNested, ih]

/-- Nesting to the right respects the levels only when each operator is tighter than the
one before it. -/
theorem grouped_rightNested_iff (a : α) (s : List (O × α)) :
    (rightNested a s).Grouped level ↔ (s.map fun p => level p.1).Pairwise (· < ·) := by
  induction s generalizing a with
  | nil => simp [rightNested, Grouped]
  | cons p s ih =>
      simp only [rightNested, Grouped, ih, AllOperators, true_and, List.map_cons,
        List.pairwise_cons, List.mem_map, allOperators_iff, rest_rightNested]
      constructor
      · intro ⟨hs, hp⟩
        refine ⟨?_, hs⟩
        intro n ⟨q, hq, hn⟩
        exact hn ▸ hp q hq
      · intro ⟨hp, hs⟩
        exact ⟨hs, fun q hq => hp _ ⟨q, hq, rfl⟩⟩

theorem rightNested_eq_group_iff (a : α) (s : List (O × α)) :
    rightNested a s = group level a s ↔ (s.map fun p => level p.1).Pairwise (· < ·) := by
  rw [← grouped_rightNested_iff a s]
  constructor
  · intro h
    exact h ▸ grouped_group a s
  · intro h
    refine h.unique (grouped_group a s) ?_ ?_
    · rw [first_rightNested, first_group]
    · rw [rest_rightNested, rest_group]

end Level

/-! ### The value of a tree -/

/-- The result of a tree of operators that always have one. -/
def fold (f : α → O → α → α) : OperatorTree O α → α
  | leaf a => a
  | node l o r => f (l.fold f) o (r.fold f)

/-- Where a tighter operator associates with a looser one before it, the grouping makes no
difference to calculating from left to right. -/
theorem fold_group {f : α → O → α → α} {level : O → ℕ} {P : O → Prop}
    (hassoc : ∀ p o, P p → P o → level p < level o →
      ∀ a b c, f a p (f b o c) = f (f a p b) o c)
    (a : α) {s : List (O × α)} (hs : ∀ q ∈ s, P q.1) :
    (group level a s).fold f = s.foldl (fun x q => f x q.1 q.2) a := by
  have hinsert : ∀ (o : O) (b : α), P o → ∀ t : OperatorTree O α, t.AllOperators P →
      (t.insert level o b).fold f = f (t.fold f) o b := by
    intro o b ho t
    induction t with
    | leaf c => exact fun _ => rfl
    | node l p r ihl ihr =>
        intro ⟨_, hp, hr⟩
        rw [insert]
        split
        · rename_i hlt
          rw [fold, ihr hr, hassoc p o hp ho hlt]
          rfl
        · rfl
  have hfoldl : ∀ (s : List (O × α)) (t : OperatorTree O α), (∀ q ∈ s, P q.1) →
      t.AllOperators P → (s.foldl (fun t q => t.insert level q.1 q.2) t).fold f =
        s.foldl (fun x q => f x q.1 q.2) (t.fold f) := by
    intro s
    induction s with
    | nil => exact fun t _ _ => rfl
    | cons q s ih =>
        intro t hs ht
        have hq := hs q List.mem_cons_self
        have hnext : (t.insert level q.1 q.2).AllOperators P := by
          rw [allOperators_iff] at ht ⊢
          intro p hp
          rw [rest_insert] at hp
          obtain hp | hp := List.mem_append.mp hp
          · exact ht p hp
          · exact List.mem_singleton.mp hp ▸ hq
        rw [List.foldl_cons, ih _ (fun p hp => hs p (List.mem_cons_of_mem _ hp)) hnext,
          hinsert q.1 q.2 hq t ht, List.foldl_cons]
  exact hfoldl s (leaf a) hs trivial

/-- The result of a tree of operators that may have none. -/
def value (f : α → O → α → Option α) : OperatorTree O α → Option α
  | leaf a => some a
  | node l o r => do
    let a ← l.value f
    let b ← r.value f
    f a o b

section Measure

variable {f : α → O → α → α} {size : α → ℕ}

/-- The size of a result counts the operands and the operators. -/
theorem size_fold (hsize : ∀ a o b, size (f a o b) = size a + size b + 1)
    (t : OperatorTree O α) :
    size (t.fold f) = size t.first + (t.rest.map fun p => size p.2 + 1).sum := by
  induction t with
  | leaf a => simp [fold, first, rest]
  | node l o r ihl ihr =>
      simp only [fold, first, rest, hsize, ihl, ihr, List.map_append, List.map_cons,
        List.sum_append, List.sum_cons]
      omega

/-- The part of a sequence before an operator is found from its size. -/
theorem append_cancel_of_sum {g : O × α → ℕ} (hpos : ∀ p, 0 < g p) {s s' u u' : List (O × α)}
    (h : s ++ u = s' ++ u') (hsum : (s.map g).sum = (s'.map g).sum) : s = s' ∧ u = u' := by
  obtain ⟨m, hs, hu⟩ | ⟨m, hs, hu⟩ := List.append_eq_append_iff.mp h
  all_goals
    cases m with
    | nil => simp_all
    | cons p m =>
        have := hpos p
        simp only [hs, List.map_append, List.map_cons, List.sum_append, List.sum_cons] at hsum
        omega

/-- Trees over one sequence have different results, when the function builds a term that
shows its operands and its operator. -/
theorem fold_injective (hsize : ∀ a o b, size (f a o b) = size a + size b + 1)
    (hinj : ∀ a o b a' o' b', f a o b = f a' o' b' → a = a' ∧ o = o' ∧ b = b')
    {t t' : OperatorTree O α} (hfirst : t.first = t'.first) (hrest : t.rest = t'.rest)
    (h : t.fold f = t'.fold f) : t = t' := by
  induction t generalizing t' with
  | leaf a =>
      rw [eq_leaf hrest.symm, ← hfirst]
      rfl
  | node l o r ihl ihr =>
      cases t' with
      | leaf a' => simp [rest] at hrest
      | node l' o' r' =>
          simp only [fold] at h
          obtain ⟨hl, rfl, hr⟩ := hinj _ _ _ _ _ _ h
          simp only [first] at hfirst
          simp only [rest] at hrest
          -- The left parts have one size, so the sequences split at the same operator.
          have hsum : (l.rest.map fun p => size p.2 + 1).sum =
              (l'.rest.map fun p => size p.2 + 1).sum := by
            have hsizes := congrArg size hl
            rw [size_fold hsize, size_fold hsize, hfirst] at hsizes
            omega
          obtain ⟨hls, hrs⟩ := append_cancel_of_sum (fun p => Nat.succ_pos _) hrest hsum
          simp only [List.cons.injEq, Prod.mk.injEq, true_and] at hrs
          rw [ihl hfirst hls hl, ihr hrs.1 hrs.2 hr]

end Measure

/-! ### Two levels -/

section TwoLevels

variable (f : β → O → β → Option β) (tight : O → Bool)

/-- The calculation with the current term, and the function that adds it to the terms before
it. A tight operator changes the term, and any other one ends it. -/
def sumOfTerms : (β → Option β) → β → List (O × β) → Option β
  | sum, term, [] => sum term
  | sum, term, (o, b) :: s =>
    if tight o then do
      let term ← f term o b
      sumOfTerms sum term s
    else do
      let total ← sum term
      sumOfTerms (fun b => f total o b) b s

/-- A sum that waits for a total can wait for it before the calculation. -/
theorem sumOfTerms_bind {γ : Type*} (x : Option γ) (g : γ → β → Option β) (term : β)
    (s : List (O × β)) :
    sumOfTerms f tight (fun b => x.bind fun c => g c b) term s =
      x.bind fun c => sumOfTerms f tight (g c) term s := by
  cases x with
  | some c => rfl
  | none =>
      simp only [Option.bind_none]
      induction s generalizing term with
      | nil => rfl
      | cons p s ih =>
          rw [sumOfTerms]
          split
          · cases f term p.1 p.2 with
            | none => rfl
            | some term' => exact ih term'
          · rfl

/-- The tree of a current term `t` and of what stands before it: the terms before it, and the
operator between. -/
def attach : Option (OperatorTree O β × O) → OperatorTree O β → OperatorTree O β
  | none, t => t
  | some (l, o), t => node l o t

/-- The sum of a current term and of what stands before it. -/
def sumWith : Option (OperatorTree O β × O) → β → Option β
  | none, b => some b
  | some (l, o), b => (l.value f).bind fun a => f a o b

theorem value_attach (before : Option (OperatorTree O β × O)) (t : OperatorTree O β) :
    (attach before t).value f = (t.value f).bind (sumWith f before) := by
  cases before with
  | none => cases ht : t.value f <;> simp [attach, sumWith, ht]
  | some p =>
      show (p.1.value f).bind (fun a => (t.value f).bind fun b => f a p.2 b) = _
      cases hl : p.1.value f <;> cases ht : t.value f <;> simp [sumWith, hl]

variable {f tight} {level : O → ℕ} (hlevel : ∀ o p, level o < level p ↔ tight p ∧ ¬ tight o)

include hlevel

/-- A tight operator joins the current term. -/
theorem insert_tight {before : Option (OperatorTree O β × O)} {t : OperatorTree O β} {o : O}
    (ho : tight o) (hbefore : ∀ p ∈ before, ¬ tight p.2) (ht : t.AllOperators (tight ·))
    (b : β) :
    (attach before t).insert level o b = attach before (node t o (leaf b)) := by
  have hterm : t.insert level o b = node t o (leaf b) := by
    cases t with
    | leaf a => rfl
    | node l p r =>
        have hp : ¬ level p < level o := by
          rw [hlevel]
          exact fun h => h.2 ht.2.1
        rw [insert, if_neg hp]
  cases before with
  | none => exact hterm
  | some p =>
      have hp : level p.2 < level o := (hlevel p.2 o).mpr ⟨ho, hbefore p rfl⟩
      show (node p.1 p.2 t).insert level o b = node p.1 p.2 (node t o (leaf b))
      rw [insert, if_pos hp, hterm]

/-- Any other operator takes the whole tree for its left part. -/
theorem insert_loose {t : OperatorTree O β} {o : O} (ho : ¬ tight o) (b : β) :
    t.insert level o b = node t o (leaf b) := by
  cases t with
  | leaf a => rfl
  | node l p r =>
      have hp : ¬ level p < level o := by
        rw [hlevel]
        exact fun h => ho h.1
      rw [insert, if_neg hp]

theorem value_foldl_insert (s : List (O × β)) {before : Option (OperatorTree O β × O)}
    {t : OperatorTree O β} (hbefore : ∀ p ∈ before, ¬ tight p.2)
    (ht : t.AllOperators (tight ·)) :
    (s.foldl (fun t p => t.insert level p.1 p.2) (attach before t)).value f =
      (t.value f).bind fun term => sumOfTerms f tight (sumWith f before) term s := by
  induction s generalizing before t with
  | nil => exact value_attach f before t
  | cons p s ih =>
      rw [List.foldl_cons]
      by_cases ho : tight p.1
      · have hterm : (node t p.1 (leaf p.2)).AllOperators (tight ·) := ⟨ht, ho, trivial⟩
        rw [insert_tight hlevel ho hbefore ht, ih hbefore hterm]
        simp only [value, sumOfTerms, ho, if_true]
        cases t.value f <;> rfl
      · -- The tree so far is what stands before the next term.
        have hnext : ∀ q ∈ some (attach before t, p.1), ¬ tight q.2 := by
          intro q hq
          obtain rfl := Option.mem_some_iff.mp hq
          exact ho
        have hterm : (leaf p.2 : OperatorTree O β).AllOperators (tight ·) := trivial
        rw [insert_loose hlevel ho]
        show (s.foldl _ (attach (some (attach before t, p.1)) (leaf p.2))).value f = _
        rw [ih hnext hterm]
        show sumOfTerms f tight
          (fun b => ((attach before t).value f).bind fun a => f a p.1 b) p.2 s = _
        rw [sumOfTerms_bind, value_attach]
        simp only [sumOfTerms, ho]
        cases t.value f <;> rfl

/-- The value of the tree of a sequence is the usual one. -/
theorem value_group (a : β) (s : List (O × β)) :
    (group level a s).value f = sumOfTerms f tight some a s := by
  have hbefore : ∀ p ∈ (none : Option (OperatorTree O β × O)), ¬ tight p.2 := by simp
  have hterm : (leaf a : OperatorTree O β).AllOperators (tight ·) := trivial
  exact value_foldl_insert hlevel s hbefore hterm

end TwoLevels

end OperatorTree
