import Stabl.Lib.Precedence

/-!
# `Stabl.Lib.OperatorParser`: a parser of operators with one stack

A bottom-up parser of a sequence `a₀ o₁ a₁ … oₙ aₙ` keeps the operators whose right operand
is not complete, each with its left operand. At the next operator it completes pending ones,
the latest first, as long as a table says so: `reduces p o` when `p` is on top of the stack
and `o` is ahead. What is still pending at the end is completed then (`parse`).

Where the table compares levels, the parser builds the grouped tree (`parse_eq_group`). An
operator at which the table never reduces, on either side, is a *barrier*: what comes after
it is parsed by itself and put in the place of the last operand before it
(`parse_barrier`).
-/

set_option autoImplicit false

variable {O α : Type*}

namespace OperatorTree

/-- The operators that wait for their right operands, each with its left one. The latest is
the first of the list. -/
abbrev Pending (O α : Type*) := List (OperatorTree O α × O)

/-- Completes all pending operators. -/
def close (pending : Pending O α) (t : OperatorTree O α) : OperatorTree O α :=
  pending.foldl (fun t p => node p.1 p.2 t) t

section Table

variable (reduces : O → O → Bool)

/-- Completes pending operators before the operator `o`. -/
def reduceBefore (o : O) : Pending O α → OperatorTree O α → Pending O α × OperatorTree O α
  | [], t => ([], t)
  | (l, p) :: pending, t =>
    if reduces p o then reduceBefore o pending (node l p t) else ((l, p) :: pending, t)

/-- The tree that the parser builds from the rest of a sequence. -/
def parse : Pending O α → OperatorTree O α → List (O × α) → OperatorTree O α
  | pending, t, [] => close pending t
  | pending, t, (o, a) :: s =>
    let (pending, t) := reduceBefore reduces o pending t
    parse ((t, o) :: pending) (leaf a) s

variable {reduces}

/-! ### Levels -/

section Level

variable {level : O → ℕ} {P : O → Prop}
  (hlevel : ∀ p o, P p → P o → (reduces p o = true ↔ level o ≤ level p))

/-- Each pending operator is tighter than those before it. -/
def Ascending (level : O → ℕ) (pending : Pending O α) : Prop :=
  pending.Pairwise fun p q => level q.2 < level p.2

/-- Below looser operators only the tree at the end changes. -/
theorem insert_close {o : O} (a : α) {pending : Pending O α}
    (h : ∀ p ∈ pending, level p.2 < level o) : ∀ t : OperatorTree O α,
      (close pending t).insert level o a = close pending (t.insert level o a) := by
  induction pending with
  | nil => exact fun t => rfl
  | cons p pending ih =>
      intro t
      have hnode : (node p.1 p.2 t).insert level o a = node p.1 p.2 (t.insert level o a) := by
        rw [insert, if_pos (h p List.mem_cons_self)]
      show (close pending (node p.1 p.2 t)).insert level o a =
        close pending (node p.1 p.2 (t.insert level o a))
      rw [ih (fun q hq => h q (List.mem_cons_of_mem _ hq)), hnode]

include hlevel

/-- The reductions before an operator find the place at which it hangs in the tree. -/
theorem insert_reduceBefore {o : O} (ho : P o) (a : α) {pending : Pending O α}
    (hasc : Ascending level pending) (hP : ∀ p ∈ pending, P p.2) :
    ∀ {t : OperatorTree O α}, t.insert level o a = node t o (leaf a) →
      (close pending t).insert level o a =
        close (((reduceBefore reduces o pending t).2, o) :: (reduceBefore reduces o pending t).1)
          (leaf a) := by
  induction pending with
  | nil => exact fun ht => ht
  | cons p pending ih =>
      intro t ht
      obtain ⟨hfirst, hasc⟩ := List.pairwise_cons.mp hasc
      have hp := hP p List.mem_cons_self
      -- A reduced operator is at least as tight, and the new one hangs above it. The first operator
      -- that is not reduced is looser, and so are all below it.
      by_cases hred : reduces p.2 o = true
      · have hle : ¬ level p.2 < level o := Nat.not_lt.mpr ((hlevel p.2 o hp ho).mp hred)
        have hnode : (node p.1 p.2 t).insert level o a = node (node p.1 p.2 t) o (leaf a) := by
          rw [insert, if_neg hle]
        rw [reduceBefore, if_pos hred]
        exact ih hasc (fun q hq => hP q (List.mem_cons_of_mem _ hq)) hnode
      · have hlt : level p.2 < level o := by
          rw [hlevel p.2 o hp ho] at hred
          omega
        rw [reduceBefore, if_neg hred]
        have hall : ∀ q ∈ p :: pending, level q.2 < level o := by
          intro q hq
          obtain rfl | hq := List.mem_cons.mp hq
          · exact hlt
          · exact Nat.lt_trans (hfirst q hq) hlt
        rw [insert_close a hall, ht]
        rfl

/-- What is still pending is looser than the operator ahead. -/
theorem reduceBefore_pending {o : O} (ho : P o) {pending : Pending O α}
    (hasc : Ascending level pending) (hP : ∀ p ∈ pending, P p.2) : ∀ {t : OperatorTree O α},
      Ascending level (reduceBefore reduces o pending t).1 ∧
      ∀ p ∈ (reduceBefore reduces o pending t).1, level p.2 < level o ∧ P p.2 := by
  induction pending with
  | nil => exact ⟨List.Pairwise.nil, by simp [reduceBefore]⟩
  | cons p pending ih =>
      intro t
      have hp := hP p List.mem_cons_self
      have hP' := fun q hq => hP q (List.mem_cons_of_mem _ hq)
      obtain ⟨hfirst, hasc'⟩ := List.pairwise_cons.mp hasc
      by_cases hred : reduces p.2 o = true
      · rw [reduceBefore, if_pos hred]
        exact ih hasc' hP'
      · have hlt : level p.2 < level o := by
          rw [hlevel p.2 o hp ho] at hred
          omega
        rw [reduceBefore, if_neg hred]
        refine ⟨hasc, fun q hq => ?_⟩
        obtain rfl | hq := List.mem_cons.mp hq
        · exact ⟨hlt, hp⟩
        · exact ⟨Nat.lt_trans (hfirst q hq) hlt, hP' q hq⟩

/-- One operator after the other is hung into the tree. -/
theorem parse_eq_foldl (s : List (O × α)) : ∀ {pending : Pending O α} {b : α},
    Ascending level pending → (∀ p ∈ pending, P p.2) → (∀ p ∈ s, P p.1) →
    parse reduces pending (leaf b) s =
      s.foldl (fun t p => t.insert level p.1 p.2) (close pending (leaf b)) := by
  induction s with
  | nil => exact fun _ _ _ => rfl
  | cons q s ih =>
      intro pending b hasc hP hs
      have hq := hs q List.mem_cons_self
      obtain ⟨hasc', hP'⟩ := reduceBefore_pending hlevel hq hasc hP (t := leaf b)
      rw [List.foldl_cons, insert_reduceBefore hlevel hq q.2 hasc hP rfl]
      -- The new operator is tighter than what is left on the stack, so the stack ascends again.
      refine ih (List.pairwise_cons.mpr ⟨fun p hp => (hP' p hp).1, hasc'⟩) ?_
        (fun p hp => hs p (List.mem_cons_of_mem _ hp))
      intro p hp
      obtain rfl | hp := List.mem_cons.mp hp
      · exact hq
      · exact (hP' p hp).2

/-- With a table that compares levels, and reduces at equal ones, the parser groups. -/
theorem parse_eq_group (a : α) (s : List (O × α)) (hs : ∀ p ∈ s, P p.1) :
    parse reduces [] (leaf a) s = group level a s :=
  parse_eq_foldl hlevel s List.Pairwise.nil (by simp) hs

end Level

/-! ### Barriers -/

/-- Puts a tree behind an operator into the place of the last operand. -/
def graft (o : O) (t' : OperatorTree O α) : OperatorTree O α → OperatorTree O α
  | leaf b => node (leaf b) o t'
  | node l p r => node l p (graft o t' r)

theorem graft_close (o : O) (t' : OperatorTree O α) (pending : Pending O α) :
    ∀ t : OperatorTree O α, graft o t' (close pending t) = close pending (graft o t' t) := by
  induction pending with
  | nil => exact fun t => rfl
  | cons p pending ih => exact fun t => ih (node p.1 p.2 t)

/-- Operators that are not reduced before `o` stay pending. -/
theorem reduceBefore_of_not_reduces {o : O} (ho : ∀ p, reduces p o = false)
    (pending : Pending O α) (t : OperatorTree O α) :
    reduceBefore reduces o pending t = (pending, t) := by
  cases pending with
  | nil => rfl
  | cons p pending => simp [reduceBefore, ho]

/-- A barrier on the stack hides what is below it. -/
theorem reduceBefore_above {e : O} (he : ∀ o, reduces e o = false) (o : O)
    (l : OperatorTree O α) (below above : Pending O α) : ∀ t : OperatorTree O α,
      reduceBefore reduces o (above ++ (l, e) :: below) t =
        ((reduceBefore reduces o above t).1 ++ (l, e) :: below,
          (reduceBefore reduces o above t).2) := by
  induction above with
  | nil =>
      intro t
      simp [reduceBefore, he]
  | cons p above ih =>
      intro t
      simp only [List.cons_append, reduceBefore]
      split
      · exact ih _
      · rfl

theorem parse_above {e : O} (he : ∀ o, reduces e o = false) (l : OperatorTree O α)
    (below : Pending O α) (s : List (O × α)) :
    ∀ (above : Pending O α) (t : OperatorTree O α),
      parse reduces (above ++ (l, e) :: below) t s =
        close below (node l e (parse reduces above t s)) := by
  induction s with
  | nil =>
      intro above t
      simp [parse, close]
  | cons q s ih =>
      intro above t
      -- The reductions stop at the barrier, so they are those of the stack above it.
      simp only [parse, reduceBefore_above he]
      exact ih (((reduceBefore reduces q.1 above t).2, q.1) ::
        (reduceBefore reduces q.1 above t).1) (leaf q.2)

/-- The sequence after a barrier is parsed by itself, and takes the place of the last operand
before it. -/
theorem parse_barrier {e : O} (hleft : ∀ p, reduces p e = false)
    (hright : ∀ o, reduces e o = false) (a : α) (s' s : List (O × α)) :
    ∀ (pending : Pending O α) (b : α),
      parse reduces pending (leaf b) (s ++ (e, a) :: s') =
        graft e (parse reduces [] (leaf a) s') (parse reduces pending (leaf b) s) := by
  induction s with
  | nil =>
      intro pending b
      simp only [List.nil_append, parse, reduceBefore_of_not_reduces hleft, graft_close]
      exact parse_above hright (leaf b) pending s' [] (leaf a)
  | cons q s ih => exact fun pending b => ih _ q.2

end Table

end OperatorTree
