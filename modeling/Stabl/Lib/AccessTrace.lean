import Mathlib.Logic.Function.Basic

/-!
# `Stabl.Lib.AccessTrace`: reads and writes of a store

A store maps locations to values, and a trace lists the reads and writes made of it.

* `final σ trace` is the store after the trace.
* `Honest σ trace`: every read obtains what the store then holds.

The two facts that a data-flow argument needs are `Honest.first_get` (a read that no
write precedes obtains the initial value) and `final_of_last_set` (a write that no write
follows decides the final value).
-/

set_option autoImplicit false

namespace AccessTrace

/-- A read of a location, with the value it obtains, or a write. -/
inductive Access (α β : Type) where
  | get (a : α) (b : β)
  | set (a : α) (b : β)
deriving DecidableEq

variable {α β : Type} [DecidableEq α]

/-- The store after one access. -/
def apply (σ : α → β) : Access α β → α → β
  | .get _ _ => σ
  | .set a b => Function.update σ a b

/-- The store after a trace. -/
def final (σ : α → β) (trace : List (Access α β)) : α → β := trace.foldl apply σ

@[simp] theorem final_nil (σ : α → β) : final σ [] = σ := rfl

@[simp] theorem final_cons (σ : α → β) (e : Access α β) (trace : List (Access α β)) :
    final σ (e :: trace) = final (apply σ e) trace := rfl

@[simp] theorem final_append (σ : α → β) (t t' : List (Access α β)) :
    final σ (t ++ t') = final (final σ t) t' := by
  simp [final]

/-- Every read of the trace obtains what the store then holds. -/
def Honest (σ : α → β) : List (Access α β) → Prop
  | [] => True
  | .get a b :: trace => b = σ a ∧ Honest σ trace
  | .set a b :: trace => Honest (Function.update σ a b) trace

@[simp] theorem honest_nil (σ : α → β) : Honest σ [] := trivial

@[simp] theorem honest_append {σ : α → β} {t t' : List (Access α β)} :
    Honest σ (t ++ t') ↔ Honest σ t ∧ Honest (final σ t) t' := by
  induction t generalizing σ with
  | nil => simp
  | cons e t ih =>
      cases e with
      | get a b => simp [Honest, ih, apply, and_assoc]
      | set a b => simp [Honest, ih, apply]

/-- The trace never writes `a`. -/
def Unwritten (a : α) (trace : List (Access α β)) : Prop := ∀ b, .set a b ∉ trace

/-- A location that is never written keeps its value. -/
theorem final_of_unwritten (σ : α → β) {a : α} {trace : List (Access α β)}
    (h : Unwritten a trace) : final σ trace a = σ a := by
  induction trace generalizing σ with
  | nil => rfl
  | cons e trace ih =>
      have htrace : Unwritten a trace := fun b hb => h b (List.mem_cons_of_mem _ hb)
      rw [final_cons, ih _ htrace]
      cases e with
      | get a' b => rfl
      | set a' b =>
          have hne : a ≠ a' := by
            rintro rfl
            exact h b List.mem_cons_self
          exact Function.update_of_ne hne b σ

/-- What a trace leaves in a location depends on that location only. -/
theorem final_congr {σ σ' : α → β} {a : α} (h : σ a = σ' a) (trace : List (Access α β)) :
    final σ trace a = final σ' trace a := by
  induction trace generalizing σ σ' with
  | nil => exact h
  | cons e trace ih =>
      refine ih ?_
      cases e with
      | get a' b => exact h
      | set a' b =>
          by_cases ha : a = a'
          · subst ha
            simp [apply]
          · simp [apply, ha, h]

/-- A write that no write of its location follows decides the final value. -/
theorem final_of_last_set (σ : α → β) {a : α} {b : β} {pre post : List (Access α β)}
    (h : Unwritten a post) : final σ (pre ++ .set a b :: post) a = b := by
  rw [final_append, final_cons, final_of_unwritten _ h]
  simp [apply]

/-- A read that no write of its location precedes obtains the initial value. -/
theorem Honest.first_get {σ : α → β} {a : α} {b : β} {pre post : List (Access α β)}
    (h : Honest σ (pre ++ .get a b :: post)) (hpre : Unwritten a pre) : b = σ a := by
  rw [honest_append, Honest] at h
  rw [h.2.1, final_of_unwritten σ hpre]

/-- A trace of reads that obtain what the store holds is honest, and changes nothing. -/
theorem honest_of_gets {σ : α → β} {trace : List (Access α β)}
    (h : ∀ e ∈ trace, ∃ a, e = .get a (σ a)) : Honest σ trace ∧ final σ trace = σ := by
  induction trace with
  | nil => exact ⟨trivial, rfl⟩
  | cons e trace ih =>
      obtain ⟨hhonest, hfinal⟩ := ih fun e he => h e (List.mem_cons_of_mem _ he)
      obtain ⟨a, rfl⟩ := h e List.mem_cons_self
      exact ⟨⟨rfl, hhonest⟩, hfinal⟩

end AccessTrace
