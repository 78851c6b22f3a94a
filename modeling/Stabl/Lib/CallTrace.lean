import Mathlib.Data.List.Basic

/-!
# `Stabl.Lib.CallTrace`: the calls of a run, with the worlds they are made in

A component is driven by calls. Each call knows the world that it is made in, and has an
effect on it. Between two calls only silent changes happen.

* `Run w calls w'`: a run leads from `w` to `w'` and makes the calls of the list.
  `Run.invariant` is the induction rule: what silent changes and calls preserve.
* `Along P before calls`: every call of the list has the property `P`, which also looks at
  the calls before it; `before` are those before the list. `Along.split` is how a
  property is read off the list.
-/

set_option autoImplicit false

namespace CallTrace

variable {World Call : Type}

section
variable (world : Call → World) (effect : Call → World → Prop) (silent : World → World → Prop)

/-- A run from `w`, with its calls and the world that it has reached. -/
inductive Run (w : World) : List Call → World → Prop where
  | start : Run w [] w
  | silent {calls : List Call} {w₁ w₂ : World} (h : Run w calls w₁) (hw : silent w₁ w₂) :
    Run w calls w₂
  | call {calls : List Call} {c : Call} {w₂ : World} (h : Run w calls (world c))
    (hc : effect c w₂) :
    Run w (calls ++ [c]) w₂

/-- What holds at the start, and is preserved by silent changes and by calls, holds of
every run. -/
theorem Run.invariant {world : Call → World} {effect : Call → World → Prop}
    {silent : World → World → Prop} {I : List Call → World → Prop} {w : World} (start : I [] w)
    (step : ∀ calls w₁ w₂, I calls w₁ → silent w₁ w₂ → I calls w₂)
    (call : ∀ calls c w₂, Run world effect silent w calls (world c) → I calls (world c) →
      effect c w₂ →
      I (calls ++ [c]) w₂)
    {calls : List Call} {w' : World} (h : Run world effect silent w calls w') : I calls w' := by
  induction h with
  | start => exact start
  | silent _ hw ih => exact step _ _ _ ih hw
  | call h hc ih => exact call _ _ _ h ih hc

end

section
variable {P : List Call → Call → Prop}

/-- The property holds of every call of the list, after the calls `before` and those
before it in the list. -/
def Along (P : List Call → Call → Prop) : (before calls : List Call) → Prop
  | _, [] => True
  | before, c :: calls => P before c ∧ Along P (before ++ [c]) calls

@[simp] theorem along_nil (before : List Call) : Along P before [] := trivial

theorem along_cons {before calls : List Call} {c : Call} :
    Along P before (c :: calls) ↔ P before c ∧ Along P (before ++ [c]) calls := Iff.rfl

theorem along_append {before calls calls' : List Call} :
    Along P before (calls ++ calls') ↔ Along P before calls ∧ Along P (before ++ calls) calls' := by
  induction calls generalizing before with
  | nil => simp
  | cons c calls ih =>
      rw [List.cons_append, along_cons, along_cons, ih, List.append_assoc, List.singleton_append,
        and_assoc]

theorem Along.mono {Q : List Call → Call → Prop} (hPQ : ∀ before c, P before c → Q before c)
    {before calls : List Call} (h : Along P before calls) : Along Q before calls := by
  induction calls generalizing before with
  | nil => trivial
  | cons c calls ih => exact ⟨hPQ before c h.1, ih h.2⟩

/-- A call of the list has the property, after the calls before it. -/
theorem Along.split {before pre post : List Call} {c : Call}
    (h : Along P before (pre ++ c :: post)) : P (before ++ pre) c := by
  have ⟨_, hrest⟩ := along_append.mp h
  exact hrest.1

end

end CallTrace
