import Mathlib.Data.Option.Basic

/-!
# `Stabl.Lib.StepCondition`: the exact condition of an invariant

A component changes its state by calls. An invariant that not every call preserves holds along
a run just when every call of the run meets some condition, if one call does so: in a state with
the invariant, the next state has it, and the call keeps its own promise, just when the call meets
the condition (`along_iff`). For there is a first call that does not meet it, and the state before
it still has the invariant.
-/

set_option autoImplicit false

namespace StepCondition

variable {σ α : Type} (step : σ → α → Option σ)

/-- The run from `s` that makes the calls passes through a state. -/
inductive Reached : σ → List α → σ → Prop where
  | here {s : σ} {calls : List α} : Reached s calls s
  | later {s s' t : σ} {a : α} {calls : List α} (h : step s a = some s')
    (ht : Reached s' calls t) : Reached s (a :: calls) t

/-- The run from `s` makes a call in a state. -/
inductive Makes : σ → List α → σ → α → Prop where
  | here {s : σ} {a : α} {calls : List α} : Makes s (a :: calls) s a
  | later {s s' t : σ} {a b : α} {calls : List α} (h : step s a = some s')
    (ht : Makes s' calls t b) : Makes s (a :: calls) t b

section
variable {step : σ → α → Option σ} {s s' t : σ} {a b : α} {calls : List α}

theorem reached_cons (h : step s a = some s') :
    Reached step s (a :: calls) t ↔ t = s ∨ Reached step s' calls t := by
  constructor
  · intro ht
    cases ht with
    | here => exact Or.inl rfl
    | later h' ht =>
        obtain rfl := Option.some.inj (h.symm.trans h')
        exact Or.inr ht
  · rintro (rfl | ht)
    · exact .here
    · exact .later h ht

theorem makes_cons (h : step s a = some s') :
    Makes step s (a :: calls) t b ↔ (t = s ∧ b = a) ∨ Makes step s' calls t b := by
  constructor
  · intro ht
    cases ht with
    | here => exact Or.inl ⟨rfl, rfl⟩
    | later h' ht =>
        obtain rfl := Option.some.inj (h.symm.trans h')
        exact Or.inr ht
  · rintro (⟨rfl, rfl⟩ | ht)
    · exact .here
    · exact .later h ht

/-- What every call preserves holds in every state that is reached. -/
theorem Reached.invariant {K : σ → Prop} (hkeep : ∀ {s a s'}, step s a = some s' → K s → K s')
    (hs : K s) (ht : Reached step s calls t) : K t := by
  induction ht with
  | here => exact hs
  | later h _ ih => exact ih (hkeep h hs)

/-- The invariant `I` holds along a run, and the calls keep their promise `P`, just when the calls
meet the condition `C`. The invariant `K` is one that all calls preserve. -/
theorem along_iff {K I : σ → Prop} {P C : σ → α → Prop} (htotal : ∀ s a, ∃ s', step s a = some s')
    (hkeep : ∀ {s a s'}, step s a = some s' → K s → K s')
    (hstep : ∀ {s a s'}, step s a = some s' → K s → I s → (I s' ∧ P s a ↔ C s a))
    (calls : List α) : ∀ {s : σ}, K s → I s →
      ((∀ t, Reached step s calls t → I t) ∧ (∀ t a, Makes step s calls t a → P t a) ↔
        ∀ t a, Makes step s calls t a → C t a) := by
  induction calls with
  | nil =>
      intro s hK hI
      have hmakes : ∀ t a, ¬ Makes step s [] t a := nofun
      refine ⟨fun _ t a ht => absurd ht (hmakes t a), fun _ => ⟨fun t ht => ?_, fun t a ht =>
        absurd ht (hmakes t a)⟩⟩
      cases ht with
      | here => exact hI
  | cons a calls ih =>
      intro s hK hI
      obtain ⟨s', h⟩ := htotal s a
      have hs := hstep h hK hI
      -- The state after the first call is reached, so it has the invariant, and the first call
      -- meets the condition. The rest of the run starts in that state.
      constructor
      · intro ⟨hreached, hmakes⟩ t b ht
        have hs' : I s' := hreached s' (.later h .here)
        rcases (makes_cons h).mp ht with ⟨rfl, rfl⟩ | ht
        · exact hs.mp ⟨hs', hmakes _ _ .here⟩
        · exact (ih (hkeep h hK) hs').mp ⟨fun t ht => hreached t (.later h ht),
            fun t b ht => hmakes t b (.later h ht)⟩ t b ht
      · intro hC
        have ⟨hs', hP⟩ := hs.mpr (hC _ _ .here)
        have hrest := (ih (hkeep h hK) hs').mpr fun t b ht => hC t b (.later h ht)
        constructor
        · intro t ht
          rcases (reached_cons h).mp ht with rfl | ht
          · exact hI
          · exact hrest.1 t ht
        · intro t b ht
          rcases (makes_cons h).mp ht with ⟨rfl, rfl⟩ | ht
          · exact hP
          · exact hrest.2 t b ht

end

end StepCondition
