import Mathlib.Order.Filter.AtTopBot.Basic

/-!
# `Stabl.Lib.Fuel`: computations that need fuel

A computation with fuel is a function of the amount of fuel. It settles on a result when every
large enough amount leads to it. Computations in sequence settle when each of them does
(`Settles.bind`), and an error of the first one is an error of both (`Settles.bind_error`).
-/

set_option autoImplicit false

namespace Fuel

open Filter

/-- With enough fuel, the result is `r`. -/
def Settles {α : Type} (f : ℕ → α) (r : α) : Prop := ∀ᶠ fuel in atTop, f fuel = r

theorem settles_const {α : Type} (r : α) : Settles (fun _ => r) r :=
  Eventually.of_forall fun _ => rfl

/-- A result that more fuel does not change. -/
theorem settles_of_mono {α : Type} {f : ℕ → α} {r : α} {m : ℕ} (h : ∀ n, m ≤ n → f n = r) :
    Settles f r := by
  filter_upwards [eventually_ge_atTop m] with n hn
  exact h n hn

/-- One unit of fuel less is enough, too. -/
theorem settles_succ {α : Type} {f : ℕ → α} {r : α} (h : Settles (fun n => f (n + 1)) r) :
    Settles f r := by
  unfold Settles at h ⊢
  rw [← map_add_atTop_eq_nat 1, eventually_map]
  exact h

namespace Settles

variable {ε α β : Type}

/-- Some amount of fuel leads to the result. -/
theorem exists_fuel {f : ℕ → α} {r : α} (h : Settles f r) : ∃ fuel, f fuel = r :=
  Eventually.exists h

/-- The second computation starts from what the first one settles on. -/
theorem bind {f : ℕ → Except ε α} {g : ℕ → α → Except ε β} {a : α} {r : Except ε β}
    (h : Settles f (.ok a)) (h' : Settles (fun n => g n a) r) :
    Settles (fun n => f n >>= g n) r := by
  unfold Settles at h h' ⊢
  filter_upwards [h, h'] with n hn hn'
  rw [hn]
  exact hn'

theorem bind_error {f : ℕ → Except ε α} {g : ℕ → α → Except ε β} {e : ε}
    (h : Settles f (.error e)) : Settles (fun n => f n >>= g n) (.error e) := by
  unfold Settles at h ⊢
  filter_upwards [h] with n hn
  rw [hn]
  rfl

end Settles

end Fuel
