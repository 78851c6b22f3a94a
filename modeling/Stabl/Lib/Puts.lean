import Mathlib.Data.List.Nodup
import Mathlib.Logic.Function.Basic

/-!
# `Stabl.Lib.Puts`: a map that is filled by puts

A program that fills a map runs through the entries in some order and puts one after another.
The map is a partial function here. Where the keys of the entries are distinct, no entry is
lost and the order does not matter: the map has just the entries (`puts_eq_some`).
-/

set_option autoImplicit false

namespace Puts

variable {κ α : Type} [DecidableEq κ]

/-- The map after one put. -/
def put (m : κ → Option α) (e : κ × α) : κ → Option α := Function.update m e.1 (some e.2)

/-- The map after the puts of all entries, in their order. -/
def puts (entries : List (κ × α)) (m : κ → Option α) : κ → Option α := entries.foldl put m

theorem puts_append (entries entries' : List (κ × α)) (m : κ → Option α) :
    puts (entries ++ entries') m = puts entries' (puts entries m) :=
  List.foldl_append

/-- A key of no entry keeps its value. -/
theorem puts_of_not_mem {entries : List (κ × α)} {k : κ} (hk : k ∉ entries.map Prod.fst) :
    ∀ m : κ → Option α, puts entries m k = m k := by
  induction entries with
  | nil => exact fun m => rfl
  | cons e entries ih =>
      intro m
      have ⟨hne, htail⟩ := not_or.mp (mt List.mem_cons.mpr hk)
      show puts entries (put m e) k = m k
      rw [ih htail, put, Function.update_of_ne hne]

/-- With distinct keys, the entries are the values of their keys. -/
theorem puts_of_mem {entries : List (κ × α)} (hnodup : (entries.map Prod.fst).Nodup) {k : κ}
    {a : α} (he : (k, a) ∈ entries) : ∀ m : κ → Option α, puts entries m k = some a := by
  induction entries with
  | nil => cases he
  | cons e entries ih =>
      intro m
      have ⟨hhead, htail⟩ := List.nodup_cons.mp hnodup
      show puts entries (put m e) k = some a
      rcases List.mem_cons.mp he with rfl | he
      · rw [puts_of_not_mem hhead, put, Function.update_self]
      · exact ih htail he _

/-- With distinct keys, a map that was empty has just the entries. -/
theorem puts_eq_some {entries : List (κ × α)} (hnodup : (entries.map Prod.fst).Nodup) {k : κ}
    {a : α} : puts entries (fun _ => none) k = some a ↔ (k, a) ∈ entries := by
  constructor
  · intro h
    -- A key that is there has the value of its only entry, and the others were never put.
    by_cases hk : k ∈ entries.map Prod.fst
    · obtain ⟨⟨k', a'⟩, he, rfl⟩ := List.mem_map.mp hk
      rw [puts_of_mem hnodup he, Option.some.injEq] at h
      exact h ▸ he
    · rw [puts_of_not_mem hk] at h
      cases h
  · exact fun he => puts_of_mem hnodup he _

end Puts
