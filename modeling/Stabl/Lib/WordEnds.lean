import Mathlib.Computability.Language

/-!
# `Stabl.Lib.WordEnds`: the first and the last letters of the words of a language

The runs of a structured program are a language over its statements: a sequence is a product, a
choice a sum, and a loop goes through its test before each round and once more at its end.
`BeginsWith` and `EndsIn` say which letters the words of a language begin and end with. The rules
take them apart along these operations. In a product the empty word matters: the first factor
gives the first letters, and the second factor the last letters, where that factor does not have
it.
-/

set_option autoImplicit false

open Computability

namespace WordEnds

variable {α : Type} {L M : Language α} {S T : Set α} {a : α}

/-- All words have the first letter `o`; `none` is for the empty word. -/
def BeginsWith (L : Language α) (o : Option α) : Prop := ∀ w ∈ L, w.head? = o

/-- The last letters of the words are in `S`. -/
def EndsIn (L : Language α) (S : Set α) : Prop := ∀ w ∈ L, ∀ a ∈ w.getLast?, a ∈ S

/-- The words of a loop: the letter, then any number of rounds with the letter behind each. -/
def loop (a : α) (L : Language α) : Language α := ({[a]} * L)∗ * {[a]}

/-! ### Products, sums and letters -/

theorem nil_mem_mul : [] ∈ L * M ↔ [] ∈ L ∧ [] ∈ M := by
  rw [Language.mem_mul]
  constructor
  · intro ⟨u, hu, v, hv, huv⟩
    obtain ⟨rfl, rfl⟩ := List.append_eq_nil_iff.mp huv
    exact ⟨hu, hv⟩
  · intro ⟨hL, hM⟩
    exact ⟨[], hL, [], hM, rfl⟩

theorem mem_letter_mul {w : List α} : w ∈ ({[a]} : Language α) * L ↔ ∃ u ∈ L, w = a :: u := by
  rw [Language.mem_mul]
  constructor
  · intro ⟨v, hv, u, hu, hw⟩
    obtain rfl : v = [a] := hv
    exact ⟨u, hu, hw.symm⟩
  · intro ⟨u, hu, hw⟩
    exact ⟨[a], rfl, u, hu, hw.symm⟩

theorem nil_notMem_letter_mul : [] ∉ ({[a]} : Language α) * L := by
  simp [mem_letter_mul]

theorem beginsWith_letter_mul : BeginsWith ({[a]} * L) (some a) := by
  intro w hw
  obtain ⟨u, _, rfl⟩ := mem_letter_mul.mp hw
  rfl

/-- A product begins as its first factor, when that factor does not have the empty word. -/
theorem BeginsWith.mul {o : Option α} (h : BeginsWith L o) (hL : [] ∉ L) :
    BeginsWith (L * M) o := by
  intro w hw
  obtain ⟨u, hu, v, _, rfl⟩ := Language.mem_mul.mp hw
  have hne : u ≠ [] := fun hnil => hL (hnil ▸ hu)
  rw [List.head?_append_of_ne_nil u hne]
  exact h u hu

theorem endsIn_letter : EndsIn {[a]} S ↔ a ∈ S := by
  constructor
  · intro h
    exact h [a] rfl a (by simp)
  · intro ha w hw b hb
    obtain rfl : w = [a] := hw
    obtain rfl : a = b := by simpa using hb
    exact ha

theorem endsIn_add : EndsIn (L + M) S ↔ EndsIn L S ∧ EndsIn M S := by
  simp only [EndsIn, Language.mem_add, or_imp, forall_and]

/-- A product ends as its second factor, when that factor does not have the empty word. -/
theorem endsIn_mul (hL : ∃ u, u ∈ L) (hM : [] ∉ M) : EndsIn (L * M) S ↔ EndsIn M S := by
  have hlast : ∀ (u : List α), ∀ v ∈ M, (u ++ v).getLast? = v.getLast? := by
    intro u v hv
    have hne : v ≠ [] := fun hnil => hM (hnil ▸ hv)
    exact List.getLast?_append_of_ne_nil u hne
  constructor
  · intro h v hv
    obtain ⟨u, hu⟩ := hL
    rw [← hlast u v hv]
    exact h (u ++ v) (Language.append_mem_mul hu hv)
  · intro h w hw
    obtain ⟨u, _, v, hv, rfl⟩ := Language.mem_mul.mp hw
    rw [hlast u v hv]
    exact h v hv

/-- A letter is the last one where nothing follows it. -/
theorem endsIn_letter_mul :
    EndsIn ({[a]} * L) S ↔ ([] ∈ L → a ∈ S) ∧ EndsIn L S := by
  constructor
  · intro h
    refine ⟨fun hnil => h [a] (mem_letter_mul.mpr ⟨[], hnil, rfl⟩) a rfl, fun u hu b hb => ?_⟩
    refine h (a :: u) (mem_letter_mul.mpr ⟨u, hu, rfl⟩) b ?_
    cases u with
    | nil => cases hb
    | cons c u => exact hb
  · intro ⟨ha, hL⟩ w hw b hb
    obtain ⟨u, hu, rfl⟩ := mem_letter_mul.mp hw
    cases u with
    | nil =>
        obtain rfl : a = b := by simpa using hb
        exact ha hu
    | cons c u => exact hL (c :: u) hu b hb

/-- Only the letters that occur in the words matter. -/
theorem endsIn_congr (h : ∀ w ∈ L, ∀ a ∈ w, (a ∈ S ↔ a ∈ T)) : EndsIn L S ↔ EndsIn L T := by
  refine forall₂_congr fun w hw => forall₂_congr fun a ha => ?_
  exact h w hw a (List.mem_of_mem_getLast? ha)

/-- A word that is not empty has a last letter. -/
theorem not_endsIn_empty {w : List α} (hw : w ∈ L) (hne : w ≠ []) : ¬ EndsIn L ∅ := by
  intro h
  exact h w hw (w.getLast hne) (List.getLast?_eq_some_getLast hne)

/-! ### Loops -/

/-- A loop is left at its first test, or goes through a round and the loop again. -/
theorem loop_eq : loop a L = {[a]} + {[a]} * L * loop a L := by
  have hunfold := Language.one_add_self_mul_kstar_eq_kstar ({[a]} * L)
  calc loop a L = (1 + {[a]} * L * ({[a]} * L)∗) * {[a]} := by rw [hunfold, loop]
    _ = {[a]} + {[a]} * L * loop a L := by rw [add_mul, one_mul, mul_assoc _ _ {[a]}, ← loop]

theorem mem_loop_self : [a] ∈ loop a L := by
  rw [loop_eq]
  exact Or.inl rfl

/-- The letters of a loop are its own letter and those of the rounds. -/
theorem eq_or_mem_of_mem_loop {w : List α} (hw : w ∈ loop a L) {b : α} (hb : b ∈ w) :
    b = a ∨ ∃ u ∈ L, b ∈ u := by
  obtain ⟨v, ⟨rounds, rfl, hrounds⟩, last, hlast, rfl⟩ := Language.mem_mul.mp hw
  obtain rfl : last = [a] := hlast
  rcases List.mem_append.mp hb with hb | hb
  · obtain ⟨round, hround, hb⟩ := List.mem_flatten.mp hb
    obtain ⟨u, hu, rfl⟩ := mem_letter_mul.mp (hrounds round hround)
    rcases List.mem_cons.mp hb with hb | hb
    · exact Or.inl hb
    · exact Or.inr ⟨u, hu, hb⟩
  · exact Or.inl (List.mem_singleton.mp hb)

theorem nil_notMem_loop : [] ∉ loop a L := by
  intro h
  have hlast := (nil_mem_mul.mp h).2
  cases hlast

theorem beginsWith_loop : BeginsWith (loop a L) (some a) := by
  rw [loop_eq, mul_assoc]
  intro w hw
  rcases hw with hw | hw
  · obtain rfl : w = [a] := hw
    rfl
  · exact beginsWith_letter_mul w hw

theorem endsIn_loop : EndsIn (loop a L) S ↔ a ∈ S := by
  have hrounds : ∃ u, u ∈ ({[a]} * L)∗ := ⟨[], Language.nil_mem_kstar _⟩
  have hnil : [] ∉ ({[a]} : Language α) := fun h => by cases h
  rw [loop, endsIn_mul hrounds hnil, endsIn_letter]

end WordEnds
