import Mathlib.Data.List.Infix
import Stabl.Lib.Chain

/-!
# `Stabl.Lib.HierarchicalMachine`: hierarchical state machines without data

A tree of states, by addresses: child indices, innermost first. At any time the machine is in the
states on the chain of one leaf. A move turns at a state `top`: the states below it on the chain
are left, innermost first; then the move acts; then the states on the way to the target are
entered, outermost first, and from there the descent goes on to a leaf. A state that remembers is
entered at the child in which it was left last.

* `Fires chart m move m' steps`: one move, and the exits and entries that it makes.
* `Run chart moves m steps`: a run from the beginning. It is a function of its moves
  (`Run.deterministic`), and the memory is what the steps say (`Run.last_eq`).
-/

set_option autoImplicit false

namespace HierarchicalMachine

open TreeAddress

/-- Which states are leaves, and which remember the child that was left last. -/
structure Chart where
  atomic : List Nat → Bool
  remembers : List Nat → Bool

/-- The machine between two moves: its leaf, and the memory of each state. -/
structure Machine where
  leaf : List Nat
  last : List Nat → Option (List Nat)

/-- What a move does, in order. -/
inductive Step (α : Type) where
  | exit (s : List Nat)
  | act (label : α)
  | enter (s : List Nat)

/-- A move: it turns at `top` and goes to `target`. -/
structure Turn (α : Type) where
  top : List Nat
  target : List Nat
  label : α
deriving DecidableEq

/-- The memory after some states have been left, in the given order. -/
def remember (exits : List (List Nat)) (last : List Nat → Option (List Nat)) (s : List Nat) :
    Option (List Nat) := (exits.reverse.find? fun q => q.tail? = some s).or (last s)

/-- The child in which the descent goes on. -/
def Chart.child (chart : Chart) (last : List Nat → Option (List Nat)) (s : List Nat) : List Nat :=
  if chart.remembers s then (last s).getD (0 :: s) else 0 :: s

/-- The descent from `p` ends in the leaf `q`, through the states `below`. -/
inductive Descends (chart : Chart) (last : List Nat → Option (List Nat)) :
    List Nat → List Nat → List (List Nat) → Prop where
  | leaf {p : List Nat} (h : chart.atomic p = true) : Descends chart last p p []
  | child {p q : List Nat} {below : List (List Nat)} (h : chart.atomic p = false)
    (hq : Descends chart last (chart.child last p) q below) :
    Descends chart last p q (chart.child last p :: below)

variable {chart : Chart} {α : Type}

/-- There is one descent at most. -/
theorem Descends.deterministic {last : List Nat → Option (List Nat)} {p q q' : List Nat}
    {below below' : List (List Nat)} (h : Descends chart last p q below)
    (h' : Descends chart last p q' below') : q = q' ∧ below = below' := by
  induction h generalizing q' below' with
  | leaf hleaf =>
      cases h' with
      | leaf _ => exact ⟨rfl, rfl⟩
      | child hchild _ => simp [hleaf] at hchild
  | child hchild _ ih =>
      cases h' with
      | leaf hleaf => simp [hchild] at hleaf
      | child _ hq =>
          obtain ⟨rfl, rfl⟩ := ih hq
          exact ⟨rfl, rfl⟩

/-- A move from `m` to `m'`. -/
structure Fires (chart : Chart) (m : Machine) (move : Turn α) (m' : Machine)
    (steps : List (Step α)) : Prop where
  top : move.top <:+ m.leaf ∧ ProperAncestor move.top move.target
  last : m'.last = remember (climb move.top m.leaf) m.last
  steps : ∃ below, Descends chart m'.last move.target m'.leaf below ∧
    steps = (climb move.top m.leaf).map .exit ++ .act move.label ::
      ((climb move.top move.target).reverse ++ below).map .enter

/-- A move has one outcome. -/
theorem Fires.deterministic {m m₁ m₂ : Machine} {move : Turn α} {steps₁ steps₂ : List (Step α)}
    (h₁ : Fires chart m move m₁ steps₁) (h₂ : Fires chart m move m₂ steps₂) :
    m₁ = m₂ ∧ steps₁ = steps₂ := by
  obtain ⟨leaf₁, last₁⟩ := m₁
  obtain ⟨leaf₂, last₂⟩ := m₂
  obtain ⟨below₁, hbelow₁, hsteps₁⟩ := h₁.steps
  obtain ⟨below₂, hbelow₂, hsteps₂⟩ := h₂.steps
  obtain rfl : last₁ = last₂ := h₁.last.trans h₂.last.symm
  obtain ⟨hleaf, rfl⟩ := hbelow₁.deterministic hbelow₂
  exact ⟨congrArg (Machine.mk · last₁) hleaf, hsteps₁.trans hsteps₂.symm⟩

/-- A run that begins at the root and makes the moves, with all its steps. -/
inductive Run (chart : Chart) : List (Turn α) → Machine → List (Step α) → Prop where
  | begin {leaf : List Nat} {below : List (List Nat)}
    (h : Descends chart (fun _ => none) [] leaf below) :
    Run chart [] ⟨leaf, fun _ => none⟩ (([] :: below).map .enter)
  | fire {moves : List (Turn α)} {move : Turn α} {m m' : Machine} {steps steps' : List (Step α)}
    (h : Run chart moves m steps) (hmove : Fires chart m move m' steps') :
    Run chart (moves ++ [move]) m' (steps ++ steps')

theorem run_nil {m : Machine} {steps : List (Step α)} (h : Run chart [] m steps) :
    ∃ leaf below, Descends chart (fun _ => none) [] leaf below ∧ m = ⟨leaf, fun _ => none⟩ ∧
      steps = ([] :: below).map .enter := by
  generalize hmoves : ([] : List (Turn α)) = moves at h
  cases h with
  | begin hdescends => exact ⟨_, _, hdescends, rfl, rfl⟩
  | fire _ _ => simp at hmoves

theorem run_snoc {moves : List (Turn α)} {move : Turn α} {m' : Machine} {steps' : List (Step α)}
    (h : Run chart (moves ++ [move]) m' steps') : ∃ m steps steps₁,
      Run chart moves m steps ∧ Fires chart m move m' steps₁ ∧ steps' = steps ++ steps₁ := by
  generalize hmoves : moves ++ [move] = all at h
  cases h with
  | begin _ => simp at hmoves
  | fire hrun hfires =>
      obtain ⟨rfl, hlast⟩ := List.append_inj' hmoves rfl
      obtain rfl := List.singleton_injective hlast
      exact ⟨_, _, _, hrun, hfires, rfl⟩

/-- A run is a function of its moves. -/
theorem Run.deterministic {moves : List (Turn α)} {m₁ m₂ : Machine} {steps₁ steps₂ : List (Step α)}
    (h₁ : Run chart moves m₁ steps₁) (h₂ : Run chart moves m₂ steps₂) :
    m₁ = m₂ ∧ steps₁ = steps₂ := by
  induction h₁ generalizing m₂ steps₂ with
  | begin hdescends =>
      obtain ⟨leaf, below, hdescends', rfl, rfl⟩ := run_nil h₂
      obtain ⟨rfl, rfl⟩ := hdescends.deterministic hdescends'
      exact ⟨rfl, rfl⟩
  | fire _ hmove ih =>
      obtain ⟨m, steps, steps', hrun, hmove', rfl⟩ := run_snoc h₂
      obtain ⟨rfl, rfl⟩ := ih hrun
      obtain ⟨rfl, rfl⟩ := hmove.deterministic hmove'
      exact ⟨rfl, rfl⟩

/-! ### The memory -/

/-- The states that the steps leave, in order. -/
def exits (steps : List (Step α)) : List (List Nat) :=
  steps.filterMap fun
    | .exit s => some s
    | _ => none

theorem exits_append (steps steps' : List (Step α)) :
    exits (steps ++ steps') = exits steps ++ exits steps' := List.filterMap_append

theorem exits_enters (states : List (List Nat)) :
    exits (states.map (Step.enter : List Nat → Step α)) = [] := by
  induction states with
  | nil => rfl
  | cons s states ih => exact ih

theorem exits_act_enters (label : α) (states : List (List Nat)) :
    exits (Step.act label :: states.map Step.enter) = [] := exits_enters states

theorem exits_exits (states : List (List Nat)) :
    exits (states.map (Step.exit : List Nat → Step α)) = states := by
  induction states with
  | nil => rfl
  | cons s states ih => exact congrArg (s :: ·) ih

/-- A state remembers the child that the steps of the run have left last. -/
theorem Run.last_eq {moves : List (Turn α)} {m : Machine} {steps : List (Step α)}
    (h : Run chart moves m steps) (s : List Nat) :
    m.last s = (exits steps).reverse.find? fun q => q.tail? = some s := by
  induction h with
  | begin _ => rw [exits_enters]; rfl
  | fire _ hmove ih =>
      obtain ⟨below, _, rfl⟩ := hmove.steps
      rw [hmove.last, remember, ih, exits_append, exits_append, exits_exits, exits_act_enters,
        List.append_nil, List.reverse_append, List.find?_append]

end HierarchicalMachine
