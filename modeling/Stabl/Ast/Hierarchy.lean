import Stabl.Ast.Syntax
import Stabl.Lib.Chain
import Stabl.Lib.Shape

/-!
# `Stabl.Ast.Hierarchy`: the state tree

The methods of `State` and `Statechart` that walk the tree: `getSuperstate`,
`getAllSuperstates`, `isAncestor`, `lub`, `nameToState`, `findSubstateByName`,
`getFullName`. A state object is a `StateRef`, so the walks upwards need no tree. A walk
downwards, or a look at a state's fields, goes through `State.stateAt`.

`getAllSuperstates` and `lub` are recursions as the source has them. The lemmas connect
them to the chains of `Stabl.Lib.Chain`: the superstates of `i :: p` are `chain p`, and
a least upper bound is a proper suffix of both states.
-/

set_option autoImplicit false

namespace Stabl

open TreeAddress

variable {ν : Type}

/-- `State.getSuperstate`; `none` is `null`, the superstate of the statechart. -/
def getSuperstate : StateRef → Option StateRef
  | [] => none
  | _ :: p => some p

/-- `State.getAllSuperstates`: the proper ancestors, the statechart first. -/
def getAllSuperstates : StateRef → List StateRef
  | [] => []
  | _ :: p => getAllSuperstates p ++ [p]

/-- `State.isAncestor`: `p` is a proper ancestor of `q`. -/
def isAncestor (p q : StateRef) : Bool := (getAllSuperstates q).contains p

/-- The loop of `Statechart.lub`: it strips the common prefix of the two lists and
remembers the last state stripped. -/
def lubLoop : List StateRef → List StateRef → Option StateRef → Option StateRef
  | x :: a1, y :: a2, cca => if x = y then lubLoop a1 a2 (some x) else cca
  | _, _, cca => cca

/-- `Statechart.lub`. -/
def lub (s1 s2 : StateRef) : Option StateRef :=
  lubLoop (getAllSuperstates s1) (getAllSuperstates s2) none

namespace State

/-- The state object at a position of the tree. -/
def stateAt (root : State ν) : StateRef → Option (State ν)
  | [] => some root
  | i :: p => (root.stateAt p).bind fun s => s.states[i]?

/-- The declarations of the state at a position. -/
def declarationsAt (root : State ν) (p : StateRef) : List Declaration :=
  match root.stateAt p with
  | some s => s.declarations.toList
  | none => []

/-- `State.findSubstateByName`, as the index of the child. -/
def findSubstateByName (s : State ν) (name : String) : Option Nat :=
  s.states.findIdx? fun st => st.name = name

/-- `State.nameToState`: `rest` holds the components after the name of `s`, which is at
the position `p`. -/
def nameToState (s : State ν) (p : StateRef) : (rest : Path) → Option StateRef
  | [] => some p
  | n :: rest =>
    match s.states.findIdx? (fun st => st.name = n) with
    | none => none
    | some i =>
      match s.states[i]? with
      | none => none
      | some st => st.nameToState (i :: p) rest

end State

/-- `Statechart.nameToState`: the first component has to be the statechart's own name. -/
def nameToState (root : State ν) : Path → Option StateRef
  | [] => none
  | n :: rest => if root.name = n then root.nameToState [] rest else none

/-- `State.getFullName`: the names on the chain of `p`, separated by dots. -/
def getFullName (root : State ν) : StateRef → Option String
  | [] => some root.name
  | i :: p => do
    let super ← getFullName root p
    let s ← root.stateAt (i :: p)
    pure (super ++ "." ++ s.name)

/-- `Declaration.getFullVName`. -/
def getFullVName (root : State ν) (r : DeclarationRef) : Option String := do
  let state ← getFullName root r.state
  pure (state ++ "." ++ r.vname)

mutual

/-- The positions of a state and of all states below it, a state before its children
and the children in order. -/
def State.positions (p : StateRef) : State ν → List StateRef
  | ⟨_, _, _, _, states, _, _, _, _, _⟩ => p :: statesPositions p 0 states

/-- The positions below a state, from its `i`-th child on. -/
def statesPositions (p : StateRef) (i : Nat) : List (State ν) → List StateRef
  | [] => []
  | s :: ss => s.positions (i :: p) ++ statesPositions p (i + 1) ss

end

/-- A transition together with the state it is placed in: `Transition.state`. -/
structure PlacedTransition (ν : Type) where
  state : StateRef
  transition : Transition ν

/-- The transitions of the state at a position. -/
def State.transitionsAt (root : State ν) (p : StateRef) : List (Transition ν) :=
  match root.stateAt p with
  | some s => s.transitions
  | none => []

/-- The result of the constructor of `Statechart`: the tree and the global
declarations. `initialised` is what `initialiseTransitions` establishes, or throws. -/
structure Statechart where
  root : State Path
  moreTypes : List TypeDeclaration
  events : List String
  functionDeclarations : List FunctionDeclaration
  initialised : ∀ p ∈ root.positions [], ∀ t ∈ root.transitionsAt p,
    nameToState root t.sourceName = some t.source ∧
      nameToState root t.destinationName = some t.destination

/-! ### Superstates and chains -/

/-- The superstates of `i :: p` are the chain of `p`. -/
theorem getAllSuperstates_cons (i : Nat) (p : StateRef) :
    getAllSuperstates (i :: p) = chain p := by
  induction p generalizing i with
  | nil => rfl
  | cons j p ih => rw [getAllSuperstates, ih j, chain_cons]

/-- The states from the statechart down to `p` are its chain. -/
theorem getAllSuperstates_append_self (p : StateRef) : getAllSuperstates p ++ [p] = chain p := by
  cases p with
  | nil => rfl
  | cons i p => rw [getAllSuperstates_cons, chain_cons]

theorem mem_getAllSuperstates {p q : StateRef} :
    q ∈ getAllSuperstates p ↔ q <:+ p ∧ q ≠ p := by
  cases p with
  | nil => simp [getAllSuperstates]
  | cons i p =>
      rw [getAllSuperstates_cons, mem_chain, List.suffix_cons_iff]
      constructor
      · exact fun h => ⟨Or.inr h, fun he => cons_not_suffix i p (he ▸ h)⟩
      · rintro ⟨rfl | h, hne⟩
        · exact absurd rfl hne
        · exact h

/-- What the loop returns was handed in or is on both lists. -/
theorem lubLoop_mem {a1 a2 : List StateRef} {cca : Option StateRef} {l : StateRef}
    (h : lubLoop a1 a2 cca = some l) : cca = some l ∨ (l ∈ a1 ∧ l ∈ a2) := by
  induction a1 generalizing a2 cca with
  | nil => exact Or.inl (by simpa [lubLoop] using h)
  | cons x a1 ih =>
      cases a2 with
      | nil => exact Or.inl (by simpa [lubLoop] using h)
      | cons y a2 =>
          rw [lubLoop] at h
          split at h
          · rename_i hxy
            subst hxy
            rcases ih h with hx | ⟨h1, h2⟩
            · obtain rfl : x = l := by simpa using hx
              exact Or.inr ⟨by simp, by simp⟩
            · exact Or.inr ⟨by simp [h1], by simp [h2]⟩
          · exact Or.inl h

/-- A least upper bound is a proper ancestor of both states. -/
theorem lub_proper {s1 s2 l : StateRef} (h : lub s1 s2 = some l) :
    (l <:+ s1 ∧ l ≠ s1) ∧ (l <:+ s2 ∧ l ≠ s2) := by
  rcases lubLoop_mem h with hnone | ⟨h1, h2⟩
  · simp at hnone
  · exact ⟨mem_getAllSuperstates.mp h1, mem_getAllSuperstates.mp h2⟩

/-! ### Positions of the tree -/

@[simp] theorem State.stateAt_nil (root : State ν) : root.stateAt [] = some root := rfl

theorem State.stateAt_cons (root : State ν) (i : Nat) (p : StateRef) :
    root.stateAt (i :: p) = (root.stateAt p).bind fun s => s.states[i]? := rfl

theorem State.stateAt_eq_nodeAt (root : State ν) (p : StateRef) :
    root.stateAt p = nodeAt State.states root p := by
  induction p with
  | nil => rfl
  | cons i p ih => rw [stateAt, nodeAt, ih]

/-- An ancestor of a state of the tree is a state of the tree. -/
theorem State.stateAt_isSome_of_suffix {root : State ν} {p q : StateRef} (hqp : q <:+ p)
    (hp : (root.stateAt p).isSome) : (root.stateAt q).isSome := by
  induction p with
  | nil =>
      rw [List.suffix_nil.mp hqp]
      rfl
  | cons i p ih =>
      rcases List.suffix_cons_iff.mp hqp with rfl | h
      · exact hp
      · refine ih h ?_
        rw [stateAt_cons] at hp
        cases hs : root.stateAt p with
        | none => simp [hs] at hp
        | some s => rfl

/-- The names declared in a state are distinct. -/
theorem State.nodup_declarationsAt (root : State ν) (p : StateRef) :
    ((root.declarationsAt p).map Declaration.vname).Nodup := by
  unfold declarationsAt
  split
  · rename_i s _
    exact s.declarations.nodup
  · exact List.nodup_nil

/-- Only the states of the tree have declarations. -/
theorem State.exists_of_mem_declarationsAt {root : State ν} {p : StateRef} {dec : Declaration}
    (h : dec ∈ root.declarationsAt p) :
    ∃ s, root.stateAt p = some s ∧ dec ∈ s.declarations.toList := by
  unfold declarationsAt at h
  split at h
  · rename_i s hs
    exact ⟨s, hs, h⟩
  · cases h

/-- Only as many states stand below the root as it has substates. -/
theorem State.lt_length_of_stateAt {root s : State ν} {i : Nat} (h : root.stateAt [i] = some s) :
    i < root.states.length := by
  by_contra hge
  have hnone : root.stateAt [i] = none := by
    rw [stateAt_cons, stateAt_nil]
    simpa using hge
  rw [hnone] at h
  cases h

/-- The walk of `nameToState` from a state of the tree ends in a state of the tree. -/
theorem State.stateAt_nameToState {root s : State ν} {p q : StateRef} {rest : Path}
    (hs : root.stateAt p = some s) (h : s.nameToState p rest = some q) :
    (root.stateAt q).isSome := by
  induction rest generalizing s p with
  | nil =>
      obtain rfl : p = q := by simpa [nameToState] using h
      simp [hs]
  | cons n rest ih =>
      rw [nameToState] at h
      split at h
      · simp at h
      · rename_i i _
        split at h
        · simp at h
        · rename_i st hst
          exact ih (by rw [stateAt_cons, hs]; exact hst) h

/-- A name resolves to a state of the tree. -/
theorem stateAt_nameToState {root : State ν} {n : Path} {q : StateRef}
    (h : nameToState root n = some q) : (root.stateAt q).isSome := by
  cases n with
  | nil => simp [nameToState] at h
  | cons n rest =>
      rw [nameToState] at h
      split at h
      · exact State.stateAt_nameToState (root.stateAt_nil) h
      · simp at h

end Stabl
