import Stabl.SymbolicExecution.Process
import Stabl.Proofs.SymbolicExecution.Configuration
import Stabl.Proofs.SymbolicExecution.Termination

/-!
# `Stabl.Proofs.SymbolicExecution.Process`: executions in a process

`executeIn` is `execute` when it begins at the root of the tree and `conf` is empty
(`executeSym_eq`). On the tree of a process, it looks up what the statechart has at the same
place (`stateAt_process`). So the climbing loops collect states below the statechart only, and
every execution returns (`executeIn_returns`).

The statechart itself is the first state of `conf`, and no transition leaves it. So it stays the
first one in all later executions of the process (`head?_conf`), and the first state that a node
has entered is the first one in `conf` when its execution began (`firstEntry_executeIn`).
-/

set_option autoImplicit false

namespace Stabl

open TreeAddress EnterExit

/-! ### One statechart -/

theorem chartConfiguration_nil (root : State Name) :
    chartConfiguration root [] [] = firstConfiguration root := by
  have hnodup : ([] ++ ([] :: root.firstSubstatesAt []) : List StateRef).Nodup :=
    nodup_firstConfiguration root
  exact replay_enters hnodup

theorem isEmpty_firstSubstatesAt (root : State Name) :
    (root.firstSubstatesAt []).isEmpty = root.states.isEmpty := by
  obtain ⟨_, _, _, _, states, _, _, _, _, _⟩ := root
  cases states with
  | nil => rfl
  | cons s states => rfl

theorem firstRoundIn_root (root : State Name) (maxDepth : Int) (solver : Solver) :
    firstRoundIn root [] maxDepth solver [] = firstRound root maxDepth solver := by
  rw [firstRoundIn, firstRound, isEmpty_firstSubstatesAt, chartConfiguration_nil]
  rfl

theorem engineRoundIn_root (root : State Name) (maxDepth : Int) (solver : Solver)
    (maxTreeDepth : Int) (loop : LoopState) :
    engineRoundIn root [] maxDepth solver maxTreeDepth loop =
      engineRound root maxDepth solver maxTreeDepth loop := by
  unfold engineRoundIn
  cases h : engineRound root maxDepth solver maxTreeDepth loop with
  | none => rfl
  | some loop' =>
      have ⟨acc, _, hacc⟩ := Option.bind_eq_some_iff.mp h
      obtain rfl := Option.some.inj hacc
      rfl

/-- `executeIn` is `execute` where the tree is that of one statechart and the process is new. -/
theorem executeSym_eq (root : State Name) (maxDepth : Int) (solver : Solver) (maxTreeDepth : Int)
    (fuel : Nat) :
    executeSym root maxDepth solver maxTreeDepth fuel =
      (executeIn root [] maxDepth solver maxTreeDepth [] fuel).map fun e => e.loop.done := by
  have hloop : ∀ (fuel : Nat) (e : Execution), mainLoop root maxDepth solver maxTreeDepth fuel
      e.loop = (mainLoopIn root [] maxDepth solver maxTreeDepth fuel e).map
        fun e => e.loop.done := by
    intro fuel
    induction fuel with
    | zero => exact fun _ => rfl
    | succ fuel ih =>
        intro e
        rw [mainLoop, mainLoopIn, engineRoundIn_root]
        split
        · rfl
        · cases engineRound root maxDepth solver maxTreeDepth e.loop with
          | none => rfl
          | some loop' => exact ih ⟨_, loop'⟩
  rw [executeSym, executeIn, firstRoundIn_root]
  cases firstRound root maxDepth solver with
  | none => rfl
  | some loop => exact hloop fuel ⟨_, loop⟩

/-! ### The tree of a process -/

theorem relocateStates_eq (k : Nat) (states : List (State Name)) :
    relocateStates k states = states.map (State.relocate k) := by
  induction states with
  | nil => rfl
  | cons s states ih => rw [relocateStates, ih, List.map_cons]

theorem State.states_relocate (k : Nat) (s : State Name) :
    (s.relocate k).states = s.states.map (State.relocate k) := by
  obtain ⟨_, _, _, _, states, _, _, _, _, _⟩ := s
  exact relocateStates_eq k states

theorem State.transitions_relocate (k : Nat) (s : State Name) :
    (s.relocate k).transitions = s.transitions.map (Transition.relocate k) := by
  obtain ⟨_, _, _, _, _, _, _, _, _, _⟩ := s
  rfl

/-- The `k`-th child of a state is a statechart of the process. -/
def IsChart (root : State Name) (k : Nat) (s : State Name) : Prop :=
  root.states[k]? = some (s.relocate k)

theorem isChart_fst (a b : State Name) : IsChart (process a b) 0 a := rfl

theorem isChart_snd (a b : State Name) : IsChart (process a b) 1 b := rfl

section
variable {root s : State Name} {k : Nat} (h : IsChart root k s)
include h

/-- Below a statechart of the process, the tree is that of the statechart. -/
theorem stateAt_chart (p : StateRef) :
    root.stateAt (p ++ [k]) = (s.stateAt p).map (State.relocate k) := by
  induction p with
  | nil => exact h
  | cons i p ih =>
      rw [List.cons_append, State.stateAt_cons, State.stateAt_cons, ih]
      cases s.stateAt p with
      | none => rfl
      | some s' =>
          show (s'.relocate k).states[i]? = _
          rw [State.states_relocate, List.getElem?_map]
          rfl

theorem transitionsAt_chart (p : StateRef) :
    root.transitionsAt (p ++ [k]) = (s.transitionsAt p).map (Transition.relocate k) := by
  unfold State.transitionsAt
  rw [stateAt_chart h]
  cases s.stateAt p with
  | none => rfl
  | some s' => exact State.transitions_relocate k s'

/-- A transition of the statechart, as an object of the process. -/
theorem mem_chartTransitions {t : PlacedTransition Name} (ht : t ∈ chartTransitions root [k]) :
    ∃ p t', t.state = p ++ [k] ∧ t' ∈ s.transitionsAt p ∧ t.transition = t'.relocate k := by
  have ⟨x, hx, ht⟩ := List.mem_flatMap.mp ht
  have ⟨t₁, ht₁, heq⟩ := List.mem_map.mp ht
  obtain rfl := heq
  have ⟨p, hp⟩ : [k] <:+ x := by
    unfold chartPositions at hx
    split at hx
    · exact State.suffix_of_mem_positions _ hx
    · cases hx
  obtain rfl := hp
  rw [transitionsAt_chart h] at ht₁
  have ⟨t', ht', heq⟩ := List.mem_map.mp ht₁
  exact ⟨p, t', rfl, ht', heq.symm⟩

end

/-- What an execution needs of its transitions: their lists of states are defined, they leave a
state, and they do not leave the statechart. -/
def LeavesBelow (root : State Name) (chart : StateRef) (t : PlacedTransition Name) : Prop :=
  ∃ states, transitionStates root t = some states ∧ states.sourceStates ≠ [] ∧
    chart ∉ states.sourceStates

/-- The state of a transition is an ancestor of its source and its destination. The climbing
loops end there at the latest, so they do not get to the statechart. -/
theorem leavesBelow_of_accepted {sc : Statechart} {c : CheckedStatechart}
    (hc : typecheck sc = .ok c) {root : State Name} {k : Nat} (h : IsChart root k c.root)
    {t : PlacedTransition Name} (ht : t ∈ chartTransitions root [k]) : LeavesBelow root [k] t := by
  obtain ⟨p, t', hstate, ht', htransition⟩ := mem_chartTransitions h ht
  obtain ⟨⟨hsource, hsource'⟩, ⟨hdest, hdest'⟩⟩ := lub_proper (lub_of_accepted hc ht').1
  have habove : ∀ q, p <:+ q → p ≠ q → t.state <:+ q ++ [k] ∧ q ++ [k] ≠ t.state := by
    intro q hq hne
    obtain ⟨above, habove⟩ := hq
    rw [hstate]
    exact ⟨⟨above, by rw [← List.append_assoc, habove]⟩,
      fun heq => hne (List.append_cancel_right heq).symm⟩
  obtain ⟨hs, hs'⟩ := habove _ hsource hsource'
  obtain ⟨hd, hd'⟩ := habove _ hdest hdest'
  obtain ⟨source, hclimb, hbelow⟩ := superstatesBelow_eq_some root hs hs'
  obtain ⟨destination, hclimb', _⟩ := superstatesBelow_eq_some root hd hd'
  have hstates : transitionStates root t = some ⟨(t'.source ++ [k]) :: source,
      (t'.destination ++ [k]) :: destination,
      root.firstSubstatesAt (t'.destination ++ [k])⟩ := by
    rw [transitionStates, htransition]
    show (superstatesBelow root _ (t'.source ++ [k])).bind _ = _
    rw [hclimb, Option.bind_some]
    show (superstatesBelow root _ (t'.destination ++ [k])).bind _ = _
    rw [hclimb']
    rfl
  refine ⟨_, hstates, List.cons_ne_nil _ _, fun hk => ?_⟩
  -- The state of the transition lies at the statechart or below it.
  obtain ⟨hsuffix, hne⟩ := hbelow _ hk
  rw [hstate] at hsuffix hne
  have hlength := hsuffix.length_le
  rw [List.length_append] at hlength
  have hp : p = [] := List.length_eq_zero_iff.mp (by simpa using hlength)
  exact hne (by rw [hp]; rfl)

/-! ### The main loop -/

section
variable {root : State Name} {chart : StateRef} {maxDepth : Int} {solver : Solver}
  {maxTreeDepth : Int}

theorem engineRoundIn_eq_some {loop loop' : LoopState} :
    engineRoundIn root chart maxDepth solver maxTreeDepth loop = some loop' ↔
      ∃ loop₁, engineRound root maxDepth solver maxTreeDepth loop = some loop₁ ∧
        { loop₁ with outTs := computeOutts root loop₁.conf (chartTransitions root chart) } =
          loop' :=
  Option.map_eq_some_iff

/-- What every round preserves holds when the main loop ends. -/
theorem mainLoopIn_induction {P : Execution → Prop}
    (step : ∀ e loop', P e → engineRoundIn root chart maxDepth solver maxTreeDepth e.loop =
      some loop' → P ⟨e.effects ++ roundEffects root maxDepth solver e.loop, loop'⟩) :
    ∀ {fuel : Nat} {e e' : Execution}, P e →
      mainLoopIn root chart maxDepth solver maxTreeDepth fuel e = some e' → P e' := by
  intro fuel
  induction fuel with
  | zero => exact fun _ h => nomatch h
  | succ fuel ih =>
      intro e e' he h
      rw [mainLoopIn] at h
      split at h
      · obtain rfl := Option.some.inj h
        exact he
      · have ⟨loop', hround, hrest⟩ := Option.bind_eq_some_iff.mp h
        exact ih (step e loop' he hround) hrest

/-- The transitions of the statechart are outgoing, and no others. -/
def LoopState.OutgoingIn (root : State Name) (chart : StateRef) (loop : LoopState) : Prop :=
  ∀ t ∈ loop.outTs, t ∈ chartTransitions root chart

theorem outgoingIn_firstRoundIn {conf : List StateRef} {loop : LoopState}
    (h : firstRoundIn root chart maxDepth solver conf = some loop) :
    loop.OutgoingIn root chart := by
  unfold firstRoundIn at h
  split at h
  · cases h
  · obtain rfl := Option.some.inj h
    exact fun t ht => (List.mem_filter.mp ht).1

theorem outgoingIn_engineRoundIn {loop loop' : LoopState}
    (h : engineRoundIn root chart maxDepth solver maxTreeDepth loop = some loop') :
    loop'.OutgoingIn root chart := by
  obtain ⟨loop₁, _, rfl⟩ := engineRoundIn_eq_some.mp h
  exact fun t ht => (List.mem_filter.mp ht).1

/-! ### Every execution returns -/

theorem LeavesBelow.leaves {t : PlacedTransition Name} (h : LeavesBelow root chart t) :
    t.Leaves root := by
  have ⟨states, hstates, hsource, _⟩ := h
  exact ⟨states, hstates, hsource⟩

/-- A round returns, and its leaves lie deeper than those before. -/
theorem engineRoundIn_deeper (hchart : ∀ t ∈ chartTransitions root chart, LeavesBelow root chart t)
    (maxDepth : Int) (solver : Solver) (maxTreeDepth : Int) {loop : LoopState}
    (hout : loop.OutgoingIn root chart) {k : Nat} (hleaves : ∀ n ∈ loop.leaves, k ≤ n.treedepth) :
    ∃ loop', engineRoundIn root chart maxDepth solver maxTreeDepth loop = some loop' ∧
      ∀ n ∈ loop'.leaves, k + 1 ≤ n.treedepth ∧ (n.treedepth : Int) ≤ maxTreeDepth := by
  have ⟨loop', hround, _, hleaves'⟩ := engineRound_deeper root maxDepth solver maxTreeDepth
    (fun t ht => (hchart t (hout t ht)).leaves) hleaves
  exact ⟨_, engineRoundIn_eq_some.mpr ⟨loop', hround, rfl⟩, hleaves'⟩

/-- As `mainLoop_returns`. -/
theorem mainLoopIn_returns (hchart : ∀ t ∈ chartTransitions root chart, LeavesBelow root chart t) :
    ∀ (fuel : Nat) {e : Execution} {k : Nat}, e.loop.OutgoingIn root chart →
    (∀ n ∈ e.loop.leaves, k ≤ n.treedepth ∧ (n.treedepth : Int) ≤ maxTreeDepth) →
    maxTreeDepth + 1 - k < fuel → 0 < fuel →
    ∃ e', mainLoopIn root chart maxDepth solver maxTreeDepth fuel e = some e'
  | 0, e, k, _, _, _, hpos => absurd hpos (Nat.lt_irrefl 0)
  | fuel + 1, e, k, hout, hleaves, hfuel, _ => by
      rw [mainLoopIn]
      split
      · exact ⟨_, rfl⟩
      · rename_i hlive
        have ⟨n, hn⟩ : ∃ n, n ∈ e.loop.leaves :=
          List.exists_mem_of_ne_nil _ (by simpa using hlive)
        have ⟨hdeep, hlimit⟩ := hleaves n hn
        have ⟨loop', hround, hleaves'⟩ := engineRoundIn_deeper hchart maxDepth solver maxTreeDepth
          hout (fun n hn => (hleaves n hn).1)
        have hfuel' : maxTreeDepth + 1 - (k + 1 : Nat) < fuel := by push_cast at hfuel ⊢; omega
        have hpos : 0 < fuel := by push_cast at hfuel; omega
        rw [hround]
        exact mainLoopIn_returns hchart fuel (outgoingIn_engineRoundIn hround) hleaves' hfuel' hpos

/-- As `execute_terminates`, whatever `conf` holds at the beginning. -/
theorem executeIn_returns (hchart : ∀ t ∈ chartTransitions root chart, LeavesBelow root chart t)
    (hsubstate : root.firstSubstatesAt chart ≠ []) (maxDepth : Int) (solver : Solver)
    (conf : List StateRef) {fuel : Nat} (hfuel : max maxTreeDepth 0 + 2 < fuel) :
    ∃ e, executeIn root chart maxDepth solver maxTreeDepth conf fuel = some e := by
  have hempty : ¬ (root.firstSubstatesAt chart).isEmpty = true := by simpa using hsubstate
  have ⟨loop, hloop⟩ : ∃ loop, firstRoundIn root chart maxDepth solver conf = some loop :=
    ⟨_, by rw [firstRoundIn, if_neg hempty]⟩
  obtain ⟨fuel, rfl⟩ : ∃ m, fuel = m + 1 := ⟨fuel - 1, by omega⟩
  rw [executeIn, hloop, Option.bind_some, mainLoopIn]
  split
  · exact ⟨_, rfl⟩
  · -- The leaves of the first round may lie below the limit already.
    have ⟨loop', hround, hleaves'⟩ := engineRoundIn_deeper hchart maxDepth solver maxTreeDepth
      (outgoingIn_firstRoundIn hloop) (fun n _ => Nat.zero_le n.treedepth)
    rw [hround]
    exact mainLoopIn_returns hchart fuel (outgoingIn_engineRoundIn hround) hleaves'
      (by push_cast at hfuel ⊢; omega) (by push_cast at hfuel; omega)

/-! ### The first state of `conf` -/

/-- No state that a transition exits is the first one of `conf`. -/
theorem head?_tryTransition {acc acc' : RoundState} {leaf : SETNode} {t : PlacedTransition Name}
    {x : StateRef} (ht : LeavesBelow root x t) (hacc : acc.conf.head? = some x)
    (h : tryTransition root maxDepth solver acc leaf t = some acc') :
    acc'.conf.head? = some x := by
  rcases tryTransition_cases h with ⟨_, states, hstates, res, _, rfl⟩ | ⟨_, rfl⟩
  · have ⟨states', hstates', _, hx⟩ := ht
    obtain rfl : states = states' := Option.some.inj (hstates.symm.trans hstates')
    refine head?_replay hacc fun hmark => hx ?_
    simpa [TransitionStates.marks] using hmark
  · exact hacc

theorem head?_pairs {x : StateRef} {pairs : List (SETNode × PlacedTransition Name)} :
    ∀ {acc acc' : RoundState}, (∀ pair ∈ pairs, LeavesBelow root x pair.2) →
      acc.conf.head? = some x →
      pairs.foldlM (fun acc pair => tryTransition root maxDepth solver acc pair.1 pair.2) acc =
        some acc' → acc'.conf.head? = some x := by
  induction pairs with
  | nil =>
      intro acc acc' _ hacc hfold
      obtain rfl : acc = acc' := by simpa using hfold
      exact hacc
  | cons pair pairs ih =>
      intro acc acc' hpairs hacc hfold
      have ⟨next, hnext, hrest⟩ := Option.bind_eq_some_iff.mp hfold
      have hleaves := hpairs pair List.mem_cons_self
      exact ih (fun p hp => hpairs p (List.mem_cons_of_mem _ hp))
        (head?_tryTransition hleaves hacc hnext) hrest

/-- No transition of the statechart leaves it, so it stays the first state of `conf`. -/
theorem head?_engineRoundIn (hchart : ∀ t ∈ chartTransitions root chart, LeavesBelow root chart t)
    {loop loop' : LoopState} (hout : loop.OutgoingIn root chart)
    (hloop : loop.conf.head? = some chart)
    (h : engineRoundIn root chart maxDepth solver maxTreeDepth loop = some loop') :
    loop'.conf.head? = some chart := by
  obtain ⟨loop₁, hround, rfl⟩ := engineRoundIn_eq_some.mp h
  have ⟨acc, hfold, hacc⟩ := Option.bind_eq_some_iff.mp hround
  obtain rfl := Option.some.inj hacc
  have hpairs : ∀ pair ∈ loop.pairs, LeavesBelow root chart pair.2 := fun pair hpair =>
    hchart _ (hout _ (LoopState.mem_pairs.mp hpair).2)
  exact head?_pairs hpairs hloop hfold

/-- In a new process, the statechart is added to `conf` first. -/
theorem head?_chartConfiguration_nil (root : State Name) (chart : StateRef) :
    (chartConfiguration root chart []).head? = some chart := by
  have hnodup : ([] ++ (chart :: root.firstSubstatesAt chart) : List StateRef).Nodup :=
    nodup_of_pairwise_length (pairwise_firstSubstatesAt root chart)
  rw [chartConfiguration, replay_enters hnodup]
  rfl

/-- After an execution in a new process, the statechart is the first state of `conf`. -/
theorem head?_executeIn (hchart : ∀ t ∈ chartTransitions root chart, LeavesBelow root chart t)
    {fuel : Nat} {e : Execution}
    (h : executeIn root chart maxDepth solver maxTreeDepth [] fuel = some e) :
    e.loop.conf.head? = some chart := by
  have ⟨loop, hfirst, hrest⟩ := Option.bind_eq_some_iff.mp h
  have hhead : loop.conf.head? = some chart := by
    unfold firstRoundIn at hfirst
    split at hfirst
    · cases hfirst
    · obtain rfl := Option.some.inj hfirst
      exact head?_chartConfiguration_nil root chart
  have hinvariant := mainLoopIn_induction
    (P := fun e => e.loop.OutgoingIn root chart ∧ e.loop.conf.head? = some chart)
    (fun e loop' he hround =>
      ⟨outgoingIn_engineRoundIn hround, head?_engineRoundIn hchart he.1 he.2 hround⟩)
    ⟨outgoingIn_firstRoundIn hfirst, hhead⟩ hrest
  exact hinvariant.2

/-! ### The first state of a path -/

/-- The first state that the path has entered. -/
def SETNode.firstEntry : SETNode → Option StateRef
  | .start => none
  | .stateEntry s p => some (p.firstEntry.getD s)
  | .instruction _ _ p | .decision _ p | .stateExit _ p | .note _ p => p.firstEntry

@[simp] theorem SETNode.firstEntry_source (n : SETNode) : n.source.firstEntry = n.firstEntry := by
  induction n with
  | start => rfl
  | stateEntry s p ih => exact congrArg (fun e => some (Option.getD e s)) ih
  | instruction _ _ p ih | decision _ p ih | stateExit _ p ih | note _ p ih => exact ih

theorem firstEntry_roundClosed (solver : Solver) (x : StateRef) :
    RoundClosed solver (fun n => n.firstEntry = some x) where
  instruction := fun _ _ _ h => h
  thenBranch := fun _ _ h _ => h
  elseBranch := fun _ _ h _ => h
  stateEntry := by
    intro l s h
    show some (l.firstEntry.getD s) = some x
    rw [h]
    rfl
  stateExit := fun _ _ h => h
  action := fun _ _ _ h => h
  guard := fun _ _ h _ => h

theorem firstEntry_chartStart : (chartStart root chart).firstEntry = none := by
  unfold chartStart
  refine List.foldlRecOn _ _ (motive := fun n : SETNode => n.firstEntry = none) rfl ?_
  intro l hl s _
  exact initializeVariables_preserves (P := fun n => n.firstEntry = none) (fun _ _ _ h => h) s
    .staticScope hl

/-- Before the main loop, every node has entered the first state of `conf` first. -/
theorem firstEntry_enterFirstStates {x : StateRef} {states : List StateRef} {leaf : SETNode}
    (hstates : states.head? = some x) (hleaf : leaf.firstEntry = none) :
    AllNodes (fun n => n.firstEntry = some x)
      (enterFirstStates root maxDepth solver states ⟨[], [leaf]⟩) := by
  have hclosed := firstEntry_roundClosed solver x
  obtain ⟨rest, rfl⟩ : ∃ rest, states = x :: rest := List.head?_eq_some_iff.mp hstates
  have henter : ∀ l : SETNode, l.firstEntry = none →
      (∀ n ∈ (enterSubstate root maxDepth solver x l).done, n.firstEntry = some x) ∧
        ∀ n ∈ (enterSubstate root maxDepth solver x l).live, n.firstEntry = some x := by
    intro l hl
    have hentry : (SETNode.stateEntry x l).firstEntry = some x := by
      show some (l.firstEntry.getD x) = some x
      rw [hl]
      rfl
    have hnodes := enterSubstate_preserves root maxDepth hclosed.toCodeClosed hentry
    exact ⟨hnodes.done, hnodes.live⟩
  have hnil : ∀ n ∈ ([] : List SETNode), n.firstEntry = some x := List.forall_mem_nil _
  have hfirst := enterFirst_preserves (R := fun n => n.firstEntry = some x) henter
    (List.forall_mem_singleton.mpr hleaf) hnil hnil
  -- The other states are entered at leaves that have entered `x` already.
  have hrest := enterFirstStates_preserves root maxDepth solver
    (P := fun _ n => n.firstEntry = some x) (R := fun n => n.firstEntry = some x)
    (fun s _ l hl => by
      have hnodes := enterSubstate_preserves root maxDepth hclosed.toCodeClosed
        (hclosed.stateEntry l s hl)
      exact ⟨hnodes.done, hnodes.live⟩) rest _ hfirst.1 hfirst.2
  exact ⟨hrest.1, hrest.2⟩

/-- Every node of an execution has entered the first state of `conf` first. -/
theorem firstEntry_executeIn {x : StateRef} {conf : List StateRef}
    (hconf : (chartConfiguration root chart conf).head? = some x) {fuel : Nat} {e : Execution}
    (h : executeIn root chart maxDepth solver maxTreeDepth conf fuel = some e) :
    ∀ n ∈ e.loop.nodes, n.firstEntry = some x := by
  have ⟨loop, hfirst, hrest⟩ := Option.bind_eq_some_iff.mp h
  refine mainLoopIn_induction (P := fun e => ∀ n ∈ e.loop.nodes, n.firstEntry = some x) ?_ ?_ hrest
  · intro e loop' he hround
    obtain ⟨loop₁, hround', rfl⟩ := engineRoundIn_eq_some.mp hround
    show ∀ n ∈ loop₁.nodes, n.firstEntry = some x
    exact engineRound_preserves root maxDepth (firstEntry_roundClosed solver x) he hround'
  · unfold firstRoundIn at hfirst
    split at hfirst
    · cases hfirst
    · obtain rfl := Option.some.inj hfirst
      have hstart : (chartStart root chart).firstEntry = none := firstEntry_chartStart
      have hnodes : AllNodes _ (enterFirstStates root maxDepth solver _
          ⟨[], [chartStart root chart]⟩) := firstEntry_enterFirstStates hconf hstart
      intro n hn
      exact (List.mem_append.mp hn).elim (hnodes.live n) (hnodes.done n)

end

end Stabl
