import Stabl.Proofs.SymbolicExecution.Paths

/-!
# `Stabl.Proofs.SymbolicExecution.Termination`: the engine terminates

`sym_eval` goes down in an expression and up a path in turns. It returns because a name is
resolved at a proper ancestor of the leaf, whatever expression it finds there
(`symEvalFuel_eq`). The code of states and transitions is executed by recursion on it.

The main loop ends because a transition exits at least one state: all nodes that
`takeTransition` returns lie deeper in the tree than the leaf (`takeTransitionNodes_deeper`),
and a leaf below the limit on the depth is dropped (`engineRound_deeper`). The typechecker
makes sure that the climbing loops meet the state of the transition (`takeTransition_isSome`).
-/

set_option autoImplicit false

namespace Stabl

open TreeAddress

/-! ### `sym_eval` -/

/-- The arguments of `sym_eval`: an expression of the program, or one that a node holds. -/
inductive SymArgument where
  | expression (e : Expression Name)
  | symbolic (e : SymbolicExpression)

/-- `sym_eval` with a bound on the nesting of its calls. -/
def symEvalFuel : (fuel : Nat) → SymArgument → SETNode → Option SymExpr
  | 0, _, _ => none
  | fuel + 1, .expression (.binaryExpression left right operator), leaf => do
    let l ← symEvalFuel fuel (.expression left) leaf
    let r ← symEvalFuel fuel (.expression right) leaf
    pure (.binaryExpression l r operator)
  | fuel + 1, .symbolic (.operands left right operator), leaf => do
    let l ← symEvalFuel fuel (.expression left) leaf
    let r ← symEvalFuel fuel (.expression right) leaf
    pure (.operands l r operator)
  | fuel + 1, .symbolic (.expression e), leaf => do
    let l ← symEvalFuel fuel (.expression e) leaf
    pure (.expression l)
  | _ + 1, .symbolic (.symVars v), _ => some (.expression (.symVars v))
  | _ + 1, .expression (.constant c), _ => some (.constant c)
  | fuel + 1, .expression (.name n), leaf =>
    match leaf.backtrack n.declaration with
    | some (e, p) => symEvalFuel fuel (.symbolic e) p
    | none => some .null
  | _ + 1, .expression (.functionCall _ _), _ => some .null

/-- With enough fuel `sym_eval` returns the result. -/
def Returns (a : SymArgument) (leaf : SETNode) (result : SymExpr) : Prop :=
  ∃ n, ∀ fuel ≥ n, symEvalFuel fuel a leaf = some result

/-- A call that only calls itself on two operands. -/
theorem Returns.both {a b : SymArgument} {leaf : SETNode} {l r : SymExpr}
    (hl : Returns a leaf l) (hr : Returns b leaf r) :
    ∃ n, ∀ fuel ≥ n, symEvalFuel fuel a leaf = some l ∧ symEvalFuel fuel b leaf = some r := by
  have ⟨m, hm⟩ := hl
  have ⟨n, hn⟩ := hr
  exact ⟨max m n, fun fuel hfuel =>
    ⟨hm fuel (le_trans (le_max_left m n) hfuel), hn fuel (le_trans (le_max_right m n) hfuel)⟩⟩

/-- The names are resolved at the leaf: what they return is known. -/
def NamesReturn (leaf : SETNode) : Prop :=
  ∀ n : Name, Returns (.expression (.name n)) leaf (leaf.valueOf n.declaration)

/-- The induction on the expression. -/
theorem NamesReturn.expression {leaf : SETNode} (h : NamesReturn leaf) :
    ∀ e : Expression Name, Returns (.expression e) leaf (symEval e leaf) := by
  intro e
  induction e using Expression.operandInduction with
  | name n => exact h n
  | constant c =>
      refine ⟨1, fun fuel hfuel => ?_⟩
      obtain ⟨fuel, rfl⟩ := Nat.exists_eq_add_of_le' hfuel
      rfl
  | functionCall f args =>
      refine ⟨1, fun fuel hfuel => ?_⟩
      obtain ⟨fuel, rfl⟩ := Nat.exists_eq_add_of_le' hfuel
      rfl
  | binaryExpression left right operator ihl ihr =>
      have ⟨n, hn⟩ := ihl.both ihr
      refine ⟨n + 1, fun fuel hfuel => ?_⟩
      obtain ⟨fuel, rfl⟩ := Nat.exists_eq_add_of_le' hfuel
      have ⟨hl, hr⟩ := hn (fuel + n) (Nat.le_add_left n fuel)
      show symEvalFuel (fuel + n + 1) _ leaf = _
      simp only [symEvalFuel, hl, hr]
      rfl

theorem NamesReturn.symbolic {leaf : SETNode} (h : NamesReturn leaf) (e : SymbolicExpression) :
    Returns (.symbolic e) leaf (symEvalUpdateWith leaf.valueOf e) := by
  cases e with
  | operands left right operator =>
      have ⟨n, hn⟩ := (h.expression left).both (h.expression right)
      refine ⟨n + 1, fun fuel hfuel => ?_⟩
      obtain ⟨fuel, rfl⟩ := Nat.exists_eq_add_of_le' hfuel
      have ⟨hl, hr⟩ := hn (fuel + n) (Nat.le_add_left n fuel)
      show symEvalFuel (fuel + n + 1) _ leaf = _
      simp only [symEvalFuel, hl, hr]
      rfl
  | expression e =>
      have ⟨n, hn⟩ := h.expression e
      refine ⟨n + 1, fun fuel hfuel => ?_⟩
      obtain ⟨fuel, rfl⟩ := Nat.exists_eq_add_of_le' hfuel
      have he := hn (fuel + n) (Nat.le_add_left n fuel)
      show symEvalFuel (fuel + n + 1) _ leaf = _
      simp only [symEvalFuel, he]
      rfl
  | symVars v =>
      refine ⟨1, fun fuel hfuel => ?_⟩
      obtain ⟨fuel, rfl⟩ := Nat.exists_eq_add_of_le' hfuel
      rfl

/-- Where `backtrack` passes a node by, the call on a name is the one at the parent. -/
theorem symEvalFuel_name_congr {n : Name} {leaf p : SETNode}
    (h : leaf.backtrack n.declaration = p.backtrack n.declaration) (fuel : Nat) :
    symEvalFuel fuel (.expression (.name n)) leaf = symEvalFuel fuel (.expression (.name n)) p := by
  cases fuel with
  | zero => rfl
  | succ fuel => simp only [symEvalFuel, h]

/-- The induction on the path. -/
theorem namesReturn (leaf : SETNode) : NamesReturn leaf := by
  induction leaf with
  | start =>
      intro n
      refine ⟨1, fun fuel hfuel => ?_⟩
      obtain ⟨fuel, rfl⟩ := Nat.exists_eq_add_of_le' hfuel
      rfl
  | instruction var e p ih =>
      intro n
      rw [SETNode.valueOf]
      by_cases hvar : var = n.declaration
      · -- The expression of the node is evaluated at the parent.
        rw [if_pos hvar]
        obtain ⟨m, hm⟩ := ih.symbolic e
        refine ⟨m + 1, fun fuel hfuel => ?_⟩
        obtain ⟨fuel, rfl⟩ := Nat.exists_eq_add_of_le' hfuel
        have he := hm (fuel + m) (Nat.le_add_left m fuel)
        show symEvalFuel (fuel + m + 1) _ _ = _
        simp only [symEvalFuel, SETNode.backtrack, if_pos hvar, he]
      · rw [if_neg hvar]
        obtain ⟨m, hm⟩ := ih n
        refine ⟨m, fun fuel hfuel => ?_⟩
        rw [symEvalFuel_name_congr (p := p) (by rw [SETNode.backtrack, if_neg hvar])]
        exact hm fuel hfuel
  | decision _ p ih | stateEntry _ p ih | stateExit _ p ih | note _ p ih =>
      intro n
      obtain ⟨m, hm⟩ := ih n
      refine ⟨m, fun fuel hfuel => Eq.trans (symEvalFuel_name_congr (p := p) ?_ fuel) ?_⟩
      · rfl
      · exact hm fuel hfuel

/-- Every call of `sym_eval` returns, and what it returns is `symEval`. -/
theorem symEvalFuel_eq (e : Expression Name) (leaf : SETNode) :
    Returns (.expression e) leaf (symEval e leaf) :=
  (namesReturn leaf).expression e

/-! ### Transitions -/

theorem deeper_codeClosed (solver : Solver) (k : Nat) :
    CodeClosed solver (fun n => k ≤ n.treedepth) where
  instruction := fun _ _ _ h => Nat.le_succ_of_le h
  thenBranch := fun _ _ h _ => Nat.le_succ_of_le h
  elseBranch := fun _ _ h _ => Nat.le_succ_of_le h

section
variable (root : State Name) {maxDepth : Int} {solver : Solver}

/-- The first state that is left makes every node deeper than the leaf, and nothing after that
goes back. -/
theorem takeTransitionNodes_deeper {t : PlacedTransition Name} {states : TransitionStates}
    (hsource : states.sourceStates ≠ []) (leaf : SETNode) :
    AllNodes (fun n => leaf.treedepth < n.treedepth)
      (takeTransitionNodes root maxDepth solver t states leaf) := by
  have hcode := deeper_codeClosed solver (leaf.treedepth + 1)
  have hexit : ∀ s l, leaf.treedepth ≤ l.treedepth →
      AllNodes (fun n => leaf.treedepth + 1 ≤ n.treedepth)
        (exitStateSym root maxDepth solver s l) :=
    fun s l hl => exitStateSym_preserves root maxDepth hcode (Nat.succ_le_succ hl)
  have hexits : AllNodes (fun n => leaf.treedepth + 1 ≤ n.treedepth)
      (atEveryState (exitStateSym root maxDepth solver) states.sourceStates ⟨[], [leaf]⟩) := by
    cases hstates : states.sourceStates with
    | nil => exact absurd hstates hsource
    | cons s rest =>
        have hfirst : AllNodes (fun n => leaf.treedepth + 1 ≤ n.treedepth)
            (atEveryLeaf (exitStateSym root maxDepth solver s) ⟨[], [leaf]⟩) := by
          simpa [atEveryLeaf] using hexit s leaf (Nat.le_refl _)
        exact hfirst.atEveryState (fun s l hl => hexit s l (Nat.le_of_succ_le hl)) rest
  have haction := hexits.atEveryLeaf fun l hl =>
    have hl : leaf.treedepth + 1 ≤
      (SETNode.note (.action t.state t.transition.name) l).treedepth := hl
    executeAction_preserves maxDepth hcode t hl
  have hsuper := haction.atEveryState (f := enterSuperstate root maxDepth solver)
    (fun s l hl => enterSuperstate_preserves root maxDepth hcode (Nat.le_succ_of_le hl))
    states.destinationSuperstates
  exact hsuper.atEveryState (f := enterSubstate root maxDepth solver)
    (fun s l hl => enterSubstate_preserves root maxDepth hcode (Nat.le_succ_of_le hl))
    states.destinationSubstates

/-- The lists of states of a transition are defined, and it leaves at least one state. -/
def PlacedTransition.Leaves (t : PlacedTransition Name) : Prop :=
  ∃ states, transitionStates root t = some states ∧ states.sourceStates ≠ []

theorem takeTransition_deeper (maxDepth : Int) (solver : Solver) {t : PlacedTransition Name}
    (ht : t.Leaves root) (leaf : SETNode) (conf : List StateRef) :
    ∃ res conf', takeTransition root maxDepth solver t leaf conf = some (res, conf') ∧
      AllNodes (fun n => leaf.treedepth < n.treedepth) res := by
  have ⟨states, hstates, hsource⟩ := ht
  exact ⟨_, _, by simp only [takeTransition, hstates, Option.bind_eq_bind, Option.bind_some]; rfl,
    takeTransitionNodes_deeper root hsource leaf⟩

end

section
variable {sc : Statechart} {c : CheckedStatechart} (h : typecheck sc = .ok c)
include h

/-- The state of a transition is a proper ancestor of its source and its destination. So the
climbing loops of `takeTransition` meet it, and they collect the source at least. -/
theorem transitionStates_isSome {t : PlacedTransition Name}
    (ht : t.transition ∈ c.root.transitionsAt t.state) :
    t.Leaves c.root := by
  have ⟨hlub, _, _⟩ := lub_of_accepted h ht
  have ⟨⟨hsource, hsource'⟩, ⟨hdest, hdest'⟩⟩ := lub_proper hlub
  have ⟨rest, hstates, _⟩ := superstatesBelow_eq_some c.root hsource hsource'.symm
  have ⟨rest', hstates', _⟩ := superstatesBelow_eq_some c.root hdest hdest'.symm
  refine ⟨_, by simp only [transitionStates, hstates, hstates', Option.bind_eq_bind,
    Option.bind_some]; rfl, ?_⟩
  exact List.cons_ne_nil _ rest

/-- `takeTransition` returns, and every node that it returns lies deeper than the leaf. -/
theorem takeTransition_isSome {t : PlacedTransition Name}
    (ht : t.transition ∈ c.root.transitionsAt t.state) (maxDepth : Int) (solver : Solver)
    (leaf : SETNode) (conf : List StateRef) :
    ∃ res conf', takeTransition c.root maxDepth solver t leaf conf = some (res, conf') ∧
      AllNodes (fun n => leaf.treedepth < n.treedepth) res :=
  takeTransition_deeper c.root maxDepth solver (transitionStates_isSome h ht) leaf conf

end

/-! ### The main loop -/

theorem mem_allTransitions {root : State Name} {t : PlacedTransition Name}
    (ht : t ∈ allTransitions root) : t.transition ∈ root.transitionsAt t.state := by
  have ⟨p, _, hp⟩ := List.mem_flatMap.mp ht
  have ⟨t', ht', heq⟩ := List.mem_map.mp hp
  exact heq ▸ ht'

/-- The transitions that a round tries are transitions of the statechart. -/
def LoopState.Outgoing (root : State Name) (loop : LoopState) : Prop :=
  ∀ t ∈ loop.outTs, t ∈ allTransitions root

section
variable (root : State Name) (maxDepth : Int) (solver : Solver)

/-- One leaf and one transition: what was collected before stays, and the new leaves lie deeper
than the leaf. -/
theorem tryTransition_deeper {leaf : SETNode} {t : PlacedTransition Name} (ht : t.Leaves root)
    {k : Nat} (hleaf : k ≤ leaf.treedepth) {acc : RoundState}
    (hacc : ∀ n ∈ acc.leavesTemp, k < n.treedepth) :
    ∃ acc', tryTransition root maxDepth solver acc leaf t = some acc' ∧
      ∀ n ∈ acc'.leavesTemp, k < n.treedepth := by
  have ⟨res, conf', htake, hnodes⟩ :=
    takeTransition_deeper root maxDepth solver ht (guardNode t leaf) acc.conf
  rw [tryTransition]
  dsimp only
  split
  · refine ⟨_, by rw [htake]; rfl, ?_⟩
    intro n hn
    rcases List.mem_append.mp hn with hn | hn
    · exact hacc n hn
    · exact Nat.lt_of_le_of_lt hleaf (hnodes.live n hn)
  · exact ⟨_, rfl, hacc⟩

theorem pairs_deeper {k : Nat} : ∀ (pairs : List (SETNode × PlacedTransition Name))
    (acc : RoundState),
    (∀ pair ∈ pairs, k ≤ pair.1.treedepth ∧ pair.2.Leaves root) →
    (∀ n ∈ acc.leavesTemp, k < n.treedepth) →
    ∃ acc', pairs.foldlM (fun acc pair => tryTransition root maxDepth solver acc pair.1 pair.2)
      acc = some acc' ∧ ∀ n ∈ acc'.leavesTemp, k < n.treedepth
  | [], acc, _, hacc => ⟨acc, rfl, hacc⟩
  | pair :: pairs, acc, hpairs, hacc => by
      have ⟨hleaf, ht⟩ := hpairs pair List.mem_cons_self
      have ⟨acc', hfirst, hacc'⟩ := tryTransition_deeper root maxDepth solver ht hleaf hacc
      have ⟨acc'', hrest, hacc''⟩ := pairs_deeper pairs acc'
        (fun p hp => hpairs p (List.mem_cons_of_mem _ hp)) hacc'
      refine ⟨acc'', ?_, hacc''⟩
      rw [List.foldlM_cons, hfirst]
      exact hrest

/-- A round returns. Its leaves lie deeper than those before, and not below the limit. -/
theorem engineRound_deeper (maxTreeDepth : Int) {loop : LoopState}
    (hout : ∀ t ∈ loop.outTs, t.Leaves root) {k : Nat}
    (hleaves : ∀ n ∈ loop.leaves, k ≤ n.treedepth) :
    ∃ loop', engineRound root maxDepth solver maxTreeDepth loop = some loop' ∧
      loop'.Outgoing root ∧
      ∀ n ∈ loop'.leaves, k + 1 ≤ n.treedepth ∧ (n.treedepth : Int) ≤ maxTreeDepth := by
  have hpairs : ∀ pair ∈ loop.pairs, k ≤ pair.1.treedepth ∧ pair.2.Leaves root := by
    intro pair hpair
    have ⟨hleaf, ht⟩ := LoopState.mem_pairs.mp hpair
    exact ⟨hleaves _ hleaf, hout _ ht⟩
  have ⟨acc, hfold, hacc⟩ := pairs_deeper root maxDepth solver loop.pairs
    ⟨[], loop.done, loop.conf, loop.sat⟩ hpairs (by simp)
  refine ⟨_, by rw [engineRound, hfold]; rfl, ?_, ?_⟩
  · intro t ht
    exact (List.mem_filter.mp ht).1
  · intro n hn
    have ⟨hn, hlimit⟩ := List.mem_filter.mp hn
    have hlimit : ¬ (n.treedepth : Int) > maxTreeDepth := by simpa using hlimit
    exact ⟨hacc n hn, by omega⟩

end

section
variable {sc : Statechart} {c : CheckedStatechart} (h : typecheck sc = .ok c) (maxDepth : Int)
  (solver : Solver)
include h

theorem LoopState.Outgoing.leaves {loop : LoopState} (hout : loop.Outgoing c.root) :
    ∀ t ∈ loop.outTs, t.Leaves c.root :=
  fun t ht => transitionStates_isSome h (mem_allTransitions (hout t ht))

/-- After `k` rounds the leaves lie at the depth `k` at least, so at most `maxTreeDepth + 1 - k`
more rounds begin with a leaf. -/
theorem mainLoop_returns {maxTreeDepth : Int} : ∀ (fuel : Nat) {loop : LoopState} {k : Nat},
    loop.Outgoing c.root →
    (∀ n ∈ loop.leaves, k ≤ n.treedepth ∧ (n.treedepth : Int) ≤ maxTreeDepth) →
    maxTreeDepth + 1 - k < fuel → 0 < fuel →
    ∃ nodes, mainLoop c.root maxDepth solver maxTreeDepth fuel loop = some nodes
  | 0, loop, k, _, _, _, hpos => absurd hpos (Nat.lt_irrefl 0)
  | fuel + 1, loop, k, hout, hleaves, hfuel, _ => by
      rw [mainLoop]
      split
      · exact ⟨_, rfl⟩
      · rename_i hlive
        have ⟨n, hn⟩ : ∃ n, n ∈ loop.leaves := List.exists_mem_of_ne_nil _ (by simpa using hlive)
        have ⟨hdeep, hlimit⟩ := hleaves n hn
        have ⟨loop', hround, hout', hleaves'⟩ := engineRound_deeper c.root maxDepth solver
          maxTreeDepth (hout.leaves h) (fun n hn => (hleaves n hn).1)
        have hfuel' : maxTreeDepth + 1 - (k + 1 : Nat) < fuel := by push_cast at hfuel ⊢; omega
        have hpos : 0 < fuel := by push_cast at hfuel; omega
        have ⟨nodes, hnodes⟩ := mainLoop_returns fuel hout' hleaves' hfuel' hpos
        exact ⟨nodes, by rw [hround]; exact hnodes⟩

/-- `takeTransition` returns on every leaf, and its nodes lie deeper than the leaf. `sym_eval`
returns. And `execute` returns when its main loop may begin as many rounds as the limit on the
depth says, and two more: the condition of the loop is then tested once more. -/
theorem execute_terminates (hsubstate : c.root.states ≠ []) {maxTreeDepth : Int}
    (hlimit : 0 ≤ maxTreeDepth) :
    (∀ t : PlacedTransition Name, t.transition ∈ c.root.transitionsAt t.state →
      ∀ (leaf : SETNode) (conf : List StateRef), ∃ res conf',
        takeTransition c.root maxDepth solver t leaf conf = some (res, conf') ∧
          AllNodes (fun n => leaf.treedepth < n.treedepth) res) ∧
    (∀ (e : Expression Name) (leaf : SETNode), ∃ n, ∀ fuel ≥ n,
      symEvalFuel fuel (.expression e) leaf = some (symEval e leaf)) ∧
    ∀ fuel : Nat, maxTreeDepth + 2 < fuel →
      ∃ nodes, executeSym c.root maxDepth solver maxTreeDepth fuel = some nodes := by
  refine ⟨fun t ht leaf conf => takeTransition_isSome h ht maxDepth solver leaf conf,
    symEvalFuel_eq, fun fuel hfuel => ?_⟩
  have hfirst : ∃ loop, firstRound c.root maxDepth solver = some loop ∧
      loop.Outgoing c.root := by
    have hempty : ¬ c.root.states.isEmpty = true := by simpa using hsubstate
    refine ⟨_, by rw [firstRound, if_neg hempty], ?_⟩
    intro t ht
    exact (List.mem_filter.mp ht).1
  have ⟨loop, hloop, hout⟩ := hfirst
  obtain ⟨fuel, rfl⟩ : ∃ m, fuel = m + 1 := ⟨fuel - 1, by omega⟩
  rw [executeSym, hloop, Option.bind_some, mainLoop]
  split
  · exact ⟨_, rfl⟩
  · -- The leaves of the first round may lie below the limit already.
    have ⟨loop', hround, hout', hleaves'⟩ := engineRound_deeper c.root maxDepth solver maxTreeDepth
      (hout.leaves h) (fun n _ => Nat.zero_le n.treedepth)
    have ⟨nodes, hnodes⟩ := mainLoop_returns h maxDepth solver fuel hout' hleaves'
      (by push_cast at hfuel ⊢; omega) (by push_cast at hfuel; omega)
    exact ⟨nodes, by rw [hround]; exact hnodes⟩

end

/-- Two states without code, and a transition each way. -/
def swing : Statechart where
  root := { plainState "Swing" with
    states := [plainState "Left", plainState "Right"]
    transitions := [plainTransition "right" "Swing" "Left" "Right" 0 1,
      plainTransition "left" "Swing" "Right" "Left" 1 0] }
  moreTypes := []
  events := ["turn"]
  functionDeclarations := []
  initialised := by decide

theorem execute_terminates_swing :
    ∃ nodes, executeSym (accepted swing).root 20 (fun _ _ => .sat) 5 8 = some nodes :=
  have hswing : typecheck swing = .ok (accepted swing) := Result.eq_ok_getD (by decide) _
  (execute_terminates hswing 20 (fun _ _ => .sat) (by decide)
    (show (0 : Int) ≤ 5 by decide)).2.2 8 (by decide)

end Stabl
