import Stabl.Proofs.SymbolicExecution.FrontierRun
import Stabl.Proofs.SymbolicExecution.Process

/-!
# `Stabl.Proofs.SymbolicExecution.Barren`: executions that return no nodes

`execute` returns the nodes that are done. A node is done where the limit on the depth cuts an
update, where one answer for an if or the answer for a guard is not `sat`, where an if has no live
nodes at its end, and where a leaf lies below the limit on the depth in the tree. An execution is
barren when none of this happens in it. These are the executions that return no nodes
(`done_executeIn_iff`).

Each predicate follows one function of the engine, and the lemma beside it says that the function
adds nothing to the nodes that are done.
-/

set_option autoImplicit false

namespace Stabl

/-! ### Statements -/

section
variable (maxDepth : Int) (solver : Solver)

mutual

/-- Nothing is done in a statement: the last leaf has the result. -/
def BarrenStatement : Statement Name → List SETNode → Prop
  | .assignmentStatement _ _, leaves => ∀ l ∈ leaves.getLast?, (l.depth + 1 : Int) ≤ maxDepth
  | .haltStatement, leaves => leaves = []
  | .ifStatement condition thenBody elseBody, leaves => ∀ l ∈ leaves.getLast?,
    solver l (.condition condition) = .sat ∧ solver l (.elseCondition condition) = .sat ∧
      BarrenStatement thenBody [branchNode condition true l] ∧
      BarrenStatement elseBody [branchNode condition false l] ∧
      ((executeStatementSym maxDepth solver thenBody [branchNode condition true l]).live ≠ [] ∨
        (executeStatementSym maxDepth solver elseBody [branchNode condition false l]).live ≠ [])
  | .statementList statements, leaves => ∀ l ∈ leaves.getLast?, BarrenStatements statements [l]
  | .expressionStatement _, _ | .skipStatement, _ | .whileStatement _ _, _ => True

def BarrenStatements : List (Statement Name) → List SETNode → Prop
  | [], _ => True
  | s :: ss, leaves => BarrenStatement s leaves ∧
    BarrenStatements ss (executeStatementSym maxDepth solver s leaves).live

end

variable {maxDepth solver}

/-- The last leaf has the result of a loop over the leaves. -/
theorem done_lastResult {f : SETNode → SymbolicExecutionResult} {leaves : List SETNode} :
    (lastResult f leaves).done = [] ↔ ∀ l ∈ leaves.getLast?, (f l).done = [] := by
  cases hlast : leaves.getLast? with
  | none =>
      rw [List.getLast?_eq_none_iff.mp hlast]
      simp [lastResult]
  | some l =>
      have hne : leaves ≠ [] := by
        rintro rfl
        cases hlast
      have hl : leaves.getLast hne = l := by
        rw [List.getLast?_eq_some_getLast hne] at hlast
        exact Option.some.inj hlast
      rw [lastResult_getLast f hne, hl]
      simp

theorem done_executeAssignment {lhs : Name} {rhs : Expression Name} {l : SETNode} :
    (executeAssignment maxDepth lhs rhs l).done = [] ↔ (l.depth + 1 : Int) ≤ maxDepth := by
  unfold executeAssignment
  dsimp only
  split
  · rename_i hlimit
    exact ⟨fun h => (List.cons_ne_nil _ _ h).elim, fun h => absurd hlimit (by omega)⟩
  · rename_i hlimit
    exact ⟨fun _ => by omega, fun _ => rfl⟩

theorem done_executeBranch {answer : Answer} {leaf branch : SETNode}
    {body : SETNode → SymbolicExecutionResult} :
    (executeBranch answer leaf branch body).done = [] ↔
      answer = .sat ∧ (body branch).done = [] := by
  unfold executeBranch
  split
  · rename_i hsat
    exact ⟨fun h => ⟨hsat, h⟩, fun h => h.2⟩
  · rename_i hsat
    exact ⟨fun h => (List.cons_ne_nil _ _ h).elim, fun h => absurd h.1 hsat⟩

/-- A body is executed where the answer is `sat`. -/
theorem executeBranch_sat {answer : Answer} {leaf branch : SETNode}
    {body : SETNode → SymbolicExecutionResult} (h : answer = .sat) :
    executeBranch answer leaf branch body = body branch :=
  if_pos h

theorem done_executeIf {condition : Expression Name}
    {thenBody elseBody : SETNode → SymbolicExecutionResult} {l : SETNode} :
    (executeIf solver condition thenBody elseBody l).done = [] ↔
      solver l (.condition condition) = .sat ∧ solver l (.elseCondition condition) = .sat ∧
        (thenBody (branchNode condition true l)).done = [] ∧
        (elseBody (branchNode condition false l)).done = [] ∧
        ((thenBody (branchNode condition true l)).live ≠ [] ∨
          (elseBody (branchNode condition false l)).live ≠ []) := by
  have hparts : ∀ res₁ res₂ : SymbolicExecutionResult,
      (if (res₁.live ++ res₂.live).isEmpty then
        (⟨res₁.done ++ res₂.done ++ [l], []⟩ : SymbolicExecutionResult)
      else ⟨res₁.done ++ res₂.done, res₁.live ++ res₂.live⟩).done = [] ↔
        res₁.done = [] ∧ res₂.done = [] ∧ (res₁.live ≠ [] ∨ res₂.live ≠ []) := by
    intro res₁ res₂
    split
    · rename_i hempty
      have ⟨h₁, h₂⟩ : res₁.live = [] ∧ res₂.live = [] := by simpa using hempty
      simp [h₁, h₂]
    · rename_i hempty
      have hlive : res₁.live ≠ [] ∨ res₂.live ≠ [] := by
        rw [← not_and_or]
        simpa using hempty
      simp [hlive]
  refine (hparts _ _).trans ?_
  -- Both answers are `sat`, so the halves are the results of the bodies.
  rw [done_executeBranch, done_executeBranch]
  constructor
  · rintro ⟨⟨hthen, hdone⟩, ⟨helse, hdone'⟩, hlive⟩
    rw [executeBranch_sat hthen, executeBranch_sat helse] at hlive
    exact ⟨hthen, helse, hdone, hdone', hlive⟩
  · rintro ⟨hthen, helse, hdone, hdone', hlive⟩
    rw [executeBranch_sat hthen, executeBranch_sat helse]
    exact ⟨⟨hthen, hdone⟩, ⟨helse, hdone'⟩, hlive⟩

mutual

theorem done_executeStatementSym : ∀ (s : Statement Name) {leaves : List SETNode},
    (executeStatementSym maxDepth solver s leaves).done = [] ↔
      BarrenStatement maxDepth solver s leaves
  | .assignmentStatement lhs rhs, leaves => by
      rw [executeStatementSym, done_lastResult]
      exact forall₂_congr fun l _ => done_executeAssignment
  | .haltStatement, leaves => by
      rw [executeStatementSym, done_lastResult]
      show (∀ l ∈ leaves.getLast?, [l] = []) ↔ leaves = []
      constructor
      · intro h
        refine List.getLast?_eq_none_iff.mp (Option.eq_none_iff_forall_not_mem.mpr ?_)
        exact fun l hl => List.cons_ne_nil _ _ (h l hl)
      · rintro rfl
        exact fun l hl => nomatch hl
  | .ifStatement condition thenBody elseBody, leaves => by
      rw [executeStatementSym, done_lastResult]
      refine forall₂_congr fun l _ => ?_
      rw [done_executeIf, done_executeStatementSym thenBody, done_executeStatementSym elseBody]
  | .statementList statements, leaves => by
      rw [executeStatementSym, done_lastResult]
      refine forall₂_congr fun l _ => ?_
      rw [done_executeStatementsSym statements]
      exact and_iff_right rfl
  | .expressionStatement _, leaves => by
      rw [executeStatementSym, done_lastResult]
      exact iff_true_intro fun _ _ => rfl
  | .skipStatement, leaves => by
      rw [executeStatementSym, done_lastResult]
      exact iff_true_intro fun _ _ => rfl
  | .whileStatement _ _, leaves => iff_true_intro (by rw [executeStatementSym])

theorem done_executeStatementsSym : ∀ (ss : List (Statement Name)) {done leaves : List SETNode},
    (executeStatementsSym maxDepth solver ss done leaves).done = [] ↔
      done = [] ∧ BarrenStatements maxDepth solver ss leaves
  | [], done, leaves => (and_iff_left trivial).symm
  | s :: ss, done, leaves => by
      rw [executeStatementsSym, done_executeStatementsSym ss, List.append_eq_nil_iff,
        done_executeStatementSym s, and_assoc]
      rfl

end

theorem done_executeBlock {block : Statement Name} {leaf : SETNode} :
    (executeBlock maxDepth solver block leaf).done = [] ↔
      BarrenStatement maxDepth solver block [leaf] := by
  rw [executeBlock_eq, done_executeStatementSym]

end

/-! ### States and transitions -/

theorem done_atEveryLeaf {f : SETNode → SymbolicExecutionResult} {res : SymbolicExecutionResult} :
    (atEveryLeaf f res).done = [] ↔ res.done = [] ∧ ∀ l ∈ res.live, (f l).done = [] := by
  show res.done ++ res.live.flatMap (fun l => (f l).done) = [] ↔ _
  rw [List.append_eq_nil_iff, List.flatMap_eq_nil_iff]

theorem done_atEveryState {f : StateRef → SETNode → SymbolicExecutionResult}
    {C : StateRef → SETNode → Prop} (hf : ∀ s l, (f s l).done = [] ↔ C s l) :
    ∀ {states : List StateRef} {res : SymbolicExecutionResult},
      (atEveryState f states res).done = [] ↔ res.done = [] ∧ CleanAtStates f C states res := by
  intro states
  induction states with
  | nil => exact (and_iff_left trivial).symm
  | cons s states ih =>
      intro res
      show (atEveryState f states (atEveryLeaf (f s) res)).done = [] ↔ _
      rw [ih, done_atEveryLeaf, and_assoc]
      simp only [hf]
      rfl

section
variable (root : State Name) (maxDepth : Int) (solver : Solver)

/-- Nothing is done in the exit code of a state. -/
def BarrenExit (s : StateRef) (l : SETNode) : Prop :=
  BarrenStatement maxDepth solver (root.exitAt s) [.stateExit s l]

/-- Nothing is done in the entry code of a superstate of the destination. -/
def BarrenSuperstate (s : StateRef) (l : SETNode) : Prop :=
  BarrenStatement maxDepth solver (root.entryAt s)
    [initializeVariables root s .localScope (.stateEntry s l)]

/-- Nothing is done in the entry code of a substate of the destination, or of a state of `conf`
before the main loop. -/
def BarrenSubstate (s : StateRef) (l : SETNode) : Prop :=
  BarrenStatement maxDepth solver (root.entryAt s)
    [initializeVariables root s .parameterScope
      (initializeVariables root s .localScope (.stateEntry s l))]

/-- Nothing is done in the code that `takeTransition` executes. -/
structure BarrenTransition (t : PlacedTransition Name) (states : TransitionStates)
    (leaf : SETNode) : Prop where
  exits : CleanAtStates (exitStateSym root maxDepth solver) (BarrenExit root maxDepth solver)
    states.sourceStates ⟨[], [leaf]⟩
  action : ∀ l ∈ (nodesAfterExits root maxDepth solver states leaf).live,
    BarrenStatement maxDepth solver t.transition.action
      [.note (.action t.state t.transition.name) l]
  superstates : CleanAtStates (enterSuperstate root maxDepth solver)
    (BarrenSuperstate root maxDepth solver) states.destinationSuperstates
    (nodesAfterAction root maxDepth solver t states leaf)
  substates : CleanAtStates (enterSubstate root maxDepth solver)
    (BarrenSubstate root maxDepth solver) states.destinationSubstates
    (nodesAfterSuperstates root maxDepth solver t states leaf)

variable {root maxDepth solver}

theorem done_takeTransitionNodes {t : PlacedTransition Name} {states : TransitionStates}
    {leaf : SETNode} :
    (takeTransitionNodes root maxDepth solver t states leaf).done = [] ↔
      BarrenTransition root maxDepth solver t states leaf := by
  have hexits : (nodesAfterExits root maxDepth solver states leaf).done = [] ↔
      CleanAtStates (exitStateSym root maxDepth solver) (BarrenExit root maxDepth solver)
        states.sourceStates ⟨[], [leaf]⟩ :=
    (done_atEveryState fun s l => done_executeBlock).trans (and_iff_right rfl)
  have haction : (nodesAfterAction root maxDepth solver t states leaf).done = [] ↔
      (nodesAfterExits root maxDepth solver states leaf).done = [] ∧
        ∀ l ∈ (nodesAfterExits root maxDepth solver states leaf).live,
          BarrenStatement maxDepth solver t.transition.action
            [.note (.action t.state t.transition.name) l] :=
    done_atEveryLeaf.trans (and_congr_right' (forall₂_congr fun l _ => done_executeBlock))
  have hsuper : (nodesAfterSuperstates root maxDepth solver t states leaf).done = [] ↔
      (nodesAfterAction root maxDepth solver t states leaf).done = [] ∧
        CleanAtStates (enterSuperstate root maxDepth solver) (BarrenSuperstate root maxDepth solver)
          states.destinationSuperstates (nodesAfterAction root maxDepth solver t states leaf) :=
    done_atEveryState fun s l => done_executeBlock
  have hsub : (takeTransitionNodes root maxDepth solver t states leaf).done = [] ↔
      (nodesAfterSuperstates root maxDepth solver t states leaf).done = [] ∧
        CleanAtStates (enterSubstate root maxDepth solver) (BarrenSubstate root maxDepth solver)
          states.destinationSubstates (nodesAfterSuperstates root maxDepth solver t states leaf) :=
    done_atEveryState fun s l => done_executeBlock
  rw [hsub, hsuper, haction, hexits]
  constructor
  · rintro ⟨⟨⟨hexits, haction⟩, hsuper⟩, hsub⟩
    exact ⟨hexits, haction, hsuper, hsub⟩
  · rintro ⟨hexits, haction, hsuper, hsub⟩
    exact ⟨⟨⟨hexits, haction⟩, hsuper⟩, hsub⟩

/-! ### Rounds -/

variable (root maxDepth solver)

/-- The guard is answered with `sat`, and nothing is done when the transition is taken. -/
structure BarrenPair (maxTreeDepth : Int) (sat : Bool) (leaf : SETNode)
    (t : PlacedTransition Name) : Prop where
  guard : satAfter sat (solver leaf (.guard t)) = true
  transition : ∀ states, transitionStates root t = some states →
    BarrenTransition root maxDepth solver t states (guardNode t leaf)
  treedepth : ∀ states, transitionStates root t = some states →
    ∀ n ∈ (takeTransitionNodes root maxDepth solver t states (guardNode t leaf)).live,
      (n.treedepth : Int) ≤ maxTreeDepth

/-- Nothing is done in the pairs of a round. -/
def BarrenPairs (maxTreeDepth : Int) : (sat : Bool) → List (SETNode × PlacedTransition Name) → Prop
  | _, [] => True
  | sat, (leaf, t) :: pairs => BarrenPair root maxDepth solver maxTreeDepth sat leaf t ∧
    BarrenPairs maxTreeDepth (satAfter sat (solver leaf (.guard t))) pairs

/-- Nothing is done in a round. -/
def BarrenRound (maxTreeDepth : Int) (loop : LoopState) : Prop :=
  BarrenPairs root maxDepth solver maxTreeDepth loop.sat loop.pairs

/-- Nothing is done in the loop over the leaves for a state of `conf`. -/
def BarrenFirst (s : StateRef) : List SETNode → Prop
  | [] => True
  | leaf :: leaves => BarrenSubstate root maxDepth solver s leaf ∧
    ((enterSubstate root maxDepth solver s leaf).live ≠ [] → BarrenFirst s leaves)

/-- Nothing is done in the loop over `conf`. -/
def BarrenFirstStates : List StateRef → SymbolicExecutionResult → Prop
  | [], _ => True
  | s :: states, res => BarrenFirst root maxDepth solver s res.live ∧
    BarrenFirstStates states (enterFirst root maxDepth solver s [] res.live res.done)

variable {root maxDepth solver}

/-- A round adds nothing to the nodes that are done when its pairs are barren. -/
theorem done_pairs {maxTreeDepth : Int} : ∀ {pairs : List (SETNode × PlacedTransition Name)}
    {acc acc' : RoundState},
    pairs.foldlM (fun acc pair => tryTransition root maxDepth solver acc pair.1 pair.2) acc =
      some acc' →
    (acc'.done ++ acc'.leavesTemp.filter (fun leaf => (leaf.treedepth : Int) > maxTreeDepth) = [] ↔
      acc.done ++ acc.leavesTemp.filter (fun leaf => (leaf.treedepth : Int) > maxTreeDepth) = [] ∧
        BarrenPairs root maxDepth solver maxTreeDepth acc.sat pairs) := by
  intro pairs
  induction pairs with
  | nil =>
      intro acc acc' h
      obtain rfl : acc = acc' := by simpa using h
      exact (and_iff_left trivial).symm
  | cons pair pairs ih =>
      intro acc acc' h
      have ⟨next, hnext, hrest⟩ := Option.bind_eq_some_iff.mp h
      rw [ih hrest, tryTransition_sat hnext, BarrenPairs, ← and_assoc]
      refine and_congr_left' ?_
      rcases tryTransition_cases hnext with ⟨hsat, states, hstates, res, rfl, rfl⟩ | ⟨hsat, rfl⟩
      · have hdone : (takeTransitionNodes root maxDepth solver pair.2 states
            (guardNode pair.2 pair.1)).done = [] ↔
            BarrenTransition root maxDepth solver pair.2 states (guardNode pair.2 pair.1) :=
          done_takeTransitionNodes
        have hpair : BarrenPair root maxDepth solver maxTreeDepth acc.sat pair.1 pair.2 ↔
            (takeTransitionNodes root maxDepth solver pair.2 states
              (guardNode pair.2 pair.1)).done = [] ∧
            ∀ n ∈ (takeTransitionNodes root maxDepth solver pair.2 states
              (guardNode pair.2 pair.1)).live, (n.treedepth : Int) ≤ maxTreeDepth := by
          rw [hdone]
          constructor
          · exact fun h => ⟨h.transition states hstates, h.treedepth states hstates⟩
          · rintro ⟨htransition, hdepth⟩
            refine ⟨hsat, fun states' h => ?_, fun states' h => ?_⟩
            · rw [Option.some.inj (h.symm.trans hstates)]
              exact htransition
            · rw [Option.some.inj (h.symm.trans hstates)]
              exact hdepth
        rw [hpair]
        simp only [List.filter_append, List.append_eq_nil_iff, List.filter_eq_nil_iff,
          decide_eq_true_eq, gt_iff_lt, Int.not_lt]
        tauto
      · -- Not taken: the leaf is done, and the pair is not barren.
        constructor
        · intro h
          simp at h
        · rintro ⟨_, hbarren⟩
          rw [hbarren.guard] at hsat
          cases hsat

/-- A round adds nothing to the nodes that are done when it is barren. -/
theorem done_engineRound {maxTreeDepth : Int} {loop loop' : LoopState}
    (h : engineRound root maxDepth solver maxTreeDepth loop = some loop') :
    loop'.done = [] ↔ loop.done = [] ∧ BarrenRound root maxDepth solver maxTreeDepth loop := by
  have ⟨acc, hfold, hacc⟩ := Option.bind_eq_some_iff.mp h
  obtain rfl := Option.some.inj hacc
  refine (done_pairs hfold).trans (and_congr_left' ?_)
  rw [List.filter_nil, List.append_nil]

/-! ### Before the main loop -/

theorem done_enterFirst {s : StateRef} : ∀ {leaves leavesTemp done : List SETNode},
    (enterFirst root maxDepth solver s leavesTemp leaves done).done = [] ↔
      done = [] ∧ BarrenFirst root maxDepth solver s leaves := by
  intro leaves
  induction leaves with
  | nil => exact (and_iff_left trivial).symm
  | cons leaf leaves ih =>
      intro leavesTemp done
      have hnode : (enterSubstate root maxDepth solver s leaf).done = [] ↔
          BarrenSubstate root maxDepth solver s leaf := done_executeBlock
      rw [enterFirst, BarrenFirst, ← hnode]
      split
      · -- The loop ends at this leaf, and the others are dropped.
        rename_i hempty
        have hlive : (enterSubstate root maxDepth solver s leaf).live = [] := by simpa using hempty
        simp [hlive]
      · rename_i hempty
        have hlive : (enterSubstate root maxDepth solver s leaf).live ≠ [] := by simpa using hempty
        rw [ih, List.append_eq_nil_iff, and_assoc]
        simp [hlive]

theorem done_enterFirstStates : ∀ {states : List StateRef} {res : SymbolicExecutionResult},
    (enterFirstStates root maxDepth solver states res).done = [] ↔
      res.done = [] ∧ BarrenFirstStates root maxDepth solver states res := by
  intro states
  induction states with
  | nil => exact (and_iff_left trivial).symm
  | cons s states ih =>
      intro res
      rw [enterFirstStates, ih, done_enterFirst, and_assoc]
      rfl

/-! ### Executions -/

variable (root maxDepth solver) (chart : StateRef) (maxTreeDepth : Int)

/-- Nothing is done in the rounds of a main loop. -/
def BarrenLoop : (fuel : Nat) → LoopState → Prop
  | 0, _ => True
  | fuel + 1, loop => loop.leaves = [] ∨ BarrenRound root maxDepth solver maxTreeDepth loop ∧
    ∀ loop' ∈ engineRoundIn root chart maxDepth solver maxTreeDepth loop, BarrenLoop fuel loop'

/-- Nothing is done in an execution: neither before its main loop nor in a round. -/
def BarrenExecution (conf : List StateRef) (fuel : Nat) : Prop :=
  ∀ loop ∈ firstRoundIn root chart maxDepth solver conf,
    BarrenFirstStates root maxDepth solver (chartConfiguration root chart conf)
      ⟨[], [chartStart root chart]⟩ ∧
    BarrenLoop root maxDepth solver chart maxTreeDepth fuel loop

variable {root maxDepth solver chart maxTreeDepth}

theorem done_mainLoopIn : ∀ {fuel : Nat} {e e' : Execution},
    mainLoopIn root chart maxDepth solver maxTreeDepth fuel e = some e' →
      (e'.loop.done = [] ↔
        e.loop.done = [] ∧ BarrenLoop root maxDepth solver chart maxTreeDepth fuel e.loop) := by
  intro fuel
  induction fuel with
  | zero => exact fun h => nomatch h
  | succ fuel ih =>
      intro e e' h
      rw [mainLoopIn] at h
      rw [BarrenLoop]
      split at h
      · rename_i hempty
        have hleaves : e.loop.leaves = [] := by simpa using hempty
        obtain rfl := Option.some.inj h
        simp [hleaves]
      · rename_i hempty
        have hleaves : e.loop.leaves ≠ [] := by simpa using hempty
        obtain ⟨loop', hround, hrest⟩ := Option.bind_eq_some_iff.mp h
        obtain ⟨loop₁, hround₁, heq⟩ := engineRoundIn_eq_some.mp hround
        have hdone : loop'.done = [] ↔ e.loop.done = [] ∧
            BarrenRound root maxDepth solver maxTreeDepth e.loop := by
          rw [← done_engineRound hround₁, ← heq]
        rw [ih hrest, hdone, hround, and_assoc]
        simp [hleaves]

/-- An execution returns no nodes exactly when it is barren. -/
theorem done_executeIn_iff {conf : List StateRef} {fuel : Nat} {e : Execution}
    (h : executeIn root chart maxDepth solver maxTreeDepth conf fuel = some e) :
    e.loop.done = [] ↔ BarrenExecution root maxDepth solver chart maxTreeDepth conf fuel := by
  have ⟨loop, hfirst, hrest⟩ := Option.bind_eq_some_iff.mp h
  have hdone : loop.done = [] ↔ BarrenFirstStates root maxDepth solver
      (chartConfiguration root chart conf) ⟨[], [chartStart root chart]⟩ := by
    have hloop := hfirst
    unfold firstRoundIn at hloop
    split at hloop
    · cases hloop
    · obtain rfl := Option.some.inj hloop
      exact done_enterFirstStates.trans (and_iff_right rfl)
  rw [done_mainLoopIn hrest, hdone, BarrenExecution, hfirst]
  simp

end

end Stabl
