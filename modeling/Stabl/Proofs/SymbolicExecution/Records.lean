import Stabl.Proofs.SymbolicExecution.Feasibility

/-!
# `Stabl.Proofs.SymbolicExecution.Records`: what the nodes of a path say

Both `DecisionNode`s of an if hold its condition, the one of the else body as well. So
the decisions of a path that a valuation follows are true exactly when the path has
entered no else body (`decisionsHold_iff`).

A function call is bound to a symbolic variable that is named after the assigned variable
alone. So the symbolic variables of a run are fresh exactly when the variables that
function calls are assigned to have different simple names (`freshInputs_iff`).
-/

set_option autoImplicit false

namespace Stabl

open Result

/-! ### Decisions -/

namespace SETNode

/-- Every decision on the path holds a condition that is true in the concrete store at its
parent. -/
def DecisionsHold (ρ : Valuation) : SETNode → Prop
  | .start => True
  | .decision value p =>
    p.DecisionsHold ρ ∧ value.bind (fun e => e.value ρ (p.store ρ)) = some (.booleanConstant true)
  | .instruction _ _ p | .stateEntry _ p | .stateExit _ p | .note _ p => p.DecisionsHold ρ

/-- The path has not entered the else body of an if. -/
def ThenOnly : SETNode → Prop
  | .start => True
  | .note (.assume _ value) p => p.ThenOnly ∧ value = true
  | .instruction _ _ p | .decision _ p | .stateEntry _ p | .stateExit _ p
  | .note (.transition _ _) p | .note (.action _ _) p => p.ThenOnly

/-- Decisions stand below the assumption that they record, and guards are assumed to be
true. -/
inductive Recorded : SETNode → Prop where
  | start : Recorded .start
  | instruction {p : SETNode} (var : DeclarationRef) (e : SymbolicExpression) (h : Recorded p) :
    Recorded (.instruction var e p)
  | branch {p : SETNode} (condition : Expression Name) (value : Bool) (h : Recorded p) :
    Recorded (branchNode condition value p)
  | stateEntry {p : SETNode} (s : StateRef) (h : Recorded p) : Recorded (.stateEntry s p)
  | stateExit {p : SETNode} (s : StateRef) (h : Recorded p) : Recorded (.stateExit s p)
  | action {p : SETNode} (state : StateRef) (transition : String) (h : Recorded p) :
    Recorded (.note (.action state transition) p)
  | guard {p : SETNode} (t : PlacedTransition Name) (h : Recorded p) : Recorded (guardNode t p)

end SETNode

theorem recorded_nodeClosed (solver : Solver) : NodeClosed solver SETNode.Recorded where
  start := .start
  instruction := fun _ _ _ h => .instruction _ _ h
  thenBranch := fun _ _ h _ => .branch _ _ h
  elseBranch := fun _ _ h _ => .branch _ _ h
  stateEntry := fun _ _ h => .stateEntry _ h
  stateExit := fun _ _ h => .stateExit _ h
  action := fun _ _ _ h => .action _ _ h
  guard := fun _ _ h _ => .guard _ h

/-- `DecisionNode.evaluate_exp` keeps the value of a condition that has one. -/
theorem evaluateCondition_value {ρ : Valuation} {store : Store} {condition : Expression Name}
    {c : Constant} (h : expressionValue store condition = some c) :
    (evaluateCondition condition).bind (fun e => e.value ρ store) = some c := by
  cases condition with
  | functionCall f args => cases h
  | name n | constant c | binaryExpression left right operator => exact h

/-- On a path that the run follows, a decision is true unless it stands for an else body. -/
theorem SETNode.Recorded.decisions_iff {ρ : Valuation} {n : SETNode} (h : n.Recorded)
    (hfollows : n.Follows ρ) : n.DecisionsHold ρ ↔ n.ThenOnly := by
  induction h with
  | start => exact Iff.rfl
  | instruction _ _ _ ih | stateEntry _ _ ih | stateExit _ _ ih | action _ _ _ ih =>
    exact ih hfollows
  | guard condition _ ih =>
      show _ ↔ _ ∧ true = true
      rw [← ih hfollows.1]
      simp only [and_true]
      rfl
  | @branch p condition value _ ih =>
      have hvalue := evaluateCondition_value (ρ := ρ) hfollows.2
      show p.DecisionsHold ρ ∧ (evaluateCondition condition).bind (fun e => e.value ρ (p.store ρ)) =
        some (.booleanConstant true) ↔ p.ThenOnly ∧ value = true
      rw [hvalue, ih hfollows.1, Option.some.injEq, Constant.booleanConstant.injEq]

/-- In every run, for every node and every valuation that follows its path: the decisions
on the path are true in the stores at their parents exactly when the path has entered no
else body. -/
theorem decisionsHold_iff {root : State Name} {maxDepth maxTreeDepth : Int} {solver : Solver}
    {loop : LoopState} (hrun : AtRound root maxDepth solver maxTreeDepth (fun _ => True) loop) :
    ∀ n ∈ loop.leaves ++ loop.done, ∀ ρ, n.Follows ρ → (n.DecisionsHold ρ ↔ n.ThenOnly) := by
  intro n hn ρ hfollows
  have hrecorded : n.Recorded := hrun.preserves (recorded_nodeClosed solver) n hn
  exact hrecorded.decisions_iff hfollows

/-- The quiz, where every input is known to be 1. -/
def onesLoop : LoopState := getLoop (firstRound (accepted quiz).root 20 (knowing ones))

set_option maxRecDepth 4000 in
/-- The first node that is done has assumed `x = 1` and has entered no else body. -/
theorem decisionsHold_iff_quiz : (onesLoop.done.headD .start).DecisionsHold ones := by
  have hrun : AtRound (accepted quiz).root 20 (knowing ones) 20 (fun _ => True) onesLoop :=
    .first (eq_some_getLoop (by decide))
  have hn : onesLoop.done.headD .start ∈ onesLoop.done := List.mem_of_getElem? (i := 0) rfl
  exact (decisionsHold_iff hrun _ (List.mem_append_right _ hn) ones (by decide)).mpr
    ⟨trivial, rfl⟩

/-- In every run, the decisions on a path that is followed
are true. -/
def DecisionsDescribePaths (sc : Statechart) : Prop :=
  ∀ c, typecheck sc = .ok c → ∀ maxDepth maxTreeDepth solver loop,
    AtRound c.root maxDepth solver maxTreeDepth (fun _ => True) loop →
      ∀ n ∈ loop.leaves ++ loop.done, ∀ ρ, n.Follows ρ → n.DecisionsHold ρ

set_option maxRecDepth 4000 in
/-- The leaf has answered `x = 2` with no, and its last decision is `x = 2`. -/
theorem not_decisionsDescribePaths_quiz :
    (typecheck quiz).isOk = true ∧ ¬ DecisionsDescribePaths quiz := by
  refine ⟨by decide, fun h => ?_⟩
  have hrun : AtRound (accepted quiz).root 20 (knowing ones) 20 (fun _ => True) onesLoop :=
    .first (eq_some_getLoop (by decide))
  have hn : onesLoop.leaves.headD .start ∈ onesLoop.leaves := List.mem_of_getElem? (i := 0) rfl
  have ⟨_, hdecision⟩ :=
    h _ (eq_ok_getD (by decide) _) 20 20 _ _ hrun _ (List.mem_append_left _ hn) ones
    (by decide)
  revert hdecision
  decide

/-! ### Inputs -/

/-- The function calls that are assigned on the path: each variable, with the symbolic
variable that it is bound to. -/
def SETNode.inputs : SETNode → List (DeclarationRef × String)
  | .start => []
  | .instruction var (.symVars v) p => p.inputs ++ [(var, v)]
  | .instruction _ (.operands _ _ _) p | .instruction _ (.expression _) p | .decision _ p
  | .stateEntry _ p | .stateExit _ p | .note _ p => p.inputs

/-- The symbolic variables of the nodes are fresh. On one path they are different, those
of different declarations are different, and any two of a path can have any two values. -/
structure FreshInputs (nodes : List SETNode) : Prop where
  onPath : ∀ n ∈ nodes, (n.inputs.map Prod.snd).Nodup
  ofDeclarations : ∀ n ∈ nodes, ∀ n' ∈ nodes, ∀ i ∈ n.inputs, ∀ i' ∈ n'.inputs,
    i.1 ≠ i'.1 → i.2 ≠ i'.2
  valuations : ∀ n ∈ nodes, ∀ (j k : Nat) (i i' : DeclarationRef × String), n.inputs[j]? = some i →
    n.inputs[k]? = some i' → j ≠ k → ∀ v v' : Constant, ∃ ρ : Valuation, ρ i.2 = v ∧ ρ i'.2 = v'

/-- The variables that function calls are assigned to have different simple names: any two
on one path, and any two that are different declarations. -/
structure DistinctInputs (nodes : List SETNode) : Prop where
  onPath : ∀ n ∈ nodes, (n.inputs.map (·.1.vname)).Nodup
  ofDeclarations : ∀ n ∈ nodes, ∀ n' ∈ nodes, ∀ i ∈ n.inputs, ∀ i' ∈ n'.inputs,
    i.1 ≠ i'.1 → i.1.vname ≠ i'.1.vname

/-- The symbolic variable of an assignment is named after its variable alone. -/
def SETNode.NamedInputs (n : SETNode) : Prop := ∀ i ∈ n.inputs, i.2 = i.1.vname ++ "_1"

theorem namedInputs_nodeClosed (solver : Solver) : NodeClosed solver SETNode.NamedInputs where
  start := by
    intro i hi
    cases hi
  instruction := by
    intro l var rhs h
    cases rhs with
    | functionCall f args =>
        intro i hi
        rcases List.mem_append.mp hi with hi | hi
        · exact h i hi
        · rw [List.mem_singleton.mp hi]
    | name n | constant c | binaryExpression left right operator => exact h
  thenBranch := fun _ _ h _ => h
  elseBranch := fun _ _ h _ => h
  stateEntry := fun _ _ h => h
  stateExit := fun _ _ h => h
  action := fun _ _ _ h => h
  guard := fun _ _ h _ => h

theorem SETNode.NamedInputs.snd_eq_iff {n n' : SETNode} (h : n.NamedInputs) (h' : n'.NamedInputs)
    {i i' : DeclarationRef × String} (hi : i ∈ n.inputs) (hi' : i' ∈ n'.inputs) :
    i.2 = i'.2 ↔ i.1.vname = i'.1.vname := by
  rw [h i hi, h' i' hi', String.append_left_inj]

/-- Two different symbolic variables can have any two values. -/
theorem exists_valuation {x y : String} (h : x ≠ y) (v v' : Constant) :
    ∃ ρ : Valuation, ρ x = v ∧ ρ y = v' := by
  refine ⟨Function.update (fun _ => v') x v, Function.update_self .., ?_⟩
  rw [Function.update_of_ne h.symm]

/-- In every run: the symbolic variables of its nodes are fresh exactly when the variables
that function calls are assigned to have different simple names. -/
theorem freshInputs_iff {root : State Name} {maxDepth maxTreeDepth : Int} {solver : Solver}
    {loop : LoopState} (hrun : AtRound root maxDepth solver maxTreeDepth (fun _ => True) loop) :
    FreshInputs (loop.leaves ++ loop.done) ↔ DistinctInputs (loop.leaves ++ loop.done) := by
  have hnamed : ∀ n ∈ loop.leaves ++ loop.done, n.NamedInputs :=
    hrun.preserves (namedInputs_nodeClosed solver)
  have honPath : ∀ n ∈ loop.leaves ++ loop.done,
      (n.inputs.map Prod.snd).Nodup ↔ (n.inputs.map (·.1.vname)).Nodup := by
    intro n hn
    have hmap : n.inputs.map Prod.snd = (n.inputs.map (·.1.vname)).map (· ++ "_1") := by
      rw [List.map_map]
      exact List.map_congr_left fun i hi => hnamed n hn i hi
    have hinj : Function.Injective (fun vname : String => vname ++ "_1") :=
      fun _ _ h => (String.append_left_inj _).mp h
    rw [hmap, List.nodup_map_iff hinj]
  constructor
  · intro h
    refine ⟨fun n hn => (honPath n hn).mp (h.onPath n hn), ?_⟩
    intro n hn n' hn' i hi i' hi' hne hname
    exact h.ofDeclarations n hn n' hn' i hi i' hi' hne
      (((hnamed n hn).snd_eq_iff (hnamed n' hn') hi hi').mpr hname)
  · intro h
    have hpath : ∀ n ∈ loop.leaves ++ loop.done, (n.inputs.map Prod.snd).Nodup :=
      fun n hn => (honPath n hn).mpr (h.onPath n hn)
    refine ⟨hpath, ?_, ?_⟩
    · intro n hn n' hn' i hi i' hi' hne hname
      exact h.ofDeclarations n hn n' hn' i hi i' hi' hne
        (((hnamed n hn).snd_eq_iff (hnamed n' hn') hi hi').mp hname)
    · intro n hn j k i i' hj hk hne
      refine exists_valuation fun heq => hne ?_
      -- Without duplicates, equal names stand at one place.
      have hj' : (n.inputs.map Prod.snd)[j]? = some i.2 := by rw [List.getElem?_map, hj]; rfl
      have hk' : (n.inputs.map Prod.snd)[k]? = some i.2 := by rw [List.getElem?_map, hk, heq]; rfl
      have hlt : j < (n.inputs.map Prod.snd).length := (List.getElem?_eq_some_iff.mp hj').1
      exact (List.getElem?_inj hlt (hpath n hn)).mp (hj'.trans hk'.symm)

/-! ### A form -/

/-- The state `Fill` reads two variables. -/
def form : Statechart where
  root := { plainState "Form" with
    states := [{ plainState "Fill" with
      declarations :=
        ⟨[⟨"x", .localScope, .mk "int" [], false⟩, ⟨"y", .localScope, .mk "int" [], false⟩],
        by decide⟩
      entry :=
        .statementList [inputX, .assignmentStatement ["y"] (.functionCall ⟨"input", []⟩ [])] }] }
  moreTypes := []
  events := []
  functionDeclarations := [⟨"input", [], .mk "int" [], .empty⟩]
  initialised := by decide

/-- The form before the main loop. -/
def formLoop : LoopState := getLoop (firstRound (accepted form).root 20 satisfied)

set_option maxRecDepth 4000 in
/-- The two inputs of the form are fresh. -/
theorem freshInputs_iff_form : FreshInputs (formLoop.leaves ++ formLoop.done) := by
  have hrun : AtRound (accepted form).root 20 satisfied 20 (fun _ => True) formLoop :=
    .first (eq_some_getLoop (by decide))
  have hlength : (formLoop.leaves ++ formLoop.done).map SETNode.inputs =
      [[(⟨[0], "x"⟩, "x_1"), (⟨[0], "y"⟩, "y_1")]] := by decide
  have hinputs : ∀ n ∈ formLoop.leaves ++ formLoop.done,
      n.inputs = [(⟨[0], "x"⟩, "x_1"), (⟨[0], "y"⟩, "y_1")] := by
    intro n hn
    have hmem : n.inputs ∈ (formLoop.leaves ++ formLoop.done).map SETNode.inputs :=
      List.mem_map_of_mem hn
    rw [hlength] at hmem
    exact List.mem_singleton.mp hmem
  refine (freshInputs_iff hrun).mpr ⟨fun n hn => ?_, fun n hn n' hn' => ?_⟩
  · rw [hinputs n hn]
    decide
  · rw [hinputs n hn, hinputs n' hn']
    decide

/-- In every run, the symbolic variables are fresh. -/
def InputsAreFresh (sc : Statechart) : Prop :=
  ∀ c, typecheck sc = .ok c → ∀ maxDepth maxTreeDepth solver loop,
    AtRound c.root maxDepth solver maxTreeDepth (fun _ => True) loop →
      FreshInputs (loop.leaves ++ loop.done)

set_option maxRecDepth 4000 in
/-- The quiz reads `x` twice, and both values are called `x_1`. -/
theorem not_inputsAreFresh_quiz : (typecheck quiz).isOk = true ∧ ¬ InputsAreFresh quiz := by
  refine ⟨by decide, fun h => ?_⟩
  have hrun : AtRound (accepted quiz).root 20 satisfied 20 (fun _ => True) quizLoop :=
    .first (eq_some_getLoop (by decide))
  have hn : quizLoop.leaves.headD .start ∈ quizLoop.leaves := List.mem_of_getElem? (i := 0) rfl
  have hfresh :=
    (h _ (eq_ok_getD (by decide) _) 20 20 _ _ hrun).onPath _ (List.mem_append_left _ hn)
  revert hfresh
  decide

end Stabl
