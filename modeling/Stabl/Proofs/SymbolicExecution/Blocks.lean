import Stabl.Proofs.Simulator.BigStep
import Stabl.Proofs.Simulator.Evaluation
import Stabl.Proofs.SymbolicExecution.Leaves
import Stabl.Proofs.SymbolicExecution.Records
import Stabl.Proofs.SymbolicExecution.Resolution

/-!
# `Stabl.Proofs.SymbolicExecution.Blocks`: what the engine explores, the simulator does

The engine and the simulator execute the same blocks of code. `pathEnd` is the path that a run of
a block takes when the symbolic variables have given values. It connects the two:

* a live node whose path is followed under the values is the end of that path
  (`pathEnd_of_live`), so there is one such node at most;
* the simulator goes where the path goes (`pathEnd_runs`), when the user types the values of the
  symbols.

So a live node stands for runs of the simulator (`executeBlock_refines`). A block may not have
loops, which the engine skips, calls of functions other than `input`, which have no value in the
simulator, or bare names as conditions, at which the simulator does nothing.
-/

set_option autoImplicit false

namespace Stabl

open Result World

/-! ### Blocks that both read in the same way -/

/-- The right-hand side is no call, or a call of `input`. -/
def Expression.asksOnly : Expression Name → Bool
  | .functionCall f _ => f.name = "input"
  | _ => true

/-- The condition is a bare name. -/
def Expression.isName : Expression Name → Bool
  | .name _ => true
  | _ => false

mutual

/-- The statement has no loops, it calls `input` only, and no condition is a bare name. -/
def Statement.explorable : Statement Name → Bool
  | .assignmentStatement _ rhs => rhs.asksOnly
  | .ifStatement condition thenBody elseBody =>
    !condition.isName && thenBody.explorable && elseBody.explorable
  | .whileStatement _ _ => false
  | .statementList statements => Statement.explorableList statements
  | .haltStatement | .expressionStatement _ | .skipStatement => true

def Statement.explorableList : List (Statement Name) → Bool
  | [] => true
  | s :: ss => s.explorable && Statement.explorableList ss

end

/-! ### The path of a run -/

section
variable (ρ : Valuation)

mutual

/-- The node in which a run of the statement ends, under the values of the symbols. There is
none for a statement at which the engine ends the path or skips what the simulator does. -/
def pathEnd : Statement Name → SETNode → Option SETNode
  | .assignmentStatement lhs rhs, n =>
    some (.instruction lhs.declaration (evaluateUpdate lhs.declaration rhs) n)
  | .ifStatement condition thenBody elseBody, n =>
    match expressionValue (n.store ρ) condition with
    | some (.booleanConstant true) => pathEnd thenBody (branchNode condition true n)
    | some (.booleanConstant false) => pathEnd elseBody (branchNode condition false n)
    | _ => none
  | .statementList statements, n => pathEndList statements n
  | .whileStatement _ _, _ | .haltStatement, _ | .expressionStatement _, _
  | .skipStatement, _ => none

def pathEndList : List (Statement Name) → SETNode → Option SETNode
  | [], n => some n
  | s :: ss, n => (pathEnd s n).bind (pathEndList ss)

end

end

section
variable {ρ : Valuation}

theorem pathEnd_ifStatement {condition : Expression Name} {thenBody elseBody : Statement Name}
    {n : SETNode} {b : Bool}
    (h : expressionValue (n.store ρ) condition = some (.booleanConstant b)) :
    pathEnd ρ (.ifStatement condition thenBody elseBody) n =
      pathEnd ρ (if b then thenBody else elseBody) (branchNode condition b n) := by
  rw [pathEnd, h]
  cases b <;> rfl

/-- An if takes a branch on the value of its condition. -/
theorem exists_of_pathEnd_ifStatement {condition : Expression Name}
    {thenBody elseBody : Statement Name} {n l : SETNode}
    (h : pathEnd ρ (.ifStatement condition thenBody elseBody) n = some l) :
    ∃ b, expressionValue (n.store ρ) condition = some (.booleanConstant b) ∧
      pathEnd ρ (if b then thenBody else elseBody) (branchNode condition b n) = some l := by
  rw [pathEnd] at h
  split at h
  · rename_i hvalue
    exact ⟨true, hvalue, h⟩
  · rename_i hvalue
    exact ⟨false, hvalue, h⟩
  · cases h

/-! ### Paths of code -/

theorem SETNode.CodePath.trans {n m l : SETNode} (h : CodePath n m) (h' : CodePath m l) :
    CodePath n l := by
  induction h' with
  | refl => exact h
  | instruction var e _ ih => exact .instruction var e ih
  | decision value _ ih => exact .decision value ih
  | assume condition value _ ih => exact .assume condition value ih

theorem SETNode.codePath_branchNode (condition : Expression Name) (b : Bool) (n : SETNode) :
    CodePath n (branchNode condition b n) := .decision _ (.assume _ _ .refl)

/-- What follows a path follows its beginning. -/
theorem SETNode.CodePath.follows {n l : SETNode} (h : CodePath n l) (hl : l.Follows ρ) :
    n.Follows ρ := by
  induction h with
  | refl => exact hl
  | instruction _ _ _ ih | decision _ _ ih => exact ih hl
  | assume _ _ _ ih => exact ih hl.1

/-- The inputs of a path are those of its beginning, and more. -/
theorem SETNode.CodePath.inputs_isPrefix {n l : SETNode} (h : CodePath n l) :
    n.inputs <+: l.inputs := by
  induction h with
  | refl => exact List.prefix_refl _
  | instruction var e _ ih =>
      cases e with
      | symVars v => exact ih.trans (List.prefix_append _ _)
      | operands _ _ _ | expression _ => exact ih
  | decision _ _ ih | assume _ _ _ ih => exact ih

mutual

theorem pathEnd_codePath : ∀ (s : Statement Name) {n l : SETNode}, pathEnd ρ s n = some l →
    SETNode.CodePath n l
  | .assignmentStatement lhs rhs, n, l, h => by
      obtain rfl := Option.some.inj h
      exact .instruction _ _ .refl
  | .ifStatement condition thenBody elseBody, n, l, h => by
      obtain ⟨b, _, hbody⟩ := exists_of_pathEnd_ifStatement h
      have hbranch := SETNode.codePath_branchNode condition b n
      cases b with
      | true => exact hbranch.trans (pathEnd_codePath thenBody hbody)
      | false => exact hbranch.trans (pathEnd_codePath elseBody hbody)
  | .statementList statements, n, l, h => pathEndList_codePath statements h
  | .whileStatement _ _, _, _, h | .haltStatement, _, _, h | .expressionStatement _, _, _, h
  | .skipStatement, _, _, h => by cases h

theorem pathEndList_codePath : ∀ (ss : List (Statement Name)) {n l : SETNode},
    pathEndList ρ ss n = some l → SETNode.CodePath n l
  | [], n, l, h => by
      obtain rfl := Option.some.inj h
      exact .refl
  | s :: ss, n, l, h => by
      obtain ⟨m, hs, hss⟩ := Option.bind_eq_some_iff.mp h
      exact (pathEnd_codePath s hs).trans (pathEndList_codePath ss hss)

end

mutual

/-- The run follows its path. -/
theorem pathEnd_follows : ∀ (s : Statement Name) {n l : SETNode}, pathEnd ρ s n = some l →
    n.Follows ρ → l.Follows ρ
  | .assignmentStatement lhs rhs, n, l, h, hn => by
      obtain rfl := Option.some.inj h
      exact hn
  | .ifStatement condition thenBody elseBody, n, l, h, hn => by
      obtain ⟨b, hvalue, hbody⟩ := exists_of_pathEnd_ifStatement h
      have hbranch : (branchNode condition b n).Follows ρ := ⟨hn, hvalue⟩
      cases b with
      | true => exact pathEnd_follows thenBody hbody hbranch
      | false => exact pathEnd_follows elseBody hbody hbranch
  | .statementList statements, n, l, h, hn => pathEndList_follows statements h hn
  | .whileStatement _ _, _, _, h, _ | .haltStatement, _, _, h, _
  | .expressionStatement _, _, _, h, _ | .skipStatement, _, _, h, _ => by cases h

theorem pathEndList_follows : ∀ (ss : List (Statement Name)) {n l : SETNode},
    pathEndList ρ ss n = some l → n.Follows ρ → l.Follows ρ
  | [], n, l, h, hn => by
      obtain rfl := Option.some.inj h
      exact hn
  | s :: ss, n, l, h, hn => by
      obtain ⟨m, hs, hss⟩ := Option.bind_eq_some_iff.mp h
      exact pathEndList_follows ss hss (pathEnd_follows s hs hn)

end

/-! ### Live nodes -/

variable {maxDepth : Int} {solver : Solver}

mutual

/-- A live node that is followed is the end of the path of the run. -/
theorem pathEnd_of_live : ∀ (s : Statement Name) {n l : SETNode}, s.explorable = true →
    l ∈ (executeStatementSym maxDepth solver s [n]).live → l.Follows ρ → pathEnd ρ s n = some l
  | .assignmentStatement lhs rhs, n, l, _, hl, _ => by
      simp only [executeStatementSym, lastResult, List.foldl_cons, List.foldl_nil,
        executeAssignment] at hl
      split at hl
      · cases hl
      · rw [List.mem_singleton.mp hl]
        rfl
  | .ifStatement condition thenBody elseBody, n, l, hs, hl, hfollows => by
      simp only [Statement.explorable, Bool.and_eq_true] at hs
      obtain ⟨⟨_, hthen⟩, helse⟩ := hs
      -- The assumption of the branch says which way the run goes.
      rcases mem_executeIf_live hl with hl | hl
      · have hbody := pathEnd_of_live thenBody hthen hl hfollows
        have hbranch := (pathEnd_codePath thenBody hbody).follows hfollows
        rw [pathEnd_ifStatement hbranch.2]
        exact hbody
      · have hbody := pathEnd_of_live elseBody helse hl hfollows
        have hbranch := (pathEnd_codePath elseBody hbody).follows hfollows
        rw [pathEnd_ifStatement hbranch.2]
        exact hbody
  | .statementList statements, n, l, hs, hl, hfollows => by
      obtain ⟨m, hm, hend⟩ := pathEndList_of_live statements hs hl hfollows
      rw [pathEnd, ← List.mem_singleton.mp hm]
      exact hend
  | .whileStatement _ _, _, _, hs, _, _ => by cases hs
  | .haltStatement, _, _, _, hl, _ | .expressionStatement _, _, _, _, hl, _
  | .skipStatement, _, _, _, hl, _ => by cases hl

theorem pathEndList_of_live : ∀ (ss : List (Statement Name)) {done leaves : List SETNode}
    {l : SETNode}, Statement.explorableList ss = true →
      l ∈ (executeStatementsSym maxDepth solver ss done leaves).live → l.Follows ρ →
        ∃ n ∈ leaves, pathEndList ρ ss n = some l
  | [], done, leaves, l, _, hl, _ => ⟨l, hl, rfl⟩
  | s :: ss, done, leaves, l, hss, hl, hfollows => by
      rw [Statement.explorableList, Bool.and_eq_true] at hss
      obtain ⟨m, hm, hrest⟩ := pathEndList_of_live ss hss.2 hl hfollows
      obtain ⟨n, hn, hm⟩ := exists_leaf_of_mem_live hm
      have hfirst := pathEnd_of_live s hss.1 hm ((pathEndList_codePath ss hrest).follows hfollows)
      exact ⟨n, hn, by rw [pathEndList, hfirst]; exact hrest⟩

end

end

/-! ### The run of the simulator -/

/-- The symbolic variables have integers as values: they stand for calls of `input`. -/
def Valuation.integers (ν : String → Int32) : Valuation := fun x => .integerConstant (ν x)

/-- What the user types along a path. -/
def SETNode.typed (ν : String → Int32) (n : SETNode) : List (Option Int32) :=
  n.inputs.map fun i => some (ν i.2)

/-- The simulator is at the end of the path: its variables have the values of the path, and it
has read what the user types along the path. -/
structure Replays (ν : String → Int32) (stdin : List (Option Int32)) (n : SETNode) (w : World) :
    Prop where
  store : w.eState.valueEnvironment = n.store (.integers ν)
  typed : stdin = n.typed ν ++ w.stdin

section
variable {ν : String → Int32} {stdin : List (Option Int32)}

theorem evaluateOperand_stdin (e : Expression Name) (w : World) :
    (evaluateOperand e w).2.stdin = w.stdin := by
  fun_induction evaluateOperand e w with
  | case1 c w | case2 n w | case3 f args w => rfl
  | case4 left right operator w x w' hl ihl => rwa [hl] at ihl
  | case5 left right operator w lhs w' hl x w'' hr ihl ihr
  | case6 left right operator w lhs w' hl rhs w'' hr ihl ihr =>
      rw [hl] at ihl
      rw [hr] at ihr
      exact ihr.trans ihl

/-- An expression that is no call has its value in the store, and reads no input. -/
theorem evaluate_eq_expressionValue {e : Expression Name} (he : ∀ f args, e ≠ .functionCall f args)
    (w : World) : (evaluate e w).1 = expressionValue w.eState.valueEnvironment e ∧
      (evaluate e w).2.stdin = w.stdin := by
  cases e with
  | name n | constant c => exact ⟨rfl, rfl⟩
  | functionCall f args => exact absurd rfl (he f args)
  | binaryExpression left right operator =>
      have hvalue := evaluateOperand_fst (.binaryExpression left right operator) w
      have hstdin := evaluateOperand_stdin (.binaryExpression left right operator) w
      rw [evaluate, expressionValue, ← hvalue]
      split
      · rename_i heq
        rw [heq] at hstdin ⊢
        exact ⟨rfl, hstdin⟩
      · rename_i heq
        rw [heq] at hstdin ⊢
        exact ⟨rfl, hstdin⟩

/-- An update that is no call, in the store of the node. -/
theorem value_evaluateUpdate {ρ : Valuation} {store : Store} {var : DeclarationRef}
    {rhs : Expression Name} (hrhs : ∀ f args, rhs ≠ .functionCall f args) :
    (evaluateUpdate var rhs).value ρ store = expressionValue store rhs := by
  cases rhs with
  | functionCall f args => exact absurd rfl (hrhs f args)
  | _ => rfl

theorem inputs_evaluateUpdate {var : DeclarationRef} {rhs : Expression Name}
    (hrhs : ∀ f args, rhs ≠ .functionCall f args) (n : SETNode) :
    (SETNode.instruction var (evaluateUpdate var rhs) n).inputs = n.inputs := by
  cases rhs with
  | functionCall f args => exact absurd rfl (hrhs f args)
  | _ => rfl

/-- An assignment of a value: both assign the same one. -/
theorem Replays.assign {n : SETNode} {w : World} (h : Replays ν stdin n w) (lhs : Name)
    {rhs : Expression Name} (hrhs : ∀ f args, rhs ≠ .functionCall f args) :
    Replays ν stdin (.instruction lhs.declaration (evaluateUpdate lhs.declaration rhs) n)
      (executeAssignmentStatement lhs rhs w) := by
  obtain ⟨hvalue, hstdin⟩ := evaluate_eq_expressionValue hrhs w
  have hstate := (evaluate_readsTo rhs w).eState
  refine ⟨?_, ?_⟩
  · rw [SETNode.store, value_evaluateUpdate hrhs, ← h.store, ← hvalue]
    show Function.update (evaluate rhs w).2.eState.valueEnvironment _ _ = _
    rw [hstate]
  · rw [SETNode.typed, inputs_evaluateUpdate hrhs]
    show stdin = n.typed ν ++ (evaluate rhs w).2.stdin
    rw [hstdin]
    exact h.typed

/-- An assignment of an input: the simulator reads what the user has typed for the symbol. -/
theorem Replays.ask {n : SETNode} {w : World} (h : Replays ν stdin n w) (lhs : Name)
    {f : FunctionName} (args : List (Expression Name)) (hf : f.name = "input")
    (htyped :
      (SETNode.instruction lhs.declaration (.symVars (lhs.declaration.vname ++ "_1")) n).typed ν <+:
        stdin) :
    Replays ν stdin (.instruction lhs.declaration (.symVars (lhs.declaration.vname ++ "_1")) n)
      (executeAssignmentStatement lhs (.functionCall f args) w) := by
  obtain ⟨rest, hrest⟩ := htyped
  have hstdin : w.stdin = some (ν (lhs.declaration.vname ++ "_1")) :: rest := by
    have hall := h.typed
    rw [← hrest] at hall
    simpa [SETNode.typed, SETNode.inputs] using hall.symm
  have hread : evaluate (.functionCall f args) w =
      (some (.integerConstant (ν (lhs.declaration.vname ++ "_1"))), { w with stdin := rest }) := by
    rw [evaluate, evaluateFunction, if_pos hf, hstdin]
  refine ⟨?_, ?_⟩
  · rw [executeAssignmentStatement, hread, SETNode.store, ← h.store]
    rfl
  · rw [executeAssignmentStatement, hread]
    exact hrest.symm

theorem Replays.assignment {n : SETNode} {w : World} (h : Replays ν stdin n w) {lhs : Name}
    {rhs : Expression Name} (hrhs : rhs.asksOnly = true)
    (htyped :
      (SETNode.instruction lhs.declaration (evaluateUpdate lhs.declaration rhs) n).typed ν <+:
        stdin) :
    Replays ν stdin (.instruction lhs.declaration (evaluateUpdate lhs.declaration rhs) n)
      (executeAssignmentStatement lhs rhs w) := by
  cases rhs with
  | functionCall f args => exact h.ask lhs args (by simpa [Expression.asksOnly] using hrhs) htyped
  | name _ | constant _ | binaryExpression _ _ _ =>
      exact h.assign lhs fun f args hcall => by cases hcall

/-- The step of a condition: the simulator looks at it, and finds the value on the path. -/
theorem Replays.condition {n : SETNode} {w : World} (h : Replays ν stdin n w)
    {condition : Expression Name} (hname : condition.isName = false) {b : Bool}
    (hvalue : expressionValue (n.store (.integers ν)) condition = some (.booleanConstant b)) :
    conditionValue condition w = (some b, (evaluate condition w).2) ∧
      Replays ν stdin (branchNode condition b n) (evaluate condition w).2 := by
  have hcall : ∀ f args, condition ≠ .functionCall f args := by
    rintro f args rfl
    cases hvalue
  obtain ⟨heval, hstdin⟩ := evaluate_eq_expressionValue hcall w
  rw [h.store, hvalue] at heval
  refine ⟨conditionValue_of_evaluate ?_ (Prod.ext heval rfl), ?_, ?_⟩
  · rintro x rfl
    cases hname
  · rw [(evaluate_readsTo condition w).eState]
    exact h.store
  · rw [hstdin]
    exact h.typed

/-- What the user types along a path begins with what is typed along its beginning. -/
theorem SETNode.CodePath.typed_isPrefix {n l : SETNode} (h : CodePath n l) :
    n.typed ν <+: l.typed ν := h.inputs_isPrefix.map _

mutual

/-- The simulator goes where the path goes. -/
theorem pathEnd_runs : ∀ (s : Statement Name) {n l : SETNode} {w : World}, s.explorable = true →
    pathEnd (.integers ν) s n = some l → l.typed ν <+: stdin → Replays ν stdin n w →
      ∃ w', Runs s w w' ∧ Replays ν stdin l w'
  | .assignmentStatement lhs rhs, n, l, w, hs, hl, htyped, hw => by
      obtain rfl := Option.some.inj hl
      exact ⟨_, ⟨1, rfl⟩, hw.assignment hs htyped⟩
  | .ifStatement condition thenBody elseBody, n, l, w, hs, hl, htyped, hw => by
      simp only [Statement.explorable, Bool.and_eq_true, Bool.not_eq_true'] at hs
      obtain ⟨⟨hname, hthen⟩, helse⟩ := hs
      obtain ⟨b, hvalue, hbody⟩ := exists_of_pathEnd_ifStatement hl
      obtain ⟨hcondition, hbranch⟩ := hw.condition hname hvalue
      cases b with
      | true =>
          obtain ⟨w', hruns, hw'⟩ := pathEnd_runs thenBody hthen hbody htyped hbranch
          exact ⟨w', .ifStatement hcondition hruns, hw'⟩
      | false =>
          obtain ⟨w', hruns, hw'⟩ := pathEnd_runs elseBody helse hbody htyped hbranch
          exact ⟨w', .ifStatement hcondition hruns, hw'⟩
  | .statementList statements, n, l, w, hs, hl, htyped, hw =>
      pathEndList_runs statements hs hl htyped hw
  | .whileStatement _ _, _, _, _, _, hl, _, _ | .haltStatement, _, _, _, _, hl, _, _
  | .expressionStatement _, _, _, _, _, hl, _, _ | .skipStatement, _, _, _, _, hl, _, _ => by
      cases hl

theorem pathEndList_runs : ∀ (ss : List (Statement Name)) {n l : SETNode} {w : World},
    Statement.explorableList ss = true → pathEndList (.integers ν) ss n = some l →
      l.typed ν <+: stdin → Replays ν stdin n w →
        ∃ w', Runs (.statementList ss) w w' ∧ Replays ν stdin l w'
  | [], n, l, w, _, hl, _, hw => by
      obtain rfl := Option.some.inj hl
      exact ⟨w, .nil w, hw⟩
  | s :: ss, n, l, w, hss, hl, htyped, hw => by
      rw [Statement.explorableList, Bool.and_eq_true] at hss
      obtain ⟨m, hs, hrest⟩ := Option.bind_eq_some_iff.mp hl
      -- The first statement reads no more than all of them.
      have hfirst := (pathEndList_codePath ss hrest).typed_isPrefix.trans htyped
      obtain ⟨w₁, hruns, hw₁⟩ := pathEnd_runs s hss.1 hs hfirst hw
      obtain ⟨w', hruns', hw'⟩ := pathEndList_runs ss hss.2 hrest htyped hw₁
      exact ⟨w', hruns.cons hruns', hw'⟩

end

/-- Take a live node that the engine returns for a block, and integers for the symbols under
which its path is followed. From a world at the leaf before the block, the simulator ends at the
node, if the user types these integers. There is one such node at most. -/
theorem executeBlock_refines {maxDepth : Int} {solver : Solver} {block : Statement Name}
    (hblock : block.explorable = true) {n l : SETNode}
    (hl : l ∈ (executeBlock maxDepth solver block n).live) (hfollows : l.Follows (.integers ν))
    (htyped : l.typed ν <+: stdin) {w : World} (hw : Replays ν stdin n w) :
    (∃ w', Runs block w w' ∧ Replays ν stdin l w') ∧
      ∀ l' ∈ (executeBlock maxDepth solver block n).live, l'.Follows (.integers ν) → l' = l := by
  rw [executeBlock_eq] at hl ⊢
  have hend := pathEnd_of_live block hblock hl hfollows
  refine ⟨pathEnd_runs block hblock hend htyped hw, fun l' hl' hfollows' => ?_⟩
  have hend' := pathEnd_of_live block hblock hl' hfollows'
  exact Option.some.inj (hend'.symm.trans hend)

end

/-! ### A lock -/

/-- `x = 1`. -/
def xIsOne : Expression Name :=
  .binaryExpression (.name nameX) (.constant (.integerConstant 1)) .eq

/-- `x := n`. -/
def assignX (n : Int32) : Statement Name :=
  .assignmentStatement nameX (.constant (.integerConstant n))

/-- `x := input(); if (x = 1) x := 2; else x := 3;`. -/
def unlock : Statement Name :=
  .statementList [.assignmentStatement nameX (.functionCall ⟨"input", []⟩ []),
    .ifStatement xIsOne (assignX 2) (assignX 3)]

/-- The lock before `unlock`: `x` is 0. -/
def locked : SETNode := SETNode.start.assignX (.constant (.integerConstant 0))

/-- The lock in the simulator. The user will type 1. -/
def lockedWorld : World :=
  (World.initial (accepted quiz).root [] [some 1]).put nameX.declaration (some (.integerConstant 0))

/-- What the user types, as the value of every symbol. -/
def oneTyped : String → Int32 := fun _ => 1

theorem locked_replays : Replays oneTyped [some 1] locked lockedWorld := ⟨rfl, rfl⟩

/-- The node of the lock after the right number. -/
def unlocked : SETNode :=
  (branchNode xIsOne true (locked.assignX (.functionCall ⟨"input", []⟩ []))).assignX
    (.constant (.integerConstant 2))

/-- The simulator unlocks as the node says. -/
theorem executeBlock_refines_unlock : ∃ w', Runs unlock lockedWorld w' ∧
    w'.eState.valueEnvironment nameX.declaration = some (.integerConstant 2) := by
  have hlive : unlocked ∈ (executeBlock 20 alwaysSat unlock locked).live := List.Mem.head _
  obtain ⟨⟨w', hruns, hw'⟩, _⟩ := @executeBlock_refines oneTyped [some 1] 20 alwaysSat unlock rfl
    locked unlocked hlive (by decide) ⟨[], rfl⟩ lockedWorld locked_replays
  exact ⟨w', hruns, (congrFun hw'.store nameX.declaration).trans rfl⟩

end Stabl
