import Stabl.Proofs.SymbolicExecution.Encoding
import Stabl.Proofs.SymbolicExecution.Records
import Stabl.SymbolicExecution.Symbols
import Stabl.Lib.CallTrace

/-!
# `Stabl.Proofs.SymbolicExecution.Symbols`: symbolic variables are declared before they are used

A `SymVars` is put into the map when its node is made, so it is in the map at every later call of
the solver. No entry is removed, and an entry is replaced by one of the same name. So at a call,
every symbolic variable in the question has an entry (`RunEffects.made`), with the type of the
variable of that name that was read last.

A script declares a symbolic variable for the type `"int"`, `"string"` or `"bool"`. The language
calls the third type `"boolean"`. So a question's variables are declared with their sorts exactly
when none is a boolean and the last variable of the same name had the same type
(`conversion_declares_iff`).
-/

set_option autoImplicit false

namespace Stabl

open CallTrace Result

/-! ### Occurrences -/

section
variable {value : DeclarationRef → SymExpr} {occurrences : DeclarationRef → List DeclarationRef}

/-- The symbolic variables of a result are those of its names. -/
theorem symVarsOf_symEvalWith (h : ∀ d, (value d).symVarsOf = (occurrences d).map symVarsName)
    (e : Expression Name) :
    (symEvalWith value e).symVarsOf = (occurrencesWith occurrences e).map symVarsName := by
  induction e using Expression.operandInduction with
  | name n => exact h n.declaration
  | constant c => rfl
  | functionCall f args => rfl
  | binaryExpression left right operator hleft hright =>
      rw [symEvalWith, SymExpr.symVarsOf, occurrencesWith, List.map_append, hleft, hright]

theorem symVarsOf_symEvalUpdateWith
    (h : ∀ d, (value d).symVarsOf = (occurrences d).map symVarsName) {var : DeclarationRef}
    {e : SymbolicExpression} (hname : ∀ v, e = .symVars v → v = symVarsName var) :
    (symEvalUpdateWith value e).symVarsOf =
      (updateOccurrencesWith occurrences var e).map symVarsName := by
  cases e with
  | operands left right operator =>
      rw [symEvalUpdateWith, SymExpr.symVarsOf, updateOccurrencesWith, List.map_append,
        symVarsOf_symEvalWith h, symVarsOf_symEvalWith h]
  | expression e => exact symVarsOf_symEvalWith h e
  | symVars v =>
      show [v] = [symVarsName var]
      rw [hname v rfl]

end

/-- A node whose function calls are named after their variables. -/
theorem SETNode.symVarsOf_valueOf {n : SETNode} (h : n.NamedInputs) (d : DeclarationRef) :
    (n.valueOf d).symVarsOf = (n.occurrencesOf d).map symVarsName := by
  induction n generalizing d with
  | start => rfl
  | instruction var e p ih =>
      have hp : p.NamedInputs := by
        cases e with
        | symVars v => exact fun i hi => h i (List.mem_append_left _ hi)
        | operands left right operator | expression e => exact h
      rw [valueOf, occurrencesOf]
      split
      · refine symVarsOf_symEvalUpdateWith (ih hp) ?_
        rintro v rfl
        exact h (var, v) (List.mem_append_right _ List.mem_cons_self)
      · exact ih hp d
  | decision _ p ih | stateEntry _ p ih | stateExit _ p ih | note _ p ih => exact ih h d

/-- The `SymVars` in the expression of a question. -/
theorem symVarsOf_question {leaf : SETNode} (h : leaf.NamedInputs) (q : Question) :
    (q.expression leaf).symVarsOf = (q.occurrences leaf).map symVarsName := by
  cases q with
  | condition e | elseCondition e | guard t =>
      exact symVarsOf_symEvalWith (SETNode.symVarsOf_valueOf h) _

/-! ### What is made before a call -/

/-- The `SymVars` of every function call on the path has been made. -/
def SETNode.MadeIn (effects : List Effect) (n : SETNode) : Prop :=
  ∀ i ∈ n.inputs, i.2 = symVarsName i.1 ∧ Effect.symVars i.1 ∈ effects

/-- The `SymVars` of every function call on the path to a leaf are made before the solver is
called there. -/
def Effect.Made (before : List Effect) : Effect → Prop
  | .symVars _ => True
  | .call c => c.1.MadeIn before

theorem SETNode.MadeIn.append {effects : List Effect} {n : SETNode} (h : n.MadeIn effects)
    (effects' : List Effect) : n.MadeIn (effects ++ effects') :=
  fun i hi => ⟨(h i hi).1, List.mem_append_left _ (h i hi).2⟩

/-- What the expressions refer to is on the path. -/
theorem mem_inputs_of_occurrencesWith {occurrences : DeclarationRef → List DeclarationRef}
    {made : List DeclarationRef} (h : ∀ d, ∀ v ∈ occurrences d, v ∈ made) (e : Expression Name) :
    ∀ v ∈ occurrencesWith occurrences e, v ∈ made := by
  induction e using Expression.operandInduction with
  | name n => exact h n.declaration
  | constant c => exact fun v hv => nomatch hv
  | functionCall f args => exact fun v hv => nomatch hv
  | binaryExpression left right operator hleft hright =>
      intro v hv
      exact (List.mem_append.mp hv).elim (hleft v) (hright v)

theorem SETNode.mem_inputs_of_occurrencesOf {n : SETNode} (d : DeclarationRef) :
    ∀ v ∈ n.occurrencesOf d, v ∈ n.inputs.map Prod.fst := by
  induction n generalizing d with
  | start => exact fun v hv => nomatch hv
  | instruction var e p ih =>
      have hsub : ∀ v ∈ p.inputs.map Prod.fst, v ∈ (instruction var e p).inputs.map Prod.fst := by
        intro v hv
        cases e with
        | symVars x =>
            rw [inputs, List.map_append]
            exact List.mem_append_left _ hv
        | operands left right operator | expression e => exact hv
      intro v hv
      rw [occurrencesOf] at hv
      split at hv
      · cases e with
        | operands left right operator =>
            exact (List.mem_append.mp hv).elim
              (fun hv => hsub v (mem_inputs_of_occurrencesWith ih left v hv))
              (fun hv => hsub v (mem_inputs_of_occurrencesWith ih right v hv))
        | expression e => exact hsub v (mem_inputs_of_occurrencesWith ih e v hv)
        | symVars x =>
            rw [List.mem_singleton.mp hv, inputs, List.map_append]
            exact List.mem_append_right _ List.mem_cons_self
      · exact hsub v (ih d v hv)
  | decision _ p ih | stateEntry _ p ih | stateExit _ p ih | note _ p ih => exact ih d

/-- The `SymVars` in a question at a leaf have been made. -/
theorem SETNode.MadeIn.occurrences {effects : List Effect} {leaf : SETNode}
    (h : leaf.MadeIn effects) (q : Question) :
    ∀ v ∈ q.occurrences leaf, Effect.symVars v ∈ effects := by
  intro v hv
  have hinputs : v ∈ leaf.inputs.map Prod.fst := by
    cases q with
    | condition e | elseCondition e | guard t =>
        exact mem_inputs_of_occurrencesWith SETNode.mem_inputs_of_occurrencesOf _ v hv
  have ⟨i, hi, hv⟩ := List.mem_map.mp hinputs
  exact hv ▸ (h i hi).2

/-- A part of the run, with its effects: what it has made at its calls, and at its nodes. -/
structure Makes (before effects : List Effect) (res : SymbolicExecutionResult) : Prop where
  calls : Along Effect.Made before effects
  nodes : AllNodes (SETNode.MadeIn (before ++ effects)) res

/-- Wherever a part of the run starts, it makes its effects. -/
def Tracks (effects : SETNode → List Effect) (f : SETNode → SymbolicExecutionResult) : Prop :=
  ∀ before l, l.MadeIn before → Makes before (effects l) (f l)

theorem AllNodes.madeIn_append {before : List Effect} {res : SymbolicExecutionResult}
    (h : AllNodes (SETNode.MadeIn before) res) (effects : List Effect) :
    AllNodes (SETNode.MadeIn (before ++ effects)) res :=
  ⟨fun n hn => (h.done n hn).append effects, fun n hn => (h.live n hn).append effects⟩

/-- Nothing happens. -/
theorem Makes.nil {before : List Effect} {res : SymbolicExecutionResult}
    (h : AllNodes (SETNode.MadeIn before) res) : Makes before [] res :=
  ⟨trivial, h.madeIn_append []⟩

/-- A part of the run after another one. -/
theorem Makes.append {before effects effects' : List Effect} {res res' : SymbolicExecutionResult}
    (h : Makes before effects res) (h' : Makes (before ++ effects) effects' res') :
    Makes before (effects ++ effects') res' := by
  refine ⟨along_append.mpr ⟨h.calls, h'.calls⟩, ?_⟩
  rw [← List.append_assoc]
  exact h'.nodes

/-- The effects at one leaf after the other. -/
theorem Tracks.flatMap {effects : SETNode → List Effect} {f : SETNode → SymbolicExecutionResult}
    (hf : Tracks effects f) : ∀ {leaves : List SETNode} {before : List Effect},
      (∀ l ∈ leaves, l.MadeIn before) → Along Effect.Made before (leaves.flatMap effects) ∧
        ∀ l ∈ leaves, AllNodes (SETNode.MadeIn (before ++ leaves.flatMap effects)) (f l) := by
  intro leaves
  induction leaves with
  | nil => exact fun _ => ⟨trivial, fun l hl => nomatch hl⟩
  | cons leaf leaves ih =>
      intro before hleaves
      have hleaf := hf before leaf (hleaves leaf List.mem_cons_self)
      have hleaves' : ∀ l ∈ leaves, l.MadeIn (before ++ effects leaf) :=
        fun l hl => (hleaves l (List.mem_cons_of_mem _ hl)).append _
      have hrest := ih hleaves'
      rw [List.flatMap_cons, along_append, ← List.append_assoc]
      refine ⟨⟨hleaf.calls, hrest.1⟩, ?_⟩
      intro l hl
      rcases List.mem_cons.mp hl with rfl | hl
      · exact hleaf.nodes.madeIn_append _
      · exact hrest.2 l hl

theorem Tracks.lastResult {effects : SETNode → List Effect} {f : SETNode → SymbolicExecutionResult}
    (hf : Tracks effects f) {leaves : List SETNode} {before : List Effect}
    (hleaves : ∀ l ∈ leaves, l.MadeIn before) :
    Makes before (leaves.flatMap effects) (Stabl.lastResult f leaves) :=
  ⟨(hf.flatMap hleaves).1, lastResult_preserves (hf.flatMap hleaves).2⟩

theorem Tracks.atEveryLeaf {effects : SETNode → List Effect}
    {f : SETNode → SymbolicExecutionResult} (hf : Tracks effects f) {before : List Effect}
    {res : SymbolicExecutionResult} (hres : AllNodes (SETNode.MadeIn before) res) :
    Makes before (res.live.flatMap effects) (Stabl.atEveryLeaf f res) := by
  have ⟨hcalls, hnodes⟩ := hf.flatMap hres.live
  refine ⟨hcalls, ⟨?_, ?_⟩⟩
  · intro n hn
    rcases List.mem_append.mp hn with hn | hn
    · exact (hres.done n hn).append _
    · have ⟨l, hl, hn⟩ := List.mem_flatMap.mp hn
      exact (hnodes l hl).done n hn
  · intro n hn
    have ⟨l, hl, hn⟩ := List.mem_flatMap.mp hn
    exact (hnodes l hl).live n hn

theorem Tracks.atEveryState {effects : StateRef → SETNode → List Effect}
    {f : StateRef → SETNode → SymbolicExecutionResult} (states : List StateRef)
    (hf : ∀ s, Tracks (effects s) (f s)) : ∀ {before : List Effect} {res : SymbolicExecutionResult},
      AllNodes (SETNode.MadeIn before) res →
        Makes before (everyStateEffects effects f states res)
          (Stabl.atEveryState f states res) := by
  induction states with
  | nil => exact fun hres => .nil hres
  | cons s states ih =>
      intro before res hres
      have hfirst := (hf s).atEveryLeaf hres
      exact hfirst.append (ih hfirst.nodes)

/-! ### Statements -/

section
variable (maxDepth : Int) (solver : Solver)

theorem executeAssignment_tracks (lhs : Name) (rhs : Expression Name) :
    Tracks (fun _ => assignmentEffects lhs rhs) (executeAssignment maxDepth lhs rhs) := by
  intro before l hl
  have hnode : (SETNode.instruction lhs.declaration (evaluateUpdate lhs.declaration rhs) l).MadeIn
      (before ++ assignmentEffects lhs rhs) := by
    cases rhs with
    | functionCall f args =>
        intro i hi
        rcases List.mem_append.mp hi with hi | hi
        · exact hl.append _ i hi
        · rw [List.mem_singleton.mp hi]
          exact ⟨rfl, List.mem_append_right _ List.mem_cons_self⟩
    | name n | constant c | binaryExpression left right operator => exact hl.append _
  have hcalls : Along Effect.Made before (assignmentEffects lhs rhs) := by
    cases rhs with
    | functionCall f args => exact along_cons.mpr ⟨trivial, trivial⟩
    | name n | constant c | binaryExpression left right operator => trivial
  refine ⟨hcalls, ?_⟩
  unfold executeAssignment
  dsimp only
  split
  · exact ⟨by simpa using hnode, by simp⟩
  · exact ⟨by simp, by simpa using hnode⟩

/-- One half of `executeIf`, with its call. -/
theorem executeBranch_makes (q : Question) {leaf branch : SETNode} {before : List Effect}
    {effects : SETNode → List Effect} {body : SETNode → SymbolicExecutionResult}
    (hleaf : leaf.MadeIn before) (hbranch : branch.MadeIn before) (hbody : Tracks effects body) :
    Makes before (.call (leaf, q) :: if solver leaf q = .sat then effects branch else [])
      (executeBranch (solver leaf q) leaf branch body) := by
  have hcall : Makes before [.call (leaf, q)] ⟨[leaf], []⟩ :=
    ⟨along_cons.mpr ⟨hleaf, trivial⟩, ⟨by simpa using hleaf.append _, by simp⟩⟩
  unfold executeBranch
  split
  · exact hcall.append (hbody _ branch (hbranch.append _))
  · exact hcall

theorem executeIf_tracks (condition : Expression Name)
    {thenEffects elseEffects : SETNode → List Effect}
    {thenBody elseBody : SETNode → SymbolicExecutionResult} (hthen : Tracks thenEffects thenBody)
    (helse : Tracks elseEffects elseBody) :
    Tracks (fun l => .call (l, .condition condition) ::
      ((if solver l (.condition condition) = .sat then
          thenEffects (branchNode condition true l) else []) ++
        .call (l, .elseCondition condition) ::
          (if solver l (.elseCondition condition) = .sat then
            elseEffects (branchNode condition false l) else [])))
      (executeIf solver condition thenBody elseBody) := by
  intro before l hl
  have hbranch (value : Bool) : (branchNode condition value l).MadeIn before := hl
  have h₁ : Makes before _ _ :=
    executeBranch_makes solver (.condition condition) hl (hbranch true) hthen
  have h₂ (effects : List Effect) : Makes (before ++ effects) _ _ :=
    executeBranch_makes solver (.elseCondition condition) (hl.append effects)
      ((hbranch false).append effects) helse
  have hcalls := (h₁.append (h₂ _)).calls
  have hnodes₁ := h₁.nodes.madeIn_append (.call (l, .elseCondition condition) ::
    if solver l (.elseCondition condition) = .sat then
      elseEffects (branchNode condition false l) else [])
  have hnodes₂ := (h₁.append (h₂ _)).nodes
  rw [List.append_assoc] at hnodes₁
  exact ⟨hcalls, executeIf_nodes (hl.append _) hnodes₁ hnodes₂⟩

mutual

/-- A statement makes its effects. -/
theorem executeStatementSym_makes : ∀ (s : Statement Name) {before : List Effect}
    {leaves : List SETNode}, (∀ l ∈ leaves, l.MadeIn before) →
      Makes before (statementEffects maxDepth solver s leaves)
        (executeStatementSym maxDepth solver s leaves)
  | .assignmentStatement lhs rhs, before, leaves, hleaves => by
      rw [statementEffects, executeStatementSym]
      exact (executeAssignment_tracks maxDepth lhs rhs).lastResult hleaves
  | .ifStatement condition thenBody elseBody, before, leaves, hleaves => by
      rw [statementEffects, executeStatementSym]
      have hthen : Tracks (fun l => statementEffects maxDepth solver thenBody [l])
          (fun l => executeStatementSym maxDepth solver thenBody [l]) :=
        fun before l hl => executeStatementSym_makes thenBody (by simpa using hl)
      have helse : Tracks (fun l => statementEffects maxDepth solver elseBody [l])
          (fun l => executeStatementSym maxDepth solver elseBody [l]) :=
        fun before l hl => executeStatementSym_makes elseBody (by simpa using hl)
      exact (executeIf_tracks solver condition hthen helse).lastResult hleaves
  | .statementList statements, before, leaves, hleaves => by
      rw [statementEffects, executeStatementSym]
      have hbody : Tracks (fun l => statementsEffects maxDepth solver statements [l])
          (fun l => executeStatementsSym maxDepth solver statements [] [l]) :=
        fun before l hl => executeStatementsSym_makes statements (by simp) (by simpa using hl)
      exact hbody.lastResult hleaves
  | .haltStatement, before, leaves, hleaves => by
      rw [statementEffects, executeStatementSym]
      exact .nil (lastResult_preserves fun l hl => ⟨by simpa using hleaves l hl, by simp⟩)
  | .expressionStatement _, before, leaves, hleaves => by
      rw [statementEffects, executeStatementSym]
      exact .nil (lastResult_preserves fun l _ => .nil _)
  | .skipStatement, before, leaves, hleaves => by
      rw [statementEffects, executeStatementSym]
      exact .nil (lastResult_preserves fun l _ => .nil _)
  | .whileStatement _ _, before, leaves, hleaves => by
      rw [statementEffects, executeStatementSym]
      exact .nil ⟨by simp, hleaves⟩

theorem executeStatementsSym_makes : ∀ (ss : List (Statement Name)) {before : List Effect}
    {done leaves : List SETNode}, (∀ n ∈ done, n.MadeIn before) → (∀ l ∈ leaves, l.MadeIn before) →
      Makes before (statementsEffects maxDepth solver ss leaves)
        (executeStatementsSym maxDepth solver ss done leaves)
  | [], before, done, leaves, hdone, hleaves => by
      rw [statementsEffects, executeStatementsSym]
      exact .nil ⟨hdone, hleaves⟩
  | s :: ss, before, done, leaves, hdone, hleaves => by
      have hs := executeStatementSym_makes s hleaves
      rw [statementsEffects, executeStatementsSym]
      refine hs.append (executeStatementsSym_makes ss (fun n hn => ?_) hs.nodes.live)
      rcases List.mem_append.mp hn with hn | hn
      · exact (hdone n hn).append _
      · exact hs.nodes.done n hn

end

theorem executeBlock_makes (block : Statement Name) {before : List Effect} {leaf : SETNode}
    (hleaf : leaf.MadeIn before) :
    Makes before (statementEffects maxDepth solver block [leaf])
      (executeBlock maxDepth solver block leaf) := by
  rw [executeBlock_eq]
  exact executeStatementSym_makes maxDepth solver block (by simpa using hleaf)

end

/-! ### States and transitions -/

section
variable (root : State Name) (maxDepth : Int) (solver : Solver)

/-- A constant is no function call. -/
theorem inputs_initializeVariables (s : StateRef) (scope : ScopeName) (leaf : SETNode) :
    (initializeVariables root s scope leaf).inputs = leaf.inputs := by
  unfold initializeVariables
  refine List.foldlRecOn _ _ (motive := fun n : SETNode => n.inputs = leaf.inputs) rfl ?_
  intro l hl d _
  unfold initializeVariable
  split
  · split
    · exact hl
    · exact hl
  · exact hl

theorem SETNode.MadeIn.initializeVariables {effects : List Effect} {leaf : SETNode}
    (h : leaf.MadeIn effects) (s : StateRef) (scope : ScopeName) :
    (Stabl.initializeVariables root s scope leaf).MadeIn effects := by
  unfold MadeIn
  rw [inputs_initializeVariables]
  exact h

theorem enterSuperstate_tracks (s : StateRef) :
    Tracks (enterSuperstateEffects root maxDepth solver s)
      (enterSuperstate root maxDepth solver s) := by
  intro before l hl
  have hentry : (SETNode.stateEntry s l).MadeIn before := hl
  exact executeBlock_makes maxDepth solver _ (hentry.initializeVariables root s .localScope)

theorem enterSubstate_tracks (s : StateRef) :
    Tracks (enterSubstateEffects root maxDepth solver s)
      (enterSubstate root maxDepth solver s) := by
  intro before l hl
  have hentry : (SETNode.stateEntry s l).MadeIn before := hl
  have hlocal := hentry.initializeVariables root s .localScope
  exact executeBlock_makes maxDepth solver _ (hlocal.initializeVariables root s .parameterScope)

theorem exitStateSym_tracks (s : StateRef) :
    Tracks (exitStateEffects root maxDepth solver s) (exitStateSym root maxDepth solver s) := by
  intro before l hl
  have hexit : (SETNode.stateExit s l).MadeIn before := hl
  exact executeBlock_makes maxDepth solver _ hexit

theorem action_tracks (t : PlacedTransition Name) :
    Tracks (actionEffects maxDepth solver t) (fun l => executeBlock maxDepth solver
      t.transition.action (.note (.action t.state t.transition.name) l)) := by
  intro before l hl
  have haction : (SETNode.note (.action t.state t.transition.name) l).MadeIn before := hl
  exact executeBlock_makes maxDepth solver _ haction

theorem takeTransition_tracks (t : PlacedTransition Name) (states : TransitionStates) :
    Tracks (takeTransitionEffects root maxDepth solver t states)
      (takeTransitionNodes root maxDepth solver t states) := by
  intro before leaf hleaf
  have hstart : AllNodes (SETNode.MadeIn before) ⟨[], [leaf]⟩ := ⟨by simp, by simpa using hleaf⟩
  have hexits := Tracks.atEveryState states.sourceStates
    (exitStateSym_tracks root maxDepth solver) hstart
  have haction := (action_tracks maxDepth solver t).atEveryLeaf hexits.nodes
  have hsuper := Tracks.atEveryState states.destinationSuperstates
    (enterSuperstate_tracks root maxDepth solver) haction.nodes
  have hsub := Tracks.atEveryState states.destinationSubstates
    (enterSubstate_tracks root maxDepth solver) hsuper.nodes
  exact hexits.append (haction.append (hsuper.append hsub))

/-! ### Rounds -/

/-- The guard of a transition is asked about first. -/
theorem tryTransition_makes {before : List Effect} {leaf : SETNode} (hleaf : leaf.MadeIn before)
    (sat : Bool) (t : PlacedTransition Name) :
    Along Effect.Made before (tryTransitionEffects root maxDepth solver sat leaf t) ∧
      ∀ states, transitionStates root t = some states → satAfter sat (solver leaf (.guard t)) →
        AllNodes (SETNode.MadeIn (before ++ tryTransitionEffects root maxDepth solver sat leaf t))
          (takeTransitionNodes root maxDepth solver t states (guardNode t leaf)) := by
  have hcall : Makes before [.call (leaf, .guard t)] ⟨[], [leaf]⟩ :=
    ⟨along_cons.mpr ⟨hleaf, trivial⟩, ⟨by simp, by simpa using hleaf.append _⟩⟩
  unfold tryTransitionEffects
  split
  · cases hstates : transitionStates root t with
    | none => exact ⟨hcall.calls, fun states h => nomatch h⟩
    | some states =>
        have hguard : (guardNode t leaf).MadeIn (before ++ [.call (leaf, .guard t)]) :=
          hleaf.append _
        have hboth :=
          hcall.append (takeTransition_tracks root maxDepth solver t states _ _ hguard)
        refine ⟨hboth.calls, fun states' h _ => ?_⟩
        obtain rfl := Option.some.inj h
        exact hboth.nodes
  · rename_i hsat
    exact ⟨hcall.calls, fun states _ h => absurd h hsat⟩

theorem tryTransition_nodes {before : List Effect} {acc acc' : RoundState} {leaf : SETNode}
    {t : PlacedTransition Name} (hacc : ∀ n ∈ acc.leavesTemp ++ acc.done, n.MadeIn before)
    (hleaf : leaf.MadeIn before)
    (h : tryTransition root maxDepth solver acc leaf t = some acc') :
    ∀ n ∈ acc'.leavesTemp ++ acc'.done,
      n.MadeIn (before ++ tryTransitionEffects root maxDepth solver acc.sat leaf t) := by
  intro n hn
  rcases tryTransition_cases h with ⟨hsat, states, hstates, res, rfl, rfl⟩ | ⟨_, rfl⟩
  · have hnodes := (tryTransition_makes root maxDepth solver hleaf acc.sat t).2 states hstates hsat
    simp only [List.mem_append] at hn hacc
    rcases hn with (hn | hn) | hn | hn
    · exact (hacc n (.inl hn)).append _
    · exact hnodes.live n hn
    · exact (hacc n (.inr hn)).append _
    · exact hnodes.done n hn
  · simp only [List.mem_append, List.mem_singleton] at hn hacc
    rcases hn with hn | hn | rfl
    · exact (hacc n (.inl hn)).append _
    · exact (hacc n (.inr hn)).append _
    · exact hleaf.append _

/-- The calls of a round. -/
theorem pairs_makes {pairs : List (SETNode × PlacedTransition Name)} :
    ∀ {before : List Effect} {sat : Bool}, (∀ pair ∈ pairs, pair.1.MadeIn before) →
      Along Effect.Made before (pairsEffects root maxDepth solver sat pairs) := by
  induction pairs with
  | nil => exact fun _ => trivial
  | cons pair pairs ih =>
      intro before sat hpairs
      have hfirst := (tryTransition_makes root maxDepth solver
        (hpairs pair List.mem_cons_self) sat pair.2).1
      exact along_append.mpr
        ⟨hfirst, ih fun p hp => (hpairs p (List.mem_cons_of_mem _ hp)).append _⟩

/-- The nodes of a round. -/
theorem pairs_nodes {pairs : List (SETNode × PlacedTransition Name)} :
    ∀ {before : List Effect} {acc acc' : RoundState},
      (∀ n ∈ acc.leavesTemp ++ acc.done, n.MadeIn before) →
      (∀ pair ∈ pairs, pair.1.MadeIn before) →
      pairs.foldlM (fun acc pair => tryTransition root maxDepth solver acc pair.1 pair.2) acc =
        some acc' →
      ∀ n ∈ acc'.leavesTemp ++ acc'.done,
        n.MadeIn (before ++ pairsEffects root maxDepth solver acc.sat pairs) := by
  induction pairs with
  | nil =>
      intro before acc acc' hacc _ hfold n hn
      obtain rfl : acc = acc' := by simpa using hfold
      exact (hacc n hn).append _
  | cons pair pairs ih =>
      intro before acc acc' hacc hpairs hfold
      have ⟨next, hnext, hrest⟩ := Option.bind_eq_some_iff.mp hfold
      have hleaf : pair.1.MadeIn before := hpairs pair List.mem_cons_self
      have hfirst := tryTransition_nodes root maxDepth solver hacc hleaf hnext
      have hpairs' := ih hfirst
        (fun p hp => (hpairs p (List.mem_cons_of_mem _ hp)).append _) hrest
      rw [tryTransition_sat hnext, List.append_assoc] at hpairs'
      exact hpairs'

theorem round_nodes {maxTreeDepth : Int} {before : List Effect} {loop loop' : LoopState}
    (hloop : ∀ n ∈ loop.nodes, n.MadeIn before)
    (h : engineRound root maxDepth solver maxTreeDepth loop = some loop') :
    ∀ n ∈ loop'.nodes, n.MadeIn (before ++ roundEffects root maxDepth solver loop) := by
  have ⟨acc, hfold, hacc⟩ := Option.bind_eq_some_iff.mp h
  obtain rfl := Option.some.inj hacc
  have hleaves : ∀ pair ∈ loop.pairs, pair.1.MadeIn before := fun pair hpair =>
    hloop _ (List.mem_append_left _ (LoopState.mem_pairs.mp hpair).1)
  have hstart : ∀ n ∈ (⟨[], loop.done, loop.conf, loop.sat⟩ : RoundState).leavesTemp ++ loop.done,
      n.MadeIn before :=
    fun n hn => hloop n (List.mem_append_right _ hn)
  have hnodes := pairs_nodes root maxDepth solver hstart hleaves hfold
  intro n hn
  refine hnodes n (List.mem_append.mpr ?_)
  -- The leaves beyond the bound on the depth are done in the next round.
  simp only [LoopState.nodes, List.mem_append, List.mem_filter] at hn
  rcases hn with hn | hn | hn
  · exact .inl hn.1
  · exact .inr hn
  · exact .inl hn.1

theorem enterFirst_makes (s : StateRef) : ∀ {leaves leavesTemp done : List SETNode}
    {before : List Effect}, (∀ n ∈ leaves, n.MadeIn before) →
      AllNodes (SETNode.MadeIn before) ⟨done, leavesTemp⟩ →
        Makes before (enterFirstEffects root maxDepth solver s leaves)
          (enterFirst root maxDepth solver s leavesTemp leaves done) := by
  intro leaves
  induction leaves with
  | nil => exact fun _ hnodes => .nil hnodes
  | cons leaf leaves ih =>
      intro leavesTemp done before hleaves hnodes
      have hfirst : Makes before _ _ :=
        enterSubstate_tracks root maxDepth solver s before leaf (hleaves leaf List.mem_cons_self)
      have hboth := (hnodes.madeIn_append _).append hfirst.nodes
      rw [enterFirstEffects, enterFirst]
      split
      · -- No leaf is live, and the loop ends early.
        rw [List.append_nil]
        exact ⟨hfirst.calls, ⟨hboth.done, (hnodes.madeIn_append _).live⟩⟩
      · exact hfirst.append (ih
          (fun n hn => (hleaves n (List.mem_cons_of_mem _ hn)).append _) hboth)

theorem enterFirstStates_makes : ∀ {states : List StateRef} {res : SymbolicExecutionResult}
    {before : List Effect}, AllNodes (SETNode.MadeIn before) res →
      Makes before (enterFirstStatesEffects root maxDepth solver states res)
        (enterFirstStates root maxDepth solver states res) := by
  intro states
  induction states with
  | nil => exact fun hres => .nil hres
  | cons s states ih =>
      intro res before hres
      have hstart : AllNodes (SETNode.MadeIn before) ⟨res.done, []⟩ := ⟨hres.done, by simp⟩
      have hfirst := enterFirst_makes root maxDepth solver s hres.live hstart
      exact hfirst.append (ih hfirst.nodes)

theorem inputs_startNode : (startNode root).inputs = [] := by
  unfold startNode
  refine List.foldlRecOn _ _ (motive := fun n : SETNode => n.inputs = []) rfl fun l hl s _ => ?_
  rw [inputs_initializeVariables, hl]

variable {root maxDepth solver}

/-- In every run: the calls before the next round, and those of the next round, are made when
everything on their path is made. -/
theorem RunEffects.makes {maxTreeDepth : Int} {effects : List Effect} {loop : LoopState}
    (h : RunEffects root maxDepth solver maxTreeDepth effects loop) :
    Along Effect.Made [] effects ∧ ∀ n ∈ loop.nodes, n.MadeIn effects := by
  induction h with
  | first h =>
      have hstart : AllNodes (SETNode.MadeIn []) ⟨[], [startNode root]⟩ := by
        refine ⟨by simp, fun n hn i hi => ?_⟩
        rw [List.mem_singleton.mp hn, inputs_startNode] at hi
        cases hi
      have hfirst : Makes [] (firstEffects root maxDepth solver) _ :=
        enterFirstStates_makes root maxDepth solver hstart
      unfold firstRound at h
      split at h
      · cases h
      · obtain rfl := Option.some.inj h
        refine ⟨hfirst.calls, fun n hn => ?_⟩
        exact (List.mem_append.mp hn).elim (hfirst.nodes.live n) (hfirst.nodes.done n)
  | @next effects loop loop' hrun live hround ih =>
      have hcalls : Along Effect.Made effects (roundEffects root maxDepth solver loop) :=
        pairs_makes root maxDepth solver fun pair hpair =>
          ih.2 _ (List.mem_append_left _ (LoopState.mem_pairs.mp hpair).1)
      exact ⟨along_append.mpr ⟨ih.1, hcalls⟩, round_nodes root maxDepth solver ih.2 hround⟩

theorem RunEffects.makes_round {maxTreeDepth : Int} {effects : List Effect} {loop : LoopState}
    (h : RunEffects root maxDepth solver maxTreeDepth effects loop) :
    Along Effect.Made [] (effects ++ roundEffects root maxDepth solver loop) := by
  have ⟨hcalls, hnodes⟩ := h.makes
  refine along_append.mpr ⟨hcalls, pairs_makes root maxDepth solver fun pair hpair => ?_⟩
  exact hnodes _ (List.mem_append_left _ (LoopState.mem_pairs.mp hpair).1)

end

/-! ### The map -/

/-- The last variable with this simple name for which a `SymVars` was made. -/
def lastMade (vname : String) (effects : List Effect) : Option DeclarationRef :=
  effects.reverse.findSome? fun e =>
    match e with
    | .symVars var => if var.vname = vname then some var else none
    | .call _ => none

theorem lastMade_append (vname : String) (effects : List Effect) (e : Effect) :
    lastMade vname (effects ++ [e]) = match e with
      | .symVars var => if var.vname = vname then some var else lastMade vname effects
      | .call _ => lastMade vname effects := by
  unfold lastMade
  rw [List.reverse_append, List.reverse_singleton, List.singleton_append, List.findSome?_cons]
  cases e with
  | call call => rfl
  | symVars var =>
      by_cases hname : var.vname = vname
      · simp [hname]
      · simp [hname]

theorem symVarsName_inj {var var' : DeclarationRef} :
    symVarsName var = symVarsName var' ↔ var.vname = var'.vname :=
  String.append_left_inj _

/-- The map has the type of the variable that was read last under the name. -/
theorem symvarslist_eq (typeName : DeclarationRef → String) (table : String → Option String)
    (effects : List Effect) (v : DeclarationRef) :
    symvarslist typeName table effects (symVarsName v) = match lastMade v.vname effects with
      | some var => some (typeName var)
      | none => table (symVarsName v) := by
  induction effects using List.reverseRecOn with
  | nil => rfl
  | append_singleton effects e ih =>
      have hput : symvarslist typeName table (effects ++ [e]) =
          putSymVars typeName (symvarslist typeName table effects) e := by
        rw [symvarslist, List.foldl_append]
        rfl
      rw [hput, lastMade_append]
      cases e with
      | call call => exact ih
      | symVars var =>
          dsimp only [putSymVars]
          by_cases hname : var.vname = v.vname
          · rw [symVarsName_inj.mpr hname, Function.update_self, if_pos hname]
          · rw [Function.update_of_ne fun h => hname (symVarsName_inj.mp h).symm, if_neg hname]
            exact ih

/-- A variable that was read is found, or another one of the same name. -/
theorem exists_lastMade {effects : List Effect} {v : DeclarationRef}
    (h : Effect.symVars v ∈ effects) :
    ∃ var, lastMade v.vname effects = some var ∧ Effect.symVars var ∈ effects := by
  induction effects using List.reverseRecOn with
  | nil => cases h
  | append_singleton effects e ih =>
      have hold : (∃ var, lastMade v.vname effects = some var ∧ Effect.symVars var ∈ effects) →
          ∃ var, lastMade v.vname effects = some var ∧ Effect.symVars var ∈ effects ++ [e] :=
        fun ⟨var, hvar, hmem⟩ => ⟨var, hvar, List.mem_append_left _ hmem⟩
      rw [lastMade_append]
      -- The last effect is the one that is found, or it has another name and is skipped.
      cases e with
      | call call =>
          have hmem : Effect.symVars v ∈ effects := by simpa using h
          exact hold (ih hmem)
      | symVars var =>
          by_cases hname : var.vname = v.vname
          · exact ⟨var, if_pos hname, List.mem_append_right _ List.mem_cons_self⟩
          · have hne : v ≠ var := fun heq => hname (heq ▸ rfl)
            have hmem : Effect.symVars v ∈ effects := by simpa [hne] using h
            dsimp only
            rw [if_neg hname]
            exact hold (ih hmem)

/-! ### Scripts -/

/-- The declarations in a script: each symbolic variable with its sort. -/
def declarations (entries : List (String × String)) : List (String × String) :=
  entries.filterMap fun v => (sortOfType v.2).map fun sort => (v.1, sort)

/-- The text of a declaration. -/
def declarationText (d : String × String) : String :=
  "(declare-fun " ++ d.1 ++ "()" ++ d.2 ++ ")" ++ "\n"

/-- A script consists of its declarations and one assertion. -/
theorem conversion_eq (entries : List (String × String)) (e : SymExpr) :
    conversion entries e = (declarations entries).foldl (fun s d => s ++ declarationText d) "" ++
      "(assert " ++ formula e ++ ")\n" ++ "(check-sat)\n" ++ "(exit)" := by
  have hfold : ∀ s, entries.foldl declareFun s =
      (declarations entries).foldl (fun s d => s ++ declarationText d) s := by
    induction entries with
    | nil => exact fun _ => rfl
    | cons v entries ih =>
        intro s
        rw [List.foldl_cons, ih, declarations, declarations, List.filterMap_cons, declareFun]
        cases sortOfType v.2 with
        | none => rfl
        | some sort =>
            dsimp only [Option.map_some, List.foldl_cons, declarationText]
            simp only [String.append_assoc]
  rw [conversion, hfold]

theorem filter_declarations (entries : List (String × String)) (v : String) :
    (declarations entries).filter (fun d => d.1 = v) =
      declarations (entries.filter fun e => e.1 = v) := by
  induction entries with
  | nil => rfl
  | cons e entries ih =>
      have hcons : ∀ es, declarations (e :: es) =
          ((sortOfType e.2).map fun sort => (e.1, sort)).toList ++ declarations es := by
        intro es
        rw [declarations, declarations, List.filterMap_cons]
        cases sortOfType e.2 <;> rfl
      rw [hcons, List.filter_append, ih]
      by_cases hkey : e.1 = v
      · rw [List.filter_cons_of_pos (by simpa using hkey), hcons]
        cases sortOfType e.2 with
        | none => rfl
        | some sort => simp [hkey]
      · rw [List.filter_cons_of_neg (by simpa using hkey)]
        cases sortOfType e.2 with
        | none => rfl
        | some sort => simp [hkey]

/-- The entry of a key is the only one. -/
theorem EntrySet.filter_eq {table : String → Option String} {entries : List (String × String)}
    (h : EntrySet table entries) {v type : String} (hv : table v = some type) :
    entries.filter (fun e => e.1 = v) = [(v, type)] := by
  have hmem := (h.mem v type).mpr hv
  have hkeys := h.keys
  clear h hv
  induction entries with
  | nil => cases hmem
  | cons e entries ih =>
      have ⟨hfresh, hrest⟩ := List.nodup_cons.mp hkeys
      rcases List.mem_cons.mp hmem with rfl | hmem
      · have hnil : entries.filter (fun e => e.1 = v) = [] := by
          refine List.filter_eq_nil_iff.mpr fun e he hkey => hfresh ?_
          exact List.mem_map.mpr ⟨e, he, by simpa using hkey⟩
        rw [List.filter_cons_of_pos (by simp), hnil]
      · have hkey : e.1 ≠ v := fun hkey => hfresh (List.mem_map.mpr ⟨_, hmem, hkey.symm⟩)
        rw [List.filter_cons_of_neg (by simpa using hkey)]
        exact ih hmem hrest

/-- The script declares a symbolic variable exactly once, with this sort. -/
def DeclaredOnce (entries : List (String × String)) (v sort : String) : Prop :=
  (declarations entries).filter (fun d => d.1 = v) = [(v, sort)]

/-- What is declared depends on the entry. -/
theorem EntrySet.declaredOnce_iff {table : String → Option String}
    {entries : List (String × String)} (h : EntrySet table entries) {v type sort : String}
    (hv : table v = some type) : DeclaredOnce entries v sort ↔ sortOfType type = some sort := by
  unfold DeclaredOnce
  rw [filter_declarations, h.filter_eq hv]
  cases hsort : sortOfType type with
  | none => simp [declarations, hsort]
  | some sort' => simp [declarations, hsort]

/-- The sort for a type of the language. -/
def languageSort (typeName : String) : Option String :=
  if typeName = "int" then some "Int"
  else if typeName = "string" then some "String"
  else if typeName = "boolean" then some "Bool"
  else none

/-- Every symbolic variable is declared once, with the sort of the type of the variable that it
stands for. -/
def OccurrencesDeclared (c : CheckedStatechart) (entries : List (String × String))
    (occurrences : List DeclarationRef) : Prop :=
  ∀ v ∈ occurrences, ∃ sort, languageSort (c.typeNameOf v) = some sort ∧
    DeclaredOnce entries (symVarsName v) sort

/-- Among the three types, `conversion` has the sort of a type exactly when it is no boolean. -/
theorem sort_agrees_iff {type type' : String} (h : type ∈ ["int", "string", "boolean"])
    (h' : type' ∈ ["int", "string", "boolean"]) :
    (∃ sort, languageSort type = some sort ∧ sortOfType type' = some sort) ↔
      type ≠ "boolean" ∧ type' = type := by
  simp only [List.mem_cons, List.not_mem_nil, or_false] at h h'
  rcases h with rfl | rfl | rfl <;> rcases h' with rfl | rfl | rfl <;>
    simp [languageSort, sortOfType]

/-- In every run, at every call of the solver, whatever the static map held before the run: the
symbolic variables in the question are those of its occurrences. If all variables that were read
have the type int, string or boolean, then the script declares each of them once with its sort
exactly when none stands for a boolean and, for each, the last variable of its simple name that
was read has its type. -/
theorem conversion_declares_iff {c : CheckedStatechart} {maxDepth maxTreeDepth : Int}
    {solver : Solver} {effects : List Effect} {loop : LoopState}
    (hrun : RunEffects c.root maxDepth solver maxTreeDepth effects loop)
    {before after : List Effect} {leaf : SETNode} {q : Question}
    (hcall : effects ++ roundEffects c.root maxDepth solver loop =
      before ++ .call (leaf, q) :: after)
    (htypes : ∀ var, Effect.symVars var ∈ before →
      c.typeNameOf var ∈ ["int", "string", "boolean"])
    (table : String → Option String) {entries : List (String × String)}
    (hentries : EntrySet (symvarslist c.typeNameOf table before) entries) :
    (q.expression leaf).symVarsOf = (q.occurrences leaf).map symVarsName ∧
      (OccurrencesDeclared c entries (q.occurrences leaf) ↔
        ∀ v ∈ q.occurrences leaf, c.typeNameOf v ≠ "boolean" ∧
          ∀ var ∈ lastMade v.vname before, c.typeNameOf var = c.typeNameOf v) := by
  have hcalls := hrun.makes_round
  rw [hcall] at hcalls
  have hleaf : leaf.MadeIn before := hcalls.split
  refine ⟨symVarsOf_question (fun i hi => (hleaf i hi).1) q, ?_⟩
  have hone : ∀ v ∈ q.occurrences leaf,
      (∃ sort, languageSort (c.typeNameOf v) = some sort ∧
        DeclaredOnce entries (symVarsName v) sort) ↔
      c.typeNameOf v ≠ "boolean" ∧
        ∀ var ∈ lastMade v.vname before, c.typeNameOf var = c.typeNameOf v := by
    intro v hv
    -- `v` was read before this call, so its name has an entry, of the variable read last.
    have hmade := hleaf.occurrences q v hv
    have ⟨var, hvar, hmem⟩ := exists_lastMade hmade
    have hentry : symvarslist c.typeNameOf table before (symVarsName v) =
        some (c.typeNameOf var) := by rw [symvarslist_eq, hvar]
    have hagrees := sort_agrees_iff (htypes v hmade) (htypes var hmem)
    simp only [hentries.declaredOnce_iff hentry, hagrees, hvar, Option.mem_def, Option.some.injEq,
      forall_eq']
  unfold OccurrencesDeclared
  constructor
  · intro h v hv
    exact (hone v hv).mp (h v hv)
  · intro h v hv
    exact (hone v hv).mpr (h v hv)

/-- The map with one entry. -/
theorem entrySet_singleton (v type : String) :
    EntrySet (Function.update (fun _ => none) v (some type)) [(v, type)] where
  keys := List.nodup_singleton v
  mem := by
    intro v' type'
    by_cases hv : v' = v
    · subst hv
      simp [eq_comm]
    · simp [hv]

set_option maxRecDepth 4000 in
/-- The quiz asks for the first time after both inputs, and its script declares `x_1` as an
integer. -/
theorem conversion_declares_iff_quiz :
    OccurrencesDeclared (accepted quiz) [("x_1", "int")] [⟨[0], "x"⟩] := by
  let effects := firstEffects (accepted quiz).root 20 satisfied
  have hrun : RunEffects (accepted quiz).root 20 satisfied 20 effects quizLoop :=
    .first (eq_some_getLoop (by decide))
  have ⟨leaf, q, after, hcall, hoccurrences⟩ : ∃ leaf q after,
      effects ++ roundEffects (accepted quiz).root 20 satisfied quizLoop =
        [.symVars ⟨[0], "x"⟩, .symVars ⟨[0], "x"⟩] ++ .call (leaf, q) :: after ∧
      q.occurrences leaf = [⟨[0], "x"⟩] := ⟨_, _, _, rfl, rfl⟩
  have htype : (accepted quiz).typeNameOf ⟨[0], "x"⟩ = "int" := by decide
  have hmade : ∀ var, Effect.symVars var ∈
      ([.symVars ⟨[0], "x"⟩, .symVars ⟨[0], "x"⟩] : List Effect) → var = ⟨[0], "x"⟩ := by
    intro var hvar
    simpa using hvar
  have htypes : ∀ var, Effect.symVars var ∈
      ([.symVars ⟨[0], "x"⟩, .symVars ⟨[0], "x"⟩] : List Effect) →
        (accepted quiz).typeNameOf var ∈ ["int", "string", "boolean"] := by
    intro var hvar
    rw [hmade var hvar, htype]
    decide
  have hmap : symvarslist (accepted quiz).typeNameOf (fun _ => none)
      [.symVars ⟨[0], "x"⟩, .symVars ⟨[0], "x"⟩] =
        Function.update (fun _ => none) "x_1" (some "int") := by
    show Function.update (Function.update _ "x_1" _) "x_1" _ = _
    rw [Function.update_idem, htype]
  have hentries := entrySet_singleton "x_1" "int"
  rw [← hmap] at hentries
  have hscript := (conversion_declares_iff hrun hcall htypes (fun _ => none) hentries).2
  rw [hoccurrences] at hscript
  refine hscript.mpr fun v hv => ?_
  rw [List.mem_singleton.mp hv, htype]
  refine ⟨by decide, fun var hvar => ?_⟩
  have hlast : lastMade "x" [.symVars ⟨[0], "x"⟩, .symVars ⟨[0], "x"⟩] = some ⟨[0], "x"⟩ := rfl
  rw [Option.mem_def, hlast, Option.some.injEq] at hvar
  rw [← hvar, htype]

/-! ### A bell -/

/-- The state `Wait` reads a boolean and asks for it. -/
def bell : Statechart where
  root := { plainState "Bell" with
    states := [{ plainState "Wait" with
      declarations := ⟨[⟨"on", .localScope, .mk "boolean" [], false⟩], by decide⟩
      entry := .statementList [.assignmentStatement ["on"] (.functionCall ⟨"input", []⟩ []),
        .ifStatement (.name ["on"]) (.statementList []) (.statementList [])] }] }
  moreTypes := []
  events := []
  functionDeclarations := [⟨"input", [], .mk "boolean" [], .empty⟩]
  initialised := by decide

/-- In every run of a new process whose input variables have the
type int, string or boolean, every script declares what it uses. -/
def SymbolsDeclared (sc : Statechart) : Prop :=
  ∀ c, typecheck sc = .ok c → ∀ maxDepth maxTreeDepth solver effects loop,
    RunEffects c.root maxDepth solver maxTreeDepth effects loop →
    (∀ var, Effect.symVars var ∈ effects ++ roundEffects c.root maxDepth solver loop →
      c.typeNameOf var ∈ ["int", "string", "boolean"]) →
    ∀ before leaf q after, effects ++ roundEffects c.root maxDepth solver loop =
      before ++ .call (leaf, q) :: after →
    ∀ entries, EntrySet (symvarslist c.typeNameOf (fun _ => none) before) entries →
      OccurrencesDeclared c entries (q.occurrences leaf)

set_option maxRecDepth 4000 in
/-- The script for the bell asserts `on_1` and declares nothing. -/
theorem not_symbolsDeclared_bell : (typecheck bell).isOk = true ∧ ¬ SymbolsDeclared bell := by
  have haccepted : (typecheck bell).isOk = true := by decide
  refine ⟨haccepted, fun h => ?_⟩
  let root := (accepted bell).root
  let loop := getLoop (firstRound root 20 satisfied)
  have hrun : RunEffects root 20 satisfied 20 (firstEffects root 20 satisfied) loop :=
    .first (eq_some_getLoop (by decide))
  have ⟨leaf, q, c, hcall, hoccurrences⟩ : ∃ leaf q c,
      firstEffects root 20 satisfied ++ roundEffects root 20 satisfied loop =
        [.symVars ⟨[0], "on"⟩] ++ .call (leaf, q) :: [.call c] ∧
      q.occurrences leaf = [⟨[0], "on"⟩] := ⟨_, _, _, rfl, rfl⟩
  have htype : (accepted bell).typeNameOf ⟨[0], "on"⟩ = "boolean" := by decide
  have htypes : ∀ var, Effect.symVars var ∈ firstEffects root 20 satisfied ++
      roundEffects root 20 satisfied loop →
        (accepted bell).typeNameOf var ∈ ["int", "string", "boolean"] := by
    intro var hvar
    rw [hcall] at hvar
    obtain rfl : var = ⟨[0], "on"⟩ := by simpa using hvar
    rw [htype]
    decide
  have hmap : symvarslist (accepted bell).typeNameOf (fun _ => none) [.symVars ⟨[0], "on"⟩] =
      Function.update (fun _ => none) "on_1" (some "boolean") := by
    show Function.update _ "on_1" _ = _
    rw [htype]
  have hentries := entrySet_singleton "on_1" "boolean"
  rw [← hmap] at hentries
  have hdeclared := h _ (eq_ok_getD haccepted _) 20 20 satisfied _ loop hrun htypes _ leaf q _
    hcall _ hentries
  rw [hoccurrences] at hdeclared
  have ⟨sort, _, honce⟩ := hdeclared _ List.mem_cons_self
  have hnone : DeclaredOnce [("on_1", "boolean")] "on_1" sort → False := by
    intro honce
    cases honce
  exact hnone honce

end Stabl
