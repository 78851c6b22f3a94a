import Stabl.Proofs.Frontend.Accepted
import Stabl.Proofs.Simulator.Steps

/-!
# `Stabl.Proofs.SymbolicExecution.Paths`: what the engine appends to a path

The code of states and transitions appends updates and decisions only (`CodePath`). So
the entries, exits and actions on the nodes of `takeTransition` are those of its lists of
states (`takeTransitionNodes_steps`). The loops of `takeTransition` over leaves and
states have one rule each: what holds at every leaf before holds after
(`atEveryLeaf_live`, `atEveryState_live`).
-/

set_option autoImplicit false

namespace Stabl

open EnterExit TreeAddress

namespace SETNode

/-- The exits, actions and entries on the path to a node, the first one first. -/
def steps : SETNode → List TransitionStep
  | .start => []
  | .instruction _ _ p | .decision _ p | .note (.assume _ _) p | .note (.transition _ _) p =>
    p.steps
  | .stateEntry s p => p.steps ++ [.enter s]
  | .stateExit s p => p.steps ++ [.exit s]
  | .note (.action state transition) p => p.steps ++ [.action state transition]

/-- From `leaf` to the node, the path has updates and decisions only. -/
inductive CodePath (leaf : SETNode) : SETNode → Prop where
  | refl : CodePath leaf leaf
  | instruction {p : SETNode} (var : DeclarationRef) (e : SymbolicExpression)
    (h : CodePath leaf p) :
    CodePath leaf (.instruction var e p)
  | decision {p : SETNode} (value : Option SymbolicExpression) (h : CodePath leaf p) :
    CodePath leaf (.decision value p)
  | assume {p : SETNode} (condition : Expression Name) (value : Bool) (h : CodePath leaf p) :
    CodePath leaf (.note (.assume condition value) p)

end SETNode

/-! ### Statements -/

/-- Every node of the result has the property. -/
structure AllNodes (P : SETNode → Prop) (res : SymbolicExecutionResult) : Prop where
  done : ∀ n ∈ res.done, P n
  live : ∀ n ∈ res.live, P n

theorem AllNodes.nil (P : SETNode → Prop) : AllNodes P ⟨[], []⟩ := ⟨by simp, by simp⟩

theorem AllNodes.append {P : SETNode → Prop} {res res' : SymbolicExecutionResult}
    (h : AllNodes P res) (h' : AllNodes P res') :
    AllNodes P ⟨res.done ++ res'.done, res.live ++ res'.live⟩ where
  done := by
    intro n hn
    rcases List.mem_append.mp hn with hn | hn
    · exact h.done n hn
    · exact h'.done n hn
  live := by
    intro n hn
    rcases List.mem_append.mp hn with hn | hn
    · exact h.live n hn
    · exact h'.live n hn

/-- What an update and what a decision that the solver allows pass on to the new node. -/
structure CodeClosed (solver : Solver) (P : SETNode → Prop) : Prop where
  instruction : ∀ l var rhs, P l → P (.instruction var (evaluateUpdate var rhs) l)
  thenBranch : ∀ l c, P l → solver l (.condition c) = .sat →
    P (.decision (evaluateCondition c) (.note (.assume c true) l))
  elseBranch : ∀ l c, P l → solver l (.elseCondition c) = .sat →
    P (.decision (evaluateCondition c) (.note (.assume c false) l))

theorem lastResult_preserves {P : SETNode → Prop} {f : SETNode → SymbolicExecutionResult}
    {leaves : List SETNode} (hf : ∀ l ∈ leaves, AllNodes P (f l)) :
    AllNodes P (lastResult f leaves) := by
  unfold lastResult
  exact List.foldlRecOn leaves _ (motive := AllNodes P) (.nil P) fun _ _ l hl => hf l hl

section
variable {maxDepth : Int} {solver : Solver} {P : SETNode → Prop}

theorem executeAssignment_preserves (hP : CodeClosed solver P) (lhs : Name) (rhs : Expression Name)
    {l : SETNode} (hl : P l) : AllNodes P (executeAssignment maxDepth lhs rhs l) := by
  have hnode := hP.instruction l lhs.declaration rhs hl
  unfold executeAssignment
  dsimp only
  split
  · exact ⟨by simpa using hnode, by simp⟩
  · exact ⟨by simp, by simpa using hnode⟩

theorem executeBranch_preserves {answer : Answer} {leaf branch : SETNode}
    {body : SETNode → SymbolicExecutionResult} (hleaf : P leaf)
    (hbody : answer = .sat → AllNodes P (body branch)) :
    AllNodes P (executeBranch answer leaf branch body) := by
  unfold executeBranch
  split
  · rename_i hsat
    exact hbody hsat
  · exact ⟨by simpa using hleaf, by simp⟩

/-- The nodes of an if are those of its halves, and the leaf. -/
theorem executeIf_nodes {condition : Expression Name}
    {thenBody elseBody : SETNode → SymbolicExecutionResult} {l : SETNode} (hl : P l)
    (h₁ : AllNodes P (executeBranch (solver l (.condition condition)) l
      (.decision (evaluateCondition condition) (.note (.assume condition true) l)) thenBody))
    (h₂ : AllNodes P (executeBranch (solver l (.elseCondition condition)) l
      (.decision (evaluateCondition condition) (.note (.assume condition false) l)) elseBody)) :
    AllNodes P (executeIf solver condition thenBody elseBody l) := by
  have hboth := h₁.append h₂
  unfold executeIf
  dsimp only
  split
  · refine ⟨fun n hn => ?_, by simp⟩
    rcases List.mem_append.mp hn with hn | hn
    · exact hboth.done n hn
    · exact List.mem_singleton.mp hn ▸ hl
  · exact hboth

theorem executeIf_preserves (hP : CodeClosed solver P) (condition : Expression Name)
    {thenBody elseBody : SETNode → SymbolicExecutionResult}
    (hthen : ∀ l, P l → AllNodes P (thenBody l)) (helse : ∀ l, P l → AllNodes P (elseBody l))
    {l : SETNode} (hl : P l) : AllNodes P (executeIf solver condition thenBody elseBody l) := by
  have h₁ := executeBranch_preserves hl fun hsat => hthen _ (hP.thenBranch l condition hl hsat)
  have h₂ := executeBranch_preserves hl fun hsat => helse _ (hP.elseBranch l condition hl hsat)
  exact executeIf_nodes hl h₁ h₂

mutual

/-- What updates and decisions pass on, the execution of a statement passes on. -/
theorem executeStatementSym_preserves (hP : CodeClosed solver P) :
    ∀ (s : Statement Name) {leaves : List SETNode}, (∀ l ∈ leaves, P l) →
      AllNodes P (executeStatementSym maxDepth solver s leaves)
  | .assignmentStatement lhs rhs, leaves, hleaves =>
      lastResult_preserves fun l hl => executeAssignment_preserves hP lhs rhs (hleaves l hl)
  | .haltStatement, leaves, hleaves =>
      lastResult_preserves fun l hl => ⟨by simpa using hleaves l hl, by simp⟩
  | .expressionStatement _, leaves, hleaves => lastResult_preserves fun l _ => .nil P
  | .skipStatement, leaves, hleaves => lastResult_preserves fun l _ => .nil P
  | .ifStatement condition thenBody elseBody, leaves, hleaves => by
      have hbody : ∀ l, P l → ∀ m ∈ [l], P m := by
        intro l hl m hm
        exact List.mem_singleton.mp hm ▸ hl
      exact lastResult_preserves fun l hl => executeIf_preserves hP condition
        (fun l hl => executeStatementSym_preserves hP thenBody (hbody l hl))
        (fun l hl => executeStatementSym_preserves hP elseBody (hbody l hl)) (hleaves l hl)
  | .statementList statements, leaves, hleaves =>
      lastResult_preserves fun l hl => executeStatementsSym_preserves hP statements (by simp)
        (by simpa using hleaves l hl)
  | .whileStatement _ _, leaves, hleaves => ⟨by simp [executeStatementSym], hleaves⟩

theorem executeStatementsSym_preserves (hP : CodeClosed solver P) :
    ∀ (ss : List (Statement Name)) {done leaves : List SETNode}, (∀ n ∈ done, P n) →
      (∀ l ∈ leaves, P l) → AllNodes P (executeStatementsSym maxDepth solver ss done leaves)
  | [], done, leaves, hdone, hleaves => ⟨hdone, hleaves⟩
  | s :: ss, done, leaves, hdone, hleaves => by
      have hres := executeStatementSym_preserves hP s hleaves
      refine executeStatementsSym_preserves hP ss (fun n hn => ?_) hres.live
      rcases List.mem_append.mp hn with hn | hn
      · exact hdone n hn
      · exact hres.done n hn

end

theorem executeBlock_preserves (hP : CodeClosed solver P) (block : Statement Name) {leaf : SETNode}
    (hleaf : P leaf) : AllNodes P (executeBlock maxDepth solver block leaf) := by
  rw [executeBlock_eq]
  exact executeStatementSym_preserves hP block (by simpa using hleaf)

/-- Code leads from a leaf to nodes that continue its path with code. -/
theorem codePath_codeClosed (solver : Solver) (leaf : SETNode) :
    CodeClosed solver (SETNode.CodePath leaf) where
  instruction := fun _ _ _ h => .instruction _ _ h
  thenBranch := fun _ _ h _ => .decision _ (.assume _ _ h)
  elseBranch := fun _ _ h _ => .decision _ (.assume _ _ h)

end

/-! ### States -/

section
variable {root : State Name} {maxDepth : Int} {solver : Solver}

/-- A property that every update passes on holds after `initialize_variables`. -/
theorem initializeVariables_preserves {P : SETNode → Prop}
    (hP : ∀ l var rhs, P l → P (.instruction var (evaluateUpdate var rhs) l)) (s : StateRef)
    (scope : ScopeName) {leaf : SETNode} (hleaf : P leaf) :
    P (initializeVariables root s scope leaf) := by
  unfold initializeVariables
  refine List.foldlRecOn _ _ (motive := P) hleaf fun l hl d _ => ?_
  unfold initializeVariable
  split
  · split
    · exact hP l _ _ hl
    · exact hl
  · exact hl

section
variable (root : State Name) (maxDepth : Int)

theorem enterSuperstate_preserves {P : SETNode → Prop} (hP : CodeClosed solver P) {s : StateRef}
    {leaf : SETNode} (hleaf : P (.stateEntry s leaf)) :
    AllNodes P (enterSuperstate root maxDepth solver s leaf) :=
  executeBlock_preserves hP _ (initializeVariables_preserves hP.instruction s _ hleaf)

theorem enterSubstate_preserves {P : SETNode → Prop} (hP : CodeClosed solver P) {s : StateRef}
    {leaf : SETNode} (hleaf : P (.stateEntry s leaf)) :
    AllNodes P (enterSubstate root maxDepth solver s leaf) :=
  executeBlock_preserves hP _ (initializeVariables_preserves hP.instruction s _
    (initializeVariables_preserves hP.instruction s _ hleaf))

theorem exitStateSym_preserves {P : SETNode → Prop} (hP : CodeClosed solver P) {s : StateRef}
    {leaf : SETNode} (hleaf : P (.stateExit s leaf)) :
    AllNodes P (exitStateSym root maxDepth solver s leaf) :=
  executeBlock_preserves hP _ hleaf

/-- The action of a transition. -/
theorem executeAction_preserves {P : SETNode → Prop} (hP : CodeClosed solver P)
    (t : PlacedTransition Name) {leaf : SETNode}
    (hleaf : P (.note (.action t.state t.transition.name) leaf)) :
    AllNodes P (executeBlock maxDepth solver t.transition.action
      (.note (.action t.state t.transition.name) leaf)) :=
  executeBlock_preserves hP _ hleaf

end

/-! ### Transitions -/

/-- A loop over the leaves: `f` takes leaves with `P` to nodes with `Q`. -/
theorem atEveryLeaf_preserves {P Q R : SETNode → Prop} {f : SETNode → SymbolicExecutionResult}
    {res : SymbolicExecutionResult} (hdone : ∀ n ∈ res.done, R n) (hlive : ∀ n ∈ res.live, P n)
    (hf : ∀ l, P l → (∀ n ∈ (f l).done, R n) ∧ ∀ n ∈ (f l).live, Q n) :
    (∀ n ∈ (atEveryLeaf f res).done, R n) ∧ ∀ n ∈ (atEveryLeaf f res).live, Q n := by
  constructor
  · intro n hn
    rcases List.mem_append.mp hn with hn | hn
    · exact hdone n hn
    · have ⟨l, hl, hn⟩ := List.mem_flatMap.mp hn
      exact (hf l (hlive l hl)).1 n hn
  · intro n hn
    have ⟨l, hl, hn⟩ := List.mem_flatMap.mp hn
    exact (hf l (hlive l hl)).2 n hn

/-- A loop over states, which leads the leaves from `P states` to `P []`. The nodes that
are done on the way have `R`. -/
theorem atEveryState_preserves {P : List StateRef → SETNode → Prop} {R : SETNode → Prop}
    {f : StateRef → SETNode → SymbolicExecutionResult} :
    ∀ {states : List StateRef} {res : SymbolicExecutionResult}, (∀ n ∈ res.done, R n) →
      (∀ n ∈ res.live, P states n) →
      (∀ s rest l, P (s :: rest) l → (∀ n ∈ (f s l).done, R n) ∧ ∀ n ∈ (f s l).live, P rest n) →
      (∀ n ∈ (atEveryState f states res).done, R n) ∧
        ∀ n ∈ (atEveryState f states res).live, P [] n := by
  intro states
  induction states with
  | nil => exact fun hdone hlive _ => ⟨hdone, hlive⟩
  | cons s states ih =>
      intro res hdone hlive hf
      have hfirst := atEveryLeaf_preserves hdone hlive (hf s states)
      exact ih hfirst.1 hfirst.2 hf

/-- The exits, the action and the entries of a transition, as the engine makes them. -/
def TransitionStates.steps (states : TransitionStates) (t : PlacedTransition Name) :
    List TransitionStep :=
  states.sourceStates.map .exit ++ (.action t.state t.transition.name ::
    (states.destinationSuperstates.map .enter ++ states.destinationSubstates.map .enter))

/-- The nodes on the way from `leaf` through the steps of `full`: the leaves have still to
make the steps of `tail`. -/
structure StepsLeft (leaf : SETNode) (full tail : List TransitionStep)
    (res : SymbolicExecutionResult) : Prop where
  done : ∀ n ∈ res.done, leaf.steps <+: n.steps ∧ n.steps <+: full
  live : ∀ n ∈ res.live, leaf.steps <+: n.steps ∧ n.steps ++ tail = full

/-- A loop over the leaves that makes the next steps at each. -/
theorem StepsLeft.atEveryLeaf {leaf : SETNode} {full next tail : List TransitionStep}
    {f : SETNode → SymbolicExecutionResult} {res : SymbolicExecutionResult}
    (h : StepsLeft leaf full (next ++ tail) res)
    (hf : ∀ l, AllNodes (fun n => n.steps = l.steps ++ next) (f l)) :
    StepsLeft leaf full tail (atEveryLeaf f res) := by
  have hloop := atEveryLeaf_preserves h.done h.live (f := f)
    (Q := fun n => leaf.steps <+: n.steps ∧ n.steps ++ tail = full) fun l ⟨hbefore, hfull⟩ => by
      have hnode : ∀ n : SETNode, n.steps = l.steps ++ next →
          leaf.steps <+: n.steps ∧ n.steps ++ tail = full := by
        intro n hn
        exact ⟨hn ▸ hbefore.trans (List.prefix_append _ _), by rw [hn, List.append_assoc, hfull]⟩
      refine ⟨fun n hn => ?_, fun n hn => hnode n ((hf l).live n hn)⟩
      have hn := hnode n ((hf l).done n hn)
      exact ⟨hn.1, hn.2 ▸ List.prefix_append _ _⟩
  exact ⟨hloop.1, hloop.2⟩

/-- A loop over states that makes one step for each. -/
theorem StepsLeft.atEveryState {leaf : SETNode} {full tail : List TransitionStep}
    {mk : StateRef → TransitionStep} {f : StateRef → SETNode → SymbolicExecutionResult}
    (hf : ∀ s l, AllNodes (fun n => n.steps = l.steps ++ [mk s]) (f s l)) {states : List StateRef} :
    ∀ {res : SymbolicExecutionResult}, StepsLeft leaf full (states.map mk ++ tail) res →
      StepsLeft leaf full tail (atEveryState f states res) := by
  induction states with
  | nil => exact fun h => h
  | cons s states ih =>
      intro res h
      have hnext : StepsLeft leaf full ([mk s] ++ (states.map mk ++ tail)) res := h
      exact ih (hnext.atEveryLeaf (hf s))

/-- Every live node of a transition has made all its steps, and every node that is done
has made the first ones. -/
theorem takeTransitionNodes_steps (root : State Name) (maxDepth : Int) (solver : Solver)
    (t : PlacedTransition Name) (states : TransitionStates) (leaf : SETNode) :
    StepsLeft leaf (leaf.steps ++ states.steps t) []
      (takeTransitionNodes root maxDepth solver t states leaf) := by
  have hclosed : ∀ steps : List TransitionStep, CodeClosed solver (fun n => n.steps = steps) :=
    fun steps => ⟨fun _ _ _ h => h, fun _ _ h _ => h, fun _ _ h _ => h⟩
  have hstart : StepsLeft leaf (leaf.steps ++ states.steps t)
      (states.sourceStates.map .exit ++ ([.action t.state t.transition.name] ++
        (states.destinationSuperstates.map .enter ++
          (states.destinationSubstates.map .enter ++ [])))) ⟨[], [leaf]⟩ := by
    refine ⟨by simp, fun n hn => ?_⟩
    rw [List.mem_singleton.mp hn]
    exact ⟨List.prefix_refl _, by simp [TransitionStates.steps]⟩
  have hexits := hstart.atEveryState fun s l =>
    exitStateSym_preserves root maxDepth (hclosed (l.steps ++ [.exit s])) rfl
  have haction := hexits.atEveryLeaf fun l =>
    executeAction_preserves maxDepth
      (hclosed (l.steps ++ [.action t.state t.transition.name])) t rfl
  have hsuper := haction.atEveryState fun s l =>
    enterSuperstate_preserves root maxDepth (hclosed (l.steps ++ [.enter s])) rfl
  exact hsuper.atEveryState fun s l =>
    enterSubstate_preserves root maxDepth (hclosed (l.steps ++ [.enter s])) rfl

/-! ### The first configuration -/

/-- The loop over the leaves for one state: `enterSubstate` takes leaves with `P` to nodes
with `Q`. -/
theorem enterFirst_preserves {P Q R : SETNode → Prop} {s : StateRef}
    (hf : ∀ l, P l → (∀ n ∈ (enterSubstate root maxDepth solver s l).done, R n) ∧
      ∀ n ∈ (enterSubstate root maxDepth solver s l).live, Q n) :
    ∀ {leaves leavesTemp done : List SETNode}, (∀ n ∈ leaves, P n) → (∀ n ∈ leavesTemp, Q n) →
      (∀ n ∈ done, R n) →
      (∀ n ∈ (enterFirst root maxDepth solver s leavesTemp leaves done).done, R n) ∧
        ∀ n ∈ (enterFirst root maxDepth solver s leavesTemp leaves done).live, Q n := by
  intro leaves
  induction leaves with
  | nil => exact fun _ hleavesTemp hdone => ⟨hdone, hleavesTemp⟩
  | cons leaf leaves ih =>
      intro leavesTemp done hleaves hleavesTemp hdone
      have ⟨hresDone, hresLive⟩ := hf leaf (hleaves leaf List.mem_cons_self)
      have hdone' : ∀ n ∈ done ++ (enterSubstate root maxDepth solver s leaf).done, R n := by
        intro n hn
        rcases List.mem_append.mp hn with hn | hn
        · exact hdone n hn
        · exact hresDone n hn
      rw [enterFirst]
      split
      · exact ⟨hdone', hleavesTemp⟩
      · refine ih (fun n hn => hleaves n (List.mem_cons_of_mem _ hn)) (fun n hn => ?_) hdone'
        rcases List.mem_append.mp hn with hn | hn
        · exact hleavesTemp n hn
        · exact hresLive n hn

/-- The loop over the states, as for `atEveryState_preserves`. -/
theorem enterFirstStates_preserves (root : State Name) (maxDepth : Int) (solver : Solver)
    {P : List StateRef → SETNode → Prop} {R : SETNode → Prop}
    (hf : ∀ s rest l, P (s :: rest) l →
      (∀ n ∈ (enterSubstate root maxDepth solver s l).done, R n) ∧
        ∀ n ∈ (enterSubstate root maxDepth solver s l).live, P rest n) :
    ∀ (states : List StateRef) (res : SymbolicExecutionResult), (∀ n ∈ res.done, R n) →
      (∀ n ∈ res.live, P states n) →
      (∀ n ∈ (enterFirstStates root maxDepth solver states res).done, R n) ∧
        ∀ n ∈ (enterFirstStates root maxDepth solver states res).live, P [] n := by
  intro states
  induction states with
  | nil => exact fun _ hdone hlive => ⟨hdone, hlive⟩
  | cons s states ih =>
      intro res hdone hlive
      have hfirst := enterFirst_preserves (hf s states) hlive (List.forall_mem_nil _) hdone
      exact ih _ hfirst.1 hfirst.2

/-- The static variables are on the path of every node. -/
theorem startNode_preserves {P : SETNode → Prop}
    (hP : ∀ l var rhs, P l → P (.instruction var (evaluateUpdate var rhs) l)) (hstart : P .start) :
    P (startNode root) := by
  unfold startNode
  exact List.foldlRecOn _ _ (motive := P) hstart fun l hl s _ =>
    initializeVariables_preserves hP s .staticScope hl

/-- A live node of the first round has entered the first configuration, and a node that is
done has entered a first part of it. -/
theorem firstRound_steps {loop : LoopState} (h : firstRound root maxDepth solver = some loop) :
    (∀ n ∈ loop.done, n.steps <+: (firstConfiguration root).map .enter) ∧
      ∀ n ∈ loop.leaves, n.steps = (firstConfiguration root).map .enter := by
  have hclosed : ∀ steps : List TransitionStep, CodeClosed solver (fun n => n.steps = steps) :=
    fun steps => ⟨fun _ _ _ h => h, fun _ _ h _ => h, fun _ _ h _ => h⟩
  have hstart : (startNode root).steps = [] := startNode_preserves (hclosed []).instruction rfl
  unfold firstRound at h
  split at h
  · cases h
  · obtain rfl := Option.some.inj h
    have hnode : ∀ s l, AllNodes (fun n => n.steps = l.steps ++ [.enter s])
        (enterSubstate root maxDepth solver s l) :=
      fun s l => enterSubstate_preserves root maxDepth (hclosed (l.steps ++ [.enter s])) rfl
    have hloop := enterFirstStates_preserves root maxDepth solver
      (P := fun rest n => n.steps ++ rest.map .enter = (firstConfiguration root).map .enter)
      (R := fun n => n.steps <+: (firstConfiguration root).map .enter)
      (fun s rest l hl => by
        rw [List.map_cons, List.append_cons] at hl
        refine ⟨fun n hn => ?_, fun n hn => ?_⟩
        · rw [(hnode s l).done n hn, ← hl]
          exact List.prefix_append _ _
        · rw [(hnode s l).live n hn, hl]) (firstConfiguration root) ⟨[], [startNode root]⟩ (by simp)
      (by simp [hstart])
    refine ⟨hloop.1, fun n hn => ?_⟩
    have hn := hloop.2 n hn
    rwa [List.map_nil, List.append_nil] at hn

end

/-- Below a proper ancestor the climbing loop ends. It collects the state itself, and only states
below the ancestor. -/
theorem superstatesBelow_eq_some (root : State Name) {l p : StateRef} (hl : l <:+ p) (hne : p ≠ l) :
    ∃ states, superstatesBelow root (root.nameAt l) p = some (p :: states) ∧
      ∀ q ∈ p :: states, l <:+ q ∧ q ≠ l := by
  induction p with
  | nil => exact absurd (List.suffix_nil.mp hl).symm hne
  | cons i p ih =>
      rw [superstatesBelow]
      split
      · refine ⟨[], rfl, fun q hq => ?_⟩
        rw [List.mem_singleton.mp hq]
        exact ⟨hl, hne⟩
      · rename_i hname
        have hlp : l <:+ p := (List.suffix_cons_iff.mp hl).resolve_left hne.symm
        have hpl : p ≠ l := by
          rintro rfl
          exact hname rfl
        have ⟨states, hstates, hbelow⟩ := ih hlp hpl
        refine ⟨p :: states, by rw [hstates]; rfl, fun q hq => ?_⟩
        rcases List.mem_cons.mp hq with rfl | hq
        · exact ⟨hl, hne⟩
        · exact hbelow q hq

/-! ### Rounds -/

/-- What the engine passes on to every node that it makes. After an exception of the
solver the last output counts, so only the answer `other` keeps a transition back. -/
structure NodeClosed (solver : Solver) (P : SETNode → Prop) : Prop extends CodeClosed solver P where
  start : P .start
  stateEntry : ∀ l s, P l → P (.stateEntry s l)
  stateExit : ∀ l s, P l → P (.stateExit s l)
  action : ∀ l state transition, P l → P (.note (.action state transition) l)
  guard : ∀ l t, P l → solver l (.guard t) ≠ .other → P (guardNode t l)

/-- The same, without the node that `execute` starts with. -/
structure RoundClosed (solver : Solver) (P : SETNode → Prop) : Prop
    extends CodeClosed solver P where
  stateEntry : ∀ l s, P l → P (.stateEntry s l)
  stateExit : ∀ l s, P l → P (.stateExit s l)
  action : ∀ l state transition, P l → P (.note (.action state transition) l)
  guard : ∀ l t, P l → solver l (.guard t) ≠ .other → P (guardNode t l)

theorem NodeClosed.toRoundClosed {solver : Solver} {P : SETNode → Prop}
    (h : NodeClosed solver P) : RoundClosed solver P where
  toCodeClosed := h.toCodeClosed
  stateEntry := h.stateEntry
  stateExit := h.stateExit
  action := h.action
  guard := h.guard

theorem AllNodes.atEveryLeaf {P : SETNode → Prop} {f : SETNode → SymbolicExecutionResult}
    {res : SymbolicExecutionResult} (h : AllNodes P res) (hf : ∀ l, P l → AllNodes P (f l)) :
    AllNodes P (Stabl.atEveryLeaf f res) := by
  have hloop := atEveryLeaf_preserves h.done h.live fun l hl => ⟨(hf l hl).done, (hf l hl).live⟩
  exact ⟨hloop.1, hloop.2⟩

theorem AllNodes.atEveryState {P : SETNode → Prop}
    {f : StateRef → SETNode → SymbolicExecutionResult}
    (hf : ∀ s l, P l → AllNodes P (f s l)) (states : List StateRef) {res : SymbolicExecutionResult}
    (h : AllNodes P res) : AllNodes P (Stabl.atEveryState f states res) := by
  have hstep : ∀ (s : StateRef) (_ : List StateRef) l, P l →
      (∀ n ∈ (f s l).done, P n) ∧ ∀ n ∈ (f s l).live, P n :=
    fun s _ l hl => ⟨(hf s l hl).done, (hf s l hl).live⟩
  have hloop : (∀ n ∈ (Stabl.atEveryState f states res).done, P n) ∧
      ∀ n ∈ (Stabl.atEveryState f states res).live, P n :=
    atEveryState_preserves (P := fun _ => P) h.done h.live hstep
  exact ⟨hloop.1, hloop.2⟩

/-- What `tryTransition` can do, by the value of `s.equals("sat")`. -/
theorem tryTransition_cases {root : State Name} {maxDepth : Int} {solver : Solver}
    {acc acc' : RoundState} {leaf : SETNode} {t : PlacedTransition Name}
    (h : tryTransition root maxDepth solver acc leaf t = some acc') :
    (satAfter acc.sat (solver leaf (.guard t)) = true ∧ ∃ states,
      transitionStates root t = some states ∧ ∃ res, res =
      takeTransitionNodes root maxDepth solver t states (guardNode t leaf) ∧
      acc' =
      ⟨acc.leavesTemp ++ res.live, acc.done ++ res.done, replay acc.conf states.marks, true⟩) ∨
    (satAfter acc.sat (solver leaf (.guard t)) = false ∧
      acc' = { acc with done := acc.done ++ [leaf], sat := false }) := by
  unfold tryTransition at h
  dsimp only at h
  cases hsat : satAfter acc.sat (solver leaf (.guard t)) with
  | true =>
      left
      rw [hsat, if_pos rfl] at h
      simp only [takeTransition, Option.bind_eq_bind, Option.bind_eq_some_iff, Option.pure_def,
        Option.some.injEq] at h
      obtain ⟨_, ⟨states, hstates, rfl⟩, rfl⟩ := h
      exact ⟨rfl, states, hstates, _, rfl, rfl⟩
  | false =>
      right
      rw [hsat, if_neg (by simp)] at h
      exact ⟨rfl, (Option.some.inj h).symm⟩

/-- The pairs of a round are its leaves with the outgoing transitions. -/
theorem LoopState.mem_pairs {loop : LoopState} {pair : SETNode × PlacedTransition Name} :
    pair ∈ loop.pairs ↔ pair.1 ∈ loop.leaves ∧ pair.2 ∈ loop.outTs := by
  simp only [pairs, List.mem_flatMap, List.mem_map]
  constructor
  · rintro ⟨leaf, hleaf, t, ht, rfl⟩
    exact ⟨hleaf, ht⟩
  · rintro ⟨hleaf, ht⟩
    exact ⟨_, hleaf, _, ht, rfl⟩

/-- The nodes of a round, and those before it. -/
def LoopState.nodes (loop : LoopState) : List SETNode := loop.leaves ++ loop.done

section
variable (root : State Name) (maxDepth : Int) {solver : Solver} {P : SETNode → Prop}

theorem takeTransitionNodes_preserves (hP : RoundClosed solver P) (t : PlacedTransition Name)
    (states : TransitionStates) {leaf : SETNode} (hleaf : P leaf) :
    AllNodes P (takeTransitionNodes root maxDepth solver t states leaf) := by
  have hcode := hP.toCodeClosed
  have hstart : AllNodes P ⟨[], [leaf]⟩ := ⟨by simp, by simpa using hleaf⟩
  have hexits := hstart.atEveryState (f := exitStateSym root maxDepth solver)
    (fun s l hl =>
      exitStateSym_preserves root maxDepth hcode (hP.stateExit l s hl)) states.sourceStates
  have haction := hexits.atEveryLeaf fun l hl =>
    executeAction_preserves maxDepth hcode t (hP.action l t.state t.transition.name hl)
  have hsuper := haction.atEveryState (f := enterSuperstate root maxDepth solver)
    (fun s l hl => enterSuperstate_preserves root maxDepth hcode (hP.stateEntry l s hl))
    states.destinationSuperstates
  exact hsuper.atEveryState (f := enterSubstate root maxDepth solver)
    (fun s l hl => enterSubstate_preserves root maxDepth hcode (hP.stateEntry l s hl))
    states.destinationSubstates

theorem tryTransition_preserves (hP : RoundClosed solver P) {acc acc' : RoundState} {leaf : SETNode}
    {t : PlacedTransition Name} (hacc : ∀ n ∈ acc.leavesTemp ++ acc.done, P n) (hleaf : P leaf)
    (h : tryTransition root maxDepth solver acc leaf t = some acc') :
    ∀ n ∈ acc'.leavesTemp ++ acc'.done, P n := by
  intro n hn
  rcases tryTransition_cases h with ⟨hsat, states, _, res, hres, rfl⟩ | ⟨_, rfl⟩
  · have hanswer : solver leaf (.guard t) ≠ .other := by
      intro hother
      rw [hother] at hsat
      cases hsat
    have hnodes :=
      takeTransitionNodes_preserves root maxDepth hP t states (hP.guard leaf t hleaf hanswer)
    rw [← hres] at hnodes
    simp only [List.mem_append] at hn hacc
    rcases hn with (hn | hn) | hn | hn
    · exact hacc n (.inl hn)
    · exact hnodes.live n hn
    · exact hacc n (.inr hn)
    · exact hnodes.done n hn
  · simp only [List.mem_append, List.mem_singleton] at hn hacc
    rcases hn with hn | hn | rfl
    · exact hacc n (.inl hn)
    · exact hacc n (.inr hn)
    · exact hleaf

theorem pairs_preserves (hP : RoundClosed solver P)
    {pairs : List (SETNode × PlacedTransition Name)} :
    ∀ {acc acc' : RoundState}, (∀ n ∈ acc.leavesTemp ++ acc.done, P n) →
      (∀ pair ∈ pairs, P pair.1) →
      pairs.foldlM (fun acc pair => tryTransition root maxDepth solver acc pair.1 pair.2) acc =
      some acc' →
      ∀ n ∈ acc'.leavesTemp ++ acc'.done, P n := by
  induction pairs with
  | nil =>
      intro acc acc' hacc _ hfold
      obtain rfl : acc = acc' := by simpa using hfold
      exact hacc
  | cons pair pairs ih =>
      intro acc acc' hacc hpairs hfold
      have ⟨next, hnext, hrest⟩ := Option.bind_eq_some_iff.mp hfold
      have hfirst :=
        tryTransition_preserves root maxDepth hP hacc (hpairs pair List.mem_cons_self) hnext
      exact ih hfirst (fun p hp => hpairs p (List.mem_cons_of_mem _ hp)) hrest

/-- A round passes on what the engine passes on. -/
theorem engineRound_preserves (hP : RoundClosed solver P) {maxTreeDepth : Int}
    {loop loop' : LoopState} (hloop : ∀ n ∈ loop.nodes, P n)
    (h : engineRound root maxDepth solver maxTreeDepth loop = some loop') : ∀ n ∈ loop'.nodes,
    P n := by
  have ⟨acc, hfold, hacc⟩ := Option.bind_eq_some_iff.mp h
  obtain rfl := Option.some.inj hacc
  have hleaves : ∀ pair ∈ loop.pairs, P pair.1 := fun pair hpair =>
    hloop _ (List.mem_append_left _ (LoopState.mem_pairs.mp hpair).1)
  have hstart : ∀ n ∈ (⟨[], loop.done, loop.conf, loop.sat⟩ : RoundState).leavesTemp ++ loop.done,
    P n :=
    fun n hn => hloop n (List.mem_append_right _ hn)
  have hnodes := pairs_preserves root maxDepth hP hstart hleaves hfold
  intro n hn
  refine hnodes n (List.mem_append.mpr ?_)
  simp only [LoopState.nodes, List.mem_append, List.mem_filter] at hn
  rcases hn with hn | hn | hn
  · exact .inl hn.1
  · exact .inr hn
  · exact .inl hn.1

/-- What the engine passes on holds before the main loop. -/
theorem firstRound_preserves (hP : NodeClosed solver P) {loop : LoopState}
    (h : firstRound root maxDepth solver = some loop) : ∀ n ∈ loop.nodes, P n := by
  have hstart : P (startNode root) := startNode_preserves hP.instruction hP.start
  unfold firstRound at h
  split at h
  · cases h
  · obtain rfl := Option.some.inj h
    have hloop := enterFirstStates_preserves root maxDepth solver (P := fun _ => P) (R := P)
      (fun s _ l hl => by
        have hnodes := enterSubstate_preserves root maxDepth hP.toCodeClosed (hP.stateEntry l s hl)
        exact ⟨hnodes.done, hnodes.live⟩) (firstConfiguration root) ⟨[], [startNode root]⟩ (by simp)
      (by simpa using hstart)
    intro n hn
    rcases List.mem_append.mp hn with hn | hn
    · exact hloop.2 n hn
    · exact hloop.1 n hn

/-- What the engine passes on holds for every node of every round. -/
theorem AtRound.preserves {root : State Name} {maxDepth : Int} (hP : NodeClosed solver P)
    {maxTreeDepth : Int} {Q : LoopState → Prop} {loop : LoopState}
    (h : AtRound root maxDepth solver maxTreeDepth Q loop) : ∀ n ∈ loop.nodes, P n := by
  induction h with
  | first h => exact firstRound_preserves root maxDepth hP h
  | next _ _ _ h' ih => exact engineRound_preserves root maxDepth hP.toRoundClosed ih h'

end

end Stabl
