import Stabl.Proofs.SymbolicExecution.Paths
import Stabl.SymbolicExecution.Questions

/-!
# `Stabl.Proofs.SymbolicExecution.Leaves`: statements at several leaves

The loops of `executeStatement` over the leaves keep the result of the last one, and an
expression statement has no result at all. So the results at several leaves are those at
each of them only for a while statement, which returns the leaves, and a block goes on from one
leaf after an `if`. `Explores` asks for all leaves, at every statement that an execution comes to.

Whether it comes to a statement, and with how many leaves, depends on the answers of the solver
and the limit on the depth. `Statement.losesNone` reads it off the statement, for the answer `sat`
everywhere and a far limit. That is the worst case: under other answers and limits the leaves are
fewer (`length_live_le`). So the condition is exact (`distributes_iff`).
-/

set_option autoImplicit false

namespace Stabl

/-- The node and its ancestors. -/
def SETNode.path : SETNode → List SETNode
  | .start => [.start]
  | .instruction var e p => .instruction var e p :: p.path
  | .decision value p => .decision value p :: p.path
  | .stateEntry s p => .stateEntry s p :: p.path
  | .stateExit s p => .stateExit s p :: p.path
  | .note n p => .note n p :: p.path

theorem SETNode.self_mem_path (n : SETNode) : n ∈ n.path := by
  cases n <;> simp [path]

/-- Code leads to descendants. -/
theorem SETNode.CodePath.mem_path {l n : SETNode} (h : CodePath l n) : l ∈ n.path := by
  induction h with
  | refl => exact l.self_mem_path
  | instruction var e _ ih | decision value _ ih | assume condition value _ ih =>
      exact List.mem_cons_of_mem _ ih

/-! ### Distribution over the leaves -/

section
variable (maxDepth : Int) (solver : Solver)

/-- The lists of a statement at several leaves are those at each of them, one after the
other. -/
def Distributes (s : Statement Name) (leaves : List SETNode) : Prop :=
  (executeStatementSym maxDepth solver s leaves).done =
      leaves.flatMap (fun l => (executeStatementSym maxDepth solver s [l]).done) ∧
    (executeStatementSym maxDepth solver s leaves).live =
      leaves.flatMap fun l => (executeStatementSym maxDepth solver s [l]).live

/-- Something remains of a leaf, and all of it descends from the leaf. -/
def KeepsLeaf (s : Statement Name) (l : SETNode) : Prop :=
  let res := executeStatementSym maxDepth solver s [l]
  res.done ++ res.live ≠ [] ∧ ∀ n ∈ res.done ++ res.live, l ∈ n.path

mutual

/-- The statement distributes over the leaves and loses none of them, and so does every statement
that it comes to from there: the bodies of an `if` at its two branches, and each statement of a
block at all leaves that are live before it. -/
def Explores : Statement Name → List SETNode → Prop
  | .ifStatement condition thenBody elseBody, leaves =>
    (Distributes maxDepth solver (.ifStatement condition thenBody elseBody) leaves ∧
      ∀ l ∈ leaves, KeepsLeaf maxDepth solver (.ifStatement condition thenBody elseBody) l) ∧
      ∀ l ∈ leaves,
        (solver l (.condition condition) = .sat →
          Explores thenBody [branchNode condition true l]) ∧
        (solver l (.elseCondition condition) = .sat →
          Explores elseBody [branchNode condition false l])
  | .statementList statements, leaves =>
    (Distributes maxDepth solver (.statementList statements) leaves ∧
      ∀ l ∈ leaves, KeepsLeaf maxDepth solver (.statementList statements) l) ∧
      ∀ l ∈ leaves, ExploresList statements [l]
  | s, leaves =>
    Distributes maxDepth solver s leaves ∧ ∀ l ∈ leaves, KeepsLeaf maxDepth solver s l

/-- The statements of a block, one after the other. -/
def ExploresList : List (Statement Name) → List SETNode → Prop
  | [], _ => True
  | s :: ss, leaves =>
    Explores s leaves ∧ ExploresList ss (executeStatementSym maxDepth solver s leaves).live

end

end

/-! ### Where a leaf is lost -/

namespace Statement

/-- The statement is a while statement. -/
def isWhile : Statement Name → Bool
  | .whileStatement _ _ => true
  | _ => false

mutual

/-- The number of the leaves that are live after the statement, from one leaf, when every
condition and its negation are satisfiable and the limit on the depth is far. -/
def liveLeaves : Statement Name → Nat
  | .assignmentStatement _ _ | .whileStatement _ _ => 1
  | .haltStatement | .expressionStatement _ | .skipStatement => 0
  | .ifStatement _ thenBody elseBody => thenBody.liveLeaves + elseBody.liveLeaves
  | .statementList statements => liveLeavesList statements 1

/-- The number of the leaves after the statements of a block, from `k` leaves. -/
def liveLeavesList : List (Statement Name) → (k : Nat) → Nat
  | [], k => k
  | s :: ss, k =>
    if k = 0 then 0
    else if s.isWhile then liveLeavesList ss k
    else liveLeavesList ss s.liveLeaves

end

mutual

/-- No leaf is lost: from one leaf, the statement comes to no expression statement, and in its
blocks to nothing but while statements where more than one leaf is live. -/
def losesNone : Statement Name → Bool
  | .assignmentStatement _ _ | .whileStatement _ _ | .haltStatement => true
  | .expressionStatement _ | .skipStatement => false
  | .ifStatement _ thenBody elseBody => thenBody.losesNone && elseBody.losesNone
  | .statementList statements => losesNoneList statements 1

/-- The statements of a block, from `k` leaves. -/
def losesNoneList : List (Statement Name) → (k : Nat) → Bool
  | [], _ => true
  | s :: ss, k =>
    k = 0 || s.isWhile && losesNoneList ss k ||
      (k = 1 && s.losesNone && losesNoneList ss s.liveLeaves)

end

mutual

/-- The number of the assignments in a statement. -/
def assignments : Statement Name → Nat
  | .assignmentStatement _ _ => 1
  | .haltStatement | .expressionStatement _ | .skipStatement | .whileStatement _ _ => 0
  | .ifStatement _ thenBody elseBody => thenBody.assignments + elseBody.assignments
  | .statementList statements => assignmentsList statements

def assignmentsList : List (Statement Name) → Nat
  | [] => 0
  | s :: ss => s.assignments + assignmentsList ss

end

end Statement

/-! ### The loops over the leaves -/

theorem lastResult_getLast (f : SETNode → SymbolicExecutionResult) {leaves : List SETNode}
    (h : leaves ≠ []) : lastResult f leaves = f (leaves.getLast h) := by
  obtain ⟨init, l, rfl⟩ : ∃ init l, leaves = init ++ [l] :=
    ⟨leaves.dropLast, leaves.getLast h, (List.dropLast_append_getLast h).symm⟩
  simp [lastResult, List.foldl_append]

section
variable {maxDepth : Int} {solver : Solver}

/-- A statement other than a while statement is executed at the last leaf only. -/
theorem executeStatementSym_getLast {s : Statement Name} (hs : s.isWhile = false)
    {leaves : List SETNode} (h : leaves ≠ []) :
    executeStatementSym maxDepth solver s leaves =
      executeStatementSym maxDepth solver s [leaves.getLast h] := by
  cases s with
  | whileStatement c b => simp [Statement.isWhile] at hs
  | assignmentStatement lhs rhs | haltStatement | expressionStatement e | skipStatement
  | ifStatement c t e | statementList ss =>
      simp only [executeStatementSym]
      exact lastResult_getLast _ h

theorem executeStatementSym_nil (s : Statement Name) :
    executeStatementSym maxDepth solver s [] = ⟨[], []⟩ := by
  cases s <;> rfl

/-- Without leaves the other statements of a list add nothing. -/
theorem executeStatementsSym_nil : ∀ (ss : List (Statement Name)) (done : List SETNode),
    executeStatementsSym maxDepth solver ss done [] = ⟨done, []⟩
  | [], _ => rfl
  | s :: ss, done => by
      rw [executeStatementsSym, executeStatementSym_nil, List.append_nil]
      exact executeStatementsSym_nil ss done

/-- What was done before a list of statements is done after it. -/
theorem executeStatementsSym_done : ∀ (ss : List (Statement Name)) (done leaves : List SETNode),
    executeStatementsSym maxDepth solver ss done leaves =
      ⟨done ++ (executeStatementsSym maxDepth solver ss [] leaves).done,
        (executeStatementsSym maxDepth solver ss [] leaves).live⟩
  | [], done, leaves => by simp [executeStatementsSym]
  | s :: ss, done, leaves => by
      rw [executeStatementsSym, executeStatementsSym,
        executeStatementsSym_done ss (done ++ _), executeStatementsSym_done ss ([] ++ _)]
      simp

end

/-! ### Live nodes -/

/-- Every call of the solver is answered `sat`. -/
def alwaysSat : Solver := fun _ _ => .sat

section
variable {maxDepth : Int} {solver : Solver}

/-- A live node comes from one of the leaves. -/
theorem exists_leaf_of_mem_live {s : Statement Name} {leaves : List SETNode} {n : SETNode}
    (hn : n ∈ (executeStatementSym maxDepth solver s leaves).live) :
    ∃ l ∈ leaves, n ∈ (executeStatementSym maxDepth solver s [l]).live := by
  by_cases hempty : leaves = []
  · rw [hempty, executeStatementSym_nil] at hn
    cases hn
  · cases hs : s.isWhile with
    | false =>
        rw [executeStatementSym_getLast hs hempty] at hn
        exact ⟨_, List.getLast_mem hempty, hn⟩
    | true =>
        cases s with
        | whileStatement c b => exact ⟨n, hn, List.mem_singleton.mpr rfl⟩
        | _ => cases hs

theorem live_executeIf (condition : Expression Name)
    (thenBody elseBody : SETNode → SymbolicExecutionResult) (n : SETNode) :
    (executeIf solver condition thenBody elseBody n).live =
      (executeBranch (solver n (.condition condition)) n (branchNode condition true n)
          thenBody).live ++
        (executeBranch (solver n (.elseCondition condition)) n (branchNode condition false n)
          elseBody).live := by
  unfold executeIf
  dsimp only
  split
  · rename_i hempty
    exact (List.isEmpty_iff.mp hempty).symm
  · rfl

theorem mem_executeIf_live {condition : Expression Name} {leaf n : SETNode}
    {thenBody elseBody : SETNode → SymbolicExecutionResult}
    (h : n ∈ (executeIf solver condition thenBody elseBody leaf).live) :
    n ∈ (thenBody (branchNode condition true leaf)).live ∨
      n ∈ (elseBody (branchNode condition false leaf)).live := by
  have hbranch : ∀ (answer : Answer) (branch : SETNode) (body : SETNode → SymbolicExecutionResult),
      n ∈ (executeBranch answer leaf branch body).live → n ∈ (body branch).live := by
    intro answer branch body hn
    unfold executeBranch at hn
    split at hn
    · exact hn
    · cases hn
  rw [live_executeIf, List.mem_append] at h
  exact h.imp (hbranch _ _ _) (hbranch _ _ _)

/-- What holds of the live nodes of one leaf holds of those of several leaves. -/
theorem depth_live_le_of_leaves {s : Statement Name}
    (h : ∀ l, ∀ n ∈ (executeStatementSym maxDepth solver s [l]).live,
      n.depth ≤ l.depth + s.assignments) {leaves : List SETNode} {k : Nat}
    (hleaves : ∀ l ∈ leaves, l.depth ≤ k) :
    ∀ n ∈ (executeStatementSym maxDepth solver s leaves).live, n.depth ≤ k + s.assignments := by
  intro n hn
  have ⟨l, hl, hn⟩ := exists_leaf_of_mem_live hn
  exact Nat.le_trans (h l n hn) (Nat.add_le_add_right (hleaves l hl) _)

mutual

/-- A live node has passed at most the assignments of the statement. -/
theorem depth_live_le : ∀ (s : Statement Name) (l : SETNode),
    ∀ n ∈ (executeStatementSym maxDepth solver s [l]).live, n.depth ≤ l.depth + s.assignments
  | .whileStatement _ _, l => by
      intro n hn
      exact List.mem_singleton.mp hn ▸ Nat.le_refl l.depth
  | .assignmentStatement lhs rhs, l => by
      intro n hn
      simp only [executeStatementSym, lastResult, List.foldl_cons, List.foldl_nil,
        executeAssignment] at hn
      split at hn
      · cases hn
      · rw [List.mem_singleton.mp hn]
        exact Nat.le_refl (l.depth + 1)
  | .haltStatement, l | .expressionStatement _, l | .skipStatement, l => by
      intro n hn
      cases hn
  | .ifStatement condition thenBody elseBody, l => by
      intro n hn
      rw [Statement.assignments]
      rcases mem_executeIf_live hn with hn | hn
      · have hle : n.depth ≤ l.depth + thenBody.assignments :=
          depth_live_le thenBody (branchNode condition true l) n hn
        omega
      · have hle : n.depth ≤ l.depth + elseBody.assignments :=
          depth_live_le elseBody (branchNode condition false l) n hn
        omega
  | .statementList statements, l => by
      intro n hn
      exact depthList_live_le statements (k := l.depth) (by simp) n hn

theorem depthList_live_le : ∀ (ss : List (Statement Name)) {done leaves : List SETNode} {k : Nat},
    (∀ l ∈ leaves, l.depth ≤ k) →
      ∀ n ∈ (executeStatementsSym maxDepth solver ss done leaves).live,
        n.depth ≤ k + Statement.assignmentsList ss
  | [], done, leaves, k, hleaves => hleaves
  | s :: ss, done, leaves, k, hleaves => by
      intro n hn
      have hfirst := depth_live_le_of_leaves (depth_live_le s) hleaves
      have hle := depthList_live_le ss hfirst n hn
      rw [Statement.assignmentsList]
      omega

end

end

/-! ### The number of live leaves -/

section
variable {maxDepth : Int} {solver : Solver}

theorem executeStatementSym_of_isWhile {s : Statement Name} (hs : s.isWhile = true)
    (leaves : List SETNode) : executeStatementSym maxDepth solver s leaves = ⟨[], leaves⟩ := by
  cases s with
  | whileStatement c b => simp [executeStatementSym]
  | _ => cases hs

mutual

/-- Other answers and a nearer limit leave fewer leaves live. -/
theorem length_live_le : ∀ (s : Statement Name) (l : SETNode),
    (executeStatementSym maxDepth solver s [l]).live.length ≤ s.liveLeaves
  | .whileStatement _ _, _ => Nat.le_refl 1
  | .haltStatement, _ | .expressionStatement _, _ | .skipStatement, _ => Nat.le_refl 0
  | .assignmentStatement lhs rhs, l => by
      simp only [executeStatementSym, lastResult, List.foldl_cons, List.foldl_nil,
        executeAssignment]
      split
      · exact Nat.zero_le 1
      · exact Nat.le_refl 1
  | .ifStatement condition thenBody elseBody, l => by
      have hbranch : ∀ (body : Statement Name) (branch : SETNode) (answer : Answer),
          (executeStatementSym maxDepth solver body [branch]).live.length ≤ body.liveLeaves →
            (executeBranch answer l branch fun n =>
              executeStatementSym maxDepth solver body [n]).live.length ≤ body.liveLeaves := by
        intro body branch answer hbody
        unfold executeBranch
        split
        · exact hbody
        · exact Nat.zero_le _
      simp only [executeStatementSym, lastResult, List.foldl_cons, List.foldl_nil]
      rw [live_executeIf, List.length_append]
      exact Nat.add_le_add (hbranch thenBody _ _ (length_live_le thenBody _))
        (hbranch elseBody _ _ (length_live_le elseBody _))
  | .statementList statements, l => by
      simp only [executeStatementSym, lastResult, List.foldl_cons, List.foldl_nil]
      exact lengthList_live_le statements (Nat.le_refl 1)

theorem lengthList_live_le : ∀ (ss : List (Statement Name)) {done leaves : List SETNode} {k : Nat},
    leaves.length ≤ k → (executeStatementsSym maxDepth solver ss done leaves).live.length ≤
      Statement.liveLeavesList ss k
  | [], _, _, _, h => h
  | s :: ss, done, leaves, k, h => by
      by_cases hleaves : leaves = []
      · rw [hleaves, executeStatementsSym_nil]
        exact Nat.zero_le _
      · have hk : k ≠ 0 := by
          have hpos := List.length_pos_iff.mpr hleaves
          omega
        rw [executeStatementsSym, Statement.liveLeavesList, if_neg hk]
        cases hs : s.isWhile with
        | true =>
            rw [executeStatementSym_of_isWhile hs, if_pos rfl]
            exact lengthList_live_le ss h
        | false =>
            rw [executeStatementSym_getLast hs hleaves, if_neg Bool.false_ne_true]
            exact lengthList_live_le ss (length_live_le s _)

end

mutual

/-- In the worst case there are as many. -/
theorem length_live_eq : ∀ (s : Statement Name) {l : SETNode} {k : Nat}, l.depth ≤ k →
    (k + s.assignments : Int) ≤ maxDepth →
      (executeStatementSym maxDepth alwaysSat s [l]).live.length = s.liveLeaves
  | .whileStatement _ _, _, _, _, _ => rfl
  | .haltStatement, _, _, _, _ | .expressionStatement _, _, _, _, _ | .skipStatement, _, _, _, _ =>
      rfl
  | .assignmentStatement lhs rhs, l, k, hk, hlimit => by
      have hfar : ¬ (l.depth + 1 : Int) > maxDepth := by
        simp only [Statement.assignments] at hlimit
        omega
      simp only [executeStatementSym, lastResult, List.foldl_cons, List.foldl_nil,
        executeAssignment, if_neg hfar]
      rfl
  | .ifStatement condition thenBody elseBody, l, k, hk, hlimit => by
      simp only [Statement.assignments] at hlimit
      simp only [executeStatementSym, lastResult, List.foldl_cons, List.foldl_nil]
      rw [live_executeIf, List.length_append]
      exact congrArg₂ (· + ·)
        (length_live_eq thenBody (l := branchNode condition true l) hk
          (by push_cast at hlimit ⊢; omega))
        (length_live_eq elseBody (l := branchNode condition false l) hk
          (by push_cast at hlimit ⊢; omega))
  | .statementList statements, l, k, hk, hlimit => by
      simp only [executeStatementSym, lastResult, List.foldl_cons, List.foldl_nil]
      exact lengthList_live_eq statements (by simpa using hk) hlimit

theorem lengthList_live_eq : ∀ (ss : List (Statement Name)) {done leaves : List SETNode} {k : Nat},
    (∀ l ∈ leaves, l.depth ≤ k) → (k + Statement.assignmentsList ss : Int) ≤ maxDepth →
      (executeStatementsSym maxDepth alwaysSat ss done leaves).live.length =
        Statement.liveLeavesList ss leaves.length
  | [], _, _, _, _, _ => rfl
  | s :: ss, done, leaves, k, hk, hlimit => by
      by_cases hleaves : leaves = []
      · rw [hleaves, executeStatementsSym_nil]
        rfl
      · have hne : leaves.length ≠ 0 := fun h => hleaves (List.eq_nil_of_length_eq_zero h)
        simp only [Statement.assignmentsList] at hlimit
        rw [executeStatementsSym, Statement.liveLeavesList, if_neg hne]
        cases hs : s.isWhile with
        | true =>
            rw [executeStatementSym_of_isWhile hs, if_pos rfl]
            exact lengthList_live_eq ss hk (by push_cast at hlimit ⊢; omega)
        | false =>
            have hlast := hk _ (List.getLast_mem hleaves)
            rw [if_neg Bool.false_ne_true,
              lengthList_live_eq ss (depth_live_le_of_leaves (depth_live_le s) hk)
                (by push_cast at hlimit ⊢; omega),
              executeStatementSym_getLast hs hleaves,
              length_live_eq s hlast (by push_cast at hlimit ⊢; omega)]

end

/-! ### Statements that lose no leaf -/

theorem losesNoneList_cons {s : Statement Name} {ss : List (Statement Name)} {k : Nat} :
    Statement.losesNoneList (s :: ss) k = true ↔ k = 0 ∨
      s.isWhile = true ∧ Statement.losesNoneList ss k = true ∨
      k = 1 ∧ s.losesNone = true ∧ Statement.losesNoneList ss s.liveLeaves = true := by
  simp only [Statement.losesNoneList, Bool.or_eq_true, Bool.and_eq_true, decide_eq_true_eq,
    or_assoc, and_assoc]

/-- An `if` adds its leaf where no node is live. -/
theorem nodes_executeIf_ne_nil (condition : Expression Name)
    (thenBody elseBody : SETNode → SymbolicExecutionResult) (leaf : SETNode) :
    (executeIf solver condition thenBody elseBody leaf).done ++
      (executeIf solver condition thenBody elseBody leaf).live ≠ [] := by
  unfold executeIf
  dsimp only
  split
  · simp
  · rename_i hlive
    intro hnil
    exact hlive (List.isEmpty_iff.mpr (List.append_eq_nil_iff.mp hnil).2)

mutual

/-- Some node remains of a leaf, whatever the answers and the limit are. -/
theorem nodes_ne_nil : ∀ (s : Statement Name), s.losesNone = true → ∀ l,
    (executeStatementSym maxDepth solver s [l]).done ++
      (executeStatementSym maxDepth solver s [l]).live ≠ []
  | .whileStatement _ _, _, _ => List.cons_ne_nil _ _
  | .haltStatement, _, _ => List.cons_ne_nil _ _
  | .expressionStatement _, hs, _ | .skipStatement, hs, _ => by cases hs
  | .assignmentStatement lhs rhs, _, l => by
      simp only [executeStatementSym, lastResult, List.foldl_cons, List.foldl_nil,
        executeAssignment]
      split <;> exact List.cons_ne_nil _ _
  | .ifStatement condition thenBody elseBody, _, l => by
      simp only [executeStatementSym, lastResult, List.foldl_cons, List.foldl_nil]
      exact nodes_executeIf_ne_nil condition _ _ l
  | .statementList statements, hs, l => by
      simp only [executeStatementSym, lastResult, List.foldl_cons, List.foldl_nil]
      exact nodesList_ne_nil statements (List.cons_ne_nil l []) (Nat.le_refl 1) hs

theorem nodesList_ne_nil : ∀ (ss : List (Statement Name)) {leaves : List SETNode} {k : Nat},
    leaves ≠ [] → leaves.length ≤ k → Statement.losesNoneList ss k = true →
      (executeStatementsSym maxDepth solver ss [] leaves).done ++
        (executeStatementsSym maxDepth solver ss [] leaves).live ≠ []
  | [], _, _, hleaves, _, _ => hleaves
  | s :: ss, leaves, k, hleaves, hk, hss => by
      rw [executeStatementsSym, executeStatementsSym_done]
      rcases losesNoneList_cons.mp hss with rfl | ⟨hs, hss⟩ | ⟨rfl, hs, hss⟩
      · exact absurd (List.eq_nil_of_length_eq_zero (Nat.le_zero.mp hk)) hleaves
      · rw [executeStatementSym_of_isWhile hs]
        exact nodesList_ne_nil ss hleaves hk hss
      · obtain ⟨l, rfl⟩ : ∃ l, leaves = [l] :=
          List.length_eq_one_iff.mp (Nat.le_antisymm hk (List.length_pos_iff.mpr hleaves))
        have hfirst := nodes_ne_nil s hs l
        by_cases hlive : (executeStatementSym maxDepth solver s [l]).live = []
        · rw [hlive, List.append_nil] at hfirst
          simp [hfirst]
        · have hrest := nodesList_ne_nil ss hlive (length_live_le s l) hss
          simp only [ne_eq, List.append_eq_nil_iff, not_and] at hrest ⊢
          exact fun h => hrest h.2

end

theorem keepsLeaf_of_losesNone {s : Statement Name} (hs : s.losesNone = true) (l : SETNode) :
    KeepsLeaf maxDepth solver s l := by
  refine ⟨nodes_ne_nil s hs l, fun n hn => ?_⟩
  have hpath : AllNodes (SETNode.CodePath l) (executeStatementSym maxDepth solver s [l]) :=
    executeStatementSym_preserves (codePath_codeClosed solver l) s (by
      intro m hm
      exact List.mem_singleton.mp hm ▸ .refl)
  rcases List.mem_append.mp hn with hn | hn
  · exact (hpath.done n hn).mem_path
  · exact (hpath.live n hn).mem_path

/-! ### When all leaves are explored -/

theorem distributes_singleton (s : Statement Name) (l : SETNode) :
    Distributes maxDepth solver s [l] := ⟨by simp, by simp⟩

theorem explores_nil (s : Statement Name) : Explores maxDepth solver s [] := by
  have hdistributes : Distributes maxDepth solver s [] := by
    rw [Distributes, executeStatementSym_nil]
    exact ⟨rfl, rfl⟩
  cases s with
  | ifStatement _ _ _ | statementList _ =>
      exact ⟨⟨hdistributes, List.forall_mem_nil _⟩, List.forall_mem_nil _⟩
  | assignmentStatement _ _ | whileStatement _ _ | haltStatement | expressionStatement _
  | skipStatement => exact ⟨hdistributes, List.forall_mem_nil _⟩

theorem exploresList_nil (ss : List (Statement Name)) : ExploresList maxDepth solver ss [] := by
  induction ss with
  | nil => trivial
  | cons s ss ih =>
      rw [ExploresList, executeStatementSym_nil]
      exact ⟨explores_nil s, ih⟩

theorem explores_of_isWhile {s : Statement Name} (hs : s.isWhile = true) (leaves : List SETNode) :
    Explores maxDepth solver s leaves := by
  cases s with
  | whileStatement c b =>
      exact ⟨⟨by simp [executeStatementSym], by simp [executeStatementSym]⟩,
        fun l _ => keepsLeaf_of_losesNone rfl l⟩
  | _ => cases hs

mutual

/-- From one leaf, the statement explores all leaves that it comes to. -/
theorem explores_of_losesNone : ∀ (s : Statement Name), s.losesNone = true → ∀ l,
    Explores maxDepth solver s [l]
  | .assignmentStatement lhs rhs, hs, l =>
      ⟨distributes_singleton _ l, List.forall_mem_singleton.mpr (keepsLeaf_of_losesNone hs l)⟩
  | .whileStatement _ _, hs, l =>
      ⟨distributes_singleton _ l, List.forall_mem_singleton.mpr (keepsLeaf_of_losesNone hs l)⟩
  | .haltStatement, hs, l =>
      ⟨distributes_singleton _ l, List.forall_mem_singleton.mpr (keepsLeaf_of_losesNone hs l)⟩
  | .expressionStatement _, hs, _ | .skipStatement, hs, _ => by cases hs
  | .ifStatement condition thenBody elseBody, hs, l => by
      have hbodies : thenBody.losesNone = true ∧ elseBody.losesNone = true :=
        Bool.and_eq_true_iff.mp hs
      exact ⟨⟨distributes_singleton _ l,
          List.forall_mem_singleton.mpr (keepsLeaf_of_losesNone hs l)⟩,
        List.forall_mem_singleton.mpr ⟨fun _ => explores_of_losesNone thenBody hbodies.1 _,
          fun _ => explores_of_losesNone elseBody hbodies.2 _⟩⟩
  | .statementList statements, hs, l =>
      ⟨⟨distributes_singleton _ l, List.forall_mem_singleton.mpr (keepsLeaf_of_losesNone hs l)⟩,
        List.forall_mem_singleton.mpr (exploresList_of_losesNone statements (Nat.le_refl 1) hs)⟩

theorem exploresList_of_losesNone : ∀ (ss : List (Statement Name)) {leaves : List SETNode}
    {k : Nat}, leaves.length ≤ k → Statement.losesNoneList ss k = true →
      ExploresList maxDepth solver ss leaves
  | [], _, _, _, _ => trivial
  | s :: ss, leaves, k, hk, hss => by
      by_cases hleaves : leaves = []
      · rw [hleaves]
        exact exploresList_nil (s :: ss)
      · rcases losesNoneList_cons.mp hss with rfl | ⟨hs, hss⟩ | ⟨rfl, hs, hss⟩
        · exact absurd (List.eq_nil_of_length_eq_zero (Nat.le_zero.mp hk)) hleaves
        · rw [ExploresList, executeStatementSym_of_isWhile hs]
          exact ⟨explores_of_isWhile hs leaves, exploresList_of_losesNone ss hk hss⟩
        · obtain ⟨l, rfl⟩ : ∃ l, leaves = [l] :=
            List.length_eq_one_iff.mp (Nat.le_antisymm hk (List.length_pos_iff.mpr hleaves))
          exact ⟨explores_of_losesNone s hs l,
            exploresList_of_losesNone ss (length_live_le s l) hss⟩

end

/-- The statement itself distributes over the leaves and loses none. -/
theorem Explores.distributes {s : Statement Name} {leaves : List SETNode}
    (h : Explores maxDepth solver s leaves) :
    Distributes maxDepth solver s leaves ∧ ∀ l ∈ leaves, KeepsLeaf maxDepth solver s l := by
  cases s with
  | ifStatement _ _ _ | statementList _ => exact h.1
  | assignmentStatement _ _ | whileStatement _ _ | haltStatement | expressionStatement _
  | skipStatement => exact h

/-- Where nodes remain of every leaf, the lists of more than one leaf are longer than those of
the last leaf alone. -/
theorem not_distributes {s : Statement Name} (hs : s.isWhile = false) {l : SETNode}
    {leaves : List SETNode} (hleaves : leaves ≠ []) (hkeeps : KeepsLeaf maxDepth solver s l) :
    ¬ Distributes maxDepth solver s (l :: leaves) := by
  intro ⟨hdone, hlive⟩
  obtain ⟨init, m, rfl⟩ : ∃ init m, leaves = init ++ [m] :=
    ⟨leaves.dropLast, leaves.getLast hleaves, (List.dropLast_append_getLast hleaves).symm⟩
  have hlast : executeStatementSym maxDepth solver s (l :: (init ++ [m])) =
      executeStatementSym maxDepth solver s [m] := by
    rw [executeStatementSym_getLast hs (List.cons_ne_nil _ _), List.getLast_cons (by simp),
      List.getLast_append_singleton]
  rw [hlast, List.flatMap_cons, List.flatMap_append] at hdone hlive
  -- The result at `l` is counted on the right only, so it has no nodes.
  have hdone' := congrArg List.length hdone
  have hlive' := congrArg List.length hlive
  simp only [List.length_append, List.flatMap_cons, List.flatMap_nil, List.append_nil]
    at hdone' hlive'
  have hnone : (executeStatementSym maxDepth solver s [l]).done = [] ∧
      (executeStatementSym maxDepth solver s [l]).live = [] :=
    ⟨List.eq_nil_of_length_eq_zero (by omega), List.eq_nil_of_length_eq_zero (by omega)⟩
  exact hkeeps.1 (by rw [hnone.1, hnone.2]; rfl)

/-- So such a statement is executed at one leaf. -/
theorem Explores.exists_eq_singleton {s : Statement Name} (hs : s.isWhile = false)
    {leaves : List SETNode} (hleaves : leaves ≠ []) (h : Explores maxDepth solver s leaves) :
    ∃ l, leaves = [l] := by
  obtain ⟨l, rest, rfl⟩ := List.exists_cons_of_ne_nil hleaves
  have ⟨hdistributes, hkeeps⟩ := h.distributes
  by_cases hrest : rest = []
  · exact ⟨l, by rw [hrest]⟩
  · exact absurd hdistributes (not_distributes hs hrest (hkeeps l List.mem_cons_self))

mutual

/-- In the worst case the statement comes to every place where a leaf can be lost. -/
theorem losesNone_of_explores : ∀ (s : Statement Name) {l : SETNode} {k : Nat}, l.depth ≤ k →
    (k + s.assignments : Int) ≤ maxDepth → Explores maxDepth alwaysSat s [l] →
      s.losesNone = true
  | .assignmentStatement _ _, _, _, _, _, _ | .whileStatement _ _, _, _, _, _, _
  | .haltStatement, _, _, _, _, _ => rfl
  | .expressionStatement _, l, _, _, _, h | .skipStatement, l, _, _, _, h =>
      absurd rfl (h.2 l List.mem_cons_self).1
  | .ifStatement condition thenBody elseBody, l, k, hk, hlimit, h => by
      have ⟨hthen, helse⟩ := h.2 l List.mem_cons_self
      simp only [Statement.assignments] at hlimit
      rw [Statement.losesNone, Bool.and_eq_true]
      exact ⟨losesNone_of_explores thenBody (l := branchNode condition true l) hk
          (by push_cast at hlimit ⊢; omega) (hthen rfl),
        losesNone_of_explores elseBody (l := branchNode condition false l) hk
          (by push_cast at hlimit ⊢; omega) (helse rfl)⟩
  | .statementList statements, l, k, hk, hlimit, h =>
      losesNoneList_of_explores statements (List.forall_mem_singleton.mpr hk) hlimit
        (h.2 l List.mem_cons_self)

theorem losesNoneList_of_explores : ∀ (ss : List (Statement Name)) {leaves : List SETNode}
    {k : Nat}, (∀ l ∈ leaves, l.depth ≤ k) →
      (k + Statement.assignmentsList ss : Int) ≤ maxDepth →
        ExploresList maxDepth alwaysSat ss leaves →
          Statement.losesNoneList ss leaves.length = true
  | [], _, _, _, _, _ => rfl
  | s :: ss, leaves, k, hk, hlimit, h => by
      simp only [Statement.assignmentsList] at hlimit
      rw [ExploresList] at h
      rw [losesNoneList_cons]
      by_cases hleaves : leaves = []
      · exact Or.inl (List.length_eq_zero_iff.mpr hleaves)
      · cases hs : s.isWhile with
        | true =>
            rw [executeStatementSym_of_isWhile hs] at h
            exact Or.inr (Or.inl ⟨rfl,
              losesNoneList_of_explores ss hk (by push_cast at hlimit ⊢; omega) h.2⟩)
        | false =>
            obtain ⟨l, rfl⟩ := h.1.exists_eq_singleton hs hleaves
            have hl : l.depth ≤ k := hk l List.mem_cons_self
            have hfirst := losesNone_of_explores s hl (by push_cast at hlimit ⊢; omega) h.1
            have hrest := losesNoneList_of_explores ss
              (depth_live_le_of_leaves (depth_live_le s) hk) (by push_cast at hlimit ⊢; omega) h.2
            rw [length_live_eq s hl (by push_cast at hlimit ⊢; omega)] at hrest
            exact Or.inr (Or.inr ⟨rfl, hfirst, hrest⟩)

end

end

/-- Under every limit and every solver, a statement distributes over a list of leaves and loses
none of them, and so does every statement that it comes to, exactly when it is a while statement,
or the list is empty, or there is one leaf, from which the statement loses none. -/
theorem distributes_iff (s : Statement Name) (leaves : List SETNode) :
    (∀ maxDepth solver, Explores maxDepth solver s leaves) ↔
      s.isWhile = true ∨ leaves = [] ∨ leaves.length = 1 ∧ s.losesNone = true := by
  constructor
  · intro h
    cases hs : s.isWhile with
    | true => exact Or.inl rfl
    | false =>
        by_cases hleaves : leaves = []
        · exact Or.inr (Or.inl hleaves)
        · obtain ⟨l, rfl⟩ := (h 0 alwaysSat).exists_eq_singleton hs hleaves
          exact Or.inr (Or.inr ⟨rfl, losesNone_of_explores s (Nat.le_refl l.depth)
            (Int.le_refl (l.depth + s.assignments)) (h _ alwaysSat)⟩)
  · rintro (hs | rfl | ⟨hone, hs⟩) maxDepth solver
    · exact explores_of_isWhile hs leaves
    · exact explores_nil s
    · obtain ⟨l, rfl⟩ := List.length_eq_one_iff.mp hone
      exact explores_of_losesNone s hs l

/-! ### A fork -/

/-- The entry code is `if (x = 0) { x := 1; } else { x := 2; }; x := 3;`. -/
def fork : Statechart where
  root := { plainState "Fork" with
    declarations := ⟨[integerVariable "x" .localScope], List.nodup_singleton "x"⟩
    entry := .statementList [
      .ifStatement (.binaryExpression (.name ["x"]) (.constant (.integerConstant 0)) .eq)
        (.statementList [.assignmentStatement ["x"] (.constant (.integerConstant 1))])
        (.statementList [.assignmentStatement ["x"] (.constant (.integerConstant 2))]),
      .assignmentStatement ["x"] (.constant (.integerConstant 3))]
    states := [plainState "Inside"] }
  moreTypes := []
  events := []
  functionDeclarations := []
  initialised := by decide

/-- At two leaves the entry code has the result of the second leaf. At one leaf, `x := 3` comes
to the two leaves of the bodies and is executed at the second one only. -/
theorem not_distributes_fork :
    (typecheck fork).isOk = true ∧
    ¬ Distributes 20 alwaysSat ((accepted fork).root.entryAt []) [.start, .stateEntry [] .start] ∧
    (executeStatementSym 20 alwaysSat ((accepted fork).root.entryAt []) [.start]).live.length =
      1 ∧
    ¬ Explores 20 alwaysSat ((accepted fork).root.entryAt []) [.start] := by
  refine ⟨by decide, fun h => ?_, by decide, fun h => ?_⟩
  · have hlength := congrArg List.length h.2
    revert hlength
    decide
  · -- The second statement of the block, at the two leaves after the first one.
    have hassignment := ((h.2 .start List.mem_cons_self).2.1).1
    have hlength := congrArg List.length hassignment.2
    revert hlength
    decide

end Stabl
