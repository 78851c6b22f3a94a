import Stabl.Lib.Forest
import Stabl.Proofs.SymbolicExecution.Leaves

/-!
# `Stabl.Proofs.SymbolicExecution.Frontier`: done and live nodes

An if adds its leaf to the nodes that are done for every answer other than `sat`, and once
more when no node is live. A round adds a leaf for every transition whose guard is not
satisfiable. Where this does not happen, the nodes that are done and those that are live are
an antichain of the tree: each step makes leaves grow, and growing keeps antichains
(`Stabl.Lib.Forest`).

Ghost nodes are not nodes of the source. So two nodes are the same, or one is an ancestor of
the other, when this holds of the nodes of the source at which they stand (`SETNode.real`).
-/

set_option autoImplicit false

namespace Stabl

open Forest

/-! ### The tree -/

namespace SETNode

/-- The node of the source at which a node stands. -/
def real : SETNode → SETNode
  | .note _ p => p.real
  | n => n

/-- The same node of the source, or an ancestor of it. -/
def Above (a b : SETNode) : Prop := a.real ∈ b.path

theorem mem_path_iff {m n : SETNode} : m ∈ n.path ↔ m.path <:+ n.path := by
  constructor
  · intro h
    induction n with
    | start => rw [List.mem_singleton.mp h]
    | instruction v e p ih | decision v p ih | stateEntry s p ih | stateExit s p ih
    | note k p ih =>
        rcases List.mem_cons.mp h with rfl | h
        · exact List.suffix_rfl
        · exact (ih h).trans (List.suffix_cons _ _)
  · intro h
    exact h.subset m.self_mem_path

theorem path_injective {m n : SETNode} (h : m.path = n.path) : m = n := by
  cases m <;> cases n <;> simp_all [path]

theorem mem_path_trans {a b c : SETNode} (hab : a ∈ b.path) (hbc : b ∈ c.path) : a ∈ c.path :=
  mem_path_iff.mpr ((mem_path_iff.mp hab).trans (mem_path_iff.mp hbc))

/-- The ancestors of a node are comparable. -/
theorem mem_path_linear {a b c : SETNode} (ha : a ∈ c.path) (hb : b ∈ c.path) :
    a ∈ b.path ∨ b ∈ a.path := by
  rw [mem_path_iff, mem_path_iff]
  exact List.suffix_or_suffix_of_suffix (mem_path_iff.mp ha) (mem_path_iff.mp hb)

theorem real_mem_path (n : SETNode) : n.real ∈ n.path := by
  induction n with
  | note k p ih => exact List.mem_cons_of_mem _ ih
  | start => exact List.mem_cons_self
  | instruction v e p | decision v p | stateEntry s p | stateExit s p => exact List.mem_cons_self

/-- Ghosts at the end of a path are not nodes of the source. -/
theorem mem_path_real {a n : SETNode} (h : a.real ∈ n.path) : a.real ∈ n.real.path := by
  induction n with
  | note k p ih =>
      rcases List.mem_cons.mp h with heq | h
      · -- A node of the source is no ghost.
        exfalso
        clear h ih
        induction a with
        | note k' q ih => exact ih heq
        | start | instruction v e q | decision v q | stateEntry s q | stateExit s q => cases heq
      · exact ih h
  | start => exact h
  | instruction v e p | decision v p | stateEntry s p | stateExit s p => exact h

theorem above_of_mem_path {a n : SETNode} (h : a ∈ n.path) : a.Above n :=
  mem_path_trans a.real_mem_path h

theorem isForest_above : IsForest Above where
  refl := real_mem_path
  trans := fun hab hbc => mem_path_trans (mem_path_real hab) hbc
  linear := fun {a b _} hac hbc => by
    rcases mem_path_linear hac hbc with hab | hba
    · exact Or.inl (mem_path_trans hab b.real_mem_path)
    · exact Or.inr (mem_path_trans hba a.real_mem_path)

/-- An ancestor with a smaller depth in the tree is an ancestor of the node of the source. -/
theorem mem_path_real_of_deeper {m n : SETNode} (h : m ∈ n.path)
    (hdeep : m.treedepth < n.treedepth) :
    m ∈ n.real.path := by
  induction n with
  | note k p ih =>
      rcases List.mem_cons.mp h with rfl | h
      · exact absurd hdeep (Nat.lt_irrefl _)
      · exact ih h hdeep
  | start => exact h
  | instruction v e p | decision v p | stateEntry s p | stateExit s p => exact h

/-- No ancestor is longer than the node. -/
theorem length_path_le {m n : SETNode} (h : m ∈ n.path) : m.path.length ≤ n.path.length :=
  (mem_path_iff.mp h).length_le

/-- Siblings that differ are apart. -/
theorem apart_of_length {m n : SETNode} (hm : m.real = m) (hn : n.real = n) (hne : m ≠ n)
    (hlength : m.path.length = n.path.length) : Apart Above m n := by
  have hno : ∀ {a b : SETNode}, a.path.length = b.path.length → a ≠ b → ¬ a ∈ b.path := by
    intro a b hab hne h
    exact hne (path_injective ((mem_path_iff.mp h).eq_of_length hab))
  constructor
  · intro h
    rw [Above, hm] at h
    exact hno hlength hne h
  · intro h
    rw [Above, hn] at h
    exact hno hlength.symm hne.symm h

end SETNode

/-! ### Frontiers and antichains -/

/-- No node is listed twice, and no node that is done is an ancestor of another one. -/
structure Frontier (done live : List SETNode) : Prop where
  once : ((done ++ live).map SETNode.real).Nodup
  unexplored : ∀ d ∈ done, ∀ n ∈ done ++ live, d.real ∈ n.real.path → d.real = n.real

/-- The nodes of a result are an antichain of the tree. -/
def SymbolicExecutionResult.Apart (res : SymbolicExecutionResult) : Prop :=
  Antichain SETNode.Above (res.done ++ res.live)

theorem frontier_of_antichain {done live : List SETNode}
    (h : Antichain SETNode.Above (done ++ live)) : Frontier done live where
  once := by
    refine List.pairwise_map.mpr (List.Pairwise.imp ?_ h)
    intro a b hab heq
    exact hab.1 (by rw [SETNode.Above, heq]; exact b.real_mem_path)
  unexplored := by
    intro d hd n hn hpath
    have hdn : d.Above n := SETNode.mem_path_trans hpath n.real_mem_path
    exact congrArg SETNode.real (h.eq_of_le (List.mem_append_left _ hd) hn hdn)

/-! ### Ifs -/

/-- The end of `executeIf`: the lists of the two halves, and the leaf when no node is live. -/
def mergeHalves (leaf : SETNode) (res₁ res₂ : SymbolicExecutionResult) : SymbolicExecutionResult :=
  if (res₁.live ++ res₂.live).isEmpty then ⟨res₁.done ++ res₂.done ++ [leaf], []⟩
  else ⟨res₁.done ++ res₂.done, res₁.live ++ res₂.live⟩

/-- `executeIf` does not add the leaf: both answers are `sat`, and a node is live after the
bodies, unless nothing is done after them either. -/
structure IfKeeps (solver : Solver) (condition : Expression Name) (leaf : SETNode)
    (res₁ res₂ : SymbolicExecutionResult) : Prop where
  thenSat : solver leaf (.condition condition) = .sat
  elseSat : solver leaf (.elseCondition condition) = .sat
  live : res₁.live ++ res₂.live = [] → res₁.done ++ res₂.done = []

section
variable {solver : Solver} {condition : Expression Name} {leaf : SETNode}
  {thenBody elseBody : SETNode → SymbolicExecutionResult} {res₁ res₂ : SymbolicExecutionResult}

theorem executeIf_eq :
    executeIf solver condition thenBody elseBody leaf =
      mergeHalves leaf
        (executeBranch (solver leaf (.condition condition)) leaf (branchNode condition true leaf)
          thenBody)
        (executeBranch (solver leaf (.elseCondition condition)) leaf
          (branchNode condition false leaf) elseBody) := rfl

theorem executeIf_of_sat (hthen : solver leaf (.condition condition) = .sat)
    (helse : solver leaf (.elseCondition condition) = .sat) :
    executeIf solver condition thenBody elseBody leaf =
      mergeHalves leaf (thenBody (branchNode condition true leaf))
        (elseBody (branchNode condition false leaf)) := by
  rw [executeIf_eq, executeBranch, executeBranch, if_pos hthen, if_pos helse]

theorem branchNode_apart (condition : Expression Name) (leaf : SETNode) :
    Apart SETNode.Above (branchNode condition true leaf) (branchNode condition false leaf) := by
  refine SETNode.apart_of_length rfl rfl ?_ rfl
  intro h
  simp [branchNode] at h

/-- The nodes of a result below one of the branches. -/
def BelowBranch (condition : Expression Name) (v : Bool) (leaf : SETNode) :
    SymbolicExecutionResult → Prop :=
  AllNodes fun n => branchNode condition v leaf ∈ n.path

theorem AllNodes.mem {P : SETNode → Prop} {res : SymbolicExecutionResult} (h : AllNodes P res)
    {n : SETNode} (hn : n ∈ res.done ++ res.live) : P n :=
  (List.mem_append.mp hn).elim (h.done n) (h.live n)

/-- What is below the two branches is apart. -/
theorem apart_of_branches (h₁ : BelowBranch condition true leaf res₁)
    (h₂ : BelowBranch condition false leaf res₂) :
    ∀ m ∈ res₁.done ++ res₁.live, ∀ n ∈ res₂.done ++ res₂.live, Apart SETNode.Above m n := by
  intro m hm n hn
  have hbranch := branchNode_apart condition leaf
  exact hbranch.below_both SETNode.isForest_above (SETNode.above_of_mem_path (h₁.mem hm))
    (SETNode.above_of_mem_path (h₂.mem hn))

/-- The leaf is a proper ancestor of what is below a branch. -/
theorem real_ne_of_branchNode {v : Bool} {n : SETNode} (h : branchNode condition v leaf ∈ n.path) :
    leaf.real ∈ n.real.path ∧ leaf.real ≠ n.real := by
  have hreal : branchNode condition v leaf ∈ n.real.path :=
    SETNode.mem_path_real (a := branchNode condition v leaf) h
  have hbranch : leaf.real ∈ (branchNode condition v leaf).path :=
    SETNode.mem_path_trans leaf.real_mem_path
      (List.mem_cons_of_mem _ (List.mem_cons_of_mem _ leaf.self_mem_path))
  refine ⟨SETNode.mem_path_trans hbranch hreal, ?_⟩
  intro heq
  rw [← heq] at hreal
  have hlength := SETNode.length_path_le (SETNode.mem_path_trans hreal leaf.real_mem_path)
  simp only [branchNode, SETNode.path, List.length_cons] at hlength
  omega

/-- In a frontier, nothing is below a leaf that is done. -/
theorem Frontier.not_branchNode {done live : List SETNode} (h : Frontier done live)
    (hleaf : leaf ∈ done) {v : Bool} {n : SETNode} (hn : n ∈ done ++ live) :
    branchNode condition v leaf ∉ n.path := by
  intro hbranch
  have ⟨hpath, hne⟩ := real_ne_of_branchNode hbranch
  exact hne (h.unexplored leaf hleaf n hn hpath)

/-- Where the leaf is done in one of the halves, it is listed twice, or it is an ancestor of a
live node. -/
theorem not_frontier_of_leaf (condition : Expression Name)
    (hbelow : ∀ n ∈ res₁.live ++ res₂.live, ∃ v, branchNode condition v leaf ∈ n.path)
    (hleaf : leaf ∈ res₁.done ++ res₂.done) :
    ¬ Frontier (mergeHalves leaf res₁ res₂).done (mergeHalves leaf res₁ res₂).live := by
  unfold mergeHalves
  split
  · intro h
    have honce := h.once
    rw [List.append_nil, List.map_append, List.nodup_append] at honce
    have hmem : leaf.real ∈ (res₁.done ++ res₂.done).map SETNode.real := List.mem_map_of_mem hleaf
    exact honce.2.2 _ hmem _ List.mem_cons_self rfl
  · rename_i hlive
    intro h
    have ⟨n, hn⟩ : ∃ n, n ∈ res₁.live ++ res₂.live :=
      List.exists_mem_of_ne_nil _ (by simpa using hlive)
    have ⟨v, hv⟩ := hbelow n hn
    exact h.not_branchNode hleaf (List.mem_append_right _ hn) hv

/-- A half whose answer is not `sat` has the leaf in its result. -/
theorem executeBranch_cases (answer : Answer) (leaf branch : SETNode)
    (body : SETNode → SymbolicExecutionResult) :
    (answer = .sat ∧ executeBranch answer leaf branch body = body branch) ∨
      (answer ≠ .sat ∧ executeBranch answer leaf branch body = ⟨[leaf], []⟩) := by
  rw [executeBranch]
  split
  · rename_i hsat
    exact Or.inl ⟨hsat, rfl⟩
  · rename_i hsat
    exact Or.inr ⟨hsat, rfl⟩

/-- An if whose result is a frontier does not add its leaf. -/
theorem ifKeeps_of_frontier
    (hthen : BelowBranch condition true leaf (thenBody (branchNode condition true leaf)))
    (helse : BelowBranch condition false leaf (elseBody (branchNode condition false leaf)))
    (h : Frontier (executeIf solver condition thenBody elseBody leaf).done
      (executeIf solver condition thenBody elseBody leaf).live) :
    IfKeeps solver condition leaf (thenBody (branchNode condition true leaf))
      (elseBody (branchNode condition false leaf)) := by
  rw [executeIf_eq] at h
  rcases executeBranch_cases (solver leaf (.condition condition)) leaf
    (branchNode condition true leaf) thenBody with ⟨hsat, hres⟩ | ⟨_, hres⟩
  · rcases executeBranch_cases (solver leaf (.elseCondition condition)) leaf
      (branchNode condition false leaf) elseBody with ⟨hsat', hres'⟩ | ⟨_, hres'⟩
    · refine ⟨hsat, hsat', fun hlive => ?_⟩
      -- Without live nodes `executeIf` adds the leaf, and what the bodies have done is below it.
      rw [hres, hres', mergeHalves, if_pos (List.isEmpty_iff.mpr hlive)] at h
      by_contra hne
      have ⟨n, hn⟩ := List.exists_mem_of_ne_nil _ hne
      have hleaf : leaf ∈ (thenBody (branchNode condition true leaf)).done ++
          (elseBody (branchNode condition false leaf)).done ++ [leaf] := by simp
      have hn' := List.mem_append_left [] (List.mem_append_left [leaf] hn)
      rcases List.mem_append.mp hn with hn | hn
      · exact h.not_branchNode hleaf hn' (hthen.done n hn)
      · exact h.not_branchNode hleaf hn' (helse.done n hn)
    · rw [hres, hres'] at h
      refine absurd h (not_frontier_of_leaf condition ?_ (by simp))
      intro n hn
      exact ⟨true, hthen.live n (by simpa using hn)⟩
  · -- The then half is the leaf, so the live nodes are those of the else half.
    rw [hres] at h
    refine absurd h (not_frontier_of_leaf condition ?_ (by simp))
    intro n hn
    rcases executeBranch_cases (solver leaf (.elseCondition condition)) leaf
      (branchNode condition false leaf) elseBody with ⟨_, hres'⟩ | ⟨_, hres'⟩
    · rw [hres'] at hn
      exact ⟨false, helse.live n (by simpa using hn)⟩
    · rw [hres'] at hn
      cases hn

/-- The lists of two results, in another order. -/
theorem append_four_perm (a b c d : List SETNode) :
    (a ++ c ++ (b ++ d)).Perm ((a ++ b) ++ (c ++ d)) := by
  rw [List.append_assoc, List.append_assoc]
  refine List.Perm.append_left a ?_
  rw [← List.append_assoc, ← List.append_assoc]
  exact List.perm_append_comm.append_right d

/-- Both bodies grow below nodes that are apart. -/
theorem executeIf_apart
    (hkeeps : IfKeeps solver condition leaf (thenBody (branchNode condition true leaf))
      (elseBody (branchNode condition false leaf)))
    (hthen : (thenBody (branchNode condition true leaf)).Apart)
    (helse : (elseBody (branchNode condition false leaf)).Apart)
    (hthen' : BelowBranch condition true leaf (thenBody (branchNode condition true leaf)))
    (helse' : BelowBranch condition false leaf (elseBody (branchNode condition false leaf))) :
    (executeIf solver condition thenBody elseBody leaf).Apart := by
  rw [executeIf_of_sat hkeeps.thenSat hkeeps.elseSat, mergeHalves]
  split
  · rename_i hempty
    have hdone := hkeeps.live (List.isEmpty_iff.mp hempty)
    rw [hdone]
    exact List.pairwise_singleton _ _
  · refine Antichain.perm ?_ (append_four_perm _ _ _ _).symm
    exact antichain_append.mpr ⟨hthen, helse, apart_of_branches hthen' helse'⟩

/-- Two results whose nodes are apart. -/
theorem frontier_append_iff
    (hapart : ∀ m ∈ res₁.done ++ res₁.live, ∀ n ∈ res₂.done ++ res₂.live,
      Apart SETNode.Above m n) :
    Frontier (res₁.done ++ res₂.done) (res₁.live ++ res₂.live) ↔
      Frontier res₁.done res₁.live ∧ Frontier res₂.done res₂.live := by
  have honce : ((res₁.done ++ res₂.done ++ (res₁.live ++ res₂.live)).map SETNode.real).Nodup ↔
      ((res₁.done ++ res₁.live ++ (res₂.done ++ res₂.live)).map SETNode.real).Nodup :=
    ((append_four_perm _ _ _ _).map _).nodup_iff
  have hno : ∀ {m n : SETNode}, Apart SETNode.Above m n → m.real ∉ n.real.path := by
    intro m n h hpath
    exact h.1 (SETNode.mem_path_trans hpath n.real_mem_path)
  constructor
  · intro h
    have hnodup := honce.mp h.once
    rw [List.map_append, List.nodup_append] at hnodup
    refine ⟨⟨hnodup.1, fun d hd n hn => ?_⟩, ⟨hnodup.2.1, fun d hd n hn => ?_⟩⟩
    · exact h.unexplored d (List.mem_append_left _ hd) n
        ((append_four_perm _ _ _ _).mem_iff.mpr (List.mem_append_left _ hn))
    · exact h.unexplored d (List.mem_append_right _ hd) n
        ((append_four_perm _ _ _ _).mem_iff.mpr (List.mem_append_right _ hn))
  · intro ⟨h₁, h₂⟩
    constructor
    · refine honce.mpr ?_
      rw [List.map_append, List.nodup_append]
      refine ⟨h₁.once, h₂.once, ?_⟩
      intro x hx y hy heq
      -- A node of both results would be its own ancestor.
      have ⟨m, hm, hmx⟩ := List.mem_map.mp hx
      have ⟨n, hn, hny⟩ := List.mem_map.mp hy
      have hsame : m.real = n.real := by rw [hmx, heq, hny]
      exact hno (hapart m hm n hn) (hsame ▸ m.real.self_mem_path)
    · intro d hd n hn hpath
      have hn := (append_four_perm _ _ _ _).mem_iff.mp hn
      rcases List.mem_append.mp hd with hd | hd
      · rcases List.mem_append.mp hn with hn | hn
        · exact h₁.unexplored d hd n hn hpath
        · exact absurd hpath (hno (hapart d (List.mem_append_left _ hd) n hn))
      · rcases List.mem_append.mp hn with hn | hn
        · exact absurd hpath (hno (hapart n hn d (List.mem_append_left _ hd)).symm)
        · exact h₂.unexplored d hd n hn hpath

theorem frontier_nil_live (l : SETNode) : Frontier [l] [] where
  once := List.nodup_singleton _
  unexplored := by
    intro d hd n hn _
    rw [List.mem_singleton.mp hd, List.mem_singleton.mp hn]

theorem frontier_nil : Frontier [] [] := ⟨List.nodup_nil, fun _ hd => absurd hd List.not_mem_nil⟩

/-- The result of an if is a frontier exactly when the if does not add its leaf, and the results
of its bodies are frontiers. -/
theorem frontier_executeIf (thenBody elseBody : SETNode → SymbolicExecutionResult)
    (hthen : BelowBranch condition true leaf (thenBody (branchNode condition true leaf)))
    (helse : BelowBranch condition false leaf (elseBody (branchNode condition false leaf))) :
    Frontier (executeIf solver condition thenBody elseBody leaf).done
        (executeIf solver condition thenBody elseBody leaf).live ↔
      IfKeeps solver condition leaf (thenBody (branchNode condition true leaf))
          (elseBody (branchNode condition false leaf)) ∧
        Frontier (thenBody (branchNode condition true leaf)).done
          (thenBody (branchNode condition true leaf)).live ∧
        Frontier (elseBody (branchNode condition false leaf)).done
          (elseBody (branchNode condition false leaf)).live := by
  have happend := frontier_append_iff (apart_of_branches hthen helse)
  constructor
  · intro h
    have hkeeps := ifKeeps_of_frontier hthen helse h
    refine ⟨hkeeps, ?_⟩
    rw [executeIf_of_sat hkeeps.thenSat hkeeps.elseSat, mergeHalves] at h
    split at h
    · rename_i hempty
      have hlive := List.isEmpty_iff.mp hempty
      have ⟨hl₁, hl₂⟩ := List.append_eq_nil_iff.mp hlive
      have ⟨hd₁, hd₂⟩ := List.append_eq_nil_iff.mp (hkeeps.live hlive)
      rw [hl₁, hl₂, hd₁, hd₂]
      exact ⟨frontier_nil, frontier_nil⟩
    · exact happend.mp h
  · intro ⟨hkeeps, hfrontiers⟩
    rw [executeIf_of_sat hkeeps.thenSat hkeeps.elseSat, mergeHalves]
    split
    · rename_i hempty
      rw [hkeeps.live (List.isEmpty_iff.mp hempty)]
      exact frontier_nil_live leaf
    · exact happend.mpr hfrontiers

end

/-! ### Statements -/

section
variable (maxDepth : Int) (solver : Solver)

mutual

/-- Every if whose result is kept has `P`: its condition, its bodies and the leaf. -/
def EveryIf (P : Expression Name → Statement Name → Statement Name → SETNode → Prop) :
    Statement Name → List SETNode → Prop
  | .ifStatement condition thenBody elseBody, leaves => ∀ l, leaves.getLast? = some l →
    P condition thenBody elseBody l ∧
      EveryIf P thenBody [branchNode condition true l] ∧
      EveryIf P elseBody [branchNode condition false l]
  | .statementList statements, leaves => ∀ l, leaves.getLast? = some l →
    EveryIfOf P statements [l]
  | .assignmentStatement _ _, _ | .haltStatement, _ | .expressionStatement _, _ | .skipStatement, _
  | .whileStatement _ _, _ => True

def EveryIfOf (P : Expression Name → Statement Name → Statement Name → SETNode → Prop) :
    List (Statement Name) → List SETNode → Prop
  | [], _ => True
  | s :: ss, leaves => EveryIf P s leaves ∧
    EveryIfOf P ss (executeStatementSym maxDepth solver s leaves).live

end

/-- No if adds its leaf. -/
def CleanStatement : Statement Name → List SETNode → Prop :=
  EveryIf maxDepth solver fun condition thenBody elseBody l =>
    IfKeeps solver condition l
      (executeStatementSym maxDepth solver thenBody [branchNode condition true l])
      (executeStatementSym maxDepth solver elseBody [branchNode condition false l])

def CleanStatements : List (Statement Name) → List SETNode → Prop :=
  EveryIfOf maxDepth solver fun condition thenBody elseBody l =>
    IfKeeps solver condition l
      (executeStatementSym maxDepth solver thenBody [branchNode condition true l])
      (executeStatementSym maxDepth solver elseBody [branchNode condition false l])

/-- The result of a statement at a leaf is a frontier. -/
def StatementFrontier (s : Statement Name) (l : SETNode) : Prop :=
  Frontier (executeStatementSym maxDepth solver s [l]).done
    (executeStatementSym maxDepth solver s [l]).live

/-- The result of an if is a frontier. -/
def IfFrontier (condition : Expression Name) (thenBody elseBody : Statement Name) (l : SETNode) :
    Prop :=
  StatementFrontier maxDepth solver (.ifStatement condition thenBody elseBody) l

end

section
variable {maxDepth : Int} {solver : Solver}

/-- The nodes of a statement at one leaf descend from the leaf. -/
theorem executeStatementSym_descends (s : Statement Name) (l : SETNode) :
    AllNodes (fun n => l ∈ n.path) (executeStatementSym maxDepth solver s [l]) := by
  have hpath : AllNodes (SETNode.CodePath l) (executeStatementSym maxDepth solver s [l]) :=
    executeStatementSym_preserves (codePath_codeClosed solver l) s (by
      intro m hm
      exact List.mem_singleton.mp hm ▸ .refl)
  exact ⟨fun n hn => (hpath.done n hn).mem_path, fun n hn => (hpath.live n hn).mem_path⟩

/-- Every node of a statement descends from one of the leaves. -/
theorem executeStatementSym_above (s : Statement Name) (leaves : List SETNode) :
    ∀ n ∈ (executeStatementSym maxDepth solver s leaves).done ++
      (executeStatementSym maxDepth solver s leaves).live, ∃ l ∈ leaves, l.Above n := by
  have hpath : AllNodes (fun n => ∃ l ∈ leaves, SETNode.CodePath l n)
      (executeStatementSym maxDepth solver s leaves) := by
    refine executeStatementSym_preserves ⟨?_, ?_, ?_⟩ s fun l hl => ⟨l, hl, .refl⟩
    · exact fun m var rhs ⟨l, hl, h⟩ => ⟨l, hl, .instruction _ _ h⟩
    · exact fun m c ⟨l, hl, h⟩ _ => ⟨l, hl, .decision _ (.assume _ _ h)⟩
    · exact fun m c ⟨l, hl, h⟩ _ => ⟨l, hl, .decision _ (.assume _ _ h)⟩
  intro n hn
  have hn : ∃ l ∈ leaves, SETNode.CodePath l n := by
    rcases List.mem_append.mp hn with hn | hn
    · exact hpath.done n hn
    · exact hpath.live n hn
  have ⟨l, hl, h⟩ := hn
  exact ⟨l, hl, SETNode.above_of_mem_path h.mem_path⟩

/-- At an antichain of leaves, the nodes of a clean statement are an antichain. Only the while
statement has more than one leaf in its result. -/
theorem apart_of_getLast {s : Statement Name} {leaves : List SETNode} (hs : s.isWhile = false)
    (h : ∀ l, leaves.getLast? = some l → (executeStatementSym maxDepth solver s [l]).Apart) :
    (executeStatementSym maxDepth solver s leaves).Apart := by
  by_cases hempty : leaves = []
  · rw [hempty, executeStatementSym_nil]
    exact List.Pairwise.nil
  · rw [executeStatementSym_getLast hs hempty]
    exact h _ (List.getLast?_eq_some_getLast hempty)

mutual

theorem executeStatementSym_apart : ∀ (s : Statement Name) {leaves : List SETNode},
    Antichain SETNode.Above leaves → CleanStatement maxDepth solver s leaves →
      (executeStatementSym maxDepth solver s leaves).Apart
  | .whileStatement _ _, leaves, hleaves, _ => hleaves
  | .assignmentStatement lhs rhs, leaves, _, _ => by
      refine apart_of_getLast rfl fun l _ => ?_
      simp only [executeStatementSym, lastResult, List.foldl_cons, List.foldl_nil,
        executeAssignment]
      split
      · exact List.pairwise_singleton _ _
      · exact List.pairwise_singleton _ _
  | .haltStatement, leaves, _, _ => apart_of_getLast rfl fun l _ => List.pairwise_singleton _ _
  | .expressionStatement _, leaves, _, _ => apart_of_getLast rfl fun l _ => List.Pairwise.nil
  | .skipStatement, leaves, _, _ => apart_of_getLast rfl fun l _ => List.Pairwise.nil
  | .ifStatement condition thenBody elseBody, leaves, _, hclean => by
      refine apart_of_getLast rfl fun l hl => ?_
      have ⟨hkeeps, hthen, helse⟩ := hclean l hl
      exact executeIf_apart hkeeps
        (executeStatementSym_apart thenBody (List.pairwise_singleton _ _) hthen)
        (executeStatementSym_apart elseBody (List.pairwise_singleton _ _) helse)
        (executeStatementSym_descends thenBody _) (executeStatementSym_descends elseBody _)
  | .statementList statements, leaves, _, hclean => by
      refine apart_of_getLast rfl fun l hl => ?_
      exact executeStatementsSym_apart statements (List.pairwise_singleton _ _) (hclean l hl)

theorem executeStatementsSym_apart : ∀ (ss : List (Statement Name)) {done leaves : List SETNode},
    Antichain SETNode.Above (done ++ leaves) → CleanStatements maxDepth solver ss leaves →
      (executeStatementsSym maxDepth solver ss done leaves).Apart
  | [], done, leaves, hnodes, _ => hnodes
  | s :: ss, done, leaves, hnodes, hclean => by
      have hleaves := (antichain_append.mp hnodes).2.1
      have hres := executeStatementSym_apart s hleaves hclean.1
      -- The leaves are replaced by nodes below them, and what is done stays.
      have hgrown := hnodes.grow SETNode.isForest_above hres (executeStatementSym_above s leaves)
      rw [← List.append_assoc] at hgrown
      exact executeStatementsSym_apart ss hgrown hclean.2

end

/-- An if at one leaf, with bodies of the language. -/
theorem ifFrontier_iff (condition : Expression Name) (thenBody elseBody : Statement Name)
    (l : SETNode) :
    IfFrontier maxDepth solver condition thenBody elseBody l ↔
      IfKeeps solver condition l
          (executeStatementSym maxDepth solver thenBody [branchNode condition true l])
          (executeStatementSym maxDepth solver elseBody [branchNode condition false l]) ∧
        StatementFrontier maxDepth solver thenBody (branchNode condition true l) ∧
        StatementFrontier maxDepth solver elseBody (branchNode condition false l) :=
  frontier_executeIf (fun l => executeStatementSym maxDepth solver thenBody [l])
    (fun l => executeStatementSym maxDepth solver elseBody [l])
    (executeStatementSym_descends thenBody _) (executeStatementSym_descends elseBody _)

mutual

/-- The ifs of a statement whose results are kept: each result is a frontier exactly when no if
adds its leaf. -/
theorem everyIf_frontier_iff : ∀ (s : Statement Name) (leaves : List SETNode),
    EveryIf maxDepth solver (IfFrontier maxDepth solver) s leaves ↔
      CleanStatement maxDepth solver s leaves
  | .assignmentStatement _ _, _ | .haltStatement, _ | .expressionStatement _, _ | .skipStatement, _
  | .whileStatement _ _, _ => Iff.rfl
  | .ifStatement condition thenBody elseBody, leaves => by
      have hthen := fun l => everyIf_frontier_iff thenBody [branchNode condition true l]
      have helse := fun l => everyIf_frontier_iff elseBody [branchNode condition false l]
      constructor
      · intro h l hl
        have ⟨hif, hthen', helse'⟩ := h l hl
        exact ⟨((ifFrontier_iff _ _ _ l).mp hif).1, (hthen l).mp hthen', (helse l).mp helse'⟩
      · intro h l hl
        have ⟨hkeeps, hthen', helse'⟩ := h l hl
        refine ⟨(ifFrontier_iff _ _ _ l).mpr ⟨hkeeps, ?_, ?_⟩, (hthen l).mpr hthen',
          (helse l).mpr helse'⟩
        · exact frontier_of_antichain
            (executeStatementSym_apart thenBody (List.pairwise_singleton _ _) hthen')
        · exact frontier_of_antichain
            (executeStatementSym_apart elseBody (List.pairwise_singleton _ _) helse')
  | .statementList statements, leaves =>
      forall₂_congr fun l _ => everyIfOf_frontier_iff statements [l]

theorem everyIfOf_frontier_iff : ∀ (ss : List (Statement Name)) (leaves : List SETNode),
    EveryIfOf maxDepth solver (IfFrontier maxDepth solver) ss leaves ↔
      CleanStatements maxDepth solver ss leaves
  | [], _ => Iff.rfl
  | s :: ss, leaves => and_congr (everyIf_frontier_iff s leaves) (everyIfOf_frontier_iff ss _)

end

/-- The nodes of a clean block are an antichain. -/
theorem executeBlock_apart {block : Statement Name} {leaf : SETNode}
    (h : CleanStatement maxDepth solver block [leaf]) :
    (executeBlock maxDepth solver block leaf).Apart := by
  rw [executeBlock_eq]
  exact executeStatementSym_apart block (List.pairwise_singleton _ _) h

end

end Stabl
