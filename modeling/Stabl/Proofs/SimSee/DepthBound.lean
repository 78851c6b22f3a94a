import Stabl.Proofs.SimSee.Growth

/-!
# `Stabl.Proofs.SimSee.DepthBound`: where the executor stops

Each declaration, assignment and if on a path of the program appends a node, but the
executor compares the depth with the limit at the first two only. A path of the program
is here the list of its steps (`Program.paths`), and `walk` counts the depth along it.
The nodes of a result have the depths where the paths end (`seStmt_ends`), so the limit is
kept exactly when no path decides an if at the depth of the limit (`seProg_bounded_iff`).
-/

set_option autoImplicit false

namespace Stabl.SimSee

/-! ### The paths of a program -/

/-- What appends a node to the tree. -/
inductive PathStep where
  | declaration
  | assignment
  | decision
deriving DecidableEq, Repr

mutual

/-- The steps of a statement, for each way through its ifs. -/
def Stmt.paths : Stmt → List (List PathStep)
  | .assignment _ _ => [[.assignment]]
  | .ifStmt _ s1 s2 => (s1.paths ++ s2.paths).map (.decision :: ·)
  | .block stmts => Stmt.blockPaths stmts

def Stmt.blockPaths : List Stmt → List (List PathStep)
  | [] => [[]]
  | stmt :: stmts => stmt.paths.flatMap fun π => (Stmt.blockPaths stmts).map (π ++ ·)

end

/-- The steps of a program: one for each declaration, and those of the statement. -/
def Program.paths (p : Program) : List (List PathStep) :=
  p.statement.paths.map (List.replicate p.decls.length .declaration ++ ·)

mutual

theorem Stmt.paths_ne_nil : ∀ stmt : Stmt, stmt.paths ≠ []
  | .assignment _ _ => by simp [Stmt.paths]
  | .ifStmt _ s1 s2 => by simp [Stmt.paths, Stmt.paths_ne_nil s1]
  | .block stmts => by simpa only [Stmt.paths] using Stmt.blockPaths_ne_nil stmts

theorem Stmt.blockPaths_ne_nil : ∀ stmts : List Stmt, Stmt.blockPaths stmts ≠ []
  | [] => by simp [Stmt.blockPaths]
  | stmt :: stmts => by
      obtain ⟨π, hπ⟩ := List.exists_mem_of_ne_nil _ (Stmt.paths_ne_nil stmt)
      obtain ⟨ρ, hρ⟩ := List.exists_mem_of_ne_nil _ (Stmt.blockPaths_ne_nil stmts)
      have hmem : π ++ ρ ∈ Stmt.blockPaths (stmt :: stmts) := by
        simp only [Stmt.blockPaths, List.mem_flatMap, List.mem_map]
        exact ⟨π, hπ, ρ, hρ, rfl⟩
      exact List.ne_nil_of_mem hmem

end

/-! ### Depths along a path -/

/-- Where a path ends: it is cut at a node of some depth, or goes on from a leaf. -/
inductive PathEnd where
  | done (depth : Int)
  | leaf (depth : Int)
deriving DecidableEq, Repr

/-- The depth after one step, and whether the executor stops there. -/
def PathStep.walk (maxdepth d : Int) : PathStep → PathEnd
  | .declaration => if d + 1 = maxdepth then .done (d + 1) else .leaf (d + 1)
  | .assignment => if d + 1 ≥ maxdepth then .done (d + 1) else .leaf (d + 1)
  | .decision => .leaf (d + 1)

/-- A path that has not been cut goes on. -/
def PathEnd.andThen (go : Int → PathEnd) : PathEnd → PathEnd
  | .done d => .done d
  | .leaf d => go d

/-- Where a path from a node of depth `d` ends. -/
def walk (maxdepth : Int) : (d : Int) → List PathStep → PathEnd
  | d, [] => .leaf d
  | d, s :: π => (s.walk maxdepth d).andThen (walk maxdepth · π)

@[simp] theorem walk_singleton (maxdepth d : Int) (s : PathStep) :
    walk maxdepth d [s] = s.walk maxdepth d := by
  show (s.walk maxdepth d).andThen PathEnd.leaf = s.walk maxdepth d
  cases s.walk maxdepth d <;> rfl

theorem walk_append (maxdepth : Int) (π ρ : List PathStep) : ∀ d : Int,
    walk maxdepth d (π ++ ρ) = (walk maxdepth d π).andThen (walk maxdepth · ρ) := by
  induction π with
  | nil => exact fun d => rfl
  | cons s π ih =>
      intro d
      simp only [List.cons_append, walk]
      cases s.walk maxdepth d with
      | done d' => rfl
      | leaf d' => exact ih d'

/-- The limit is kept where a path ends: it is reached where the path is cut, and not yet
reached at a leaf. -/
def PathEnd.Within (maxdepth : Int) : PathEnd → Prop
  | .done d => d = maxdepth
  | .leaf d => d < maxdepth

/-- From the limit on, a path does not end within the limit. -/
theorem walk_beyond {maxdepth : Int} : ∀ {π : List PathStep} {d : Int}, maxdepth ≤ d →
    ¬ (walk maxdepth d π).Within maxdepth := by
  intro π
  induction π with
  | nil =>
      intro d hd
      show ¬ d < maxdepth
      omega
  | cons s π ih =>
      intro d hd
      cases s with
      | declaration =>
          -- A declaration is cut at the limit only, and the path is beyond it.
          have hne : ¬ d + 1 = maxdepth := by omega
          simpa [walk, PathStep.walk, hne, PathEnd.andThen] using ih (by omega)
      | assignment =>
          have hge : maxdepth ≤ d + 1 := by omega
          simp only [walk, PathStep.walk, ge_iff_le, hge, if_true, PathEnd.andThen, PathEnd.Within]
          omega
      | decision => exact ih (by omega)

/-- A path from below the limit ends within it, unless the step at the limit is a
decision. -/
theorem walk_within_iff {maxdepth : Int} : ∀ {π : List PathStep} {d : Int} {i : Nat},
    d + i + 1 = maxdepth →
    ((walk maxdepth d π).Within maxdepth ↔ π[i]? ≠ some .decision) := by
  intro π
  induction π with
  | nil =>
      intro d i hi
      have hlt : d < maxdepth := by omega
      simpa [walk, PathEnd.Within] using hlt
  | cons s π ih =>
      intro d i hi
      cases i with
      | zero =>
          have heq : d + 1 = maxdepth := by simpa using hi
          cases s with
          | declaration => simp [walk, PathStep.walk, heq, PathEnd.andThen, PathEnd.Within]
          | assignment => simp [walk, PathStep.walk, heq, PathEnd.andThen, PathEnd.Within]
          | decision =>
              have hbeyond : ¬ (walk maxdepth (d + 1) π).Within maxdepth :=
                walk_beyond (by omega)
              simpa [walk, PathStep.walk, PathEnd.andThen] using hbeyond
      | succ i =>
          -- Below the limit no step is cut, whatever it is.
          have hnext : s.walk maxdepth d = .leaf (d + 1) := by
            have hne : ¬ d + 1 = maxdepth := by omega
            have hlt : ¬ maxdepth ≤ d + 1 := by omega
            cases s with
            | declaration => simp [PathStep.walk, hne]
            | assignment => simp [PathStep.walk, hlt]
            | decision => rfl
          simpa [walk, hnext, PathEnd.andThen] using ih (by omega : d + 1 + i + 1 = maxdepth)

/-! ### The nodes of a result are the ends of the paths -/

/-- The result has a node of this kind and depth. -/
def DoneLeaves.Ends (r : DoneLeaves) : PathEnd → Prop
  | .done d => ∃ n ∈ r.1, n.depth = d
  | .leaf d => ∃ n ∈ r.2, n.depth = d

/-- From its leaf the step goes the given paths. -/
def LeafStep.Walks (maxdepth : Int) (paths : List (List PathStep)) (step : LeafStep) : Prop :=
  ∀ leaf vars r vars', step leaf vars = some (r, vars') →
    ∀ o, DoneLeaves.Ends r o ↔ ∃ π ∈ paths, walk maxdepth leaf.depth π = o

theorem SetNode.depth_inode (v e : Expr) (p : SetNode) (d : Int) :
    (SetNode.inode v e p d).depth = d := rfl

theorem ends_append (d d' l l' : List SetNode) (o : PathEnd) :
    DoneLeaves.Ends (d ++ d', l ++ l') o ↔
      DoneLeaves.Ends (d, l) o ∨ DoneLeaves.Ends (d', l') o := by
  cases o <;> simp [DoneLeaves.Ends, or_and_right, exists_or]

/-- The ends of the results at each leaf are those of the paths from each leaf. -/
theorem seEach_ends {maxdepth : Int} {paths : List (List PathStep)} {step : LeafStep}
    (hstep : step.Walks maxdepth paths) {o : PathEnd} {leaves : List SetNode} :
    ∀ {vars vars' : SymVars} {rs : List DoneLeaves}, seEach step leaves vars = some (rs, vars') →
      (DoneLeaves.Ends (rs.flatMap Prod.fst, rs.flatMap Prod.snd) o ↔
        ∃ l ∈ leaves, ∃ π ∈ paths, walk maxdepth l.depth π = o) := by
  induction leaves with
  | nil =>
      intro vars vars' rs h
      obtain ⟨rfl, rfl⟩ := seEach_nil_eq_some h
      cases o <;> simp [DoneLeaves.Ends]
  | cons l ls ih =>
      intro vars vars' rs h
      obtain ⟨d, l', vars1, h1, rs', vars2, h2, rfl, rfl⟩ := seEach_cons_eq_some h
      rw [List.flatMap_cons, List.flatMap_cons, ends_append, hstep l vars (d, l') vars1 h1 o,
        ih h2]
      simp only [List.mem_cons, exists_eq_or_imp]

theorem seAllLoop_ends {maxdepth : Int} {paths : List (List PathStep)} {step : LeafStep}
    (hstep : step.Walks maxdepth paths) {leaves : List SetNode} {vars vars' : SymVars}
    {r : DoneLeaves} (h : seAllLoop step [] [] leaves vars = some (r, vars')) {o : PathEnd} :
    DoneLeaves.Ends r o ↔ ∃ l ∈ leaves, ∃ π ∈ paths, walk maxdepth l.depth π = o := by
  obtain ⟨rs, hrs, hdone, hleaves⟩ := seAllLoop_perm h
  rw [← seEach_ends hstep hrs]
  cases o with
  | done d => simp only [DoneLeaves.Ends, hdone.mem_iff]
  | leaf d => simp only [DoneLeaves.Ends, hleaves.mem_iff]

/-- One round of a loop, and the rounds after it: the paths are put behind one another. A
path that is cut in the round is one of the first paths, whatever comes behind it. -/
theorem ends_round {maxdepth : Int} {first rest : List (List PathStep)} (hne : rest ≠ [])
    {done d l leaves : List SetNode} {r : DoneLeaves}
    (hround : ∀ o, DoneLeaves.Ends (d, l) o ↔
      ∃ k ∈ leaves, ∃ π ∈ first, walk maxdepth k.depth π = o)
    (hrest : ∀ o, DoneLeaves.Ends r o ↔ DoneLeaves.Ends (d ++ done, []) o ∨
      ∃ m ∈ l, ∃ ρ ∈ rest, walk maxdepth m.depth ρ = o) (o : PathEnd) :
    DoneLeaves.Ends r o ↔ DoneLeaves.Ends (done, []) o ∨
      ∃ k ∈ leaves, ∃ π ∈ first, ∃ ρ ∈ rest, walk maxdepth k.depth (π ++ ρ) = o := by
  have hsplit : DoneLeaves.Ends (d ++ done, []) o ↔
      DoneLeaves.Ends (d, []) o ∨ DoneLeaves.Ends (done, []) o :=
    ends_append d done [] [] o
  rw [hrest o, hsplit, or_assoc, or_left_comm]
  refine or_congr_right ⟨?_, ?_⟩
  · rintro (hcut | ⟨m, hm, ρ, hρ, ho⟩)
    · cases o with
      | leaf e => simp [DoneLeaves.Ends] at hcut
      | done e =>
          obtain ⟨k, hk, π, hπ, hwalk⟩ := (hround (.done e)).mp hcut
          obtain ⟨ρ, hρ⟩ := List.exists_mem_of_ne_nil _ hne
          exact ⟨k, hk, π, hπ, ρ, hρ, by rw [walk_append, hwalk]; rfl⟩
    · obtain ⟨k, hk, π, hπ, hwalk⟩ := (hround (.leaf m.depth)).mp ⟨m, hm, rfl⟩
      exact ⟨k, hk, π, hπ, ρ, hρ, by rw [walk_append, hwalk]; exact ho⟩
  · intro ⟨k, hk, π, hπ, ρ, hρ, ho⟩
    rw [walk_append] at ho
    have hfirst := (hround _).mpr ⟨k, hk, π, hπ, rfl⟩
    -- A path that is cut in the round is done, and one that is not goes on from a leaf of it.
    cases hwalk : walk maxdepth k.depth π with
    | done e =>
        rw [hwalk] at ho hfirst
        subst ho
        exact Or.inl hfirst
    | leaf e =>
        rw [hwalk] at ho hfirst
        obtain ⟨m, hm, rfl⟩ := hfirst
        exact Or.inr ⟨m, hm, ρ, hρ, ho⟩

theorem seAssignment_ends (maxdepth : Int) (vname : String) (e : Expr) :
    (seAssignment maxdepth vname e).Walks maxdepth [[.assignment]] := by
  intro leaf vars r vars' h o
  obtain ⟨se, _, rfl⟩ := seAssignment_eq_some h
  by_cases hd : leaf.depth + 1 ≥ maxdepth
  · rw [if_pos hd]
    have hwalk : PathStep.assignment.walk maxdepth leaf.depth = .done (leaf.depth + 1) := if_pos hd
    cases o <;> simp [DoneLeaves.Ends, hwalk, SetNode.depth_inode]
  · rw [if_neg hd]
    have hwalk : PathStep.assignment.walk maxdepth leaf.depth = .leaf (leaf.depth + 1) := if_neg hd
    cases o <;> simp [DoneLeaves.Ends, hwalk, SetNode.depth_inode]

theorem seDecl_ends (maxdepth : Int) (decl : String × Typ) :
    LeafStep.Walks maxdepth [[.declaration]]
      (fun leaf vars => some (seDecl maxdepth decl leaf, vars)) := by
  intro leaf vars r vars' h o
  simp only [Option.some.injEq, Prod.mk.injEq] at h
  obtain ⟨rfl, rfl⟩ := h
  by_cases hd : leaf.depth + 1 = maxdepth
  · have hwalk : PathStep.declaration.walk maxdepth leaf.depth = .done (leaf.depth + 1) := if_pos hd
    cases o <;> simp [DoneLeaves.Ends, seDecl, hwalk, SetNode.depth_inode, if_pos hd]
  · have hwalk : PathStep.declaration.walk maxdepth leaf.depth = .leaf (leaf.depth + 1) := if_neg hd
    cases o <;> simp [DoneLeaves.Ends, seDecl, hwalk, SetNode.depth_inode, if_neg hd]

mutual

/-- The nodes that a statement returns have the kinds and depths of the ends of its paths. -/
theorem seStmt_ends (maxdepth : Int) :
    ∀ stmt : Stmt, (seStmt maxdepth stmt).Walks maxdepth stmt.paths
  | .assignment vname e => by
      rw [seStmt_assignment]
      exact seAssignment_ends maxdepth vname e
  | .ifStmt b s1 s2 => by
      intro leaf vars r vars' h o
      obtain ⟨sb, vars0, _, tdone, tleaves, vars1, h1, fdone, fleaves, vars2, h2, rfl, rfl⟩ :=
        seStmt_ifStmt_eq_some h
      have ht := seStmt_ends maxdepth s1 _ _ _ _ h1 o
      have hf := seStmt_ends maxdepth s2 _ _ _ _ h2 o
      rw [ends_append, ht, hf]
      -- Both branches start at the node of the decision, one deeper than the leaf.
      simp only [Stmt.paths, List.map_append, List.mem_append, List.mem_map, or_and_right,
        exists_or, exists_exists_and_eq_and]
      rfl
  | .block stmts => by
      intro leaf vars r vars' h o
      rw [seStmtblockLoop_ends maxdepth stmts (seStmt_block_eq_some h) o]
      cases o <;> simp [DoneLeaves.Ends, Stmt.paths]

theorem seStmtblockLoop_ends (maxdepth : Int) :
    ∀ (stmts : List Stmt) {done leaves : List SetNode} {vars vars' : SymVars} {r : DoneLeaves},
      seStmtblockLoop maxdepth stmts done leaves vars = some (r, vars') →
      ∀ o, DoneLeaves.Ends r o ↔ DoneLeaves.Ends (done, []) o ∨
        ∃ l ∈ leaves, ∃ π ∈ Stmt.blockPaths stmts, walk maxdepth l.depth π = o
  | [], done, leaves, vars, vars', r, h => by
      intro o
      obtain ⟨rfl, rfl⟩ := seStmtblockLoop_nil_eq_some h
      cases o <;> simp [DoneLeaves.Ends, Stmt.blockPaths, walk]
  | stmt :: stmts, done, leaves, vars, vars', r, h => by
      intro o
      obtain ⟨d, l, vars1, h1, hrest⟩ := seStmtblockLoop_cons_eq_some h
      have hround := fun o => seAllLoop_ends (seStmt_ends maxdepth stmt) h1 (o := o)
      have hrest := seStmtblockLoop_ends maxdepth stmts hrest
      rw [ends_round (Stmt.blockPaths_ne_nil stmts) hround hrest o]
      simp [Stmt.blockPaths]

end

theorem seDeclsLoop_ends (maxdepth : Int) : ∀ (decls : List (String × Typ))
    {done leaves : List SetNode} {vars vars' : SymVars} {r : DoneLeaves},
      seDeclsLoop maxdepth decls done leaves vars = some (r, vars') →
      ∀ o, DoneLeaves.Ends r o ↔ DoneLeaves.Ends (done, []) o ∨
        ∃ l ∈ leaves, ∃ π ∈ [List.replicate decls.length .declaration],
          walk maxdepth l.depth π = o := by
  intro decls
  induction decls with
  | nil =>
      intro done leaves vars vars' r h o
      obtain ⟨rfl, rfl⟩ := seDeclsLoop_nil_eq_some h
      cases o <;> simp [DoneLeaves.Ends, walk]
  | cons decl decls ih =>
      intro done leaves vars vars' r h o
      obtain ⟨d, l, vars1, h1, hrest⟩ := seDeclsLoop_cons_eq_some h
      have hround := fun o => seAllLoop_ends (seDecl_ends maxdepth decl) h1 (o := o)
      rw [ends_round (List.cons_ne_nil _ _) hround (ih hrest) o]
      simp [List.replicate_succ]

/-- The nodes of the tree of a program have the kinds and depths of the ends of its paths. -/
theorem seProg_ends {p : Program} {maxdepth : Int} {vars vars' : SymVars} {r : DoneLeaves}
    (h : seProg p maxdepth vars = some (r, vars')) (o : PathEnd) :
    DoneLeaves.Ends r o ↔ ∃ π ∈ p.paths, walk maxdepth 0 π = o := by
  obtain ⟨ds, ls, vars1, hdecls, ds', ls', vars2, hstmt, rfl, rfl⟩ := seProg_eq_some h
  have hround := seDeclsLoop_ends maxdepth p.decls hdecls
  have hround' : ∀ o, DoneLeaves.Ends (ds, ls) o ↔ ∃ k ∈ [SetNode.entryNode],
      ∃ π ∈ [List.replicate p.decls.length .declaration], walk maxdepth k.depth π = o := by
    intro o
    rw [hround o]
    cases o <;> simp [DoneLeaves.Ends]
  have hstmt' := fun o => seAllLoop_ends (seStmt_ends maxdepth p.statement) hstmt (o := o)
  have hrest : ∀ o, DoneLeaves.Ends (ds ++ ds', ls') o ↔ DoneLeaves.Ends (ds ++ [], []) o ∨
      ∃ m ∈ ls, ∃ ρ ∈ p.statement.paths, walk maxdepth m.depth ρ = o := by
    intro o
    rw [← hstmt' o, ← ends_append]
    simp
  rw [ends_round p.statement.paths_ne_nil hround' hrest o]
  cases o <;> simp [DoneLeaves.Ends, Program.paths, SetNode.depth]

/-! ### The bound -/

/-- The limit on the depth is kept: by every node of the tree, strictly by the leaves, and
it is reached where a path was cut. -/
structure DoneLeaves.Bounded (maxdepth : Int) (r : DoneLeaves) : Prop where
  nodes : ∀ n ∈ r.1 ++ r.2, ∀ k ∈ n.path, k.depth ≤ maxdepth
  leaves : ∀ n ∈ r.2, n.depth < maxdepth
  done : ∀ n ∈ r.1, n.depth = maxdepth

/-- No node behind a node is deeper. -/
theorem SetNode.Numbered.depth_le {n k : SetNode} (hn : n.Numbered) (hk : k ∈ n.path) :
    k.depth ≤ n.depth := by
  have hlength : k.path.length ≤ n.path.length := by
    clear hn
    induction n with
    | entryNode => exact (List.mem_singleton.mp hk) ▸ Nat.le_refl _
    | inode v e p d ih | dnode c p d ih =>
        rcases List.mem_cons.mp hk with rfl | hk
        · exact Nat.le_refl _
        · exact Nat.le_succ_of_le (ih hk)
  have hdepth := hn k hk
  have hdepth' := hn.depth_eq
  omega

theorem seProg_numbered {p : Program} {maxdepth : Int} {vars vars' : SymVars} {r : DoneLeaves}
    (h : seProg p maxdepth vars = some (r, vars')) : ∀ n ∈ r.1 ++ r.2, n.Numbered := by
  obtain ⟨ds, ls, vars1, hdecls, ds', ls', vars2, hstmt, rfl, rfl⟩ := seProg_eq_some h
  have hgrows := grows_of_singleton (seDeclsLoop_grows maxdepth p.decls hdecls).1
  have hgrows' := (seAllLoop_grows (seStmt_grows maxdepth p.statement) hstmt).1
  have hlater : ∀ n ∈ ds' ++ ls', n.Numbered := by
    intro n hn
    obtain ⟨l, hl, hln⟩ := hgrows' n hn
    have hl : SetNode.entryNode.Grows l := hgrows l (List.mem_append_right _ hl)
    exact (hl.trans hln).numbered SetNode.numbered_entryNode
  intro n hn
  simp only [List.mem_append] at hn hlater
  rcases hn with (hn | hn) | hn
  · exact (hgrows n (List.mem_append_left _ hn)).numbered SetNode.numbered_entryNode
  · exact hlater n (Or.inl hn)
  · exact hlater n (Or.inr hn)

/-- The limit is kept exactly by the programs none of whose paths decides an if in the step
at the limit. -/
theorem seProg_bounded_iff {p : Program} {maxdepth : Int} (hmax : 1 ≤ maxdepth)
    {vars vars' : SymVars} {r : DoneLeaves} (h : seProg p maxdepth vars = some (r, vars')) :
    DoneLeaves.Bounded maxdepth r ↔
      ∀ π ∈ p.paths, π[maxdepth.toNat - 1]? ≠ some .decision := by
  -- The step at the limit is the one with the index `maxdepth - 1`, as paths start at depth 0.
  have hwalk : ∀ π : List PathStep,
      (walk maxdepth 0 π).Within maxdepth ↔ π[maxdepth.toNat - 1]? ≠ some .decision :=
    fun π => walk_within_iff (by omega)
  have hends := seProg_ends h
  constructor
  · intro hbounded π hπ
    rw [← hwalk π]
    have hend := (hends (walk maxdepth 0 π)).mpr ⟨π, hπ, rfl⟩
    cases hw : walk maxdepth 0 π with
    | done d =>
        rw [hw] at hend
        obtain ⟨n, hn, rfl⟩ := hend
        exact hbounded.done n hn
    | leaf d =>
        rw [hw] at hend
        obtain ⟨n, hn, rfl⟩ := hend
        exact hbounded.leaves n hn
  · intro hpaths
    have hwithin : ∀ o, DoneLeaves.Ends r o → o.Within maxdepth := by
      intro o ho
      obtain ⟨π, hπ, rfl⟩ := (hends o).mp ho
      exact (hwalk π).mpr (hpaths π hπ)
    have hleaves : ∀ n ∈ r.2, n.depth < maxdepth :=
      fun n hn => hwithin (.leaf n.depth) ⟨n, hn, rfl⟩
    have hdone : ∀ n ∈ r.1, n.depth = maxdepth :=
      fun n hn => hwithin (.done n.depth) ⟨n, hn, rfl⟩
    -- The nodes behind a node are less deep than it, so its own depth bounds them.
    refine ⟨fun n hn k hk => ?_, hleaves, hdone⟩
    have hk := (seProg_numbered h n hn).depth_le hk
    rcases List.mem_append.mp hn with hn | hn
    · have := hdone n hn
      omega
    · have := hleaves n hn
      omega

/-- An if whose second branch is empty. -/
def emptyBranch : Program where
  decls := [("b", .boolean)]
  statement := .ifStmt (.id "b") (.block [.assignment "b" (.boolConst true)]) (.block [])

theorem seProg_bounded_iff_emptyBranch :
    ∃ r vars', seProg emptyBranch 3 [] = some (r, vars') ∧
      (DoneLeaves.Bounded 3 r ↔
        ∀ π ∈ emptyBranch.paths, π[(3 : Int).toNat - 1]? ≠ some .decision) :=
  have ⟨r, hr⟩ : ∃ r, seProg emptyBranch 3 [] = some (r, []) := ⟨_, rfl⟩
  ⟨r, [], hr, seProg_bounded_iff (by decide) hr⟩

/-- With the limit 2, the decision already has this depth. -/
theorem seProg_not_bounded : ¬ ∀ (p : Program) (maxdepth : Int) (vars vars' : SymVars)
    (r : DoneLeaves), 1 ≤ maxdepth → seProg p maxdepth vars = some (r, vars') →
      DoneLeaves.Bounded maxdepth r := by
  intro hall
  obtain ⟨done, leaves, vars', h, n, hn, hdepth⟩ : ∃ done leaves vars',
      seProg emptyBranch 2 [] = some ((done, leaves), vars') ∧ ∃ n ∈ leaves, ¬ n.depth < 2 :=
    ⟨_, _, _, rfl, _, List.mem_singleton_self _, by decide⟩
  exact hdepth ((hall emptyBranch 2 [] vars' _ (by decide) h).leaves n hn)

end Stabl.SimSee
