import Mathlib.Algebra.GroupWithZero.Nat
import Mathlib.Data.List.Nodup
import Stabl.Proofs.SimSee.DepthBound
import Stabl.Proofs.SimSee.Paths

/-!
# `Stabl.Proofs.SimSee.SymbolicNames`: what a printed identifier stands for

`new_symvar_name` counts on, so no two `Input`s get the same name, on one path or on
several. The names `X1`, `X2`, ... are also identifiers of the language, and the values
of the variables are kept in the same expressions. `seProg_unambiguous_iff` says when
none of the new names is that of a variable: it depends on the number of `Input`s that
the executor evaluates, which the program and the limit determine (`seStmt_count`).
-/

set_option autoImplicit false

namespace Stabl.SimSee

/-! ### How many inputs are evaluated -/

/-- The number of `Input`s in an expression. -/
def Expr.inputs : Expr → Nat
  | .id _ | .intConst _ | .boolConst _ => 0
  | .input _ => 1
  | .not e => e.inputs
  | .add e1 e2 | .sub e1 e2 | .or e1 e2 | .and e1 e2 | .equals e1 e2 => e1.inputs + e2.inputs

/-- The depths of the leaves that the paths from a node of depth `d` end in. -/
def liveDepths (maxdepth d : Int) (paths : List (List PathStep)) : List Int :=
  paths.filterMap fun π =>
    match walk maxdepth d π with
    | .done _ => none
    | .leaf d' => some d'

mutual

/-- The number of `Input`s evaluated in a statement, from a leaf of depth `d`. Both branches
of an if are executed. -/
def Stmt.inputCount (maxdepth : Int) : Stmt → (d : Int) → Nat
  | .assignment _ e, _ => e.inputs
  | .ifStmt b s1 s2, d =>
    b.inputs + s1.inputCount maxdepth (d + 1) + s2.inputCount maxdepth (d + 1)
  | .block stmts, d => Stmt.blockInputCount maxdepth stmts d

def Stmt.blockInputCount (maxdepth : Int) : List Stmt → (d : Int) → Nat
  | [], _ => 0
  | stmt :: stmts, d =>
    stmt.inputCount maxdepth d +
      ((liveDepths maxdepth d stmt.paths).map (Stmt.blockInputCount maxdepth stmts)).sum

end

/-- The number of `Input`s evaluated in a program: the declarations have none. -/
def Program.inputCount (p : Program) (maxdepth : Int) : Nat :=
  ((liveDepths maxdepth 0 [List.replicate p.decls.length .declaration]).map
    (p.statement.inputCount maxdepth)).sum

theorem liveDepths_append (maxdepth d : Int) (paths paths' : List (List PathStep)) :
    liveDepths maxdepth d (paths ++ paths') =
      liveDepths maxdepth d paths ++ liveDepths maxdepth d paths' := by
  simp [liveDepths]

/-- Paths behind one another: the second ones start at the leaves of the first ones. -/
theorem liveDepths_flatMap (maxdepth d : Int) (rest : List (List PathStep)) :
    ∀ first : List (List PathStep),
      liveDepths maxdepth d (first.flatMap fun π => rest.map (π ++ ·)) =
        (liveDepths maxdepth d first).flatMap fun d' => liveDepths maxdepth d' rest := by
  intro first
  induction first with
  | nil => rfl
  | cons π first ih =>
      rw [List.flatMap_cons, liveDepths_append, ih]
      -- A path that is cut in its first part has no leaf, whatever comes behind it.
      have hmap : liveDepths maxdepth d (rest.map (π ++ ·)) =
          match walk maxdepth d π with
          | .done _ => []
          | .leaf d' => liveDepths maxdepth d' rest := by
        simp only [liveDepths, List.filterMap_map, Function.comp_def, walk_append]
        cases walk maxdepth d π <;> simp [PathEnd.andThen]
      rw [hmap]
      cases hw : walk maxdepth d π <;> simp [liveDepths, hw]

/-- From its leaf the step goes the given paths, to the leaves that they end in, and
evaluates so many `Input`s. -/
structure LeafStep.Counts (maxdepth : Int) (paths : List (List PathStep)) (count : Int → Nat)
    (step : LeafStep) : Prop where
  leaves : ∀ {leaf vars r vars'}, step leaf vars = some (r, vars') →
    (r.2.map SetNode.depth).Perm (liveDepths maxdepth leaf.depth paths)
  vars : ∀ {leaf vars r vars'}, step leaf vars = some (r, vars') →
    vars'.length = vars.length + count leaf.depth

theorem seExpr_count {leaf : SetNode} {e : Expr} : ∀ {vars vars' : SymVars} {se : Expr},
    seExpr leaf e vars = some (se, vars') → vars'.length = vars.length + e.inputs := by
  induction e with
  | id vname =>
      intro vars vars' se h
      obtain ⟨_, _, _, rfl⟩ := seExpr_id_eq_some h
      rfl
  | intConst n | boolConst b =>
      intro vars vars' se h
      simp only [seExpr, Option.some.injEq, Prod.mk.injEq] at h
      exact h.2 ▸ rfl
  | add e1 e2 ih1 ih2 | sub e1 e2 ih1 ih2 | or e1 e2 ih1 ih2 | and e1 e2 ih1 ih2
  | equals e1 e2 ih1 ih2 =>
      intro vars vars' se h
      obtain ⟨sv1, vars1, h1, sv2, vars2, h2, _, rfl⟩ := operands_eq_some h
      have hcount1 := ih1 h1
      have hcount2 := ih2 h2
      simp only [Expr.inputs]
      omega
  | not e ih =>
      intro vars vars' se h
      obtain ⟨sv, vars1, h1, _, rfl⟩ := seExpr_not_eq_some h
      exact ih h1
  | input t =>
      intro vars vars' se h
      simp only [seExpr, Option.some.injEq, Prod.mk.injEq] at h
      rw [← h.2, List.length_append]
      rfl

/-- A step at every leaf evaluates what it evaluates at each of them. -/
theorem seEach_counts {maxdepth : Int} {paths : List (List PathStep)} {count : Int → Nat}
    {step : LeafStep} (hstep : step.Counts maxdepth paths count) {leaves : List SetNode} :
    ∀ {vars vars' : SymVars} {rs : List DoneLeaves}, seEach step leaves vars = some (rs, vars') →
      ((rs.flatMap Prod.snd).map SetNode.depth).Perm
        ((leaves.map SetNode.depth).flatMap fun d => liveDepths maxdepth d paths) ∧
      vars'.length = vars.length + ((leaves.map SetNode.depth).map count).sum := by
  induction leaves with
  | nil =>
      intro vars vars' rs h
      obtain ⟨rfl, rfl⟩ := seEach_nil_eq_some h
      exact ⟨List.Perm.refl _, rfl⟩
  | cons l ls ih =>
      intro vars vars' rs h
      obtain ⟨d, l', vars1, h1, rs', vars2, h2, rfl, rfl⟩ := seEach_cons_eq_some h
      have hcount1 := hstep.vars h1
      have ⟨hleaves2, hcount2⟩ := ih h2
      constructor
      · simpa using (hstep.leaves h1).append hleaves2
      · simp only [List.map_cons, List.sum_cons]
        omega

theorem seAllLoop_counts {maxdepth : Int} {paths : List (List PathStep)} {count : Int → Nat}
    {step : LeafStep} (hstep : step.Counts maxdepth paths count) {leaves : List SetNode}
    {vars vars' : SymVars} {r : DoneLeaves}
    (h : seAllLoop step [] [] leaves vars = some (r, vars')) :
    (r.2.map SetNode.depth).Perm
        ((leaves.map SetNode.depth).flatMap fun d => liveDepths maxdepth d paths) ∧
      vars'.length = vars.length + ((leaves.map SetNode.depth).map count).sum := by
  obtain ⟨rs, hrs, _, hleaves⟩ := seAllLoop_perm h
  have ⟨hperm, hcount⟩ := seEach_counts hstep hrs
  exact ⟨(hleaves.map _).trans hperm, hcount⟩

theorem seAssignment_counts (maxdepth : Int) (vname : String) (e : Expr) :
    (seAssignment maxdepth vname e).Counts maxdepth [[.assignment]] (fun _ => e.inputs) := by
  constructor
  · intro leaf vars r vars' h
    obtain ⟨se, _, rfl⟩ := seAssignment_eq_some h
    split
    all_goals
      rename_i hd
      simp only [liveDepths, List.filterMap_cons, List.filterMap_nil, walk_singleton,
        PathStep.walk, hd, if_true, if_false]
      exact List.Perm.refl _
  · intro leaf vars r vars' h
    obtain ⟨se, h1, _⟩ := seAssignment_eq_some h
    exact seExpr_count h1

/-- What is counted at the leaves that the paths from several nodes end in. -/
theorem sum_liveDepths {maxdepth : Int} {paths : List (List PathStep)} (count count' : Int → Nat)
    (depths : List Int) :
    (depths.map count).sum +
        ((depths.flatMap fun d => liveDepths maxdepth d paths).map count').sum =
      (depths.map fun d => count d + ((liveDepths maxdepth d paths).map count').sum).sum := by
  induction depths with
  | nil => rfl
  | cons d depths ih =>
      simp only [List.map_cons, List.sum_cons, List.flatMap_cons, List.map_append, List.sum_append]
      omega

/-- One round of a loop, and the rounds after it, which start at the leaves of the first. -/
theorem leaves_round {maxdepth : Int} {first rest : List (List PathStep)} {depths : List Int}
    {l l' : List SetNode}
    (hround : (l.map SetNode.depth).Perm (depths.flatMap fun d => liveDepths maxdepth d first))
    (hrest : (l'.map SetNode.depth).Perm
      ((l.map SetNode.depth).flatMap fun d => liveDepths maxdepth d rest)) :
    (l'.map SetNode.depth).Perm (depths.flatMap fun d =>
      liveDepths maxdepth d (first.flatMap fun π => rest.map (π ++ ·))) := by
  have hpaths := hrest.trans (hround.flatMap_right _)
  rw [List.flatMap_assoc] at hpaths
  simpa only [liveDepths_flatMap] using hpaths

mutual

theorem seStmt_counts (maxdepth : Int) : ∀ stmt : Stmt,
    (seStmt maxdepth stmt).Counts maxdepth stmt.paths (stmt.inputCount maxdepth)
  | .assignment vname e => by
      rw [seStmt_assignment]
      exact seAssignment_counts maxdepth vname e
  | .ifStmt b s1 s2 => by
      have hcounts1 := seStmt_counts maxdepth s1
      have hcounts2 := seStmt_counts maxdepth s2
      constructor
      · intro leaf vars r vars' h
        obtain ⟨sb, vars0, _, tdone, tleaves, vars1, h1, fdone, fleaves, vars2, h2, rfl, rfl⟩ :=
          seStmt_ifStmt_eq_some h
        -- The decision itself is never cut, so both branches start one deeper.
        have hleaves : ((tleaves ++ fleaves).map SetNode.depth).Perm
            (liveDepths maxdepth (leaf.depth + 1) (s1.paths ++ s2.paths)) := by
          rw [List.map_append, liveDepths_append]
          exact (hcounts1.leaves h1).append (hcounts2.leaves h2)
        simpa [Stmt.paths, liveDepths, List.filterMap_map, Function.comp_def, walk,
          PathStep.walk, PathEnd.andThen] using hleaves
      · intro leaf vars r vars' h
        obtain ⟨sb, vars0, h0, tdone, tleaves, vars1, h1, fdone, fleaves, vars2, h2, _, rfl⟩ :=
          seStmt_ifStmt_eq_some h
        have hcount0 := seExpr_count h0
        have hcount1 : vars1.length = vars0.length + s1.inputCount maxdepth (leaf.depth + 1) :=
          hcounts1.vars h1
        have hcount2 : vars2.length = vars1.length + s2.inputCount maxdepth (leaf.depth + 1) :=
          hcounts2.vars h2
        simp only [Stmt.inputCount]
        omega
  | .block stmts => by
      constructor
      · intro leaf vars r vars' h
        have hloop := seStmt_block_eq_some h
        simpa [Stmt.paths] using (seStmtblockLoop_counts maxdepth stmts hloop).1
      · intro leaf vars r vars' h
        have hloop := seStmt_block_eq_some h
        simpa [Stmt.inputCount] using (seStmtblockLoop_counts maxdepth stmts hloop).2

theorem seStmtblockLoop_counts (maxdepth : Int) :
    ∀ (stmts : List Stmt) {done leaves : List SetNode} {vars vars' : SymVars} {r : DoneLeaves},
      seStmtblockLoop maxdepth stmts done leaves vars = some (r, vars') →
      (r.2.map SetNode.depth).Perm ((leaves.map SetNode.depth).flatMap fun d =>
        liveDepths maxdepth d (Stmt.blockPaths stmts)) ∧
      vars'.length = vars.length +
        ((leaves.map SetNode.depth).map (Stmt.blockInputCount maxdepth stmts)).sum
  | [], done, leaves, vars, vars', r, h => by
      obtain ⟨rfl, rfl⟩ := seStmtblockLoop_nil_eq_some h
      constructor
      · simp [Stmt.blockPaths, liveDepths, walk]
      · simp [Stmt.blockInputCount, Function.comp_def]
  | stmt :: stmts, done, leaves, vars, vars', r, h => by
      obtain ⟨d, l, vars1, h1, hrest⟩ := seStmtblockLoop_cons_eq_some h
      have ⟨hperm1, hcount1⟩ := seAllLoop_counts (seStmt_counts maxdepth stmt) h1
      have ⟨hperm, hcount⟩ := seStmtblockLoop_counts maxdepth stmts hrest
      constructor
      · exact leaves_round hperm1 hperm
      -- The rounds start at the leaves of the first one, in any order: the sum does not see it.
      · rw [hcount, hcount1, (hperm1.map _).sum_nat, Nat.add_assoc, sum_liveDepths]
        simp only [Stmt.blockInputCount]

end

theorem seDecl_counts (maxdepth : Int) (decl : String × Typ) :
    LeafStep.Counts maxdepth [[.declaration]] (fun _ => 0)
      (fun leaf vars => some (seDecl maxdepth decl leaf, vars)) := by
  constructor
  · intro leaf vars r vars' h
    simp only [Option.some.injEq, Prod.mk.injEq] at h
    obtain ⟨rfl, rfl⟩ := h
    by_cases hd : leaf.depth + 1 = maxdepth
    · simp [seDecl, liveDepths, PathStep.walk, hd]
    · simp [seDecl, liveDepths, PathStep.walk, hd, SetNode.depth_inode]
  · intro leaf vars r vars' h
    simp only [Option.some.injEq, Prod.mk.injEq] at h
    rw [h.2]
    rfl

theorem seDeclsLoop_counts (maxdepth : Int) : ∀ (decls : List (String × Typ))
    {done leaves : List SetNode} {vars vars' : SymVars} {r : DoneLeaves},
      seDeclsLoop maxdepth decls done leaves vars = some (r, vars') →
      (r.2.map SetNode.depth).Perm ((leaves.map SetNode.depth).flatMap fun d =>
        liveDepths maxdepth d [List.replicate decls.length .declaration]) ∧
      vars'.length = vars.length := by
  intro decls
  induction decls with
  | nil =>
      intro done leaves vars vars' r h
      obtain ⟨rfl, rfl⟩ := seDeclsLoop_nil_eq_some h
      exact ⟨by simp [liveDepths, walk], rfl⟩
  | cons decl decls ih =>
      intro done leaves vars vars' r h
      obtain ⟨d, l, vars1, h1, hrest⟩ := seDeclsLoop_cons_eq_some h
      have ⟨hperm1, hcount1⟩ := seAllLoop_counts (seDecl_counts maxdepth decl) h1
      have ⟨hperm, hcount⟩ := ih hrest
      constructor
      · simpa [List.replicate_succ] using leaves_round hperm1 hperm
      · rw [hcount, hcount1]
        simp [Function.comp_def]

/-- The counter after the execution of a program. -/
theorem seProg_count {p : Program} {maxdepth : Int} {vars vars' : SymVars} {r : DoneLeaves}
    (h : seProg p maxdepth vars = some (r, vars')) :
    vars'.length = vars.length + p.inputCount maxdepth := by
  obtain ⟨ds, ls, vars1, hdecls, ds', ls', vars2, hstmt, _, rfl⟩ := seProg_eq_some h
  have ⟨hperm, hcount1⟩ := seDeclsLoop_counts maxdepth p.decls hdecls
  have ⟨_, hcount⟩ := seAllLoop_counts (seStmt_counts maxdepth p.statement) hstmt
  rw [hcount, hcount1, (hperm.map _).sum_nat]
  simp [Program.inputCount, SetNode.depth]

/-! ### The names that are introduced -/

/-- The names that the `Input`s evaluated between two counters are given, in the order of
their evaluation. -/
def introduced (vars vars' : SymVars) : List String :=
  (List.range' vars.length (vars'.length - vars.length)).map fun i => symvarName (i + 1)

theorem mem_introduced {vars vars' : SymVars} {s : String} :
    s ∈ introduced vars vars' ↔
      ∃ i, (vars.length ≤ i ∧ i < vars'.length) ∧ symvarName (i + 1) = s := by
  have hrange : ∀ i, i ∈ List.range' vars.length (vars'.length - vars.length) ↔
      vars.length ≤ i ∧ i < vars'.length := by
    intro i
    rw [List.mem_range'_1]
    omega
  simp only [introduced, List.mem_map, hrange]

/-- No two inputs are given the same name. -/
theorem nodup_introduced (vars vars' : SymVars) : (introduced vars vars').Nodup := by
  refine List.Pairwise.map _ (fun i j hne heq => hne ?_) (List.nodup_range' ..)
  have := symvarName_injective heq
  omega

/-- The evaluation of an `Input` introduces the name that it returns. -/
theorem introduced_input (vars : SymVars) (t : Typ) :
    introduced vars (vars ++ [t]) = [symvarName (vars.length + 1)] := by
  simp [introduced]

/-- What is introduced up to a counter comes before what is introduced after it. -/
theorem introduced_append {vars vars1 vars' : SymVars} (h : vars.length ≤ vars1.length)
    (h' : vars1.length ≤ vars'.length) :
    introduced vars vars' = introduced vars vars1 ++ introduced vars1 vars' := by
  have hlength : vars'.length - vars.length =
      (vars1.length - vars.length) + (vars'.length - vars1.length) := by omega
  have hstart : vars1.length = vars.length + (vars1.length - vars.length) := by omega
  rw [introduced, introduced, introduced, hlength, ← List.range'_append_1, List.map_append,
    ← hstart]

/-- The symbolic variables on the path to the node were introduced since the counter stood
at `start`. -/
structure IntroducedSince (start vars : SymVars) (n : SetNode) : Prop where
  extends_start : start <+: vars
  symvars : ∀ s ∈ n.symvars, s ∈ introduced start vars

theorem introducedSince_persistent (start : SymVars) : Persistent (IntroducedSince start) := by
  intro vars vars' n hvars h
  refine ⟨h.extends_start.trans hvars, fun s hs => ?_⟩
  rw [introduced_append h.extends_start.length_le hvars.length_le]
  exact List.mem_append_left _ (h.symvars s hs)

/-- The symbolic variables of a value are on the path already or have just been made. -/
theorem seExpr_introduced {start : SymVars} {leaf : SetNode} {e : Expr} :
    ∀ {vars vars' : SymVars} {se : Expr}, IntroducedSince start vars leaf →
      seExpr leaf e vars = some (se, vars') → ∀ s ∈ se.symvars, s ∈ introduced start vars' := by
  induction e with
  | id vname =>
      intro vars vars' se hleaf h s hs
      obtain ⟨value, hvalue, rfl, rfl⟩ := seExpr_id_eq_some h
      exact hleaf.symvars s (SetNode.symvars_of_getVarValue hvalue s hs)
  | intConst n | boolConst b =>
      intro vars vars' se hleaf h s hs
      simp only [seExpr, Option.some.injEq, Prod.mk.injEq] at h
      rw [← h.1] at hs
      exact absurd hs List.not_mem_nil
  | add e1 e2 ih1 ih2 | sub e1 e2 ih1 ih2 | or e1 e2 ih1 ih2 | and e1 e2 ih1 ih2
  | equals e1 e2 ih1 ih2 =>
      intro vars vars' se hleaf h s hs
      obtain ⟨sv1, vars1, h1, sv2, vars2, h2, rfl, rfl⟩ := operands_eq_some h
      have hleaf1 := introducedSince_persistent start (seExpr_vars h1) hleaf
      -- The variables of the left operand come before those of the right one.
      rcases List.mem_append.mp hs with hs | hs
      · rw [introduced_append hleaf1.extends_start.length_le (seExpr_vars h2).length_le]
        exact List.mem_append_left _ (ih1 hleaf h1 s hs)
      · exact ih2 hleaf1 h2 s hs
  | not e ih =>
      intro vars vars' se hleaf h s hs
      obtain ⟨sv, vars1, h1, rfl, rfl⟩ := seExpr_not_eq_some h
      exact ih hleaf h1 s hs
  | input t =>
      intro vars vars' se hleaf h s hs
      simp only [seExpr, Option.some.injEq, Prod.mk.injEq] at h
      obtain ⟨rfl, rfl⟩ := h
      rw [introduced_append hleaf.extends_start.length_le (List.prefix_append vars [t]).length_le,
        introduced_input]
      exact List.mem_append_right _ hs

/-- A node for an assignment or a condition, after the evaluation of its expression. -/
theorem IntroducedSince.seExpr {start vars vars' : SymVars} {leaf : SetNode} {e se : Expr}
    (hleaf : IntroducedSince start vars leaf) (h : seExpr leaf e vars = some (se, vars')) :
    (∀ v d, IntroducedSince start vars' (.inode v se leaf d)) ∧
      (∀ d, IntroducedSince start vars' (.dnode se leaf d)) ∧
      (∀ d, IntroducedSince start vars' (.dnode (.not se) leaf d)) := by
  have hleaf' := introducedSince_persistent start (seExpr_vars h) hleaf
  have hnode : ∀ s ∈ se.symvars.foldl addNew leaf.symvars, s ∈ introduced start vars' := by
    intro s hs
    rcases mem_foldl_addNew.mp hs with hs | hs
    · exact hleaf'.symvars s hs
    · exact seExpr_introduced hleaf h s hs
  have hstart := hleaf'.extends_start
  exact ⟨fun v d => ⟨hstart, hnode⟩, fun d => ⟨hstart, hnode⟩, fun d => ⟨hstart, hnode⟩⟩

mutual

theorem seStmt_introduced (start : SymVars) (maxdepth : Int) :
    ∀ stmt : Stmt, (seStmt maxdepth stmt).Keeps (IntroducedSince start)
  | .assignment vname e => by
      intro leaf vars r vars' hleaf h
      rw [seStmt_assignment] at h
      obtain ⟨se, h1, rfl⟩ := seAssignment_eq_some h
      have hnode := (hleaf.seExpr h1).1 (.id vname) (leaf.depth + 1)
      split
      · simpa using hnode
      · simpa using hnode
  | .ifStmt b s1 s2 => by
      intro leaf vars r vars' hleaf h
      obtain ⟨sb, vars0, h0, tdone, tleaves, vars1, h1, fdone, fleaves, vars2, h2, rfl, rfl⟩ :=
        seStmt_ifStmt_eq_some h
      have ⟨_, htrue, hfalse⟩ := hleaf.seExpr h0
      have hvars1 := (seStmt_grows maxdepth s1 _ _ _ _ h1).vars
      have hvars2 := (seStmt_grows maxdepth s2 _ _ _ _ h2).vars
      -- The second branch starts with the counter that the first one has left.
      have ht := seStmt_introduced start maxdepth s1 _ _ _ _ (htrue _) h1
      have hf := seStmt_introduced start maxdepth s2 _ _ _ _
        (introducedSince_persistent start hvars1 (hfalse _)) h2
      intro n hn
      simp only [List.mem_append] at hn
      rcases hn with (hn | hn) | (hn | hn)
      · exact introducedSince_persistent start hvars2 (ht n (List.mem_append_left _ hn))
      · exact hf n (List.mem_append_left _ hn)
      · exact introducedSince_persistent start hvars2 (ht n (List.mem_append_right _ hn))
      · exact hf n (List.mem_append_right _ hn)
  | .block stmts => by
      intro leaf vars r vars' hleaf h
      have hloop := seStmt_block_eq_some h
      exact seStmtblockLoop_keeps (introducedSince_persistent start)
        (seStmtblock_introduced start maxdepth stmts) hloop (by simpa using hleaf)

theorem seStmtblock_introduced (start : SymVars) (maxdepth : Int) :
    ∀ stmts : List Stmt, ∀ stmt ∈ stmts, (seStmt maxdepth stmt).Keeps (IntroducedSince start)
  | [] => fun _ hstmt => absurd hstmt List.not_mem_nil
  | stmt :: stmts => List.forall_mem_cons.mpr
      ⟨seStmt_introduced start maxdepth stmt, seStmtblock_introduced start maxdepth stmts⟩

end

/-- A declaration records no symbolic variable. -/
theorem symvars_tyInit (t : Typ) : (tyInit t).symvars = [] := by
  cases t <;> rfl

theorem seDeclsLoop_introduced (start : SymVars) {maxdepth : Int} :
    ∀ {decls : List (String × Typ)} {done leaves : List SetNode} {vars vars' : SymVars}
    {r : DoneLeaves}, seDeclsLoop maxdepth decls done leaves vars = some (r, vars') →
      (∀ n ∈ done ++ leaves, IntroducedSince start vars n) →
      ∀ n ∈ r.1 ++ r.2, IntroducedSince start vars' n := by
  intro decls
  induction decls with
  | nil =>
      intro done leaves vars vars' r h hacc
      obtain ⟨rfl, rfl⟩ := seDeclsLoop_nil_eq_some h
      exact hacc
  | cons decl decls ih =>
      intro done leaves vars vars' r h hacc
      obtain ⟨d, l, vars1, h1, hrest⟩ := seDeclsLoop_cons_eq_some h
      have hgrowing := seDecl_grows maxdepth decl
      have hstep : LeafStep.Keeps (IntroducedSince start)
          (fun leaf vars => some (seDecl maxdepth decl leaf, vars)) := by
        intro leaf vars r vars' hleaf h
        simp only [Option.some.injEq, Prod.mk.injEq] at h
        obtain ⟨rfl, rfl⟩ := h
        have hnode : IntroducedSince start vars
            (.inode (.id decl.1) (tyInit decl.2) leaf (leaf.depth + 1)) := by
          refine ⟨hleaf.extends_start, ?_⟩
          simpa [SetNode.symvars, symvars_tyInit] using hleaf.symvars
        simp only [seDecl]
        split <;> simpa using hnode
      have hround : ∀ n ∈ d ++ l, IntroducedSince start vars1 n :=
        seAllLoop_keeps (introducedSince_persistent start)
          (fun leaf vars r vars' h => (hgrowing leaf vars r vars' h).vars) hstep h1
          (fun m hm => hacc m (List.mem_append_right _ hm)) (by simp)
      have hvars1 := (seAllLoop_grows hgrowing h1).2
      refine ih hrest fun n hn => ?_
      simp only [List.mem_append] at hn
      rcases hn with (hn | hn) | hn
      · exact hround n (List.mem_append_left _ hn)
      · exact introducedSince_persistent start hvars1 (hacc n (List.mem_append_left _ hn))
      · exact hround n (List.mem_append_right _ hn)

theorem seProg_introduced {p : Program} {maxdepth : Int} {vars vars' : SymVars} {r : DoneLeaves}
    (h : seProg p maxdepth vars = some (r, vars')) :
    ∀ n ∈ r.1 ++ r.2, ∀ s ∈ n.symvars, s ∈ introduced vars vars' := by
  obtain ⟨ds, ls, vars1, hdecls, ds', ls', vars2, hstmt, rfl, rfl⟩ := seProg_eq_some h
  have hentry : IntroducedSince vars vars .entryNode :=
    ⟨List.prefix_refl _, fun s hs => absurd hs List.not_mem_nil⟩
  have hfirst : ∀ n ∈ ds ++ ls, IntroducedSince vars vars1 n :=
    seDeclsLoop_introduced vars hdecls (by simpa using hentry)
  have hgrowing := seStmt_grows maxdepth p.statement
  have hvars2 := (seAllLoop_grows hgrowing hstmt).2
  have hnodes : ∀ n ∈ ds' ++ ls', IntroducedSince vars vars2 n :=
    seAllLoop_keeps (introducedSince_persistent vars)
      (fun leaf vars r vars' h => (hgrowing leaf vars r vars' h).vars)
      (seStmt_introduced vars maxdepth p.statement) hstmt
      (fun l hl => hfirst l (List.mem_append_right _ hl)) (by simp)
  intro n hn
  simp only [List.mem_append] at hn
  rcases hn with (hn | hn) | hn
  · exact (introducedSince_persistent vars hvars2 (hfirst n (List.mem_append_left _ hn))).symvars
  · exact (hnodes n (List.mem_append_left _ hn)).symvars
  · exact (hnodes n (List.mem_append_right _ hn)).symvars

/-! ### Programs -/

/-- The identifiers of the tree of a program tell the inputs apart: the evaluations of an
`Input` introduce different names, none of which a variable has, and every identifier in a
recorded value or condition is the name of exactly one of them. -/
structure Unambiguous (p : Program) (vars vars' : SymVars) (r : DoneLeaves) : Prop where
  distinct : (introduced vars vars').Nodup
  undeclared : ∀ s ∈ introduced vars vars', ∀ t, (s, t) ∉ p.decls
  denotes : ∀ n ∈ r.1 ++ r.2, ∀ s ∈ n.symvars,
    (introduced vars vars').count s = 1 ∧ ∀ t, (s, t) ∉ p.decls

/-- An accepted program has an unambiguous tree exactly when it does not declare one of the
next names, as many as there are `Input`s to evaluate. -/
theorem seProg_unambiguous_iff {p : Program} (hp : typecheckProg p = .ok ()) (maxdepth : Int)
    (vars : SymVars) :
    ∃ r vars', seProg p maxdepth vars = some (r, vars') ∧
      (Unambiguous p vars vars' r ↔
        ∀ k, vars.length < k → k ≤ vars.length + p.inputCount maxdepth →
          ∀ t, (symvarName k, t) ∉ p.decls) := by
  obtain ⟨⟨r, vars'⟩, h⟩ := seProg_total hp maxdepth vars
  have hcount := seProg_count h
  have hundeclared : (∀ s ∈ introduced vars vars', ∀ t, (s, t) ∉ p.decls) ↔
      ∀ k, vars.length < k → k ≤ vars.length + p.inputCount maxdepth →
        ∀ t, (symvarName k, t) ∉ p.decls := by
    constructor
    -- The name with the number `k` is that of the input with the index `k - 1`.
    · intro hnames k hk hk'
      have hpred : k - 1 + 1 = k := by omega
      exact hnames (symvarName k) (mem_introduced.mpr ⟨k - 1, by omega, by rw [hpred]⟩)
    · intro hnames s hs
      obtain ⟨i, hi, rfl⟩ := mem_introduced.mp hs
      exact hnames (i + 1) (by omega) (by omega)
  refine ⟨r, vars', h, fun hun => hundeclared.mp hun.undeclared, fun hnames => ?_⟩
  have hdistinct := nodup_introduced vars vars'
  have hall := hundeclared.mpr hnames
  refine ⟨hdistinct, hall, fun n hn s hs => ?_⟩
  have hs := seProg_introduced h n hn s hs
  exact ⟨List.count_eq_one_of_mem hdistinct hs, hall s hs⟩

theorem seProg_unambiguous_iff_example5 :
    ∃ r vars', seProg example5 7 [] = some (r, vars') ∧
      (Unambiguous example5 [] vars' r ↔
        ∀ k, ([] : SymVars).length < k → k ≤ ([] : SymVars).length + example5.inputCount 7 →
          ∀ t, (symvarName k, t) ∉ example5.decls) :=
  seProg_unambiguous_iff (by decide) 7 []

/-- A variable that is called as the first symbolic variable will be. -/
def namedX1 : Program where
  decls := [("X1", .integer)]
  statement := .assignment "X1" (.input .integer)

theorem seProg_not_unambiguous : ¬ ∀ (p : Program) (maxdepth : Int) (vars : SymVars),
    typecheckProg p = .ok () → ∃ r vars', seProg p maxdepth vars = some (r, vars') ∧
      Unambiguous p vars vars' r := by
  intro hall
  obtain ⟨r, vars', h, hun⟩ := hall namedX1 3 [] (by decide)
  have ⟨r', hr⟩ : ∃ r', seProg namedX1 3 [] = some (r', [.integer]) := ⟨_, rfl⟩
  have hvars : vars' = [.integer] := (Prod.mk.inj (Option.some.inj (h.symm.trans hr))).2
  subst hvars
  have hmem : "X1" ∈ introduced [] [.integer] := mem_introduced.mpr ⟨0, by simp, rfl⟩
  exact hun.undeclared "X1" hmem .integer List.mem_cons_self

end Stabl.SimSee
