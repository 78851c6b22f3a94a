import Stabl.SimSee.Interpreter

/-!
# `Stabl.Proofs.SimSee.Growth`: what the executor adds to the tree

The executor extends its leaves and changes nothing behind them. A node *grows* from a
leaf when it comes from it by appending nodes whose depths count on (`SetNode.Grows`).
Every node of a result grows from a leaf that the call was given (`seStmt_grows`), and
`se_stmt_all` returns what the calls of `se_stmt` at its leaves return, in another order
(`seAllLoop_eq_seEach`). `executionTree_structure` collects what follows for the paths,
the roots and the depths.
-/

set_option autoImplicit false

namespace Stabl.SimSee

/-! ### What the calls return -/

section
variable {maxdepth : Int} {step : LeafStep} {l : SetNode} {ls done leaves leaves' : List SetNode}
  {vars vars' : SymVars} {r : DoneLeaves}

theorem seExpr_id_eq_some {vname : String} {se : Expr}
    (h : seExpr l (.id vname) vars = some (se, vars')) :
    ∃ value, l.getVarValue (.id vname) = some value ∧ value = se ∧ vars = vars' := by
  simpa only [seExpr, Option.bind_eq_bind, Option.bind_eq_some_iff, Option.pure_def,
    Option.some.injEq, Prod.mk.injEq] using h

/-- An expression with two operands, which are evaluated one after the other. -/
theorem operands_eq_some {f : Expr → Expr → Expr} {e1 e2 se : Expr}
    (h : (do
      let (sv1, vars) ← seExpr l e1 vars
      let (sv2, vars) ← seExpr l e2 vars
      pure (f sv1 sv2, vars)) = some (se, vars')) :
    ∃ sv1 vars1, seExpr l e1 vars = some (sv1, vars1) ∧
      ∃ sv2 vars2, seExpr l e2 vars1 = some (sv2, vars2) ∧ f sv1 sv2 = se ∧ vars2 = vars' := by
  simpa only [Option.bind_eq_bind, Option.bind_eq_some_iff, Option.pure_def, Option.some.injEq,
    Prod.mk.injEq, Prod.exists] using h

theorem seExpr_not_eq_some {e se : Expr} (h : seExpr l (.not e) vars = some (se, vars')) :
    ∃ sv vars1, seExpr l e vars = some (sv, vars1) ∧ .not sv = se ∧ vars1 = vars' := by
  simpa only [seExpr, Option.bind_eq_bind, Option.bind_eq_some_iff, Option.pure_def,
    Option.some.injEq, Prod.mk.injEq, Prod.exists] using h

theorem seAllLoop_nil_eq_some (h : seAllLoop step done leaves' [] vars = some (r, vars')) :
    (done, leaves') = r ∧ vars = vars' := by
  simpa only [seAllLoop, Option.some.injEq, Prod.mk.injEq] using h

/-- The step is made at the first leaf, and then at the others. -/
theorem seAllLoop_cons_eq_some
    (h : seAllLoop step done leaves' (l :: ls) vars = some (r, vars')) :
    ∃ d l' vars1, step l vars = some ((d, l'), vars1) ∧
      seAllLoop step (d ++ done) (l' ++ leaves') ls vars1 = some (r, vars') := by
  simpa only [seAllLoop, Option.bind_eq_bind, Option.bind_eq_some_iff, Prod.exists] using h

theorem seDeclsLoop_nil_eq_some (h : seDeclsLoop maxdepth [] done leaves vars = some (r, vars')) :
    (done, leaves) = r ∧ vars = vars' := by
  simpa only [seDeclsLoop, Option.some.injEq, Prod.mk.injEq] using h

/-- The first variable is declared at every leaf, and then the others. -/
theorem seDeclsLoop_cons_eq_some {decl : String × Typ} {decls : List (String × Typ)}
    (h : seDeclsLoop maxdepth (decl :: decls) done leaves vars = some (r, vars')) :
    ∃ d l vars1, seAllLoop (fun leaf vars => some (seDecl maxdepth decl leaf, vars)) [] []
        leaves vars = some ((d, l), vars1) ∧
      seDeclsLoop maxdepth decls (d ++ done) l vars1 = some (r, vars') := by
  simpa only [seDeclsLoop, Option.bind_eq_bind, Option.bind_eq_some_iff, Prod.exists] using h

theorem seStmtblockLoop_nil_eq_some
    (h : seStmtblockLoop maxdepth [] done leaves vars = some (r, vars')) :
    (done, leaves) = r ∧ vars = vars' := by
  simpa only [seStmtblockLoop, Option.some.injEq, Prod.mk.injEq] using h

/-- The first statement is executed at every leaf, and then the others. -/
theorem seStmtblockLoop_cons_eq_some {stmt : Stmt} {stmts : List Stmt}
    (h : seStmtblockLoop maxdepth (stmt :: stmts) done leaves vars = some (r, vars')) :
    ∃ d l vars1, seAllLoop (seStmt maxdepth stmt) [] [] leaves vars = some ((d, l), vars1) ∧
      seStmtblockLoop maxdepth stmts (d ++ done) l vars1 = some (r, vars') := by
  simpa only [seStmtblockLoop, Option.bind_eq_bind, Option.bind_eq_some_iff, Prod.exists] using h

/-- An assignment makes one node, which is done at the limit and a leaf before it. -/
theorem seAssignment_eq_some {vname : String} {e : Expr}
    (h : seAssignment maxdepth vname e l vars = some (r, vars')) :
    ∃ se, seExpr l e vars = some (se, vars') ∧
      r = if l.depth + 1 ≥ maxdepth then ([.inode (.id vname) se l (l.depth + 1)], [])
        else ([], [.inode (.id vname) se l (l.depth + 1)]) := by
  simp only [seAssignment, Option.bind_eq_bind, Option.bind_eq_some_iff, Prod.exists] at h
  obtain ⟨se, vars1, hse, h⟩ := h
  split at h
  · rename_i hd
    obtain ⟨rfl, rfl⟩ := Prod.mk.inj (Option.some.inj h)
    exact ⟨se, hse, (if_pos hd).symm⟩
  · rename_i hd
    obtain ⟨rfl, rfl⟩ := Prod.mk.inj (Option.some.inj h)
    exact ⟨se, hse, (if_neg hd).symm⟩

/-- Both branches of an if are executed, each at a node for its condition. -/
theorem seStmt_ifStmt_eq_some {b : Expr} {s1 s2 : Stmt}
    (h : seStmt maxdepth (.ifStmt b s1 s2) l vars = some (r, vars')) :
    ∃ sb vars0, seExpr l b vars = some (sb, vars0) ∧
      ∃ tdone tleaves vars1, seStmt maxdepth s1 (.dnode sb l (l.depth + 1)) vars0 =
          some ((tdone, tleaves), vars1) ∧
        ∃ fdone fleaves vars2, seStmt maxdepth s2 (.dnode (.not sb) l (l.depth + 1)) vars1 =
            some ((fdone, fleaves), vars2) ∧
          (tdone ++ fdone, tleaves ++ fleaves) = r ∧ vars2 = vars' := by
  simpa only [seStmt, Option.bind_eq_bind, Option.bind_eq_some_iff, Option.pure_def,
    Option.some.injEq, Prod.mk.injEq, Prod.exists] using h

theorem seStmt_assignment (vname : String) (e : Expr) :
    seStmt maxdepth (.assignment vname e) = seAssignment maxdepth vname e := by
  funext leaf vars
  rw [seStmt]

theorem seStmt_block_eq_some {stmts : List Stmt}
    (h : seStmt maxdepth (.block stmts) l vars = some (r, vars')) :
    seStmtblockLoop maxdepth stmts [] [l] vars = some (r, vars') := by
  rwa [seStmt] at h

/-- The statement is executed at the leaves that the declarations end in. -/
theorem seProg_eq_some {p : Program} (h : seProg p maxdepth vars = some (r, vars')) :
    ∃ ds ls vars1, seDeclsLoop maxdepth p.decls [] [.entryNode] vars = some ((ds, ls), vars1) ∧
      ∃ ds' ls' vars2, seAllLoop (seStmt maxdepth p.statement) [] [] ls vars1 =
          some ((ds', ls'), vars2) ∧
        (ds ++ ds', ls') = r ∧ vars2 = vars' := by
  simpa only [seProg, Option.bind_eq_bind, Option.bind_eq_some_iff, Option.pure_def,
    Option.some.injEq, Prod.mk.injEq, Prod.exists] using h

end

namespace SetNode

/-- The second node comes from the first by appending nodes, one deeper each. -/
inductive Grows (n : SetNode) : SetNode → Prop where
  | refl : Grows n n
  | inode {p : SetNode} (h : Grows n p) (v e : Expr) : Grows n (.inode v e p (p.depth + 1))
  | dnode {p : SetNode} (h : Grows n p) (c : Expr) : Grows n (.dnode c p (p.depth + 1))

theorem Grows.trans {l m n : SetNode} (h : l.Grows m) (h' : m.Grows n) : l.Grows n := by
  induction h' with
  | refl => exact h
  | inode _ v e ih => exact .inode ih v e
  | dnode _ c ih => exact .dnode ih c

/-- A node on the path of an appended node is on the path behind it, or new. -/
theorem Grows.path_suffix {n m : SetNode} (h : n.Grows m) : n.path <:+ m.path := by
  induction h with
  | refl => exact List.suffix_refl _
  | inode _ v e ih | dnode _ c ih => exact ih.trans (List.suffix_cons _ _)

theorem self_mem_path (n : SetNode) : n ∈ n.path := by
  cases n <;> simp [path]

theorem Grows.mem_path {n m : SetNode} (h : n.Grows m) : n ∈ m.path :=
  h.path_suffix.subset n.self_mem_path

theorem Grows.getRoot_eq {n m : SetNode} (h : n.Grows m) : m.getRoot = n.getRoot := by
  induction h with
  | refl => rfl
  | inode _ v e ih | dnode _ c ih => simpa [getRoot] using ih

/-- The depth of every node on the path is the number of its proper ancestors. -/
def Numbered (n : SetNode) : Prop :=
  ∀ k ∈ n.path, k.depth = (k.path.length : Int) - 1

theorem Numbered.depth_eq {n : SetNode} (h : n.Numbered) :
    n.depth = (n.path.length : Int) - 1 :=
  h n n.self_mem_path

theorem numbered_entryNode : entryNode.Numbered := by
  intro k hk
  rw [List.mem_singleton.mp hk]
  rfl

theorem Grows.numbered {n m : SetNode} (h : n.Grows m) (hn : n.Numbered) : m.Numbered := by
  induction h with
  | refl => exact hn
  | inode _ v e ih | dnode _ c ih =>
      intro k hk
      rcases List.mem_cons.mp hk with rfl | hk
      · have hdepth := ih.depth_eq
        show SetNode.depth _ + 1 = _
        simp only [path, List.length_cons]
        omega
      · exact ih k hk

end SetNode

/-- The result of steps at a leaf: its nodes grow from the leaf, and the symbolic variables
made before are still there. -/
structure Grown (leaf : SetNode) (vars : SymVars) (r : DoneLeaves) (vars' : SymVars) : Prop where
  nodes : ∀ n ∈ r.1 ++ r.2, leaf.Grows n
  vars : vars <+: vars'

/-- A step whose results grow from its leaf. -/
def LeafStep.Growing (step : LeafStep) : Prop :=
  ∀ leaf vars r vars', step leaf vars = some (r, vars') → Grown leaf vars r vars'

/-! ### A step at every leaf -/

/-- The results of a step at each of the leaves, in turn. -/
def seEach (step : LeafStep) : (leaves : List SetNode) → SymVars →
    Option (List DoneLeaves × SymVars)
  | [], vars => some ([], vars)
  | l :: ls, vars => do
    let (r, vars) ← step l vars
    let (rs, vars) ← seEach step ls vars
    pure (r :: rs, vars)

theorem seEach_nil_eq_some {step : LeafStep} {vars vars' : SymVars} {rs : List DoneLeaves}
    (h : seEach step [] vars = some (rs, vars')) : [] = rs ∧ vars = vars' := by
  simpa only [seEach, Option.some.injEq, Prod.mk.injEq] using h

theorem seEach_cons_eq_some {step : LeafStep} {l : SetNode} {ls : List SetNode}
    {vars vars' : SymVars} {rs : List DoneLeaves}
    (h : seEach step (l :: ls) vars = some (rs, vars')) :
    ∃ d l' vars1, step l vars = some ((d, l'), vars1) ∧
      ∃ rs' vars2, seEach step ls vars1 = some (rs', vars2) ∧
        (d, l') :: rs' = rs ∧ vars2 = vars' := by
  simpa only [seEach, Option.bind_eq_bind, Option.bind_eq_some_iff, Option.pure_def,
    Option.some.injEq, Prod.mk.injEq, Prod.exists] using h

/-- The loop puts the results of the calls in front of each other. -/
theorem seAllLoop_eq_seEach {step : LeafStep} {leaves : List SetNode} :
    ∀ {done leaves' : List SetNode} {vars : SymVars},
      seAllLoop step done leaves' leaves vars =
        (seEach step leaves vars).map fun (rs, vars') =>
          ((rs.reverse.flatMap Prod.fst ++ done, rs.reverse.flatMap Prod.snd ++ leaves'),
            vars') := by
  induction leaves with
  | nil => exact fun {done leaves' vars} => rfl
  | cons l ls ih =>
      intro done leaves' vars
      simp only [seAllLoop, seEach, Option.bind_eq_bind]
      cases step l vars with
      | none => rfl
      | some result =>
          obtain ⟨⟨d, l'⟩, vars1⟩ := result
          -- What the first call returns goes into the accumulators, and `ih` puts it behind the
          -- others.
          simp only [Option.bind_some, ih]
          cases seEach step ls vars1 with
          | none => rfl
          | some rest => simp

theorem seAllLoop_eq_some {step : LeafStep} {leaves done leaves' : List SetNode}
    {vars vars' : SymVars} {r : DoneLeaves}
    (h : seAllLoop step done leaves' leaves vars = some (r, vars')) :
    ∃ rs, seEach step leaves vars = some (rs, vars') ∧
      r = (rs.reverse.flatMap Prod.fst ++ done, rs.reverse.flatMap Prod.snd ++ leaves') := by
  rw [seAllLoop_eq_seEach, Option.map_eq_some_iff] at h
  obtain ⟨⟨rs, vars1⟩, hrs, heq⟩ := h
  obtain ⟨rfl, rfl⟩ := Prod.mk.inj heq
  exact ⟨rs, hrs, rfl⟩

/-- As multisets, the nodes of the loop are those of the calls. -/
theorem seAllLoop_perm {step : LeafStep} {leaves : List SetNode} {vars vars' : SymVars}
    {r : DoneLeaves} (h : seAllLoop step [] [] leaves vars = some (r, vars')) :
    ∃ rs, seEach step leaves vars = some (rs, vars') ∧
      r.1.Perm (rs.flatMap Prod.fst) ∧ r.2.Perm (rs.flatMap Prod.snd) := by
  obtain ⟨rs, hrs, rfl⟩ := seAllLoop_eq_some h
  refine ⟨rs, hrs, ?_, ?_⟩
  · simpa using (List.reverse_perm rs).flatMap_right Prod.fst
  · simpa using (List.reverse_perm rs).flatMap_right Prod.snd

/-- What a step tells of its results at each leaf, it tells of the results at all of them. -/
theorem seEach_related {R : SetNode → SetNode → Prop} {step : LeafStep}
    (hstep : ∀ leaf vars r vars', step leaf vars = some (r, vars') →
      (∀ n ∈ r.1 ++ r.2, R leaf n) ∧ vars <+: vars')
    {leaves : List SetNode} : ∀ {vars vars' : SymVars} {rs : List DoneLeaves},
      seEach step leaves vars = some (rs, vars') →
      (∀ r ∈ rs, ∀ n ∈ r.1 ++ r.2, ∃ l ∈ leaves, R l n) ∧ vars <+: vars' := by
  induction leaves with
  | nil =>
      intro vars vars' rs h
      obtain ⟨rfl, rfl⟩ := seEach_nil_eq_some h
      exact ⟨by simp, List.prefix_refl _⟩
  | cons l ls ih =>
      intro vars vars' rs h
      obtain ⟨d, l', vars1, h1, rs', vars2, h2, rfl, rfl⟩ := seEach_cons_eq_some h
      have ⟨hnodes1, hvars1⟩ := hstep l vars _ vars1 h1
      have ⟨hnodes2, hvars2⟩ := ih h2
      refine ⟨fun r hr n hn => ?_, hvars1.trans hvars2⟩
      rcases List.mem_cons.mp hr with rfl | hr
      · exact ⟨l, List.mem_cons_self, hnodes1 n hn⟩
      · have ⟨m, hm, hmn⟩ := hnodes2 r hr n hn
        exact ⟨m, List.mem_cons_of_mem _ hm, hmn⟩

theorem seAllLoop_related {R : SetNode → SetNode → Prop} {step : LeafStep}
    (hstep : ∀ leaf vars r vars', step leaf vars = some (r, vars') →
      (∀ n ∈ r.1 ++ r.2, R leaf n) ∧ vars <+: vars')
    {leaves done leaves' : List SetNode} {vars vars' : SymVars} {r : DoneLeaves}
    (h : seAllLoop step done leaves' leaves vars = some (r, vars')) :
    (∀ n ∈ r.1 ++ r.2, n ∈ done ++ leaves' ∨ ∃ l ∈ leaves, R l n) ∧ vars <+: vars' := by
  obtain ⟨rs, hrs, rfl⟩ := seAllLoop_eq_some h
  have ⟨hnodes, hvars⟩ := seEach_related hstep hrs
  refine ⟨fun n hn => ?_, hvars⟩
  simp only [List.mem_append, List.mem_flatMap, List.mem_reverse] at hn
  rcases hn with (⟨r, hr, hn⟩ | hn) | (⟨r, hr, hn⟩ | hn)
  · exact Or.inr (hnodes r hr n (List.mem_append_left _ hn))
  · exact Or.inl (List.mem_append_left _ hn)
  · exact Or.inr (hnodes r hr n (List.mem_append_right _ hn))
  · exact Or.inl (List.mem_append_right _ hn)

/-- The results of a step at every leaf grow from the leaves. -/
theorem seAllLoop_grows {step : LeafStep} (hstep : step.Growing) {leaves : List SetNode}
    {vars vars' : SymVars} {r : DoneLeaves}
    (h : seAllLoop step [] [] leaves vars = some (r, vars')) :
    (∀ n ∈ r.1 ++ r.2, ∃ l ∈ leaves, l.Grows n) ∧ vars <+: vars' := by
  have hrelated : ∀ leaf vars r vars', step leaf vars = some (r, vars') →
      (∀ n ∈ r.1 ++ r.2, leaf.Grows n) ∧ vars <+: vars' :=
    fun leaf vars r vars' h => ⟨(hstep leaf vars r vars' h).nodes, (hstep leaf vars r vars' h).vars⟩
  have ⟨hnodes, hvars⟩ := seAllLoop_related hrelated h
  exact ⟨fun n hn => (hnodes n hn).resolve_left (by simp), hvars⟩

/-! ### Statements and declarations -/

theorem seExpr_vars {leaf : SetNode} {e : Expr} : ∀ {vars vars' : SymVars} {se : Expr},
    seExpr leaf e vars = some (se, vars') → vars <+: vars' := by
  induction e with
  | id vname =>
      intro vars vars' se h
      obtain ⟨_, _, _, rfl⟩ := seExpr_id_eq_some h
      exact List.prefix_refl _
  | intConst n | boolConst b =>
      intro vars vars' se h
      simp only [seExpr, Option.some.injEq, Prod.mk.injEq] at h
      exact h.2 ▸ List.prefix_refl _
  | add e1 e2 ih1 ih2 | sub e1 e2 ih1 ih2 | or e1 e2 ih1 ih2 | and e1 e2 ih1 ih2
  | equals e1 e2 ih1 ih2 =>
      intro vars vars' se h
      obtain ⟨sv1, vars1, h1, sv2, vars2, h2, _, rfl⟩ := operands_eq_some h
      exact (ih1 h1).trans (ih2 h2)
  | not e ih =>
      intro vars vars' se h
      obtain ⟨sv, vars1, h1, _, rfl⟩ := seExpr_not_eq_some h
      exact ih h1
  | input t =>
      intro vars vars' se h
      simp only [seExpr, Option.some.injEq, Prod.mk.injEq] at h
      exact h.2 ▸ List.prefix_append _ _

/-- Before the first round of a loop, its nodes are those it has and its leaves. -/
theorem grows_of_no_round {done leaves : List SetNode} :
    ∀ n ∈ done ++ leaves, n ∈ done ∨ ∃ l ∈ leaves, l.Grows n := by
  intro n hn
  rcases List.mem_append.mp hn with hn | hn
  · exact Or.inl hn
  · exact Or.inr ⟨n, hn, .refl⟩

/-- A round of the loop over a block or over the declarations, and the rounds after it. -/
theorem grows_of_round {done leaves d l : List SetNode} {r : DoneLeaves}
    (hround : ∀ n ∈ d ++ l, ∃ k ∈ leaves, k.Grows n)
    (hrest : ∀ n ∈ r.1 ++ r.2, n ∈ d ++ done ∨ ∃ m ∈ l, m.Grows n) :
    ∀ n ∈ r.1 ++ r.2, n ∈ done ∨ ∃ k ∈ leaves, k.Grows n := by
  intro n hn
  rcases hrest n hn with hn | ⟨m, hm, hmn⟩
  · rcases List.mem_append.mp hn with hn | hn
    · exact Or.inr (hround n (List.mem_append_left _ hn))
    · exact Or.inl hn
  · have ⟨k, hk, hkm⟩ := hround m (List.mem_append_right _ hm)
    exact Or.inr ⟨k, hk, hkm.trans hmn⟩

/-- From one leaf, the loop over a block has nodes that grow from it. -/
theorem grows_of_singleton {r : DoneLeaves} {leaf : SetNode}
    (h : ∀ n ∈ r.1 ++ r.2, n ∈ ([] : List SetNode) ∨ ∃ l ∈ [leaf], l.Grows n) :
    ∀ n ∈ r.1 ++ r.2, leaf.Grows n := by
  intro n hn
  obtain ⟨l, hl, hln⟩ := (h n hn).resolve_left (by simp)
  rwa [List.mem_singleton.mp hl] at hln

theorem seAssignment_grows {maxdepth : Int} {vname : String} {e : Expr} :
    LeafStep.Growing (seAssignment maxdepth vname e) := by
  intro leaf vars r vars' h
  obtain ⟨se, h1, rfl⟩ := seAssignment_eq_some h
  have hgrows : leaf.Grows (.inode (.id vname) se leaf (leaf.depth + 1)) := .inode .refl _ _
  refine ⟨?_, seExpr_vars h1⟩
  -- Whether the node is done or a leaf depends on its depth, but it is there in both branches.
  split
  · simpa using hgrows
  · simpa using hgrows

mutual

theorem seStmt_grows (maxdepth : Int) : ∀ stmt : Stmt, LeafStep.Growing (seStmt maxdepth stmt)
  | .assignment vname e => by
      rw [seStmt_assignment]
      exact seAssignment_grows
  | .ifStmt b s1 s2 => by
      intro leaf vars r vars' h
      obtain ⟨sb, vars0, h0, tdone, tleaves, vars1, h1, fdone, fleaves, vars2, h2, rfl, rfl⟩ :=
        seStmt_ifStmt_eq_some h
      -- The branches start at the two nodes for the condition, which come right behind the leaf.
      have ht := seStmt_grows maxdepth s1 _ _ _ _ h1
      have hf := seStmt_grows maxdepth s2 _ _ _ _ h2
      have hnode : ∀ c, leaf.Grows (.dnode c leaf (leaf.depth + 1)) := fun c => .dnode .refl c
      refine ⟨fun n hn => ?_, (seExpr_vars h0).trans (ht.vars.trans hf.vars)⟩
      simp only [List.mem_append] at hn
      rcases hn with (hn | hn) | (hn | hn)
      · exact (hnode _).trans (ht.nodes n (List.mem_append_left _ hn))
      · exact (hnode _).trans (hf.nodes n (List.mem_append_left _ hn))
      · exact (hnode _).trans (ht.nodes n (List.mem_append_right _ hn))
      · exact (hnode _).trans (hf.nodes n (List.mem_append_right _ hn))
  | .block stmts => by
      intro leaf vars r vars' h
      have ⟨hnodes, hvars⟩ := seStmtblockLoop_grows maxdepth stmts (seStmt_block_eq_some h)
      exact ⟨grows_of_singleton hnodes, hvars⟩

theorem seStmtblockLoop_grows (maxdepth : Int) :
    ∀ (stmts : List Stmt) {done leaves : List SetNode} {vars vars' : SymVars} {r : DoneLeaves},
      seStmtblockLoop maxdepth stmts done leaves vars = some (r, vars') →
      (∀ n ∈ r.1 ++ r.2, n ∈ done ∨ ∃ l ∈ leaves, l.Grows n) ∧ vars <+: vars'
  | [], done, leaves, vars, vars', r, h => by
      obtain ⟨rfl, rfl⟩ := seStmtblockLoop_nil_eq_some h
      exact ⟨grows_of_no_round, List.prefix_refl _⟩
  | stmt :: stmts, done, leaves, vars, vars', r, h => by
      obtain ⟨d, l, vars1, h1, hrest⟩ := seStmtblockLoop_cons_eq_some h
      have ⟨hround, hvars1⟩ := seAllLoop_grows (seStmt_grows maxdepth stmt) h1
      have ⟨hnodes, hvars⟩ := seStmtblockLoop_grows maxdepth stmts hrest
      exact ⟨grows_of_round hround hnodes, hvars1.trans hvars⟩

end

theorem seDecl_grows (maxdepth : Int) (decl : String × Typ) :
    LeafStep.Growing (fun leaf vars => some (seDecl maxdepth decl leaf, vars)) := by
  intro leaf vars r vars' h
  simp only [Option.some.injEq, Prod.mk.injEq] at h
  obtain ⟨rfl, rfl⟩ := h
  have hgrows : leaf.Grows (.inode (.id decl.1) (tyInit decl.2) leaf (leaf.depth + 1)) :=
    .inode .refl _ _
  refine ⟨?_, List.prefix_refl _⟩
  unfold seDecl
  dsimp only
  split
  · simpa using hgrows
  · simpa using hgrows

theorem seDeclsLoop_grows (maxdepth : Int) : ∀ (decls : List (String × Typ))
    {done leaves : List SetNode} {vars vars' : SymVars} {r : DoneLeaves},
      seDeclsLoop maxdepth decls done leaves vars = some (r, vars') →
      (∀ n ∈ r.1 ++ r.2, n ∈ done ∨ ∃ l ∈ leaves, l.Grows n) ∧ vars <+: vars' := by
  intro decls
  induction decls with
  | nil =>
      intro done leaves vars vars' r h
      obtain ⟨rfl, rfl⟩ := seDeclsLoop_nil_eq_some h
      exact ⟨grows_of_no_round, List.prefix_refl _⟩
  | cons decl decls ih =>
      intro done leaves vars vars' r h
      obtain ⟨d, l, vars1, h1, hrest⟩ := seDeclsLoop_cons_eq_some h
      have ⟨hround, hvars1⟩ := seAllLoop_grows (seDecl_grows maxdepth decl) h1
      have ⟨hnodes, hvars⟩ := ih hrest
      exact ⟨grows_of_round hround hnodes, hvars1.trans hvars⟩

/-! ### Invariants of the nodes -/

/-- From leaves with the property the step makes nodes that have it. -/
def LeafStep.Keeps (P : SymVars → SetNode → Prop) (step : LeafStep) : Prop :=
  ∀ leaf vars r vars', P vars leaf → step leaf vars = some (r, vars') →
    ∀ n ∈ r.1 ++ r.2, P vars' n

/-- What holds of a node still does when more symbolic variables have been made. -/
def Persistent (P : SymVars → SetNode → Prop) : Prop :=
  ∀ ⦃vars vars' : SymVars⦄ ⦃n : SetNode⦄, vars <+: vars' → P vars n → P vars' n

section Keeps

variable {P : SymVars → SetNode → Prop} (hP : Persistent P)

include hP

/-- The variables made at one leaf leave what holds of the others as it was. -/
theorem seAllLoop_keeps {step : LeafStep} (hvars : ∀ leaf vars r vars',
      step leaf vars = some (r, vars') → vars <+: vars')
    (hstep : step.Keeps P) {leaves : List SetNode} :
    ∀ {done leaves' : List SetNode} {vars vars' : SymVars} {r : DoneLeaves},
      seAllLoop step done leaves' leaves vars = some (r, vars') →
      (∀ l ∈ leaves, P vars l) → (∀ n ∈ done ++ leaves', P vars n) →
      ∀ n ∈ r.1 ++ r.2, P vars' n := by
  induction leaves with
  | nil =>
      intro done leaves' vars vars' r h _ hacc
      obtain ⟨rfl, rfl⟩ := seAllLoop_nil_eq_some h
      exact hacc
  | cons l ls ih =>
      intro done leaves' vars vars' r h hleaves hacc
      obtain ⟨d, l', vars1, h1, hrest⟩ := seAllLoop_cons_eq_some h
      have hvars1 := hvars l vars _ vars1 h1
      have hround := hstep l vars _ vars1 (hleaves l List.mem_cons_self) h1
      -- The call for `l` can make new variables; what held of the other nodes persists.
      refine ih hrest (fun m hm => hP hvars1 (hleaves m (List.mem_cons_of_mem _ hm))) ?_
      intro n hn
      simp only [List.mem_append] at hn
      rcases hn with (hn | hn) | (hn | hn)
      · exact hround n (List.mem_append_left _ hn)
      · exact hP hvars1 (hacc n (List.mem_append_left _ hn))
      · exact hround n (List.mem_append_right _ hn)
      · exact hP hvars1 (hacc n (List.mem_append_right _ hn))

/-- What the nodes for assignments and conditions keep, a block keeps. -/
theorem seStmtblockLoop_keeps {maxdepth : Int} : ∀ {stmts : List Stmt} {done leaves : List SetNode}
    {vars vars' : SymVars} {r : DoneLeaves},
    (∀ stmt ∈ stmts, (seStmt maxdepth stmt).Keeps P) →
    seStmtblockLoop maxdepth stmts done leaves vars = some (r, vars') →
    (∀ n ∈ done ++ leaves, P vars n) → ∀ n ∈ r.1 ++ r.2, P vars' n := by
  intro stmts
  induction stmts with
  | nil =>
      intro done leaves vars vars' r _ h hacc
      obtain ⟨rfl, rfl⟩ := seStmtblockLoop_nil_eq_some h
      exact hacc
  | cons stmt stmts ih =>
      intro done leaves vars vars' r hstmts h hacc
      obtain ⟨d, l, vars1, h1, hrest⟩ := seStmtblockLoop_cons_eq_some h
      have hgrowing := seStmt_grows maxdepth stmt
      have hstep := hstmts stmt List.mem_cons_self
      have hround : ∀ n ∈ d ++ l, P vars1 n :=
        seAllLoop_keeps hP (fun leaf vars r vars' h => (hgrowing leaf vars r vars' h).vars) hstep
          h1 (fun m hm => hacc m (List.mem_append_right _ hm)) (by simp)
      have hvars1 := (seAllLoop_grows hgrowing h1).2
      refine ih (fun s hs => hstmts s (List.mem_cons_of_mem _ hs)) hrest ?_
      intro n hn
      simp only [List.mem_append] at hn
      rcases hn with (hn | hn) | hn
      · exact hround n (List.mem_append_left _ hn)
      · exact hP hvars1 (hacc n (List.mem_append_left _ hn))
      · exact hround n (List.mem_append_right _ hn)

end Keeps

/-! ### The structure of the tree -/

/-- The second node comes after the first on one path: it has the path of the first behind
it, the same root, and if the depths count the nodes up to the first they go on to do so. -/
structure SetNode.Continues (n m : SetNode) : Prop where
  path : n.path <:+ m.path
  root : m.getRoot = n.getRoot
  numbered : n.Numbered → m.Numbered

theorem SetNode.Grows.continues {n m : SetNode} (h : n.Grows m) : n.Continues m :=
  ⟨h.path_suffix, h.getRoot_eq, h.numbered⟩

/-- Every node that a call returns continues a leaf of the call, and the call for a list of
leaves returns the nodes of the calls for each leaf. -/
theorem executionTree_structure (maxdepth : Int) :
    (∀ (stmt : Stmt) (n : SetNode) (vars : SymVars) (r : DoneLeaves) (vars' : SymVars),
      seStmt maxdepth stmt n vars = some (r, vars') → ∀ m ∈ r.1 ++ r.2, n.Continues m) ∧
    (∀ (stmts : List Stmt) (n : SetNode) (vars : SymVars) (r : DoneLeaves) (vars' : SymVars),
      seStmtblock maxdepth stmts n vars = some (r, vars') → ∀ m ∈ r.1 ++ r.2, n.Continues m) ∧
    (∀ (decls : List (String × Typ)) (n : SetNode) (vars : SymVars) (r : DoneLeaves)
      (vars' : SymVars),
      seDecls maxdepth decls n vars = some (r, vars') → ∀ m ∈ r.1 ++ r.2, n.Continues m) ∧
    (∀ (stmt : Stmt) (leaves : List SetNode) (vars : SymVars) (r : DoneLeaves) (vars' : SymVars),
      seStmtAll maxdepth stmt leaves vars = some (r, vars') →
      (∀ m ∈ r.1 ++ r.2, ∃ n ∈ leaves, n.Continues m) ∧
      ∃ rs, seEach (seStmt maxdepth stmt) leaves vars = some (rs, vars') ∧
        r.1.Perm (rs.flatMap Prod.fst) ∧ r.2.Perm (rs.flatMap Prod.snd)) := by
  refine ⟨?_, ?_, ?_, ?_⟩
  · intro stmt n vars r vars' h m hm
    exact ((seStmt_grows maxdepth stmt n vars r vars' h).nodes m hm).continues
  · intro stmts n vars r vars' h m hm
    have hnodes := (seStmtblockLoop_grows maxdepth stmts h).1
    exact (grows_of_singleton hnodes m hm).continues
  · intro decls n vars r vars' h m hm
    have hnodes := (seDeclsLoop_grows maxdepth decls h).1
    exact (grows_of_singleton hnodes m hm).continues
  · intro stmt leaves vars r vars' h
    refine ⟨fun m hm => ?_, seAllLoop_perm h⟩
    have ⟨n, hn, hgrows⟩ := (seAllLoop_grows (seStmt_grows maxdepth stmt) h).1 m hm
    exact ⟨n, hn, hgrows.continues⟩

end Stabl.SimSee
