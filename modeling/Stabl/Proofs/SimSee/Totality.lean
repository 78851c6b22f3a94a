import Stabl.Proofs.SimSee.Growth
import Stabl.SimSee.Semantics
import Stabl.Lib.Result

/-!
# `Stabl.Proofs.SimSee.Totality`: the executor and the concrete runs do not get stuck

On a program that the typechecker accepts, the symbolic executor finds a value for every
variable on every leaf (`seStmt_total`), and a concrete run has a state after every
statement (`execStmt_total`). For the first, what is known about a leaf passes on to the
nodes that descend from it (`seStmt_descends`).
-/

set_option autoImplicit false

namespace Stabl.SimSee

/-! ### Descendants of a node -/

namespace SetNode

/-- The conditions of an ancestor are among those of the node. -/
theorem holds_of_mem_path {rho : Valuation} {l : SetNode} :
    ∀ {n : SetNode}, l ∈ n.path → n.holds rho = true → l.holds rho = true := by
  intro n
  induction n with
  | entryNode =>
      intro h hn
      rwa [List.mem_singleton.mp h]
  | inode v e p d ih =>
      intro h hn
      rcases List.mem_cons.mp h with rfl | h
      · exact hn
      · exact ih h hn
  | dnode c p d ih =>
      intro h hn
      rcases List.mem_cons.mp h with rfl | h
      · exact hn
      · exact ih h (Bool.and_eq_true_iff.mp hn).1

/-- A variable with a value has one at every descendant. -/
theorem getVarValue_isSome_of_mem_path {v : Expr} {l : SetNode} (hl : (l.getVarValue v).isSome) :
    ∀ {n : SetNode}, l ∈ n.path → (n.getVarValue v).isSome := by
  intro n
  induction n with
  | entryNode =>
      intro h
      rwa [List.mem_singleton.mp h] at hl
  | inode v' e p d ih =>
      intro h
      rcases List.mem_cons.mp h with rfl | h
      · exact hl
      · by_cases hv : v = v'
        · simp [getVarValue, hv]
        · simpa [getVarValue, hv] using ih h
  | dnode c p d ih =>
      intro h
      rcases List.mem_cons.mp h with rfl | h
      · exact hl
      · exact ih h

end SetNode

/-- The result of steps at a leaf: its nodes descend from the leaf, and the symbolic
variables made before are still there. -/
structure Descends (leaf : SetNode) (vars : SymVars) (r : DoneLeaves) (vars' : SymVars) : Prop where
  nodes : ∀ n ∈ r.1 ++ r.2, leaf ∈ n.path
  vars : vars <+: vars'

/-- A step whose results descend from its leaf. -/
def LeafStep.Descending (step : LeafStep) : Prop :=
  ∀ leaf vars r vars', step leaf vars = some (r, vars') → Descends leaf vars r vars'

theorem LeafStep.Growing.descending {step : LeafStep} (h : step.Growing) : step.Descending := by
  intro leaf vars r vars' hr
  have hgrown := h leaf vars r vars' hr
  exact ⟨fun n hn => (hgrown.nodes n hn).mem_path, hgrown.vars⟩

/-- The results of a step at every leaf descend from the leaves. -/
theorem seAllLoop_descends {step : LeafStep} (hstep : step.Descending)
    {leaves done leaves' : List SetNode} {vars vars' : SymVars} {r : DoneLeaves}
    (h : seAllLoop step done leaves' leaves vars = some (r, vars')) :
    (∀ n ∈ r.1 ++ r.2, n ∈ done ++ leaves' ∨ ∃ l ∈ leaves, l ∈ n.path) ∧ vars <+: vars' := by
  refine seAllLoop_related (R := fun l n => l ∈ n.path) (fun leaf vars r vars' hr => ?_) h
  have hdesc := hstep leaf vars r vars' hr
  exact ⟨hdesc.nodes, hdesc.vars⟩

theorem seStmt_descends (maxdepth : Int) (stmt : Stmt) :
    LeafStep.Descending (seStmt maxdepth stmt) :=
  (seStmt_grows maxdepth stmt).descending

theorem seStmtblockLoop_vars (maxdepth : Int) {stmts : List Stmt} {done leaves : List SetNode}
    {vars vars' : SymVars} {r : DoneLeaves}
    (h : seStmtblockLoop maxdepth stmts done leaves vars = some (r, vars')) : vars <+: vars' :=
  (seStmtblockLoop_grows maxdepth stmts h).2

theorem seDecl_descends (maxdepth : Int) (decl : String × Typ) :
    LeafStep.Descending (fun leaf vars => some (seDecl maxdepth decl leaf, vars)) :=
  (seDecl_grows maxdepth decl).descending

theorem seDeclsLoop_vars {maxdepth : Int} {decls : List (String × Typ)}
    {done leaves : List SetNode} {vars vars' : SymVars} {r : DoneLeaves}
    (h : seDeclsLoop maxdepth decls done leaves vars = some (r, vars')) : vars <+: vars' :=
  (seDeclsLoop_grows maxdepth decls h).2

/-! ### The symbolic executor finds every variable -/

/-- Every variable of the environment has a value at the leaf. -/
def SetNode.Bound (env : Env) (leaf : SetNode) : Prop :=
  ∀ x t, env.apply x = .ok t → (leaf.getVarValue (.id x)).isSome

theorem SetNode.Bound.descend {env : Env} {l n : SetNode} (hl : l.Bound env) (h : l ∈ n.path) :
    n.Bound env :=
  fun x t hx => getVarValue_isSome_of_mem_path (hl x t hx) h

theorem seExpr_total {env : Env} {leaf : SetNode} (hleaf : leaf.Bound env) {e : Expr} :
    ∀ {t : Typ} (vars : SymVars), typecheckExpr env e = .ok t →
      ∃ r, seExpr leaf e vars = some r := by
  induction e with
  | id vname =>
      intro t vars h
      obtain ⟨value, hvalue⟩ := Option.isSome_iff_exists.mp (hleaf vname t h)
      exact ⟨(value, vars), by simp [seExpr, hvalue]⟩
  | intConst n | boolConst b | input t => exact fun vars _ => ⟨_, rfl⟩
  | add e1 e2 ih1 ih2 | sub e1 e2 ih1 ih2 | or e1 e2 ih1 ih2 | and e1 e2 ih1 ih2
  | equals e1 e2 ih1 ih2 =>
      intro t vars h
      obtain ⟨t1, h1, h⟩ := Result.bind_eq_ok.mp h
      obtain ⟨t2, h2, _⟩ := Result.bind_eq_ok.mp h
      obtain ⟨⟨sv1, vars1⟩, hs1⟩ := ih1 vars h1
      obtain ⟨⟨sv2, vars2⟩, hs2⟩ := ih2 vars1 h2
      exact ⟨_, by simp only [seExpr, hs1, hs2, Option.bind_eq_bind, Option.bind_some]; rfl⟩
  | not e ih =>
      intro t vars h
      obtain ⟨t1, h1, _⟩ := Result.bind_eq_ok.mp h
      obtain ⟨⟨sv, vars1⟩, hs⟩ := ih vars h1
      exact ⟨_, by simp only [seExpr, hs, Option.bind_eq_bind, Option.bind_some]; rfl⟩

/-- From every leaf with `P` the step has a result, whose leaves have `Q`. -/
def LeafStep.Total (P Q : SetNode → Prop) (step : LeafStep) : Prop :=
  ∀ leaf, P leaf → ∀ vars, ∃ r vars', step leaf vars = some (r, vars') ∧ ∀ n ∈ r.2, Q n

theorem seAllLoop_total {P Q : SetNode → Prop} {step : LeafStep} (hstep : step.Total P Q)
    {leaves : List SetNode} : ∀ (done leaves' : List SetNode) (vars : SymVars),
      (∀ l ∈ leaves, P l) → (∀ l ∈ leaves', Q l) →
      ∃ r vars', seAllLoop step done leaves' leaves vars = some (r, vars') ∧ ∀ n ∈ r.2, Q n := by
  induction leaves with
  | nil => exact fun done leaves' vars _ hQ => ⟨_, vars, rfl, hQ⟩
  | cons l ls ih =>
      intro done leaves' vars hP hQ
      have ⟨r1, vars1, h1, hr1⟩ := hstep l (hP l List.mem_cons_self) vars
      have hQ' : ∀ n ∈ r1.2 ++ leaves', Q n := by
        intro n hn
        rcases List.mem_append.mp hn with hn | hn
        · exact hr1 n hn
        · exact hQ n hn
      have ⟨r, vars', h, hr⟩ :=
        ih (r1.1 ++ done) _ vars1 (fun m hm => hP m (List.mem_cons_of_mem _ hm)) hQ'
      exact ⟨r, vars',
        by simp only [seAllLoop, h1, Option.bind_eq_bind, Option.bind_some]; exact h, hr⟩

theorem seAssignment_total {env : Env} {leaf : SetNode} (hleaf : leaf.Bound env) {e : Expr}
    {t : Typ}
    (he : typecheckExpr env e = .ok t) (maxdepth : Int) (vname : String) (vars : SymVars) :
    ∃ r, seAssignment maxdepth vname e leaf vars = some r := by
  have ⟨⟨se, vars1⟩, hse⟩ := seExpr_total hleaf vars he
  simp only [seAssignment, hse, Option.bind_eq_bind, Option.bind_some]
  split
  · exact ⟨_, rfl⟩
  · exact ⟨_, rfl⟩

mutual

theorem seStmt_total {env : Env} (maxdepth : Int) :
    ∀ {stmt : Stmt} {leaf : SetNode} (vars : SymVars),
    typecheckStmt env stmt = .ok () → leaf.Bound env → ∃ r, seStmt maxdepth stmt leaf vars = some r
  | .assignment vname e, leaf, vars, h, hleaf => by
      have ⟨_, _, h⟩ := Result.bind_eq_ok.mp h
      have ⟨_, he, _⟩ := Result.bind_eq_ok.mp h
      simpa only [seStmt] using seAssignment_total hleaf he maxdepth vname vars
  | .ifStmt b s1 s2, leaf, vars, h, hleaf => by
      have ⟨_, hb, h⟩ := Result.bind_eq_ok.mp h
      have ⟨_, h1, h⟩ := Result.bind_eq_ok.mp h
      have ⟨_, h2, _⟩ := Result.bind_eq_ok.mp h
      have hbranch : ∀ c d, (SetNode.dnode c leaf d).Bound env := fun c d => hleaf
      have ⟨⟨sb, vars0⟩, hsb⟩ := seExpr_total hleaf vars hb
      have ⟨⟨r1, vars1⟩, hr1⟩ := seStmt_total maxdepth vars0 h1 (hbranch sb (leaf.depth + 1))
      have ⟨⟨r2, vars2⟩, hr2⟩ := seStmt_total maxdepth vars1 h2 (hbranch (.not sb) (leaf.depth + 1))
      exact ⟨_, by simp only [seStmt, hsb, hr1, hr2, Option.bind_eq_bind, Option.bind_some]; rfl⟩
  | .block stmts, leaf, vars, h, hleaf => by
      have hstart : ∀ l ∈ [leaf], l.Bound env := by
        intro l hl
        rwa [List.mem_singleton.mp hl]
      simpa only [seStmt] using seStmtblockLoop_total maxdepth [] vars h hstart

theorem seStmtblockLoop_total {env : Env} (maxdepth : Int) : ∀ {stmts : List Stmt}
    {leaves : List SetNode} (done : List SetNode) (vars : SymVars),
    typecheckStmtblock env stmts = .ok () → (∀ l ∈ leaves, l.Bound env) →
    ∃ r, seStmtblockLoop maxdepth stmts done leaves vars = some r
  | [], leaves, done, vars, _, _ => ⟨_, rfl⟩
  | stmt :: stmts, leaves, done, vars, h, hleaves => by
      have ⟨_, h1, h2⟩ := Result.bind_eq_ok.mp h
      have hstep : LeafStep.Total (·.Bound env) (·.Bound env) (seStmt maxdepth stmt) := by
        intro leaf hleaf vars
        have ⟨⟨r, vars'⟩, hr⟩ := seStmt_total maxdepth vars h1 hleaf
        have hdesc := seStmt_descends maxdepth stmt leaf vars r vars' hr
        exact ⟨r, vars', hr, fun n hn => hleaf.descend (hdesc.nodes n (List.mem_append_right _ hn))⟩
      have ⟨⟨d, l⟩, vars1, hround, hl⟩ :=
        seAllLoop_total hstep [] [] vars hleaves (by simp)
      have ⟨r, hr⟩ := seStmtblockLoop_total maxdepth (d ++ done) vars1 h2 hl
      exact ⟨r,
        by simp only [seStmtblockLoop, hround, Option.bind_eq_bind, Option.bind_some]; exact hr⟩

end

theorem bound_declared {env : Env} {leaf : SetNode} (hleaf : leaf.Bound env) (decl : String × Typ)
    (init : Expr) (d : Int) : (SetNode.inode (.id decl.1) init leaf d).Bound (decl :: env) := by
  intro x t hx
  by_cases heq : x = decl.1
  · simp [SetNode.getVarValue, heq]
  · have hx' : env.apply x = .ok t := by simpa [Env.apply, heq] using hx
    simpa [SetNode.getVarValue, heq] using hleaf x t hx'

theorem seDeclsLoop_total (maxdepth : Int) : ∀ (decls : List (String × Typ)) {env : Env}
    {leaves : List SetNode} (done : List SetNode) (vars : SymVars), (∀ l ∈ leaves, l.Bound env) →
    ∃ r vars', seDeclsLoop maxdepth decls done leaves vars = some (r, vars') ∧
      ∀ n ∈ r.2, n.Bound (decls.foldl (fun env dec => dec :: env) env)
  | [], env, leaves, done, vars, hleaves => ⟨_, vars, rfl, hleaves⟩
  | decl :: decls, env, leaves, done, vars, hleaves => by
      have hstep : LeafStep.Total (·.Bound env) (·.Bound (decl :: env))
          (fun leaf vars => some (seDecl maxdepth decl leaf, vars)) := by
        intro leaf hleaf vars
        refine ⟨_, vars, rfl, fun n hn => ?_⟩
        simp only [seDecl] at hn
        split at hn
        · simp at hn
        · exact List.mem_singleton.mp hn ▸ bound_declared hleaf decl _ _
      have ⟨⟨d, l⟩, vars1, hround, hl⟩ :=
        seAllLoop_total hstep [] [] vars hleaves (by simp)
      have ⟨r, vars', hr, hbound⟩ := seDeclsLoop_total maxdepth decls (d ++ done) vars1 hl
      refine ⟨r, vars', ?_, hbound⟩
      simp only [seDeclsLoop, hround, Option.bind_eq_bind, Option.bind_some]
      exact hr

/-- The executor has a result on every program that the typechecker accepts. -/
theorem seProg_total {p : Program} (hp : typecheckProg p = .ok ()) (maxdepth : Int)
    (vars : SymVars) : ∃ r, seProg p maxdepth vars = some r := by
  have hentry : ∀ l ∈ [SetNode.entryNode], l.Bound [] := by
    intro l _ x t hx
    simp [Env.apply] at hx
  have ⟨⟨ds, ls⟩, vars1, hdecls, hls⟩ := seDeclsLoop_total maxdepth p.decls [] vars hentry
  have hstep : LeafStep.Total (·.Bound (typecheckDeclarations p.decls)) (fun _ => True)
      (seStmt maxdepth p.statement) := by
    intro leaf hleaf vars
    have ⟨⟨r, vars'⟩, hr⟩ := seStmt_total maxdepth vars hp hleaf
    exact ⟨r, vars', hr, fun _ _ => trivial⟩
  have ⟨r, vars2, hstmt, _⟩ := seAllLoop_total hstep [] [] vars1 hls (by simp)
  exact ⟨_, by simp only [seProg, hdecls, hstmt, Option.bind_eq_bind, Option.bind_some]; rfl⟩

/-! ### Concrete runs have a state after every statement -/

namespace Value

theorem add_typ {v w : Value} (hv : v.typ = .integer) (hw : w.typ = .integer) :
    ∃ u, v.add w = some u ∧ u.typ = .integer := by
  cases v <;> cases w <;> simp_all [typ, add]

theorem sub_typ {v w : Value} (hv : v.typ = .integer) (hw : w.typ = .integer) :
    ∃ u, v.sub w = some u ∧ u.typ = .integer := by
  cases v <;> cases w <;> simp_all [typ, sub]

theorem not_typ {v : Value} (hv : v.typ = .boolean) : ∃ u, v.not = some u ∧ u.typ = .boolean := by
  cases v <;> simp_all [typ, Value.not]

theorem or_typ {v w : Value} (hv : v.typ = .boolean) (hw : w.typ = .boolean) :
    ∃ u, v.or w = some u ∧ u.typ = .boolean := by
  cases v <;> cases w <;> simp_all [typ, Value.or]

theorem and_typ {v w : Value} (hv : v.typ = .boolean) (hw : w.typ = .boolean) :
    ∃ u, v.and w = some u ∧ u.typ = .boolean := by
  cases v <;> cases w <;> simp_all [typ, Value.and]

end Value

/-- The types of the operands and of the result of an expression that the typechecker
accepts. -/
theorem typecheckExpr_arith {env : Env} {e1 e2 : Expr} {t : Typ}
    (h : typecheckExpr env (.add e1 e2) = .ok t) :
    typecheckExpr env e1 = .ok .integer ∧ typecheckExpr env e2 = .ok .integer ∧ t = .integer := by
  have ⟨t1, h1, h⟩ := Result.bind_eq_ok.mp h
  have ⟨t2, h2, h⟩ := Result.bind_eq_ok.mp h
  split at h
  · rename_i heq
    exact ⟨heq.1 ▸ h1, heq.2 ▸ h2, (Except.ok.inj h).symm⟩
  · cases h

theorem typecheckExpr_not {env : Env} {e : Expr} {t : Typ}
    (h : typecheckExpr env (.not e) = .ok t) :
    typecheckExpr env e = .ok .boolean ∧ t = .boolean := by
  have ⟨t1, h1, h⟩ := Result.bind_eq_ok.mp h
  split at h
  · rename_i heq
    exact ⟨heq ▸ h1, (Except.ok.inj h).symm⟩
  · cases h

theorem typecheckExpr_equals {env : Env} {e1 e2 : Expr} {t : Typ}
    (h : typecheckExpr env (.equals e1 e2) = .ok t) :
    (∃ t1, typecheckExpr env e1 = .ok t1) ∧ (∃ t2, typecheckExpr env e2 = .ok t2) ∧
      t = .boolean := by
  have ⟨t1, h1, h⟩ := Result.bind_eq_ok.mp h
  have ⟨t2, h2, h⟩ := Result.bind_eq_ok.mp h
  split at h
  · exact ⟨⟨t1, h1⟩, ⟨t2, h2⟩, (Except.ok.inj h).symm⟩
  · cases h

/-- The store has a value of its type for every variable of the environment. -/
def Store.Typed (env : Env) (store : Store) : Prop :=
  ∀ x t, env.apply x = .ok t → ∃ v, store x = some v ∧ v.typ = t

theorem evalExpr_total {env : Env} {store : Store} (hstore : store.Typed env) (inputs : Inputs)
    {e : Expr} : ∀ {t : Typ} (k : Nat), typecheckExpr env e = .ok t → e.logicalBoolean env = true →
      ∃ v k', evalExpr inputs store e k = some (v, k') ∧ v.typ = t := by
  induction e with
  | id vname =>
      intro t k h _
      have ⟨v, hv, htyp⟩ := hstore vname t h
      exact ⟨v, k, by simp [evalExpr, hv], htyp⟩
  | intConst n | boolConst b =>
      intro t k h _
      exact ⟨_, k, rfl, Except.ok.inj h⟩
  | add e1 e2 ih1 ih2 =>
      intro t k h hlogic
      have ⟨h1, h2, ht⟩ := typecheckExpr_arith h
      have hlogic := Bool.and_eq_true_iff.mp hlogic
      have ⟨v1, k1, hv1, ht1⟩ := ih1 k h1 hlogic.1
      have ⟨v2, k2, hv2, ht2⟩ := ih2 k1 h2 hlogic.2
      have ⟨v, hv, htyp⟩ := Value.add_typ ht1 ht2
      exact ⟨v, k2, by simp [evalExpr, hv1, hv2, hv], ht ▸ htyp⟩
  | sub e1 e2 ih1 ih2 =>
      intro t k h hlogic
      have ⟨h1, h2, ht⟩ := typecheckExpr_arith h
      have hlogic := Bool.and_eq_true_iff.mp hlogic
      have ⟨v1, k1, hv1, ht1⟩ := ih1 k h1 hlogic.1
      have ⟨v2, k2, hv2, ht2⟩ := ih2 k1 h2 hlogic.2
      have ⟨v, hv, htyp⟩ := Value.sub_typ ht1 ht2
      exact ⟨v, k2, by simp [evalExpr, hv1, hv2, hv], ht ▸ htyp⟩
  | not e ih =>
      intro t k h hlogic
      have ⟨h1, ht⟩ := typecheckExpr_not h
      have ⟨v1, k1, hv1, ht1⟩ := ih k h1 hlogic
      have ⟨v, hv, htyp⟩ := Value.not_typ ht1
      exact ⟨v, k1, by simp [evalExpr, hv1, hv], ht ▸ htyp⟩
  | or e1 e2 ih1 ih2 =>
      intro t k h hlogic
      -- The typechecker treats the connectives as comparisons: any one type will do.
      have ⟨_, _, ht⟩ := typecheckExpr_equals h
      simp only [Expr.logicalBoolean, Bool.and_eq_true, decide_eq_true_eq] at hlogic
      have ⟨⟨hl1, hl2⟩, h1, h2⟩ := hlogic
      have ⟨v1, k1, hv1, ht1⟩ := ih1 k h1 hl1
      have ⟨v2, k2, hv2, ht2⟩ := ih2 k1 h2 hl2
      have ⟨v, hv, htyp⟩ := Value.or_typ ht1 ht2
      exact ⟨v, k2, by simp [evalExpr, hv1, hv2, hv], ht ▸ htyp⟩
  | and e1 e2 ih1 ih2 =>
      intro t k h hlogic
      have ⟨_, _, ht⟩ := typecheckExpr_equals h
      simp only [Expr.logicalBoolean, Bool.and_eq_true, decide_eq_true_eq] at hlogic
      have ⟨⟨hl1, hl2⟩, h1, h2⟩ := hlogic
      have ⟨v1, k1, hv1, ht1⟩ := ih1 k h1 hl1
      have ⟨v2, k2, hv2, ht2⟩ := ih2 k1 h2 hl2
      have ⟨v, hv, htyp⟩ := Value.and_typ ht1 ht2
      exact ⟨v, k2, by simp [evalExpr, hv1, hv2, hv], ht ▸ htyp⟩
  | equals e1 e2 ih1 ih2 =>
      intro t k h hlogic
      have ⟨⟨t1, h1⟩, ⟨t2, h2⟩, ht⟩ := typecheckExpr_equals h
      have hlogic := Bool.and_eq_true_iff.mp hlogic
      have ⟨v1, k1, hv1, _⟩ := ih1 k h1 hlogic.1
      have ⟨v2, k2, hv2, _⟩ := ih2 k1 h2 hlogic.2
      exact ⟨.bool (decide (v1 = v2)), k2, by simp [evalExpr, hv1, hv2, Value.equals], ht ▸ rfl⟩
  | input t =>
      intro t' k h _
      exact ⟨_, _, rfl, (inputs.typ_get k t).trans (Except.ok.inj h)⟩

theorem Store.Typed.assign {env : Env} {σ : State} (hσ : σ.store.Typed env) {x : String} {v : Value}
    (hx : env.apply x = .ok v.typ) (used : Nat) : (σ.assign x v used).store.Typed env := by
  intro y t hy
  by_cases heq : y = x
  · rw [heq] at hy
    exact ⟨v, by simp [State.assign, heq], Except.ok.inj (hx.symm.trans hy)⟩
  · simpa [State.assign, heq] using hσ y t hy

/-- From every typed store the run goes on to a typed store, with more assignments. -/
def RunsOn (env env' : Env) (run : State → Option State) : Prop :=
  ∀ σ, σ.store.Typed env → ∃ σ', run σ = some σ' ∧ σ'.store.Typed env' ∧ σ.trace <+: σ'.trace

theorem RunsOn.andThen {env env' env'' : Env} {run run' : State → Option State}
    (h : RunsOn env env' run) (h' : RunsOn env' env'' run') :
    RunsOn env env'' (fun σ => (run σ).bind run') := by
  intro σ hσ
  have ⟨σ1, h1, hσ1, htrace1⟩ := h σ hσ
  have ⟨σ2, h2, hσ2, htrace2⟩ := h' σ1 hσ1
  exact ⟨σ2, by simp [h1, h2], hσ2, htrace1.trans htrace2⟩

mutual

theorem execStmt_total {env : Env} (inputs : Inputs) : ∀ {stmt : Stmt},
    typecheckStmt env stmt = .ok () → stmt.logicalBoolean env = true →
    RunsOn env env (execStmt inputs stmt)
  | .assignment vname e, h, hlogic => by
      intro σ hσ
      have ⟨t, hvar, h⟩ := Result.bind_eq_ok.mp h
      have ⟨t', he, h⟩ := Result.bind_eq_ok.mp h
      have htt' : t = t' := by
        by_contra hne
        simp [hne] at h
      have ⟨v, k, hv, htyp⟩ := evalExpr_total hσ inputs σ.used he hlogic
      have hvar : env.apply vname = .ok v.typ := by rw [hvar, htyp, htt']
      exact ⟨σ.assign vname v k, by simp [execStmt, execAssignment, hv], hσ.assign hvar k,
        List.prefix_append _ _⟩
  | .ifStmt b s1 s2, h, hlogic => by
      intro σ hσ
      have ⟨tb, hb, h⟩ := Result.bind_eq_ok.mp h
      have ⟨_, h1, h⟩ := Result.bind_eq_ok.mp h
      have ⟨_, h2, h⟩ := Result.bind_eq_ok.mp h
      have htb : tb = .boolean := by
        by_contra hne
        simp [hne] at h
      simp only [Stmt.logicalBoolean, Bool.and_eq_true] at hlogic
      have ⟨v, k, hv, htyp⟩ := evalExpr_total hσ inputs σ.used hb hlogic.1
      rw [htb] at htyp
      simp only [execStmt, hv, Option.bind_eq_bind, Option.bind_some]
      cases v with
      | int n => cases htyp
      | bool β =>
          cases β with
          | true => exact execStmt_total inputs h1 hlogic.2.1 { σ with used := k } hσ
          | false => exact execStmt_total inputs h2 hlogic.2.2 { σ with used := k } hσ
  | .block stmts, h, hlogic => by
      intro σ hσ
      simpa only [execStmt] using execStmtblock_total inputs h hlogic σ hσ

theorem execStmtblock_total {env : Env} (inputs : Inputs) : ∀ {stmts : List Stmt},
    typecheckStmtblock env stmts = .ok () → Stmt.logicalBooleanBlock env stmts = true →
    RunsOn env env (execStmtblock inputs stmts)
  | [], _, _ => fun σ hσ => ⟨σ, rfl, hσ, List.prefix_refl _⟩
  | stmt :: stmts, h, hlogic => by
      have ⟨_, h1, h2⟩ := Result.bind_eq_ok.mp h
      have hlogic := Bool.and_eq_true_iff.mp hlogic
      have hboth :=
        (execStmt_total inputs h1 hlogic.1).andThen (execStmtblock_total inputs h2 hlogic.2)
      intro σ hσ
      exact hboth σ hσ

end

/-- A declaration gives its variable the initial value of its type. -/
theorem evalExpr_tyInit (inputs : Inputs) (store : Store) (t : Typ) (k : Nat) :
    ∃ v, evalExpr inputs store (tyInit t) k = some (v, k) ∧ v.typ = t := by
  cases t with
  | boolean => exact ⟨.bool false, rfl, rfl⟩
  | integer => exact ⟨.int 0, rfl, rfl⟩

theorem execDecls_total (inputs : Inputs) : ∀ (decls : List (String × Typ)) (env : Env),
    RunsOn env (decls.foldl (fun env dec => dec :: env) env) (execDecls inputs decls)
  | [], env => fun σ hσ => ⟨σ, rfl, hσ, List.prefix_refl _⟩
  | decl :: decls, env => by
      have hdecl : RunsOn env (decl :: env) (execAssignment inputs decl.1 (tyInit decl.2)) := by
        intro σ hσ
        have ⟨v, hv, htyp⟩ := evalExpr_tyInit inputs σ.store decl.2 σ.used
        refine ⟨σ.assign decl.1 v σ.used, by simp [execAssignment, hv], ?_, List.prefix_append _ _⟩
        intro y t hy
        by_cases heq : y = decl.1
        · have ht : decl.2 = t := by simpa [Env.apply, heq] using hy
          exact ⟨v, by simp [State.assign, heq], htyp.trans ht⟩
        · simpa [State.assign, heq] using hσ y t (by simpa [Env.apply, heq] using hy)
      have hboth := hdecl.andThen (execDecls_total inputs decls (decl :: env))
      intro σ hσ
      exact hboth σ hσ

end Stabl.SimSee
