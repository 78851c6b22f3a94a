import Mathlib.Data.List.Induction
import Stabl.Proofs.SimSee.Paths

/-!
# `Stabl.Proofs.SimSee.Declarations`: the types of the recorded expressions

The typechecker keeps the type of a variable in an environment, and the executor its
value in the nodes of a path. Both find what was added last. Every node of the tree
records for each variable an expression over the symbolic variables, of the type that the
declarations give the variable (`declarations_bind`). These are the declarations on the
path to the node: the depth limit may cut a path in the middle of them.
-/

set_option autoImplicit false

namespace Stabl.SimSee

/-! ### Typed symbolic expressions -/

/-- The types of the symbolic variables, each under its name. -/
def SymVars.env (vars : SymVars) : Env :=
  vars.mapIdx fun i t => (symvarName (i + 1), t)

/-- No `Input` stands in the expression. -/
def Expr.inputFree : Expr → Bool
  | .id _ | .intConst _ | .boolConst _ => true
  | .input _ => false
  | .not e => e.inputFree
  | .add e1 e2 | .sub e1 e2 | .or e1 e2 | .and e1 e2 | .equals e1 e2 =>
    e1.inputFree && e2.inputFree

/-- The expression is over the symbolic variables made so far, and it has the type when each
of them has the type of the `Input` it stands for. -/
structure SymTyped (vars : SymVars) (e : Expr) (t : Typ) : Prop where
  inputFree : e.inputFree = true
  made : Made vars e.symvars
  typed : typecheckExpr vars.env e = .ok t

/-- What the node records last for a variable has the type of the variable. -/
def SetNode.Recorded (env : Env) (vars : SymVars) (n : SetNode) : Prop :=
  ∀ x e, n.getVarValue (.id x) = some e → ∃ t, env.apply x = .ok t ∧ SymTyped vars e t

theorem Env.apply_of_mem {x : String} {t : Typ} : ∀ {env : Env}, (x, t) ∈ env →
    (∀ t', (x, t') ∈ env → t' = t) → env.apply x = .ok t := by
  intro env
  induction env with
  | nil => exact fun h => absurd h List.not_mem_nil
  | cons b env ih =>
      intro hmem huniq
      by_cases hb : x = b.1
      · have ht : b.2 = t := huniq b.2 (by rw [hb]; exact List.mem_cons_self)
        simp [Env.apply, hb, ht]
      · have hmem' : (x, t) ∈ env := by
          rcases List.mem_cons.mp hmem with heq | hmem
          · exact absurd (congrArg Prod.fst heq) hb
          · exact hmem
        have htail := ih hmem' (fun t' ht' => huniq t' (List.mem_cons_of_mem _ ht'))
        simpa [Env.apply, hb] using htail

/-- A symbolic variable has the type of its `Input`. -/
theorem SymVars.apply_env {vars : SymVars} {i : Nat} {t : Typ} (h : vars[i]? = some t) :
    vars.env.apply (symvarName (i + 1)) = .ok t := by
  have ⟨hi, ht⟩ := List.getElem?_eq_some_iff.mp h
  apply Env.apply_of_mem
  · exact List.mem_mapIdx.mpr ⟨i, hi, by rw [ht]⟩
  · intro t' ht'
    have ⟨j, hj, hsym⟩ := List.mem_mapIdx.mp ht'
    have hij : j + 1 = i + 1 := symvarName_injective (Prod.mk.inj hsym).1
    have hji : j = i := by omega
    subst hji
    exact (Prod.mk.inj hsym).2.symm.trans ht

/-- More symbolic variables keep the type of an expression over those made before. -/
theorem typecheckExpr_mono {vars vars' : SymVars} (hvars : vars <+: vars') {e : Expr} :
    ∀ {t : Typ}, Made vars e.symvars → typecheckExpr vars.env e = .ok t →
      typecheckExpr vars'.env e = .ok t := by
  induction e with
  | id s =>
      intro t hmade h
      have ⟨i, hi, hs⟩ := hmade s (List.mem_singleton.mpr rfl)
      have hi' : vars[i]? = some vars[i] := List.getElem?_eq_getElem hi
      have hold := SymVars.apply_env hi'
      have hnew := SymVars.apply_env (getElem?_extends hvars hi')
      rw [← hs] at hold hnew
      exact hnew.trans (hold.symm.trans h)
  | intConst n | boolConst b | input t' => exact fun _ h => h
  | not e ih =>
      intro t hmade h
      have ⟨t1, h1, h⟩ := Result.bind_eq_ok.mp h
      simp only [typecheckExpr, ih hmade h1]
      exact h
  | add e1 e2 ih1 ih2 | sub e1 e2 ih1 ih2 | or e1 e2 ih1 ih2 | and e1 e2 ih1 ih2
  | equals e1 e2 ih1 ih2 =>
      intro t hmade h
      have ⟨t1, h1, h⟩ := Result.bind_eq_ok.mp h
      have ⟨t2, h2, h⟩ := Result.bind_eq_ok.mp h
      have hmade1 : Made vars e1.symvars := fun s hs => hmade s (List.mem_append_left _ hs)
      have hmade2 : Made vars e2.symvars := fun s hs => hmade s (List.mem_append_right _ hs)
      simp only [typecheckExpr, ih1 hmade1 h1, ih2 hmade2 h2]
      exact h

theorem SymTyped.mono {vars vars' : SymVars} {e : Expr} {t : Typ} (h : SymTyped vars e t)
    (hvars : vars <+: vars') : SymTyped vars' e t :=
  ⟨h.inputFree, h.made.mono hvars, typecheckExpr_mono hvars h.made h.typed⟩

theorem SetNode.Recorded.mono {env : Env} {vars vars' : SymVars} {n : SetNode}
    (h : n.Recorded env vars) (hvars : vars <+: vars') : n.Recorded env vars' := by
  intro x e hx
  have ⟨t, hxt, htyped⟩ := h x e hx
  exact ⟨t, hxt, htyped.mono hvars⟩

theorem recorded_persistent (env : Env) : Persistent (fun vars n => n.Recorded env vars) :=
  fun _ _ _ hvars h => h.mono hvars

/-! ### What a step records -/

theorem seExpr_symTyped {env : Env} {leaf : SetNode} {e : Expr} :
    ∀ {vars vars' : SymVars} {se : Expr} {t : Typ}, leaf.Recorded env vars →
      typecheckExpr env e = .ok t → seExpr leaf e vars = some (se, vars') →
      SymTyped vars' se t := by
  induction e with
  | id vname =>
      intro vars vars' se t hleaf h hse
      obtain ⟨value, hvalue, rfl, rfl⟩ := seExpr_id_eq_some hse
      obtain ⟨t', ht', htyped⟩ := hleaf vname value hvalue
      have htt : t' = t := Except.ok.inj (ht'.symm.trans h)
      exact htt ▸ htyped
  | intConst n | boolConst b =>
      intro vars vars' se t hleaf h hse
      simp only [seExpr, Option.some.injEq, Prod.mk.injEq] at hse
      obtain ⟨rfl, rfl⟩ := hse
      exact ⟨rfl, fun s hs => absurd hs List.not_mem_nil, h⟩
  | add e1 e2 ih1 ih2 | sub e1 e2 ih1 ih2 | or e1 e2 ih1 ih2 | and e1 e2 ih1 ih2
  | equals e1 e2 ih1 ih2 =>
      intro vars vars' se t hleaf h hse
      obtain ⟨sv1, vars1, hs1, sv2, vars2, hs2, rfl, rfl⟩ := operands_eq_some hse
      obtain ⟨t1, h1, h⟩ := Result.bind_eq_ok.mp h
      obtain ⟨t2, h2, h⟩ := Result.bind_eq_ok.mp h
      have htyped1 := (ih1 hleaf h1 hs1).mono (seExpr_vars hs2)
      have htyped2 := ih2 (hleaf.mono (seExpr_vars hs1)) h2 hs2
      refine ⟨Bool.and_eq_true_iff.mpr ⟨htyped1.inputFree, htyped2.inputFree⟩, ?_, ?_⟩
      · intro s hs
        rcases List.mem_append.mp hs with hs | hs
        · exact htyped1.made s hs
        · exact htyped2.made s hs
      · simp only [typecheckExpr, htyped1.typed, htyped2.typed]
        exact h
  | not e ih =>
      intro vars vars' se t hleaf h hse
      obtain ⟨sv, vars1, hs1, rfl, rfl⟩ := seExpr_not_eq_some hse
      obtain ⟨t1, h1, h⟩ := Result.bind_eq_ok.mp h
      have htyped := ih hleaf h1 hs1
      refine ⟨htyped.inputFree, htyped.made, ?_⟩
      simp only [typecheckExpr, htyped.typed]
      exact h
  | input t' =>
      intro vars vars' se t hleaf h hse
      simp only [seExpr, Option.some.injEq, Prod.mk.injEq] at hse
      obtain ⟨rfl, rfl⟩ := hse
      have ht : t' = t := Except.ok.inj h
      refine ⟨rfl, ?_, ?_⟩
      · intro s hs
        exact ⟨vars.length, by simp, List.mem_singleton.mp hs⟩
      · exact SymVars.apply_env (by simp [ht])

/-- A node for an assignment, of an expression with the type of the variable. -/
theorem SetNode.Recorded.inode {env : Env} {vars : SymVars} {leaf : SetNode}
    (h : leaf.Recorded env vars) {x : String} {se : Expr} {t : Typ}
    (hx : env.apply x = .ok t) (hse : SymTyped vars se t) (d : Int) :
    (SetNode.inode (.id x) se leaf d).Recorded env vars := by
  intro y e hy
  rw [SetNode.getVarValue] at hy
  split at hy
  · rename_i heq
    have hyx : y = x := Expr.id.inj heq
    have hee : se = e := Option.some.inj hy
    exact ⟨t, hyx ▸ hx, hee ▸ hse⟩
  · exact h y e hy

/-- From leaves that record the types the step makes such nodes. -/
def LeafStep.Records (env : Env) (step : LeafStep) : Prop :=
  ∀ leaf vars r vars', leaf.Recorded env vars → step leaf vars = some (r, vars') →
    ∀ n ∈ r.1 ++ r.2, n.Recorded env vars'

theorem seAssignment_records {env : Env} {maxdepth : Int} {x : String} {e : Expr} {t : Typ}
    (hx : env.apply x = .ok t) (he : typecheckExpr env e = .ok t) :
    LeafStep.Records env (seAssignment maxdepth x e) := by
  intro leaf vars r vars' hleaf h
  obtain ⟨se, h1, hr⟩ := seAssignment_eq_some h
  have hnode := (hleaf.mono (seExpr_vars h1)).inode hx (seExpr_symTyped hleaf he h1)
    (leaf.depth + 1)
  split at hr
  all_goals
    subst hr
    intro n hn
    have hn : n = .inode (.id x) se leaf (leaf.depth + 1) := by simpa using hn
    exact hn ▸ hnode

mutual

theorem seStmt_records {env : Env} (maxdepth : Int) : ∀ {stmt : Stmt},
    typecheckStmt env stmt = .ok () → LeafStep.Records env (seStmt maxdepth stmt)
  | .assignment x e, h => by
      have ⟨t, hx, h⟩ := Result.bind_eq_ok.mp h
      have ⟨t', he, h⟩ := Result.bind_eq_ok.mp h
      have htt : t = t' := by
        by_contra hne
        simp [hne] at h
      rw [seStmt_assignment]
      exact seAssignment_records hx (htt ▸ he)
  | .ifStmt b s1 s2, h => by
      have ⟨_, _, h⟩ := Result.bind_eq_ok.mp h
      have ⟨_, h1, h⟩ := Result.bind_eq_ok.mp h
      have ⟨_, h2, _⟩ := Result.bind_eq_ok.mp h
      intro leaf vars r vars' hleaf hr
      obtain ⟨sb, vars0, hs0, tdone, tleaves, vars1, hr1, fdone, fleaves, vars2, hr2, rfl, rfl⟩ :=
        seStmt_ifStmt_eq_some hr
      -- A condition records nothing, so the nodes of the branches are as the leaf.
      have hbranch : ∀ c d, (SetNode.dnode c leaf d).Recorded env vars0 :=
        fun c d => hleaf.mono (seExpr_vars hs0)
      have ht := seStmt_records maxdepth h1 _ _ _ _ (hbranch _ _) hr1
      have hvars1 := (seStmt_descends maxdepth s1 _ _ _ _ hr1).vars
      have hvars2 := (seStmt_descends maxdepth s2 _ _ _ _ hr2).vars
      have hf := seStmt_records maxdepth h2 _ _ _ _ ((hbranch _ _).mono hvars1) hr2
      intro n hn
      have hcases : n ∈ tdone ++ tleaves ∨ n ∈ fdone ++ fleaves := by
        simp only [List.mem_append] at hn ⊢
        tauto
      rcases hcases with hn | hn
      · exact (ht n hn).mono hvars2
      · exact hf n hn
  | .block stmts, h => by
      intro leaf vars r vars' hleaf hr
      have hloop := seStmt_block_eq_some hr
      have hstart : ∀ n ∈ [] ++ [leaf], n.Recorded env vars := by
        intro n hn
        rwa [List.mem_singleton.mp hn]
      exact seStmtblockLoop_keeps (recorded_persistent env) (seStmtblock_records maxdepth h) hloop
        hstart

theorem seStmtblock_records {env : Env} (maxdepth : Int) : ∀ {stmts : List Stmt},
    typecheckStmtblock env stmts = .ok () →
    ∀ stmt ∈ stmts, LeafStep.Records env (seStmt maxdepth stmt)
  | [], _ => fun stmt hstmt => absurd hstmt List.not_mem_nil
  | stmt :: stmts, h => by
      have ⟨_, h1, h2⟩ := Result.bind_eq_ok.mp h
      exact List.forall_mem_cons.mpr ⟨seStmt_records maxdepth h1, seStmtblock_records maxdepth h2⟩

end

/-! ### The declarations -/

/-- The node after the declaration of a variable. -/
def SetNode.declare (n : SetNode) (decl : String × Typ) : SetNode :=
  .inode (.id decl.1) (tyInit decl.2) n (n.depth + 1)

/-- The node after a list of declarations, from the entry node. -/
def declared (decls : List (String × Typ)) : SetNode :=
  decls.foldl SetNode.declare .entryNode

theorem declared_append (decls : List (String × Typ)) (decl : String × Typ) :
    declared (decls ++ [decl]) = (declared decls).declare decl := by
  simp [declared]

theorem depth_declared (decls : List (String × Typ)) :
    (declared decls).depth = decls.length := by
  induction decls using List.reverseRecOn with
  | nil => rfl
  | append_singleton decls decl ih =>
      have hdepth : (declared (decls ++ [decl])).depth = (declared decls).depth + 1 := by
        rw [declared_append]
        rfl
      simp [hdepth, ih]

theorem symTyped_tyInit (vars : SymVars) (t : Typ) : SymTyped vars (tyInit t) t := by
  cases t with
  | boolean => exact ⟨rfl, fun s hs => absurd hs List.not_mem_nil, rfl⟩
  | integer => exact ⟨rfl, fun s hs => absurd hs List.not_mem_nil, rfl⟩

theorem typecheckDeclarations_append (decls : List (String × Typ)) (decl : String × Typ) :
    typecheckDeclarations (decls ++ [decl]) = decl :: typecheckDeclarations decls := by
  simp [typecheckDeclarations]

/-- Declarations record what their environment says: both find the last one of a name. -/
theorem declared_recorded (vars : SymVars) (decls : List (String × Typ)) :
    (declared decls).Recorded (typecheckDeclarations decls) vars := by
  induction decls using List.reverseRecOn with
  | nil =>
      intro x e hx
      simp [declared, SetNode.getVarValue] at hx
  | append_singleton decls decl ih =>
      intro x e hx
      rw [declared_append, SetNode.declare, SetNode.getVarValue] at hx
      rw [typecheckDeclarations_append, Env.apply]
      split at hx
      · rename_i heq
        have hxd : x = decl.1 := Expr.id.inj heq
        have hee : tyInit decl.2 = e := Option.some.inj hx
        exact ⟨decl.2, if_pos hxd, hee ▸ symTyped_tyInit vars decl.2⟩
      · rename_i hne
        have hxd : x ≠ decl.1 := fun heq => hne (congrArg Expr.id heq)
        rw [if_neg hxd]
        exact ih x e hx

/-- With no leaf left the declarations do nothing. -/
theorem seDeclsLoop_nil (maxdepth : Int) (done : List SetNode) (vars : SymVars) :
    ∀ decls : List (String × Typ),
      seDeclsLoop maxdepth decls done [] vars = some ((done, []), vars)
  | [] => rfl
  | _ :: decls => seDeclsLoop_nil maxdepth done vars decls

/-- The declarations leave one node: the leaf after all of them, or the one at which the depth
limit has cut the path. -/
theorem seDeclsLoop_declared (maxdepth : Int) : ∀ (decls before : List (String × Typ))
    (vars : SymVars),
    seDeclsLoop maxdepth decls [] [declared before] vars =
        some (([], [declared (before ++ decls)]), vars) ∨
      ∃ decls', decls' <+: before ++ decls ∧ (decls'.length : Int) = maxdepth ∧
        seDeclsLoop maxdepth decls [] [declared before] vars =
          some (([declared decls'], []), vars)
  | [], before, vars => by
      left
      simp [seDeclsLoop]
  | decl :: decls, before, vars => by
      have hleaf' : (declared before).declare decl = declared (before ++ [decl]) :=
        (declared_append before decl).symm
      have happend : before ++ decl :: decls = before ++ [decl] ++ decls := by simp
      by_cases hcut : (declared before).depth + 1 = maxdepth
      · right
        have hlen : ((before ++ [decl]).length : Int) = maxdepth := by
          rw [← hcut, depth_declared]
          simp
        refine ⟨before ++ [decl], happend ▸ List.prefix_append _ _, hlen, ?_⟩
        have hround : seDecl maxdepth decl (declared before) =
            ([declared (before ++ [decl])], []) := by
          rw [← hleaf']
          simp only [seDecl, hcut, if_true, SetNode.declare]
        simp only [seDeclsLoop, seAllLoop, hround, Option.bind_eq_bind, Option.bind_some,
          List.append_nil]
        exact seDeclsLoop_nil maxdepth _ vars decls
      · have hround : seDecl maxdepth decl (declared before) =
            ([], [declared (before ++ [decl])]) := by
          rw [← hleaf']
          simp only [seDecl, hcut, if_false, SetNode.declare]
        have hstep : seDeclsLoop maxdepth (decl :: decls) [] [declared before] vars =
            seDeclsLoop maxdepth decls [] [declared (before ++ [decl])] vars := by
          simp [seDeclsLoop, seAllLoop, hround]
        rw [hstep, happend]
        exact seDeclsLoop_declared maxdepth decls (before ++ [decl]) vars

/-- Later declarations keep the type of a variable, unless one of them gives it another. -/
theorem apply_typecheckDeclarations_prefix {decls' decls : List (String × Typ)}
    (hbegin : decls' <+: decls) {x : String} {t : Typ}
    (hx : (typecheckDeclarations decls').apply x = .ok t) :
    (typecheckDeclarations decls).apply x = .ok t ∨
      ∃ t', t' ≠ t ∧ (x, t') ∈ decls.drop decls'.length := by
  obtain ⟨later, rfl⟩ := hbegin
  rw [List.drop_left]
  induction later using List.reverseRecOn with
  | nil =>
      left
      rwa [List.append_nil]
  | append_singleton later decl ih =>
      by_cases hdecl : x = decl.1
      · by_cases ht : decl.2 = t
        · left
          rw [← List.append_assoc, typecheckDeclarations_append, Env.apply, if_pos hdecl, ht]
        · right
          have hmem : (x, decl.2) ∈ later ++ [decl] :=
            List.mem_append_right _ (List.mem_singleton.mpr (by rw [hdecl]))
          exact ⟨decl.2, ht, hmem⟩
      · rcases ih with ih | ⟨t', ht', hmem⟩
        · left
          rwa [← List.append_assoc, typecheckDeclarations_append, Env.apply, if_neg hdecl]
        · right
          exact ⟨t', ht', List.mem_append_left _ hmem⟩

/-! ### Programs -/

/-- The executor has a result on a program that the typechecker accepts. The path to each of
its nodes begins with the declarations, or the node is that of a declaration at which the depth
limit has cut the path. What the node records last for a variable is an expression over the
symbolic variables, without an `Input`. It has the type that the declarations up to there give
the variable, which is the type that all of them give it unless a later one gives it another. -/
theorem declarations_bind {p : Program} (hp : typecheckProg p = .ok ()) (maxdepth : Int)
    (vars : SymVars) :
    ∃ done leaves vars', seProg p maxdepth vars = some ((done, leaves), vars') ∧
      ∀ n ∈ done ++ leaves, ∃ decls', decls' <+: p.decls ∧ declared decls' ∈ n.path ∧
        (decls' = p.decls ∨ n = declared decls' ∧ (decls'.length : Int) = maxdepth) ∧
        ∀ x e, n.getVarValue (.id x) = some e →
          ∃ t, (typecheckDeclarations decls').apply x = .ok t ∧ SymTyped vars' e t ∧
            ((typecheckDeclarations p.decls).apply x = .ok t ∨
              ∃ t', t' ≠ t ∧ (x, t') ∈ p.decls.drop decls'.length) := by
  have ⟨⟨⟨done, leaves⟩, vars'⟩, hresult⟩ := seProg_total hp maxdepth vars
  refine ⟨done, leaves, vars', hresult, ?_⟩
  have hrecorded : ∀ {n : SetNode} {decls' : List (String × Typ)}, decls' <+: p.decls →
      n.Recorded (typecheckDeclarations decls') vars' → ∀ x e, n.getVarValue (.id x) = some e →
        ∃ t, (typecheckDeclarations decls').apply x = .ok t ∧ SymTyped vars' e t ∧
          ((typecheckDeclarations p.decls).apply x = .ok t ∨
            ∃ t', t' ≠ t ∧ (x, t') ∈ p.decls.drop decls'.length) := by
    intro n decls' hbegin hn x e hx
    have ⟨t, hxt, htyped⟩ := hn x e hx
    exact ⟨t, hxt, htyped, apply_typecheckDeclarations_prefix hbegin hxt⟩
  obtain ⟨ds, ls, vars1, hdecls, ds', ls', vars2, hstmt, ⟨rfl, rfl⟩, rfl⟩ := seProg_eq_some hresult
  rcases seDeclsLoop_declared maxdepth p.decls [] vars with hall | ⟨decls', hbegin, hlen, hcut⟩
  · -- The statement starts at the leaf after all declarations.
    have hstart := Option.some.inj (hdecls.symm.trans hall)
    simp only [Prod.mk.injEq, List.nil_append] at hstart
    obtain ⟨⟨rfl, rfl⟩, rfl⟩ := hstart
    have hdesc := seStmt_descends maxdepth p.statement
    have hnodes := seAllLoop_keeps (recorded_persistent _)
      (fun leaf vars r vars' h => (hdesc leaf vars r vars' h).vars)
      (seStmt_records maxdepth hp) hstmt
      (fun l hl => List.mem_singleton.mp hl ▸ declared_recorded vars1 p.decls) (by simp)
    intro n hn
    rw [List.nil_append] at hn
    have ⟨l, hl, hln⟩ := ((seAllLoop_descends hdesc hstmt).1 n hn).resolve_left (by simp)
    rw [List.mem_singleton.mp hl] at hln
    exact ⟨p.decls, List.prefix_refl _, hln, Or.inl rfl,
      hrecorded (List.prefix_refl _) (hnodes n hn)⟩
  · have hstart := Option.some.inj (hdecls.symm.trans hcut)
    simp only [Prod.mk.injEq] at hstart
    obtain ⟨⟨rfl, rfl⟩, rfl⟩ := hstart
    obtain ⟨heq, rfl⟩ := seAllLoop_nil_eq_some hstmt
    obtain ⟨rfl, rfl⟩ := Prod.mk.inj heq
    intro n hn
    have hn : n = declared decls' := by simpa using hn
    subst hn
    exact ⟨decls', hbegin, SetNode.self_mem_path _, Or.inr ⟨rfl, hlen⟩,
      hrecorded hbegin (declared_recorded vars1 decls')⟩

theorem declarations_bind_example5 :
    ∃ done leaves vars', seProg example5 3 [] = some ((done, leaves), vars') ∧
      ∀ n ∈ done ++ leaves, ∃ decls', decls' <+: example5.decls ∧ declared decls' ∈ n.path ∧
        (decls' = example5.decls ∨ n = declared decls' ∧ (decls'.length : Int) = 3) ∧
        ∀ x e, n.getVarValue (.id x) = some e →
          ∃ t, (typecheckDeclarations decls').apply x = .ok t ∧ SymTyped vars' e t ∧
            ((typecheckDeclarations example5.decls).apply x = .ok t ∨
              ∃ t', t' ≠ t ∧ (x, t') ∈ example5.decls.drop decls'.length) :=
  declarations_bind rfl 3 []

/-- `int x; boolean x; {}`. -/
def redeclared : Program where
  decls := [("x", .integer), ("x", .boolean)]
  statement := .block []

/-- With the depth limit 1, the path is cut after `int x`. Then the value recorded for `x` is
an integer, and the environment of the program has the type boolean for it. -/
theorem redeclared_cut :
    ¬ ∀ (p : Program) (maxdepth : Int), typecheckProg p = .ok () →
      ∃ done leaves vars', seProg p maxdepth [] = some ((done, leaves), vars') ∧
        ∀ n ∈ done ++ leaves, ∀ x e, n.getVarValue (.id x) = some e →
          ∃ t, (typecheckDeclarations p.decls).apply x = .ok t ∧ SymTyped vars' e t := by
  intro h
  have ⟨done, leaves, vars', hresult, hnodes⟩ := h redeclared 1 rfl
  have hcut : seProg redeclared 1 [] = some (([declared [("x", .integer)]], []), []) := rfl
  have heq := Option.some.inj (hresult.symm.trans hcut)
  simp only [Prod.mk.injEq] at heq
  obtain ⟨⟨rfl, rfl⟩, rfl⟩ := heq
  have ⟨t, hx, htyped⟩ := hnodes _ List.mem_cons_self "x" (.intConst 0) rfl
  have hboolean : Typ.boolean = t := Except.ok.inj hx
  have hinteger : Typ.integer = t := Except.ok.inj htyped.typed
  rw [← hinteger] at hboolean
  cases hboolean

end Stabl.SimSee
