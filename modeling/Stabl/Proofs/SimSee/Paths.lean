import Stabl.Proofs.SimSee.Totality

/-!
# `Stabl.Proofs.SimSee.Paths`: the execution tree and the concrete runs

A valuation of the symbolic variables follows one path through the execution tree
(`seProg_exact`). The proof keeps track of the one leaf that the valuation follows
(`Tracked`) and of a concrete run that has come to it (`Matches`). The other leaves have
no descendants that it follows (`survivors_of_not_holds`), whatever the executor does
with them. Each step turns the tracked leaf into one leaf or into one cut node
(`Outcome`). Once the path is cut, the concrete run goes on by itself, and only its
first assignments are those of the node.
-/

set_option autoImplicit false

namespace Stabl.SimSee

/-! ### Symbolic variables on a path -/

theorem symvarName_injective {m n : Nat} (h : symvarName m = symvarName n) : m = n := by
  have hdigits : Nat.toDigits 10 m = Nat.toDigits 10 n := by
    have hlist := congrArg String.toList h
    simpa [symvarName] using hlist
  rw [← Nat.ofDigitChars_ten_toDigits (n := m), hdigits, Nat.ofDigitChars_ten_toDigits]

theorem addNew_extends (known : List String) (s : String) : known <+: addNew known s := by
  unfold addNew
  split
  · exact List.prefix_refl _
  · exact List.prefix_append _ _

theorem mem_addNew {known : List String} {s x : String} :
    x ∈ addNew known s ↔ x ∈ known ∨ x = s := by
  unfold addNew
  split
  · rename_i hs
    constructor
    · exact Or.inl
    · rintro (h | rfl)
      · exact h
      · exact hs
  · simp

theorem foldl_addNew_extends (l : List String) :
    ∀ known : List String, known <+: l.foldl addNew known := by
  induction l with
  | nil => exact fun known => List.prefix_refl _
  | cons s l ih => exact fun known => (addNew_extends known s).trans (ih (addNew known s))

theorem mem_foldl_addNew {l : List String} {x : String} :
    ∀ {known : List String}, x ∈ l.foldl addNew known ↔ x ∈ known ∨ x ∈ l := by
  induction l with
  | nil => simp
  | cons s l ih =>
      intro known
      rw [List.foldl_cons, ih, mem_addNew, List.mem_cons, or_assoc]

/-- Symbolic variables that are there already add nothing. -/
theorem foldl_addNew_known {l : List String} :
    ∀ {known : List String}, (∀ s ∈ l, s ∈ known) → l.foldl addNew known = known := by
  induction l with
  | nil => exact fun _ => rfl
  | cons s l ih =>
      intro known h
      have hs : addNew known s = known := by simp [addNew, h s List.mem_cons_self]
      rw [List.foldl_cons, hs]
      exact ih (fun x hx => h x (List.mem_cons_of_mem _ hx))

/-- The value of a variable has symbolic variables of the path only. -/
theorem SetNode.symvars_of_getVarValue {v e : Expr} : ∀ {n : SetNode}, n.getVarValue v = some e →
    ∀ s ∈ e.symvars, s ∈ n.symvars := by
  intro n
  induction n with
  | entryNode =>
      intro h
      simp [getVarValue] at h
  | inode v' e' p d ih =>
      intro h s hs
      rw [getVarValue] at h
      split at h
      · have heq : e' = e := Option.some.inj h
        exact mem_foldl_addNew.mpr (Or.inr (heq ▸ hs))
      · exact mem_foldl_addNew.mpr (Or.inl (ih h s hs))
  | dnode c p d ih =>
      intro h s hs
      exact mem_foldl_addNew.mpr (Or.inl (ih h s hs))

/-- The listed symbolic variables were made when the variables `vars` were. -/
def Made (vars : SymVars) (symvars : List String) : Prop :=
  ∀ s ∈ symvars, ∃ i < vars.length, s = symvarName (i + 1)

theorem Made.mono {vars vars' : SymVars} {symvars : List String} (h : Made vars symvars)
    (hvars : vars <+: vars') : Made vars' symvars := by
  intro s hs
  have ⟨i, hi, heq⟩ := h s hs
  exact ⟨i, Nat.lt_of_lt_of_le hi hvars.length_le, heq⟩

/-- A variable that has just been made is new on every path. -/
theorem Made.addNew_symvarName {vars : SymVars} {known : List String} (h : Made vars known) :
    addNew known (symvarName (vars.length + 1)) = known ++ [symvarName (vars.length + 1)] := by
  have hnew : symvarName (vars.length + 1) ∉ known := by
    intro hmem
    have ⟨i, hi, heq⟩ := h _ hmem
    have := symvarName_injective heq
    omega
  simp [addNew, hnew]

theorem getElem?_extends {α : Type} {l l' : List α} (h : l <+: l') {k : Nat} {a : α}
    (hk : l[k]? = some a) : l'[k]? = some a := by
  obtain ⟨t, rfl⟩ := h
  exact List.getElem?_append_left (List.getElem?_eq_some_iff.mp hk).1 ▸ hk

theorem Valuation.Respects.mono {rho : Valuation} {vars vars' : SymVars} (h : rho.Respects vars')
    (hvars : vars <+: vars') : rho.Respects vars :=
  fun i t hi => h i t (getElem?_extends hvars hi)

theorem Inputs.Follows.mono {inputs : Inputs} {rho : Valuation} {l l' : List String}
    (h : inputs.Follows rho l') (hl : l <+: l') : inputs.Follows rho l :=
  fun k s hk => h k s (getElem?_extends hl hk)

/-- Inputs that follow a list of symbolic variables exist. -/
theorem exists_follows (rho : Valuation) (symvars : List String) :
    ∃ inputs : Inputs, inputs.Follows rho symvars := by
  have hdefault : ∀ t : Typ, ∃ v : Value, v.typ = t := fun t =>
    match t with
    | .boolean => ⟨.bool false, rfl⟩
    | .integer => ⟨.int 0, rfl⟩
  have hvalue : ∀ (k : Nat) (t : Typ), ∃ v : Value, v.typ = t ∧
      ∀ s, symvars[k]? = some s → (rho s).typ = t → v = rho s := by
    intro k t
    by_cases h : ∃ s, symvars[k]? = some s ∧ (rho s).typ = t
    · have ⟨s, hs, ht⟩ := h
      refine ⟨rho s, ht, fun s' hs' _ => ?_⟩
      rw [Option.some.inj (hs.symm.trans hs')]
    · have ⟨v, hv⟩ := hdefault t
      exact ⟨v, hv, fun s hs ht => absurd ⟨s, hs, ht⟩ h⟩
  choose get typ_get hget using hvalue
  exact ⟨⟨get, typ_get⟩, fun k s hs => hget k _ s hs rfl⟩

/-! ### Expressions -/

/-- A concrete evaluation at the values that a leaf has under the valuation: it gives what
the symbolic value evaluates to, and uses an input for each symbolic variable made. -/
theorem seExpr_evaluates {rho : Valuation} {leaf : SetNode} {e : Expr} :
    ∀ {vars vars' : SymVars} {se : Expr} {known : List String},
      seExpr leaf e vars = some (se, vars') → rho.Respects vars' →
      (∀ s ∈ leaf.symvars, s ∈ known) → Made vars known →
      Made vars' (se.symvars.foldl addNew known) ∧
      ∀ inputs : Inputs, inputs.Follows rho (se.symvars.foldl addNew known) →
        evalExpr inputs (leaf.store rho) e known.length =
          (evalSym rho se).map (fun v => (v, (se.symvars.foldl addNew known).length)) := by
  induction e with
  | id vname =>
      intro vars vars' se known h hrho hleaf hmade
      obtain ⟨value, hvalue, rfl, rfl⟩ := seExpr_id_eq_some h
      -- The value was recorded on the path, so its symbolic variables are known already.
      have hknown : value.symvars.foldl addNew known = known :=
        foldl_addNew_known (fun s hs => hleaf s (SetNode.symvars_of_getVarValue hvalue s hs))
      rw [hknown]
      refine ⟨hmade, fun inputs _ => ?_⟩
      simp only [evalExpr, SetNode.store, hvalue, Option.bind_some]
      cases evalSym rho value <;> rfl
  | intConst n | boolConst b =>
      intro vars vars' se known h hrho hleaf hmade
      simp only [seExpr, Option.some.injEq, Prod.mk.injEq] at h
      obtain ⟨rfl, rfl⟩ := h
      exact ⟨hmade, fun inputs _ => rfl⟩
  | add e1 e2 ih1 ih2 | sub e1 e2 ih1 ih2 | or e1 e2 ih1 ih2 | and e1 e2 ih1 ih2
  | equals e1 e2 ih1 ih2 =>
      intro vars vars' se known h hrho hleaf hmade
      obtain ⟨sv1, vars1, h1, sv2, vars2, h2, rfl, rfl⟩ := operands_eq_some h
      -- The variables of the left operand are known when the right one is evaluated.
      obtain ⟨hmade1, heval1⟩ := ih1 h1 (hrho.mono (seExpr_vars h2)) hleaf hmade
      have hleaf1 : ∀ s ∈ leaf.symvars, s ∈ sv1.symvars.foldl addNew known :=
        fun s hs => mem_foldl_addNew.mpr (Or.inl (hleaf s hs))
      obtain ⟨hmade2, heval2⟩ := ih2 h2 hrho hleaf1 hmade1
      simp only [Expr.symvars, List.foldl_append]
      refine ⟨hmade2, fun inputs hinputs => ?_⟩
      have heval1 := heval1 inputs (hinputs.mono (foldl_addNew_extends _ _))
      have heval2 := heval2 inputs hinputs
      simp only [evalExpr, evalSym, heval1, Option.bind_eq_bind]
      -- Both sides evaluate the operands in the same order, so they fail together.
      cases evalSym rho sv1 with
      | none => rfl
      | some v1 =>
          simp only [Option.map_some, Option.bind_some, heval2]
          cases evalSym rho sv2 with
          | none => rfl
          | some v2 =>
              simp only [Option.map_some, Option.bind_some]
              exact Option.map_eq_bind.symm
  | not e ih =>
      intro vars vars' se known h hrho hleaf hmade
      obtain ⟨sv, vars1, h1, rfl, rfl⟩ := seExpr_not_eq_some h
      obtain ⟨hmade1, heval1⟩ := ih h1 hrho hleaf hmade
      refine ⟨hmade1, fun inputs hinputs => ?_⟩
      have heval1 := heval1 inputs hinputs
      simp only [evalExpr, evalSym, heval1, Option.bind_eq_bind, Expr.symvars]
      cases evalSym rho sv with
      | none => rfl
      | some v =>
          simp only [Option.map_some, Option.bind_some]
          exact Option.map_eq_bind.symm
  | input t =>
      intro vars vars' se known h hrho hleaf hmade
      simp only [seExpr, Option.some.injEq, Prod.mk.injEq] at h
      obtain ⟨rfl, rfl⟩ := h
      -- The variable is new, so it stands for the next input.
      simp only [Expr.symvars, List.foldl_cons, List.foldl_nil, hmade.addNew_symvarName]
      constructor
      · intro s hs
        rcases List.mem_append.mp hs with hs | hs
        · exact hmade.mono (List.prefix_append _ _) s hs
        · exact ⟨vars.length, by simp, List.mem_singleton.mp hs⟩
      · intro inputs hinputs
        have htyp : (rho (symvarName (vars.length + 1))).typ = t := hrho vars.length t (by simp)
        have hget := hinputs known.length (symvarName (vars.length + 1)) (by simp)
        rw [htyp] at hget
        simp [evalExpr, evalSym, hget]

/-! ### The leaf that the valuation follows -/

/-- The valuation follows the path to the node, and the node has a value of its type for
every variable. -/
structure Tracked (rho : Valuation) (env : Env) (vars : SymVars) (n : SetNode) : Prop where
  holds : n.holds rho = true
  typed : (n.store rho).Typed env
  made : Made vars n.symvars

/-- The state of a concrete run that has come to the node. -/
structure Matches (rho : Valuation) (n : SetNode) (σ : State) : Prop where
  store : σ.store = n.store rho
  used : σ.used = n.symvars.length
  assignments : σ.assignments = n.assignments rho

theorem Tracked.mono {rho : Valuation} {env : Env} {vars vars' : SymVars} {n : SetNode}
    (h : Tracked rho env vars n) (hvars : vars <+: vars') : Tracked rho env vars' n :=
  ⟨h.holds, h.typed, h.made.mono hvars⟩

/-- An expression at a tracked leaf: the symbolic value has a value of the type of the
expression, and a concrete run finds that value. -/
theorem Tracked.seExpr {rho : Valuation} {env : Env} {vars vars' : SymVars} {leaf : SetNode}
    (h : Tracked rho env vars leaf) (hrho : rho.Respects vars') {e se : Expr} {t : Typ}
    (hse : seExpr leaf e vars = some (se, vars')) (he : typecheckExpr env e = .ok t)
    (hlogic : e.logicalBoolean env = true) :
    ∃ v, evalSym rho se = some v ∧ v.typ = t ∧ Made vars' (se.symvars.foldl addNew leaf.symvars) ∧
      ∀ inputs : Inputs, inputs.Follows rho (se.symvars.foldl addNew leaf.symvars) →
        ∀ σ, Matches rho leaf σ → evalExpr inputs σ.store e σ.used =
          some (v, (se.symvars.foldl addNew leaf.symvars).length) := by
  have ⟨hmade, heval⟩ := seExpr_evaluates hse hrho (fun s hs => hs) h.made
  -- The concrete evaluation has a value for some inputs that follow the valuation.
  have ⟨inputs, hinputs⟩ := exists_follows rho (se.symvars.foldl addNew leaf.symvars)
  have ⟨v, k, hv, htyp⟩ := evalExpr_total h.typed inputs leaf.symvars.length he hlogic
  rw [heval inputs hinputs, Option.map_eq_some_iff] at hv
  have ⟨v', hv', heq⟩ := hv
  have hvv : v' = v := (Prod.mk.inj heq).1
  rw [hvv] at hv'
  refine ⟨v, hv', htyp, hmade, fun inputs hinputs σ hσ => ?_⟩
  rw [hσ.store, hσ.used, heval inputs hinputs, hv', Option.map_some]

/-- The nodes that the valuation follows, among those cut and among the leaves. -/
def survivors (rho : Valuation) (r : DoneLeaves) : DoneLeaves :=
  (r.1.filter (·.holds rho), r.2.filter (·.holds rho))

theorem survivors_append (rho : Valuation) (r r' : DoneLeaves) :
    survivors rho (r.1 ++ r'.1, r.2 ++ r'.2) =
      ((survivors rho r).1 ++ (survivors rho r').1, (survivors rho r).2 ++ (survivors rho r').2) :=
      by
  simp [survivors]

/-- The valuation follows none of the nodes that descend from a node it does not follow. -/
theorem survivors_of_not_holds {rho : Valuation} {leaf : SetNode} (hleaf : leaf.holds rho = false)
    {r : DoneLeaves} (hr : ∀ n ∈ r.1 ++ r.2, leaf ∈ n.path) : survivors rho r = ([], []) := by
  have hdead : ∀ n ∈ r.1 ++ r.2, ¬ n.holds rho = true := by
    intro n hn hholds
    have hl := SetNode.holds_of_mem_path (hr n hn) hholds
    rw [hleaf] at hl
    cases hl
  have h1 : r.1.filter (·.holds rho) = [] :=
    List.filter_eq_nil_iff.mpr (fun n hn => hdead n (List.mem_append_left _ hn))
  have h2 : r.2.filter (·.holds rho) = [] :=
    List.filter_eq_nil_iff.mpr (fun n hn => hdead n (List.mem_append_right _ hn))
  rw [survivors, h1, h2]

/-- Leaves that the valuation does not follow add no survivor. -/
theorem seAllLoop_dead {rho : Valuation} {step : LeafStep} (hstep : step.Descending)
    {leaves : List SetNode} : ∀ {done leaves' : List SetNode} {vars vars' : SymVars}
    {r : DoneLeaves},
      seAllLoop step done leaves' leaves vars = some (r, vars') →
      leaves.filter (·.holds rho) = [] →
      survivors rho r = survivors rho (done, leaves') := by
  induction leaves with
  | nil =>
      intro done leaves' vars vars' r h _
      rw [(seAllLoop_nil_eq_some h).1]
  | cons l ls ih =>
      intro done leaves' vars vars' r h hdead
      obtain ⟨d, l', vars1, h1, hrest⟩ := seAllLoop_cons_eq_some h
      rw [List.filter_eq_nil_iff, List.forall_mem_cons] at hdead
      have hl : l.holds rho = false := by simpa using hdead.1
      have hnone : survivors rho (d, l') = ([], []) :=
        survivors_of_not_holds hl (hstep l vars _ vars1 h1).nodes
      have happend := survivors_append rho (d, l') (done, leaves')
      rw [hnone] at happend
      exact (ih hrest (List.filter_eq_nil_iff.mpr hdead.2)).trans happend

/-- Of a step at every leaf there survives what survives of the step at the one leaf that
the valuation follows. -/
theorem seAllLoop_survivors {rho : Valuation} {step : LeafStep} (hstep : step.Descending)
    {leaves : List SetNode} {m : SetNode} : ∀ {done leaves' : List SetNode} {vars vars' : SymVars}
      {r : DoneLeaves}, seAllLoop step done leaves' leaves vars = some (r, vars') →
      leaves.filter (·.holds rho) = [m] → survivors rho (done, leaves') = ([], []) →
      ∃ r1 vars1 vars2, step m vars1 = some (r1, vars2) ∧ vars <+: vars1 ∧ vars2 <+: vars' ∧
        survivors rho r = survivors rho r1 := by
  induction leaves with
  | nil =>
      intro done leaves' vars vars' r h hm _
      cases hm
  | cons l ls ih =>
      intro done leaves' vars vars' r h hm hacc
      obtain ⟨d, l', vars1, h1, hrest⟩ := seAllLoop_cons_eq_some h
      have happend := survivors_append rho (d, l') (done, leaves')
      rw [hacc, List.append_nil, List.append_nil] at happend
      by_cases hl : l.holds rho = true
      · rw [List.filter_cons_of_pos hl] at hm
        have ⟨hlm, hls⟩ := List.cons.inj hm
        have hvars := (seAllLoop_descends hstep hrest).2
        have hdead := seAllLoop_dead hstep hrest hls
        exact ⟨(d, l'), vars, vars1, hlm ▸ h1, List.prefix_refl _, hvars, hdead.trans happend⟩
      · rw [List.filter_cons_of_neg hl] at hm
        have hnone : survivors rho (d, l') = ([], []) :=
          survivors_of_not_holds (by simpa using hl) (hstep l vars _ vars1 h1).nodes
        rw [hnone] at happend
        have ⟨r1, varsa, varsb, hm1, hvarsa, hvarsb, hr⟩ := ih hrest hm happend
        have hvars := (hstep l vars _ vars1 h1).vars
        exact ⟨r1, varsa, varsb, hm1, hvars.trans hvarsa, hvarsb, hr⟩

/-! ### What becomes of the leaf -/

/-- What the executor makes of the leaf that the valuation follows, where a concrete run
does `run`: one leaf, which the run comes to, or one cut node, whose assignments the run
makes first. -/
inductive Outcome (rho : Valuation) (env : Env) (vars : SymVars)
    (run : Inputs → State → Option State) (leaf : SetNode) (r : DoneLeaves) : Prop where
  | live (n : SetNode) (survives : survivors rho r = ([], [n]))
    (symvars : leaf.symvars <+: n.symvars)
      (tracked : Tracked rho env vars n)
      (runs : ∀ inputs : Inputs, inputs.Follows rho n.symvars → ∀ σ, Matches rho leaf σ →
        ∃ σ', run inputs σ = some σ' ∧ Matches rho n σ')
  | cut (n : SetNode) (survives : survivors rho r = ([n], []))
    (symvars : leaf.symvars <+: n.symvars)
      (runs : ∀ inputs : Inputs, inputs.Follows rho n.symvars → ∀ σ, Matches rho leaf σ →
        ∃ σ', run inputs σ = some σ' ∧ σ'.store.Typed env ∧ n.assignments rho <+: σ'.assignments)

/-- At the leaf that the valuation follows, the step does what `run` does. -/
def LeafStep.Simulates (step : LeafStep) (rho : Valuation) (env env' : Env)
    (run : Inputs → State → Option State) : Prop :=
  ∀ leaf vars r vars', step leaf vars = some (r, vars') → rho.Respects vars' →
    Tracked rho env vars leaf → Outcome rho env' vars' run leaf r

variable {rho : Valuation} {env env' : Env} {vars vars' : SymVars} {leaf : SetNode}
  {r r' : DoneLeaves}
  {run run' : Inputs → State → Option State}

theorem Outcome.mono (h : Outcome rho env vars run leaf r) (hvars : vars <+: vars')
    (hr : survivors rho r' = survivors rho r) : Outcome rho env vars' run leaf r' := by
  cases h with
  | live n survives symvars tracked runs =>
      exact .live n (hr.trans survives) symvars (tracked.mono hvars) runs
  | cut n survives symvars runs => exact .cut n (hr.trans survives) symvars runs

/-- One run after another. When the first part has cut the path, the second part of the
run still takes place; the executor has stopped. -/
theorem Outcome.andThen (h : Outcome rho env vars run leaf r)
    (hlive : ∀ n, survivors rho r = ([], [n]) → Tracked rho env vars n →
      Outcome rho env' vars' run' n r')
    (hcut : ∀ n, survivors rho r = ([n], []) → survivors rho r' = ([n], []))
    (htotal : ∀ inputs, RunsOn env env' (run' inputs)) :
    Outcome rho env' vars' (fun inputs σ => (run inputs σ).bind (run' inputs)) leaf r' := by
  cases h with
  | live n survives symvars tracked runs =>
      cases hlive n survives tracked with
      | live n' survives' symvars' tracked' runs' =>
          refine .live n' survives' (symvars.trans symvars') tracked'
            (fun inputs hinputs σ hσ => ?_)
          have ⟨σ1, h1, hσ1⟩ := runs inputs (hinputs.mono symvars') σ hσ
          have ⟨σ2, h2, hσ2⟩ := runs' inputs hinputs σ1 hσ1
          exact ⟨σ2, by simp [h1, h2], hσ2⟩
      | cut n' survives' symvars' runs' =>
          refine .cut n' survives' (symvars.trans symvars') (fun inputs hinputs σ hσ => ?_)
          have ⟨σ1, h1, hσ1⟩ := runs inputs (hinputs.mono symvars') σ hσ
          have ⟨σ2, h2, hσ2⟩ := runs' inputs hinputs σ1 hσ1
          exact ⟨σ2, by simp [h1, h2], hσ2⟩
  | cut n survives symvars runs =>
      refine .cut n (hcut n survives) symvars (fun inputs hinputs σ hσ => ?_)
      have ⟨σ1, h1, htyped1, hassign1⟩ := runs inputs hinputs σ hσ
      have ⟨σ2, h2, htyped2, htrace⟩ := htotal inputs σ1 htyped1
      exact ⟨σ2, by simp [h1, h2], htyped2, hassign1.trans (htrace.map _)⟩

/-- A step at every leaf, one of which the valuation follows. -/
theorem seAllLoop_outcome {step : LeafStep} (hstep : step.Descending)
    (hsim : step.Simulates rho env env' run) {leaves : List SetNode} {m : SetNode}
    (h : seAllLoop step [] [] leaves vars = some (r, vars')) (hrho : rho.Respects vars')
    (hm : leaves.filter (·.holds rho) = [m]) (htracked : Tracked rho env vars m) :
    Outcome rho env' vars' run m r := by
  have ⟨r1, vars1, vars2, h1, hvars1, hvars2, hr⟩ := seAllLoop_survivors hstep h hm rfl
  have hout := hsim m vars1 r1 vars2 h1 (hrho.mono hvars2) (htracked.mono hvars1)
  exact hout.mono hvars2 hr

/-- A node for an assignment, of a variable whose type is that of the value. -/
theorem Tracked.inode (h : Tracked rho env vars leaf) {se : Expr} {v : Value} {x : String}
    (hv : evalSym rho se = some v) (htyped : ∀ y t, env'.apply y = .ok t →
      if y = x then v.typ = t else env.apply y = .ok t)
    (hmade : Made vars' (se.symvars.foldl addNew leaf.symvars)) (d : Int) :
    Tracked rho env' vars' (.inode (.id x) se leaf d) := by
  refine ⟨h.holds, fun y t hy => ?_, hmade⟩
  have hcases := htyped y t hy
  by_cases hyx : y = x
  · rw [if_pos hyx] at hcases
    exact ⟨v, by simp [SetNode.store, SetNode.getVarValue, hyx, hv], hcases⟩
  · rw [if_neg hyx] at hcases
    simpa [SetNode.store, SetNode.getVarValue, hyx] using h.typed y t hcases

/-- The state after the assignment of a node. -/
theorem Matches.inode {σ : State} (h : Matches rho leaf σ) {se : Expr} {v : Value} {x : String}
    (hv : evalSym rho se = some v) (d : Int) :
    Matches rho (.inode (.id x) se leaf d)
      (σ.assign x v (se.symvars.foldl addNew leaf.symvars).length) where
  store := by
    funext y
    by_cases hyx : y = x
    · simp [State.assign, SetNode.store, SetNode.getVarValue, hyx, hv]
    · simp [State.assign, SetNode.store, SetNode.getVarValue, hyx, h.store]
  used := rfl
  assignments := by
    have hassign := h.assignments
    simp only [State.assignments] at hassign
    simp [State.assignments, State.assign, SetNode.assignments, hassign, hv]

/-- An assignment that the executor records: the new node is the leaf, or it is cut. -/
theorem outcome_assignment (h : Tracked rho env vars leaf) {e se : Expr} {v : Value} {x : String}
    (hv : evalSym rho se = some v) (htyped : ∀ y t, env'.apply y = .ok t →
      if y = x then v.typ = t else env.apply y = .ok t)
    (hmade : Made vars' (se.symvars.foldl addNew leaf.symvars))
    (heval : ∀ inputs : Inputs, inputs.Follows rho (se.symvars.foldl addNew leaf.symvars) →
      ∀ σ, Matches rho leaf σ → evalExpr inputs σ.store e σ.used =
        some (v, (se.symvars.foldl addNew leaf.symvars).length))
    {d : Int} (hr : r = ([.inode (.id x) se leaf d], []) ∨ r = ([], [.inode (.id x) se leaf d])) :
    Outcome rho env' vars' (fun inputs => execAssignment inputs x e) leaf r := by
  have htracked : Tracked rho env' vars' (.inode (.id x) se leaf d) := h.inode hv htyped hmade d
  have hholds : (SetNode.inode (.id x) se leaf d).holds rho = true := htracked.holds
  have hruns : ∀ inputs : Inputs, inputs.Follows rho (SetNode.inode (.id x) se leaf d).symvars →
      ∀ σ, Matches rho leaf σ → ∃ σ', execAssignment inputs x e σ = some σ' ∧
        Matches rho (.inode (.id x) se leaf d) σ' := by
    intro inputs hinputs σ hσ
    exact ⟨_, by simp only [execAssignment, heval inputs hinputs σ hσ]; rfl, hσ.inode hv d⟩
  rcases hr with rfl | rfl
  · refine .cut (.inode (.id x) se leaf d) (by simp [survivors, hholds]) (foldl_addNew_extends _ _)
      (fun inputs hinputs σ hσ => ?_)
    have ⟨σ', hrun, hσ'⟩ := hruns inputs hinputs σ hσ
    exact ⟨σ', hrun, hσ'.store ▸ htracked.typed, hσ'.assignments ▸ List.prefix_refl _⟩
  · exact .live (.inode (.id x) se leaf d) (by simp [survivors, hholds])
      (foldl_addNew_extends _ _) htracked hruns

/-! ### Statements -/

theorem seAssignment_simulates {maxdepth : Int} {x : String} {e : Expr} {t : Typ}
    (hx : env.apply x = .ok t) (he : typecheckExpr env e = .ok t)
    (hlogic : e.logicalBoolean env = true) :
    LeafStep.Simulates (seAssignment maxdepth x e) rho env env
      (fun inputs => execAssignment inputs x e) := by
  intro leaf vars r vars' h hrho htracked
  obtain ⟨se, hse, hresult⟩ := seAssignment_eq_some h
  have hr : r = ([.inode (.id x) se leaf (leaf.depth + 1)], []) ∨
      r = ([], [.inode (.id x) se leaf (leaf.depth + 1)]) := by
    split at hresult
    · exact Or.inl hresult
    · exact Or.inr hresult
  have ⟨v, hv, htyp, hmade, heval⟩ := htracked.seExpr hrho hse he hlogic
  have htyped : ∀ y t, env.apply y = .ok t → if y = x then v.typ = t else env.apply y = .ok t := by
    intro y t' hy
    split
    · rename_i hyx
      rw [hyx, hx] at hy
      exact htyp.trans (Except.ok.inj hy)
    · exact hy
  exact outcome_assignment htracked hv htyped hmade heval hr

/-- The branch of an `if` that the valuation follows. -/
theorem Tracked.dnode (h : Tracked rho env vars leaf) {c : Expr}
    (hc : evalSym rho c = some (.bool true))
    (hmade : Made vars' (c.symvars.foldl addNew leaf.symvars)) (d : Int) :
    Tracked rho env vars' (.dnode c leaf d) :=
  ⟨by simp [SetNode.holds, h.holds, hc], h.typed, hmade⟩

/-- An `if` does what the branch does that its condition chooses. -/
theorem outcome_branch {c : Expr} {d : Int} {inner outer : Inputs → State → Option State}
    (h : Outcome rho env vars inner (.dnode c leaf d) r)
    (houter : ∀ inputs : Inputs, inputs.Follows rho (c.symvars.foldl addNew leaf.symvars) →
      ∀ σ, Matches rho leaf σ → outer inputs σ =
        inner inputs { σ with used := (c.symvars.foldl addNew leaf.symvars).length }) :
    Outcome rho env vars outer leaf r := by
  have hsym : leaf.symvars <+: (SetNode.dnode c leaf d).symvars := foldl_addNew_extends _ _
  have hmatch : ∀ σ, Matches rho leaf σ → Matches rho (.dnode c leaf d)
      { σ with used := (c.symvars.foldl addNew leaf.symvars).length } :=
    fun σ hσ => ⟨hσ.store, rfl, hσ.assignments⟩
  cases h with
  | live n survives symvars tracked runs =>
      refine .live n survives (hsym.trans symvars) tracked (fun inputs hinputs σ hσ => ?_)
      rw [houter inputs (hinputs.mono symvars) σ hσ]
      exact runs inputs hinputs _ (hmatch σ hσ)
  | cut n survives symvars runs =>
      refine .cut n survives (hsym.trans symvars) (fun inputs hinputs σ hσ => ?_)
      rw [houter inputs (hinputs.mono symvars) σ hσ]
      exact runs inputs hinputs _ (hmatch σ hσ)

theorem seIf_simulates {maxdepth : Int} {b : Expr} {s1 s2 : Stmt}
    (hb : typecheckExpr env b = .ok .boolean) (hlogic : b.logicalBoolean env = true)
    (h1 : LeafStep.Simulates (seStmt maxdepth s1) rho env env (fun inputs => execStmt inputs s1))
    (h2 : LeafStep.Simulates (seStmt maxdepth s2) rho env env (fun inputs => execStmt inputs s2)) :
    LeafStep.Simulates (seStmt maxdepth (.ifStmt b s1 s2)) rho env env
      (fun inputs => execStmt inputs (.ifStmt b s1 s2)) := by
  intro leaf vars r vars' h hrho htracked
  obtain ⟨sb, vars0, hsb, tdone, tleaves, vars1, ht, fdone, fleaves, vars2, hf, rfl, rfl⟩ :=
    seStmt_ifStmt_eq_some h
  have hdesct := seStmt_descends maxdepth s1 _ _ _ _ ht
  have hdescf := seStmt_descends maxdepth s2 _ _ _ _ hf
  have hrho1 := hrho.mono hdescf.vars
  have hrho0 := hrho1.mono hdesct.vars
  have ⟨v, hv, htyp, hmade, heval⟩ := htracked.seExpr hrho0 hsb hb hlogic
  have happend := survivors_append rho (tdone, tleaves) (fdone, fleaves)
  cases v with
  | int n => cases htyp
  | bool β =>
      cases β with
      | true =>
          have hdead : (SetNode.dnode (.not sb) leaf (leaf.depth + 1)).holds rho = false := by
            simp [SetNode.holds, evalSym, hv, Value.not]
          rw [survivors_of_not_holds hdead hdescf.nodes, List.append_nil,
            List.append_nil] at happend
          have hnode : Tracked rho env vars0 (.dnode sb leaf (leaf.depth + 1)) :=
            htracked.dnode hv hmade _
          have hout := (h1 _ _ _ _ ht hrho1 hnode).mono hdescf.vars happend
          refine outcome_branch hout (fun inputs hinputs σ hσ => ?_)
          simp [execStmt, heval inputs hinputs σ hσ]
      | false =>
          have hdead : (SetNode.dnode sb leaf (leaf.depth + 1)).holds rho = false := by
            simp [SetNode.holds, hv]
          rw [survivors_of_not_holds hdead hdesct.nodes, List.nil_append,
            List.nil_append] at happend
          have hnot : evalSym rho (.not sb) = some (.bool true) := by
            simp [evalSym, hv, Value.not]
          have hnode : Tracked rho env vars1 (.dnode (.not sb) leaf (leaf.depth + 1)) :=
            htracked.dnode hnot (hmade.mono hdesct.vars) _
          have hout := (h2 _ _ _ _ hf hrho hnode).mono (List.prefix_refl _) happend
          refine outcome_branch hout (fun inputs hinputs σ hσ => ?_)
          simp [execStmt, heval inputs hinputs σ hσ, Expr.symvars]

/-- A node that was cut stays the only survivor of a loop. -/
theorem survivors_of_cut {step : LeafStep} (hstep : step.Descending) {done leaves : List SetNode}
    {n : SetNode} (hn : survivors rho (done, leaves) = ([n], []))
    (h : seAllLoop step [] [] leaves vars = some (r, vars')) :
    survivors rho (r.1 ++ done, r.2) = ([n], []) := by
  have hdone : done.filter (·.holds rho) = [n] := congrArg Prod.fst hn
  have hleaves : leaves.filter (·.holds rho) = [] := congrArg Prod.snd hn
  have hround : survivors rho r = ([], []) := seAllLoop_dead hstep h hleaves
  have h1 : r.1.filter (·.holds rho) = [] := congrArg Prod.fst hround
  have h2 : r.2.filter (·.holds rho) = [] := congrArg Prod.snd hround
  simp [survivors, h1, h2, hdone]

/-- While a leaf is live, what was cut before does not survive. -/
theorem survivors_of_live {done leaves d l : List SetNode} {m : SetNode}
    (hm : survivors rho (done, leaves) = ([], [m])) :
    survivors rho (d ++ done, l) = survivors rho (d, l) := by
  have hdone : done.filter (·.holds rho) = [] := congrArg Prod.fst hm
  simp [survivors, hdone]

theorem seStmtblockLoop_cut {maxdepth : Int} : ∀ {stmts : List Stmt} {done leaves : List SetNode}
    {vars vars' : SymVars} {r : DoneLeaves} {n : SetNode},
    seStmtblockLoop maxdepth stmts done leaves vars = some (r, vars') →
    survivors rho (done, leaves) = ([n], []) → survivors rho r = ([n], []) := by
  intro stmts
  induction stmts with
  | nil =>
      intro done leaves vars vars' r n h hn
      rwa [← (seStmtblockLoop_nil_eq_some h).1]
  | cons stmt stmts ih =>
      intro done leaves vars vars' r n h hn
      obtain ⟨d, l, vars1, h1, hrest⟩ := seStmtblockLoop_cons_eq_some h
      exact ih hrest (survivors_of_cut (seStmt_descends maxdepth stmt) hn h1)

/-- A leaf on its own, before the statements of a block. -/
theorem Outcome.refl (h : Tracked rho env vars leaf) (hr : survivors rho r = ([], [leaf])) :
    Outcome rho env vars (fun _ => some) leaf r :=
  .live leaf hr (List.prefix_refl _) h (fun _ _ σ hσ => ⟨σ, rfl, hσ⟩)

mutual

/-- On a statement that the typechecker accepts, the executor does at the leaf that the
valuation follows what the concrete run does. -/
theorem seStmt_simulates (rho : Valuation) {env : Env} (maxdepth : Int) : ∀ {stmt : Stmt},
    typecheckStmt env stmt = .ok () → stmt.logicalBoolean env = true →
    LeafStep.Simulates (seStmt maxdepth stmt) rho env env (fun inputs => execStmt inputs stmt)
  | .assignment vname e, h, hlogic => by
      have ⟨t, hvar, h⟩ := Result.bind_eq_ok.mp h
      have ⟨t', he, h⟩ := Result.bind_eq_ok.mp h
      have htt' : t = t' := by
        by_contra hne
        simp [hne] at h
      have hsim : LeafStep.Simulates (seAssignment maxdepth vname e) rho env env
          (fun inputs => execAssignment inputs vname e) :=
        seAssignment_simulates hvar (htt' ▸ he) hlogic
      rwa [seStmt_assignment]
  | .ifStmt b s1 s2, h, hlogic => by
      have ⟨tb, hb, h⟩ := Result.bind_eq_ok.mp h
      have ⟨_, h1, h⟩ := Result.bind_eq_ok.mp h
      have ⟨_, h2, h⟩ := Result.bind_eq_ok.mp h
      have htb : tb = .boolean := by
        by_contra hne
        simp [hne] at h
      simp only [Stmt.logicalBoolean, Bool.and_eq_true] at hlogic
      exact seIf_simulates (htb ▸ hb) hlogic.1 (seStmt_simulates rho maxdepth h1 hlogic.2.1)
        (seStmt_simulates rho maxdepth h2 hlogic.2.2)
  | .block stmts, h, hlogic => by
      intro leaf vars r vars' hr hrho htracked
      have hloop := seStmt_block_eq_some hr
      have hstart : survivors rho ([], [leaf]) = ([], [leaf]) := by
        simp [survivors, htracked.holds]
      exact seStmtblockLoop_outcome rho maxdepth h hlogic hloop hrho hstart htracked

theorem seStmtblockLoop_outcome (rho : Valuation) {env : Env} (maxdepth : Int) :
    ∀ {stmts : List Stmt}, typecheckStmtblock env stmts = .ok () →
    Stmt.logicalBooleanBlock env stmts = true →
    ∀ {done leaves : List SetNode} {vars vars' : SymVars} {r : DoneLeaves} {leaf : SetNode},
      seStmtblockLoop maxdepth stmts done leaves vars = some (r, vars') → rho.Respects vars' →
      survivors rho (done, leaves) = ([], [leaf]) → Tracked rho env vars leaf →
      Outcome rho env vars' (fun inputs => execStmtblock inputs stmts) leaf r
  | [], _, _, done, leaves, vars, vars', r, leaf, h, hrho, hleaf, htracked => by
      obtain ⟨rfl, rfl⟩ := seStmtblockLoop_nil_eq_some h
      exact .refl htracked hleaf
  | stmt :: stmts, htype, hlogic, done, leaves, vars, vars', r, leaf, h, hrho, hleaf, htracked => by
      have ⟨_, htype1, htype2⟩ := Result.bind_eq_ok.mp htype
      have hlogic := Bool.and_eq_true_iff.mp hlogic
      obtain ⟨d, l, vars1, h1, hrest⟩ := seStmtblockLoop_cons_eq_some h
      have hdesc := seStmt_descends maxdepth stmt
      have hrho1 := hrho.mono (seStmtblockLoop_vars maxdepth hrest)
      have hfilter : leaves.filter (·.holds rho) = [leaf] := congrArg Prod.snd hleaf
      have hfirst : Outcome rho env vars1 (fun inputs => execStmt inputs stmt) leaf (d, l) :=
        seAllLoop_outcome hdesc
          (seStmt_simulates rho maxdepth htype1 hlogic.1) h1 hrho1 hfilter htracked
      have hround : survivors rho (d ++ done, l) = survivors rho (d, l) := survivors_of_live hleaf
      refine hfirst.andThen (fun n hn hn' => ?_) (fun n hn => ?_) (fun inputs => ?_)
      · exact seStmtblockLoop_outcome rho maxdepth htype2 hlogic.2 hrest hrho (hround.trans hn) hn'
      · exact seStmtblockLoop_cut hrest (hround.trans hn)
      · exact execStmtblock_total inputs htype2 hlogic.2

end

/-! ### Declarations -/

theorem seDecl_simulates (rho : Valuation) (env : Env) (maxdepth : Int) (decl : String × Typ) :
    LeafStep.Simulates (fun leaf vars => some (seDecl maxdepth decl leaf, vars)) rho env
    (decl :: env)
      (fun inputs => execAssignment inputs decl.1 (tyInit decl.2)) := by
  intro leaf vars r vars' h hrho htracked
  simp only [Option.some.injEq, Prod.mk.injEq] at h
  obtain ⟨hr, rfl⟩ := h
  have hinit : ∃ v, evalSym rho (tyInit decl.2) = some v ∧ v.typ = decl.2 ∧
      (tyInit decl.2).symvars = [] ∧ ∀ inputs store k,
        evalExpr inputs store (tyInit decl.2) k = some (v, k) := by
    cases decl.2 with
    | boolean => exact ⟨.bool false, rfl, rfl, rfl, fun _ _ _ => rfl⟩
    | integer => exact ⟨.int 0, rfl, rfl, rfl, fun _ _ _ => rfl⟩
  have ⟨v, hv, htyp, hsym, heval⟩ := hinit
  have htyped : ∀ y t, Env.apply y (decl :: env) = .ok t →
      if y = decl.1 then v.typ = t else env.apply y = .ok t := by
    intro y t hy
    by_cases hyx : y = decl.1
    · rw [if_pos hyx]
      have ht : decl.2 = t := by simpa [Env.apply, hyx] using hy
      exact htyp.trans ht
    · rw [if_neg hyx]
      simpa [Env.apply, hyx] using hy
  have hnode : r = ([.inode (.id decl.1) (tyInit decl.2) leaf (leaf.depth + 1)], []) ∨
      r = ([], [.inode (.id decl.1) (tyInit decl.2) leaf (leaf.depth + 1)]) := by
    simp only [seDecl] at hr
    split at hr
    · exact Or.inl hr.symm
    · exact Or.inr hr.symm
  refine outcome_assignment htracked hv htyped ?_ ?_ hnode
  · rw [hsym]
    exact htracked.made
  · intro inputs _ σ hσ
    rw [heval, hσ.used, hsym]
    rfl

theorem seDeclsLoop_cut {maxdepth : Int} : ∀ {decls : List (String × Typ)}
    {done leaves : List SetNode} {vars vars' : SymVars} {r : DoneLeaves} {n : SetNode},
    seDeclsLoop maxdepth decls done leaves vars = some (r, vars') →
    survivors rho (done, leaves) = ([n], []) → survivors rho r = ([n], []) := by
  intro decls
  induction decls with
  | nil =>
      intro done leaves vars vars' r n h hn
      rwa [← (seDeclsLoop_nil_eq_some h).1]
  | cons decl decls ih =>
      intro done leaves vars vars' r n h hn
      obtain ⟨d, l, vars1, h1, hrest⟩ := seDeclsLoop_cons_eq_some h
      exact ih hrest (survivors_of_cut (seDecl_descends maxdepth decl) hn h1)

theorem seDeclsLoop_outcome (rho : Valuation) (maxdepth : Int) : ∀ (decls : List (String × Typ))
    {env : Env} {done leaves : List SetNode} {vars vars' : SymVars} {r : DoneLeaves}
    {leaf : SetNode},
      seDeclsLoop maxdepth decls done leaves vars = some (r, vars') → rho.Respects vars' →
      survivors rho (done, leaves) = ([], [leaf]) → Tracked rho env vars leaf →
      Outcome rho (decls.foldl (fun env dec => dec :: env) env) vars'
        (fun inputs => execDecls inputs decls) leaf r := by
  intro decls
  induction decls with
  | nil =>
      intro env done leaves vars vars' r leaf h hrho hleaf htracked
      obtain ⟨rfl, rfl⟩ := seDeclsLoop_nil_eq_some h
      exact .refl htracked hleaf
  | cons decl decls ih =>
      intro env done leaves vars vars' r leaf h hrho hleaf htracked
      obtain ⟨d, l, vars1, h1, hrest⟩ := seDeclsLoop_cons_eq_some h
      have hfilter : leaves.filter (·.holds rho) = [leaf] := congrArg Prod.snd hleaf
      have hfirst : Outcome rho (decl :: env) vars1
          (fun inputs => execAssignment inputs decl.1 (tyInit decl.2)) leaf (d, l) :=
        seAllLoop_outcome (seDecl_descends maxdepth decl)
          (seDecl_simulates rho env maxdepth decl) h1
          (hrho.mono (seDeclsLoop_vars hrest)) hfilter htracked
      have hround : survivors rho (d ++ done, l) = survivors rho (d, l) := survivors_of_live hleaf
      refine hfirst.andThen (fun n hn hn' => ?_) (fun n hn => ?_) (fun inputs => ?_)
      · exact ih hrest hrho (hround.trans hn) hn'
      · exact seDeclsLoop_cut hrest (hround.trans hn)
      · exact execDecls_total inputs decls (decl :: env)

/-! ### Programs -/

theorem seProg_outcome {p : Program} (hp : typecheckProg p = .ok ())
    (hlogic : p.logicalBoolean = true)
    {maxdepth : Int} (h : seProg p maxdepth vars = some (r, vars')) (hrho : rho.Respects vars') :
    Outcome rho (typecheckDeclarations p.decls) vars'
      (fun inputs σ =>
      (execDecls inputs p.decls σ).bind (execStmt inputs p.statement)) .entryNode r := by
  obtain ⟨ds, ls, vars1, hdecls, ds', ls', vars2, hstmt, rfl, rfl⟩ := seProg_eq_some h
  have hdesc := seStmt_descends maxdepth p.statement
  have hentry : Tracked rho [] vars .entryNode := by
    refine ⟨rfl, fun x t hx => ?_, fun s hs => ?_⟩
    · simp [Env.apply] at hx
    · simp [SetNode.symvars] at hs
  have hrho1 : rho.Respects vars1 := hrho.mono (seAllLoop_descends hdesc hstmt).2
  have hfirst : Outcome rho (typecheckDeclarations p.decls) vars1
      (fun inputs => execDecls inputs p.decls) .entryNode (ds, ls) :=
    seDeclsLoop_outcome rho maxdepth p.decls hdecls hrho1 rfl hentry
  refine hfirst.andThen (fun n hn htracked => ?_) (fun n hn => ?_) (fun inputs => ?_)
  · have hdone : ds.filter (·.holds rho) = [] := congrArg Prod.fst hn
    have hleaves : ls.filter (·.holds rho) = [n] := congrArg Prod.snd hn
    have hout :=
      seAllLoop_outcome hdesc (seStmt_simulates rho maxdepth hp hlogic) hstmt hrho hleaves
      htracked
    exact hout.mono (List.prefix_refl _) (by simp [survivors, hdone])
  · have hdone : ds.filter (·.holds rho) = [n] := congrArg Prod.fst hn
    have hleaves : ls.filter (·.holds rho) = [] := congrArg Prod.snd hn
    have hdead : survivors rho (ds', ls') = ([], []) := seAllLoop_dead hdesc hstmt hleaves
    have h1 : ds'.filter (·.holds rho) = [] := congrArg Prod.fst hdead
    have h2 : ls'.filter (·.holds rho) = [] := congrArg Prod.snd hdead
    simp [survivors, hdone, h1, h2]
  · exact execStmt_total inputs hp hlogic

/-- Every declared variable is in the environment of the declarations. -/
theorem apply_typecheckDeclarations {decls : List (String × Typ)} {x : String} {t : Typ}
    (h : (x, t) ∈ decls) : ∃ t', (typecheckDeclarations decls).apply x = .ok t' := by
  have hfold : ∀ (l : List (String × Typ)) (env : Env),
      (x, t) ∈ l ∨ (∃ t', env.apply x = .ok t') →
      ∃ t', Env.apply x (l.foldl (fun env dec => dec :: env) env) = .ok t' := by
    intro l
    induction l with
    | nil => exact fun env h => h.resolve_left (by simp)
    | cons dec l ih =>
        intro env h
        refine ih (dec :: env) ?_
        by_cases hx : x = dec.1
        · exact Or.inr ⟨dec.2, by simp [Env.apply, hx]⟩
        · rcases h with h | ⟨t', ht'⟩
          · rcases List.mem_cons.mp h with heq | h
            · exact absurd (congrArg Prod.fst heq) hx
            · exact Or.inl h
          · exact Or.inr ⟨t', by simpa [Env.apply, hx] using ht'⟩
  exact hfold decls [] (Or.inl h)

/-- Under every valuation of the symbolic variables there is exactly one node of the tree
whose conditions hold, and the concrete run whose inputs are the values of its symbolic
variables makes the assignments of the node. At a leaf the run makes no others, and the
leaf has the final values of the variables. -/
theorem seProg_exact {p : Program} (hp : typecheckProg p = .ok ())
    (hlogic : p.logicalBoolean = true) (maxdepth : Int) (vars : SymVars) :
    ∃ done leaves vars', seProg p maxdepth vars = some ((done, leaves), vars') ∧
      ∀ rho : Valuation, rho.Respects vars' →
        ∃ n, (done ++ leaves).filter (·.holds rho) = [n] ∧
          ∀ inputs : Inputs, inputs.Follows rho n.symvars →
            ∃ σ, execProg inputs p = some σ ∧ n.assignments rho <+: σ.assignments ∧
              (n ∈ leaves → n.assignments rho = σ.assignments ∧
                ∀ x t, (x, t) ∈ p.decls → ∃ e v, n.getVarValue (.id x) = some e ∧
                  evalSym rho e = some v ∧ σ.store x = some v) := by
  have ⟨⟨⟨done, leaves⟩, vars'⟩, h⟩ := seProg_total hp maxdepth vars
  refine ⟨done, leaves, vars', h, fun rho hrho => ?_⟩
  have hinitial : Matches rho .entryNode State.initial := ⟨rfl, rfl, rfl⟩
  cases seProg_outcome hp hlogic h hrho with
  | live n survives symvars tracked runs =>
      have hdone : done.filter (·.holds rho) = [] := congrArg Prod.fst survives
      have hleaves : leaves.filter (·.holds rho) = [n] := congrArg Prod.snd survives
      refine ⟨n, by rw [List.filter_append, hdone, hleaves]; rfl, fun inputs hinputs => ?_⟩
      have ⟨σ, hrun, hσ⟩ := runs inputs hinputs State.initial hinitial
      refine ⟨σ, hrun, hσ.assignments ▸ List.prefix_refl _, fun _ => ⟨hσ.assignments.symm, ?_⟩⟩
      intro x t hx
      have ⟨t', ht'⟩ := apply_typecheckDeclarations hx
      have ⟨v, hv, _⟩ := tracked.typed x t' ht'
      have ⟨e, he, hev⟩ := Option.bind_eq_some_iff.mp hv
      exact ⟨e, v, he, hev, by rw [hσ.store, hv]⟩
  | cut n survives symvars runs =>
      have hdone : done.filter (·.holds rho) = [n] := congrArg Prod.fst survives
      have hleaves : leaves.filter (·.holds rho) = [] := congrArg Prod.snd survives
      refine ⟨n, by rw [List.filter_append, hdone, hleaves]; rfl, fun inputs hinputs => ?_⟩
      have ⟨σ, hrun, _, hassign⟩ := runs inputs hinputs State.initial hinitial
      have hholds : n.holds rho = true :=
        (List.mem_filter.mp (hdone ▸ List.mem_singleton_self n)).2
      refine ⟨σ, hrun, hassign, fun hmem => ?_⟩
      exact absurd hholds (List.filter_eq_nil_iff.mp hleaves n hmem)

/-- The program of `examples/5.txt`. -/
def example5 : Program where
  decls := [("x", .integer), ("y", .boolean)]
  statement := .block [
    .assignment "x" (.input .integer),
    .ifStmt (.id "y")
      (.block [.assignment "x" (.add (.id "x") (.intConst 1))])
      (.block [
        .assignment "x" (.sub (.id "x") (.intConst 1)),
        .assignment "x" (.sub (.id "x") (.intConst 10))]),
    .assignment "x" (.add (.id "x") (.intConst 20))]

theorem seProg_exact_example5 :
    ∃ done leaves vars', seProg example5 7 [] = some ((done, leaves), vars') ∧
      ∀ rho : Valuation, rho.Respects vars' →
        ∃ n, (done ++ leaves).filter (·.holds rho) = [n] ∧
          ∀ inputs : Inputs, inputs.Follows rho n.symvars →
            ∃ σ, execProg inputs example5 = some σ ∧ n.assignments rho <+: σ.assignments ∧
              (n ∈ leaves → n.assignments rho = σ.assignments ∧
                ∀ x t, (x, t) ∈ example5.decls → ∃ e v, n.getVarValue (.id x) = some e ∧
                  evalSym rho e = some v ∧ σ.store x = some v) :=
  seProg_exact (by decide) (by decide) 7 []

end Stabl.SimSee
