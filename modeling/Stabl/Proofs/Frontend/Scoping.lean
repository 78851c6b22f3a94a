import Stabl.Proofs.Frontend.TypeIdentity

/-!
# `Stabl.Proofs.Frontend.Scoping`: the variables that code may name

A name is bound in one of two ways. An unqualified one is looked up in the environment that
the typechecker was handed, so it is bound to a variable of it. A name that begins with the
statechart's name is followed down the tree instead, and the environment is not consulted
(`typecheckName_scope`). So the code of a transition keeps to the environments of the
transition exactly as far as its fully qualified names do (`scoped_iff`).
-/

set_option autoImplicit false

namespace Stabl

open Result

/-! ### The names in code -/

section
variable {ν : Type}

mutual

/-- The names in an expression. -/
def Expression.names : Expression ν → List ν
  | .name n => [n]
  | .constant _ => []
  | .binaryExpression left right _ => left.names ++ right.names
  | .functionCall _ argumentList => Expression.namesOfList argumentList

/-- The names in a list of expressions. -/
def Expression.namesOfList : List (Expression ν) → List ν
  | [] => []
  | e :: es => e.names ++ Expression.namesOfList es

end

mutual

/-- The names that a statement uses as r-values. -/
def Statement.rvalues : Statement ν → List ν
  | .statementList statements => Statement.rvaluesOfList statements
  | .assignmentStatement _ rhs => rhs.names
  | .ifStatement condition thenBody elseBody =>
    condition.names ++ thenBody.rvalues ++ elseBody.rvalues
  | .whileStatement condition body => condition.names ++ body.rvalues
  | .expressionStatement expression => expression.names
  | .haltStatement => []
  | .skipStatement => []

/-- The names that a list of statements uses as r-values. -/
def Statement.rvaluesOfList : List (Statement ν) → List ν
  | [] => []
  | st :: sts => st.rvalues ++ Statement.rvaluesOfList sts

end

mutual

/-- The names on the left of the assignments in a statement. -/
def Statement.lvalues : Statement ν → List ν
  | .statementList statements => Statement.lvaluesOfList statements
  | .assignmentStatement lhs _ => [lhs]
  | .ifStatement _ thenBody elseBody => thenBody.lvalues ++ elseBody.lvalues
  | .whileStatement _ body => body.lvalues
  | .expressionStatement _ => []
  | .haltStatement => []
  | .skipStatement => []

/-- The names on the left of the assignments in a list of statements. -/
def Statement.lvaluesOfList : List (Statement ν) → List ν
  | [] => []
  | st :: sts => st.lvalues ++ Statement.lvaluesOfList sts

end

/-! ### Fully qualified names -/

/-- Follows names down the tree as long as they are substates: the state that is reached, and
the names that are left. -/
def State.follow (p : StateRef) (s : State ν) : Path → StateRef × Path
  | [] => (p, [])
  | next :: rest =>
    match s.findSubstateByName next with
    | some i =>
      match s.states[i]? with
      | some st => st.follow (i :: p) rest
      | none => (p, next :: rest)
    | none => (p, next :: rest)

/-- The variable that a fully qualified name spells. Its first name is the statechart's. -/
def qualifiedVariable (root : State ν) (name : Path) : DeclarationRef :=
  ⟨(root.follow [] name.tail).1, (root.follow [] name.tail).2.headD ""⟩

end

/-- `getDeclarationInState` finds the variable that the name spells. -/
theorem getDeclarationInState_eq_some {root : State Path} (rest : Path) :
    ∀ {p : StateRef} {s : State Path}
    {first : String} {r : DeclarationRef} {d : Declaration} {left : Path}, root.stateAt p = some s →
    Declared.getDeclarationInState p s (first :: rest) = some ((r, d), left) →
      r = ⟨(s.follow p rest).1, (s.follow p rest).2.headD ""⟩ ∧
        d ∈ root.declarationsAt r.state ∧ d.vname = r.vname := by
  induction rest with
  | nil =>
      intro p s first r d left _ h
      simp [Declared.getDeclarationInState] at h
  | cons next rest ih =>
      intro p s first r d left hs h
      rw [Declared.getDeclarationInState] at h
      rw [State.follow]
      cases hfind : s.findSubstateByName next with
      | some i =>
          simp only [hfind] at h ⊢
          cases hchild : s.states[i]? with
          | some st =>
              simp only [hchild] at h ⊢
              refine ih ?_ h
              rw [State.stateAt_cons, hs]
              exact hchild
          | none => simp [hchild] at h
      | none =>
          simp only [hfind] at h ⊢
          have ⟨d', hd', heq⟩ := Option.map_eq_some_iff.mp h
          simp only [Prod.mk.injEq] at heq
          obtain ⟨⟨rfl, rfl⟩, rfl⟩ := heq
          have hname : d'.vname = next := by simpa using List.find?_some hd'
          refine ⟨by rw [hname]; rfl, ?_, rfl⟩
          show d' ∈ root.declarationsAt p
          rw [State.declarationsAt, hs]
          exact List.mem_of_find?_eq_some hd'

namespace Declared

variable {sc : Declared}

/-- A bound name: an unqualified one is a variable of the environment, and a fully qualified
one is the variable that it spells. -/
theorem typecheckName_scope {name : Path} {env : Environment} {n : Name} {type : Ty}
    (h : sc.typecheckName name env = .ok (n, type)) : n.name = name ∧
      (name.head? ≠ some sc.root.name → n.declaration ∈ env.declarations) ∧
      (name.head? = some sc.root.name → n.declaration = qualifiedVariable sc.root name ∧
        ∃ d ∈ sc.root.declarationsAt n.declaration.state, d.vname = n.declaration.vname) := by
  cases name with
  | nil => simp [typecheckName] at h
  | cons first rest =>
      rw [typecheckName, if_neg (by simp)] at h
      split at h
      · cases h
      · rename_i r d left hlocate
        obtain ⟨decType, _, h⟩ := bind_eq_ok.mp h
        obtain ⟨type', _, h⟩ := bind_eq_ok.mp h
        rw [pure_eq_ok, Prod.mk.injEq] at h
        obtain ⟨rfl, rfl⟩ := h
        refine ⟨rfl, fun hne => ?_, fun heq => ?_⟩
        · have hne : ¬ first = sc.root.name := by simpa using hne
          rw [locateName, if_neg hne] at hlocate
          obtain ⟨dec, hdec, heq⟩ := Option.map_eq_some_iff.mp hlocate
          simp only [Prod.mk.injEq] at heq
          rw [heq.1] at hdec
          exact Environment.lookup_mem_declarations hdec
        · have heq : first = sc.root.name := by simpa using heq
          rw [locateName, if_pos heq] at hlocate
          obtain ⟨hr, hd, hname⟩ := getDeclarationInState_eq_some rest rfl hlocate
          exact ⟨hr, d, hd, hname⟩

mutual

/-- Every name of a checked expression has been bound in the environment. -/
theorem typecheckExpression_names {env : Environment} : ∀ (e : Expression Path)
    {e' : Expression Name} {type : Ty}, sc.typecheckExpression env e = .ok (e', type) →
    ∀ n ∈ e'.names, ∃ name type, sc.typecheckName name env = .ok (n, type)
  | .name name, e', type, h => by
      rw [typecheckExpression] at h
      have ⟨⟨n', type'⟩, hname, h⟩ := bind_eq_ok.mp h
      rw [pure_eq_ok, Prod.mk.injEq] at h
      obtain ⟨rfl, rfl⟩ := h
      intro n hn
      rw [List.mem_singleton.mp hn]
      exact ⟨name, type', hname⟩
  | .constant c, e', type, h => by
      rw [typecheckExpression] at h
      have ⟨type', _, h⟩ := bind_eq_ok.mp h
      rw [pure_eq_ok, Prod.mk.injEq] at h
      obtain ⟨rfl, rfl⟩ := h
      exact fun n hn => nomatch hn
  | .binaryExpression left right operator, e', type, h => by
      rw [typecheckExpression] at h
      have ⟨⟨left', _⟩, hleft, h⟩ := bind_eq_ok.mp h
      have ⟨⟨right', _⟩, hright, h⟩ := bind_eq_ok.mp h
      have ⟨_, _, h⟩ := bind_eq_ok.mp h
      rw [pure_eq_ok, Prod.mk.injEq] at h
      obtain ⟨rfl, rfl⟩ := h
      intro n hn
      rcases List.mem_append.mp hn with hn | hn
      · exact typecheckExpression_names left hleft n hn
      · exact typecheckExpression_names right hright n hn
  | .functionCall f args, e', type, h => by
      rw [typecheckExpression] at h
      have ⟨⟨fdec, typeArguments⟩, _, h⟩ := bind_eq_ok.mp h
      have ⟨_, _, h⟩ := bind_eq_ok.mp h
      have ⟨⟨params, _⟩, _, h⟩ := bind_eq_ok.mp h
      have ⟨args', hargs, h⟩ := bind_eq_ok.mp h
      rw [pure_eq_ok, Prod.mk.injEq] at h
      obtain ⟨rfl, rfl⟩ := h
      exact typecheckArguments_names args hargs

theorem typecheckArguments_names {env : Environment} {typeArguments : List Ty} :
    ∀ (args : List (Expression Path)) {params : List Ty} {args' : List (Expression Name)},
    sc.typecheckArguments env typeArguments params args = .ok args' →
    ∀ n ∈ Expression.namesOfList args', ∃ name type, sc.typecheckName name env = .ok (n, type)
  | [], params, args', h => by
      have hnil : [] = args' := by simpa [typecheckArguments] using h
      subst hnil
      exact fun n hn => nomatch hn
  | arg :: args, [], args', h => by
      have hnil : [] = args' := by simpa [typecheckArguments] using h
      subst hnil
      exact fun n hn => nomatch hn
  | arg :: args, param :: params, args', h => by
      rw [typecheckArguments] at h
      have ⟨⟨arg', _⟩, harg, h⟩ := bind_eq_ok.mp h
      have ⟨_, _, h⟩ := bind_eq_ok.mp h
      have ⟨_, _, h⟩ := bind_eq_ok.mp h
      have ⟨rest, hrest, h⟩ := bind_eq_ok.mp h
      rw [pure_eq_ok] at h
      subst h
      intro n hn
      rcases List.mem_append.mp hn with hn | hn
      · exact typecheckExpression_names arg harg n hn
      · exact typecheckArguments_names args hrest n hn

end

mutual

/-- Every name of a checked statement has been bound, the names on the left of assignments in
the write environment and the others in the read environment. -/
theorem typecheckStatement_names {renv wenv : Environment} : ∀ (st : Statement Path)
    {st' : Statement Name}, sc.typecheckStatement renv wenv st = .ok st' →
    (∀ n ∈ st'.rvalues, ∃ name type, sc.typecheckName name renv = .ok (n, type)) ∧
      ∀ n ∈ st'.lvalues, ∃ name type, sc.typecheckName name wenv = .ok (n, type)
  | .statementList sts, st', h => by
      rw [typecheckStatement] at h
      have ⟨sts', hsts, h⟩ := bind_eq_ok.mp h
      rw [pure_eq_ok] at h
      subst h
      exact typecheckStatementList_names sts hsts
  | .assignmentStatement lhs rhs, st', h => by
      rw [typecheckStatement] at h
      have ⟨⟨lhs', lhsType⟩, hlhs, h⟩ := bind_eq_ok.mp h
      have ⟨⟨rhs', _⟩, hrhs, h⟩ := bind_eq_ok.mp h
      have ⟨_, _, h⟩ := bind_eq_ok.mp h
      rw [pure_eq_ok] at h
      subst h
      refine ⟨typecheckExpression_names rhs hrhs, fun n hn => ?_⟩
      rw [List.mem_singleton.mp hn]
      exact ⟨lhs, lhsType, hlhs⟩
  | .ifStatement condition thenBody elseBody, st', h => by
      rw [typecheckStatement] at h
      have ⟨⟨condition', _⟩, hcondition, h⟩ := bind_eq_ok.mp h
      have ⟨thenBody', hthen, h⟩ := bind_eq_ok.mp h
      have ⟨elseBody', helse, h⟩ := bind_eq_ok.mp h
      have ⟨_, _, h⟩ := bind_eq_ok.mp h
      rw [pure_eq_ok] at h
      subst h
      have hthen := typecheckStatement_names thenBody hthen
      have helse := typecheckStatement_names elseBody helse
      refine ⟨fun n hn => ?_, fun n hn => ?_⟩
      · rcases List.mem_append.mp hn with hn | hn
        · rcases List.mem_append.mp hn with hn | hn
          · exact typecheckExpression_names condition hcondition n hn
          · exact hthen.1 n hn
        · exact helse.1 n hn
      · rcases List.mem_append.mp hn with hn | hn
        · exact hthen.2 n hn
        · exact helse.2 n hn
  | .whileStatement condition body, st', h => by
      rw [typecheckStatement] at h
      have ⟨⟨condition', _⟩, hcondition, h⟩ := bind_eq_ok.mp h
      have ⟨body', hbody, h⟩ := bind_eq_ok.mp h
      have ⟨_, _, h⟩ := bind_eq_ok.mp h
      rw [pure_eq_ok] at h
      subst h
      have hbody := typecheckStatement_names body hbody
      refine ⟨fun n hn => ?_, hbody.2⟩
      rcases List.mem_append.mp hn with hn | hn
      · exact typecheckExpression_names condition hcondition n hn
      · exact hbody.1 n hn
  | .expressionStatement expression, st', h => by
      rw [typecheckStatement] at h
      have ⟨⟨expression', _⟩, hexpression, h⟩ := bind_eq_ok.mp h
      rw [pure_eq_ok] at h
      subst h
      exact ⟨typecheckExpression_names expression hexpression, fun n hn => nomatch hn⟩
  | .haltStatement, st', h => by cases h
  | .skipStatement, st', h => by cases h

theorem typecheckStatementList_names {renv wenv : Environment} : ∀ (sts : List (Statement Path))
    {sts' : List (Statement Name)}, sc.typecheckStatementList renv wenv sts = .ok sts' →
    (∀ n ∈ Statement.rvaluesOfList sts', ∃ name type, sc.typecheckName name renv = .ok (n, type)) ∧
      ∀ n ∈ Statement.lvaluesOfList sts', ∃ name type, sc.typecheckName name wenv = .ok (n, type)
  | [], sts', h => by
      rw [typecheckStatementList, pure_eq_ok] at h
      subst h
      exact ⟨fun n hn => (nomatch hn), fun n hn => (nomatch hn)⟩
  | st :: sts, sts', h => by
      rw [typecheckStatementList] at h
      have ⟨st', hst, h⟩ := bind_eq_ok.mp h
      have ⟨rest, hrest, h⟩ := bind_eq_ok.mp h
      rw [pure_eq_ok] at h
      subst h
      have hst := typecheckStatement_names st hst
      have hrest := typecheckStatementList_names sts hrest
      refine ⟨fun n hn => ?_, fun n hn => ?_⟩
      · rcases List.mem_append.mp hn with hn | hn
        · exact hst.1 n hn
        · exact hrest.1 n hn
      · rcases List.mem_append.mp hn with hn | hn
        · exact hst.2 n hn
        · exact hrest.2 n hn

end

end Declared

/-! ### The environments of a transition -/

section
variable {ν : Type} {root : State ν}

/-- The transition may read the variables of its source and of the states above it. -/
theorem mem_getReadEnvironment {t : PlacedTransition ν} {v : DeclarationRef} :
    v ∈ (t.getReadEnvironment root).declarations ↔ v.state <:+ t.transition.source ∧
      ∃ d ∈ root.declarationsAt v.state, d.vname = v.vname := by
  constructor
  · exact mem_getEnvironment
  · rintro ⟨hstate, d, hd, hname⟩
    have hmem := mem_getEnvironment_of_suffix root hstate hd
    rwa [hname] at hmem

/-- The transition may write the parameters of its destination, and the variables of the
states above the destination. -/
theorem mem_getWriteEnvironment {t : PlacedTransition ν}
    (hlub : lub t.transition.source t.transition.destination = some t.state) {v : DeclarationRef} :
    v ∈ (t.getWriteEnvironment root).declarations ↔
      (v.state <:+ t.transition.destination ∧ v.state ≠ t.transition.destination ∧
        ∃ d ∈ root.declarationsAt v.state, d.vname = v.vname) ∨
      (v.state = t.transition.destination ∧
        ∃ d ∈ root.declarationsAt v.state, d.vname = v.vname ∧ d.scope = .parameterScope) := by
  obtain ⟨hsuffix, hproper⟩ := (lub_proper hlub).2
  -- The destination is below the state of the transition.
  obtain ⟨i, p, hdest, hp⟩ : ∃ i p, t.transition.destination = i :: p ∧ t.state <:+ p := by
    cases hd : t.transition.destination with
    | nil =>
        rw [hd] at hsuffix hproper
        exact absurd (List.suffix_nil.mp hsuffix) hproper
    | cons i p =>
        rw [hd] at hsuffix hproper
        exact ⟨i, p, rfl, TreeAddress.suffix_iff_cons.mpr ⟨hsuffix, hproper⟩⟩
  have habove : ∀ q : StateRef, q <:+ p ↔ q <:+ i :: p ∧ q ≠ i :: p :=
    fun _ => TreeAddress.suffix_iff_cons
  rw [PlacedTransition.getWriteEnvironment, declarations_copyInclusive, List.mem_append,
    PlacedTransition.getWriteOnlyEnvironment, hdest, getEnvironment, List.tail_cons]
  constructor
  · rintro (hv | hv)
    · obtain ⟨f, hf, d, hd, heq⟩ :=
        Environment.mem_declarations.mp (declarations_copyExclusive _ _ hv)
      subst heq
      rcases List.mem_cons.mp hf with rfl | hf
      · rw [PlacedTransition.destinationParameters, hdest, List.mem_filter, decide_eq_true_eq] at hd
        exact Or.inr ⟨rfl, d, hd.1, rfl, hd.2⟩
      · obtain ⟨hstate, hdecl⟩ :=
          mem_getEnvironment (Environment.mem_declarations.mpr ⟨f, hf, d, hd, rfl⟩)
        exact Or.inl ⟨((habove _).mp hstate).1, ((habove _).mp hstate).2, hdecl⟩
    · obtain ⟨hstate, hdecl⟩ := mem_getEnvironment hv
      have hq := (habove _).mp (hstate.trans hp)
      exact Or.inl ⟨hq.1, hq.2, hdecl⟩
  · rintro (⟨hstate, hne, d, hd, hname⟩ | ⟨hstate, d, hd, hname, hscope⟩)
    · have hq : v.state <:+ p := (habove _).mpr ⟨hstate, hne⟩
      by_cases hl : v.state <:+ t.state
      · have hmem := mem_getEnvironment_of_suffix root hl hd
        rw [hname] at hmem
        exact Or.inr hmem
      · have hmem := mem_copyExclusive root hp hq hl
          ⟨none, i :: p, t.destinationParameters root⟩ hd
        rw [hname] at hmem
        exact Or.inl hmem
    · -- The frame of the parameters is copied in any case.
      have hparameter : d ∈ t.destinationParameters root := by
        rw [PlacedTransition.destinationParameters, List.mem_filter, decide_eq_true_eq, hdest,
          ← hstate]
        exact ⟨hd, hscope⟩
      refine Or.inl (Environment.mem_declarations.mpr ?_)
      rw [Environment.copyExclusive]
      split
      · exact ⟨_, List.mem_singleton.mpr rfl, d, hparameter, by rw [hname, ← hstate]⟩
      · exact ⟨_, List.mem_cons_self, d, hparameter, by rw [hname, ← hstate]⟩

end

/-! ### The scoping discipline -/

/-- The code of the transition reads variables of its read environment only, and writes
variables of its write environment only. -/
structure TransitionScoped (root : State Name) (t : PlacedTransition Name) : Prop where
  rvalues : ∀ n ∈ t.transition.guard.names ++ t.transition.action.rvalues,
    n.declaration ∈ (t.getReadEnvironment root).declarations
  lvalues : ∀ n ∈ t.transition.action.lvalues,
    n.declaration ∈ (t.getWriteEnvironment root).declarations

/-- The names in the entry and the exit code of a state. -/
def State.codeNames {ν : Type} (s : State ν) : List ν :=
  (s.entry.rvalues ++ s.entry.lvalues) ++ (s.exit.rvalues ++ s.exit.lvalues)

/-- The entry and the exit code of the state at `p` use variables of it and of its ancestors
only. -/
def StateScoped (root : State Name) (p : StateRef) (s : State Name) : Prop :=
  ∀ n ∈ s.codeNames, n.declaration.state <:+ p ∧
    ∃ d ∈ root.declarationsAt n.declaration.state, d.vname = n.declaration.vname

section
variable (chart : State Path)

/-- The name is fully qualified. -/
def Qualified (n : Name) : Prop := n.name.head? = some chart.name

/-- The fully qualified names in the code of the transition spell, as r-values, variables of
the source or above it; on the left of assignments, variables above the destination or
parameters of it. -/
structure QualifiedNamesScoped (t : Transition Name) : Prop where
  rvalues : ∀ n ∈ t.guard.names ++ t.action.rvalues, Qualified chart n →
    (qualifiedVariable chart n.name).state <:+ t.source
  lvalues : ∀ n ∈ t.action.lvalues, Qualified chart n →
    ((qualifiedVariable chart n.name).state <:+ t.destination ∧
      (qualifiedVariable chart n.name).state ≠ t.destination) ∨
    ((qualifiedVariable chart n.name).state = t.destination ∧
      ∃ d ∈ chart.declarationsAt t.destination, d.vname = (qualifiedVariable chart n.name).vname ∧
        d.scope = .parameterScope)

end

/-- A name that was bound in an environment is a variable of it, if it is unqualified, and
otherwise exactly if the variable that it spells is one. -/
theorem Declared.mem_declarations_iff {d : Declared} {name : Path} {env : Environment} {n : Name}
    {type : Ty} (h : d.typecheckName name env = .ok (n, type)) : n.declaration ∈ env.declarations ↔
      (Qualified d.root n → qualifiedVariable d.root n.name ∈ env.declarations) := by
  have ⟨hname, hunqualified, hqualified⟩ := typecheckName_scope h
  unfold Qualified
  rw [hname]
  by_cases hq : name.head? = some d.root.name
  · rw [(hqualified hq).1]
    exact ⟨fun hmem _ => hmem, fun hmem => hmem hq⟩
  · exact ⟨fun _ h => absurd h hq, fun _ => hunqualified hq⟩

/-- The variable that a fully qualified name spells is declared where it says. -/
theorem Declared.qualifiedVariable_declared {d : Declared} {name : Path} {env : Environment}
    {n : Name}
    {type : Ty} (h : d.typecheckName name env = .ok (n, type)) (hq : Qualified d.root n) :
    ∃ dec ∈ d.root.declarationsAt (qualifiedVariable d.root n.name).state,
      dec.vname = (qualifiedVariable d.root n.name).vname := by
  have ⟨hname, _, hqualified⟩ := typecheckName_scope h
  unfold Qualified at hq
  rw [hname] at hq ⊢
  have ⟨heq, hdeclared⟩ := hqualified hq
  rwa [heq] at hdeclared

section
variable {sc : Statechart} {c : CheckedStatechart}

/-- A transition of an accepted statechart keeps to its environments when its fully
qualified names do. -/
theorem transitionScoped_iff (hc : typecheck sc = .ok c) {p : StateRef} {t : Transition Name}
    (ht : t ∈ c.root.transitionsAt p) :
    TransitionScoped c.root ⟨p, t⟩ ↔ QualifiedNamesScoped sc.root t := by
  have ⟨d, _, hroot, _, hcheck⟩ := typecheck_eq_ok hc
  have ⟨t₀, _, htcheck⟩ := Declared.transition_accepted hcheck ht
  have ht' := Declared.typecheckedTransition htcheck
  -- The environments are those that the code was checked in.
  have hread : PlacedTransition.getReadEnvironment c.root ⟨p, t⟩ =
      PlacedTransition.getReadEnvironment d.root ⟨p, t₀⟩ := by
    simp only [PlacedTransition.getReadEnvironment, Declared.getEnvironment_accepted hcheck,
      ht'.source]
  have hwrite : PlacedTransition.getWriteEnvironment c.root ⟨p, t⟩ =
      PlacedTransition.getWriteEnvironment d.root ⟨p, t₀⟩ := by
    simp only [PlacedTransition.getWriteEnvironment, PlacedTransition.getWriteOnlyEnvironment,
      PlacedTransition.destinationParameters, Declared.getEnvironment_accepted hcheck,
      Declared.declarationsAt_accepted hcheck, ht'.destination]
  have hrvalues : ∀ n ∈ t.guard.names ++ t.action.rvalues, ∃ name type,
      d.typecheckName name (PlacedTransition.getReadEnvironment c.root ⟨p, t⟩) = .ok (n, type) := by
    intro n hn
    rw [hread]
    have ⟨⟨guard, _⟩, hguard, hrest⟩ := bind_eq_ok.mp ht'.guard
    have ⟨_, _, hrest⟩ := bind_eq_ok.mp hrest
    have hguardEq : guard = t.guard := by simpa using hrest
    rcases List.mem_append.mp hn with hn | hn
    · exact Declared.typecheckExpression_names t₀.guard hguard n (hguardEq ▸ hn)
    · exact (Declared.typecheckStatement_names t₀.action ht'.action).1 n hn
  have hlvalues : ∀ n ∈ t.action.lvalues, ∃ name type,
      d.typecheckName name (PlacedTransition.getWriteEnvironment c.root ⟨p, t⟩) =
        .ok (n, type) := by
    intro n hn
    rw [hwrite]
    exact (Declared.typecheckStatement_names t₀.action ht'.action).2 n hn
  have hdeclarations := Declared.declarationsAt_accepted hcheck
  rw [← hroot]
  constructor
  · intro h
    refine ⟨fun n hn hq => ?_, fun n hn hq => ?_⟩
    · have ⟨name, type, hname⟩ := hrvalues n hn
      have hmem := (Declared.mem_declarations_iff hname).mp (h.rvalues n hn) hq
      exact (mem_getReadEnvironment.mp hmem).1
    · have ⟨name, type, hname⟩ := hlvalues n hn
      have hmem := (Declared.mem_declarations_iff hname).mp (h.lvalues n hn) hq
      rcases (mem_getWriteEnvironment ht'.lub).mp hmem with
        ⟨hstate, hne, _⟩ | ⟨hstate, dec, hdec, hparameter⟩
      · exact Or.inl ⟨hstate, hne⟩
      · rw [hstate, hdeclarations] at hdec
        exact Or.inr ⟨hstate, dec, hdec, hparameter⟩
  · intro h
    refine ⟨fun n hn => ?_, fun n hn => ?_⟩
    · have ⟨name, type, hname⟩ := hrvalues n hn
      refine (Declared.mem_declarations_iff hname).mpr fun hq =>
        mem_getReadEnvironment.mpr ⟨h.rvalues n hn hq, ?_⟩
      rw [hdeclarations]
      exact Declared.qualifiedVariable_declared hname hq
    · have ⟨name, type, hname⟩ := hlvalues n hn
      refine (Declared.mem_declarations_iff hname).mpr fun hq =>
        (mem_getWriteEnvironment ht'.lub).mpr ?_
      rw [hdeclarations]
      rcases h.lvalues n hn hq with ⟨hstate, hne⟩ | ⟨hstate, hparameter⟩
      · exact Or.inl ⟨hstate, hne, Declared.qualifiedVariable_declared hname hq⟩
      · exact Or.inr ⟨hstate, hstate ▸ hparameter⟩

/-- The code of a state of an accepted statechart keeps to the state and its ancestors when
its fully qualified names do. -/
theorem stateScoped_iff (hc : typecheck sc = .ok c) {p : StateRef} {s : State Name}
    (hs : c.root.stateAt p = some s) : StateScoped c.root p s ↔
      ∀ n ∈ s.codeNames, Qualified sc.root n → (qualifiedVariable sc.root n.name).state <:+ p := by
  have ⟨d, _, hroot, _, hcheck⟩ := typecheck_eq_ok hc
  have ⟨s₀, _, hstate⟩ := Declared.stateAt_accepted hcheck hs
  have hchecked := Declared.typecheckedState hstate
  have hbound : ∀ n ∈ s.codeNames, ∃ name type,
      d.typecheckName name (getEnvironment d.root p) = .ok (n, type) := by
    intro n hn
    have hentry := Declared.typecheckStatement_names s₀.entry hchecked.entry
    have hexit := Declared.typecheckStatement_names s₀.exit hchecked.exit
    rcases List.mem_append.mp hn with hn | hn
    · rcases List.mem_append.mp hn with hn | hn
      · exact hentry.1 n hn
      · exact hentry.2 n hn
    · rcases List.mem_append.mp hn with hn | hn
      · exact hexit.1 n hn
      · exact hexit.2 n hn
  have hscope : ∀ v : DeclarationRef, v ∈ (getEnvironment d.root p).declarations ↔
      v.state <:+ p ∧ ∃ dec ∈ d.root.declarationsAt v.state, dec.vname = v.vname := by
    intro v
    refine ⟨mem_getEnvironment, ?_⟩
    rintro ⟨hstate, dec, hdec, hname⟩
    have hmem := mem_getEnvironment_of_suffix d.root hstate hdec
    rwa [hname] at hmem
  unfold StateScoped
  rw [← hroot]
  simp only [Declared.declarationsAt_accepted hcheck]
  refine forall_congr' fun n => forall_congr' fun hn => ?_
  have ⟨name, type, hname⟩ := hbound n hn
  rw [← hscope, Declared.mem_declarations_iff hname]
  refine forall_congr' fun hq => ?_
  rw [hscope]
  exact and_iff_left (Declared.qualifiedVariable_declared hname hq)

/-- In an accepted statechart, the code of every transition and of every state keeps to the
variables that it may use exactly when its fully qualified names do. -/
theorem scoped_iff (hc : typecheck sc = .ok c) :
    (∀ p, ∀ t ∈ c.root.transitionsAt p,
      (TransitionScoped c.root ⟨p, t⟩ ↔ QualifiedNamesScoped sc.root t)) ∧
    ∀ p s, c.root.stateAt p = some s → (StateScoped c.root p s ↔
      ∀ n ∈ s.codeNames, Qualified sc.root n → (qualifiedVariable sc.root n.name).state <:+ p) :=
  ⟨fun _ _ ht => transitionScoped_iff hc ht, fun _ _ hs => stateScoped_iff hc hs⟩

end

/-! ### A statechart that peeks -/

/-- The guard of both transitions is `Peek.A.x = 0`. `A` is the source of `see`, and not of
`peep`. -/
def peek : Statechart where
  root := { plainState "Peek" with
    states := [
      { plainState "A" with declarations := ⟨[integerVariable "x" .localScope], by decide⟩ },
      plainState "B"]
    transitions := [
      { plainTransition "see" "Peek" "A" "B" 0 1 with
        guard :=
          .binaryExpression (.name ["Peek", "A", "x"]) (.constant (.integerConstant 0)) .eq },
      { plainTransition "peep" "Peek" "B" "A" 1 0 with
        guard :=
          .binaryExpression (.name ["Peek", "A", "x"]) (.constant (.integerConstant 0)) .eq }] }
  moreTypes := []
  events := ["turn"]
  functionDeclarations := []
  initialised := by decide

theorem peek_accepted : typecheck peek = .ok (accepted peek) :=
  eq_ok_getD (by decide) _

/-- The transition `see` keeps to its environments. -/
theorem scoped_iff_see : ∃ t ∈ (accepted peek).root.transitionsAt [], t.name = "see" ∧
    TransitionScoped (accepted peek).root ⟨[], t⟩ := by
  have ht : ((accepted peek).root.transitionsAt [])[0]? = some _ := rfl
  have hmem := List.mem_of_getElem? ht
  refine ⟨_, hmem, rfl, ((scoped_iff peek_accepted).1 [] _ hmem).mpr ⟨?_, ?_⟩⟩
  · unfold Qualified
    decide
  · unfold Qualified
    decide

/-- All code keeps to the variables that it may use. -/
def CodeIsScoped (sc : Statechart) : Prop :=
  ∀ c, typecheck sc = .ok c →
    (∀ p, ∀ t ∈ c.root.transitionsAt p, TransitionScoped c.root ⟨p, t⟩) ∧
      ∀ p s, c.root.stateAt p = some s → StateScoped c.root p s

/-- The guard of `peep` reads a variable of the destination. -/
theorem not_codeIsScoped_peek : (typecheck peek).isOk = true ∧ ¬ CodeIsScoped peek := by
  refine ⟨by decide, fun h => ?_⟩
  have ht : ((accepted peek).root.transitionsAt [])[1]? = some _ := rfl
  have hscoped := (h _ peek_accepted).1 [] _ (List.mem_of_getElem? ht)
  have hread : (⟨[0], "x"⟩ : DeclarationRef) ∈
      (PlacedTransition.getReadEnvironment (accepted peek).root ⟨[], _⟩).declarations :=
    hscoped.rvalues ⟨["Peek", "A", "x"], ⟨[0], "x"⟩⟩ (List.mem_of_getElem? (i := 0) rfl)
  revert hread
  decide

end Stabl
