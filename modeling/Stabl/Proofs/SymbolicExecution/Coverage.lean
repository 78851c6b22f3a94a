import Stabl.Proofs.Frontend.Scoping
import Stabl.Proofs.SymbolicExecution.Blocks

/-!
# `Stabl.Proofs.SymbolicExecution.Coverage`: the engine finds every run of a block

`executeBlock_covers` is the converse of `executeBlock_refines`: a run of a block leads to a live
node. It needs more. An `if` comes last in its list, for the engine goes on from one leaf only.
The limit on the depth is far, and the solver finds what is satisfiable together with the path.
All evaluations give values, as in the reference semantics `BigStep`, and what the block reads is
assigned before it.

The values of the symbols are chosen along the run. Every input of the block has to have a symbol
of its own on its path (`Statement.freshAfter`), so the choice changes nothing before it.
-/

set_option autoImplicit false

namespace Stabl

open Result

/-! ### Formulas of what has a value -/

section
variable {ρ : Valuation}

/-- Where the names of an expression have their values in the store as symbolic values, its
formula has the value of the expression. -/
theorem symEvalWith_value {value : DeclarationRef → SymExpr} {store : Store} :
    ∀ (e : Expression Name) {v : Option Constant},
      (∀ x ∈ e.names, (value x.declaration).value ρ = .ok (store x.declaration)) →
        operandValue store e = .ok v → (symEvalWith value e).value ρ = .ok v := by
  intro e
  induction e using Expression.operandInduction with
  | name n =>
      intro v hnames h
      exact (hnames n (List.mem_singleton.mpr rfl)).trans h
  | constant c => exact fun _ h => h
  | functionCall f args =>
      intro v _ h
      cases h
  | binaryExpression left right operator ihl ihr =>
      intro v hnames h
      obtain ⟨lhs, hl, h⟩ := bind_eq_ok.mp h
      obtain ⟨rhs, hr, h⟩ := bind_eq_ok.mp h
      have hleft := ihl (fun x hx => hnames x (List.mem_append_left _ hx)) hl
      have hright := ihr (fun x hx => hnames x (List.mem_append_right _ hx)) hr
      rw [symEvalWith, SymExpr.value, hleft, hright]
      exact h

theorem symEvalUpdateWith_value {value : DeclarationRef → SymExpr} {store : Store}
    {var : DeclarationRef} {rhs : Expression Name} (hrhs : ∀ f args, rhs ≠ .functionCall f args)
    {v : Option Constant}
    (hnames : ∀ x ∈ rhs.names, (value x.declaration).value ρ = .ok (store x.declaration))
    (h : operandValue store rhs = .ok v) :
    (symEvalUpdateWith value (evaluateUpdate var rhs)).value ρ = .ok v := by
  have hvalue := symEvalWith_value rhs hnames h
  cases rhs with
  | functionCall f args => exact absurd rfl (hrhs f args)
  | name x | constant c | binaryExpression left right operator => exact hvalue

/-- Every update of the path has a value. -/
def SETNode.Computes (ρ : Valuation) : SETNode → Prop
  | .start => True
  | .instruction _ e p =>
    p.Computes ρ ∧ ∃ c, (symEvalUpdateWith p.valueOf e).value ρ = .ok (some c)
  | .decision _ p | .stateEntry _ p | .stateExit _ p | .note _ p => p.Computes ρ

/-- The variable is assigned on the path. -/
def SETNode.Assigned (n : SETNode) (d : DeclarationRef) : Prop := (n.backtrack d).isSome = true

/-- What is assigned on such a path has a value, and its formula has it. -/
theorem SETNode.Computes.valueOf {n : SETNode} (hn : n.Computes ρ) {d : DeclarationRef}
    (hd : n.Assigned d) : (n.valueOf d).value ρ = .ok (n.store ρ d) := by
  have hvalue : ∃ v, (n.valueOf d).value ρ = .ok v := by
    induction n with
    | start => cases hd
    | instruction var e p ih =>
        rw [SETNode.valueOf]
        by_cases hvar : var = d
        · obtain ⟨c, hc⟩ := hn.2
          exact ⟨some c, by rw [if_pos hvar, hc]⟩
        · rw [SETNode.Assigned, SETNode.backtrack, if_neg hvar] at hd
          rw [if_neg hvar]
          exact ih hn.1 hd
    | decision _ p ih | stateEntry _ p ih | stateExit _ p ih | note _ p ih => exact ih hn hd
  obtain ⟨v, hv⟩ := hvalue
  rw [hv, n.value_valueOf d v hv]

theorem SETNode.CodePath.assigned {n l : SETNode} (h : CodePath n l) {d : DeclarationRef}
    (hd : n.Assigned d) : l.Assigned d := by
  induction h with
  | refl => exact hd
  | @instruction p var e _ ih =>
      rw [SETNode.Assigned, SETNode.backtrack]
      split
      · rfl
      · exact ih
  | decision _ _ ih | assume _ _ _ ih => exact ih

theorem SETNode.CodePath.computes {n l : SETNode} (h : CodePath n l) (hl : l.Computes ρ) :
    n.Computes ρ := by
  induction h with
  | refl => exact hl
  | instruction _ _ _ ih => exact ih hl.1
  | decision _ _ ih | assume _ _ _ ih => exact ih hl

/-- The question about a branch holds where the condition has the value of the branch. -/
theorem SETNode.Computes.holds {n : SETNode} (hn : n.Computes ρ) {condition : Expression Name}
    (hnames : ∀ x ∈ condition.names, n.Assigned x.declaration) {b : Bool}
    (h : expressionValue (n.store ρ) condition = some (.booleanConstant b)) :
    ((if b then Question.condition condition else .elseCondition condition).expression n).Holds
      ρ := by
  have hoperand : operandValue (n.store ρ) condition = .ok (some (.booleanConstant b)) := by
    unfold expressionValue at h
    split at h
    · rename_i hok
      rw [hok, h]
    · cases h
  have hvalue := symEvalWith_value condition (fun x hx => hn.valueOf (hnames x hx)) hoperand
  cases b with
  | true => exact hvalue
  | false =>
      show (SymExpr.not (symEvalWith n.valueOf condition)).value ρ = _
      rw [SymExpr.value, hvalue]
      rfl

end

/-! ### Ifs that come last -/

namespace Statement

mutual

/-- The statement has one path: it is made of assignments. -/
def straight : Statement Name → Bool
  | .assignmentStatement _ _ => true
  | .ifStatement _ _ _ | .whileStatement _ _ | .haltStatement | .expressionStatement _
  | .skipStatement => false
  | .statementList statements => straightList statements

def straightList : List (Statement Name) → Bool
  | [] => true
  | s :: ss => s.straight && straightList ss

end

mutual

/-- The statement is made of assignments and ifs, and no statement comes after an if. -/
def forksLast : Statement Name → Bool
  | .assignmentStatement _ _ => true
  | .ifStatement _ thenBody elseBody => thenBody.forksLast && elseBody.forksLast
  | .whileStatement _ _ | .haltStatement | .expressionStatement _ | .skipStatement => false
  | .statementList statements => forksLastList statements

def forksLastList : List (Statement Name) → Bool
  | [] => true
  | s :: ss => (s.straight || (s.forksLast && ss.isEmpty)) && forksLastList ss

end

end Statement

section
variable {ρ : Valuation} {maxDepth : Int} {solver : Solver}

mutual

/-- A straight statement has one live node, when the limit is far. -/
theorem live_of_straight : ∀ (s : Statement Name) {n l : SETNode}, s.straight = true →
    pathEnd ρ s n = some l → (n.depth + s.assignments : Int) ≤ maxDepth →
      (executeStatementSym maxDepth solver s [n]).live = [l] ∧
        l.depth = n.depth + s.assignments
  | .assignmentStatement lhs rhs, n, l, _, hl, hdepth => by
      obtain rfl := Option.some.inj hl
      have hfar : ¬ (n.depth + 1 : Int) > maxDepth := by
        simp only [Statement.assignments] at hdepth
        omega
      refine ⟨?_, rfl⟩
      simp only [executeStatementSym, lastResult, List.foldl_cons, List.foldl_nil,
        executeAssignment, if_neg hfar]
  | .statementList statements, n, l, hs, hl, hdepth =>
      live_of_straightList statements [] hs hl hdepth
  | .ifStatement _ _ _, _, _, hs, _, _ | .whileStatement _ _, _, _, hs, _, _
  | .haltStatement, _, _, hs, _, _ | .expressionStatement _, _, _, hs, _, _
  | .skipStatement, _, _, hs, _, _ => by cases hs

theorem live_of_straightList : ∀ (ss : List (Statement Name)) (done : List SETNode)
    {n l : SETNode}, Statement.straightList ss = true → pathEndList ρ ss n = some l →
      (n.depth + Statement.assignmentsList ss : Int) ≤ maxDepth →
        (executeStatementsSym maxDepth solver ss done [n]).live = [l] ∧
          l.depth = n.depth + Statement.assignmentsList ss
  | [], done, n, l, _, hl, _ => by
      obtain rfl := Option.some.inj hl
      exact ⟨rfl, rfl⟩
  | s :: ss, done, n, l, hss, hl, hdepth => by
      rw [Statement.straightList, Bool.and_eq_true] at hss
      obtain ⟨m, hm, hrest⟩ := Option.bind_eq_some_iff.mp hl
      simp only [Statement.assignmentsList] at hdepth
      obtain ⟨hlive, hlength⟩ := live_of_straight s hss.1 hm (by omega)
      have hrestLive := live_of_straightList ss
        (done ++ (executeStatementSym maxDepth solver s [n]).done) hss.2 hrest
        (by rw [hlength]; omega)
      refine ⟨?_, by rw [hrestLive.2, hlength, Statement.assignmentsList, Nat.add_assoc]⟩
      rw [executeStatementsSym, hlive]
      exact hrestLive.1

end

/-- The solver finds what holds together with the path under `ρ`. -/
def Finds (solver : Solver) (ρ : Valuation) : Prop :=
  ∀ leaf q, leaf.Follows ρ → (q.expression leaf).Holds ρ → solver leaf q = .sat

/-- A live node of the branch that the run takes is a live node of the if. -/
theorem mem_executeIf_of_branch {condition : Expression Name}
    {thenBody elseBody : SETNode → SymbolicExecutionResult} {n l : SETNode} {b : Bool}
    (hsat : solver n (if b then .condition condition else .elseCondition condition) = .sat)
    (hl : l ∈ ((if b then thenBody else elseBody) (branchNode condition b n)).live) :
    l ∈ (executeIf solver condition thenBody elseBody n).live := by
  rw [live_executeIf, List.mem_append]
  cases b with
  | true =>
      refine Or.inl ?_
      rw [executeBranch, if_pos (by simpa using hsat)]
      exact hl
  | false =>
      refine Or.inr ?_
      rw [executeBranch, if_pos (by simpa using hsat)]
      exact hl

mutual

/-- The end of the path of a run is live. -/
theorem live_of_pathEnd (hsolver : Finds solver ρ) : ∀ (s : Statement Name) {n l : SETNode},
    s.forksLast = true → pathEnd ρ s n = some l → (n.depth + s.assignments : Int) ≤ maxDepth →
      n.Follows ρ → l.Computes ρ → (∀ x ∈ s.rvalues, n.Assigned x.declaration) →
        l ∈ (executeStatementSym maxDepth solver s [n]).live
  | .assignmentStatement lhs rhs, n, l, _, hl, hdepth, _, _, _ => by
      rw [(live_of_straight (.assignmentStatement lhs rhs) rfl hl hdepth).1]
      exact List.mem_singleton.mpr rfl
  | .ifStatement condition thenBody elseBody, n, l, hs, hl, hdepth, hn, hcomputes, hnames => by
      simp only [Statement.forksLast, Bool.and_eq_true] at hs
      simp only [Statement.assignments] at hdepth
      simp only [Statement.rvalues, List.mem_append] at hnames
      obtain ⟨b, hvalue, hbody⟩ := exists_of_pathEnd_ifStatement hl
      have hpath := (SETNode.codePath_branchNode condition b n).trans (pathEnd_codePath _ hbody)
      have hcondition : ∀ x ∈ condition.names, n.Assigned x.declaration := fun x hx =>
        hnames x (Or.inl (Or.inl hx))
      have hsat := hsolver n _ hn ((hpath.computes hcomputes).holds hcondition hvalue)
      have hbranch : (branchNode condition b n).Follows ρ := ⟨hn, hvalue⟩
      simp only [executeStatementSym, lastResult, List.foldl_cons, List.foldl_nil]
      refine mem_executeIf_of_branch hsat ?_
      cases b with
      | true =>
          have hdepth' : ((branchNode condition true n).depth + thenBody.assignments : Int) ≤
            maxDepth := by
            show (n.depth + thenBody.assignments : Int) ≤ maxDepth
            omega
          exact live_of_pathEnd hsolver thenBody hs.1 hbody hdepth' hbranch hcomputes
            fun x hx => hnames x (Or.inl (Or.inr hx))
      | false =>
          have hdepth' : ((branchNode condition false n).depth + elseBody.assignments : Int) ≤
            maxDepth := by
            show (n.depth + elseBody.assignments : Int) ≤ maxDepth
            omega
          exact live_of_pathEnd hsolver elseBody hs.2 hbody hdepth' hbranch hcomputes
            fun x hx => hnames x (Or.inr hx)
  | .statementList statements, n, l, hs, hl, hdepth, hn, hcomputes, hnames =>
      live_of_pathEndList hsolver statements hs hl hdepth hn hcomputes hnames
  | .whileStatement _ _, _, _, hs, _, _, _, _, _ | .haltStatement, _, _, hs, _, _, _, _, _
  | .expressionStatement _, _, _, hs, _, _, _, _, _ | .skipStatement, _, _, hs, _, _, _, _, _ => by
      cases hs

theorem live_of_pathEndList (hsolver : Finds solver ρ) : ∀ (ss : List (Statement Name))
    {done : List SETNode} {n l : SETNode}, Statement.forksLastList ss = true →
      pathEndList ρ ss n = some l → (n.depth + Statement.assignmentsList ss : Int) ≤ maxDepth →
        n.Follows ρ → l.Computes ρ → (∀ x ∈ Statement.rvaluesOfList ss, n.Assigned x.declaration) →
          l ∈ (executeStatementsSym maxDepth solver ss done [n]).live
  | [], done, n, l, _, hl, _, _, _, _ => by
      obtain rfl := Option.some.inj hl
      exact List.mem_singleton.mpr rfl
  | s :: ss, done, n, l, hss, hl, hdepth, hn, hcomputes, hnames => by
      simp only [Statement.forksLastList, Bool.and_eq_true, Bool.or_eq_true,
        List.isEmpty_iff] at hss
      simp only [Statement.assignmentsList] at hdepth
      simp only [Statement.rvaluesOfList, List.mem_append] at hnames
      obtain ⟨m, hm, hrest⟩ := Option.bind_eq_some_iff.mp hl
      rw [executeStatementsSym]
      rcases hss with ⟨hstraight | ⟨hforks, rfl⟩, hforksLast⟩
      · -- One live node goes on.
        have hone : (executeStatementSym maxDepth solver s [n]).live = [m] ∧
            m.depth = n.depth + s.assignments := live_of_straight s hstraight hm (by omega)
        rw [hone.1]
        refine live_of_pathEndList hsolver ss hforksLast hrest (by rw [hone.2]; omega)
          (pathEnd_follows s hm hn) hcomputes fun x hx => ?_
        exact (pathEnd_codePath s hm).assigned (hnames x (Or.inr hx))
      · obtain rfl := Option.some.inj hrest
        exact live_of_pathEnd hsolver s hforks hm (by omega) hn hcomputes
          fun x hx => hnames x (Or.inl hx)

end

end

/-! ### Values of the symbols on a path -/

section
variable {ρ ρ' : Valuation}

/-- The store of a path depends on the values of its own symbols only. -/
theorem SETNode.store_congr {n : SETNode} (h : ∀ i ∈ n.inputs, ρ i.2 = ρ' i.2) :
    n.store ρ = n.store ρ' := by
  induction n with
  | start => rfl
  | instruction var e p ih =>
      cases e with
      | symVars v =>
          have hp := ih fun i hi => h i (List.mem_append_left _ hi)
          have hv : ρ v = ρ' v := h (var, v) (List.mem_append_right _ (List.mem_singleton.mpr rfl))
          rw [SETNode.store, SETNode.store, hp, SymbolicExpression.value, SymbolicExpression.value,
            hv]
      | operands left right operator =>
          rw [SETNode.store, SETNode.store, ih h]
          rfl
      | expression e =>
          rw [SETNode.store, SETNode.store, ih h]
          rfl
  | decision _ p ih | stateEntry _ p ih | stateExit _ p ih | note _ p ih => exact ih h

theorem SETNode.follows_congr {n : SETNode} (h : ∀ i ∈ n.inputs, ρ i.2 = ρ' i.2)
    (hn : n.Follows ρ) : n.Follows ρ' := by
  induction n with
  | start => trivial
  | instruction var e p ih =>
      exact ih (fun i hi => h i ((CodePath.instruction var e .refl).inputs_isPrefix.subset hi)) hn
  | decision _ p ih | stateEntry _ p ih | stateExit _ p ih => exact ih h hn
  | note k p ih =>
      cases k with
      | assume condition value => exact ⟨ih h hn.1, p.store_congr h ▸ hn.2⟩
      | transition _ _ | action _ _ => exact ih h hn

theorem symEvalWith_congr {value : DeclarationRef → SymExpr}
    (h : ∀ d, (value d).value ρ = (value d).value ρ') (e : Expression Name) :
    (symEvalWith value e).value ρ = (symEvalWith value e).value ρ' := by
  induction e using Expression.operandInduction with
  | name n => exact h n.declaration
  | constant c => rfl
  | functionCall f args => rfl
  | binaryExpression left right operator ihl ihr =>
      rw [symEvalWith, SymExpr.value, SymExpr.value, ihl, ihr]

theorem SETNode.valueOf_congr {n : SETNode} (h : ∀ i ∈ n.inputs, ρ i.2 = ρ' i.2)
    (d : DeclarationRef) : (n.valueOf d).value ρ = (n.valueOf d).value ρ' := by
  induction n generalizing d with
  | start => rfl
  | instruction var e p ih =>
      have hp : ∀ i ∈ p.inputs, ρ i.2 = ρ' i.2 := fun i hi =>
        h i ((SETNode.CodePath.instruction var e .refl).inputs_isPrefix.subset hi)
      rw [SETNode.valueOf]
      split
      · cases e with
        | symVars v =>
            have hv : ρ v = ρ' v :=
              h (var, v) (List.mem_append_right _ (List.mem_singleton.mpr rfl))
            show Except.ok (some (ρ v)) = Except.ok (some (ρ' v))
            rw [hv]
        | operands left right operator =>
            exact symEvalWith_congr (ih hp) (.binaryExpression left right operator)
        | expression e => exact symEvalWith_congr (ih hp) e
      · exact ih hp d
  | decision _ p ih | stateEntry _ p ih | stateExit _ p ih | note _ p ih => exact ih h d

theorem SETNode.Computes.congr {n : SETNode} (h : ∀ i ∈ n.inputs, ρ i.2 = ρ' i.2)
    (hn : n.Computes ρ) : n.Computes ρ' := by
  induction n with
  | start => trivial
  | instruction var e p ih =>
      have hp : ∀ i ∈ p.inputs, ρ i.2 = ρ' i.2 := fun i hi =>
        h i ((SETNode.CodePath.instruction var e .refl).inputs_isPrefix.subset hi)
      -- The formula of the update is the value of its variable below it.
      have hvalue := SETNode.valueOf_congr (n := .instruction var e p) h var
      rw [SETNode.valueOf, if_pos rfl] at hvalue
      obtain ⟨c, hc⟩ := hn.2
      exact ⟨ih hp hn.1, c, hvalue.symm.trans hc⟩
  | decision _ p ih | stateEntry _ p ih | stateExit _ p ih | note _ p ih => exact ih h hn

mutual

theorem pathEnd_congr : ∀ (s : Statement Name) {n l : SETNode}, pathEnd ρ s n = some l →
    (∀ i ∈ l.inputs, ρ i.2 = ρ' i.2) → pathEnd ρ' s n = some l
  | .assignmentStatement lhs rhs, n, l, h, _ => h
  | .ifStatement condition thenBody elseBody, n, l, h, hl => by
      obtain ⟨b, hvalue, hbody⟩ := exists_of_pathEnd_ifStatement h
      have hpath := (SETNode.codePath_branchNode condition b n).trans (pathEnd_codePath _ hbody)
      rw [SETNode.store_congr fun i hi => hl i (hpath.inputs_isPrefix.subset hi)] at hvalue
      rw [pathEnd_ifStatement hvalue]
      cases b with
      | true => exact pathEnd_congr thenBody hbody hl
      | false => exact pathEnd_congr elseBody hbody hl
  | .statementList statements, n, l, h, hl => pathEndList_congr statements h hl
  | .whileStatement _ _, _, _, h, _ | .haltStatement, _, _, h, _
  | .expressionStatement _, _, _, h, _ | .skipStatement, _, _, h, _ => by cases h

theorem pathEndList_congr : ∀ (ss : List (Statement Name)) {n l : SETNode},
    pathEndList ρ ss n = some l → (∀ i ∈ l.inputs, ρ i.2 = ρ' i.2) → pathEndList ρ' ss n = some l
  | [], n, l, h, _ => h
  | s :: ss, n, l, h, hl => by
      obtain ⟨m, hs, hss⟩ := Option.bind_eq_some_iff.mp h
      have hm := (pathEndList_codePath ss hss).inputs_isPrefix
      rw [pathEndList, pathEnd_congr s hs fun i hi => hl i (hm.subset hi)]
      exact pathEndList_congr ss hss hl

end

end

/-! ### Fresh inputs -/

/-- The symbol that an assignment to `var` makes. -/
def Expression.symbols (var : DeclarationRef) : Expression Name → List String
  | .functionCall _ _ => [var.vname ++ "_1"]
  | _ => []

namespace Statement

mutual

/-- The symbols that the assignments of a statement make. -/
def symbols : Statement Name → List String
  | .assignmentStatement lhs rhs => rhs.symbols lhs.declaration
  | .ifStatement _ thenBody elseBody => thenBody.symbols ++ elseBody.symbols
  | .statementList statements => symbolsList statements
  | .whileStatement _ _ | .haltStatement | .expressionStatement _ | .skipStatement => []

def symbolsList : List (Statement Name) → List String
  | [] => []
  | s :: ss => s.symbols ++ symbolsList ss

end

mutual

/-- Every input has a symbol that is not used before it. -/
def freshAfter (used : List String) : Statement Name → Bool
  | .assignmentStatement lhs rhs => (rhs.symbols lhs.declaration).all fun x => x ∉ used
  | .ifStatement _ thenBody elseBody => thenBody.freshAfter used && elseBody.freshAfter used
  | .statementList statements => freshAfterList used statements
  | .whileStatement _ _ | .haltStatement | .expressionStatement _ | .skipStatement => true

def freshAfterList (used : List String) : List (Statement Name) → Bool
  | [] => true
  | s :: ss => s.freshAfter used && freshAfterList (used ++ s.symbols) ss

end

mutual

theorem forksLast_of_straight : ∀ s : Statement Name, s.straight = true → s.forksLast = true
  | .assignmentStatement _ _, _ => rfl
  | .statementList statements, h => forksLastList_of_straightList statements h
  | .ifStatement _ _ _, h | .whileStatement _ _, h | .haltStatement, h | .expressionStatement _, h
  | .skipStatement, h => by cases h

theorem forksLastList_of_straightList : ∀ ss : List (Statement Name), straightList ss = true →
    forksLastList ss = true
  | [], _ => rfl
  | s :: ss, h => by
      rw [straightList, Bool.and_eq_true] at h
      rw [forksLastList, h.1, forksLastList_of_straightList ss h.2]
      rfl

end

end Statement

/-- The simulator is at the end of the path, every update of the path has a value, and the
symbols of the path are among the used ones. -/
structure Known (stdin : List (Option Int32)) (used : List String) (ν : String → Int32)
    (n : SETNode) (w : World) : Prop where
  replays : Replays ν stdin n w
  computes : n.Computes (.integers ν)
  symbols : ∀ i ∈ n.inputs, i.2 ∈ used

section
variable {stdin : List (Option Int32)} {used : List String} {ν ν' : String → Int32} {n : SETNode}
  {w : World}

/-- Other values for symbols that are not used make no difference. -/
theorem Known.congr (h : Known stdin used ν n w) (hagrees : ∀ x ∈ used, ν' x = ν x) :
    Known stdin used ν' n w := by
  have hinputs : ∀ i ∈ n.inputs, Valuation.integers ν i.2 = Valuation.integers ν' i.2 := by
    intro i hi
    rw [Valuation.integers, Valuation.integers, hagrees i.2 (h.symbols i hi)]
  have htyped : n.typed ν = n.typed ν' :=
    List.map_congr_left fun i hi => by rw [hagrees i.2 (h.symbols i hi)]
  exact ⟨⟨h.replays.store.trans (SETNode.store_congr hinputs), htyped ▸ h.replays.typed⟩,
    h.computes.congr hinputs, h.symbols⟩

theorem Known.store_eq (h : Known stdin used ν n w) (hagrees : ∀ x ∈ used, ν' x = ν x) :
    n.store (.integers ν) = n.store (.integers ν') :=
  h.replays.store.symm.trans (h.congr hagrees).replays.store

theorem Known.mono {used' : List String} (h : Known stdin used ν n w) (hused : used ⊆ used') :
    Known stdin used' ν n w := ⟨h.replays, h.computes, fun i hi => hused (h.symbols i hi)⟩

/-- An input is read as the value of its symbol. -/
theorem Known.ask (h : Known stdin used ν n w) {lhs : Name} {f : FunctionName}
    {args : List (Expression Name)} (hf : f.name = "input") {x : Constant} {w₁ : World}
    (hfresh : lhs.declaration.vname ++ "_1" ∉ used)
    (heval : evaluate (.functionCall f args) w = (some x, w₁)) :
    ∃ ν', (∀ x ∈ used, ν' x = ν x) ∧ Known stdin (used ++ [lhs.declaration.vname ++ "_1"]) ν'
      (.instruction lhs.declaration (.symVars (lhs.declaration.vname ++ "_1")) n)
      (w₁.setValue lhs.declaration (some x)) := by
  obtain ⟨k, rest, hstdin, rfl, rfl⟩ : ∃ k rest, w.stdin = some k :: rest ∧
      x = .integerConstant k ∧ w₁ = { w with stdin := rest } := by
    rw [evaluate, evaluateFunction, if_pos hf] at heval
    split at heval
    · rename_i k rest hstdin
      obtain ⟨hx, hw⟩ := Prod.mk.inj heval
      exact ⟨k, rest, hstdin, (Option.some.inj hx).symm, hw.symm⟩
    · cases heval
    · cases heval
  have hagrees : ∀ x ∈ used, Function.update ν (lhs.declaration.vname ++ "_1") k x = ν x := by
    intro x hx
    rw [Function.update_of_ne]
    rintro rfl
    exact hfresh hx
  have hn := h.congr hagrees
  refine ⟨_, hagrees, ?_, ⟨hn.computes, _, rfl⟩, ?_⟩
  · have hask := hn.replays.ask lhs args hf (by
      refine ⟨rest, ?_⟩
      rw [hn.replays.typed, hstdin]
      simp [SETNode.typed, SETNode.inputs])
    rwa [executeAssignmentStatement, heval] at hask
  · intro i hi
    rcases List.mem_append.mp hi with hi | hi
    · exact List.mem_append_left _ (h.symbols i hi)
    · rw [List.mem_singleton.mp hi]
      exact List.mem_append_right _ (List.mem_singleton.mpr rfl)

/-- An assignment of a value. -/
theorem Known.assign (h : Known stdin used ν n w) (lhs : Name) {rhs : Expression Name}
    (hrhs : ∀ f args, rhs ≠ .functionCall f args)
    (hnames : ∀ x ∈ rhs.names, n.Assigned x.declaration)
    {x : Constant} {w₁ : World} (heval : evaluate rhs w = (some x, w₁)) :
    Known stdin used ν
      (.instruction lhs.declaration (evaluateUpdate lhs.declaration rhs) n)
      (w₁.setValue lhs.declaration (some x)) := by
  have hoperand : operandValue (n.store (.integers ν)) rhs = .ok (some x) := by
    rw [← h.replays.store]
    exact (evaluate_fst w hrhs x).mp (by rw [heval])
  refine ⟨?_, ⟨h.computes, x, ?_⟩, ?_⟩
  · have hassign := h.replays.assign lhs hrhs
    rwa [executeAssignmentStatement, heval] at hassign
  · exact symEvalUpdateWith_value hrhs (fun y hy => h.computes.valueOf (hnames y hy)) hoperand
  · rw [inputs_evaluateUpdate hrhs]
    exact h.symbols

/-- A condition with a boolean value is no call, and has the value on the path. -/
theorem Known.condition (h : Known stdin used ν n w) {condition : Expression Name} {b : Bool}
    {w₁ : World} (hname : condition.isName = false)
    (heval : evaluate condition w = (some (.booleanConstant b), w₁)) :
    expressionValue (n.store (.integers ν)) condition = some (.booleanConstant b) ∧
      Known stdin used ν (branchNode condition b n) w₁ := by
  have hcall : ∀ f args, condition ≠ .functionCall f args := by
    rintro f args rfl
    rw [evaluate, evaluateFunction] at heval
    split at heval
    · split at heval <;> cases heval
    · cases heval
  have hvalue : expressionValue (n.store (.integers ν)) condition = some (.booleanConstant b) := by
    rw [← h.replays.store, ← (evaluate_eq_expressionValue hcall w).1, heval]
  have hbranch := (h.replays.condition hname hvalue).2
  rw [heval] at hbranch
  exact ⟨hvalue, hbranch, h.computes, h.symbols⟩

end

/-! ### From a run to its path -/

section
variable {stdin : List (Option Int32)}

mutual

/-- A run of the reference semantics goes along a path, for some values of its symbols. -/
theorem pathEnd_of_bigStep : ∀ (s : Statement Name) {used : List String} {ν : String → Int32}
    {n : SETNode} {w w' : World}, s.explorable = true → s.forksLast = true →
      s.freshAfter used = true → (∀ x ∈ s.rvalues, n.Assigned x.declaration) →
        Known stdin used ν n w → BigStep NotName s w w' → ∃ ν' l, (∀ x ∈ used, ν' x = ν x) ∧
          pathEnd (.integers ν') s n = some l ∧ Known stdin (used ++ s.symbols) ν' l w'
  | .assignmentStatement lhs rhs, used, ν, n, w, w', hs, _, hfresh, hnames, hn, hrun => by
      cases hrun with
      | @assignment _ _ _ w₁ x heval =>
          cases rhs with
          | functionCall f args =>
              have hf : f.name = "input" := by
                simpa [Statement.explorable, Expression.asksOnly] using hs
              have hfresh : lhs.declaration.vname ++ "_1" ∉ used := by
                simpa [Statement.freshAfter, Expression.symbols] using hfresh
              obtain ⟨ν', hagrees, hknown⟩ := hn.ask hf hfresh heval
              exact ⟨ν', _, hagrees, rfl, hknown⟩
          | name _ | constant _ | binaryExpression _ _ _ =>
              have hknown := hn.assign lhs (fun f args hcall => by cases hcall) hnames heval
              exact ⟨ν, _, fun _ _ => rfl, rfl, hknown.mono (List.subset_append_left _ _)⟩
  | .ifStatement condition thenBody elseBody, used, ν, n, w, w', hs, hforks, hfresh, hnames, hn,
      hrun => by
      simp only [Statement.explorable, Bool.and_eq_true, Bool.not_eq_true'] at hs
      simp only [Statement.forksLast, Bool.and_eq_true] at hforks
      simp only [Statement.freshAfter, Bool.and_eq_true] at hfresh
      simp only [Statement.rvalues, List.mem_append] at hnames
      cases hrun with
      | ifTrue _ heval hthen =>
          obtain ⟨hvalue, hbranch⟩ := hn.condition hs.1.1 heval
          obtain ⟨ν', l, hagrees, hend, hl⟩ := pathEnd_of_bigStep thenBody
            (n := branchNode condition true n) hs.1.2 hforks.1 hfresh.1
            (fun x hx => hnames x (Or.inl (Or.inr hx))) hbranch hthen
          rw [hn.store_eq hagrees] at hvalue
          refine ⟨ν', l, hagrees, (pathEnd_ifStatement hvalue).trans hend, hl.mono ?_⟩
          rw [Statement.symbols, ← List.append_assoc]
          exact List.subset_append_left _ _
      | ifFalse _ heval helse =>
          obtain ⟨hvalue, hbranch⟩ := hn.condition hs.1.1 heval
          obtain ⟨ν', l, hagrees, hend, hl⟩ := pathEnd_of_bigStep elseBody
            (n := branchNode condition false n) hs.2 hforks.2 hfresh.2
            (fun x hx => hnames x (Or.inr hx)) hbranch helse
          rw [hn.store_eq hagrees] at hvalue
          refine ⟨ν', l, hagrees, (pathEnd_ifStatement hvalue).trans hend, hl.mono ?_⟩
          rw [Statement.symbols]
          exact List.append_subset.mpr ⟨List.subset_append_left _ _,
            fun x hx => List.mem_append_right _ (List.mem_append_right _ hx)⟩
  | .statementList statements, used, ν, n, w, w', hs, hforks, hfresh, hnames, hn, hrun =>
      pathEndList_of_bigStep statements hs hforks hfresh hnames hn hrun
  | .whileStatement _ _, _, _, _, _, _, hs, _, _, _, _, _ => by cases hs
  | .haltStatement, _, _, _, _, _, _, hforks, _, _, _, _
  | .expressionStatement _, _, _, _, _, _, _, hforks, _, _, _, _
  | .skipStatement, _, _, _, _, _, _, hforks, _, _, _, _ => by cases hforks

theorem pathEndList_of_bigStep : ∀ (ss : List (Statement Name)) {used : List String}
    {ν : String → Int32} {n : SETNode} {w w' : World}, Statement.explorableList ss = true →
      Statement.forksLastList ss = true → Statement.freshAfterList used ss = true →
        (∀ x ∈ Statement.rvaluesOfList ss, n.Assigned x.declaration) → Known stdin used ν n w →
          BigStep NotName (.statementList ss) w w' → ∃ ν' l, (∀ x ∈ used, ν' x = ν x) ∧
            pathEndList (.integers ν') ss n = some l ∧
              Known stdin (used ++ Statement.symbolsList ss) ν' l w'
  | [], used, ν, n, w, w', _, _, _, _, hn, hrun => by
      cases hrun with
      | nil => exact ⟨ν, n, fun _ _ => rfl, rfl, hn.mono (List.subset_append_left _ _)⟩
  | s :: ss, used, ν, n, w, w', hss, hforks, hfresh, hnames, hn, hrun => by
      simp only [Statement.explorableList, Bool.and_eq_true] at hss
      simp only [Statement.forksLastList, Bool.and_eq_true, Bool.or_eq_true] at hforks
      simp only [Statement.freshAfterList, Bool.and_eq_true] at hfresh
      simp only [Statement.rvaluesOfList, List.mem_append] at hnames
      have hfirst : s.forksLast = true :=
        hforks.1.elim (Statement.forksLast_of_straight s) fun h => h.1
      cases hrun with
      | cons hst hsts =>
          obtain ⟨ν₁, m, hagrees₁, hend₁, hm⟩ := pathEnd_of_bigStep s hss.1 hfirst hfresh.1
            (fun x hx => hnames x (Or.inl hx)) hn hst
          obtain ⟨ν', l, hagrees', hend', hl⟩ := pathEndList_of_bigStep ss hss.2 hforks.2
            hfresh.2 (fun x hx => (pathEnd_codePath s hend₁).assigned (hnames x (Or.inr hx))) hm
            hsts
          refine ⟨ν', l, ?_, ?_, ?_⟩
          · intro x hx
            rw [hagrees' x (List.mem_append_left _ hx), hagrees₁ x hx]
          · -- The later choices change nothing on the path of the first statement.
            have hfirst' : pathEnd (.integers ν') s n = some m := pathEnd_congr s hend₁ (by
              intro i hi
              rw [Valuation.integers, Valuation.integers, hagrees' i.2 (hm.symbols i hi)])
            rw [pathEndList, hfirst']
            exact hend'
          · rwa [Statement.symbolsList, ← List.append_assoc]

end

/-- Take a block of assignments and ifs in which every `if` comes last in its list, no condition
is a bare name, and every call is an `input` with a symbol of its own. Where the path of a leaf is
followed and all its updates have values, every run of the block from there with the reference
semantics ends at a live node of the engine: the path of the node is followed for values of its
symbols that agree on the old ones, and it has the variables and the input of the run. The limit
on the depth has to be far, and the solver has to find what is satisfiable with the path. -/
theorem executeBlock_covers {maxDepth : Int} {solver : Solver}
    (hsolver : ∀ ν : String → Int32, Finds solver (.integers ν)) {block : Statement Name}
    (hblock : block.explorable = true) (hforks : block.forksLast = true) {n : SETNode}
    (hfresh : block.freshAfter (n.inputs.map Prod.snd) = true)
    (hnames : ∀ x ∈ block.rvalues, n.Assigned x.declaration)
    (hdepth : (n.depth + block.assignments : Int) ≤ maxDepth) {ν : String → Int32}
    (hfollows : n.Follows (.integers ν)) (hcomputes : n.Computes (.integers ν)) {w w' : World}
    (hw : Replays ν stdin n w) (hrun : BigStep NotName block w w') :
    ∃ ν', (∀ i ∈ n.inputs, ν' i.2 = ν i.2) ∧
      ∃ l ∈ (executeBlock maxDepth solver block n).live,
        l.Follows (.integers ν') ∧ Replays ν' stdin l w' := by
  have hn : Known stdin (n.inputs.map Prod.snd) ν n w :=
    ⟨hw, hcomputes, fun i hi => List.mem_map.mpr ⟨i, hi, rfl⟩⟩
  obtain ⟨ν', l, hagrees, hend, hl⟩ :=
    pathEnd_of_bigStep block hblock hforks hfresh hnames hn hrun
  have hold : ∀ i ∈ n.inputs, ν' i.2 = ν i.2 := fun i hi =>
    hagrees i.2 (List.mem_map.mpr ⟨i, hi, rfl⟩)
  have hn' : n.Follows (.integers ν') := SETNode.follows_congr (fun i hi => by
    rw [Valuation.integers, Valuation.integers, hold i hi]) hfollows
  refine ⟨ν', hold, l, ?_, pathEnd_follows block hend hn', hl.replays⟩
  rw [executeBlock_eq]
  exact live_of_pathEnd (hsolver ν') block hforks hend hdepth hn' hl.computes hnames

end

/-- The run of the lock leads to a live node. -/
theorem executeBlock_covers_unlock : ∃ w', BigStep NotName unlock lockedWorld w' ∧
    ∃ ν', ∃ l ∈ (executeBlock 20 alwaysSat unlock locked).live,
      l.Follows (.integers ν') ∧ Replays ν' [some 1] l w' := by
  have hrun : BigStep NotName unlock lockedWorld _ :=
    .cons (.assignment rfl) (.cons (.ifTrue (fun _ h => by cases h) rfl (.assignment rfl)) .nil)
  have hsolver : ∀ ν : String → Int32, Finds alwaysSat (.integers ν) := fun _ _ _ _ _ => rfl
  have hnames : ∀ x ∈ unlock.rvalues, locked.Assigned x.declaration := by
    intro x hx
    rw [List.mem_singleton.mp hx]
    rfl
  have hdepth : (locked.depth + unlock.assignments : Int) ≤ 20 := by decide
  obtain ⟨ν', _, hcovers⟩ := executeBlock_covers hsolver rfl rfl rfl hnames hdepth
    trivial ⟨trivial, _, rfl⟩ locked_replays hrun
  exact ⟨_, hrun, ν', hcovers⟩

end Stabl
