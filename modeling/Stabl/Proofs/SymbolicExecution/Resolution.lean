import Stabl.SymbolicExecution.Replay

/-!
# `Stabl.Proofs.SymbolicExecution.Resolution`: `sym_eval` resolves names at the right node

A node keeps the right-hand side of its assignment unevaluated, and `sym_eval` resolves the
names in it at the parent of the node. The result is the value of the expression after the
assignments of the path, whatever the constants and the operators mean (`symEval_resolves`).
The induction is on the path: the symbolic values at the parent are those of the store before
the assignment, and the expression adds an induction of its own on top of that.
-/

set_option autoImplicit false

namespace Stabl

/-- A meaning of the constants and the operators. -/
structure Interpretation (V : Type) where
  constant : Constant → V
  apply : OperatorType → V → V → V
  negate : V → V

section
variable {V : Type} (I : Interpretation V)

/-! ### The store after a path -/

/-- The value of an expression. It has none when it reads a variable that is not in the store,
or calls a function. -/
def Expression.valueIn (store : DeclarationRef → Option V) : Expression Name → Option V
  | .name n => store n.declaration
  | .constant c => some (I.constant c)
  | .binaryExpression left right operator => do
    let lhs ← left.valueIn store
    let rhs ← right.valueIn store
    pure (I.apply operator lhs rhs)
  | .functionCall _ _ => none

variable (ρ : String → V)

/-- The value of an assignment. -/
def SymbolicExpression.valueIn (store : DeclarationRef → Option V) : SymbolicExpression → Option V
  | .operands left right operator =>
    (Expression.binaryExpression left right operator).valueIn I store
  | .expression e => e.valueIn I store
  | .symVars v => some (ρ v)

/-- The store that the assignments of the path make, from the root on. -/
def SETNode.storeIn : SETNode → DeclarationRef → Option V
  | .start => fun _ => none
  | .instruction var e p => Function.update p.storeIn var (e.valueIn I ρ p.storeIn)
  | .decision _ p | .stateEntry _ p | .stateExit _ p | .note _ p => p.storeIn

/-- The value of a result of `sym_eval`. -/
def SymExpr.valueIn : SymExpr → Option V
  | .null => none
  | .constant c => some (I.constant c)
  | .symVars v => some (ρ v)
  | .binaryExpression left right operator | .operands left right operator => do
    let lhs ← left.valueIn
    let rhs ← right.valueIn
    pure (I.apply operator lhs rhs)
  | .expression e => e.valueIn
  | .not e => e.valueIn.map I.negate

end

/-! ### Paths whose variables are assigned before they are read -/

/-- The expression is a tree of operators over constants and variables assigned on the path. -/
def Expression.Over (n : SETNode) : Expression Name → Prop
  | .name x => (n.backtrack x.declaration).isSome = true
  | .constant _ => True
  | .binaryExpression left right _ => left.Over n ∧ right.Over n
  | .functionCall _ _ => False

/-- A right-hand side: a function call, or such an expression. -/
def Expression.Assignable (n : SETNode) (rhs : Expression Name) : Prop :=
  (∃ f args, rhs = .functionCall f args) ∨ rhs.Over n

/-- Every `InstructionNode` of the path was made for a right-hand side that reads only variables
assigned before. -/
def SETNode.AssignedBeforeRead : SETNode → Prop
  | .start => True
  | .instruction var e p =>
    p.AssignedBeforeRead ∧ ∃ rhs, rhs.Assignable p ∧ e = evaluateUpdate var rhs
  | .decision _ p | .stateEntry _ p | .stateExit _ p | .note _ p => p.AssignedBeforeRead

section
variable {V : Type} {I : Interpretation V} {ρ : String → V}

/-- What an assignment leaves in the store: the value of its right-hand side, or, for a function
call, the value of the symbol of the variable. -/
theorem valueIn_evaluateUpdate (var : DeclarationRef) (rhs : Expression Name)
    (store : DeclarationRef → Option V) :
    (evaluateUpdate var rhs).valueIn I ρ store =
      match rhs with
      | .functionCall _ _ => some (ρ (var.vname ++ "_1"))
      | e => e.valueIn I store := by
  cases rhs <;> rfl

section
variable {n : SETNode} {store : DeclarationRef → Option V}

/-- The symbolic values at a node are those of the store: assigned variables have one. -/
def Resolved (I : Interpretation V) (ρ : String → V) (n : SETNode)
    (store : DeclarationRef → Option V) : Prop :=
  ∀ d, (n.backtrack d).isSome = true →
    ∃ v, (n.valueOf d).valueIn I ρ = some v ∧ store d = some v

/-- The induction on the expression, at a fixed node. -/
theorem Resolved.symEval (hn : Resolved I ρ n store) : ∀ e : Expression Name, e.Over n →
    ∃ v, (symEvalWith n.valueOf e).valueIn I ρ = some v ∧ e.valueIn I store = some v := by
  intro e
  induction e using Expression.operandInduction with
  | name x => exact hn x.declaration
  | constant c => exact fun _ => ⟨I.constant c, rfl, rfl⟩
  | functionCall f args => exact fun h => h.elim
  | binaryExpression left right operator ihl ihr =>
      intro h
      have ⟨lhs, hls, hl⟩ := ihl h.1
      have ⟨rhs, hrs, hr⟩ := ihr h.2
      refine ⟨I.apply operator lhs rhs, ?_, ?_⟩
      · simp [symEvalWith, SymExpr.valueIn, hls, hrs]
      · simp [Expression.valueIn, hl, hr]

theorem Resolved.update (hn : Resolved I ρ n store) (var : DeclarationRef)
    {rhs : Expression Name} (h : rhs.Assignable n) :
    ∃ v, (symEvalUpdateWith n.valueOf (evaluateUpdate var rhs)).valueIn I ρ = some v ∧
      (evaluateUpdate var rhs).valueIn I ρ store = some v := by
  rcases h with ⟨f, args, rfl⟩ | h
  · exact ⟨ρ (var.vname ++ "_1"), rfl, rfl⟩
  · have ⟨v, hsym, hv⟩ := hn.symEval rhs h
    cases rhs with
    | name x | constant c | binaryExpression left right operator => exact ⟨v, hsym, hv⟩
    | functionCall f args => exact h.elim

end

/-- The induction on the path: below an assignment the values are resolved at its parent, where
the store is the one before the assignment. -/
theorem SETNode.AssignedBeforeRead.resolved {n : SETNode} (hn : n.AssignedBeforeRead) :
    Resolved I ρ n (n.storeIn I ρ) := by
  induction n with
  | start => exact fun d hd => nomatch hd
  | instruction var e p ih =>
      have ⟨hp, rhs, hrhs, he⟩ := hn
      intro d hd
      rw [SETNode.valueOf, SETNode.storeIn]
      by_cases hvar : var = d
      · subst hvar
        rw [if_pos rfl, Function.update_self, he]
        exact (ih hp).update var hrhs
      · rw [if_neg hvar, Function.update_of_ne (Ne.symm hvar)]
        rw [SETNode.backtrack, if_neg hvar] at hd
        exact ih hp d hd
  | decision _ p ih | stateEntry _ p ih | stateExit _ p ih | note _ p ih => exact ih hn

end

/-- At every node of a path on which variables are assigned before they are read, and for every
expression over variables assigned there, `sym_eval` gives an expression over symbolic
variables. Under every meaning of the operators and every valuation it has the value that the
expression has in the store after the path. The store that the simulator would make agrees,
where no evaluation throws. -/
theorem symEval_resolves {leaf : SETNode} (hleaf : leaf.AssignedBeforeRead)
    {e : Expression Name} (he : e.Over leaf) :
    (∀ (V : Type) (I : Interpretation V) (ρ : String → V),
      ∃ v, (symEval e leaf).valueIn I ρ = some v ∧ e.valueIn I (leaf.storeIn I ρ) = some v) ∧
    ∀ (ρ : Valuation) (v : Option Constant), (symEval e leaf).value ρ = .ok v →
      expressionValue (leaf.store ρ) e = v :=
  ⟨fun _ _ _ => hleaf.resolved.symEval e he, fun _ _ => value_symEval⟩

/-- The values and operators of the simulator, whose exceptions are values here. -/
def simulatorValues : Interpretation (Except JavaException (Option Constant)) where
  constant c := .ok (some c)
  apply operator lhs rhs := do applyOperator operator (← lhs) (← rhs)
  negate b := do pure (some (.booleanConstant !(← booleanValue (← b))))

/-- `x`, a variable of the outermost state. -/
def nameX : Name := ⟨["x"], ⟨[], "x"⟩⟩

/-- The path goes on with an assignment to `x`. -/
def SETNode.assignX (p : SETNode) (rhs : Expression Name) : SETNode :=
  .instruction nameX.declaration (evaluateUpdate nameX.declaration rhs) p

/-- `x + 1`. -/
def successor : Expression Name :=
  .binaryExpression (.name nameX) (.constant (.integerConstant 1)) .plus

/-- `x * x`. -/
def square : Expression Name := .binaryExpression (.name nameX) (.name nameX) .mul

/-- `x := input(); x := x + 1; x := x * x`. -/
def squared : SETNode :=
  ((SETNode.start.assignX (.functionCall ⟨"input", []⟩ [])).assignX successor).assignX square

theorem symEval_resolves_squared :
    (Expression.name nameX).valueIn simulatorValues
      (squared.storeIn simulatorValues fun _ => .ok (some (.integerConstant 3))) =
        some (.ok (some (.integerConstant 16))) := by
  have hinput : (Expression.functionCall (ν := Name) ⟨"input", []⟩ []).Assignable .start :=
    Or.inl ⟨_, _, rfl⟩
  have hpath : squared.AssignedBeforeRead :=
    ⟨⟨⟨trivial, _, hinput, rfl⟩, successor, Or.inr ⟨rfl, trivial⟩, rfl⟩, square,
      Or.inr ⟨rfl, rfl⟩, rfl⟩
  have ⟨v, hsym, hv⟩ := (symEval_resolves hpath (e := .name nameX) rfl).1 _ simulatorValues
    fun _ => .ok (some (.integerConstant 3))
  have hsixteen : some v = some (.ok (some (.integerConstant 16))) := hsym.symm.trans rfl
  rw [hv, hsixteen]

end Stabl
