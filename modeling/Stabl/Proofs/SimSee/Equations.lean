import Stabl.Lib.OperatorParser
import Stabl.SimSee.Parser
import Stabl.SimSee.Semantics

/-!
# `Stabl.Proofs.SimSee.Equations`: how sums and equations are parsed

On operands and operators without parentheses the parser is the one of
`Stabl.Lib.OperatorParser` (`parsesExpr_sequence`). Its table compares the precedences, but
`EQ` has none. So an equation is a barrier: what stands after it goes into the place of
the last operand before it.

A sum therefore has the tree that the precedences declare, where `-` is tighter than `+`, and
this tree has the usual value. An equation between sums is read as one only when the left sum
is a single operand, and a conjunction of equations never is (`equations_parsed`).
-/

set_option autoImplicit false

namespace Stabl.SimSee

open OperatorTree StateTransition

/-! ### Sequences of operands and operators -/

/-- An identifier or an integer constant. -/
inductive SumOperand where
  | id (vname : String)
  | integer (n : BitVec 63)
deriving DecidableEq, Repr

def SumOperand.token : SumOperand → ExprToken
  | .id vname => .id vname
  | .integer n => .integer n

def SumOperand.expr : SumOperand → Expr
  | .id vname => .id vname
  | .integer n => .intConst n

/-- The tokens of operators with the operands after them. -/
def restTokens (s : List (BinaryOperator × SumOperand)) : List ExprToken :=
  s.flatMap fun p => [p.1.token, p.2.token]

/-- Whether an operator on the stack is reduced before the operator ahead. -/
def reduces (p o : BinaryOperator) : Bool := ExprParser.resolve (.binary p) o.token

/-- The action of a node. -/
def build (l : Expr) (o : BinaryOperator) (r : Expr) : Expr := o.apply l r

/-- The tree that the parser builds from a first operand and the rest of a sequence. -/
def sequenceTree (a : SumOperand) (s : List (BinaryOperator × SumOperand)) :
    OperatorTree BinaryOperator Expr :=
  parse reduces [] (leaf a.expr) (s.map (Prod.map id SumOperand.expr))

/-! ### The steps of the parser -/

/-- The part of the stack that holds the pending operators. -/
def pendingStack (pending : Pending BinaryOperator Expr) : List ExprSymbol :=
  pending.flatMap fun p => [.token p.2.token, .expr (p.1.fold build)]

section Steps

variable {input : List ExprToken}

theorem follows_operator (o : BinaryOperator) :
    ExprParser.follows (some o.token) = true := by
  cases o <;> rfl

/-- Before an operator the parser completes the pending ones that the table reduces, and then
shifts it. -/
theorem reaches_operator (o : BinaryOperator) (pending : Pending BinaryOperator Expr) :
    ∀ t : OperatorTree BinaryOperator Expr,
      Reaches ExprParser.step ⟨.expr (t.fold build) :: pendingStack pending, o.token :: input⟩
        ⟨.token o.token :: .expr ((reduceBefore reduces o pending t).2.fold build) ::
          pendingStack (reduceBefore reduces o pending t).1, input⟩ := by
  induction pending with
  | nil =>
      intro t
      refine Relation.ReflTransGen.single ?_
      cases o <;> rfl
  | cons p pending ih =>
      intro t
      obtain ⟨l, p⟩ := p
      -- The table is read off for each pair of operators: the pending one is reduced, and the walk
      -- goes on, or the operator ahead is shifted.
      by_cases hred : reduces p o = true
      · have hstep : ExprParser.step ⟨.expr (t.fold build) :: pendingStack ((l, p) :: pending),
            o.token :: input⟩ =
              some ⟨.expr ((node l p t).fold build) :: pendingStack pending, o.token :: input⟩ := by
          show ExprParser.step ⟨.expr (t.fold build) :: .token p.token :: .expr (l.fold build) ::
            pendingStack pending, o.token :: input⟩ = _
          revert hred
          cases p <;> cases o <;> intro hred <;> first | rfl | cases hred
        rw [reduceBefore, if_pos hred]
        exact Relation.ReflTransGen.head hstep (ih (node l p t))
      · rw [reduceBefore, if_neg hred]
        refine Relation.ReflTransGen.single ?_
        show ExprParser.step ⟨.expr (t.fold build) :: .token p.token :: .expr (l.fold build) ::
            pendingStack pending, o.token :: input⟩ = _
        revert hred
        cases p <;> cases o <;> intro hred <;> first | rfl | exact absurd rfl hred

/-- At the end of the input all pending operators are completed. -/
theorem reaches_end (pending : Pending BinaryOperator Expr) :
    ∀ t : OperatorTree BinaryOperator Expr,
      Reaches ExprParser.step ⟨.expr (t.fold build) :: pendingStack pending, []⟩
        ⟨[.expr ((close pending t).fold build)], []⟩ := by
  induction pending with
  | nil => exact fun t => Relation.ReflTransGen.refl
  | cons p pending ih =>
      intro t
      obtain ⟨l, p⟩ := p
      refine Relation.ReflTransGen.head ?_ (ih (node l p t))
      show ExprParser.step ⟨.expr (t.fold build) :: .token p.token :: .expr (l.fold build) ::
        pendingStack pending, []⟩ = _
      cases p <;> rfl

/-- An operand is shifted and reduced, where an expression is expected and an operator or the
end comes next. -/
theorem reaches_operand (a : SumOperand) (stack : List ExprSymbol)
    (hstack : stack = [] ∨ ∃ (o : BinaryOperator) (s : List ExprSymbol),
      stack = .token o.token :: s)
    (hinput : ExprParser.follows input.head? = true) :
    Reaches ExprParser.step ⟨stack, a.token :: input⟩ ⟨.expr a.expr :: stack, input⟩ := by
  have hshift : ExprParser.step ⟨stack, a.token :: input⟩ =
      some ⟨.token a.token :: stack, input⟩ := by
    -- An operand cannot stand behind an expression, so the parser does not reduce before it.
    have hfollows : ExprParser.follows (some a.token) = false := by
      cases a <;> simp [ExprParser.follows, SumOperand.token, ExprToken.operator]
    have hshifts : ExprParser.shifts stack a.token = true := by
      obtain rfl | ⟨o, s, rfl⟩ := hstack
      · cases a <;> rfl
      · cases a <;> cases o <;> rfl
    simp [ExprParser.step, hfollows, hshifts]
  have hreduce : ExprParser.step ⟨.token a.token :: stack, input⟩ =
      some ⟨.expr a.expr :: stack, input⟩ := by
    cases input with
    | nil =>
        cases a <;> simp [ExprParser.step, ExprParser.follows, ExprParser.reduction,
          SumOperand.token, SumOperand.expr]
    | cons t input =>
        simp only [List.head?_cons] at hinput
        cases a <;> simp [ExprParser.step, ExprParser.shifts, ExprParser.reduction,
          SumOperand.token, SumOperand.expr, ExprToken.endsExpr, hinput]
  exact Relation.ReflTransGen.head hshift (Relation.ReflTransGen.single hreduce)

end Steps

theorem follows_restTokens (s : List (BinaryOperator × SumOperand)) :
    ExprParser.follows (restTokens s).head? = true := by
  cases s with
  | nil => rfl
  | cons p s => exact follows_operator p.1

/-- The parser goes on as the parser of operators does. -/
theorem reaches_rest (s : List (BinaryOperator × SumOperand)) :
    ∀ (pending : Pending BinaryOperator Expr) (t : OperatorTree BinaryOperator Expr),
      Reaches ExprParser.step ⟨.expr (t.fold build) :: pendingStack pending, restTokens s⟩
        ⟨[.expr ((parse reduces pending t (s.map (Prod.map id SumOperand.expr))).fold build)],
          []⟩ := by
  induction s with
  | nil => exact fun pending t => reaches_end pending t
  | cons p s ih =>
      intro pending t
      obtain ⟨o, a⟩ := p
      have hoperator := @reaches_operator (a.token :: restTokens s) o pending t
      have hoperand := reaches_operand a
        (.token o.token :: .expr ((reduceBefore reduces o pending t).2.fold build) ::
          pendingStack (reduceBefore reduces o pending t).1)
        (Or.inr ⟨o, _, rfl⟩) (follows_restTokens s)
      -- The operator goes on the stack with the tree before it, and its operand starts a new tree.
      have hrest := ih (((reduceBefore reduces o pending t).2, o) ::
        (reduceBefore reduces o pending t).1) (leaf a.expr)
      exact (hoperator.trans hoperand).trans hrest

/-- The parser builds the tree of a sequence. -/
theorem parsesExpr_sequence (a : SumOperand) (s : List (BinaryOperator × SumOperand)) :
    ParsesExpr (a.token :: restTokens s) ((sequenceTree a s).fold build) := by
  have hfirst := reaches_operand a [] (Or.inl rfl) (follows_restTokens s)
  exact hfirst.trans (reaches_rest s [] (leaf a.expr))

/-- The parser builds at most one expression. -/
theorem ParsesExpr.unique {tokens : List ExprToken} {e e' : Expr} (h : ParsesExpr tokens e)
    (h' : ParsesExpr tokens e') : e = e' := by
  have hend : ∀ e : Expr, ExprParser.step ⟨[.expr e], []⟩ = none := fun _ => rfl
  -- The parser is deterministic, and a finished parse makes no further step.
  have hstate := Part.mem_unique (mem_eval.mpr ⟨h, hend e⟩) (mem_eval.mpr ⟨h', hend e'⟩)
  simpa using hstate

/-! ### Sums -/

/-- A sum or difference of any length. -/
structure WrittenSum where
  first : SumOperand
  rest : List (BinaryOperator × SumOperand)
  operators : ∀ p ∈ rest, p.1 = .add ∨ p.1 = .subtract

namespace WrittenSum

def tokens (s : WrittenSum) : List ExprToken := s.first.token :: restTokens s.rest

/-- What the parser makes of the sum alone. -/
def expr (s : WrittenSum) : Expr := (sequenceTree s.first s.rest).fold build

theorem parses (s : WrittenSum) : ParsesExpr s.tokens s.expr :=
  parsesExpr_sequence s.first s.rest

end WrittenSum

/-- The place of an operator among the precedence declarations. -/
def BinaryOperator.level (o : BinaryOperator) : Nat := (o.token.precedence.map Prod.fst).getD 0

/-- In a sum the table compares the levels. -/
theorem reduces_iff_level {p o : BinaryOperator} (hp : p = .add ∨ p = .subtract)
    (ho : o = .add ∨ o = .subtract) : reduces p o = true ↔ o.level ≤ p.level := by
  obtain rfl | rfl := hp <;> obtain rfl | rfl := ho <;> decide

/-- The tree of a sum is the one that the precedences prescribe. -/
theorem WrittenSum.sequenceTree_eq (s : WrittenSum) :
    sequenceTree s.first s.rest =
      (group BinaryOperator.level s.first s.rest).map SumOperand.expr := by
  -- Addition and subtraction are left-associative, so the table reduces at equal levels.
  rw [map_group]
  refine parse_eq_group (P := fun o => o = .add ∨ o = .subtract)
    (fun p o => reduces_iff_level) s.first.expr _ ?_
  intro q hq
  obtain ⟨p, hp, rfl⟩ := List.mem_map.mp hq
  exact s.operators p hp

/-! ### Values of sums -/

/-- The value of an operand. -/
def SumOperand.value (store : Store) : SumOperand → Option Value
  | .id vname => store vname
  | .integer n => some (.int n)

/-- An operator on values. -/
def BinaryOperator.value : BinaryOperator → Value → Value → Option Value
  | .add => Value.add
  | .subtract => Value.sub
  | .and => Value.and
  | .or => Value.or
  | .equals => Value.equals

/-- The value of an operator between two values, if there are such. -/
def calculate (x : Option Value) (o : BinaryOperator) (y : Option Value) : Option Value := do
  let v ← x
  let w ← y
  o.value v w

/-- The value of a sum, calculated from left to right. -/
def WrittenSum.usualValue (store : Store) (s : WrittenSum) : Option Value :=
  s.rest.foldl (fun x p => calculate x p.1 (p.2.value store)) (s.first.value store)

/-- A difference can be added as a whole. -/
theorem calculate_assoc (x y z : Option Value) :
    calculate x .add (calculate y .subtract z) = calculate (calculate x .add y) .subtract z := by
  cases x with
  | none => rfl
  | some v =>
      cases y with
      | none => cases v <;> rfl
      | some w =>
          -- On numbers this is the associativity of addition. A value that is missing or boolean
          -- leaves both sides without one.
          cases z with
          | none => cases v <;> cases w <;> rfl
          | some u =>
              cases v <;> cases w <;> cases u <;>
                simp [calculate, BinaryOperator.value, Value.add, Value.sub,
                  BitVec.sub_eq_add_neg, BitVec.add_assoc]

/-- The value of an operator and its operands. -/
theorem evalExpr_apply (inputs : Inputs) (store : Store) (o : BinaryOperator) (e1 e2 : Expr)
    (k : Nat) :
    evalExpr inputs store (o.apply e1 e2) k = (do
      let (v1, k) ← evalExpr inputs store e1 k
      let (v2, k) ← evalExpr inputs store e2 k
      let v ← o.value v1 v2
      pure (v, k)) := by
  cases o <;> rfl

theorem evalExpr_fold (inputs : Inputs) (store : Store) (t : OperatorTree BinaryOperator SumOperand)
    (k : Nat) :
    evalExpr inputs store ((t.map SumOperand.expr).fold build) k =
      ((t.map (SumOperand.value store)).fold calculate).map fun v => (v, k) := by
  induction t with
  | leaf a =>
      cases a with
      | integer n => rfl
      | id vname =>
          show (store vname).bind (fun v => some (v, k)) = (store vname).map fun v => (v, k)
          cases store vname <;> rfl
  | node l o r ihl ihr =>
      show evalExpr inputs store (o.apply ((l.map SumOperand.expr).fold build)
        ((r.map SumOperand.expr).fold build)) k = (calculate
          ((l.map (SumOperand.value store)).fold calculate) o
          ((r.map (SumOperand.value store)).fold calculate)).map fun v => (v, k)
      rw [evalExpr_apply, ihl]
      cases (l.map (SumOperand.value store)).fold calculate with
      | none => rfl
      | some v =>
          simp only [Option.map_some, Option.bind_eq_bind, Option.bind_some, ihr]
          cases (r.map (SumOperand.value store)).fold calculate with
          | none => rfl
          | some w => exact Option.map_eq_bind.symm

/-- What the parser makes of a sum has the usual value. -/
theorem WrittenSum.evalExpr_expr (inputs : Inputs) (store : Store) (s : WrittenSum) (k : Nat) :
    evalExpr inputs store s.expr k = (s.usualValue store).map fun v => (v, k) := by
  have hassoc : ∀ p o : BinaryOperator, (p = .add ∨ p = .subtract) → (o = .add ∨ o = .subtract) →
      p.level < o.level → ∀ x y z, calculate x p (calculate y o z) =
        calculate (calculate x p y) o z := by
    intro p o hp ho hlt
    -- Only `-` is tighter than `+`, so there is one pair to look at.
    obtain rfl | rfl := hp <;> obtain rfl | rfl := ho
    · exact absurd hlt (by decide)
    · exact calculate_assoc
    · exact absurd hlt (by decide)
    · exact absurd hlt (by decide)
  have hoperators : ∀ q ∈ s.rest.map (Prod.map id (SumOperand.value store)),
      q.1 = .add ∨ q.1 = .subtract := by
    intro q hq
    obtain ⟨p, hp, rfl⟩ := List.mem_map.mp hq
    exact s.operators p hp
  rw [expr, s.sequenceTree_eq, evalExpr_fold, map_group, fold_group hassoc _ hoperators,
    List.foldl_map]
  rfl

/-! ### Equations -/

/-- The tokens of `s1 = s2`. -/
def equationTokens (s1 s2 : WrittenSum) : List ExprToken := s1.tokens ++ .eq :: s2.tokens

/-- `EQ` has no precedence, so it is never reduced before the end, and nothing is reduced
before it. -/
theorem reduces_equals (o : BinaryOperator) :
    reduces o .equals = false ∧ reduces .equals o = false := by
  cases o <;> decide

/-- What stands after an equation is put into the place of the last operand before it. -/
theorem parsesExpr_equation (s : WrittenSum) (a : SumOperand)
    (rest : List (BinaryOperator × SumOperand)) :
    ParsesExpr (s.tokens ++ .eq :: a.token :: restTokens rest)
      ((graft .equals (sequenceTree a rest) (sequenceTree s.first s.rest)).fold build) := by
  have htokens : s.tokens ++ .eq :: a.token :: restTokens rest =
      s.first.token :: restTokens (s.rest ++ (.equals, a) :: rest) := by
    simp [WrittenSum.tokens, restTokens, BinaryOperator.token]
  have htree : sequenceTree s.first (s.rest ++ (.equals, a) :: rest) =
      graft .equals (sequenceTree a rest) (sequenceTree s.first s.rest) := by
    rw [sequenceTree, List.map_append, List.map_cons]
    exact parse_barrier (fun p => (reduces_equals p).1) (fun o => (reduces_equals o).2) _ _ _ _ _
  rw [htokens, ← htree]
  exact parsesExpr_sequence _ _

/-- A sum with operators does not lose the one at the root. -/
theorem fold_graft_of_rest {s : WrittenSum} (h : s.rest ≠ []) (o : BinaryOperator)
    (t : OperatorTree BinaryOperator Expr) :
    ∃ e1 e2, (graft o t (sequenceTree s.first s.rest)).fold build = .add e1 e2 ∨
      (graft o t (sequenceTree s.first s.rest)).fold build = .sub e1 e2 := by
  have hrest : (sequenceTree s.first s.rest).rest =
      s.rest.map (Prod.map id SumOperand.expr) := by
    rw [s.sequenceTree_eq, rest_map, rest_group]
  cases htree : sequenceTree s.first s.rest with
  | leaf a =>
      rw [htree] at hrest
      exact absurd (List.map_eq_nil_iff.mp hrest.symm) h
  | node l p r =>
      -- The operator at the root is one of those that were written.
      have hp : p = .add ∨ p = .subtract := by
        have hmem : (p, r.first) ∈ s.rest.map (Prod.map id SumOperand.expr) := by
          rw [← hrest, htree]
          simp [OperatorTree.rest]
        obtain ⟨q, hq, heq⟩ := List.mem_map.mp hmem
        obtain ⟨rfl, _⟩ := Prod.mk.inj heq
        exact s.operators q hq
      refine ⟨l.fold build, (graft o t r).fold build, ?_⟩
      obtain rfl | rfl := hp
      · exact Or.inl rfl
      · exact Or.inr rfl

/-- `s1 = s2` is parsed to the equation between the trees of the sums alone. -/
def ReadAsEquation (s1 s2 : WrittenSum) : Prop :=
  ∃ t1 t2, ParsesExpr s1.tokens t1 ∧ ParsesExpr s2.tokens t2 ∧
    ParsesExpr (equationTokens s1 s2) (.equals t1 t2)

/-- `s1 = s2 and s3 = s4` is parsed to the conjunction of the two equations. -/
def ReadAsConjunction (s1 s2 s3 s4 : WrittenSum) : Prop :=
  ∃ t1 t2 t3 t4, ParsesExpr s1.tokens t1 ∧ ParsesExpr s2.tokens t2 ∧ ParsesExpr s3.tokens t3 ∧
    ParsesExpr s4.tokens t4 ∧
    ParsesExpr (equationTokens s1 s2 ++ .and :: equationTokens s3 s4)
      (.and (.equals t1 t2) (.equals t3 t4))

/-- The tree of a sum alone has its usual value, from left to right. -/
def HasUsualValue (s : WrittenSum) : Prop :=
  ∃ t, ParsesExpr s.tokens t ∧ ∀ inputs store k,
    evalExpr inputs store t k = (s.usualValue store).map fun v => (v, k)

theorem readAsEquation_iff (s1 s2 : WrittenSum) : ReadAsEquation s1 s2 ↔ s1.rest = [] := by
  have hparses := parsesExpr_equation s1 s2.first s2.rest
  constructor
  · intro ⟨t1, t2, _, _, h⟩
    by_contra hrest
    obtain ⟨e1, e2, heq | heq⟩ :=
      fold_graft_of_rest hrest .equals (sequenceTree s2.first s2.rest)
    · cases (h.unique hparses).trans heq
    · cases (h.unique hparses).trans heq
  · intro hrest
    have hleaf : sequenceTree s1.first s1.rest = leaf s1.first.expr := by
      rw [hrest]
      rfl
    rw [hleaf] at hparses
    refine ⟨s1.expr, s2.expr, s1.parses, s2.parses, ?_⟩
    rw [WrittenSum.expr, hleaf]
    exact hparses

/-- The first equation takes in everything after it. -/
theorem not_readAsConjunction (s1 s2 s3 s4 : WrittenSum) : ¬ ReadAsConjunction s1 s2 s3 s4 := by
  intro ⟨t1, t2, t3, t4, _, _, _, _, h⟩
  have htokens : equationTokens s1 s2 ++ .and :: equationTokens s3 s4 =
      s1.tokens ++ .eq :: s2.first.token :: restTokens
        (s2.rest ++ (.and, s3.first) :: (s3.rest ++ (.equals, s4.first) :: s4.rest)) := by
    simp [equationTokens, WrittenSum.tokens, restTokens, BinaryOperator.token]
  rw [htokens] at h
  have heq := h.unique (parsesExpr_equation s1 s2.first _)
  -- The root is an equation if `s1` is one operand, and an operator of `s1` if not. It is never
  -- `and`.
  by_cases hrest : s1.rest = []
  · rw [hrest] at heq
    cases heq
  · obtain ⟨e1, e2, hroot | hroot⟩ := fold_graft_of_rest hrest .equals (sequenceTree s2.first
      (s2.rest ++ (.and, s3.first) :: (s3.rest ++ (.equals, s4.first) :: s4.rest)))
    · cases heq.trans hroot
    · cases heq.trans hroot

/-- An equation of sums is read as one exactly when its left side is a single operand. Every
sum has its usual value. A conjunction of equations is never read as one. -/
theorem equations_parsed (s1 s2 s3 s4 : WrittenSum) :
    (ReadAsEquation s1 s2 ↔ s1.rest = []) ∧ HasUsualValue s1 ∧
      ¬ ReadAsConjunction s1 s2 s3 s4 :=
  ⟨readAsEquation_iff s1 s2, ⟨s1.expr, s1.parses, fun inputs store k =>
    s1.evalExpr_expr inputs store k⟩, not_readAsConjunction s1 s2 s3 s4⟩

/-- `a + b`. -/
def sumAB : WrittenSum := ⟨.id "a", [(.add, .id "b")], by simp⟩

/-- `c`. -/
def sumC : WrittenSum := ⟨.id "c", [], by simp⟩

/-- `a + b = c` is parsed as `a + (b = c)`. -/
theorem sumAB_equals_sumC : ParsesExpr (equationTokens sumAB sumC)
    (.add (.id "a") (.equals (.id "b") (.id "c"))) ∧
    ¬ ∀ s1 s2 s3 s4 : WrittenSum,
      ReadAsEquation s1 s2 ∧ HasUsualValue s1 ∧ ReadAsConjunction s1 s2 s3 s4 := by
  refine ⟨parsesExpr_equation sumAB sumC.first sumC.rest, fun h => ?_⟩
  have hrest := (readAsEquation_iff sumAB sumC).mp (h sumAB sumC sumC sumC).1
  cases hrest

end Stabl.SimSee
