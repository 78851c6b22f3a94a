import Stabl.Proofs.SimSee.Printing

/-!
# `Stabl.Proofs.SimSee.PrintedValues`: the value of a printed expression

The value of an expression is that of its words, each with the sign that it has in the end:
a word is subtracted when it stands in the right operands of an odd number of `Sub`s. The
text shows the sign before the word only. So two expressions with one text have the same value
when their words have the same signs (`stringOfExpr_faithful`).
-/

set_option autoImplicit false

namespace Stabl.SimSee

/-! ### The signs of an expression -/

def SumSign.flip : SumSign → SumSign
  | .plus => .minus
  | .minus => .plus

@[simp] theorem SumSign.flip_flip (o : SumSign) : o.flip.flip = o := by
  cases o <;> rfl

/-- The signs of the words in the order in which they are printed, for an expression that is
added or subtracted as a whole. -/
def signsFrom : SumSign → Expr → List SumSign
  | o, .id _ | o, .intConst _ | o, .boolConst _ | o, .input _ => [o]
  | o, .add e1 e2 => signsFrom o e1 ++ signsFrom o e2
  | o, .sub e1 e2 => signsFrom o e1 ++ signsFrom o.flip e2
  | o, .not e => o :: signsFrom .plus e
  | o, .or e1 e2 | o, .and e1 e2 | o, .equals e1 e2 =>
    o :: (signsFrom .plus e1 ++ signsFrom .plus e2)

/-- The sign with which each word of the expression is counted. -/
def signs (e : Expr) : List SumSign := signsFrom .plus e

/-- The opposite signs, outside of the words. -/
def PrintedSum.flip : PrintedSum → PrintedSum
  | .last w => .last w
  | .more w o x => .more w o.flip x.flip

@[simp] theorem PrintedSum.flip_flip : ∀ x : PrintedSum, x.flip.flip = x
  | .last w => rfl
  | .more w o x => by simp [flip, flip_flip x]

theorem PrintedSum.flip_append (o : SumSign) (y : PrintedSum) :
    ∀ x : PrintedSum, (x.append o y).flip = x.flip.append o.flip y.flip
  | .last w => rfl
  | .more w o' x => by simp [flip, append, flip_append o y x]

/-- The words of the expression, with the signs that they have in the end. -/
def signed : Expr → PrintedSum
  | .id vname => .last (.plain (.id vname))
  | .intConst n => .last (.plain (.int n))
  | .boolConst b => .last (.plain (.bool b))
  | .add e1 e2 => (signed e1).append .plus (signed e2)
  | .sub e1 e2 => (signed e1).append .minus (signed e2).flip
  | .not e => .last (.not (signed e))
  | .or e1 e2 => .last (.binary .or (signed e1) (signed e2))
  | .and e1 e2 => .last (.binary .and (signed e1) (signed e2))
  | .equals e1 e2 => .last (.binary .equals (signed e1) (signed e2))
  | .input t => .last (.input t)

/-! ### Words and signs make a sum -/

mutual

/-- The word without its signs. -/
def Word.erase : Word → Word
  | .plain p => .plain p
  | .input t => .input t
  | .not x => .not x.erase
  | .binary o x y => .binary o x.erase y.erase

def PrintedSum.erase : PrintedSum → PrintedSum
  | .last w => .last w.erase
  | .more w _ x => .more w.erase .plus x.erase

end

mutual

/-- The signs inside a word. -/
def Word.signs : Word → List SumSign
  | .plain _ | .input _ => []
  | .not x => x.signs .plus
  | .binary _ x y => x.signs .plus ++ y.signs .plus

/-- The signs of a sum after a sign. -/
def PrintedSum.signs : PrintedSum → SumSign → List SumSign
  | .last w, o => o :: w.signs
  | .more w o' x, o => o :: (w.signs ++ x.signs o')

end

namespace PrintedSum

theorem erase_append (o : SumSign) (y : PrintedSum) :
    ∀ x : PrintedSum, (x.append o y).erase = x.erase.append .plus y.erase
  | .last w => by simp [append, erase]
  | .more w o' x => by simp [append, erase, erase_append o y x]

theorem erase_flip : ∀ x : PrintedSum, x.flip.erase = x.erase
  | .last w => rfl
  | .more w o x => by simp [flip, erase, erase_flip x]

theorem signs_append (o : SumSign) (y : PrintedSum) :
    ∀ (x : PrintedSum) (o' : SumSign), (x.append o y).signs o' = x.signs o' ++ y.signs o
  | .last w, o' => by simp [append, signs]
  | .more w o'' x, o' => by simp [append, signs, signs_append o y x]

end PrintedSum

mutual

/-- Words without signs and a list of signs determine the words. -/
theorem Word.ext_signs : ∀ (w w' : Word) {l l' : List SumSign}, w.erase = w'.erase →
    w.signs ++ l = w'.signs ++ l' → w = w' ∧ l = l'
  | .plain p, w', l, l', herase, hsigns => by
      cases w' with
      | plain q =>
          obtain rfl := Word.plain.inj herase
          exact ⟨rfl, hsigns⟩
      | input t | not x | binary o x y => cases herase
  | .input t, w', l, l', herase, hsigns => by
      cases w' with
      | input t' =>
          obtain rfl := Word.input.inj herase
          exact ⟨rfl, hsigns⟩
      | plain p | not x | binary o x y => cases herase
  | .not x, w', l, l', herase, hsigns => by
      cases w' with
      | not x' =>
          obtain ⟨_, rfl, rfl⟩ := PrintedSum.ext_signs x x' (Word.not.inj herase) hsigns
          exact ⟨rfl, rfl⟩
      | plain p | input t | binary o x y => cases herase
  | .binary o x y, w', l, l', herase, hsigns => by
      cases w' with
      | binary o' x' y' =>
          obtain ⟨rfl, hx, hy⟩ := Word.binary.inj herase
          have hall : x.signs .plus ++ (y.signs .plus ++ l) =
              x'.signs .plus ++ (y'.signs .plus ++ l') := by
            simpa [Word.signs] using hsigns
          -- The signs of `x` come first, and what is left begins with those of `y`.
          obtain ⟨_, rfl, hrest⟩ := PrintedSum.ext_signs x x' hx hall
          obtain ⟨_, rfl, rfl⟩ := PrintedSum.ext_signs y y' hy hrest
          exact ⟨rfl, rfl⟩
      | plain p | input t | not x => cases herase

theorem PrintedSum.ext_signs : ∀ (x x' : PrintedSum) {o o' : SumSign} {l l' : List SumSign},
    x.erase = x'.erase → x.signs o ++ l = x'.signs o' ++ l' → o = o' ∧ x = x' ∧ l = l'
  | .last w, x', o, o', l, l', herase, hsigns => by
      cases x' with
      | last w' =>
          obtain ⟨rfl, hrest⟩ := List.cons.inj hsigns
          obtain ⟨rfl, rfl⟩ := Word.ext_signs w w' (PrintedSum.last.inj herase) hrest
          exact ⟨rfl, rfl, rfl⟩
      | more w' p x' => cases herase
  | .more w p x, x', o, o', l, l', herase, hsigns => by
      cases x' with
      | last w' => cases herase
      | more w' p' x' =>
          obtain ⟨hw, _, hx⟩ := PrintedSum.more.inj herase
          have hall : o :: (w.signs ++ (x.signs p ++ l)) =
              o' :: (w'.signs ++ (x'.signs p' ++ l')) := by
            simpa [PrintedSum.signs] using hsigns
          -- The sign before the word, then the signs in it, and then those of the rest.
          obtain ⟨rfl, hwords⟩ := List.cons.inj hall
          obtain ⟨rfl, hrest⟩ := Word.ext_signs w w' hw hwords
          obtain ⟨rfl, rfl, rfl⟩ := PrintedSum.ext_signs x x' hx hrest
          exact ⟨rfl, rfl, rfl⟩

end

theorem erase_signed (e : Expr) : (signed e).erase = (text e).erase := by
  induction e with
  | id vname | intConst n | boolConst b | input t => rfl
  | add e1 e2 ih1 ih2 => simp only [signed, text, PrintedSum.erase_append, ih1, ih2]
  | sub e1 e2 ih1 ih2 =>
      simp only [signed, text, PrintedSum.erase_append, PrintedSum.erase_flip, ih1, ih2]
  | not e ih => simp only [signed, text, PrintedSum.erase, Word.erase, ih]
  | or e1 e2 ih1 ih2 | and e1 e2 ih1 ih2 | equals e1 e2 ih1 ih2 =>
      simp only [signed, text, PrintedSum.erase, Word.erase, ih1, ih2]

theorem signsFrom_eq (e : Expr) : signsFrom .plus e = (signed e).signs .plus ∧
    signsFrom .minus e = (signed e).flip.signs .minus := by
  induction e with
  | id vname | intConst n | boolConst b | input t => exact ⟨rfl, rfl⟩
  | add e1 e2 ih1 ih2 =>
      simp only [signsFrom, signed, PrintedSum.flip_append, PrintedSum.signs_append, SumSign.flip,
        ih1.1, ih1.2, ih2.1, ih2.2, and_self]
  | sub e1 e2 ih1 ih2 =>
      -- Below a second `Sub` the signs are flipped back.
      simp only [signsFrom, signed, PrintedSum.flip_append, PrintedSum.signs_append,
        PrintedSum.flip_flip, SumSign.flip, ih1.1, ih1.2, ih2.1, ih2.2, and_self]
  | not e ih =>
      simp only [signsFrom, signed, PrintedSum.flip, PrintedSum.signs, Word.signs, ih.1, and_self]
  | or e1 e2 ih1 ih2 | and e1 e2 ih1 ih2 | equals e1 e2 ih1 ih2 =>
      simp only [signsFrom, signed, PrintedSum.flip, PrintedSum.signs, Word.signs, ih1.1, ih2.1,
        and_self]

/-- The words of a text with the same signs are the same sum. -/
theorem signed_eq_of_text {e1 e2 : Expr} (htext : text e1 = text e2)
    (hsigns : signs e1 = signs e2) : signed e1 = signed e2 := by
  have herase : (signed e1).erase = (signed e2).erase := by
    rw [erase_signed, erase_signed, htext]
  have hall : (signed e1).signs .plus ++ [] = (signed e2).signs .plus ++ [] := by
    rw [← (signsFrom_eq e1).1, ← (signsFrom_eq e2).1]
    exact congrArg (· ++ []) hsigns
  exact (PrintedSum.ext_signs _ _ herase hall).2.1

/-! ### The value of a sum -/

/-- The number that a value is. -/
def Value.number : Value → Option (BitVec 63)
  | .int n => some n
  | .bool _ => none

def SumSign.apply : SumSign → BitVec 63 → BitVec 63
  | .plus, n => n
  | .minus, n => -n

def Connective.value : Connective → Value → Value → Option Value
  | .or => Value.or
  | .and => Value.and
  | .equals => Value.equals

theorem Value.add_eq (v w : Value) :
    v.add w = v.number.bind fun m => w.number.map fun n => .int (m + n) := by
  cases v <;> cases w <;> rfl

theorem Value.sub_eq (v w : Value) :
    v.sub w = v.number.bind fun m => w.number.map fun n => .int (m + -n) := by
  cases v <;> cases w <;> simp [sub, number, BitVec.sub_eq_add_neg]

section Evaluate

variable (inputs : Inputs) (store : Store)

mutual

/-- The value of a word, with the number of inputs used before and after. -/
def Word.eval : Word → Nat → Option (Value × Nat)
  | .plain (.id vname), k => do
    let v ← store vname
    pure (v, k)
  | .plain (.int n), k => some (.int n, k)
  | .plain (.bool b), k => some (.bool b, k)
  | .input t, k => some (inputs.get k t, k + 1)
  | .not x, k => do
    let (v, k) ← x.eval k
    let v ← v.not
    pure (v, k)
  | .binary o x y, k => do
    let (v, k) ← x.eval k
    let (w, k) ← y.eval k
    let v ← o.value v w
    pure (v, k)

/-- The value of a sum. A single word may be boolean. -/
def PrintedSum.eval : PrintedSum → Nat → Option (Value × Nat)
  | .last w, k => w.eval k
  | .more w o x, k => do
    let (v, k) ← w.eval k
    let m ← v.number
    let (n, k) ← x.total o k
    pure (.int (m + n), k)

/-- The number that a sum adds after a sign. -/
def PrintedSum.total : PrintedSum → SumSign → Nat → Option (BitVec 63 × Nat)
  | .last w, o, k => do
    let (v, k) ← w.eval k
    let m ← v.number
    pure (o.apply m, k)
  | .more w o' x, o, k => do
    let (v, k) ← w.eval k
    let m ← v.number
    let (n, k) ← x.total o' k
    pure (o.apply m + n, k)

end

variable {inputs store}

namespace PrintedSum

theorem total_append (o : SumSign) (y : PrintedSum) : ∀ (x : PrintedSum) (o' : SumSign) (k : Nat),
    (x.append o y).total inputs store o' k = (x.total inputs store o' k).bind fun r =>
      (y.total inputs store o r.2).map fun r' => (r.1 + r'.1, r'.2)
  | .last w, o', k => by
      simp only [append, total, Option.bind_eq_bind, Option.bind_assoc, Option.pure_def,
        Option.map_eq_bind, Option.bind_some, Function.comp_def]
  | .more w o'' x, o', k => by
      simp only [append, total, total_append o y x, Option.bind_eq_bind, Option.bind_assoc,
        Option.pure_def, Option.map_eq_bind, Option.bind_some, Function.comp_def,
        BitVec.add_assoc]

theorem total_flip : ∀ (x : PrintedSum) (o : SumSign) (k : Nat),
    x.flip.total inputs store o.flip k =
      (x.total inputs store o k).map fun r => (-r.1, r.2)
  | .last w, o, k => by
      have happly : ∀ m, o.flip.apply m = -o.apply m := fun m => by
        cases o <;> simp [SumSign.flip, SumSign.apply]
      simp only [flip, total, happly, Option.bind_eq_bind, Option.bind_assoc, Option.pure_def,
        Option.map_eq_bind, Option.bind_some, Function.comp_def]
  | .more w o' x, o, k => by
      have happly : ∀ m, o.flip.apply m = -o.apply m := fun m => by
        cases o <;> simp [SumSign.flip, SumSign.apply]
      simp only [flip, total, happly, total_flip x, Option.bind_eq_bind, Option.bind_assoc,
        Option.pure_def, Option.map_eq_bind, Option.bind_some, Function.comp_def, BitVec.neg_add,
        BitVec.sub_eq_add_neg]

/-- After a plus, a sum adds its value. -/
theorem total_plus (x : PrintedSum) (k : Nat) :
    x.total inputs store .plus k =
      (x.eval inputs store k).bind fun r => r.1.number.map fun n => (n, r.2) := by
  cases x with
  | last w =>
      simp only [total, eval, SumSign.apply, Option.bind_eq_bind, Option.pure_def,
        Option.map_eq_bind, Function.comp_def]
  | more w o x =>
      simp only [total, eval, SumSign.apply, Option.bind_eq_bind, Option.bind_assoc,
        Option.pure_def, Option.bind_some, Value.number, Option.map_some]

theorem eval_append (o : SumSign) (x y : PrintedSum) (k : Nat) :
    (x.append o y).eval inputs store k = (x.total inputs store .plus k).bind fun r =>
      (y.total inputs store o r.2).map fun r' => (.int (r.1 + r'.1), r'.2) := by
  cases x with
  | last w =>
      simp only [append, eval, total, SumSign.apply, Option.bind_eq_bind, Option.bind_assoc,
        Option.pure_def, Option.map_eq_bind, Option.bind_some, Function.comp_def]
  | more w o' x =>
      simp only [append, eval, total, total_append, SumSign.apply, Option.bind_eq_bind,
        Option.bind_assoc, Option.pure_def, Option.map_eq_bind, Option.bind_some,
        Function.comp_def, BitVec.add_assoc]

/-- An operand of a `Sub` subtracts its value. -/
theorem total_flip_minus (y : PrintedSum) (k : Nat) :
    y.flip.total inputs store .minus k =
      (y.eval inputs store k).bind fun r => r.1.number.map fun n => (-n, r.2) := by
  have hflip : y.flip.total inputs store .minus k =
      (y.total inputs store .plus k).map fun r => (-r.1, r.2) := total_flip y .plus k
  rw [total_plus] at hflip
  simpa [SumSign.flip, Option.map_bind, Function.comp_def] using hflip

end PrintedSum

/-- Whether the left operand is a number can be asked before or after the right operand is
evaluated. -/
theorem eval_operands (inputs : Inputs) (store : Store) (x y : PrintedSum) (k : Nat)
    (f : BitVec 63 → BitVec 63 → BitVec 63) :
    ((x.eval inputs store k).bind fun r => (y.eval inputs store r.2).bind fun r' =>
      (r.1.number.bind fun m => r'.1.number.map fun n => Value.int (f m n)).map fun v =>
        (v, r'.2)) =
      (x.eval inputs store k).bind fun r => r.1.number.bind fun m =>
        (y.eval inputs store r.2).bind fun r' => r'.1.number.map fun n =>
          (.int (f m n), r'.2) := by
  cases x.eval inputs store k with
  | none => rfl
  | some r =>
      simp only [Option.bind_some]
      -- Where the left operand is no number, there is no value, whether the right one has one or
      -- not.
      cases r.1.number with
      | none => cases y.eval inputs store r.2 <;> rfl
      | some m =>
          simp only [Option.bind_some, Option.map_map, Function.comp_def]

/-- The value of an expression is that of its signed words. -/
theorem evalExpr_eq_signed (e : Expr) : ∀ k : Nat,
    evalExpr inputs store e k = (signed e).eval inputs store k := by
  induction e with
  | id vname | intConst n | boolConst b | input t => exact fun k => rfl
  | add e1 e2 ih1 ih2 =>
      intro k
      have hoperands := eval_operands inputs store (signed e1) (signed e2) k
        fun m n => m + n
      simp only [evalExpr, signed, PrintedSum.eval_append, PrintedSum.total_plus, ih1, ih2,
        Value.add_eq, Option.bind_eq_bind, Option.bind_assoc, Option.pure_def, Option.map_eq_bind,
        Option.bind_some, Function.comp_def] at hoperands ⊢
      exact hoperands
  | sub e1 e2 ih1 ih2 =>
      intro k
      have hoperands := eval_operands inputs store (signed e1) (signed e2) k
        fun m n => m + -n
      simp only [evalExpr, signed, PrintedSum.eval_append, PrintedSum.total_plus,
        PrintedSum.total_flip_minus, ih1, ih2, Value.sub_eq, Option.bind_eq_bind,
        Option.bind_assoc, Option.pure_def, Option.map_eq_bind, Option.bind_some,
        Function.comp_def] at hoperands ⊢
      exact hoperands
  | not e ih =>
      intro k
      simp only [evalExpr, signed, PrintedSum.eval, Word.eval, ih]
  | or e1 e2 ih1 ih2 | and e1 e2 ih1 ih2 | equals e1 e2 ih1 ih2 =>
      intro k
      simp only [evalExpr, signed, PrintedSum.eval, Word.eval, Connective.value, ih1, ih2]

end Evaluate

/-- The expressions have the same value in every store in which both have one, for all inputs. -/
def SameValue (e1 e2 : Expr) : Prop :=
  ∀ inputs store k v1 k1 v2 k2, evalExpr inputs store e1 k = some (v1, k1) →
    evalExpr inputs store e2 k = some (v2, k2) → v1 = v2

/-- Expressions with one text and with the same signs have the same evaluations. -/
theorem evalExpr_eq_of_signs {e1 e2 : Expr} (h1 : e1.lexable = true) (h2 : e2.lexable = true)
    (h : stringOfExpr e1 = stringOfExpr e2) (hsigns : signs e1 = signs e2) (inputs : Inputs)
    (store : Store) (k : Nat) :
    evalExpr inputs store e1 k = evalExpr inputs store e2 k := by
  have hsigned := signed_eq_of_text (text_eq_of_stringOfExpr h1 h2 h) hsigns
  rw [evalExpr_eq_signed, evalExpr_eq_signed, hsigned]

/-! ### Sums of identifiers -/

/-- The expression is a sum or difference of identifiers. -/
def Expr.isSum : Expr → Bool
  | .id _ => true
  | .add e1 e2 | .sub e1 e2 => e1.isSum && e2.isSum
  | _ => false

/-- The identifiers that are added or subtracted, in the order in which they are printed. -/
def Expr.operands : Expr → List String
  | .id vname => [vname]
  | .add e1 e2 | .sub e1 e2 => e1.operands ++ e2.operands
  | _ => []

/-- The identifiers among the words. -/
def PrintedSum.operands : PrintedSum → List String
  | .last (.plain (.id vname)) => [vname]
  | .last _ => []
  | .more (.plain (.id vname)) _ x => vname :: x.operands
  | .more _ _ x => x.operands

/-- All words are identifiers. -/
def PrintedSum.isSum : PrintedSum → Bool
  | .last (.plain (.id _)) => true
  | .last _ => false
  | .more (.plain (.id _)) _ x => x.isSum
  | .more _ _ _ => false

theorem PrintedSum.operands_append (o : SumSign) (y : PrintedSum) :
    ∀ x : PrintedSum, (x.append o y).operands = x.operands ++ y.operands
  | .last (.plain (.id _)) | .last (.plain (.int _)) | .last (.plain (.bool _))
  | .last (.input _) | .last (.not _) | .last (.binary _ _ _) => rfl
  | .more (.plain (.id vname)) _ x => congrArg (vname :: ·) (operands_append o y x)
  | .more (.plain (.int _)) _ x | .more (.plain (.bool _)) _ x | .more (.input _) _ x
  | .more (.not _) _ x | .more (.binary _ _ _) _ x => operands_append o y x

theorem PrintedSum.isSum_append (o : SumSign) (y : PrintedSum) :
    ∀ x : PrintedSum, (x.append o y).isSum = (x.isSum && y.isSum)
  | .last (.plain (.id _)) => rfl
  | .last (.plain (.int _)) | .last (.plain (.bool _)) | .last (.input _) | .last (.not _)
  | .last (.binary _ _ _) => rfl
  | .more (.plain (.id _)) _ x => isSum_append o y x
  | .more (.plain (.int _)) _ _ | .more (.plain (.bool _)) _ _ | .more (.input _) _ _
  | .more (.not _) _ _ | .more (.binary _ _ _) _ _ => rfl

theorem isSum_text (e : Expr) : (text e).isSum = e.isSum := by
  induction e with
  | add e1 e2 ih1 ih2 | sub e1 e2 ih1 ih2 =>
      rw [text, PrintedSum.isSum_append, ih1, ih2]
      rfl
  | id _ | intConst _ | boolConst _ | not _ _ | or _ _ _ _ | and _ _ _ _ | equals _ _ _ _
  | input _ => rfl

theorem operands_text (e : Expr) : (text e).operands = e.operands := by
  induction e with
  | add e1 e2 ih1 ih2 | sub e1 e2 ih1 ih2 =>
      rw [text, PrintedSum.operands_append, ih1, ih2]
      rfl
  | id _ | intConst _ | boolConst _ | not _ _ | or _ _ _ _ | and _ _ _ _ | equals _ _ _ _
  | input _ => rfl

/-- The sum of the values of identifiers with signs. -/
def signedTotal (v : String → BitVec 63) : List (SumSign × String) → BitVec 63
  | [] => 0
  | p :: l => p.1.apply (v p.2) + signedTotal v l

theorem signedTotal_append (v : String → BitVec 63) (l l' : List (SumSign × String)) :
    signedTotal v (l ++ l') = signedTotal v l + signedTotal v l' := by
  induction l with
  | nil => simp [signedTotal]
  | cons p l ih => simp only [List.cons_append, signedTotal, ih, BitVec.add_assoc]

theorem length_signsFrom {e : Expr} (he : e.isSum = true) :
    ∀ o, (signsFrom o e).length = e.operands.length := by
  induction e with
  | id vname => exact fun o => rfl
  | add e1 e2 ih1 ih2 | sub e1 e2 ih1 ih2 =>
      intro o
      obtain ⟨he1, he2⟩ := Bool.and_eq_true_iff.mp he
      simp only [signsFrom, Expr.operands, List.length_append, ih1 he1, ih2 he2]
  | intConst _ | boolConst _ | not _ _ | or _ _ _ _ | and _ _ _ _ | equals _ _ _ _ | input _ =>
      cases he

/-- A sum of identifiers has the value that its signs say. -/
theorem evalExpr_isSum {e : Expr} (he : e.isSum = true) (inputs : Inputs) (v : String → BitVec 63)
    (k : Nat) : ∃ n, evalExpr inputs (fun x => some (.int (v x))) e k = some (.int n, k) ∧
      ∀ o : SumSign, o.apply n = signedTotal v ((signsFrom o e).zip e.operands) := by
  induction e with
  | id vname =>
      refine ⟨v vname, rfl, fun o => ?_⟩
      simp [signsFrom, Expr.operands, signedTotal]
  | add e1 e2 ih1 ih2 =>
      obtain ⟨he1, he2⟩ := Bool.and_eq_true_iff.mp he
      obtain ⟨n1, h1, hn1⟩ := ih1 he1
      obtain ⟨n2, h2, hn2⟩ := ih2 he2
      refine ⟨n1 + n2, by simp [evalExpr, h1, h2, Value.add], fun o => ?_⟩
      rw [signsFrom, Expr.operands, List.zip_append (length_signsFrom he1 o), signedTotal_append,
        ← hn1, ← hn2]
      cases o
      · rfl
      · show -(n1 + n2) = -n1 + -n2
        rw [BitVec.neg_add, BitVec.sub_eq_add_neg]
  | sub e1 e2 ih1 ih2 =>
      obtain ⟨he1, he2⟩ := Bool.and_eq_true_iff.mp he
      obtain ⟨n1, h1, hn1⟩ := ih1 he1
      obtain ⟨n2, h2, hn2⟩ := ih2 he2
      refine ⟨n1 - n2, by simp [evalExpr, h1, h2, Value.sub], fun o => ?_⟩
      rw [signsFrom, Expr.operands, List.zip_append (length_signsFrom he1 o), signedTotal_append,
        ← hn1, ← hn2]
      cases o
      · exact BitVec.sub_eq_add_neg n1 n2
      · show -(n1 - n2) = -n1 + n2
        rw [BitVec.sub_eq_add_neg, BitVec.neg_add, BitVec.sub_eq_add_neg, BitVec.neg_neg]
  | intConst _ | boolConst _ | not _ _ | or _ _ _ _ | and _ _ _ _ | equals _ _ _ _ | input _ =>
      cases he

theorem signedTotal_eq_zero {v : String → BitVec 63} : ∀ {l : List (SumSign × String)},
    (∀ p ∈ l, v p.2 = 0) → signedTotal v l = 0
  | [], _ => rfl
  | p :: l, h => by
      have hp : v p.2 = 0 := h p List.mem_cons_self
      have hl := signedTotal_eq_zero fun q hq => h q (List.mem_cons_of_mem _ hq)
      simp only [signedTotal, hp, hl]
      cases p.1 <;> rfl

/-- Different identifiers tell their signs: the value of one is 1, and of the others 0. -/
theorem signs_eq_of_signedTotal : ∀ {xs : List String} {s s' : List SumSign}, xs.Nodup →
    s.length = xs.length → s'.length = xs.length →
    (∀ v, signedTotal v (s.zip xs) = signedTotal v (s'.zip xs)) → s = s'
  | [], s, s', _, hs, hs', _ => by
      rw [List.eq_nil_of_length_eq_zero hs, List.eq_nil_of_length_eq_zero hs']
  | x :: xs, [], _, _, hs, _, _ => by simp at hs
  | x :: xs, _ :: _, [], _, _, hs', _ => by simp at hs'
  | x :: xs, o :: s, o' :: s', hnodup, hs, hs', h => by
      obtain ⟨hx, hnodup⟩ := List.nodup_cons.mp hnodup
      -- In the store that is 1 at `x` and 0 elsewhere, only the sign of `x` shows.
      have hrest : ∀ t : List SumSign,
          signedTotal (fun y => if y = x then 1 else 0) (t.zip xs) = 0 := by
        intro t
        refine signedTotal_eq_zero fun p hp => if_neg ?_
        rintro rfl
        exact hx (List.of_mem_zip hp).2
      have hone := h fun y => if y = x then 1 else 0
      simp only [List.zip_cons_cons, signedTotal, if_true, hrest] at hone
      have ho : o = o' := by
        cases o <;> cases o' <;> first | rfl | (revert hone; decide)
      subst ho
      -- With equal signs of `x`, its value cancels on both sides.
      have htail : ∀ v, signedTotal v (s.zip xs) = signedTotal v (s'.zip xs) := by
        intro v
        have hv := h v
        simp only [List.zip_cons_cons, signedTotal] at hv
        exact (BitVec.add_right_inj _).mp hv
      rw [signs_eq_of_signedTotal hnodup (Nat.succ.inj hs) (Nat.succ.inj hs') htail]

/-- Sums of different identifiers with one text and the same values have the same signs. -/
theorem signs_eq_of_sameValue {e1 e2 : Expr} (htext : text e1 = text e2) (he : e1.isSum = true)
    (hnodup : e1.operands.Nodup) (h : SameValue e1 e2) : signs e1 = signs e2 := by
  have he2 : e2.isSum = true := by rw [← isSum_text, ← htext, isSum_text, he]
  have hoperands : e2.operands = e1.operands := by
    rw [← operands_text, ← htext, operands_text]
  -- A sum of identifiers reads no input, so any inputs will do.
  have hvalues : ∀ t : Typ, ∃ value : Value, value.typ = t := by
    intro t
    cases t with
    | boolean => exact ⟨.bool false, rfl⟩
    | integer => exact ⟨.int 0, rfl⟩
  choose value hvalue using hvalues
  have inputs : Inputs := ⟨fun _ => value, fun _ => hvalue⟩
  refine signs_eq_of_signedTotal hnodup (length_signsFrom he .plus)
    (hoperands ▸ length_signsFrom he2 .plus) fun v => ?_
  obtain ⟨n1, h1, hn1⟩ := evalExpr_isSum he inputs v 0
  obtain ⟨n2, h2, hn2⟩ := evalExpr_isSum he2 inputs v 0
  have hvalue : n1 = n2 := Value.int.inj (h inputs _ 0 _ _ _ _ h1 h2)
  have htotal1 : n1 = signedTotal v ((signsFrom .plus e1).zip e1.operands) := hn1 .plus
  have htotal2 : n2 = signedTotal v ((signsFrom .plus e2).zip e2.operands) := hn2 .plus
  rw [hoperands] at htotal2
  exact htotal1.symm.trans (hvalue.trans htotal2)

/-- Two expressions with one text have the same value when each word has the same sign in both.
For sums of different identifiers this is also necessary. -/
theorem stringOfExpr_faithful {e1 e2 : Expr} (h1 : e1.lexable = true) (h2 : e2.lexable = true)
    (h : stringOfExpr e1 = stringOfExpr e2) :
    (signs e1 = signs e2 → SameValue e1 e2) ∧
      (e1.isSum = true → e1.operands.Nodup → (SameValue e1 e2 ↔ signs e1 = signs e2)) := by
  have hsufficient : signs e1 = signs e2 → SameValue e1 e2 := by
    intro hsigns inputs store k v1 k1 v2 k2 hv1 hv2
    rw [evalExpr_eq_of_signs h1 h2 h hsigns, hv2] at hv1
    exact (Prod.mk.inj (Option.some.inj hv1)).1.symm
  exact ⟨hsufficient, fun he hnodup =>
    ⟨signs_eq_of_sameValue (text_eq_of_stringOfExpr h1 h2 h) he hnodup, hsufficient⟩⟩

/-- `a - (b - c)`, without its parentheses. -/
def differenceRight : Expr := .sub (.id "a") (.sub (.id "b") (.id "c"))

/-- `(a - b) - c`. -/
def differenceLeft : Expr := .sub (.sub (.id "a") (.id "b")) (.id "c")

theorem stringOfExpr_faithful_difference :
    (signs differenceRight = signs differenceLeft → SameValue differenceRight differenceLeft) ∧
      (differenceRight.isSum = true → differenceRight.operands.Nodup →
        (SameValue differenceRight differenceLeft ↔
          signs differenceRight = signs differenceLeft)) :=
  stringOfExpr_faithful (by decide) (by decide) (by decide)

/-- With 1 for `c` and 0 for the others, the one is 1 and the other -1. -/
theorem stringOfExpr_not_faithful : ¬ ∀ e1 e2 : Expr, e1.lexable = true → e2.lexable = true →
    stringOfExpr e1 = stringOfExpr e2 → SameValue e1 e2 := by
  intro hall
  have hsame := hall differenceRight differenceLeft (by decide) (by decide) (by decide)
  have hsigns : signs differenceRight = signs differenceLeft :=
    signs_eq_of_sameValue rfl rfl (by decide) hsame
  revert hsigns
  decide

end Stabl.SimSee
