import Stabl.Ast.Statements
import Stabl.Lib.Chain
import Stabl.Lib.WordEnds
import Stabl.Proofs.Simulator.BigStep

/-!
# `Stabl.Proofs.Ast.FirstLast`: the first and the last statements on the paths through a tree

A path through a statement tree is the sequence of the statements that one execution goes through,
where an if takes any of its branches and a while makes any number of rounds. The effects of the
statements on a path, one after the other, are what the execution does (`effects_of_bigStep`).
Lists do nothing themselves, so only other statements stand on paths.

`getFirstStatement` and `getLastStatements` look at the first and at the last element of a list
only. So they miss the statements behind, respectively before, an element that contains nothing
but lists, and an if with such a branch (`firstAndLastFound_iff`).
-/

set_option autoImplicit false

namespace Stabl

open TreeAddress WordEnds

variable {ν : Type}

/-! ### Paths -/

mutual

/-- The paths through the statement at `p`. A halt ends the program, so no path goes through
it. -/
def Statement.paths (p : StatementRef) : Statement ν → Language StatementRef
  | .statementList statements => statementsPaths p 0 statements
  | .ifStatement _ thenBody elseBody =>
    {[p]} * (thenBody.paths (0 :: p) + elseBody.paths (1 :: p))
  | .whileStatement _ body => loop p (body.paths (0 :: p))
  | .assignmentStatement _ _ | .expressionStatement _ | .skipStatement => {[p]}
  | .haltStatement => 0

/-- The paths through the elements of a list, from the `i`-th one on. -/
def statementsPaths (p : StatementRef) (i : Nat) : List (Statement ν) → Language StatementRef
  | [] => 1
  | s :: ss => s.paths (i :: p) * statementsPaths p (i + 1) ss

end

/-! ### Executions -/

/-- What a statement itself does, without its parts. -/
def Statement.effect : Statement Name → World → World
  | .assignmentStatement lhs rhs, w => executeAssignmentStatement lhs rhs w
  | .ifStatement condition _ _, w => (evaluate condition w).2
  | .whileStatement condition _, w => (evaluate condition w).2
  | .expressionStatement expression, w => (evaluate expression w).2
  | .statementList _, w | .haltStatement, w | .skipStatement, w => w

/-- What the statement at a position of the tree does. -/
def effectAt (root : Statement Name) (w : World) (q : StatementRef) : World :=
  match root.statementAt q with
  | some s => s.effect w
  | none => w

section
variable {root s : Statement Name} {p : StatementRef}

theorem effectAt_some {w : World} (hs : root.statementAt p = some s) :
    effectAt root w p = s.effect w := by
  rw [effectAt, hs]

theorem Statement.statementAt_cons (hs : root.statementAt p = some s) (i : Nat) :
    root.statementAt (i :: p) = s.children[i]? := by
  show (root.statementAt p).bind (fun t => t.children[i]?) = _
  rw [hs]
  rfl

/-- The effects of the statements on one of the paths lead from `w` to `w'`. -/
def Follows (root : Statement Name) (paths : Language StatementRef) (w w' : World) : Prop :=
  ∃ path ∈ paths, path.foldl (effectAt root) w = w'

theorem Follows.letter {w w' : World} (hs : root.statementAt p = some s)
    (heffect : s.effect w = w') : Follows root {[p]} w w' :=
  ⟨[p], rfl, (effectAt_some hs).trans heffect⟩

theorem Follows.mono {L M : Language StatementRef} {w w' : World} (h : Follows root L w w')
    (hsub : ∀ path ∈ L, path ∈ M) : Follows root M w w' := by
  obtain ⟨path, hpath, heffects⟩ := h
  exact ⟨path, hsub path hpath, heffects⟩

theorem Follows.mul {L M : Language StatementRef} {w w₁ w₂ : World} (h : Follows root L w w₁)
    (h' : Follows root M w₁ w₂) : Follows root (L * M) w w₂ := by
  obtain ⟨path, hpath, rfl⟩ := h
  obtain ⟨path', hpath', rfl⟩ := h'
  exact ⟨path ++ path', Language.append_mem_mul hpath hpath', List.foldl_append⟩

/-- The effects of the statements on a path through the elements of a list lead from `w` to `w'`,
wherever these are the last elements of a list of the tree. -/
def FollowsFrom (root : Statement Name) (sts : List (Statement Name)) (w w' : World) : Prop :=
  ∀ p i, (∀ j, root.statementAt ((i + j) :: p) = sts[j]?) →
    Follows root (statementsPaths p i sts) w w'

theorem FollowsFrom.nil (w : World) : FollowsFrom root [] w w := by
  intro p i _
  exact ⟨[], rfl, rfl⟩

theorem FollowsFrom.cons {sts : List (Statement Name)} {w w₁ w₂ : World}
    (hst : ∀ p, root.statementAt p = some s → Follows root (s.paths p) w w₁)
    (hsts : FollowsFrom root sts w₁ w₂) : FollowsFrom root (s :: sts) w w₂ := by
  intro p i hs
  refine (hst (i :: p) (hs 0)).mul (hsts p (i + 1) fun j => ?_)
  rw [Nat.add_assoc, Nat.add_comm 1 j]
  exact hs (j + 1)

theorem FollowsFrom.whole {sts : List (Statement Name)} {w w' : World}
    (h : FollowsFrom root sts w w') (hs : root.statementAt p = some (.statementList sts)) :
    Follows root (Statement.paths p (.statementList sts)) w w' := by
  refine h p 0 fun j => ?_
  rw [Nat.zero_add]
  exact Statement.statementAt_cons hs j

/-- An execution does what the statements on one path do, one after the other. -/
theorem follows_of_bigStep {Meets : Expression Name → Prop} {w w' : World}
    (h : BigStep Meets s w w') :
    (∀ p, root.statementAt p = some s → Follows root (s.paths p) w w') ∧
      ∀ sts, s = .statementList sts → FollowsFrom root sts w w' := by
  induction h with
  | nil =>
      refine ⟨fun p => (FollowsFrom.nil _).whole, ?_⟩
      rintro sts ⟨rfl⟩
      exact .nil _
  | cons _ _ ihst ihsts =>
      have hlist := FollowsFrom.cons ihst.1 (ihsts.2 _ rfl)
      refine ⟨fun p => hlist.whole, ?_⟩
      rintro sts ⟨rfl⟩
      exact hlist
  | assignment hrhs =>
      refine ⟨fun p hs => .letter hs ?_, fun sts hs => by cases hs⟩
      rw [Statement.effect, executeAssignmentStatement, hrhs]
  | @ifTrue condition thenBody elseBody w w₁ w₂ _ hcond _ ih =>
      refine ⟨fun p hs => ?_, fun sts hs => by cases hs⟩
      have hself : Follows root {[p]} w w₁ := .letter hs (by rw [Statement.effect, hcond])
      have hbranch := ih.1 (0 :: p) (Statement.statementAt_cons hs 0)
      exact hself.mul (hbranch.mono fun path hpath => Or.inl hpath)
  | @ifFalse condition thenBody elseBody w w₁ w₂ _ hcond _ ih =>
      refine ⟨fun p hs => ?_, fun sts hs => by cases hs⟩
      have hself : Follows root {[p]} w w₁ := .letter hs (by rw [Statement.effect, hcond])
      have hbranch := ih.1 (1 :: p) (Statement.statementAt_cons hs 1)
      exact hself.mul (hbranch.mono fun path hpath => Or.inr hpath)
  | @whileTrue condition body w w₁ w₂ w₃ _ hcond _ _ ihbody ihloop =>
      refine ⟨fun p hs => ?_, fun sts hs => by cases hs⟩
      have hself : Follows root {[p]} w w₁ := .letter hs (by rw [Statement.effect, hcond])
      have hbody := ihbody.1 (0 :: p) (Statement.statementAt_cons hs 0)
      -- The test, a round, and what the loop does after it.
      have hround := (hself.mul hbody).mul (ihloop.1 p hs)
      rw [Statement.paths, loop_eq]
      exact hround.mono fun path hpath => Or.inr hpath
  | @whileFalse condition body w w₁ _ hcond =>
      refine ⟨fun p hs => ?_, fun sts hs => by cases hs⟩
      have hself : Follows root {[p]} w w₁ := .letter hs (by rw [Statement.effect, hcond])
      rw [Statement.paths, loop_eq]
      exact hself.mono fun path hpath => Or.inl hpath
  | expression he =>
      refine ⟨fun p hs => .letter hs ?_, fun sts hs => by cases hs⟩
      rw [Statement.effect, he]
  | skip => exact ⟨fun p hs => .letter hs rfl, fun sts hs => by cases hs⟩

end

/-- An execution of a statement does what the statements on one of its paths do, one after the
other. -/
theorem effects_of_bigStep {Meets : Expression Name → Prop} {s : Statement Name} {w w' : World}
    (h : BigStep Meets s w w') : ∃ path ∈ s.paths [], path.foldl (effectAt s) w = w' :=
  (follows_of_bigStep h).1 [] rfl

/-! ### What the methods should find -/

mutual

/-- The tree contains no statement but lists. -/
def Statement.isEmpty : Statement ν → Bool
  | .statementList statements => statementsEmpty statements
  | _ => false

/-- The trees contain no statement but lists. -/
def statementsEmpty : List (Statement ν) → Bool
  | [] => true
  | s :: ss => s.isEmpty && statementsEmpty ss

end

/-- `getFirstStatement` returns the statement that is executed first, and `null` only for a tree
without statements other than lists. -/
structure FirstFound (p : StatementRef) (s : Statement ν) : Prop where
  first : ∀ path ∈ s.paths p, path.head? = s.getFirstStatement p
  null : s.getFirstStatement p = none → s.isEmpty = true

/-- `getLastStatements` contains every statement that is the last one on a path, and is empty only
for a tree without statements other than lists. -/
structure LastFound (p : StatementRef) (s : Statement ν) : Prop where
  last : ∀ path ∈ s.paths p, ∀ q ∈ path.getLast?, q ∈ s.getLastStatements p
  empty : s.getLastStatements p = [] → s.isEmpty = true

/-- At the front, no list begins with an empty element, unless all its elements are empty. The
tree is at its front, and the first element of a list at the front. -/
def Statement.frontFilled : Statement ν → Bool
  | .statementList (s :: ss) => s.frontFilled && (!s.isEmpty || statementsEmpty ss)
  | _ => true

mutual

/-- At the end, no list ends with an empty element, unless all its elements are empty, and no if
has an empty branch. The tree is at its end, and so are the last element of a list at the end and
the branches of an if at the end. -/
def Statement.endFilled : Statement ν → Bool
  | .statementList statements => endFilledOf statements
  | .ifStatement _ thenBody elseBody =>
    !thenBody.isEmpty && !elseBody.isEmpty && thenBody.endFilled && elseBody.endFilled
  | _ => true

/-- The last element of a list is filled at its end, and the elements behind one that is not empty
are not all empty. -/
def endFilledOf : List (Statement ν) → Bool
  | [] => true
  | [s] => s.endFilled
  | s :: t :: ss => endFilledOf (t :: ss) && (!statementsEmpty (t :: ss) || s.isEmpty)

end

/-! ### Empty trees -/

mutual

/-- Nothing is executed in an empty tree. -/
theorem Statement.paths_of_isEmpty : ∀ {s : Statement ν} {p : StatementRef},
    s.isEmpty = true → s.paths p = 1
  | .statementList _, _, h => statementsPaths_of_empty h

theorem statementsPaths_of_empty : ∀ {ss : List (Statement ν)} {p : StatementRef} {i : Nat},
    statementsEmpty ss = true → statementsPaths p i ss = 1
  | [], _, _, _ => rfl
  | s :: ss, p, i, h => by
      rw [statementsEmpty, Bool.and_eq_true] at h
      rw [statementsPaths, s.paths_of_isEmpty h.1, statementsPaths_of_empty h.2, one_mul]

end

mutual

/-- Something is executed on every path through a tree that is not empty. -/
theorem Statement.nil_notMem_paths : ∀ {s : Statement ν} {p : StatementRef},
    s.isEmpty = false → [] ∉ s.paths p
  | .statementList _, _, h => nil_notMem_statementsPaths h
  | .ifStatement _ _ _, _, _ => nil_notMem_letter_mul
  | .whileStatement _ _, _, _ => nil_notMem_loop
  | .assignmentStatement _ _, _, _ | .expressionStatement _, _, _ | .skipStatement, _, _ =>
      fun h => by cases h
  | .haltStatement, _, _ => Language.notMem_zero []

theorem nil_notMem_statementsPaths : ∀ {ss : List (Statement ν)} {p : StatementRef} {i : Nat},
    statementsEmpty ss = false → [] ∉ statementsPaths p i ss
  | s :: ss, p, i, h => by
      rw [statementsEmpty, Bool.and_eq_false_iff] at h
      rw [statementsPaths, nil_mem_mul]
      intro ⟨hs, hss⟩
      cases h with
      | inl h => exact s.nil_notMem_paths h hs
      | inr h => exact nil_notMem_statementsPaths h hss

end

theorem Statement.nil_mem_paths {s : Statement ν} {p : StatementRef} :
    [] ∈ s.paths p ↔ s.isEmpty = true := by
  cases hs : s.isEmpty with
  | false => simp [s.nil_notMem_paths hs]
  | true => simp [s.paths_of_isEmpty hs]

mutual

/-- There is a path through every tree that the grammar builds. -/
theorem Statement.exists_path : ∀ {s : Statement ν} {p : StatementRef}, s.written = true →
    ∃ path, path ∈ s.paths p
  | .statementList _, _, h => exists_statementsPath h
  | .ifStatement _ thenBody elseBody, p, h => by
      rw [Statement.written, Bool.and_eq_true] at h
      obtain ⟨path, hpath⟩ := thenBody.exists_path h.1
      exact ⟨p :: path, mem_letter_mul.mpr ⟨path, Or.inl hpath, rfl⟩⟩
  | .whileStatement _ _, p, _ => ⟨[p], mem_loop_self⟩
  | .assignmentStatement _ _, p, _ => ⟨[p], rfl⟩
  | .expressionStatement _, p, _ => ⟨[p], rfl⟩

theorem exists_statementsPath : ∀ {ss : List (Statement ν)} {p : StatementRef} {i : Nat},
    statementsWritten ss = true → ∃ path, path ∈ statementsPaths p i ss
  | [], _, _, _ => ⟨[], rfl⟩
  | s :: ss, p, i, h => by
      rw [statementsWritten, Bool.and_eq_true] at h
      obtain ⟨path, hpath⟩ := s.exists_path h.1
      obtain ⟨path', hpath'⟩ := exists_statementsPath h.2
      exact ⟨path ++ path', Language.append_mem_mul hpath hpath'⟩

end

/-! ### The first statement -/

theorem Statement.getFirstStatement_of_isEmpty : ∀ {s : Statement ν} {p : StatementRef},
    s.isEmpty = true → s.getFirstStatement p = none
  | .statementList [], _, _ => rfl
  | .statementList (s :: ss), p, h => by
      rw [isEmpty, statementsEmpty, Bool.and_eq_true] at h
      exact s.getFirstStatement_of_isEmpty h.1

/-- Every path begins with the statement that `getFirstStatement` returns, if the front is
filled. -/
theorem Statement.beginsWith_paths : ∀ {s : Statement ν} {p : StatementRef},
    s.frontFilled = true → BeginsWith (s.paths p) (s.getFirstStatement p)
  | .statementList [], _, _ => by
      intro path hpath
      obtain rfl : path = [] := hpath
      rfl
  | .statementList (s :: ss), p, h => by
      rw [frontFilled, Bool.and_eq_true, Bool.or_eq_true, Bool.not_eq_true'] at h
      show BeginsWith (s.paths (0 :: p) * statementsPaths p 1 ss) (s.getFirstStatement (0 :: p))
      cases hs : s.isEmpty with
      | false => exact (s.beginsWith_paths h.1).mul (s.nil_notMem_paths hs)
      | true =>
          -- All elements are empty, so nothing is executed.
          have hss : statementsEmpty ss = true := by simpa [hs] using h.2
          rw [statementsPaths_of_empty hss, mul_one]
          exact s.beginsWith_paths h.1
  | .ifStatement _ _ _, _, _ => beginsWith_letter_mul
  | .whileStatement _ _, _, _ => beginsWith_loop
  | .assignmentStatement _ _, _, _ | .expressionStatement _, _, _ | .skipStatement, _, _ => by
      intro path hpath
      obtain rfl : path = [_] := hpath
      rfl
  | .haltStatement, _, _ => fun path hpath => absurd hpath (Language.notMem_zero path)

/-- `getFirstStatement` returns `null` for empty trees only, just when the front is filled. -/
theorem Statement.null_iff_frontFilled : ∀ {s : Statement ν} {p : StatementRef},
    (s.getFirstStatement p = none → s.isEmpty = true) ↔ s.frontFilled = true
  | .statementList [], _ => by simp [isEmpty, statementsEmpty, frontFilled]
  | .statementList (s :: ss), p => by
      have ih := s.null_iff_frontFilled (p := 0 :: p)
      rw [getFirstStatement, isEmpty, statementsEmpty, frontFilled, Bool.and_eq_true,
        Bool.and_eq_true, Bool.or_eq_true, Bool.not_eq_true']
      constructor
      · intro h
        refine ⟨ih.mp fun hnone => (h hnone).1, ?_⟩
        cases hs : s.isEmpty with
        | false => exact Or.inl rfl
        | true => exact Or.inr (h (s.getFirstStatement_of_isEmpty hs)).2
      · intro ⟨hfront, hempty⟩ hnone
        have hs := ih.mpr hfront hnone
        exact ⟨hs, by simpa [hs] using hempty⟩
  | .ifStatement _ _ _, _ => by simp [getFirstStatement, frontFilled]
  | .whileStatement _ _, _ => by simp [getFirstStatement, frontFilled]
  | .assignmentStatement _ _, _ | .expressionStatement _, _ | .haltStatement, _
  | .skipStatement, _ => by simp [getFirstStatement, frontFilled]

/-- `getFirstStatement` finds the first statement just when the front is filled. -/
theorem firstFound_iff (p : StatementRef) (s : Statement ν) :
    FirstFound p s ↔ s.frontFilled = true := by
  constructor
  · intro h
    exact s.null_iff_frontFilled.mp h.null
  · intro h
    exact ⟨s.beginsWith_paths h, s.null_iff_frontFilled.mpr h⟩

/-! ### The last statements -/

theorem Statement.statementAt_child {s t u : Statement ν} {i : Nat} {r : StatementRef}
    (ht : s.children[i]? = some t) (hu : t.statementAt r = some u) :
    s.statementAt (r ++ [i]) = some u := by
  rw [Statement.statementAt, nodeAt_append]
  show (s.children[i]?).bind (nodeAt Statement.children · r) = some u
  rw [ht]
  exact hu

mutual

/-- A path goes through statements of its tree that are no lists. -/
theorem Statement.statementAt_of_mem_path : ∀ {s : Statement ν} {p : StatementRef}
    {path : List StatementRef}, path ∈ s.paths p → ∀ q ∈ path,
      ∃ r u, q = r ++ p ∧ s.statementAt r = some u ∧ u.isList = false
  | .statementList statements, p, path, hpath, q, hq => by
      obtain ⟨j, t, r, u, ht, hr, hu, hlist⟩ := statementAt_of_mem_statementsPath hpath q hq
      rw [Nat.zero_add] at hr
      exact ⟨r ++ [j], u, by simp [hr], Statement.statementAt_child ht hu, hlist⟩
  | .ifStatement condition thenBody elseBody, p, path, hpath, q, hq => by
      obtain ⟨branch, hbranch, rfl⟩ := mem_letter_mul.mp hpath
      rcases List.mem_cons.mp hq with rfl | hq
      · exact ⟨[], _, rfl, rfl, rfl⟩
      rcases hbranch with hbranch | hbranch
      · obtain ⟨r, u, hr, hu, hlist⟩ := thenBody.statementAt_of_mem_path hbranch q hq
        exact ⟨r ++ [0], u, by simp [hr], Statement.statementAt_child rfl hu, hlist⟩
      · obtain ⟨r, u, hr, hu, hlist⟩ := elseBody.statementAt_of_mem_path hbranch q hq
        exact ⟨r ++ [1], u, by simp [hr], Statement.statementAt_child rfl hu, hlist⟩
  | .whileStatement condition body, p, path, hpath, q, hq => by
      rcases eq_or_mem_of_mem_loop hpath hq with rfl | ⟨round, hround, hq⟩
      · exact ⟨[], _, rfl, rfl, rfl⟩
      · obtain ⟨r, u, hr, hu, hlist⟩ := body.statementAt_of_mem_path hround q hq
        exact ⟨r ++ [0], u, by simp [hr], Statement.statementAt_child rfl hu, hlist⟩
  | .assignmentStatement _ _, p, path, hpath, q, hq
  | .expressionStatement _, p, path, hpath, q, hq | .skipStatement, p, path, hpath, q, hq => by
      obtain rfl : path = [p] := hpath
      rw [List.mem_singleton] at hq
      exact ⟨[], _, hq, rfl, rfl⟩

theorem statementAt_of_mem_statementsPath : ∀ {ss : List (Statement ν)} {p : StatementRef}
    {i : Nat} {path : List StatementRef}, path ∈ statementsPaths p i ss → ∀ q ∈ path,
      ∃ j t r u, ss[j]? = some t ∧ q = r ++ (i + j) :: p ∧ t.statementAt r = some u ∧
        u.isList = false
  | [], p, i, path, hpath, q, hq => by
      obtain rfl : path = [] := hpath
      cases hq
  | s :: ss, p, i, path, hpath, q, hq => by
      obtain ⟨before, hbefore, behind, hbehind, rfl⟩ := Language.mem_mul.mp hpath
      rcases List.mem_append.mp hq with hq | hq
      · obtain ⟨r, u, hr, hu, hlist⟩ := s.statementAt_of_mem_path hbefore q hq
        exact ⟨0, s, r, u, rfl, hr, hu, hlist⟩
      · obtain ⟨j, t, r, u, ht, hr, hu, hlist⟩ :=
          statementAt_of_mem_statementsPath hbehind q hq
        refine ⟨j + 1, t, r, u, ht, ?_, hu, hlist⟩
        rw [hr, Nat.add_assoc, Nat.add_comm 1 j]

end

theorem Statement.suffix_of_mem_path {s : Statement ν} {p q : StatementRef}
    {path : List StatementRef} (hpath : path ∈ s.paths p) (hq : q ∈ path) : p <:+ q := by
  obtain ⟨r, _, rfl, _⟩ := s.statementAt_of_mem_path hpath q hq
  exact List.suffix_append r p

mutual

/-- A statement of `getLastStatements` is the last one on some path. -/
theorem Statement.exists_path_of_last : ∀ {s : Statement ν} {p q : StatementRef},
    s.written = true → q ∈ s.getLastStatements p → ∃ path ∈ s.paths p, q ∈ path.getLast?
  | .statementList _, _, _, h, hq => exists_statementsPath_of_last h hq
  | .ifStatement _ thenBody elseBody, p, q, h, hq => by
      rw [Statement.written, Bool.and_eq_true] at h
      rw [Statement.getLastStatements, List.mem_append] at hq
      have ⟨branch, hbranch, hlast⟩ : ∃ branch ∈ thenBody.paths (0 :: p) + elseBody.paths (1 :: p),
          q ∈ branch.getLast? := by
        cases hq with
        | inl hq =>
            obtain ⟨branch, hbranch, hlast⟩ := thenBody.exists_path_of_last h.1 hq
            exact ⟨branch, Or.inl hbranch, hlast⟩
        | inr hq =>
            obtain ⟨branch, hbranch, hlast⟩ := elseBody.exists_path_of_last h.2 hq
            exact ⟨branch, Or.inr hbranch, hlast⟩
      refine ⟨p :: branch, mem_letter_mul.mpr ⟨branch, hbranch, rfl⟩, ?_⟩
      cases branch with
      | nil => cases hlast
      | cons q' branch => exact hlast
  | .whileStatement _ _, p, q, _, hq => by
      rw [Statement.getLastStatements, List.mem_singleton] at hq
      exact ⟨[p], mem_loop_self, by simp [hq]⟩
  | .assignmentStatement _ _, p, q, _, hq | .expressionStatement _, p, q, _, hq => by
      rw [Statement.getLastStatements, List.mem_singleton] at hq
      exact ⟨[p], rfl, by simp [hq]⟩

theorem exists_statementsPath_of_last : ∀ {ss : List (Statement ν)} {p q : StatementRef} {i : Nat},
    statementsWritten ss = true → q ∈ lastStatementsOf p i ss →
      ∃ path ∈ statementsPaths p i ss, q ∈ path.getLast?
  | [s], p, q, i, h, hq => by
      rw [statementsWritten, Bool.and_eq_true] at h
      obtain ⟨path, hpath, hlast⟩ := s.exists_path_of_last h.1 hq
      rw [statementsPaths, statementsPaths, mul_one]
      exact ⟨path, hpath, hlast⟩
  | s :: t :: ss, p, q, i, h, hq => by
      rw [statementsWritten, Bool.and_eq_true] at h
      obtain ⟨before, hbefore⟩ := s.exists_path h.1
      obtain ⟨path, hpath, hlast⟩ := exists_statementsPath_of_last h.2 hq
      have hne : path ≠ [] := by
        rintro rfl
        cases hlast
      refine ⟨before ++ path, Language.append_mem_mul hbefore hpath, ?_⟩
      rwa [List.getLast?_append_of_ne_nil _ hne]

end

theorem Statement.suffix_of_mem_last {s : Statement ν} {p q : StatementRef}
    (h : s.written = true) (hq : q ∈ s.getLastStatements p) : p <:+ q := by
  obtain ⟨path, hpath, hlast⟩ := s.exists_path_of_last h hq
  exact s.suffix_of_mem_path hpath (List.mem_of_mem_getLast? hlast)

mutual

theorem Statement.getLastStatements_of_isEmpty : ∀ {s : Statement ν} {p : StatementRef},
    s.isEmpty = true → s.getLastStatements p = []
  | .statementList _, _, h => lastStatementsOf_of_empty h

theorem lastStatementsOf_of_empty : ∀ {ss : List (Statement ν)} {p : StatementRef} {i : Nat},
    statementsEmpty ss = true → lastStatementsOf p i ss = []
  | [], _, _, _ => rfl
  | [s], p, i, h => by
      rw [statementsEmpty, Bool.and_eq_true] at h
      exact s.getLastStatements_of_isEmpty h.1
  | s :: t :: ss, p, i, h => by
      rw [statementsEmpty, Bool.and_eq_true] at h
      rw [lastStatementsOf]
      exact lastStatementsOf_of_empty h.2

end

/-- The paths through a tree that is not empty have last statements, so one set is not empty. -/
theorem Statement.endsIn_nothing {s : Statement ν} {p : StatementRef} (h : s.written = true) :
    EndsIn (s.paths p) ∅ ↔ s.isEmpty = true := by
  cases hs : s.isEmpty with
  | true =>
      rw [s.paths_of_isEmpty hs]
      simp [EndsIn]
  | false =>
      obtain ⟨path, hpath⟩ := s.exists_path (p := p) h
      have hne : path ≠ [] := fun hnil => s.nil_notMem_paths hs (hnil ▸ hpath)
      simp [not_endsIn_empty hpath hne]

/-- The last statements of an if are those of its branches. So none of the branches may be
empty. -/
theorem endsIn_ifStatement {condition : Expression ν} {thenBody elseBody : Statement ν}
    {p : StatementRef} (hthen : thenBody.written = true) (helse : elseBody.written = true) :
    EndsIn ((Statement.ifStatement condition thenBody elseBody).paths p)
        {q | q ∈ (Statement.ifStatement condition thenBody elseBody).getLastStatements p} ↔
      thenBody.isEmpty = false ∧ elseBody.isEmpty = false ∧
        EndsIn (thenBody.paths (0 :: p)) {q | q ∈ thenBody.getLastStatements (0 :: p)} ∧
        EndsIn (elseBody.paths (1 :: p)) {q | q ∈ elseBody.getLastStatements (1 :: p)} := by
  have hthenLast : ∀ q ∈ thenBody.getLastStatements (0 :: p), 0 :: p <:+ q :=
    fun q => thenBody.suffix_of_mem_last hthen
  have helseLast : ∀ q ∈ elseBody.getLastStatements (1 :: p), 1 :: p <:+ q :=
    fun q => elseBody.suffix_of_mem_last helse
  have hself : p ∉ thenBody.getLastStatements (0 :: p) ++ elseBody.getLastStatements (1 :: p) := by
    intro hp
    rcases List.mem_append.mp hp with hp | hp
    · exact cons_not_suffix 0 p (hthenLast p hp)
    · exact cons_not_suffix 1 p (helseLast p hp)
  have hapart : ∀ q : StatementRef, 0 :: p <:+ q → ¬ 1 :: p <:+ q := by
    intro q h0 h1
    have hsame := (List.suffix_of_suffix_length_le h0 h1 le_rfl).eq_of_length rfl
    cases hsame
  -- A path that ends with the if itself comes from an empty branch.
  have hempty : ([] ∈ thenBody.paths (0 :: p) + elseBody.paths (1 :: p) →
      p ∈ thenBody.getLastStatements (0 :: p) ++ elseBody.getLastStatements (1 :: p)) ↔
        thenBody.isEmpty = false ∧ elseBody.isEmpty = false := by
    rw [Language.mem_add, thenBody.nil_mem_paths, elseBody.nil_mem_paths]
    simp [hself]
  -- A path through one branch ends in no statement of the other branch.
  have hthenEnds : EndsIn (thenBody.paths (0 :: p))
      {q | q ∈ thenBody.getLastStatements (0 :: p) ++ elseBody.getLastStatements (1 :: p)} ↔
        EndsIn (thenBody.paths (0 :: p)) {q | q ∈ thenBody.getLastStatements (0 :: p)} := by
    refine endsIn_congr fun path hpath q hq => ?_
    have hnot : q ∉ elseBody.getLastStatements (1 :: p) := fun hlast =>
      hapart q (thenBody.suffix_of_mem_path hpath hq) (helseLast q hlast)
    simp [hnot]
  have helseEnds : EndsIn (elseBody.paths (1 :: p))
      {q | q ∈ thenBody.getLastStatements (0 :: p) ++ elseBody.getLastStatements (1 :: p)} ↔
        EndsIn (elseBody.paths (1 :: p)) {q | q ∈ elseBody.getLastStatements (1 :: p)} := by
    refine endsIn_congr fun path hpath q hq => ?_
    have hnot : q ∉ thenBody.getLastStatements (0 :: p) := fun hlast =>
      hapart q (hthenLast q hlast) (elseBody.suffix_of_mem_path hpath hq)
    simp [hnot]
  rw [Statement.paths, Statement.getLastStatements, endsIn_letter_mul, endsIn_add, hthenEnds,
    helseEnds, Set.mem_ofPred_eq, hempty, and_assoc]

mutual

theorem Statement.endsIn_paths : ∀ {s : Statement ν} {p : StatementRef}, s.written = true →
    (EndsIn (s.paths p) {q | q ∈ s.getLastStatements p} ↔ s.endFilled = true)
  | .statementList _, _, h => endsIn_statementsPaths h
  | .ifStatement _ thenBody elseBody, p, h => by
      rw [Statement.written, Bool.and_eq_true] at h
      rw [endsIn_ifStatement h.1 h.2, thenBody.endsIn_paths h.1, elseBody.endsIn_paths h.2,
        Statement.endFilled]
      simp [and_assoc]
  | .whileStatement _ _, p, _ => by
      rw [Statement.paths, endsIn_loop]
      simp [Statement.getLastStatements, Statement.endFilled]
  | .assignmentStatement _ _, p, _ | .expressionStatement _, p, _ => by
      rw [Statement.paths, endsIn_letter]
      simp [Statement.getLastStatements, Statement.endFilled]

theorem endsIn_statementsPaths : ∀ {ss : List (Statement ν)} {p : StatementRef} {i : Nat},
    statementsWritten ss = true →
      (EndsIn (statementsPaths p i ss) {q | q ∈ lastStatementsOf p i ss} ↔ endFilledOf ss = true)
  | [], p, i, _ => by simp [EndsIn, statementsPaths, endFilledOf]
  | [s], p, i, h => by
      rw [statementsWritten, Bool.and_eq_true] at h
      rw [statementsPaths, statementsPaths, mul_one]
      exact s.endsIn_paths h.1
  | s :: t :: ss, p, i, h => by
      rw [statementsWritten, Bool.and_eq_true] at h
      have ih := endsIn_statementsPaths (p := p) (i := i + 1) h.2
      rw [statementsPaths, lastStatementsOf, endFilledOf]
      cases htail : statementsEmpty (t :: ss) with
      | false =>
          rw [endsIn_mul (s.exists_path h.1) (nil_notMem_statementsPaths htail), ih]
          simp
      | true =>
          -- No last statement is found behind `s`, so there must not be one in `s`.
          have hlast := lastStatementsOf_of_empty (p := p) (i := i + 1) htail
          have hpaths := statementsPaths_of_empty (p := p) (i := i + 1) htail
          rw [hlast, hpaths] at ih ⊢
          have hfilled : endFilledOf (t :: ss) = true := ih.mp (by simp [EndsIn])
          have hnothing := s.endsIn_nothing (p := i :: p) h.1
          simpa [hfilled] using hnothing

end

/-- `getLastStatements` finds the last statements just when the end is filled. -/
theorem lastFound_iff (p : StatementRef) {s : Statement ν} (h : s.written = true) :
    LastFound p s ↔ s.endFilled = true := by
  rw [← s.endsIn_paths (p := p) h]
  constructor
  · exact fun hlast => hlast.last
  · intro hends
    refine ⟨hends, fun hnone => ?_⟩
    rw [hnone] at hends
    have hnothing : EndsIn (s.paths p) ∅ := by simpa using hends
    exact (s.endsIn_nothing h).mp hnothing

/-- The methods find the first and the last statements of a tree that the grammar builds, just
when the tree is filled at its front and at its end. -/
theorem firstAndLastFound_iff (p : StatementRef) (s : Statement ν) (h : s.written = true) :
    FirstFound p s ∧ LastFound p s ↔ s.frontFilled = true ∧ s.endFilled = true := by
  rw [firstFound_iff, lastFound_iff p h]

/-- An if and a while with assignments in them. -/
def dimmer : Statement Path :=
  .statementList [
    .ifStatement (.name ["on"])
      (.assignmentStatement ["level"] (.constant (.integerConstant 1)))
      (.assignmentStatement ["level"] (.constant (.integerConstant 0))),
    .whileStatement (.name ["on"])
      (.assignmentStatement ["on"] (.constant (.booleanConstant false)))]

theorem firstAndLastFound_iff_dimmer : FirstFound [] dimmer ∧ LastFound [] dimmer :=
  (firstAndLastFound_iff [] dimmer (by decide)).mpr (by decide)

/-- An empty block, and the entry of the lamp: an if with an empty else-branch. -/
def lampBehindBlock : Statement Path := .statementList [.statementList [], lamp.root.entry]

/-- `getFirstStatement` returns `null`, and the if is not among the last statements. -/
theorem not_firstAndLastFound_lampBehindBlock : lampBehindBlock.written = true ∧
    ¬ FirstFound [] lampBehindBlock ∧ ¬ LastFound [] lampBehindBlock := by
  refine ⟨by decide, fun hfirst => ?_, fun hlast => ?_⟩
  · have hnull := hfirst.null rfl
    cases hnull
  · -- The path on which the lamp is off ends with the if.
    have hif : [[1]] ∈ Statement.paths [1] lamp.root.entry :=
      mem_letter_mul.mpr ⟨[], Or.inr rfl, rfl⟩
    have hpath : [[1]] ∈ lampBehindBlock.paths [] := by
      show [] ++ ([[1]] ++ []) ∈ 1 * (Statement.paths [1] lamp.root.entry * 1)
      exact Language.append_mem_mul rfl (Language.append_mem_mul hif rfl)
    have hmem := hlast.last _ hpath [1] rfl
    revert hmem
    decide

end Stabl
