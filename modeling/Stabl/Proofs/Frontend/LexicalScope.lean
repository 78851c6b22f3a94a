import Stabl.Proofs.Ast.Environments
import Stabl.Proofs.Frontend.Parsed
import Stabl.Proofs.Frontend.Scoping
import Stabl.Proofs.Frontend.TypeIdentity

/-!
# `Stabl.Proofs.Frontend.LexicalScope`: lexical scope

The entry and the exit code of a state is checked in the environment of the state, which is
nested, so a lookup there finds the innermost declaration of a name (`lookup_getEnvironment_iff`).
But `typecheckName` looks at the name first. The name of the statechart is taken to be the
beginning of a fully qualified name, and then nothing is behind it. So a variable that is in
scope is found exactly when the statechart has another name (`bindsInnermost_iff`).
-/

set_option autoImplicit false

namespace Stabl

open Result TreeAddress

/-! ### The environment of a state -/

section
variable {ν : Type} {root : State ν}

/-- A state on the chain of `p` declares the variable `x`. -/
def InScope (root : State ν) (p : StateRef) (x : String) : Prop :=
  ∃ q, q <:+ p ∧ ∃ d ∈ root.declarationsAt q, d.vname = x

/-- `r` is the variable `x` in the innermost state on the chain of `p` that declares it, and `d`
its declaration. -/
structure InnermostDeclaration (root : State ν) (p : StateRef) (x : String) (r : DeclarationRef)
    (d : Declaration) : Prop where
  onChain : r.state <:+ p
  declared : d ∈ root.declarationsAt r.state ∧ d.vname = x ∧ r.vname = x
  innermost : ∀ q, q <:+ p → (∃ d' ∈ root.declarationsAt q, d'.vname = x) → q <:+ r.state

/-- The environment of a state declares the variables of the states on its chain. -/
theorem declares_getEnvironment {p : StateRef} {r : DeclarationRef} {d : Declaration} :
    (getEnvironment root p).Declares r d ↔
      d.vname = r.vname ∧ r.state <:+ p ∧ d ∈ root.declarationsAt r.state := by
  constructor
  · rintro ⟨f, hf, hstate, hd, hname⟩
    have ⟨hsuffix, hdecs⟩ := frame_getEnvironment hf
    rw [hdecs, hstate] at hd
    exact ⟨hname, hstate ▸ hsuffix, hd⟩
  · rintro ⟨hname, hsuffix, hd⟩
    have hframe : ∃ f ∈ getEnvironment root p, f.state = r.state :=
      exists_frame_getEnvironment hsuffix
    have ⟨f, hf, hstate⟩ := hframe
    have hdecs := (frame_getEnvironment hf).2
    rw [hstate] at hdecs
    exact ⟨f, hf, hstate, hdecs ▸ hd, hname⟩

/-- The frames of the environment of a state climb the tree. -/
theorem nested_getEnvironment (p : StateRef) : (getEnvironment root p).Nested := by
  constructor
  · induction p with
    | nil => exact List.pairwise_singleton _ _
    | cons i p ih =>
        refine List.pairwise_cons.mpr ⟨fun g hg => ?_, ih⟩
        exact properAncestor_cons.mpr (frame_getEnvironment hg).1
  · intro f hf
    rw [(frame_getEnvironment hf).2]
    exact root.nodup_declarationsAt f.state

/-- A lookup in the environment of a state finds the innermost declaration, and no other. -/
theorem lookup_getEnvironment_iff {p : StateRef} {x : String} {r : DeclarationRef}
    {d : Declaration} :
    (getEnvironment root p).lookup x = some (r, d) ↔ InnermostDeclaration root p x r d := by
  rw [(nested_getEnvironment p).lookup_eq_some_iff]
  simp only [declares_getEnvironment]
  constructor
  · rintro ⟨⟨hname, hsuffix, hd⟩, hx, hinner⟩
    refine ⟨hsuffix, ⟨hd, hname.trans hx, hx⟩, ?_⟩
    rintro q hq ⟨d', hd', hname'⟩
    exact hinner ⟨q, x⟩ d' ⟨hname', hq, hd'⟩ rfl
  · rintro ⟨hsuffix, ⟨hd, hname, hx⟩, hinner⟩
    refine ⟨⟨hname.trans hx.symm, hsuffix, hd⟩, hx, ?_⟩
    rintro r' d' ⟨hname', hsuffix', hd'⟩ hx'
    exact hinner r'.state hsuffix' ⟨d', hd', hname'.trans hx'⟩

/-- A name that is declared in some frame is found. -/
theorem Environment.exists_lookup {env : Environment} {r : DeclarationRef} {d : Declaration}
    (h : env.Declares r d) : ∃ known, env.lookup r.vname = some known := by
  induction env with
  | nil =>
      obtain ⟨f, hf, _⟩ := h
      cases hf
  | cons g env ih =>
      rw [Environment.lookup]
      split
      · exact ⟨_, rfl⟩
      · rename_i hnone
        obtain ⟨f, hf, hstate, hd, hname⟩ := h
        rcases List.mem_cons.mp hf with rfl | hf
        · exact absurd hname (by simpa using List.find?_eq_none.mp hnone d hd)
        · exact ih ⟨f, hf, hstate, hd, hname⟩

/-- A name that is in scope has an innermost declaration. -/
theorem exists_innermostDeclaration {p : StateRef} {x : String} (h : InScope root p x) :
    ∃ r d, InnermostDeclaration root p x r d := by
  have ⟨q, hq, d, hd, hname⟩ := h
  have hdeclares : (getEnvironment root p).Declares ⟨q, x⟩ d :=
    declares_getEnvironment.mpr ⟨hname, hq, hd⟩
  have ⟨known, hknown⟩ := Environment.exists_lookup hdeclares
  exact ⟨known.1, known.2, lookup_getEnvironment_iff.mp hknown⟩

end

/-! ### Names of variables -/

/-- The name `x`, in the entry or the exit code of the state `p`, is bound to the innermost
declaration. -/
def BindsInnermost (d : Declared) (p : StateRef) (x : String) : Prop :=
  ∃ r dec type, InnermostDeclaration d.root p x r dec ∧
    d.typecheckName [x] (getEnvironment d.root p) = .ok (⟨[x], r⟩, type)

/-- A variable that is in scope is bound to its innermost declaration, exactly when it is not
named like the statechart. -/
theorem bindsInnermost_iff {statechart : Statechart} {d : Declared}
    (hd : typecheckDeclarations statechart = .ok d) {p : StateRef} {x : String}
    (hx : InScope d.root p x) : BindsInnermost d p x ↔ x ≠ d.root.name := by
  constructor
  · rintro ⟨r, dec, type, _, hname⟩ heq
    -- The name is taken to be fully qualified, and it ends before a variable.
    have hlocate : d.locateName [x] (getEnvironment d.root p) = none := by
      rw [Declared.locateName, if_pos heq]
      rfl
    rw [Declared.typecheckName, if_neg (by simp), hlocate] at hname
    cases hname
  · intro hne
    obtain ⟨r, dec, hinner⟩ := exists_innermostDeclaration hx
    obtain ⟨type, htype⟩ := Declared.typecheckDeclaration_of_mem hd hinner.declared.1
    refine ⟨r, dec, type, hinner, typecheckName_variable (x := x) ?_ htype⟩
    rw [Declared.locateName, if_neg hne, lookup_getEnvironment_iff.mpr hinner]
    rfl

/-! ### A variable named like the statechart -/

/-- A lantern in a room, and a variable of the room that says whether it is lit. -/
def lantern : WrittenStatechart where
  types := []
  events := []
  functions := []
  root := .mk ⟨"Lantern", by decide, by decide⟩ .unmarked [] none none
    [.mk ⟨"Room", by decide, by decide⟩ .unmarked
      [.normal ⟨"Lantern", by decide, by decide⟩ (.mk "boolean" []) .localWord,
        .normal ⟨"door", by decide, by decide⟩ (.mk "boolean" []) .localWord]
      (some (.statementList [.assignmentStatement ["Lantern"] (.name ["door"])])) none [] []]
    []
  marks := Or.inl rfl

theorem lantern_declared :
    typecheckDeclarations (parsed lantern) = .ok (declared (parsed lantern)) :=
  eq_ok_getD (by decide) _

/-- The other variable of the room is bound. -/
theorem bindsInnermost_iff_door : BindsInnermost (declared (parsed lantern)) [0] "door" :=
  (bindsInnermost_iff lantern_declared ⟨[0], List.suffix_rfl, _, List.mem_of_getElem? (i := 1) rfl,
    rfl⟩).mpr (by decide)

/-- The variables in the code of the states are bound to their
innermost declarations. -/
def LexicallyScoped (d : Declared) : Prop :=
  ∀ p s, d.root.stateAt p = some s → ∀ x, [x] ∈ s.codeNames → InScope d.root p x →
    BindsInnermost d p x

/-- The names in every state of the tree have passed `checkNameDuplication`. -/
def NamesChecked (root : State Path) : Prop :=
  ∀ p ∈ root.positions [], ∀ s ∈ root.stateAt p, (Declared.checkNameDuplication s).isOk = true

/-- The room may not set its own variable `Lantern`. -/
theorem not_lexicallyScoped_lantern : lantern.result = .ok (parsed lantern) ∧
    NamesChecked (declared (parsed lantern)).root ∧
      ¬ LexicallyScoped (declared (parsed lantern)) := by
  refine ⟨eq_ok_getD (by decide) _, by unfold NamesChecked; decide, fun h => ?_⟩
  have hscope : InScope (declared (parsed lantern)).root [0] "Lantern" :=
    ⟨[0], List.suffix_rfl, _, List.mem_of_getElem? (i := 0) rfl, rfl⟩
  have ⟨r, dec, type, _, hname⟩ := h [0] _ rfl "Lantern" (by decide) hscope
  cases hname

end Stabl
