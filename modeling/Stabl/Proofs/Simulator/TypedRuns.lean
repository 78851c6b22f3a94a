import Stabl.Proofs.Ast.Environments
import Stabl.Proofs.Frontend.TypeIdentity
import Stabl.Proofs.Simulator.Evaluation
import Stabl.Proofs.Simulator.Invariants
import Stabl.Proofs.Simulator.Selection

/-!
# `Stabl.Proofs.Simulator.TypedRuns`: typed statecharts store typed values

The typechecker compares the two sides of an assignment, and the simulator checks nothing.
`typed_run` is what the check is good for. In a run of an accepted statechart, every variable
holds nothing or a constant of its declared type, and so does every entry of the value histories,
which static variables are restored from. A guard that calls no function is never cast to a wrong
class: at every loop head it has a boolean value, or none.

The simulator stores one value for a variable with fields, so the statechart must not use field
paths (`NoFieldPaths`). `input` reads an integer whatever its declaration says, so it must be
declared so.
-/

set_option autoImplicit false

namespace Stabl

open Result World

/-! ### Names of whole variables -/

section
variable {ν : Type}

/-- The name denotes a variable, and no field of it: a fully qualified one has a component for
each state of the variable's chain and one for the variable. -/
def Name.Whole (root : State ν) (n : Name) : Prop :=
  n.name.length = if n.name.head? = some root.name then n.declaration.state.length + 2 else 1

instance (root : State ν) (n : Name) : Decidable (n.Whole root) :=
  inferInstanceAs (Decidable (_ = _))

end

/-- No name in the code of the statechart has a field path. -/
structure NoFieldPaths (root : State Name) : Prop where
  states : ∀ p s, root.stateAt p = some s → ∀ n ∈ s.codeNames, n.Whole root
  transitions : ∀ p, ∀ t ∈ root.transitionsAt p,
    ∀ n ∈ t.guard.names ++ (t.action.rvalues ++ t.action.lvalues), n.Whole root

/-- Only the states of the tree have to be looked at. -/
theorem noFieldPaths_iff (root : State Name) : NoFieldPaths root ↔
    ∀ p ∈ root.positions [],
      (∀ n ∈ ((root.stateAt p).map State.codeNames).getD [], n.Whole root) ∧
        ∀ t ∈ root.transitionsAt p,
          ∀ n ∈ t.guard.names ++ (t.action.rvalues ++ t.action.lvalues), n.Whole root := by
  constructor
  · intro h p _
    refine ⟨fun n hn => ?_, h.transitions p⟩
    cases hs : root.stateAt p with
    | none => simp [hs] at hn
    | some s => exact h.states p s hs n (by simpa [hs] using hn)
  · intro h
    refine ⟨fun p s hs n hn => ?_, State.forall_transitionsAt fun p hp => (h p hp).2⟩
    have hmem : p ∈ root.positions [] := State.mem_positions (by rw [hs]; rfl)
    exact (h p hmem).1 n (by simpa [hs] using hn)

instance (root : State Name) : Decidable (NoFieldPaths root) :=
  decidable_of_iff _ (noFieldPaths_iff root).symm

/-- What a name finds in the environment is declared where it says. -/
def Sees (root : State Path) (env : Environment) : Prop :=
  ∀ x r dec, env.lookup x = some (r, dec) → dec ∈ root.declarationsAt r.state ∧ dec.vname = r.vname

theorem sees_getEnvironment (root : State Path) (p : StateRef) :
    Sees root (getEnvironment root p) := by
  intro x r dec h
  obtain ⟨f, hf, hdec, rfl, _⟩ := Environment.exists_frame_of_lookup h
  exact ⟨(frame_getEnvironment hf).2 ▸ hdec, rfl⟩

theorem sees_getWriteEnvironment {root : State Path} {t : PlacedTransition Path}
    (hlub : lub t.transition.source t.transition.destination = some t.state) :
    Sees root (t.getWriteEnvironment root) := by
  intro x r dec h
  rw [lookup_write] at h
  rcases Option.or_eq_some_iff.mp h with h | ⟨_, h⟩
  · obtain ⟨f, hf, hdec, rfl, _⟩ := Environment.exists_frame_of_lookup h
    have hdeclares : (t.getWriteOnlyEnvironment root).Declares ⟨f.state, dec.vname⟩ dec :=
      ⟨f, hf, rfl, hdec, rfl⟩
    rcases ((declares_writeOnly hlub).mp hdeclares).2 with ⟨_, hmem, _⟩ | ⟨_, _, hmem⟩
    · exact ⟨hmem, rfl⟩
    · exact ⟨hmem, rfl⟩
  · exact sees_getEnvironment root t.state x r dec h

/-- The walk down a fully qualified name drops one name for each state. -/
theorem getDeclarationInState_length (rest : Path) : ∀ {p : StateRef} {s : State Path}
    {first : String} {r : DeclarationRef} {dec : Declaration} {left : Path},
    Declared.getDeclarationInState p s (first :: rest) = some ((r, dec), left) →
      left.length + r.state.length = rest.length + p.length := by
  induction rest with
  | nil =>
      intro p s first r dec left h
      simp [Declared.getDeclarationInState] at h
  | cons next rest ih =>
      intro p s first r dec left h
      rw [Declared.getDeclarationInState] at h
      split at h
      · split at h
        · have hrest := ih h
          simp only [List.length_cons] at hrest ⊢
          omega
        · cases h
      · obtain ⟨d', _, heq⟩ := Option.map_eq_some_iff.mp h
        simp only [Prod.mk.injEq] at heq
        obtain ⟨⟨rfl, _⟩, rfl⟩ := heq
        rfl

/-- A whole variable, as the typechecker locates it. -/
theorem typecheckName_whole {d : Declared} {env : Environment} (hsees : Sees d.root env)
    {name : Path} {n : Name} {ty : Ty} (h : d.typecheckName name env = .ok (n, ty))
    (hwhole : n.Whole d.root) : ∃ dec x,
      dec ∈ d.root.declarationsAt n.declaration.state ∧ dec.vname = n.declaration.vname ∧
        d.locateName name env = some ((n.declaration, dec), [x]) ∧
          typecheckDeclaration d.types [] dec = .ok ty := by
  cases name with
  | nil => simp [Declared.typecheckName] at h
  | cons first rest =>
      rw [Declared.typecheckName, if_neg (by simp)] at h
      split at h
      · cases h
      · rename_i r dec left hlocate
        obtain ⟨decType, hdec, h⟩ := bind_eq_ok.mp h
        obtain ⟨type, htype, h⟩ := bind_eq_ok.mp h
        rw [pure_eq_ok, Prod.mk.injEq] at h
        obtain ⟨rfl, rfl⟩ := h
        have hlocated := hlocate
        unfold Name.Whole at hwhole
        simp only [List.head?_cons, Option.some.injEq, List.length_cons] at hwhole
        rw [Declared.locateName] at hlocate
        -- Both ways the names that are left are one.
        obtain ⟨hmem, hname, hleft⟩ : dec ∈ d.root.declarationsAt r.state ∧ dec.vname = r.vname ∧
            left.length = 1 := by
          by_cases hfirst : first = d.root.name
          · rw [if_pos hfirst] at hlocate hwhole
            have hlength := getDeclarationInState_length rest hlocate
            obtain ⟨_, hmem, hname⟩ := getDeclarationInState_eq_some rest rfl hlocate
            simp only [List.length_nil] at hlength
            exact ⟨hmem, hname, by omega⟩
          · rw [if_neg hfirst] at hlocate hwhole
            obtain ⟨found, hfound, heq⟩ := Option.map_eq_some_iff.mp hlocate
            simp only [Prod.mk.injEq] at heq
            obtain ⟨rfl, rfl⟩ := heq
            obtain ⟨hmem, hname⟩ := hsees first r dec hfound
            exact ⟨hmem, hname, hwhole⟩
        obtain ⟨x, rfl⟩ := List.length_eq_one_iff.mp hleft
        rw [Declared.getTypeOfName, pure_eq_ok] at htype
        exact ⟨dec, x, hmem, hname, hlocated, htype ▸ hdec⟩

/-! ### Typed stores -/

/-- Every variable holds nothing, or a constant of its declared type. -/
def StoreTyped {ν : Type} (types : List TypeEntry) (root : State ν)
    (σ : DeclarationRef → Option Constant) : Prop :=
  ∀ p, ∀ dec ∈ root.declarationsAt p, ∀ ty v, typecheckDeclaration types [] dec = .ok ty →
    σ ⟨p, dec.vname⟩ = some v → HasType v ty

theorem storeTyped_none {ν : Type} (types : List TypeEntry) (root : State ν) :
    StoreTyped types root fun _ => none := by
  intro p dec _ ty v _ h
  cases h

/-- The value may be stored in the variable. -/
def Fits {ν : Type} (types : List TypeEntry) (root : State ν) (r : DeclarationRef)
    (x : Option Constant) : Prop :=
  ∀ dec ∈ root.declarationsAt r.state, dec.vname = r.vname → ∀ ty v,
    typecheckDeclaration types [] dec = .ok ty → x = some v → HasType v ty

theorem fits_none {ν : Type} (types : List TypeEntry) (root : State ν) (r : DeclarationRef) :
    Fits types root r none := by
  intro dec _ _ ty v _ h
  cases h

section
variable {ν : Type} {types : List TypeEntry} {root : State ν} {σ : DeclarationRef → Option Constant}

theorem StoreTyped.fits (h : StoreTyped types root σ) (r : DeclarationRef) :
    Fits types root r (σ r) := by
  intro dec hdec hname ty v hty hv
  refine h r.state dec hdec ty v hty ?_
  rwa [hname]

theorem StoreTyped.update (h : StoreTyped types root σ) {r : DeclarationRef} {x : Option Constant}
    (hx : Fits types root r x) : StoreTyped types root (Function.update σ r x) := by
  intro p dec hdec ty v hty hv
  rw [Function.update_apply] at hv
  by_cases hr : (⟨p, dec.vname⟩ : DeclarationRef) = r
  · rw [if_pos hr] at hv
    subst hr
    exact hx dec hdec rfl ty v hty hv
  · rw [if_neg hr] at hv
    exact h p dec hdec ty v hty hv

end

/-- The variables and the value histories of the world are typed. -/
structure ValuesTyped (types : List TypeEntry) (root : State Name) (w : World) : Prop where
  values : StoreTyped types root w.eState.valueEnvironment
  history : ∀ s values, w.eState.valueHistory s = some values → StoreTyped types root values

section
variable {types : List TypeEntry} {root : State Name}

theorem ValuesTyped.put {w : World} (h : ValuesTyped types root w) {r : DeclarationRef}
    {x : Option Constant} (hx : Fits types root r x) : ValuesTyped types root (w.put r x) :=
  ⟨h.values.update hx, h.history⟩

/-- A declaration of an entered state gets no value, or one from the histories. -/
theorem ValuesTyped.enterDeclaration {s : StateRef} {w w' : World} {dec : Declaration}
    (h : ValuesTyped types root w) (hw : World.enterDeclaration s w dec = .ok w') :
    ValuesTyped types root w' := by
  unfold World.enterDeclaration at hw
  split at hw
  · rw [Except.ok.injEq] at hw
    exact hw ▸ h.put (fits_none _ _ _)
  · split at hw
    · rename_i values hvalues
      rw [Except.ok.injEq] at hw
      exact hw ▸ h.put ((h.history s values hvalues).fits _)
    · cases hw
  · rw [Except.ok.injEq] at hw
    exact hw ▸ h

theorem ValuesTyped.enterState {s : StateRef} {w : World} (h : ValuesTyped types root w) :
    Ends (ValuesTyped types root) (w.enterState root s) := by
  have hstart : ValuesTyped types root { w.record (.enterState s) with eState := { w.eState with
      configuration := w.eState.configuration ++ [s] } } := ⟨h.values, h.history⟩
  refine ⟨fun w' hw' => ?_, fun w' hw' => ?_⟩
  · exact foldlM_preserves (P := ValuesTyped types root)
      (fun _ _ _ _ hb => hb.enterDeclaration) hstart hw'
  · obtain ⟨dec, _, b, hb, hfail⟩ := foldlM_fails_at (P := ValuesTyped types root)
      (fun _ _ _ _ hb => hb.enterDeclaration) hstart hw'
    -- A declaration that throws leaves the world as it is.
    unfold World.enterDeclaration at hfail
    split at hfail
    · cases hfail
    · split at hfail
      · cases hfail
      · rw [Except.error.injEq, Stop.exception.injEq] at hfail
        exact hfail ▸ hb
    · cases hfail

/-- A declaration of a state that is left is copied into the history. -/
theorem exitDeclaration_typed {s : StateRef}
    {acc : (DeclarationRef → Option Constant) × World} {dec : Declaration}
    (h : StoreTyped types root acc.1 ∧ ValuesTyped types root acc.2) :
    StoreTyped types root (World.exitDeclaration s acc dec).1 ∧
      ValuesTyped types root (World.exitDeclaration s acc dec).2 := by
  have htemp := h.1.update (h.2.values.fits ⟨s, dec.vname⟩)
  refine ⟨htemp, ?_⟩
  have hhistory : ValuesTyped types root { acc.2 with eState := { acc.2.eState with
      valueHistory := Function.update acc.2.eState.valueHistory s
        (some (Function.update acc.1 ⟨s, dec.vname⟩
          (acc.2.eState.valueEnvironment ⟨s, dec.vname⟩))) } } := by
    refine ⟨h.2.values, fun p values hvalues => ?_⟩
    simp only [Function.update_apply] at hvalues
    split at hvalues
    · rw [Option.some.injEq] at hvalues
      exact hvalues ▸ htemp
    · exact h.2.history p values hvalues
  unfold World.exitDeclaration
  dsimp only
  split
  · exact hhistory.put (fits_none _ _ _)
  · exact hhistory

theorem ValuesTyped.exitState {s : StateRef} {w : World} (h : ValuesTyped types root w) :
    ValuesTyped types root (w.exitState root s) := by
  unfold World.exitState
  refine (List.foldlRecOn (root.declarationsAt s) (World.exitDeclaration s)
    (motive := fun acc => StoreTyped types root acc.1 ∧ ValuesTyped types root acc.2) ?_ ?_).2
  · refine ⟨storeTyped_none _ _, ?_⟩
    cases getSuperstate s <;> exact ⟨h.values, h.history⟩
  · exact fun acc hacc dec _ => exitDeclaration_typed hacc

theorem ValuesTyped.of_eState {w w' : World} (h : ValuesTyped types root w)
    (hvalues : w'.eState.valueEnvironment = w.eState.valueEnvironment)
    (hhistory : w'.eState.valueHistory = w.eState.valueHistory) : ValuesTyped types root w' :=
  ⟨hvalues ▸ h.values, hhistory ▸ h.history⟩

/-- The constructor stores nothing. -/
theorem initial_valuesTyped (events : List String) (stdin : List (Option Int32)) :
    ValuesTyped types root (World.initial root events stdin) := by
  have hpopulate : ∀ (e : ExecutionState) (s : StateRef),
      ValuesTyped types root ⟨e, stdin, []⟩ →
        ValuesTyped types root ⟨populate root e s, stdin, []⟩ := by
    intro e s h
    unfold populate
    split
    · refine ⟨h.values, fun p values hvalues => ?_⟩
      simp only [Function.update_apply] at hvalues
      split at hvalues
      · rw [Option.some.injEq] at hvalues
        exact hvalues ▸ storeTyped_none _ _
      · exact h.history p values hvalues
    · exact h
  have hempty : ValuesTyped types root
      ⟨⟨fun _ => none, [], events, fun _ => none, fun _ => none⟩, stdin, []⟩ :=
    ⟨storeTyped_none _ _, fun _ _ hvalues => by cases hvalues⟩
  refine List.foldlRecOn _ (populate root)
    (motive := fun e => ValuesTyped types root ⟨e, stdin, []⟩) (hpopulate _ [] hempty) ?_
  exact fun e he s _ => hpopulate e s he

end

/-! ### Typed code -/

/-- The declared type of a variable is compared with a built-in type by the letters of its
name. -/
theorem typecheckDeclaration_builtin {types : List TypeEntry} (hbuiltin : BuiltinFirst types)
    {dec : Declaration} {ty builtin : Ty} (h : typecheckDeclaration types [] dec = .ok ty)
    (hof : builtin = Ty.int ∨ builtin = Ty.boolean ∨ builtin = Ty.string)
    (hequals : ty.equals builtin = true) : ty = builtin := by
  obtain ⟨hint, hboolean, hstring⟩ := hbuiltin.lookup
  -- The type expression of the built-in type, and what it looks up.
  obtain ⟨name, hlookup, hnil⟩ : ∃ name,
      lookupGroundType types (.mk name []) = .ok builtin ∧ builtin.typeArguments = [] := by
    rcases hof with rfl | rfl | rfl
    · exact ⟨_, hint, rfl⟩
    · exact ⟨_, hboolean, rfl⟩
    · exact ⟨_, hstring, rfl⟩
  have hother : typecheckDeclaration types [] ⟨"", .localScope, .mk name [], false⟩ =
      .ok builtin := by
    unfold typecheckDeclaration
    exact bind_eq_ok.mpr ⟨builtin, hlookup, by rw [hnil]; rfl⟩
  have hsame := (equals_iff_sameOutsideStructs dec.typeName (stripped_of_typecheckDeclaration h)
    (stripped_of_typecheckDeclaration hother)).mp hequals
  have hdec : dec.typeName = .mk name [] := by
    cases hname : dec.typeName with
    | mk name' args =>
        rw [hname, sameOutsideStructs, Bool.and_eq_true, Bool.and_eq_true] at hsame
        have hname' : name' = name := by simpa using hsame.1.1
        have hargs : args = [] := by simpa using hsame.1.2
        rw [hname', hargs]
  have heq : typecheckDeclaration types [] dec = .ok builtin := by
    rw [← hother]
    unfold typecheckDeclaration
    rw [hdec]
  exact Except.ok.inj (h.symm.trans heq)

/-- A constant of a type that equals the declared one is of the declared one. -/
theorem HasType.of_equals {types : List TypeEntry} (hbuiltin : BuiltinFirst types)
    {dec : Declaration} {ty ty' : Ty} {v : Constant}
    (h : typecheckDeclaration types [] dec = .ok ty) (hequals : ty.equals ty' = true)
    (hv : HasType v ty') : HasType v ty := by
  cases v with
  | booleanConstant b =>
      have hty' : ty' = Ty.boolean := hv
      subst hty'
      exact typecheckDeclaration_builtin hbuiltin h (Or.inr (Or.inl rfl)) hequals
  | integerConstant n =>
      have hty' : ty' = Ty.int := hv
      subst hty'
      exact typecheckDeclaration_builtin hbuiltin h (Or.inl rfl) hequals
  | stringLiteral s =>
      have hty' : ty' = Ty.string := hv
      subst hty'
      exact typecheckDeclaration_builtin hbuiltin h (Or.inr (Or.inr rfl)) hequals

/-- What the theorems below ask of a typechecked statechart. -/
structure Readable (d : Declared) : Prop where
  builtin : BuiltinFirst d.types
  input : ∀ f ∈ d.functions, f.name = "input" → f.returnType = Ty.int

section
variable {d : Declared} {env : Environment} {σ : DeclarationRef → Option Constant}

/-- In a typed store, whole names respect their types. -/
theorem nameRespected_of_whole (hsees : Sees d.root env) (hσ : StoreTyped d.types d.root σ)
    {name : Path} {n : Name} {ty : Ty} (h : d.typecheckName name env = .ok (n, ty))
    (hwhole : n.Whole d.root) : NameRespected d env σ name := by
  obtain ⟨dec, x, hmem, hname, hlocate, _⟩ := typecheckName_whole hsees h hwhole
  intro r dec' rest hlocate'
  rw [hlocate, Option.some.injEq, Prod.mk.injEq, Prod.mk.injEq] at hlocate'
  obtain ⟨⟨rfl, rfl⟩, rfl⟩ := hlocate'
  exact ⟨rfl, fun ty v hty hv => hσ.fits n.declaration dec hmem hname ty v hty hv⟩

/-- So do the names that an expression reads. -/
theorem allNames_of_whole (hsees : Sees d.root env) (hσ : StoreTyped d.types d.root σ)
    {e : Expression Path} {e' : Expression Name} {ty : Ty}
    (h : d.typecheckExpression env e = .ok (e', ty)) (hwhole : ∀ n ∈ e'.names, n.Whole d.root) :
    e.AllNames (NameRespected d env σ) := by
  induction e using Expression.operandInduction generalizing e' ty with
  | constant c => trivial
  | functionCall name args => trivial
  | name name =>
      rw [Declared.typecheckExpression] at h
      obtain ⟨⟨n, type⟩, hname, h⟩ := bind_eq_ok.mp h
      rw [pure_eq_ok, Prod.mk.injEq] at h
      obtain ⟨rfl, rfl⟩ := h
      exact nameRespected_of_whole hsees hσ hname (hwhole n (List.mem_singleton.mpr rfl))
  | binaryExpression left right operator ihl ihr =>
      rw [Declared.typecheckExpression] at h
      obtain ⟨⟨left', leftType⟩, hleft, h⟩ := bind_eq_ok.mp h
      obtain ⟨⟨right', rightType⟩, hright, h⟩ := bind_eq_ok.mp h
      obtain ⟨type, htype, h⟩ := bind_eq_ok.mp h
      rw [pure_eq_ok, Prod.mk.injEq] at h
      obtain ⟨rfl, rfl⟩ := h
      exact ⟨ihl hleft fun n hn => hwhole n (List.mem_append_left _ hn),
        ihr hright fun n hn => hwhole n (List.mem_append_right _ hn)⟩

/-- A checked expression evaluates to nothing, or to a constant of its type. -/
theorem evaluate_typed (hd : Readable d) (hsees : Sees d.root env) {w : World}
    (hσ : StoreTyped d.types d.root w.eState.valueEnvironment) {e : Expression Path}
    {e' : Expression Name} {ty : Ty} (h : d.typecheckExpression env e = .ok (e', ty))
    (hwhole : ∀ n ∈ e'.names, n.Whole d.root) {v : Constant} (hv : (evaluate e' w).1 = some v) :
    HasType v ty := by
  by_cases hcall : ∃ name args, e = .functionCall name args
  · obtain ⟨name, args, rfl⟩ := hcall
    -- Only `input` has a value.
    by_cases hname : name.name = "input"
    · obtain ⟨⟨args', rfl⟩, rfl⟩ := typecheck_input h (hname ▸ hd.input)
      rw [evaluate, evaluateFunction, if_pos hname] at hv
      split at hv
      · rw [Option.some.injEq] at hv
        exact hv ▸ rfl
      · cases hv
      · cases hv
    · rw [Declared.typecheckExpression] at h
      obtain ⟨_, _, h⟩ := bind_eq_ok.mp h
      obtain ⟨_, _, h⟩ := bind_eq_ok.mp h
      obtain ⟨_, _, h⟩ := bind_eq_ok.mp h
      obtain ⟨args', _, h⟩ := bind_eq_ok.mp h
      rw [pure_eq_ok, Prod.mk.injEq] at h
      obtain ⟨rfl, _⟩ := h
      rw [evaluate, evaluateFunction, if_neg hname] at hv
      cases hv
  · have hcall' : ∀ name args, e' ≠ .functionCall name args := by
      rintro name args rfl
      cases e with
      | functionCall name' args' => exact hcall ⟨name', args', rfl⟩
      | name n =>
          rw [Declared.typecheckExpression] at h
          obtain ⟨_, _, h⟩ := bind_eq_ok.mp h
          simp [pure, Except.pure] at h
      | constant c =>
          rw [Declared.typecheckExpression] at h
          obtain ⟨_, _, h⟩ := bind_eq_ok.mp h
          simp [pure, Except.pure] at h
      | binaryExpression left right operator =>
          rw [Declared.typecheckExpression] at h
          obtain ⟨_, _, h⟩ := bind_eq_ok.mp h
          obtain ⟨_, _, h⟩ := bind_eq_ok.mp h
          obtain ⟨_, _, h⟩ := bind_eq_ok.mp h
          simp [pure, Except.pure] at h
    have hvalue := (evaluate_fst w hcall' v).mp hv
    have hspec := operandValue_spec hd.builtin h (allNames_of_whole hsees hσ h hwhole)
      (by rw [hvalue]; simp)
    exact (hspec.typed v hvalue).2

end

/-- In a typed store, the assignment stores a value that fits. -/
def StoresTyped (types : List TypeEntry) (root : State Path) (lhs : Name) (rhs : Expression Name) :
    Prop :=
  ∀ w : World, StoreTyped types root w.eState.valueEnvironment →
    Fits types root lhs.declaration (evaluate rhs w).1

section
variable {d : Declared} {renv wenv : Environment}

mutual

/-- Checked statements store values that fit. -/
theorem assigns_typed (hd : Readable d) (hread : Sees d.root renv) (hwrite : Sees d.root wenv) :
    ∀ (st : Statement Path) {st' : Statement Name}, d.typecheckStatement renv wenv st = .ok st' →
      (∀ n ∈ st'.rvalues ++ st'.lvalues, n.Whole d.root) →
      st'.Assigns (StoresTyped d.types d.root)
  | .statementList sts, st', h, hwhole => by
      rw [Declared.typecheckStatement] at h
      obtain ⟨sts', hsts, h⟩ := bind_eq_ok.mp h
      rw [pure_eq_ok] at h
      subst h
      exact allAssign_typed hd hread hwrite sts hsts hwhole
  | .assignmentStatement lhs rhs, st', h, hwhole => by
      rw [Declared.typecheckStatement] at h
      obtain ⟨⟨lhs', lhsType⟩, hlhs, h⟩ := bind_eq_ok.mp h
      obtain ⟨⟨rhs', rhsType⟩, hrhs, h⟩ := bind_eq_ok.mp h
      obtain ⟨_, hequals, h⟩ := bind_eq_ok.mp h
      rw [pure_eq_ok] at h
      subst h
      have hlhsWhole : lhs'.Whole d.root :=
        hwhole lhs' (List.mem_append_right _ (List.mem_singleton.mpr rfl))
      obtain ⟨dec, _, hmem, hname, _, htype⟩ := typecheckName_whole hwrite hlhs hlhsWhole
      intro w hσ dec' hdec' hname' ty v hty hv
      -- A state declares a name once.
      obtain rfl : dec = dec' :=
        List.inj_on_of_nodup_map (d.root.nodup_declarationsAt _) hmem hdec'
          (hname.trans hname'.symm)
      obtain rfl : lhsType = ty := Except.ok.inj (htype.symm.trans hty)
      exact HasType.of_equals hd.builtin htype (require_eq_ok.mp hequals)
        (evaluate_typed hd hread hσ hrhs (fun n hn => hwhole n (List.mem_append_left _ hn)) hv)
  | .ifStatement condition thenBody elseBody, st', h, hwhole => by
      rw [Declared.typecheckStatement] at h
      obtain ⟨⟨condition', _⟩, _, h⟩ := bind_eq_ok.mp h
      obtain ⟨thenBody', hthen, h⟩ := bind_eq_ok.mp h
      obtain ⟨elseBody', helse, h⟩ := bind_eq_ok.mp h
      obtain ⟨_, _, h⟩ := bind_eq_ok.mp h
      rw [pure_eq_ok] at h
      subst h
      simp only [Statement.rvalues, Statement.lvalues, List.mem_append] at hwhole
      refine ⟨assigns_typed hd hread hwrite thenBody hthen fun n hn => hwhole n ?_,
        assigns_typed hd hread hwrite elseBody helse fun n hn => hwhole n ?_⟩
      · rw [List.mem_append] at hn
        exact hn.imp (fun hn => Or.inl (Or.inr hn)) Or.inl
      · rw [List.mem_append] at hn
        exact hn.imp Or.inr Or.inr
  | .whileStatement condition body, st', h, hwhole => by
      rw [Declared.typecheckStatement] at h
      obtain ⟨⟨condition', _⟩, _, h⟩ := bind_eq_ok.mp h
      obtain ⟨body', hbody, h⟩ := bind_eq_ok.mp h
      obtain ⟨_, _, h⟩ := bind_eq_ok.mp h
      rw [pure_eq_ok] at h
      subst h
      simp only [Statement.rvalues, Statement.lvalues, List.mem_append] at hwhole
      rw [Statement.Assigns]
      refine assigns_typed hd hread hwrite body hbody fun n hn => hwhole n ?_
      rw [List.mem_append] at hn
      exact hn.imp_left Or.inr
  | .expressionStatement expression, st', h, _ => by
      rw [Declared.typecheckStatement] at h
      obtain ⟨⟨expression', _⟩, _, h⟩ := bind_eq_ok.mp h
      rw [pure_eq_ok] at h
      subst h
      trivial
  | .haltStatement, st', h, _ => by cases h
  | .skipStatement, st', h, _ => by cases h

theorem allAssign_typed (hd : Readable d) (hread : Sees d.root renv) (hwrite : Sees d.root wenv) :
    ∀ (sts : List (Statement Path)) {sts' : List (Statement Name)},
      d.typecheckStatementList renv wenv sts = .ok sts' →
      (∀ n ∈ Statement.rvaluesOfList sts' ++ Statement.lvaluesOfList sts', n.Whole d.root) →
      AllAssign (StoresTyped d.types d.root) sts'
  | [], sts', h, _ => by
      rw [Declared.typecheckStatementList, pure_eq_ok] at h
      subst h
      trivial
  | st :: sts, sts', h, hwhole => by
      rw [Declared.typecheckStatementList] at h
      obtain ⟨st', hst, h⟩ := bind_eq_ok.mp h
      obtain ⟨rest, hrest, h⟩ := bind_eq_ok.mp h
      rw [pure_eq_ok] at h
      subst h
      simp only [Statement.rvaluesOfList, Statement.lvaluesOfList, List.mem_append] at hwhole
      refine ⟨assigns_typed hd hread hwrite st hst fun n hn => hwhole n ?_,
        allAssign_typed hd hread hwrite sts hrest fun n hn => hwhole n ?_⟩
      · rw [List.mem_append] at hn
        exact hn.imp Or.inl Or.inl
      · rw [List.mem_append] at hn
        exact hn.imp Or.inr Or.inr

end

end

/-! ### Guards -/

/-- The operands of a typed operator are cast to the class that they have. -/
theorem applyOperator_classCast {d : Declared} (hbuiltin : BuiltinFirst d.types)
    {operator : OperatorType} {left right ty : Ty} {a b : Option Constant}
    (h : d.typecheckOperator operator left right = .ok ty) (ha : ∀ v, a = some v → HasType v left)
    (hb : ∀ v, b = some v → HasType v right) : applyOperator operator a b ≠ .error .classCast := by
  intro happly
  cases a with
  | none => cases happly
  | some a =>
      cases b with
      | none =>
          cases hdecides : decides operator a with
          | true =>
              obtain ⟨_, _, _, hvalue, _⟩ := decides_spec hdecides
              rw [hvalue] at happly
              cases happly
          | false =>
              rw [applyOperator_none hdecides] at happly
              split at happly <;> cases happly
      | some b =>
          by_cases hzero : applyOperator operator (some a) (some b) = .error .arithmetic
          · rw [hzero] at happly
            cases happly
          · rcases applyOperator_some hbuiltin h (ha a rfl) (hb b rfl) hzero with
              ⟨_, hvalue⟩ | ⟨_, _, hvalue, _⟩ <;> rw [hvalue] at happly <;> cases happly

/-- A checked expression that calls no function is never cast to a wrong class. -/
theorem operandValue_classCast {d : Declared} (hd : Readable d) {env : Environment}
    (hsees : Sees d.root env) {σ : DeclarationRef → Option Constant}
    (hσ : StoreTyped d.types d.root σ) {e : Expression Path} {e' : Expression Name} {ty : Ty}
    (h : d.typecheckExpression env e = .ok (e', ty)) (hwhole : ∀ n ∈ e'.names, n.Whole d.root)
    (hcalls : e'.callsNoFunction = true) : operandValue σ e' ≠ .error .classCast := by
  induction e using Expression.operandInduction generalizing e' ty with
  | constant c =>
      rw [Declared.typecheckExpression] at h
      obtain ⟨_, _, h⟩ := bind_eq_ok.mp h
      rw [pure_eq_ok, Prod.mk.injEq] at h
      obtain ⟨rfl, rfl⟩ := h
      intro hvalue
      cases hvalue
  | name name =>
      rw [Declared.typecheckExpression] at h
      obtain ⟨_, _, h⟩ := bind_eq_ok.mp h
      rw [pure_eq_ok, Prod.mk.injEq] at h
      obtain ⟨rfl, rfl⟩ := h
      intro hvalue
      cases hvalue
  | functionCall name args =>
      rw [Declared.typecheckExpression] at h
      obtain ⟨_, _, h⟩ := bind_eq_ok.mp h
      obtain ⟨_, _, h⟩ := bind_eq_ok.mp h
      obtain ⟨_, _, h⟩ := bind_eq_ok.mp h
      obtain ⟨_, _, h⟩ := bind_eq_ok.mp h
      rw [pure_eq_ok, Prod.mk.injEq] at h
      obtain ⟨rfl, rfl⟩ := h
      cases hcalls
  | binaryExpression left right operator ihl ihr =>
      rw [Declared.typecheckExpression] at h
      obtain ⟨⟨left', leftType⟩, hleft, h⟩ := bind_eq_ok.mp h
      obtain ⟨⟨right', rightType⟩, hright, h⟩ := bind_eq_ok.mp h
      obtain ⟨type, htype, h⟩ := bind_eq_ok.mp h
      rw [pure_eq_ok, Prod.mk.injEq] at h
      obtain ⟨rfl, rfl⟩ := h
      obtain ⟨hcallsLeft, hcallsRight⟩ := (Bool.and_eq_true _ _).mp hcalls
      have hwholeLeft : ∀ n ∈ left'.names, n.Whole d.root :=
        fun n hn => hwhole n (List.mem_append_left _ hn)
      have hwholeRight : ∀ n ∈ right'.names, n.Whole d.root :=
        fun n hn => hwhole n (List.mem_append_right _ hn)
      have hvalueOf : ∀ {e : Expression Path} {e' : Expression Name} {ty : Ty}
          {x : Option Constant},
          d.typecheckExpression env e = .ok (e', ty) → (∀ n ∈ e'.names, n.Whole d.root) →
          operandValue σ e' = .ok x → ∀ v, x = some v → HasType v ty := by
        rintro e e' ty x he hnames hx v rfl
        exact ((operandValue_spec hd.builtin he (allNames_of_whole hsees hσ he hnames)
          (by rw [hx]; simp)).typed v hx).2
      rw [operandValue]
      intro hvalue
      rcases bind_eq_error.mp hvalue with hfail | ⟨a, ha, hvalue⟩
      · exact ihl hleft hwholeLeft hcallsLeft hfail
      · rcases bind_eq_error.mp hvalue with hfail | ⟨b, hb, hvalue⟩
        · exact ihr hright hwholeRight hcallsRight hfail
        · exact applyOperator_classCast hd.builtin htype (hvalueOf hleft hwholeLeft ha)
            (hvalueOf hright hwholeRight hb) hvalue

/-! ### Runs -/

section
variable {sc : Statechart} {c : CheckedStatechart}

/-- The passes of `typecheck`, with everything that they leave. -/
theorem typecheck_eq_ok_declared (h : typecheck sc = .ok c) : ∃ d,
    typecheckDeclarations sc = .ok d ∧ d.typecheckState [] d.root = .ok c.root ∧
      c.types = d.types ∧ c.functions = d.functions := by
  obtain ⟨d, hd, h⟩ := bind_eq_ok.mp h
  obtain ⟨root, hroot, h⟩ := bind_eq_ok.mp h
  rw [pure_eq_ok] at h
  subst h
  exact ⟨d, hd, hroot, rfl, rfl⟩

variable {d : Declared} (hcheck : d.typecheckState [] d.root = .ok c.root)

include hcheck

/-- The accepted tree declares the variables of the source tree. -/
theorem storeTyped_accepted {types : List TypeEntry} {σ : DeclarationRef → Option Constant} :
    StoreTyped types c.root σ ↔ StoreTyped types d.root σ := by
  unfold StoreTyped
  simp only [Declared.declarationsAt_accepted hcheck]

theorem fits_accepted {types : List TypeEntry} {r : DeclarationRef} {x : Option Constant} :
    Fits types c.root r x ↔ Fits types d.root r x := by
  unfold Fits
  simp only [Declared.declarationsAt_accepted hcheck]

theorem whole_accepted {n : Name} : n.Whole c.root ↔ n.Whole d.root := by
  unfold Name.Whole
  rw [(Declared.typecheckedState hcheck).name]

/-- The entry and the exit code of a state store values that fit. -/
theorem stateCode_typed (hd : Readable d) (hpaths : NoFieldPaths c.root) (p : StateRef) :
    (c.root.entryAt p).Assigns (StoresTyped d.types d.root) ∧
      (c.root.exitAt p).Assigns (StoresTyped d.types d.root) := by
  unfold State.entryAt State.exitAt
  cases hs' : c.root.stateAt p with
  | none => exact ⟨trivial, trivial⟩
  | some s' =>
      obtain ⟨s, _, hstate⟩ := Declared.stateAt_accepted hcheck hs'
      have hchecked := Declared.typecheckedState hstate
      have hsees := sees_getEnvironment d.root p
      have hwhole : ∀ n ∈ s'.codeNames, n.Whole d.root :=
        fun n hn => (whole_accepted hcheck).mp (hpaths.states p s' hs' n hn)
      exact ⟨assigns_typed hd hsees hsees s.entry hchecked.entry
          fun n hn => hwhole n (List.mem_append_left _ hn),
        assigns_typed hd hsees hsees s.exit hchecked.exit
          fun n hn => hwhole n (List.mem_append_right _ hn)⟩

/-- So does the action of a transition. -/
theorem action_typed (hd : Readable d) (hpaths : NoFieldPaths c.root) {p : StateRef}
    {t : Transition Name} (ht : t ∈ c.root.transitionsAt p) :
    t.action.Assigns (StoresTyped d.types d.root) := by
  obtain ⟨t₀, _, htcheck⟩ := Declared.transition_accepted hcheck ht
  have ht' := Declared.typecheckedTransition htcheck
  have hlub : lub t₀.source t₀.destination = some p := by
    rw [← ht'.source, ← ht'.destination]
    exact ht'.lub
  exact assigns_typed hd (sees_getEnvironment d.root _)
    (sees_getWriteEnvironment (t := ⟨p, t₀⟩) hlub) t₀.action ht'.action fun n hn =>
      (whole_accepted hcheck).mp (hpaths.transitions p t ht n (List.mem_append_right _ hn))

/-- A run keeps the values typed. -/
theorem valuesTyped_kept (hd : Readable d) (hpaths : NoFieldPaths c.root) :
    Kept c.root (fun _ => True) (StoresTyped d.types d.root) (ValuesTyped d.types c.root) where
  reads hreads h := h.of_eState (by rw [hreads.eState]) (by rw [hreads.eState])
  record _ h := ⟨h.values, h.history⟩
  assign {lhs rhs w} hstores h := by
    have hstate := (evaluate_readsTo rhs w).eState
    have hfits := hstores w ((storeTyped_accepted hcheck).mp h.values)
    have hread : ValuesTyped d.types c.root (evaluate rhs w).2 :=
      h.of_eState (by rw [hstate]) (by rw [hstate])
    exact (hread.put ((fits_accepted hcheck).mpr hfits)).of_eState rfl rfl
  enter _ h := h.enterState
  exit _ h := h.exitState
  entryCode _ := (stateCode_typed hcheck hd hpaths _).1
  exitCode _ := (stateCode_typed hcheck hd hpaths _).2

end

section
variable {sc : Statechart} {c : CheckedStatechart}

/-- In a run of an accepted statechart without field paths, in which `input` is declared to return
an integer, every variable and every value in a value history is a constant of its declared type,
or none, at every loop head. A guard that calls no function is evaluated there without a wrong
cast, and to a boolean if it has a value. -/
theorem typed_run (hc : typecheck sc = .ok c) (hpaths : NoFieldPaths c.root)
    (hinput : ∀ f ∈ c.functions, f.name = "input" → f.returnType = Ty.int)
    {curr : StateRef} {w : World} (h : AtLoopHead c curr w) :
    (∀ p, ∀ dec ∈ c.root.declarationsAt p, ∃ ty, typecheckDeclaration c.types [] dec = .ok ty ∧
      (∀ v, w.eState.valueEnvironment ⟨p, dec.vname⟩ = some v → HasType v ty) ∧
      ∀ s values v, w.eState.valueHistory s = some values → values ⟨p, dec.vname⟩ = some v →
        HasType v ty) ∧
    ∀ p, ∀ t ∈ c.root.transitionsAt p, t.guard.callsNoFunction = true →
      (evaluateOperand t.guard w).1 ≠ .error .classCast ∧
        ∀ v, (evaluate t.guard w).1 = some v → ∃ b, v = .booleanConstant b := by
  obtain ⟨d, hdeclared, hcheck, htypes, hfunctions⟩ := typecheck_eq_ok_declared hc
  have hd : Readable d := ⟨builtinFirst_of_declared hdeclared, hfunctions ▸ hinput⟩
  have htyped : ValuesTyped d.types c.root w :=
    (valuesTyped_kept hcheck hd hpaths).atLoopHead hc (fun _ _ h => ⟨h.values, h.history⟩)
      (fun _ _ ht => action_typed hcheck hd hpaths ht) (initial_valuesTyped c.events) h
  rw [htypes]
  refine ⟨fun p dec hdec => ?_, fun p t ht hcalls => ?_⟩
  · obtain ⟨ty, hty⟩ := Declared.typecheckDeclaration_of_mem hdeclared
      (Declared.declarationsAt_accepted hcheck p ▸ hdec)
    exact ⟨ty, hty, fun v hv => htyped.values p dec hdec ty v hty hv,
      fun s values v hvalues hv => htyped.history s values hvalues p dec hdec ty v hty hv⟩
  · obtain ⟨t₀, _, htcheck⟩ := Declared.transition_accepted hcheck ht
    have ht' := Declared.typecheckedTransition htcheck
    obtain ⟨⟨guard, type⟩, hguard, hrest⟩ := bind_eq_ok.mp ht'.guard
    obtain ⟨_, hboolean, hrest⟩ := bind_eq_ok.mp hrest
    rw [pure_eq_ok] at hrest
    have hwhole : ∀ n ∈ guard.names, n.Whole d.root := fun n hn => (whole_accepted hcheck).mp
      (hpaths.transitions p t ht n (List.mem_append_left _ (hrest ▸ hn)))
    have hσ := (storeTyped_accepted hcheck).mp htyped.values
    have hsees := sees_getEnvironment d.root t₀.source
    rw [← hrest] at hcalls ⊢
    refine ⟨?_, fun v hv => ?_⟩
    · rw [evaluateOperand_fst]
      exact operandValue_classCast hd hsees hσ hguard hwhole hcalls
    · have hv' := evaluate_typed hd hsees hσ hguard hwhole hv
      have hsame := require_eq_ok.mp hboolean
      cases v with
      | booleanConstant b => exact ⟨b, rfl⟩
      | integerConstant n =>
          have htype : type = Ty.int := hv'
          subst htype
          cases hsame
      | stringLiteral s =>
          have htype : type = Ty.string := hv'
          subst htype
          cases hsame

end

/-- The courier has been on a tour and is loading again: its stock is a value of the type
that `stock` is declared with. -/
theorem typed_run_courier : ∃ v ty,
    (loopHead (accepted courier) 10 [] [none, none]).2.eState.valueEnvironment
        ⟨[], "stock"⟩ = some v ∧
      typecheckDeclaration (accepted courier).types [] (integerVariable "stock" .localScope) =
        .ok ty ∧ HasType v ty := by
  have hrun := typed_run courier_accepted (by decide) (fun f hf => by cases hf)
    (atLoopHead (accepted courier) 10 [] [none, none] (by decide))
  obtain ⟨ty, hty, hvalue, _⟩ :=
    hrun.1 [] (integerVariable "stock" .localScope) (List.mem_cons_of_mem _ (List.mem_cons_self ..))
  have hstock : (loopHead (accepted courier) 10 [] [none, none]).2.eState.valueEnvironment
      ⟨[], "stock"⟩ = some (.integerConstant 0) := by decide
  exact ⟨_, ty, hstock, hty, hvalue _ hstock⟩

end Stabl
