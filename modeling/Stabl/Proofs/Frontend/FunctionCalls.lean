import Mathlib.Data.Fintype.EquivFin
import Stabl.Proofs.Frontend.CallTypes
import Stabl.Proofs.Simulator.Evaluation

/-!
# `Stabl.Proofs.Frontend.FunctionCalls`: calls of polymorphic functions

`CallsTyped` is the typing rule for the calls of a function with some type arguments. The types of
arguments and results are compared as a whole with the types of variables that are declared with the
instantiated type expressions: `equals` does not see the fields of a struct, so an argument that it
accepts may have another type. All types of expressions are made from the table
(`typecheckExpression_built`), and for these `callsTyped_iff` says which functions follow the rule.
Where one does not, a call in a statechart with a variable for each parameter shows it (`caller`),
with one more function that returns a struct (`maker`).
-/

set_option autoImplicit false

namespace Stabl

open Result

section
variable {types : List TypeEntry}

/-! ### Declared functions -/

/-- A function declaration is accepted when all its type expressions are. -/
theorem typecheckFunctionDeclaration_eq_ok {fdec : FunctionDeclaration} {f : TypedFunction} :
    typecheckFunctionDeclaration types fdec = .ok f ↔ ∃ ret ps,
      lookupType types fdec.typeParameterNames types.length fdec.returnTypeName = .ok ret ∧
      List.Forall₂ (fun dec t => typecheckDeclaration types fdec.typeParameterNames dec = .ok t)
        fdec.parameterList.toList ps ∧
      ⟨fdec.name, fdec.typeParameterNames, ret, ps⟩ = f := by
  unfold typecheckFunctionDeclaration
  cases hret : lookupType types fdec.typeParameterNames types.length fdec.returnTypeName with
  | error e =>
      constructor
      · intro h
        cases h
      · rintro ⟨ret, _, h, _⟩
        cases h
  | ok ret =>
      simp only [bind_eq_ok, pure_eq_ok, mapM_eq_ok, Except.ok.injEq, exists_eq_left',
        exists_and_left]
      refine exists_congr fun ps => and_congr_left' ⟨fun h => ?_, fun h => ?_⟩
      · refine h.imp fun dec t ht => ?_
        cases hdec : typecheckDeclaration types fdec.typeParameterNames dec with
        | ok type => simpa [hdec] using ht
        | error e => simp [hdec] at ht
      · refine h.imp fun dec t ht => ?_
        rw [ht]
        rfl

/-- The functions of an accepted statechart are those that it declares. -/
theorem functions_of_declared {statechart : Statechart} {sc : Declared}
    (h : typecheckDeclarations statechart = .ok sc) :
    List.Forall₂ (fun fdec f => typecheckFunctionDeclaration sc.types fdec = .ok f)
      statechart.functionDeclarations sc.functions := by
  obtain ⟨types, _, hrest⟩ := bind_eq_ok.mp h
  obtain ⟨_, _, hrest⟩ := bind_eq_ok.mp hrest
  obtain ⟨fs, hfs, hrest⟩ := bind_eq_ok.mp hrest
  rw [pure_eq_ok] at hrest
  subst hrest
  exact mapM_eq_ok.mp hfs

/-- The functions keep their names and their order. -/
theorem find?_functions {decs : List FunctionDeclaration} {fs : List TypedFunction}
    (h : List.Forall₂ (fun fdec f => typecheckFunctionDeclaration types fdec = .ok f) decs fs)
    {name : String} {fdec : FunctionDeclaration}
    (hfind : decs.find? (fun f => f.name = name) = some fdec) :
    ∃ f, fs.find? (fun f => f.name = name) = some f ∧
      typecheckFunctionDeclaration types fdec = .ok f := by
  induction h with
  | nil => cases hfind
  | @cons dec f decs fs hdec _ ih =>
      obtain ⟨ret, ps, _, _, heq⟩ := typecheckFunctionDeclaration_eq_ok.mp hdec
      have hname : f.name = dec.name := by rw [← heq]
      rw [List.find?_cons] at hfind ⊢
      rw [hname]
      by_cases hsame : dec.name = name
      · simp only [hsame, decide_true] at hfind ⊢
        rw [Option.some.injEq] at hfind
        exact ⟨f, rfl, hfind ▸ hdec⟩
      · simp only [hsame, decide_false] at hfind ⊢
        exact ih hfind

/-! ### The types of expressions -/

theorem getTypeOfName_built {path : Path} : ∀ {t u : Ty}, t.Built types →
    Declared.getTypeOfName path t = .ok u → u.Built types := by
  induction path with
  | nil =>
      intro t u _ h
      cases h
  | cons single rest ih =>
      intro t u ht h
      cases rest with
      | nil =>
          rw [Declared.getTypeOfName, pure_eq_ok] at h
          exact h ▸ ht
      | cons next rest =>
          cases t with
          | basicType => cases h
          | typeVariable => cases h
          | struct name ref vnames fields params args =>
              rw [Declared.getTypeOfName] at h
              cases hget : fields[vnames.idxOf next]? with
              | none =>
                  rw [hget] at h
                  cases h
              | some f =>
                  rw [hget] at h
                  exact ih (ht.field (List.mem_of_getElem? hget)) h

/-- The type of an expression of an accepted statechart is made from the table. -/
theorem Declared.typecheckExpression_built {statechart : Statechart} {sc : Declared}
    (hsc : typecheckDeclarations statechart = .ok sc) {env : Environment} {e : Expression Path}
    {e' : Expression Name} {t : Ty} (h : sc.typecheckExpression env e = .ok (e', t)) :
    t.Built sc.types := by
  have hfields := fieldsTyped_of_declared hsc
  have hlookup : ∀ {T : TypeName} {t : Ty}, lookupGroundType sc.types T = .ok t →
      t.Built sc.types := lookupType_built hfields
  cases e with
  | name n =>
      rw [typecheckExpression] at h
      obtain ⟨⟨n', type⟩, htype, h⟩ := bind_eq_ok.mp h
      rw [pure_eq_ok, Prod.mk.injEq] at h
      obtain ⟨_, rfl⟩ := h
      rw [typecheckName] at htype
      split at htype
      · cases htype
      · split at htype
        · cases htype
        · obtain ⟨decType, hdec, htype⟩ := bind_eq_ok.mp htype
          obtain ⟨type', hpath, htype⟩ := bind_eq_ok.mp htype
          rw [pure_eq_ok, Prod.mk.injEq] at htype
          obtain ⟨_, rfl⟩ := htype
          exact getTypeOfName_built (typecheckDeclaration_built hfields hdec) hpath
  | constant c =>
      rw [typecheckExpression] at h
      obtain ⟨type, htype, h⟩ := bind_eq_ok.mp h
      rw [pure_eq_ok, Prod.mk.injEq] at h
      obtain ⟨_, rfl⟩ := h
      cases c with
      | booleanConstant => exact hlookup htype
      | integerConstant => exact hlookup htype
      | stringLiteral => exact hlookup htype
  | binaryExpression left right operator =>
      rw [typecheckExpression] at h
      obtain ⟨⟨_, leftType⟩, _, h⟩ := bind_eq_ok.mp h
      obtain ⟨⟨_, rightType⟩, _, h⟩ := bind_eq_ok.mp h
      obtain ⟨type, htype, h⟩ := bind_eq_ok.mp h
      rw [pure_eq_ok, Prod.mk.injEq] at h
      obtain ⟨_, rfl⟩ := h
      rcases typecheckOperator_eq_ok (builtinFirst_of_declared hsc) htype with
        ⟨_, _, _, rfl⟩ | ⟨_, _, rfl⟩ | ⟨_, _, _, rfl⟩
      · exact hlookup (builtinFirst_of_declared hsc).lookup.1
      · exact hlookup (builtinFirst_of_declared hsc).lookup.2.1
      · exact hlookup (builtinFirst_of_declared hsc).lookup.2.1
  | functionCall name args =>
      -- The result type of a declared function, substantiated with looked up types.
      rw [typecheckExpression] at h
      obtain ⟨⟨fdec, A⟩, hfunction, h⟩ := bind_eq_ok.mp h
      obtain ⟨_, _, h⟩ := bind_eq_ok.mp h
      obtain ⟨⟨qs, r⟩, hsubstantiate, h⟩ := bind_eq_ok.mp h
      obtain ⟨_, _, h⟩ := bind_eq_ok.mp h
      rw [pure_eq_ok, Prod.mk.injEq] at h
      obtain ⟨_, rfl⟩ := h
      obtain ⟨f, A', hfind, _, hA, hfound⟩ := lookupFunctionName_eq_ok.mp hfunction
      rw [Prod.mk.injEq] at hfound
      obtain ⟨rfl, rfl⟩ := hfound
      have hmem : f ∈ sc.functions := List.mem_of_find?_eq_some hfind
      have hbuilt : ∀ a ∈ A', a.Built sc.types := by
        intro a ha
        obtain ⟨T, _, hT⟩ := forall₂_mem_right hA ha
        exact hlookup hT
      obtain ⟨dec, _, hdec⟩ := forall₂_mem_right (functions_of_declared hsc) hmem
      obtain ⟨ret, _, hret, _, rfl⟩ := typecheckFunctionDeclaration_eq_ok.mp hdec
      exact instanceType_built hbuilt (lookupType_built hfields hret)
        (substantiateFunction_eq_ok.mp hsubstantiate).2

/-! ### The typing rule -/

/-- The expression typechecks to the type that the type expression denotes. -/
def Declared.ChecksAs (sc : Declared) (env : Environment) (T : TypeName) (e : Expression Path) :
    Prop :=
  ∃ e' t g, sc.typecheckExpression env e = .ok (e', t) ∧ T.Denotes sc.types g ∧
    t.forget = g.forget

/-- The typing rule for the calls of a function with some type arguments, in every statechart
that declares the types and the function: the instantiated type expressions of the parameters
denote types, a call is accepted exactly for as many arguments as there are parameters, each of the
type that its parameter denotes, and gets the type that the instantiated result type denotes. -/
def CallsTyped (types : List TypeEntry) (fdec : FunctionDeclaration) (targs : List TypeName) :
    Prop :=
  (∃ f, typecheckFunctionDeclaration types fdec = .ok f) ∧
    (∀ dec ∈ fdec.parameterList.toList, ∃ g,
      (dec.typeName.instantiate fdec.typeParameterNames targs).Denotes types g) ∧
    ∀ statechart sc, typecheckDeclarations statechart = .ok sc → sc.types = types →
      statechart.functionDeclarations.find? (fun f => f.name = fdec.name) = some fdec →
        ∀ env args,
          ((∃ e t, sc.typecheckExpression env (.functionCall ⟨fdec.name, targs⟩ args) =
            .ok (e, t)) ↔
            List.Forall₂ (fun dec arg =>
              sc.ChecksAs env (dec.typeName.instantiate fdec.typeParameterNames targs) arg)
              fdec.parameterList.toList args) ∧
          ∀ e t, sc.typecheckExpression env (.functionCall ⟨fdec.name, targs⟩ args) = .ok (e, t) →
            ∃ g, (fdec.returnTypeName.instantiate fdec.typeParameterNames targs).Denotes types g ∧
              t.forget = g.forget

/-! ### A statechart with a variable for each parameter -/

/-- The parameters of the function with their instantiated type expressions. -/
def instances (fdec : FunctionDeclaration) (targs : List TypeName) : List Declaration :=
  fdec.parameterList.toList.map fun dec =>
    { dec with typeName := dec.typeName.instantiate fdec.typeParameterNames targs }

theorem instances_vname (fdec : FunctionDeclaration) (targs : List TypeName) :
    (instances fdec targs).map Declaration.vname =
    fdec.parameterList.toList.map Declaration.vname := by
  rw [instances, List.map_map]
  rfl

/-- A statechart that declares the function and others after it, and variables of the types of its
parameters. -/
def caller (moreTypes : List TypeDeclaration) (fdec : FunctionDeclaration) (targs : List TypeName)
    (more : List FunctionDeclaration) (name : String) : Statechart where
  root := { plainState name with
    declarations := ⟨instances fdec targs, by
      rw [instances_vname]
      exact fdec.parameterList.nodup⟩ }
  moreTypes := moreTypes
  events := []
  functionDeclarations := fdec :: more
  initialised := by
    intro p hp t ht
    obtain rfl : p = [] := by simpa [State.positions, statesPositions, plainState] using hp
    cases ht

theorem typecheckDeclarations_caller {moreTypes : List TypeDeclaration}
    (htypes : typecheckTypeDeclarations (typeTable moreTypes) 0 (typeTable moreTypes).length =
    .ok types)
    {fdec : FunctionDeclaration} {targs : List TypeName}
    (hinstances : ∀ dec ∈ instances fdec targs, ∃ t, typecheckDeclaration types [] dec = .ok t)
    {f : TypedFunction} (hf : typecheckFunctionDeclaration types fdec = .ok f)
    {more : List FunctionDeclaration} {fs : List TypedFunction}
    (hmore : List.Forall₂ (fun dec f => typecheckFunctionDeclaration types dec = .ok f) more fs)
    (name : String) :
    typecheckDeclarations (caller moreTypes fdec targs more name) =
      .ok ⟨(caller moreTypes fdec targs more name).root, types, [], f :: fs⟩ := by
  have hvariables : typecheckVariableDeclarations types
      (caller moreTypes fdec targs more name).root = .ok () := by
    refine bind_eq_ok.mpr ⟨(), forM_ok fun dec hdec => ?_, rfl⟩
    obtain ⟨t, ht⟩ := hinstances dec hdec
    exact bind_eq_ok.mpr ⟨t, ht, rfl⟩
  have hfunctions : (fdec :: more).mapM (typecheckFunctionDeclaration types) = .ok (f :: fs) :=
    mapM_eq_ok.mpr (.cons hf hmore)
  exact bind_eq_ok.mpr ⟨types, htypes, bind_eq_ok.mpr ⟨(), hvariables,
    bind_eq_ok.mpr ⟨f :: fs, hfunctions, rfl⟩⟩⟩

/-- The variable of a parameter has the type that the instantiated type expression denotes. -/
theorem typecheckExpression_caller {moreTypes : List TypeDeclaration} {fdec : FunctionDeclaration}
    {targs : List TypeName} {more : List FunctionDeclaration} {name : String} {dec : Declaration}
    (hdec : dec ∈ instances fdec targs)
    (hname : dec.vname ≠ name) {t : Ty} (ht : typecheckDeclaration types [] dec = .ok t)
    {fs : List TypedFunction} {sc : Declared}
    (hsc : sc = ⟨(caller moreTypes fdec targs more name).root, types, [], fs⟩) :
    ∃ e, sc.typecheckExpression (getEnvironment sc.root []) (.name [dec.vname]) = .ok (e, t) := by
  subst hsc
  -- The parameters of a function have different names, so the lookup finds the right variable.
  have hfind : (instances fdec targs).find? (fun d => d.vname = dec.vname) = some dec := by
    have hnodup : ((instances fdec targs).map Declaration.vname).Nodup := by
      rw [instances_vname]
      exact fdec.parameterList.nodup
    cases hfound : (instances fdec targs).find? fun d => d.vname = dec.vname with
    | none =>
        have hno := List.find?_eq_none.mp hfound dec hdec
        exact absurd (decide_eq_true rfl) hno
    | some d =>
        have hsame : d.vname = dec.vname := by simpa using List.find?_some hfound
        rw [List.inj_on_of_nodup_map hnodup (List.mem_of_find?_eq_some hfound) hdec hsame]
  have hlocate :
    Declared.locateName ⟨(caller moreTypes fdec targs more name).root, types, [], fs⟩ [dec.vname]
      (getEnvironment (caller moreTypes fdec targs more name).root []) =
        some ((⟨[], dec.vname⟩, dec), [dec.vname]) := by
    have hlookup : Environment.lookup
        (getEnvironment (caller moreTypes fdec targs more name).root []) dec.vname =
          some (⟨[], dec.vname⟩, dec) := by
      have hframe : ((caller moreTypes fdec targs more name).root.declarationsAt []).find?
          (fun d => d.vname = dec.vname) = some dec := hfind
      rw [getEnvironment, Environment.lookup, hframe]
    have hroot : dec.vname ≠ (caller moreTypes fdec targs more name).root.name := hname
    rw [Declared.locateName, if_neg hroot, hlookup]
    rfl
  refine ⟨.name ⟨[dec.vname], ⟨[], dec.vname⟩⟩, ?_⟩
  rw [Declared.typecheckExpression, typecheckName_variable hlocate ht]
  rfl

/-- There is a statechart with the function in which every parameter can be given an argument of the
type that it denotes. -/
theorem exists_caller {moreTypes : List TypeDeclaration}
    (htypes : typecheckTypeDeclarations (typeTable moreTypes) 0 (typeTable moreTypes).length =
    .ok types)
    {fdec : FunctionDeclaration} {targs : List TypeName} {f : TypedFunction}
    (hf : typecheckFunctionDeclaration types fdec = .ok f)
    (hinstances : ∀ dec ∈ fdec.parameterList.toList, ∃ g,
      (dec.typeName.instantiate fdec.typeParameterNames targs).Denotes types g)
    {more : List FunctionDeclaration} {fs : List TypedFunction}
    (hmore : List.Forall₂ (fun dec f => typecheckFunctionDeclaration types dec = .ok f) more fs) :
    ∃ statechart sc env, typecheckDeclarations statechart = .ok sc ∧ sc.types = types ∧
      statechart.functionDeclarations = fdec :: more ∧ sc.functions = f :: fs ∧
      ∀ dec ∈ fdec.parameterList.toList, ∀ g,
        (dec.typeName.instantiate fdec.typeParameterNames targs).Denotes types g →
          ∃ e, sc.typecheckExpression env (.name [dec.vname]) = .ok (e, g) := by
  -- A name for the statechart that no parameter has, so that the names of the arguments are found.
  obtain ⟨name, hfresh⟩ := Infinite.exists_notMem_finset
    (fdec.parameterList.toList.map Declaration.vname).toFinset
  rw [List.mem_toFinset] at hfresh
  refine ⟨caller moreTypes fdec targs more name, _,
    getEnvironment (caller moreTypes fdec targs more name).root [],
    typecheckDeclarations_caller htypes (fun dec hdec => ?_) hf hmore name, rfl, rfl, rfl,
    fun dec hdec g hg => ?_⟩
  · obtain ⟨dec', hdec', heq⟩ := List.mem_map.mp hdec
    subst heq
    exact (hinstances dec' hdec').imp fun t ht => ht _ rfl
  · have hmem : ({ dec with typeName := dec.typeName.instantiate fdec.typeParameterNames targs } :
        Declaration) ∈ instances fdec targs := List.mem_map_of_mem hdec
    have hne : dec.vname ≠ name := fun heq => hfresh (heq ▸ List.mem_map_of_mem hdec)
    exact typecheckExpression_caller hmem hne (hg _ rfl) rfl

/-- A call stays accepted when one argument is replaced by another that is taken for its type. -/
theorem call_replace {sc : Declared} {env : Environment} {f : TypedFunction} {name : FunctionName}
    (hfind : sc.functions.find? (fun f => f.name = name.name) = some f)
    (hcount : f.typeParameterNames.length = name.typeArgumentNames.length) {A : List Ty}
    (hA : List.Forall₂ (fun a t => lookupArgument sc.types [] sc.types.length a = .ok t)
      name.typeArgumentNames A)
    {decs : List Declaration} {vname : String} {arg : Expression Path}
    (hreplace : ∀ u, sc.ChecksTo env u (.name [vname]) → sc.ChecksTo env u arg)
    (hcall : ∃ e t, sc.typecheckExpression env
      (.functionCall name (decs.map fun dec => .name [dec.vname])) = .ok (e, t)) :
    ∃ e t, sc.typecheckExpression env (.functionCall name
      (decs.map fun dec => if dec.vname = vname then arg else .name [dec.vname])) = .ok (e, t) := by
  obtain ⟨e, t, hcall⟩ := hcall
  obtain ⟨ht, us, hus, hchecks⟩ :=
    (Declared.typecheckFunctionCall_eq_ok hfind hcount hA).mp ⟨e, hcall⟩
  have hchecks' : List.Forall₂ (sc.ChecksTo env) us
      (decs.map fun dec => if dec.vname = vname then arg else .name [dec.vname]) := by
    rw [List.forall₂_map_right_iff] at hchecks ⊢
    refine hchecks.imp fun u dec hu => ?_
    by_cases hname : dec.vname = vname
    · rw [if_pos hname]
      exact hreplace u (hname ▸ hu)
    · rwa [if_neg hname]
  obtain ⟨e, he⟩ :=
    (Declared.typecheckFunctionCall_eq_ok hfind hcount hA).mpr ⟨ht, us, hus, hchecks'⟩
  exact ⟨e, t, he⟩

/-! ### A function that returns a type of some type expression -/

/-- A function without parameters that returns the type of a type expression. In a call its type
arguments replace the type variables that `lookupType` has left in the fields of structs. -/
def maker (T : TypeName) (name param : String) (count : Nat) : FunctionDeclaration where
  name := name
  typeParameterNames := List.replicate count param
  returnTypeName := T
  parameterList := ⟨[], List.nodup_nil⟩

/-- The function can be declared. -/
theorem typecheckFunctionDeclaration_maker {T : TypeName} (hT : T.Known types []) {t : Ty}
    (ht : lookupArgument types [] types.length T = .ok t) (name : String) {param : String}
    (hparam : param ∉ types.map TypeEntry.name) (count : Nat) :
    typecheckFunctionDeclaration types (maker T name param count) =
      .ok ⟨name, List.replicate count param, t, []⟩ := by
  have hfresh : ∀ p ∈ List.replicate count param, p ∉ types.map TypeEntry.name :=
    fun p hp => List.eq_of_mem_replicate hp ▸ hparam
  obtain ⟨hname, hlookup⟩ := hT.lookup_fresh hfresh ht
  refine typecheckFunctionDeclaration_eq_ok.mpr ⟨t, [], ?_, .nil, rfl⟩
  show lookupType types (List.replicate count param) types.length T = .ok t
  cases T with
  | mk head args =>
      have hnot : head ∉ List.replicate count param := hname
      rwa [lookupArgument, if_neg hnot] at hlookup

/-- With enough type arguments the function can be called, and its type is substantiated. -/
theorem typecheckExpression_maker {sc : Declared} {name param : String} {s : Ty} {count : Nat}
    (hpos : 0 < count)
    (hfind : sc.functions.find? (fun f => f.name = name) =
      some ⟨name, List.replicate count param, s, []⟩)
    (hcount : ∀ index ∈ s.typeVariables, index < count)
    {T : TypeName} {t : Ty} (ht : lookupArgument sc.types [] sc.types.length T = .ok t)
    (env : Environment) :
    ∃ e r, sc.typecheckExpression env (.functionCall ⟨name, List.replicate count T⟩ []) =
      .ok (e, r) ∧ s.substantiate (List.replicate count t) = .ok r := by
  have hlength : (List.replicate count t).length = count := List.length_replicate
  obtain ⟨r, hr⟩ := (Ty.exists_substantiate_iff (A := List.replicate count t) s).mpr
    fun index hmem => by
      rw [hlength]
      exact hcount index hmem
  have hne : (List.replicate count t).isEmpty = false := by
    rw [List.isEmpty_eq_false_iff, ← List.length_pos_iff, hlength]
    exact hpos
  have hreplicate : List.Forall₂ (fun a t => lookupArgument sc.types [] sc.types.length a = .ok t)
      (List.replicate count T) (List.replicate count t) := by
    rw [← List.map_replicate (f := fun _ => T) (a := ()),
      ← List.map_replicate (f := fun _ => t) (a := ()), List.forall₂_map_left_iff,
      List.forall₂_map_right_iff, List.forall₂_same]
    exact fun _ _ => ht
  have hresult : Declared.instanceType (List.replicate count t) s = .ok r := by
    rw [Declared.instanceType, hne, if_neg Bool.false_ne_true]
    exact (Ty.substantiate_copy s).mpr hr
  have hsame : (List.replicate count param).length = (List.replicate count T).length := by
    rw [List.length_replicate, List.length_replicate]
  obtain ⟨e, he⟩ : ∃ e, sc.typecheckExpression env
      (.functionCall ⟨name, List.replicate count T⟩ []) = .ok (e, r) :=
    (Declared.typecheckFunctionCall_eq_ok hfind hsame hreplicate).mpr
      ⟨hresult, [], .nil, .nil⟩
  exact ⟨e, r, he, hr⟩

/-! ### Calls where everything fits -/

section
variable {fdec : FunctionDeclaration} {targs : List TypeName}
  (hparameters : ∀ dec ∈ fdec.parameterList.toList,
    dec.typeName.Known types fdec.typeParameterNames)
  (hreturn : fdec.returnTypeName.Known types fdec.typeParameterNames)
  (htargs : ∀ t ∈ targs, t.Known types [])
  (hlength : targs.length = fdec.typeParameterNames.length)

include hparameters hreturn htargs hlength in
/-- Where the parameters and the result fit, the calls are typed as they should be. -/
theorem callsTyped_of_fits (hfields : ∀ j, FieldsTypedAt types j) {A : List Ty}
    (hA : List.Forall₂ (fun a t => lookupArgument types [] types.length a = .ok t) targs A)
    (hfits : ∀ dec ∈ fdec.parameterList.toList,
      ParameterFits types fdec.typeParameterNames targs dec.typeName)
    (hresult : ResultFits types fdec.typeParameterNames targs fdec.returnTypeName) :
    CallsTyped types fdec targs := by
  have hargument := fun dec hdec => argument_of_fits hfields hlength hA (hparameters dec hdec)
    htargs (hfits dec hdec) rfl
  have hstored : ∀ dec ∈ fdec.parameterList.toList, ∃ s,
      typecheckDeclaration types fdec.typeParameterNames dec = .ok s := by
    intro dec hdec
    obtain ⟨s, _, _, hs, _⟩ := hargument dec hdec
    exact ⟨s, hs⟩
  obtain ⟨ps, hps⟩ := exists_forall₂_iff.mpr hstored
  obtain ⟨ret, hret⟩ := (hreturn.exists_lookup hfields).2
  obtain ⟨r, g, hr, hg, hrg⟩ :=
    (result_spec hfields hlength hA hreturn htargs hret).mpr hresult
  have hf := typecheckFunctionDeclaration_eq_ok.mpr ⟨ret, ps, hret, hps, rfl⟩
  have hdenotes : ∀ dec ∈ fdec.parameterList.toList, ∃ g,
      (dec.typeName.instantiate fdec.typeParameterNames targs).Denotes types g := by
    intro dec hdec
    obtain ⟨_, _, g, _, _, hg, _⟩ := hargument dec hdec
    exact ⟨g, hg⟩
  refine ⟨⟨_, hf⟩, hdenotes, fun statechart sc hsc hsame hdeclared env args => ?_⟩
  subst hsame
  obtain ⟨f, hfind, hf'⟩ := find?_functions (functions_of_declared hsc) hdeclared
  obtain rfl := Except.ok.inj (hf.symm.trans hf')
  have hcall : ∀ t, (∃ e, sc.typecheckExpression env (.functionCall ⟨fdec.name, targs⟩ args) =
      .ok (e, t)) ↔ Declared.instanceType A ret = .ok t ∧
        ∃ us, List.Forall₂ (Declared.ArgumentType A) ps us ∧
          List.Forall₂ (sc.ChecksTo env) us args :=
    fun t => Declared.typecheckFunctionCall_eq_ok
      (f := ⟨fdec.name, fdec.typeParameterNames, ret, ps⟩) hfind hlength.symm hA
  -- What the arguments are compared with: it takes exactly the arguments of the denoted types.
  obtain ⟨us, hus, hchecks⟩ := exists_forall₂_both hps fun dec hdec {s} hs => by
    obtain ⟨s', u, g, hs', hu, hg, hiff⟩ := hargument dec hdec
    obtain rfl : s = s' := Except.ok.inj (hs.symm.trans hs')
    have hsame : ∀ arg, sc.ChecksTo env u arg ↔
        sc.ChecksAs env (dec.typeName.instantiate fdec.typeParameterNames targs) arg := by
      intro arg
      constructor
      · rintro ⟨e, t, he, hequal⟩
        have hbuilt := Declared.typecheckExpression_built hsc he
        exact ⟨e, t, g, he, hg, (hiff t hbuilt).mp hequal⟩
      · rintro ⟨e, t, g', he, hg', heq⟩
        obtain rfl := hg.unique hg'
        have hbuilt := Declared.typecheckExpression_built hsc he
        exact ⟨e, t, he, (hiff t hbuilt).mpr heq⟩
    exact ⟨u, hu, hsame⟩
  have hlists : List.Forall₂ (sc.ChecksTo env) us args ↔ List.Forall₂ (fun dec arg =>
      sc.ChecksAs env (dec.typeName.instantiate fdec.typeParameterNames targs) arg)
      fdec.parameterList.toList args := by
    refine forall₂_iff_of_related hchecks ?_ (List.forall₂_same.mpr fun arg _ => Eq.refl arg)
    rintro dec _ u arg _ hsame rfl
    exact hsame arg
  constructor
  · rw [← hlists]
    constructor
    · rintro ⟨e, t, h⟩
      obtain ⟨_, us', hus', hchecks'⟩ := (hcall t).mp ⟨e, h⟩
      rwa [List.right_unique_forall₂' (Declared.ArgumentType.unique A) hus hus']
    · intro h
      obtain ⟨e, he⟩ := (hcall r).mpr ⟨hr, us, hus, h⟩
      exact ⟨e, r, he⟩
  · intro e t h
    obtain ⟨ht, _⟩ := (hcall t).mp ⟨e, h⟩
    obtain rfl := Except.ok.inj (hr.symm.trans ht)
    exact ⟨g, hg, hrg⟩

/-! ### Calls that are typed as they should be -/

/-- Where the calls are typed as they should be, the variables of the parameter types can be passed
to the function, also in a statechart with more functions. -/
theorem exists_accepted {moreTypes : List TypeDeclaration}
    (htypes : typecheckTypeDeclarations (typeTable moreTypes) 0 (typeTable moreTypes).length =
    .ok types)
    (hcalls : CallsTyped types fdec targs) {f : TypedFunction}
    (hf : typecheckFunctionDeclaration types fdec = .ok f) {more : List FunctionDeclaration}
    {fs : List TypedFunction}
    (hmore : List.Forall₂ (fun dec f => typecheckFunctionDeclaration types dec = .ok f) more fs) :
    ∃ statechart sc env, typecheckDeclarations statechart = .ok sc ∧ sc.types = types ∧
      statechart.functionDeclarations.find? (fun f => f.name = fdec.name) = some fdec ∧
      sc.functions = f :: fs ∧
      (∀ dec ∈ fdec.parameterList.toList, ∃ e g,
        (dec.typeName.instantiate fdec.typeParameterNames targs).Denotes types g ∧
          sc.typecheckExpression env (.name [dec.vname]) = .ok (e, g)) ∧
      ∃ e t, sc.typecheckExpression env (.functionCall ⟨fdec.name, targs⟩
        (fdec.parameterList.toList.map fun dec => .name [dec.vname])) = .ok (e, t) := by
  obtain ⟨_, hdenotes, hrule⟩ := hcalls
  obtain ⟨statechart, sc, env, hsc, hsame, hfunctions, hfs, hvariable⟩ :=
    exists_caller htypes hf hdenotes hmore
  have hvariables : ∀ dec ∈ fdec.parameterList.toList, ∃ e g,
      (dec.typeName.instantiate fdec.typeParameterNames targs).Denotes types g ∧
        sc.typecheckExpression env (.name [dec.vname]) = .ok (e, g) := by
    intro dec hdec
    obtain ⟨g, hg⟩ := hdenotes dec hdec
    obtain ⟨e, he⟩ := hvariable dec hdec g hg
    exact ⟨e, g, hg, he⟩
  have hdeclared : statechart.functionDeclarations.find? (fun f => f.name = fdec.name) =
      some fdec := by
    simp [hfunctions]
  refine ⟨statechart, sc, env, hsc, hsame, hdeclared, hfs, hvariables, ?_⟩
  refine (hrule statechart sc hsc hsame hdeclared env _).1.mpr ?_
  rw [List.forall₂_map_right_iff, List.forall₂_same]
  intro dec hdec
  obtain ⟨e, g, hg, he⟩ := hvariables dec hdec
  exact ⟨e, g, g, he, hsame ▸ hg, rfl⟩

include hparameters htargs hlength in
/-- Then no type variable is left in the looked up type of a parameter's instance. Else this type
expression has different types, which a function can return, and an argument of each of them is
accepted. -/
theorem closed_of_callsTyped {moreTypes : List TypeDeclaration}
    (htypes : typecheckTypeDeclarations (typeTable moreTypes) 0 (typeTable moreTypes).length =
    .ok types)
    (hcalls : CallsTyped types fdec targs) {dec : Declaration}
    (hdec : dec ∈ fdec.parameterList.toList) {s : Ty}
    (hs : lookupArgument types [] types.length
      (dec.typeName.instantiate fdec.typeParameterNames targs) = .ok s) : s.Closed := by
  intro index hmem
  have hfields := fieldsTyped_of_typeTable htypes
  have hbuiltin : BuiltinFirst types := BuiltinFirst.typecheckTypeDeclarations ⟨_, rfl⟩ htypes
  have hknown := (hparameters dec hdec).instantiate htargs hlength
  obtain ⟨A, hA⟩ := exists_forall₂_iff.mpr fun t ht => ((htargs t ht).exists_lookup hfields).1
  obtain ⟨f, hf⟩ := hcalls.1
  -- Names for the new function and its type parameters, and enough of them.
  obtain ⟨param, hparam⟩ := Infinite.exists_notMem_finset (types.map TypeEntry.name).toFinset
  rw [List.mem_toFinset] at hparam
  obtain ⟨name, hname⟩ := Infinite.exists_notMem_finset {fdec.name}
  rw [Finset.mem_singleton] at hname
  obtain ⟨count, hsubset⟩ := Finset.exists_nat_subset_range s.typeVariables.toFinset
  have hcount : ∀ index ∈ s.typeVariables, index < count :=
    fun index hmem => Finset.mem_range.mp (hsubset (List.mem_toFinset.mpr hmem))
  have hlt := hcount index hmem
  have hmaker := typecheckFunctionDeclaration_maker hknown hs name hparam count
  obtain ⟨statechart, sc, env, hsc, rfl, hdeclared, hfs, hvariables, hcall⟩ :=
    exists_accepted htypes hcalls hf (.cons hmaker .nil)
  obtain ⟨ret, ps, _, _, rfl⟩ := typecheckFunctionDeclaration_eq_ok.mp hf
  have hfind : sc.functions.find? (fun f => f.name = fdec.name) =
      some ⟨fdec.name, fdec.typeParameterNames, ret, ps⟩ := by
    simp [hfs]
  have hfindMaker : sc.functions.find? (fun f => f.name = name) =
      some ⟨name, List.replicate count param, s, []⟩ := by
    simp [hfs, Ne.symm hname]
  -- A call of the new function is accepted as an argument, so it has the denoted type.
  have hdenoted : ∀ {arg e r A}, sc.typecheckExpression env arg = .ok (e, r) →
      s.substantiate A = .ok r →
        ∃ g, (dec.typeName.instantiate fdec.typeParameterNames targs).Denotes sc.types g ∧
          r.forget = g.forget := by
    intro arg e r A harg hr
    have hreplace : ∀ u, sc.ChecksTo env u (.name [dec.vname]) → sc.ChecksTo env u arg := by
      rintro u ⟨e', t, ht, hequal⟩
      obtain ⟨e'', g, hg, he''⟩ := hvariables dec hdec
      rw [he'', Except.ok.injEq, Prod.mk.injEq] at ht
      obtain ⟨_, rfl⟩ := ht
      rw [hknown.equals_denoted hfields hs hg hr] at hequal
      exact ⟨e, r, harg, hequal⟩
    have hchecks := (hcalls.2.2 statechart sc hsc rfl hdeclared env _).1.mp
      (call_replace hfind hlength.symm hA hreplace hcall)
    rw [List.forall₂_map_right_iff, List.forall₂_same] at hchecks
    have hcheck := hchecks dec hdec
    rw [if_pos rfl] at hcheck
    obtain ⟨e', t, g, ht, hg, heq⟩ := hcheck
    rw [harg, Except.ok.injEq, Prod.mk.injEq] at ht
    exact ⟨g, hg, ht.2 ▸ heq⟩
  -- Two calls with different type arguments have different types.
  have hint : lookupArgument sc.types [] sc.types.length (.mk "int" []) = .ok Ty.int := by
    rw [lookupArgument_nil]
    exact hbuiltin.lookup.1
  have hboolean : lookupArgument sc.types [] sc.types.length (.mk "boolean" []) =
      .ok Ty.boolean := by
    rw [lookupArgument_nil]
    exact hbuiltin.lookup.2.1
  obtain ⟨e₁, r₁, hcall₁, hsub₁⟩ :=
    typecheckExpression_maker (by omega) hfindMaker hcount hint env
  obtain ⟨e₂, r₂, hcall₂, hsub₂⟩ :=
    typecheckExpression_maker (by omega) hfindMaker hcount hboolean env
  obtain ⟨g₁, hg₁, heq₁⟩ := hdenoted hcall₁ hsub₁
  obtain ⟨g₂, hg₂, heq₂⟩ := hdenoted hcall₂ hsub₂
  obtain rfl := hg₁.unique hg₂
  have hargs := (Ty.forget_substantiate_iff s hsub₁ hsub₂).mp (heq₁.trans heq₂.symm) index hmem
  rw [List.getElem?_replicate_of_lt hlt, List.getElem?_replicate_of_lt hlt] at hargs
  simp [Ty.int, Ty.boolean, Ty.builtin, Ty.forget] at hargs

include hparameters hreturn htargs hlength in
/-- The parameters and the result then fit. -/
theorem fits_of_callsTyped {moreTypes : List TypeDeclaration}
    (htypes : typecheckTypeDeclarations (typeTable moreTypes) 0 (typeTable moreTypes).length =
    .ok types)
    (hcalls : CallsTyped types fdec targs) :
    (∀ dec ∈ fdec.parameterList.toList,
      ParameterFits types fdec.typeParameterNames targs dec.typeName) ∧
      ResultFits types fdec.typeParameterNames targs fdec.returnTypeName := by
  have hfields := fieldsTyped_of_typeTable htypes
  obtain ⟨A, hA⟩ := exists_forall₂_iff.mpr fun t ht => ((htargs t ht).exists_lookup hfields).1
  obtain ⟨f, hf⟩ := hcalls.1
  have hclosed : ∀ dec ∈ fdec.parameterList.toList, ∀ s, lookupArgument types [] types.length
      (dec.typeName.instantiate fdec.typeParameterNames targs) = .ok s → s.Closed :=
    fun dec hdec s => closed_of_callsTyped hparameters htargs hlength htypes hcalls hdec
  obtain ⟨statechart, sc, env, hsc, rfl, hdeclared, hfs, hvariables, e, t, hcall⟩ :=
    exists_accepted htypes hcalls hf .nil
  obtain ⟨ret, ps, hret, hps, rfl⟩ := typecheckFunctionDeclaration_eq_ok.mp hf
  have hfind : sc.functions.find? (fun f => f.name = fdec.name) =
      some ⟨fdec.name, fdec.typeParameterNames, ret, ps⟩ := by
    simp [hfs]
  obtain ⟨hr, us, hus, hchecks⟩ :=
    (Declared.typecheckFunctionCall_eq_ok hfind hlength.symm hA).mp ⟨e, hcall⟩
  constructor
  · intro dec hdec
    have hknown := (hparameters dec hdec).instantiate htargs hlength
    obtain ⟨s, hs⟩ := (hknown.exists_lookup hfields).1
    refine ⟨?_, (TypeName.structsClosed_iff hfields hknown hs).mpr (hclosed dec hdec s hs)⟩
    -- The type that the argument is compared with equals the denoted one.
    rw [List.forall₂_map_right_iff] at hchecks
    obtain ⟨u, ⟨s, hs, hu⟩, e', t', he', hequal⟩ :=
      List.forall₂_same.mp (forall₂_comp (forall₂_comp hps hus) hchecks) dec hdec
    obtain ⟨e'', g, hg, he''⟩ := hvariables dec hdec
    rw [he'', Except.ok.injEq, Prod.mk.injEq] at he'
    rw [← he'.2] at hequal
    exact (argument_equals_iff hfields hlength hA (hparameters dec hdec) rfl hs hu hg).mp hequal
  · obtain ⟨g, hg, heq⟩ := (hcalls.2.2 statechart sc hsc rfl hdeclared env _).2 e t hcall
    exact (result_spec hfields hlength hA hreturn htargs hret).mp ⟨t, g, hr, hg, heq⟩

end

/-- The calls of a function with some type arguments are typed as they should be exactly when each
parameter and the result fit. -/
theorem callsTyped_iff {moreTypes : List TypeDeclaration}
    (htypes : typecheckTypeDeclarations (typeTable moreTypes) 0 (typeTable moreTypes).length =
    .ok types)
    {fdec : FunctionDeclaration}
    (hparameters : ∀ dec ∈ fdec.parameterList.toList,
      dec.typeName.Known types fdec.typeParameterNames)
    (hreturn : fdec.returnTypeName.Known types fdec.typeParameterNames) {targs : List TypeName}
    (htargs : ∀ t ∈ targs, t.Known types [])
    (hlength : targs.length = fdec.typeParameterNames.length) :
    CallsTyped types fdec targs ↔
      (∀ dec ∈ fdec.parameterList.toList,
        ParameterFits types fdec.typeParameterNames targs dec.typeName) ∧
      ResultFits types fdec.typeParameterNames targs fdec.returnTypeName := by
  have hfields := fieldsTyped_of_typeTable htypes
  obtain ⟨A, hA⟩ := exists_forall₂_iff.mpr fun t ht => ((htargs t ht).exists_lookup hfields).1
  constructor
  · exact fits_of_callsTyped hparameters hreturn htargs hlength htypes
  · rintro ⟨hfits, hresult⟩
    exact callsTyped_of_fits hparameters hreturn htargs hlength hfields hA hfits hresult

end

/-- The type declarations of the statechart `flipping`. -/
def mapTypes : List TypeDeclaration := [.basicType "map" ["a", "b"]]

/-- A map with its type arguments in the order of the type parameters, and its first half. -/
def firstOf : FunctionDeclaration where
  name := "first"
  typeParameterNames := ["A", "B"]
  returnTypeName := .mk "A" []
  parameterList := ⟨[⟨"x", .localScope, .mk "map" [.mk "A" [], .mk "B" []], false⟩], by decide⟩

/-- A map with its type arguments in the other order. -/
def flip : FunctionDeclaration where
  name := "flip"
  typeParameterNames := ["A", "B"]
  returnTypeName := .mk "int" []
  parameterList := ⟨[⟨"x", .localScope, .mk "map" [.mk "B" [], .mk "A" []], false⟩], by decide⟩

theorem callsTyped_iff_firstOf :
    CallsTyped (typeTable mapTypes) firstOf [.mk "int" [], .mk "boolean" []] := by
  have hint : TypeName.StructsClosed (typeTable mapTypes) (.mk "int" []) :=
    .basicType (j := 0) rfl (List.forall_mem_nil _)
  have hboolean : TypeName.StructsClosed (typeTable mapTypes) (.mk "boolean" []) :=
    .basicType (j := 1) rfl (List.forall_mem_nil _)
  have hmap : TypeName.StructsClosed (typeTable mapTypes)
      (.mk "map" [.mk "int" [], .mk "boolean" []]) :=
    .basicType (j := 3) rfl (by simp [hint, hboolean])
  have hA : TypeName.Known (typeTable mapTypes) ["A", "B"] (.mk "A" []) := .parameter (by decide)
  have hB : TypeName.Known (typeTable mapTypes) ["A", "B"] (.mk "B" []) := .parameter (by decide)
  have hknown : TypeName.Known (typeTable mapTypes) ["A", "B"]
      (.mk "map" [.mk "A" [], .mk "B" []]) :=
    .declared (by decide) (j := 3) rfl (by simp [hA, hB])
  have hground : ∀ t ∈ [TypeName.mk "int" [], .mk "boolean" []],
      t.Known (typeTable mapTypes) [] := by
    rw [List.forall_mem_cons, List.forall_mem_singleton]
    exact ⟨.declared List.not_mem_nil (j := 0) rfl (List.forall_mem_nil _),
      .declared List.not_mem_nil (j := 1) rfl (List.forall_mem_nil _)⟩
  have htypes : typecheckTypeDeclarations (typeTable mapTypes) 0 (typeTable mapTypes).length =
      .ok (typeTable mapTypes) := rfl
  refine (callsTyped_iff htypes ?_ hA hground rfl).mpr
    ⟨List.forall_mem_singleton.mpr ⟨Or.inr fun p hp => ?_, hmap⟩,
      .parameter (by decide) ⟨List.forall_mem_nil _, fun _ => rfl⟩⟩
  · exact List.forall_mem_singleton.mpr hknown
  have hp : p ∈ ["A", "B"] := hp
  rcases List.mem_pair.mp hp with rfl | rfl
  · exact ⟨_, _, rfl, rfl, rfl⟩
  · exact ⟨_, _, rfl, rfl, rfl⟩

/-- The call of `flip` with a map from numbers to booleans. -/
def flipping : Statechart where
  root := { plainState "Flipping" with
    declarations := ⟨[
      ⟨"m", .localScope, .mk "map" [.mk "boolean" [], .mk "int" []], false⟩,
      ⟨"n", .localScope, .mk "map" [.mk "int" [], .mk "boolean" []], false⟩], by decide⟩
    entry := .statementList [.expressionStatement
      (.functionCall ⟨"flip", [.mk "int" [], .mk "boolean" []]⟩ [.name ["n"]])] }
  moreTypes := mapTypes
  events := []
  functionDeclarations := [flip]
  initialised := by decide

/-- The call is accepted with a map from numbers to booleans, and not with the other map. -/
theorem not_callsTyped_flip : (typecheck flipping).isOk = true ∧
    ¬ CallsTyped (typeTable mapTypes) flip [.mk "int" [], .mk "boolean" []] := by
  refine ⟨by decide, fun h => ?_⟩
  have hdenotes : TypeName.Denotes (typeTable mapTypes) (.mk "map" [.mk "boolean" [], .mk "int" []])
      (.basicType "map" 3 ["a", "b"] [Ty.boolean, Ty.int]) :=
    TypeName.Denotes.intro
      (d := ⟨"", .localScope, .mk "map" [.mk "boolean" [], .mk "int" []], false⟩) rfl
  have hm : (declared flipping).ChecksAs (getEnvironment flipping.root [])
      (.mk "map" [.mk "boolean" [], .mk "int" []]) (.name ["m"]) :=
    ⟨_, _, _, rfl, hdenotes, rfl⟩
  obtain ⟨e, t, haccepted⟩ := (h.2.2 flipping (declared flipping) (eq_ok_getD (by decide) _) rfl rfl
    (getEnvironment flipping.root []) [.name ["m"]]).1.mpr (.cons hm .nil)
  have hrefused : ((declared flipping).typecheckExpression (getEnvironment flipping.root [])
      (.functionCall ⟨"flip", [.mk "int" [], .mk "boolean" []]⟩ [.name ["m"]])).isOk = false :=
        by decide
  rw [show (.functionCall ⟨"flip", _⟩ _ : Expression Path) =
    .functionCall ⟨flip.name, _⟩ _ from rfl,
    haccepted] at hrefused
  cases hrefused

end Stabl
