import Stabl.Proofs.Frontend.TypeObjects

/-!
# `Stabl.Proofs.Frontend.CallTypes`: the types of a call

The types of a function's parameters are substantiated when the function is declared (with
their own type arguments), when a call is resolved and once more for each argument. The
result type is looked up without the first substitution, and a struct loses its type arguments
before the second one. `typecheckFunctionCall_eq_ok` says what a call is accepted for and what
its type is. `ParameterFits` says when an argument is compared with the type that the parameter
denotes (`argument_of_fits`), and `ResultFits` when the call has the type that the result type
denotes (`result_spec`).
-/

set_option autoImplicit false

namespace Stabl

open Result

/-! ### One call -/

namespace Declared

variable {d : Declared}

/-- The expression typechecks to a type that equals `u`. -/
def ChecksTo (d : Declared) (env : Environment) (u : Ty) (e : Expression Path) : Prop :=
  ∃ e' t, d.typecheckExpression env e = .ok (e', t) ∧ u.equals t = true

/-- The arguments are checked against the parameter types, each substantiated once more. -/
theorem typecheckArguments_isOk {env : Environment} {A : List Ty} (qs : List Ty) :
      ∀ {args : List (Expression Path)}, args.length = qs.length →
      ((∃ args', d.typecheckArguments env A qs args = .ok args') ↔
        ∃ us, List.Forall₂ (fun q u => q.substantiate A = .ok u) qs us ∧
          List.Forall₂ (d.ChecksTo env) us args) := by
  induction qs with
  | nil =>
      intro args hlength
      rw [List.length_nil] at hlength
      obtain rfl := List.length_eq_zero_iff.mp hlength
      rw [typecheckArguments]
      · exact iff_of_true ⟨[], rfl⟩ ⟨[], .nil, .nil⟩
      · simp
  | cons q qs ih =>
      intro args hlength
      cases args with
      | nil => cases hlength
      | cons arg args =>
          rw [List.length_cons, List.length_cons, Nat.add_right_cancel_iff] at hlength
          -- One argument, and then the rest of the list.
          rw [typecheckArguments]
          simp only [bind_eq_ok, pure_eq_ok, Prod.exists, require_eq_ok]
          constructor
          · rintro ⟨args', e', t, ht, u, hu, _, hequal, rest, hrest, _⟩
            obtain ⟨us, hus, hchecks⟩ := (ih hlength).mp ⟨rest, hrest⟩
            exact ⟨u :: us, .cons hu hus, .cons ⟨e', t, ht, hequal⟩ hchecks⟩
          · rintro ⟨us, hus, hchecks⟩
            cases hus with
            | cons hu hus =>
                cases hchecks with
                | cons hcheck hchecks =>
                    obtain ⟨e', t, ht, hequal⟩ := hcheck
                    obtain ⟨rest, hrest⟩ := (ih hlength).mpr ⟨_, hus, hchecks⟩
                    exact ⟨e' :: rest, e', t, ht, _, hu, (), hequal, rest, hrest, rfl⟩

/-- What `substantiateFunction` makes of a parameter type and of the result type. -/
def instanceType (typeArguments : List Ty) (t : Ty) : Check Ty :=
  if typeArguments.isEmpty then pure t.copy else t.copy.substantiate typeArguments

/-- What an argument is compared with: the type is substantiated once more. -/
def ArgumentType (typeArguments : List Ty) (p u : Ty) : Prop :=
  ∃ q, instanceType typeArguments p = .ok q ∧ q.substantiate typeArguments = .ok u

theorem ArgumentType.unique (A : List Ty) : Relator.RightUnique (ArgumentType A) := by
  rintro p u u' ⟨q, hq, hu⟩ ⟨q', hq', hu'⟩
  obtain rfl : q = q' := Except.ok.inj (hq.symm.trans hq')
  exact Except.ok.inj (hu.symm.trans hu')

/-- The types of a function are substantiated one by one. -/
theorem substantiateFunction_eq_ok {f : TypedFunction} {A qs : List Ty} {t : Ty} :
    substantiateFunction { f with
        returnType := f.returnType.copy
        parameterTypes := Ty.copyList f.parameterTypes } A = .ok (qs, t) ↔
      List.Forall₂ (fun p q => instanceType A p = .ok q) f.parameterTypes qs ∧
        instanceType A f.returnType = .ok t := by
  unfold substantiateFunction instanceType
  cases A with
  | nil =>
      simp only [List.isEmpty_nil, if_pos, pure_eq_ok, Prod.mk.injEq, Ty.copyList_eq_map]
      rw [← List.forall₂_map_left_iff (R := (· = ·)), List.forall₂_eq_eq_eq]
  | cons a A =>
      simp only [List.isEmpty_cons, Bool.false_eq_true, if_false, bind_eq_ok, pure_eq_ok,
        Prod.mk.injEq, Ty.substantiateList_eq_ok, Ty.copyList_eq_map, List.forall₂_map_left_iff]
      constructor
      · rintro ⟨us, hus, r, hr, rfl, rfl⟩
        exact ⟨hus, hr⟩
      · rintro ⟨hus, hr⟩
        exact ⟨qs, hus, t, hr, rfl, rfl⟩

/-- A function is found by its name, with as many type arguments as it has type parameters, each
of which is looked up. -/
theorem lookupFunctionName_eq_ok {name : FunctionName} {found : TypedFunction × List Ty} :
    d.lookupFunctionName name = .ok found ↔ ∃ f A,
      d.functions.find? (fun f => f.name = name.name) = some f ∧
        f.typeParameterNames.length = name.typeArgumentNames.length ∧
        List.Forall₂ (fun a t => lookupGroundType d.types a = .ok t) name.typeArgumentNames A ∧
        ({ f with
          returnType := f.returnType.copy
          parameterTypes := Ty.copyList f.parameterTypes }, A) = found := by
  unfold lookupFunctionName
  cases hfind : d.functions.find? fun f => f.name = name.name with
  | none => simp [bind, Except.bind]
  | some f =>
      by_cases hcount : f.typeParameterNames.length = name.typeArgumentNames.length
      · simp only [if_pos hcount, bind_eq_ok, pure_eq_ok, mapM_eq_ok, Option.some.injEq]
        constructor
        · rintro ⟨_, rfl, A, hA, heq⟩
          exact ⟨f, A, rfl, hcount, hA, heq⟩
        · rintro ⟨_, A, rfl, _, hA, heq⟩
          exact ⟨f, rfl, A, hA, heq⟩
      · simp [bind, Except.bind, hcount]

/-- A call is accepted for arguments that check to the substantiated parameter types, when the
result type can be substantiated, and has this type. -/
theorem typecheckFunctionCall_eq_ok {env : Environment} {f : TypedFunction} {name : FunctionName}
    (hfind : d.functions.find? (fun f => f.name = name.name) = some f)
    (hcount : f.typeParameterNames.length = name.typeArgumentNames.length) {A : List Ty}
    (hA : List.Forall₂ (fun a t => lookupArgument d.types [] d.types.length a = .ok t)
      name.typeArgumentNames A)
    {args : List (Expression Path)} {t : Ty} :
    (∃ e, d.typecheckExpression env (.functionCall name args) = .ok (e, t)) ↔
      instanceType A f.returnType = .ok t ∧
        ∃ us, List.Forall₂ (ArgumentType A) f.parameterTypes us ∧
          List.Forall₂ (d.ChecksTo env) us args := by
  have hlookups : List.Forall₂ (fun a t => lookupGroundType d.types a = .ok t)
      name.typeArgumentNames A := hA.imp fun a t h => by rwa [lookupArgument_nil] at h
  have hfunction := lookupFunctionName_eq_ok.mpr ⟨f, A, hfind, hcount, hlookups, rfl⟩
  have hcopies : (Ty.copyList f.parameterTypes).length = f.parameterTypes.length := by
    rw [Ty.copyList_eq_map, List.length_map]
  rw [typecheckExpression]
  simp only [bind_eq_ok, pure_eq_ok, Prod.exists, hfunction, Except.ok.injEq, Prod.mk.injEq,
    require_eq_ok, beq_iff_eq]
  constructor
  · rintro ⟨e, f', A', ⟨rfl, rfl⟩, _, hlength, qs, r, hsubstantiate, args', hargs', _, rfl⟩
    obtain ⟨hqs, hr⟩ := substantiateFunction_eq_ok.mp hsubstantiate
    have hlength : (Ty.copyList f.parameterTypes).length = args.length := hlength
    have hsame := hqs.length_eq
    obtain ⟨us, hus, hchecks⟩ := (typecheckArguments_isOk qs (by omega)).mp ⟨args', hargs'⟩
    exact ⟨hr, us, forall₂_comp hqs hus, hchecks⟩
  · rintro ⟨hr, us, hus, hchecks⟩
    -- The types between the two substitutions.
    obtain ⟨qs, hqs, hsub⟩ := exists_forall₂_both hus.flip
      fun u _ {p} h => (⟨h.choose, h.choose_spec⟩ : ∃ q, instanceType A p = .ok q ∧
        q.substantiate A = .ok u)
    have hlengths := hus.length_eq
    have hlength := hchecks.length_eq
    have hsame := hqs.length_eq
    obtain ⟨args', hargs'⟩ :=
      (typecheckArguments_isOk qs (by omega)).mpr ⟨us, hsub.flip, hchecks⟩
    refine ⟨_, _, A, ⟨rfl, rfl⟩, (), ?_, qs, t, substantiateFunction_eq_ok.mpr ⟨hqs, hr⟩,
      args', hargs', rfl, rfl⟩
    show (Ty.copyList f.parameterTypes).length = args.length
    omega

end Declared

section
variable {types : List TypeEntry}

/-! ### The types of the parameters -/

namespace TypeName

mutual

/-- The type parameters that occur outside the type arguments of structs. -/
def outerParameters (types : List TypeEntry) (params : List String) : TypeName → List String
  | .mk name args =>
    if name ∈ params then [name]
    else if isStruct types (.mk name args) then [] else outerParametersOfList types params args

/-- The type parameters that occur in the type expressions outside the type arguments of
structs. -/
def outerParametersOfList (types : List TypeEntry) (params : List String) :
    List TypeName → List String
  | [] => []
  | T :: Ts => T.outerParameters types params ++ outerParametersOfList types params Ts

end

/-- At the index of the type parameter stands its type argument, up to the type arguments of
structs. -/
def StandsInPlace (types : List TypeEntry) (params : List String) (targs args : List TypeName)
    (p : String) : Prop :=
  ∃ a e, args[params.idxOf p]? = some a ∧ targs[params.idxOf p]? = some e ∧
    sameOutsideStructs types (a.instantiate params targs) e = true

/-- A type parameter by itself, or a type expression with all its type parameters in place. -/
def InPlaceOutsideStructs (types : List TypeEntry) (params : List String) (targs : List TypeName)
    (T : TypeName) : Prop :=
  T.name ∈ params ∨ ∀ p ∈ T.outerParameters types params,
    StandsInPlace types params targs T.typeArgumentNames p

theorem outerParameters_parameter {types : List TypeEntry} {params : List String} {name : String}
    {args : List TypeName} (hname : name ∈ params) :
    (mk name args).outerParameters types params = [name] := by
  rw [outerParameters, if_pos hname]

theorem outerParameters_basicType {types : List TypeEntry} {params : List String} {name : String}
    {args : List TypeName} (hname : name ∉ params) {j : Nat} {name' : String}
    {params' : List String}
    (hentry : getKnownType types (.mk name args) types.length =
      some (j, .basicType name' params')) :
    (mk name args).outerParameters types params = outerParametersOfList types params args := by
  simp [outerParameters, hname, isStruct, hentry]

theorem outerParameters_struct {types : List TypeEntry} {params : List String} {name : String}
    {args : List TypeName} (hname : name ∉ params) {j : Nat} {name' : String}
    {decs : List Declaration} {params' : List String} {fieldTypes : List Ty}
    (hentry : getKnownType types (.mk name args) types.length =
      some (j, .struct name' decs params' fieldTypes)) :
    (mk name args).outerParameters types params = [] := by
  simp [outerParameters, hname, isStruct, hentry]

theorem mem_outerParametersOfList {types : List TypeEntry} {params : List String}
    {Ts : List TypeName} {p : String} :
    p ∈ outerParametersOfList types params Ts ↔ ∃ T ∈ Ts, p ∈ T.outerParameters types params := by
  induction Ts with
  | nil => simp [outerParametersOfList]
  | cons T Ts ih => rw [outerParametersOfList, List.mem_append, ih, List.exists_mem_cons_iff]

theorem forall_mem_outerParametersOfList {types : List TypeEntry} {params : List String}
    {Ts : List TypeName} {P : String → Prop} :
    (∀ p ∈ outerParametersOfList types params Ts, P p) ↔
      ∀ T ∈ Ts, ∀ p ∈ T.outerParameters types params, P p := by
  simp only [mem_outerParametersOfList]
  exact ⟨fun h T hT p hp => h p ⟨T, hT, hp⟩, fun h p ⟨T, hT, hp⟩ => h T hT p hp⟩

/-- The type parameters that occur are type parameters. -/
theorem mem_of_mem_outerParameters {types : List TypeEntry} {params : List String} {p : String}
    (T : TypeName) (hp : p ∈ T.outerParameters types params) : p ∈ params := by
  have hlist : ∀ Ts : List TypeName,
      (∀ T ∈ Ts, p ∈ T.outerParameters types params → p ∈ params) →
      p ∈ outerParametersOfList types params Ts → p ∈ params := by
    intro Ts ih hp
    obtain ⟨T, hT, hp⟩ := mem_outerParametersOfList.mp hp
    exact ih T hT hp
  induction T using TypeName.induction with
  | mk name args ih =>
      rw [outerParameters] at hp
      split at hp
      next hname => exact List.mem_singleton.mp hp ▸ hname
      next =>
        split at hp
        next => cases hp
        next => exact hlist args ih hp

theorem inPlaceOutsideStructs_iff {types : List TypeEntry} {params : List String}
    {targs : List TypeName} {name : String} {args : List TypeName} (hname : name ∉ params) :
    (mk name args).InPlaceOutsideStructs types params targs ↔
      ∀ p ∈ (mk name args).outerParameters types params,
        StandsInPlace types params targs args p :=
  or_iff_right hname

end TypeName

/-- A parameter with this type expression is compared with the type that it denotes: the type
parameters are in place, and no type variable is left in the structs of the instance. -/
def ParameterFits (types : List TypeEntry) (params : List String) (targs : List TypeName)
    (T : TypeName) : Prop :=
  T.InPlaceOutsideStructs types params targs ∧ (T.instantiate params targs).StructsClosed types

/-- The stored type of a declaration with a struct has no type arguments. -/
theorem eq_struct_of_declared (hfields : ∀ j, FieldsTypedAt types j) {params : List String}
    {name : String} {args : List TypeName} (hname : name ∉ params) {j : Nat} {name' : String}
    {decs : List Declaration} {params' : List String} {fieldTypes : List Ty}
    (hentry : getKnownType types (.mk name args) types.length =
      some (j, .struct name' decs params' fieldTypes))
    {d : Declaration} (hd : d.typeName = .mk name args) {s : Ty}
    (hs : typecheckDeclaration types params d = .ok s) :
    ∃ vnames fields, s = .struct name' j vnames fields [] [] := by
  by_cases hnil : args = []
  · subst hnil
    exact ⟨_, _, ((typecheckDeclaration_struct_nil hfields hd hname hentry).mp hs).symm⟩
  · obtain ⟨_, _, _, _, heq⟩ :=
      (typecheckDeclaration_struct hfields hd hname hnil hentry).mp hs
    exact ⟨_, _, heq.symm⟩

section
variable (hfields : ∀ j, FieldsTypedAt types j) {params : List String} {targs : List TypeName}
  (hlength : targs.length = params.length)
include hfields hlength

/-- The type variables in the type of an argument are type parameters outside the type arguments of
structs, when the structs of the instance are closed. -/
theorem exists_of_mem_typeVariables {T : TypeName} (hknown : T.Known types params) :
    (T.instantiate params targs).StructsClosed types → ∀ {t : Ty},
      lookupArgument types params types.length T = .ok t → ∀ index ∈ t.typeVariables,
        ∃ p ∈ T.outerParameters types params, params.idxOf p = index ∧
          ∃ e, targs[index]? = some e ∧ e.StructsClosed types := by
  induction hknown with
  | @parameter name hname =>
      intro h t ht index hmem
      rw [lookupArgument, if_pos hname, Except.ok.injEq] at ht
      subst ht
      obtain rfl := Ty.mem_typeVariables_typeVariable.mp hmem
      have hindex : params.idxOf name < targs.length := by
        rw [hlength]
        exact List.idxOf_lt_length_iff.mpr hname
      rw [TypeName.instantiate, if_pos hname, List.getD_eq_getElem _ _ hindex] at h
      rw [TypeName.outerParameters_parameter hname]
      exact ⟨name, List.mem_singleton_self name, rfl, _, List.getElem?_eq_getElem hindex, h⟩
  | @declared name args j e hname hentry hargs ih =>
      intro h t ht index hmem
      have hground :=
        (getKnownType_map name args (TypeName.instantiate params targs) _).trans hentry
      rw [TypeName.instantiate, if_neg hname, TypeName.instantiateList_eq_map] at h
      cases h with
      | basicType hentry' hinner =>
          rw [hground, Option.some.injEq, Prod.mk.injEq] at hentry'
          obtain ⟨_, rfl⟩ := hentry'
          obtain ⟨ts, hts, rfl⟩ := (lookupArgument_basicType hname hentry).mp ht
          obtain ⟨t, ht, hmem⟩ := Ty.mem_typeVariables_basicType.mp hmem
          obtain ⟨a, ha, hlookup⟩ := forall₂_mem_right hts ht
          obtain ⟨p, hp, hindex⟩ :=
            ih a ha (hinner _ (List.mem_map_of_mem ha)) hlookup index hmem
          rw [TypeName.outerParameters_basicType hname hentry]
          exact ⟨p, TypeName.mem_outerParametersOfList.mpr ⟨a, ha, hp⟩, hindex⟩
      | struct hentry' hclosed =>
          rw [hground, Option.some.injEq, Prod.mk.injEq] at hentry'
          obtain ⟨_, rfl⟩ := hentry'
          obtain ⟨ts, hts, rfl⟩ := (lookupArgument_struct hfields hname hentry).mp ht
          exact absurd hmem (Ty.closed_struct_copyList.mpr hclosed index)

/-- In place, the declared type is found, and a type argument with closed structs replaces each of
its type variables. -/
theorem exists_stored {T : TypeName} (hknown : T.Known types params)
    (hclosed : (T.instantiate params targs).StructsClosed types)
    (hplace : T.InPlaceOutsideStructs types params targs) {d : Declaration}
    (hd : d.typeName = T) :
    ∃ s, typecheckDeclaration types params d = .ok s ∧
      ∀ index ∈ s.typeVariables, ∃ e, targs[index]? = some e ∧ e.StructsClosed types := by
  cases hknown with
  | @parameter name hname =>
      refine ⟨_, (typecheckDeclaration_parameter hd hname).mpr ⟨rfl, rfl⟩, fun index hmem => ?_⟩
      obtain ⟨_, _, _, he⟩ := exists_of_mem_typeVariables hfields hlength (.parameter hname) hclosed
        (by rw [lookupArgument, if_pos hname]) index hmem
      exact he
  | @declared name args j e hname hentry hargs =>
      rw [TypeName.inPlaceOutsideStructs_iff hname] at hplace
      have hground :=
        (getKnownType_map name args (TypeName.instantiate params targs) _).trans hentry
      rw [TypeName.instantiate, if_neg hname, TypeName.instantiateList_eq_map] at hclosed
      cases hclosed with
      | struct hentry' hfieldsClosed =>
          rw [hground, Option.some.injEq, Prod.mk.injEq] at hentry'
          obtain ⟨_, rfl⟩ := hentry'
          obtain ⟨s, hs⟩ := exists_typecheckDeclaration_closed hfields hname hentry hfieldsClosed
            hargs hd
          have hstruct := typecheckDeclaration_closed hfields hname hentry hfieldsClosed hd hs
          refine ⟨s, hs, fun index hmem => ?_⟩
          rw [Ty.typeVariables_congr hstruct] at hmem
          exact absurd hmem (Ty.closed_struct_copyList.mpr hfieldsClosed index)
      | basicType hentry' hinner =>
          rw [hground, Option.some.injEq, Prod.mk.injEq] at hentry'
          obtain ⟨_, rfl⟩ := hentry'
          rw [TypeName.outerParameters_basicType hname hentry] at hplace
          obtain ⟨ts, hts⟩ := exists_forall₂_iff.mpr fun a ha =>
            ((hargs a ha).exists_lookup hfields).1
          have hvariable : ∀ {t : Ty}, t ∈ ts → ∀ index ∈ t.typeVariables,
              ∃ p ∈ TypeName.outerParametersOfList types params args, params.idxOf p = index ∧
                ∃ e, targs[index]? = some e ∧ e.StructsClosed types := by
            intro t ht index hmem
            obtain ⟨a, ha, hlookup⟩ := forall₂_mem_right hts ht
            obtain ⟨p, hp, he⟩ := exists_of_mem_typeVariables hfields hlength (hargs a ha)
              (hinner _ (List.mem_map_of_mem ha)) hlookup index hmem
            exact ⟨p, TypeName.mem_outerParametersOfList.mpr ⟨a, ha, hp⟩, he⟩
          -- A type parameter that occurs has an argument at its index.
          obtain ⟨us, hus⟩ := exists_forall₂_iff.mpr fun t (ht : t ∈ ts) =>
            (Ty.exists_substantiate_iff (A := ts) t).mpr fun index hmem => by
              obtain ⟨p, hp, rfl, _⟩ := hvariable ht index hmem
              obtain ⟨a, _, ha, _⟩ := hplace p hp
              rw [← hts.length_eq]
              exact (List.getElem?_eq_some_iff.mp ha).1
          refine ⟨_, (typecheckDeclaration_basicType hd hname hentry).mpr ⟨ts, us, hts, hus, rfl⟩,
            fun index hmem => ?_⟩
          obtain ⟨u, hu, hmem⟩ := Ty.mem_typeVariables_basicType.mp hmem
          obtain ⟨t, _, hsub⟩ := forall₂_mem_right hus hu
          obtain ⟨i, b, _, hb, hmem⟩ := (Ty.mem_typeVariables_substantiate hsub).mp hmem
          obtain ⟨_, _, _, he⟩ := hvariable (List.mem_of_getElem? hb) index hmem
          exact he

variable {A : List Ty}
  (hA : List.Forall₂ (fun a t => lookupArgument types [] types.length a = .ok t) targs A)
include hA

omit hlength in
/-- A type can be substantiated in a call, when a type argument with closed structs replaces each
of its type variables. -/
theorem exists_argumentType {s : Ty}
    (hs : ∀ index ∈ s.typeVariables, ∃ e, targs[index]? = some e ∧ e.StructsClosed types) :
    ∃ u, Declared.ArgumentType A s u := by
  obtain ⟨v, hv⟩ := (Ty.exists_substantiate_iff (A := A) s).mpr fun index hmem => by
    obtain ⟨e, he, _⟩ := hs index hmem
    rw [← hA.length_eq]
    exact (List.getElem?_eq_some_iff.mp he).1
  unfold Declared.ArgumentType Declared.instanceType
  cases A with
  | nil => exact ⟨v, s.copy, rfl, (Ty.substantiate_copy s).mpr hv⟩
  | cons a A =>
      have hclosed : v.Closed := by
        intro index hmem
        obtain ⟨i, b, hi, hb, hmem⟩ := (Ty.mem_typeVariables_substantiate hv).mp hmem
        obtain ⟨e, he, hstructs⟩ := hs i hi
        rcases forall₂_getElem? hA i with ⟨hnone, _⟩ | ⟨e', b', he', hb', hlookup⟩
        · rw [he] at hnone
          cases hnone
        · rw [he, Option.some.injEq] at he'
          rw [hb, Option.some.injEq] at hb'
          subst he' hb'
          exact (TypeName.structsClosed_iff hfields (TypeName.Known.of_lookup e hlookup) hlookup).mp
            hstructs index hmem
      obtain ⟨u, hu⟩ := hclosed.exists_substantiate (a :: A)
      exact ⟨u, v, (Ty.substantiate_copy s).mpr hv, hu⟩

omit hlength in
/-- Substantiated twice, the type of a type expression is a stripped type for its instance. -/
theorem stripped_of_substantiate_twice {T : TypeName} (hknown : T.Known types params)
    {B : List Ty} : ∀ {t v w : Ty}, lookupArgument types params types.length T = .ok t →
      t.substantiate A = .ok v → v.substantiate B = .ok w →
        Stripped types (T.instantiate params targs) w := by
  induction hknown with
  | @parameter name hname =>
      intro t v w ht hv hw
      rw [lookupArgument, if_pos hname, Except.ok.injEq] at ht
      subst ht
      rw [Ty.substantiate_typeVariable] at hv
      rcases forall₂_getElem? hA (params.idxOf name) with ⟨_, hnone⟩ | ⟨e, v', he, hv', hlookup⟩
      · rw [hv] at hnone
        cases hnone
      · rw [hv, Option.some.injEq] at hv'
        rw [lookupArgument_nil] at hlookup
        rw [TypeName.instantiate, if_pos hname, List.getD_eq_getElem?_getD, he, Option.getD_some]
        exact stripped_of_substantiate e (hv' ▸ hlookup) hw
  | @declared name args j e hname hknown hargs ih =>
      intro t v w ht hv hw
      have hground :=
        (getKnownType_map name args (TypeName.instantiate params targs) _).trans hknown
      rw [TypeName.instantiate, if_neg hname, TypeName.instantiateList_eq_map]
      cases e with
      | basicType name' params' =>
          obtain ⟨ts, hts, rfl⟩ := (lookupArgument_basicType hname hknown).mp ht
          obtain ⟨vs, hvs, rfl⟩ := Ty.substantiate_basicType.mp hv
          obtain ⟨ws, hws, rfl⟩ := Ty.substantiate_basicType.mp hw
          refine .basicType hground ?_
          rw [List.forall₂_map_left_iff]
          refine forall₂_imp_mem (forall₂_comp (forall₂_comp hts hvs) hws) ?_
          rintro a ha w ⟨v, ⟨t, ht, hv⟩, hw⟩
          exact ih a ha ht hv hw
      | struct name' decs params' fieldTypes =>
          obtain ⟨ts, _, rfl⟩ := (lookupArgument_struct hfields hname hknown).mp ht
          obtain ⟨vs, _, rfl⟩ := Ty.substantiate_struct.mp hv
          obtain ⟨ws, _, rfl⟩ := Ty.substantiate_struct.mp hw
          exact .struct hground

/-- A type argument that is substantiated with the type arguments around it, and then in a call:
it equals a type of its instance exactly when the type parameters in it are in place. -/
theorem equals_instance_iff {args : List TypeName} (hknown : ∀ a ∈ args, a.Known types params)
    {ts : List Ty}
    (hts : List.Forall₂ (fun a t => lookupArgument types params types.length a = .ok t) args ts)
    {T : TypeName} (hT : T.Known types params) : ∀ {t r v w g : Ty},
      lookupArgument types params types.length T = .ok t → t.substantiate ts = .ok r →
      r.substantiate A = .ok v → v.substantiate A = .ok w →
      Stripped types (T.instantiate params targs) g →
      (w.equals g = true ↔ ∀ p ∈ T.outerParameters types params,
        TypeName.StandsInPlace types params targs args p) := by
  induction hT with
  | @parameter name hname =>
      intro t r v w g ht hr hv hw hg
      rw [lookupArgument, if_pos hname, Except.ok.injEq] at ht
      subst ht
      have hr := Ty.substantiate_typeVariable.mp hr
      rcases forall₂_getElem? hts (params.idxOf name) with ⟨_, hnone⟩ | ⟨a, r', ha, hr', hlookup⟩
      · rw [hnone] at hr
        cases hr
      · obtain rfl : r' = r := by
          rw [hr, Option.some.injEq] at hr'
          exact hr'.symm
        have hstripped := stripped_of_substantiate_twice hfields hA
          (hknown a (List.mem_of_getElem? ha)) hlookup hv hw
        have hindex : params.idxOf name < targs.length := by
          rw [hlength]
          exact List.idxOf_lt_length_iff.mpr hname
        rw [TypeName.instantiate, if_pos hname, List.getD_eq_getElem _ _ hindex] at hg
        rw [equals_iff_sameOutsideStructs _ hstripped hg, TypeName.outerParameters_parameter hname]
        simp [TypeName.StandsInPlace, ha, List.getElem?_eq_getElem hindex]
  | @declared name inner j e hname hentry hinner ih =>
      intro t r v w g ht hr hv hw hg
      have hground :=
        (getKnownType_map name inner (TypeName.instantiate params targs) _).trans hentry
      rw [TypeName.instantiate, if_neg hname, TypeName.instantiateList_eq_map] at hg
      cases e with
      | basicType name' params' =>
          obtain ⟨ls, hls, rfl⟩ := (lookupArgument_basicType hname hentry).mp ht
          obtain ⟨rs, hrs, rfl⟩ := Ty.substantiate_basicType.mp hr
          obtain ⟨vs, hvs, rfl⟩ := Ty.substantiate_basicType.mp hv
          obtain ⟨ws, hws, rfl⟩ := Ty.substantiate_basicType.mp hw
          obtain ⟨gs, hgs, hequals⟩ := hg.equals_basicType hground
          rw [List.forall₂_map_left_iff] at hgs
          rw [hequals, TypeName.outerParameters_basicType hname hentry,
            TypeName.forall_mem_outerParametersOfList]
          refine forall₂_iff_of_common
            (forall₂_comp (forall₂_comp (forall₂_comp hls hrs) hvs) hws) hgs ?_
          rintro a ha w g ⟨v, ⟨r, ⟨t, ht, hr⟩, hv⟩, hw⟩ hg
          exact ih a ha ht hr hv hw hg
      | struct name' decs params' fieldTypes =>
          obtain ⟨ls, _, rfl⟩ := (lookupArgument_struct hfields hname hentry).mp ht
          obtain ⟨rs, _, rfl⟩ := Ty.substantiate_struct.mp hr
          obtain ⟨vs, _, rfl⟩ := Ty.substantiate_struct.mp hv
          obtain ⟨ws, _, rfl⟩ := Ty.substantiate_struct.mp hw
          rw [TypeName.outerParameters_struct hname hentry,
            equals_iff_sameOutsideStructs _ (.struct hground) hg]
          exact iff_of_true (sameOutsideStructs_refl _) (List.forall_mem_nil _)

/-- What an argument is compared with equals the type of the instance exactly when the type
parameters are in place. -/
theorem argument_equals_iff {T : TypeName} (hknown : T.Known types params) {d : Declaration}
    (hd : d.typeName = T) {s u g : Ty} (hs : typecheckDeclaration types params d = .ok s)
    (hu : Declared.ArgumentType A s u) (hg : (T.instantiate params targs).Denotes types g) :
    u.equals g = true ↔ T.InPlaceOutsideStructs types params targs := by
  have hstripped : Stripped types (T.instantiate params targs) g :=
    stripped_of_typecheckDeclaration (hg ⟨"", .localScope, _, false⟩ rfl)
  have hequals : Stripped types (T.instantiate params targs) u → u.equals g = true := fun h =>
    (equals_iff_sameOutsideStructs _ h hstripped).mpr (sameOutsideStructs_refl _)
  obtain ⟨q, hq, hu⟩ := hu
  cases A with
  | nil =>
      -- Without type parameters nothing is replaced.
      obtain rfl := List.forall₂_nil_right_iff.mp hA
      obtain rfl := List.length_eq_zero_iff.mp hlength.symm
      obtain rfl : s.copy = q := Except.ok.inj hq
      rw [Ty.substantiate_copy] at hu
      refine iff_of_true (hequals ?_) (Or.inr fun p hp => ?_)
      · rw [TypeName.instantiate_nil, ← hd]
        exact (stripped_of_typecheckDeclaration hs).substantiate _ hu
      · exact absurd (TypeName.mem_of_mem_outerParameters T hp) List.not_mem_nil
  | cons a A =>
      have hv : s.substantiate (a :: A) = .ok q := (Ty.substantiate_copy s).mp hq
      cases hknown with
      | @parameter name hname =>
          obtain ⟨_, rfl⟩ := (typecheckDeclaration_parameter hd hname).mp hs
          refine iff_of_true (hequals ?_) (Or.inl hname)
          exact stripped_of_substantiate_twice hfields hA (.parameter hname)
            (by rw [lookupArgument, if_pos hname]) hv hu
      | @declared name args j e hname hentry hargs =>
          have hground :=
            (getKnownType_map name args (TypeName.instantiate params targs) _).trans hentry
          rw [TypeName.instantiate, if_neg hname, TypeName.instantiateList_eq_map]
            at hstripped hequals
          rw [TypeName.inPlaceOutsideStructs_iff hname]
          cases e with
          | basicType name' params' =>
              obtain ⟨ts, ss, hts, hss, rfl⟩ :=
                (typecheckDeclaration_basicType hd hname hentry).mp hs
              obtain ⟨vs, hvs, rfl⟩ := Ty.substantiate_basicType.mp hv
              obtain ⟨us, hus, rfl⟩ := Ty.substantiate_basicType.mp hu
              obtain ⟨gs, hgs, hequals⟩ := hstripped.equals_basicType hground
              rw [List.forall₂_map_left_iff] at hgs
              rw [hequals, TypeName.outerParameters_basicType hname hentry,
                TypeName.forall_mem_outerParametersOfList]
              refine forall₂_iff_of_common
                (forall₂_comp (forall₂_comp (forall₂_comp hts hss) hvs) hus) hgs ?_
              rintro a ha w g ⟨v, ⟨r, ⟨t, ht, hr⟩, hv⟩, hw⟩ hg
              exact equals_instance_iff hfields hlength hA hargs hts (hargs a ha) ht hr hv hw hg
          | struct name' decs params' fieldTypes =>
              rw [TypeName.outerParameters_struct hname hentry]
              refine iff_of_true (hequals ?_) (List.forall_mem_nil _)
              obtain ⟨vnames, fields, rfl⟩ := eq_struct_of_declared hfields hname hentry hd hs
              obtain ⟨vs, _, rfl⟩ := Ty.substantiate_struct.mp hv
              obtain ⟨us, _, rfl⟩ := Ty.substantiate_struct.mp hu
              exact .struct hground

end

/-! ### The type of the result -/

/-- The call and the result type have the same type argument for each type variable of the type. -/
def ArgumentsAgree (params : List String) (targs args : List TypeName) (t : Ty) : Prop :=
  ∀ index ∈ t.typeVariables, ∃ e, targs[index]? = some e ∧
    (args[index]?).map (TypeName.instantiate params targs) = some e

/-- A type argument of a basic type as the result type: `lookupType` leaves nothing out in the type
arguments that replace its type parameters, and the fields of a struct in it get the right
types. Here `args` are the type arguments of the result type. -/
inductive ResultArgument (types : List TypeEntry) (params : List String)
    (targs args : List TypeName) : TypeName → Prop where
  | parameter {name : String} (hname : name ∈ params)
      (hplain : (TypeName.instantiate params targs (.mk name [])).Plain types []) :
      ResultArgument types params targs args (.mk name [])
  | basicType {name : String} {inner : List TypeName} {j : Nat} {name' : String}
      {params' : List String} (hname : name ∉ params)
      (hknown : getKnownType types (.mk name inner) types.length =
        some (j, .basicType name' params'))
      (hinner : ∀ a ∈ inner, ResultArgument types params targs args a) :
      ResultArgument types params targs args (.mk name inner)
  | struct {name : String} {inner : List TypeName} {j : Nat} {name' : String}
      {decs : List Declaration} {params' : List String} {fieldTypes : List Ty}
      (hname : name ∉ params)
      (hknown : getKnownType types (.mk name inner) types.length =
        some (j, .struct name' decs params' fieldTypes))
      (hagree : ∀ s ∈ fieldTypes, ArgumentsAgree params targs args s) :
      ResultArgument types params targs args (.mk name inner)

/-- The result of a call has the type that the result type denotes. The fields of a struct are
substantiated with the type arguments of the call, and should be with those of the struct; a
struct without type arguments, of a function without type parameters, is not substantiated. -/
inductive ResultFits (types : List TypeEntry) (params : List String) (targs : List TypeName) :
    TypeName → Prop where
  | parameter {name : String} (hname : name ∈ params)
      (hdirect : (TypeName.instantiate params targs (.mk name [])).Direct types) :
      ResultFits types params targs (.mk name [])
  | basicType {name : String} {args : List TypeName} {j : Nat} {name' : String}
      {params' : List String} (hname : name ∉ params)
      (hknown : getKnownType types (.mk name args) types.length =
        some (j, .basicType name' params'))
      (hargs : ∀ a ∈ args, ResultArgument types params targs args a) :
      ResultFits types params targs (.mk name args)
  | struct {name : String} {args : List TypeName} {j : Nat} {name' : String}
      {decs : List Declaration} {params' : List String} {fieldTypes : List Ty}
      (hname : name ∉ params)
      (hknown : getKnownType types (.mk name args) types.length =
        some (j, .struct name' decs params' fieldTypes))
      (hagree : (params = [] ∧ args = []) ∨ ∀ s ∈ fieldTypes, ArgumentsAgree params targs args s) :
      ResultFits types params targs (.mk name args)

namespace ResultArgument

variable {params : List String} {targs args inner : List TypeName} {name : String}
  (hname : name ∉ params) {j : Nat} {name' : String} {params' : List String}
include hname

theorem basicType_iff
    (hknown : getKnownType types (.mk name inner) types.length =
      some (j, .basicType name' params')) :
    ResultArgument types params targs args (.mk name inner) ↔
      ∀ a ∈ inner, ResultArgument types params targs args a := by
  refine ⟨fun h => ?_, .basicType hname hknown⟩
  cases h with
  | parameter hmem => exact absurd hmem hname
  | basicType _ _ hinner => exact hinner
  | struct _ hstruct =>
      rw [hknown] at hstruct
      cases hstruct

theorem struct_iff {decs : List Declaration} {fieldTypes : List Ty}
    (hknown : getKnownType types (.mk name inner) types.length =
      some (j, .struct name' decs params' fieldTypes)) :
    ResultArgument types params targs args (.mk name inner) ↔
      ∀ s ∈ fieldTypes, ArgumentsAgree params targs args s := by
  refine ⟨fun h => ?_, .struct hname hknown⟩
  cases h with
  | parameter hmem => exact absurd hmem hname
  | basicType _ hbasic =>
      rw [hknown] at hbasic
      cases hbasic
  | struct _ hstruct hagree =>
      rw [hknown] at hstruct
      cases hstruct
      exact hagree

end ResultArgument

namespace ResultFits

variable {params : List String} {targs args : List TypeName} {name : String}
  (hname : name ∉ params) {j : Nat} {name' : String} {params' : List String}
include hname

theorem basicType_iff
    (hknown : getKnownType types (.mk name args) types.length =
      some (j, .basicType name' params')) :
    ResultFits types params targs (.mk name args) ↔
      ∀ a ∈ args, ResultArgument types params targs args a := by
  refine ⟨fun h => ?_, .basicType hname hknown⟩
  cases h with
  | parameter hmem => exact absurd hmem hname
  | basicType _ _ hargs => exact hargs
  | struct _ hstruct =>
      rw [hknown] at hstruct
      cases hstruct

theorem struct_iff {decs : List Declaration} {fieldTypes : List Ty}
    (hknown : getKnownType types (.mk name args) types.length =
      some (j, .struct name' decs params' fieldTypes)) :
    ResultFits types params targs (.mk name args) ↔
      (params = [] ∧ args = []) ∨ ∀ s ∈ fieldTypes, ArgumentsAgree params targs args s := by
  refine ⟨fun h => ?_, .struct hname hknown⟩
  cases h with
  | parameter hmem => exact absurd hmem hname
  | basicType _ hbasic =>
      rw [hknown] at hbasic
      cases hbasic
  | struct _ hstruct hagree =>
      rw [hknown] at hstruct
      cases hstruct
      exact hagree

end ResultFits

/-- Two lists make equal basic types when they are equal element by element. -/
theorem Ty.exists_basicType_iff {R S : List Ty → Prop} {name : String} {j : Nat}
    {params : List String} :
    (∃ r u, (∃ rs, R rs ∧ Ty.basicType name j params rs = r) ∧
      (∃ us, S us ∧ Ty.basicType name j params us = u) ∧ r.forget = u.forget) ↔
      ∃ rs us, R rs ∧ S us ∧ List.Forall₂ (fun r u => r.forget = u.forget) rs us := by
  constructor
  · rintro ⟨_, _, ⟨rs, hrs, rfl⟩, ⟨us, hus, rfl⟩, heq⟩
    simp only [Ty.forget, Ty.basicType.injEq, true_and] at heq
    exact ⟨rs, us, hrs, hus, Ty.forgetList_eq_iff.mp heq⟩
  · rintro ⟨rs, us, hrs, hus, heq⟩
    refine ⟨_, _, ⟨rs, hrs, rfl⟩, ⟨us, hus, rfl⟩, ?_⟩
    rw [Ty.forget, Ty.forget, Ty.forgetList_eq_iff.mpr heq]

/-- The type of a struct as the result type loses its type arguments before it is substantiated. -/
theorem Declared.instanceType_struct {name : String} {j : Nat} {vnames params : List String}
    {fields ts A : List Ty} {r : Ty} :
    instanceType A (.struct name j vnames (Ty.copyList fields) params ts) = .ok r ↔
      if A = [] then (Ty.struct name j vnames fields params []).copy = r
      else (Ty.struct name j vnames fields params []).substantiate A = .ok r := by
  rw [instanceType, Ty.copy, Ty.copyList_copyList]
  cases A with
  | nil => exact pure_eq_ok
  | cons a A =>
      rw [List.isEmpty_cons, if_neg Bool.false_ne_true, if_neg (List.cons_ne_nil a A)]
      simp only [Ty.substantiate_struct, Ty.forall₂_substantiate_copyList]

/-- A basic type as the result type is substantiated in its type arguments. -/
theorem Declared.instanceType_basicType {name : String} {j : Nat} {params : List String}
    {ts A : List Ty} {r : Ty} :
    instanceType A (.basicType name j params ts) = .ok r ↔
      ∃ rs, List.Forall₂ (fun t r => instanceType A t = .ok r) ts rs ∧
        .basicType name j params rs = r := by
  cases A with
  | nil =>
      simp only [instanceType, List.isEmpty_nil, if_pos, pure_eq_ok, Ty.copy, Ty.copyList_eq_map]
      constructor
      · exact fun h => ⟨_, List.forall₂_map_right_iff.mpr (List.forall₂_same.mpr fun _ _ => rfl), h⟩
      · rintro ⟨rs, hrs, rfl⟩
        have hcopies : List.Forall₂ Eq (ts.map Ty.copy) rs := List.forall₂_map_left_iff.mpr hrs
        rw [List.forall₂_eq_eq_eq] at hcopies
        rw [hcopies]
  | cons a A =>
      simp only [instanceType, List.isEmpty_cons, Bool.false_eq_true, if_false,
        Ty.substantiate_copy, Ty.substantiate_basicType]

section
variable (hfields : ∀ j, FieldsTypedAt types j) {params : List String} {targs : List TypeName}
  (hlength : targs.length = params.length) {A : List Ty}
  (hA : List.Forall₂ (fun a t => lookupArgument types [] types.length a = .ok t) targs A)

include hlength hA in
/-- A type parameter is replaced by its type argument. -/
theorem lookup_parameter {name : String} (hname : name ∈ params) (args : List TypeName) :
    ∃ t, lookupArgument types [] types.length (TypeName.instantiate params targs (.mk name args)) =
      .ok t ∧ TypeName.instantiate params targs (.mk name args) ∈ targs ∧
      ∀ r, Declared.instanceType A (.typeVariable name (params.idxOf name)) = .ok r ↔ t = r := by
  have hindex : params.idxOf name < params.length := List.idxOf_lt_length_iff.mpr hname
  have hAlength := hA.length_eq
  have hlookup := (List.forall₂_iff_get.mp hA).2 (params.idxOf name) (by omega) (by omega)
  rw [TypeName.instantiate, if_pos hname, List.getD_eq_getElem _ _ (by omega)]
  refine ⟨_, hlookup, List.getElem_mem _, fun r => ?_⟩
  have hne : A.isEmpty = false := by
    rw [List.isEmpty_eq_false_iff]
    rintro rfl
    rw [List.length_nil] at hAlength
    omega
  rw [Declared.instanceType, hne, if_neg Bool.false_ne_true, Ty.copy, Ty.substantiate_typeVariable,
    List.getElem?_eq_getElem (by omega), Option.some.injEq]
  rfl

include hA in
/-- Two lists of types give one type, where an empty list leaves a copy, exactly when their type
expressions agree on its type variables. -/
theorem argumentsAgree_iff {args : List TypeName} {gs : List Ty}
    (hgs : List.Forall₂ (fun a g => lookupArgument types [] types.length
      (a.instantiate params targs) = .ok g) args gs) (t : Ty) :
    (∃ r g, (if A = [] then t.copy = r else t.substantiate A = .ok r) ∧
      t.substantiate gs = .ok g ∧ r.forget = g.forget) ↔ ArgumentsAgree params targs args t := by
  unfold ArgumentsAgree
  by_cases hnil : A = []
  · -- Nothing is substantiated on the left, so nothing should be on the right.
    have htargs : targs = [] := List.length_eq_zero_iff.mp (hA.length_eq.trans (hnil ▸ rfl))
    simp only [if_pos hnil, htargs, List.getElem?_nil, reduceCtorEq, false_and, exists_false]
    rw [← Ty.Closed, ← Ty.substantiate_eq_copy_iff
      (ne_typeVariable_of_lookups (List.forall₂_map_left_iff.mpr hgs))]
    constructor
    · rintro ⟨r, g, rfl, hg, heq⟩
      exact ⟨g, hg, heq.symm⟩
    · rintro ⟨g, hg, heq⟩
      exact ⟨_, g, rfl, hg, heq.symm⟩
  · simp only [if_neg hnil]
    -- What stands at an index on both sides, with the type expressions.
    have hindex : ∀ index : Nat, (∃ e, targs[index]? = some e ∧
        (args[index]?).map (TypeName.instantiate params targs) = some e) ↔
          index < A.length ∧ index < gs.length ∧
            (A[index]?).map Ty.forget = (gs[index]?).map Ty.forget := by
      intro index
      rcases forall₂_getElem? hA index with ⟨he, ha⟩ | ⟨e, a, he, ha, hea⟩
      · simp [he, Nat.not_lt.mpr (List.getElem?_eq_none_iff.mp ha)]
      · rcases forall₂_getElem? hgs index with ⟨hb, hg⟩ | ⟨b, g, hb, hg, hbg⟩
        · simp [hb, Nat.not_lt.mpr (List.getElem?_eq_none_iff.mp hg)]
        · have hlt := (List.getElem?_eq_some_iff.mp ha).1
          have hlt' := (List.getElem?_eq_some_iff.mp hg).1
          simp only [he, hb, ha, hg, hlt, hlt', true_and, Option.map_some, Option.some.injEq,
            exists_eq_left']
          constructor
          · rintro rfl
            rw [hea, Except.ok.injEq] at hbg
            rw [hbg]
          · intro heq
            exact lookup_injective _ hbg hea heq.symm
    simp only [hindex]
    constructor
    · rintro ⟨u, v, hu, hv, heq⟩ index hmem
      exact ⟨(Ty.exists_substantiate_iff t).mp ⟨u, hu⟩ index hmem,
        (Ty.exists_substantiate_iff t).mp ⟨v, hv⟩ index hmem,
        (Ty.forget_substantiate_iff t hu hv).mp heq index hmem⟩
    · intro h
      obtain ⟨u, hu⟩ := (Ty.exists_substantiate_iff t).mpr fun index hmem => (h index hmem).1
      obtain ⟨v, hv⟩ := (Ty.exists_substantiate_iff t).mpr fun index hmem => (h index hmem).2.1
      exact ⟨u, v, hu, hv, (Ty.forget_substantiate_iff t hu hv).mpr fun index hmem =>
        (h index hmem).2.2⟩

/-- Agreeing on a struct is agreeing on all its fields. -/
theorem argumentsAgree_struct {args : List TypeName} {name : String} {j : Nat}
    {vnames params' : List String} {fields ts : List Ty} :
    ArgumentsAgree params targs args (.struct name j vnames fields params' ts) ↔
      ∀ s ∈ fields, ArgumentsAgree params targs args s := by
  simp only [ArgumentsAgree, Ty.mem_typeVariables_struct]
  constructor
  · exact fun h s hs index hmem => h index ⟨s, hs, hmem⟩
  · rintro h index ⟨s, hs, hmem⟩
    exact h s hs index hmem

/-- The type that an instance of a basic type denotes. -/
theorem denotes_basicType {name : String} {args : List TypeName} (hname : name ∉ params) {j : Nat}
    {name' : String} {params' : List String}
    (hknown : getKnownType types (.mk name args) types.length = some (j, .basicType name' params'))
    {gs : List Ty}
    (hgs : List.Forall₂ (fun a g => lookupArgument types [] types.length
      (a.instantiate params targs) = .ok g) args gs) {g : Ty} :
    (TypeName.instantiate params targs (.mk name args)).Denotes types g ↔
      ∃ us, List.Forall₂ (fun g u => g.substantiate gs = .ok u) gs us ∧
        .basicType name' j params' us = g := by
  rw [TypeName.denotes_iff, TypeName.instantiate, if_neg hname, TypeName.instantiateList_eq_map,
    typecheckDeclaration_basicType rfl List.not_mem_nil
      ((getKnownType_map name args _ _).trans hknown)]
  constructor
  · rintro ⟨ts, us, hts, hus, heq⟩
    obtain rfl := forall₂_unique hgs (List.forall₂_map_left_iff.mp hts)
    exact ⟨us, hus, heq⟩
  · rintro ⟨us, hus, heq⟩
    exact ⟨gs, us, List.forall₂_map_left_iff.mpr hgs, hus, heq⟩

include hfields in
/-- The type that an instance of a struct denotes. -/
theorem denotes_struct {name : String} {args : List TypeName} (hname : name ∉ params) {j : Nat}
    {name' : String} {decs : List Declaration} {params' : List String} {fieldTypes : List Ty}
    (hknown : getKnownType types (.mk name args) types.length =
      some (j, .struct name' decs params' fieldTypes)) {gs : List Ty}
    (hgs : List.Forall₂ (fun a g => lookupArgument types [] types.length
      (a.instantiate params targs) = .ok g) args gs) {g : Ty} :
    (TypeName.instantiate params targs (.mk name args)).Denotes types g ↔
      if args = [] then
        Ty.struct name' j (decs.map Declaration.vname) (Ty.copyList fieldTypes) [] [] = g
      else (Ty.struct name' j (decs.map Declaration.vname) fieldTypes params' []).substantiate gs =
        .ok g := by
  rw [TypeName.denotes_iff, TypeName.instantiate, if_neg hname, TypeName.instantiateList_eq_map]
  by_cases hnil : args = []
  · subst hnil
    rw [if_pos rfl]
    exact typecheckDeclaration_struct_nil hfields rfl List.not_mem_nil hknown
  · rw [if_neg hnil, typecheckDeclaration_struct hfields rfl List.not_mem_nil
      (by simpa using hnil) ((getKnownType_map name args _ _).trans hknown)]
    simp only [Ty.substantiate_struct, List.forall₂_map_left_iff]
    constructor
    · rintro ⟨ts, us, hts, hus, heq⟩
      obtain rfl := forall₂_unique hgs hts
      exact ⟨us, hus, heq⟩
    · rintro ⟨us, hus, heq⟩
      exact ⟨gs, us, hgs, hus, heq⟩

include hfields hlength hA

/-- A type argument of the result type, as it is substantiated in a call and as it is in the type
of a variable. -/
theorem resultArgument_iff {args : List TypeName} {gs : List Ty}
    (hgs : List.Forall₂ (fun a g => lookupArgument types [] types.length
      (a.instantiate params targs) = .ok g) args gs)
    (htargs : ∀ t ∈ targs, t.Known types []) {a : TypeName} (hknown : a.Known types params) :
    ∀ {t g : Ty}, lookupArgument types params types.length a = .ok t →
      lookupArgument types [] types.length (a.instantiate params targs) = .ok g →
      ((∃ r u, Declared.instanceType A t = .ok r ∧ g.substantiate gs = .ok u ∧
        r.forget = u.forget) ↔ ResultArgument types params targs args a) := by
  induction hknown with
  | @parameter name hname =>
      intro t g ht hg
      rw [lookupArgument, if_pos hname, Except.ok.injEq] at ht
      subst ht
      obtain ⟨g', hg', hmem, hinstance⟩ := lookup_parameter hlength hA hname []
      obtain rfl : g = g' := Except.ok.inj (hg.symm.trans hg')
      have hplain := TypeName.plain_iff hfields (htargs _ hmem)
        (ne_typeVariable_of_lookups (List.forall₂_map_left_iff.mpr hgs)) hg
      constructor
      · rintro ⟨r, u, hr, hu, heq⟩
        obtain rfl := (hinstance r).mp hr
        exact .parameter hname (hplain.mp ⟨u, hu, heq⟩)
      · intro h
        cases h with
        | parameter _ hplain' =>
            obtain ⟨u, hu, heq⟩ := hplain.mpr hplain'
            exact ⟨g, u, (hinstance g).mpr rfl, hu, heq⟩
        | basicType hname' => exact absurd hname hname'
        | struct hname' => exact absurd hname hname'
  | @declared name inner j e hname hknown hinner ih =>
      intro t g ht hg
      rw [TypeName.instantiate, if_neg hname, TypeName.instantiateList_eq_map] at hg
      have hground :=
        (getKnownType_map name inner (TypeName.instantiate params targs) _).trans hknown
      cases e with
      | basicType name' params' =>
          obtain ⟨ts, hts, rfl⟩ := (lookupArgument_basicType hname hknown).mp ht
          obtain ⟨ls, hls, rfl⟩ := (lookupArgument_basicType List.not_mem_nil hground).mp hg
          rw [List.forall₂_map_left_iff] at hls
          have hlists := exists_forall₂_pair_iff hts hls fun a ha t g ht hg => ih a ha ht hg
          rw [ResultArgument.basicType_iff hname hknown, ← hlists]
          simp only [Declared.instanceType_basicType, Ty.substantiate_basicType]
          exact Ty.exists_basicType_iff
      | struct name' decs params' fieldTypes =>
          obtain ⟨ts, _, rfl⟩ := (lookupArgument_struct hfields hname hknown).mp ht
          obtain ⟨ls, _, rfl⟩ := (lookupArgument_struct hfields List.not_mem_nil hground).mp hg
          have hagree := (argumentsAgree_iff hA hgs (.struct name' j (decs.map Declaration.vname)
            fieldTypes params' [])).trans argumentsAgree_struct
          have hsubstantiate : ∀ {u : Ty}, (Ty.struct name' j (decs.map Declaration.vname)
              (Ty.copyList fieldTypes) params' ls).substantiate gs = .ok u ↔
                (Ty.struct name' j (decs.map Declaration.vname) fieldTypes params' []).substantiate
                  gs = .ok u := by
            intro u
            simp only [Ty.substantiate_struct, Ty.forall₂_substantiate_copyList]
          rw [ResultArgument.struct_iff hname hknown, ← hagree]
          simp only [Declared.instanceType_struct, hsubstantiate]

/-- A struct as the result type: its fields are substantiated with the type arguments of the
call, and should be with those of the struct. -/
theorem result_struct {name : String} {args : List TypeName} (hname : name ∉ params) {j : Nat}
    {name' : String} {decs : List Declaration} {params' : List String} {fieldTypes : List Ty}
    (hknown : getKnownType types (.mk name args) types.length =
      some (j, .struct name' decs params' fieldTypes)) {gs : List Ty}
    (hgs : List.Forall₂ (fun a g => lookupArgument types [] types.length
      (a.instantiate params targs) = .ok g) args gs) {ret : Ty}
    (hret : lookupType types params types.length (.mk name args) = .ok ret) :
    (∃ r g, Declared.instanceType A ret = .ok r ∧
      (TypeName.instantiate params targs (.mk name args)).Denotes types g ∧ r.forget = g.forget) ↔
      (params = [] ∧ args = []) ∨ ∀ s ∈ fieldTypes, ArgumentsAgree params targs args s := by
  obtain ⟨ts, _, rfl⟩ := (lookupType_struct hfields hname hknown).mp hret
  -- The struct with the stored types of its fields, which both sides substantiate.
  generalize hS : Ty.struct name' j (decs.map Declaration.vname) fieldTypes params' [] = S
  have hagree : (∀ s ∈ fieldTypes, ArgumentsAgree params targs args s) ↔
      ArgumentsAgree params targs args S := by
    rw [← hS, argumentsAgree_struct]
  rw [hagree]
  simp only [Declared.instanceType_struct, denotes_struct hfields hname hknown hgs, hS]
  by_cases hnil : args = []
  · by_cases hnilA : A = []
    · -- Neither the result nor the variable is substantiated.
      have htargs : targs = [] := List.length_eq_zero_iff.mp (hA.length_eq.trans (hnilA ▸ rfl))
      have hparams : params = [] := List.length_eq_zero_iff.mp (hlength.symm.trans (htargs ▸ rfl))
      simp only [if_pos hnilA, if_pos hnil]
      exact iff_of_true ⟨_, _, rfl, rfl, by rw [← hS]; rfl⟩ (Or.inl ⟨hparams, hnil⟩)
    · have hparams : params ≠ [] := by
        rintro rfl
        exact hnilA (List.length_eq_zero_iff.mp (hA.length_eq.symm.trans hlength))
      rw [or_iff_right fun h => hparams h.1]
      simp only [if_neg hnilA, if_pos hnil]
      simp only [ArgumentsAgree, hnil, List.getElem?_nil, Option.map_none, reduceCtorEq, and_false,
        exists_false]
      rw [← Ty.Closed, ← Ty.substantiate_eq_copy_iff (ne_typeVariable_of_lookups hA), ← hS]
      constructor
      · rintro ⟨r, g, hr, rfl, heq⟩
        exact ⟨r, hr, heq⟩
      · rintro ⟨r, hr, heq⟩
        exact ⟨r, _, hr, rfl, heq⟩
  · rw [or_iff_right fun h => hnil h.2, ← argumentsAgree_iff hA hgs]
    simp only [if_neg hnil]

/-- The result of a call has the type that it denotes exactly when the result type fits. -/
theorem result_spec {T : TypeName} (hknown : T.Known types params)
    (htargs : ∀ t ∈ targs, t.Known types []) {ret : Ty}
    (hret : lookupType types params types.length T = .ok ret) :
    (∃ r g, Declared.instanceType A ret = .ok r ∧ (T.instantiate params targs).Denotes types g ∧
      r.forget = g.forget) ↔ ResultFits types params targs T := by
  cases hknown with
  | @parameter name hname =>
      rw [lookupType, if_pos hname, List.isEmpty_nil, if_pos rfl, Except.ok.injEq] at hret
      subst hret
      obtain ⟨t, ht, hmem, hinstance⟩ := lookup_parameter hlength hA hname []
      have hdirect := TypeName.direct_iff hfields ht
      constructor
      · rintro ⟨r, g, hr, hg, heq⟩
        obtain rfl := (hinstance r).mp hr
        exact .parameter hname (hdirect.mp ⟨g, hg, heq⟩)
      · intro h
        cases h with
        | parameter _ hdirect' =>
            obtain ⟨g, hg, heq⟩ := hdirect.mpr hdirect'
            exact ⟨t, g, (hinstance t).mpr rfl, hg, heq⟩
        | basicType hname' => exact absurd hname hname'
        | struct hname' => exact absurd hname hname'
  | @declared name args j e hname hknown hargs =>
      obtain ⟨gs, hgs⟩ := exists_forall₂_iff.mpr fun a ha =>
        (((hargs a ha).instantiate htargs hlength).exists_lookup hfields).1
      cases e with
      | basicType name' params' =>
          obtain ⟨ts, hts, rfl⟩ := (lookupType_basicType hname hknown).mp hret
          have hlists := exists_forall₂_pair_iff hts hgs fun a ha t g ht hg =>
            resultArgument_iff hfields hlength hA hgs htargs (hargs a ha) ht hg
          rw [ResultFits.basicType_iff hname hknown, ← hlists]
          simp only [Declared.instanceType_basicType, denotes_basicType hname hknown hgs]
          exact Ty.exists_basicType_iff
      | struct name' decs params' fieldTypes =>
          rw [ResultFits.struct_iff hname hknown]
          exact result_struct hfields hlength hA hname hknown hgs hret

end

/-- An instance of a type that is made from the table is made from it. -/
theorem instanceType_built {A : List Ty} (hA : ∀ a ∈ A, a.Built types) {t u : Ty}
    (ht : t.Built types) (hu : Declared.instanceType A t = .ok u) : u.Built types := by
  unfold Declared.instanceType at hu
  split at hu
  · rw [pure_eq_ok] at hu
    exact hu ▸ ht.copy
  · exact ht.copy.substantiate hA hu

/-! ### One argument -/

section
variable (hfields : ∀ j, FieldsTypedAt types j) {params : List String} {targs : List TypeName}
  (hlength : targs.length = params.length) {A : List Ty}
  (hA : List.Forall₂ (fun a t => lookupArgument types [] types.length a = .ok t) targs A)
include hfields hlength hA

/-- Where a parameter fits, an argument is accepted exactly when it has the type that the
instantiated type expression denotes. -/
theorem argument_of_fits {T : TypeName} (hknown : T.Known types params)
    (htargs : ∀ t ∈ targs, t.Known types []) (hfits : ParameterFits types params targs T)
    {d : Declaration} (hd : d.typeName = T) :
    ∃ s u g, typecheckDeclaration types params d = .ok s ∧ Declared.ArgumentType A s u ∧
      (T.instantiate params targs).Denotes types g ∧
      ∀ t : Ty, t.Built types → (u.equals t = true ↔ t.forget = g.forget) := by
  obtain ⟨hplace, hclosed⟩ := hfits
  obtain ⟨s, hs, hvariables⟩ := exists_stored hfields hlength hknown hclosed hplace hd
  obtain ⟨u, hu⟩ := exists_argumentType hfields hA hvariables
  obtain ⟨l, hl⟩ := ((hknown.instantiate htargs hlength).exists_lookup hfields).1
  obtain ⟨g, hg, hsame⟩ := hclosed.denotes hfields hl
  have hequals := (argument_equals_iff hfields hlength hA hknown hd hs hu hg).mpr hplace
  have hbuilt : u.Built types := by
    have hAbuilt : ∀ a ∈ A, a.Built types := by
      intro a ha
      obtain ⟨b, _, hb⟩ := forall₂_mem_right hA ha
      exact lookupArgument_built hfields hb
    obtain ⟨q, hq, hu⟩ := hu
    exact (instanceType_built hAbuilt (typecheckDeclaration_built hfields hs) hq).substantiate
      hAbuilt hu
  exact ⟨s, u, g, hs, hu, hg, fun t ht => hclosed.equals_iff hfields hl hsame hbuilt hequals ht⟩

end

end

end Stabl
