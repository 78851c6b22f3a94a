import Mathlib.Data.List.GetD
import Stabl.Proofs.Frontend.TypeIdentity
import Stabl.Proofs.Frontend.TypeTable
import Stabl.Proofs.Frontend.TypeVariables

/-!
# `Stabl.Proofs.Frontend.Instances`: instances of polymorphic declarations

A field or a parameter is declared with a type expression over type parameters, and
`typecheckDeclaration` stores the type of it. An instance comes from that type by
`substantiate`. It should be the type of a variable that is declared with the instantiated type
expression.

`lookupType` never substantiates a struct that stands in a type argument. `TypeName.Plain` says
that there is none that would have to be, and for such an argument looking up commutes with
instantiation (`Plain.lookup_instantiate`). `TypeName.StructsClosed` says the same up to the type
arguments of structs, which are dropped when a type is substantiated
(`StructsClosed.denotes`). The stored type of a basic type is substantiated once with its own type
arguments, so a type parameter in them is replaced by the argument that stands at the index of
the parameter. `TypeName.InPlace` says that this does no harm, and `instance_basicType` that this
is the only case in which it does not. A struct is substantiated correctly (`instance_struct`).
-/

set_option autoImplicit false

namespace Stabl

open Result

/-! ### Type expressions with parameters -/

namespace TypeName

mutual

/-- The type expression with its type parameters replaced by type expressions. -/
def instantiate (params : List String) (targs : List TypeName) : TypeName → TypeName
  | .mk name args =>
    if name ∈ params then targs.getD (params.idxOf name) (.mk name [])
    else .mk name (instantiateList params targs args)

/-- The type expressions with their type parameters replaced. -/
def instantiateList (params : List String) (targs : List TypeName) : List TypeName → List TypeName
  | [] => []
  | T :: Ts => T.instantiate params targs :: instantiateList params targs Ts

end

mutual

/-- The type parameters that occur in the type expression. -/
def parameters (params : List String) : TypeName → List String
  | .mk name args => if name ∈ params then [name] else parametersOfList params args

/-- The type parameters that occur in the type expressions. -/
def parametersOfList (params : List String) : List TypeName → List String
  | [] => []
  | T :: Ts => T.parameters params ++ parametersOfList params Ts

end

theorem instantiateList_eq_map (params : List String) (targs Ts : List TypeName) :
    instantiateList params targs Ts = Ts.map (instantiate params targs) := by
  induction Ts with
  | nil => rfl
  | cons T Ts ih => rw [instantiateList, ih, List.map_cons]

theorem mem_parametersOfList {params : List String} {Ts : List TypeName} {p : String} :
    p ∈ parametersOfList params Ts ↔ ∃ T ∈ Ts, p ∈ T.parameters params := by
  induction Ts with
  | nil => simp [parametersOfList]
  | cons T Ts ih => rw [parametersOfList, List.mem_append, ih, List.exists_mem_cons_iff]

/-- The parameters that occur are parameters. -/
theorem mem_of_mem_parameters {params : List String} {p : String} (T : TypeName)
    (hp : p ∈ T.parameters params) : p ∈ params := by
  induction T using TypeName.induction with
  | mk name args ih =>
      rw [TypeName.parameters] at hp
      by_cases hname : name ∈ params
      · rw [if_pos hname] at hp
        exact List.mem_singleton.mp hp ▸ hname
      · rw [if_neg hname] at hp
        obtain ⟨T, hT, hp⟩ := TypeName.mem_parametersOfList.mp hp
        exact ih T hT hp

/-- The type expression uses type parameters and declared types only. -/
inductive Known (types : List TypeEntry) (params : List String) : TypeName → Prop where
  | parameter {name : String} (hname : name ∈ params) : Known types params (.mk name [])
  | declared {name : String} {args : List TypeName} {j : Nat} {e : TypeEntry}
      (hname : name ∉ params)
      (hknown : getKnownType types (.mk name args) types.length = some (j, e))
      (hargs : ∀ a ∈ args, Known types params a) : Known types params (.mk name args)

/-- A type argument in which `lookupType` leaves nothing out: it consists of type parameters,
basic types, and structs that have no type arguments and no type variables in their fields. -/
inductive Plain (types : List TypeEntry) (params : List String) : TypeName → Prop where
  | parameter {name : String} {args : List TypeName} (hname : name ∈ params) :
      Plain types params (.mk name args)
  | basicType {name : String} {args : List TypeName} {j : Nat} {name' : String}
      {params' : List String} (hname : name ∉ params)
      (hknown : getKnownType types (.mk name args) types.length =
        some (j, .basicType name' params'))
      (hargs : ∀ a ∈ args, Plain types params a) : Plain types params (.mk name args)
  | struct {name : String} {j : Nat} {name' : String} {decs : List Declaration}
      {params' : List String} {fieldTypes : List Ty} (hname : name ∉ params)
      (hknown : getKnownType types (.mk name []) types.length =
        some (j, .struct name' decs params' fieldTypes))
      (hclosed : ∀ t ∈ fieldTypes, t.Closed) : Plain types params (.mk name [])

/-- Outside the type arguments of structs, the type expression has no struct in the stored types
of whose fields a type variable occurs. -/
inductive StructsClosed (types : List TypeEntry) : TypeName → Prop where
  | basicType {name : String} {args : List TypeName} {j : Nat} {name' : String}
      {params' : List String}
      (hknown : getKnownType types (.mk name args) types.length =
        some (j, .basicType name' params'))
      (hargs : ∀ a ∈ args, StructsClosed types a) : StructsClosed types (.mk name args)
  | struct {name : String} {args : List TypeName} {j : Nat} {name' : String}
      {decs : List Declaration} {params' : List String} {fieldTypes : List Ty}
      (hknown : getKnownType types (.mk name args) types.length =
        some (j, .struct name' decs params' fieldTypes))
      (hclosed : ∀ s ∈ fieldTypes, s.Closed) : StructsClosed types (.mk name args)

/-- Looking the type expression up gives the type of a variable: it is a basic type with plain
type arguments, or a struct without type arguments. -/
def Direct (types : List TypeEntry) (T : TypeName) : Prop :=
  (∀ a ∈ T.typeArgumentNames, a.Plain types []) ∧
    (T.isStruct types = true → T.typeArgumentNames = [])

/-- In an argument of a basic type, every type parameter is what the argument at the index of
the parameter becomes. -/
def InPlace (types : List TypeEntry) (params : List String) (targs : List TypeName) : TypeName →
    Prop
  | .mk name args => name ∈ params ∨ isStruct types (.mk name args) = true ∨
    ∀ p ∈ parametersOfList params args,
      (args[params.idxOf p]?).map (instantiate params targs) = targs[params.idxOf p]?

/-- The type that a variable gets that is declared with the type expression. -/
def Denotes (types : List TypeEntry) (T : TypeName) (t : Ty) : Prop :=
  ∀ d : Declaration, d.typeName = T → typecheckDeclaration types [] d = .ok t

end TypeName

/-! ### The type of a declaration -/

section
variable {types : List TypeEntry}

theorem lookupType_basicType {params : List String} {name : String} {args : List TypeName}
    (hname : name ∉ params) {j : Nat} {name' : String} {params' : List String}
    (hknown : getKnownType types (.mk name args) types.length = some (j, .basicType name' params'))
    {type : Ty} : lookupType types params types.length (.mk name args) = .ok type ↔
      ∃ ts, List.Forall₂ (fun a t => lookupArgument types params types.length a = .ok t) args ts ∧
        .basicType name' j params' ts = type := by
  rw [lookupType_eq_ok hname]
  constructor
  · rintro ⟨j', e, hje, entry, hentry, ts, hts, heq⟩
    rw [hknown, Option.some.injEq, Prod.mk.injEq] at hje
    obtain ⟨rfl, rfl⟩ := hje
    rw [TypeEntry.copy, Except.ok.injEq] at hentry
    subst hentry
    exact ⟨ts, hts, heq⟩
  · rintro ⟨ts, hts, heq⟩
    exact ⟨j, _, hknown, _, rfl, ts, hts, heq⟩

/-- The type of a variable that is declared with a basic type. -/
theorem typecheckDeclaration_basicType {params : List String} {d : Declaration} {name : String}
    {args : List TypeName} (hd : d.typeName = .mk name args) (hname : name ∉ params) {j : Nat}
    {name' : String} {params' : List String}
    (hknown : getKnownType types (.mk name args) types.length = some (j, .basicType name' params'))
    {t : Ty} : typecheckDeclaration types params d = .ok t ↔
      ∃ ts us,
      List.Forall₂ (fun a t => lookupArgument types params types.length a = .ok t) args ts ∧
        List.Forall₂ (fun t u => t.substantiate ts = .ok u) ts us ∧
        .basicType name' j params' us = t := by
  unfold typecheckDeclaration
  rw [bind_eq_ok, hd]
  constructor
  · rintro ⟨type, htype, hrest⟩
    obtain ⟨ts, hts, heq⟩ := (lookupType_basicType hname hknown).mp htype
    subst heq
    rw [Ty.typeArguments] at hrest
    cases ts with
    | nil =>
        rw [List.isEmpty_nil, if_pos rfl, pure_eq_ok] at hrest
        exact ⟨[], [], hts, .nil, hrest⟩
    | cons t ts =>
        rw [List.isEmpty_cons, if_neg Bool.false_ne_true] at hrest
        obtain ⟨us, hus, heq⟩ := Ty.substantiate_basicType.mp hrest
        exact ⟨t :: ts, us, hts, hus, heq⟩
  · rintro ⟨ts, us, hts, hus, heq⟩
    refine ⟨_, (lookupType_basicType hname hknown).mpr ⟨ts, hts, rfl⟩, ?_⟩
    rw [Ty.typeArguments]
    cases ts with
    | nil =>
        cases hus
        rw [List.isEmpty_nil, if_pos rfl, pure_eq_ok]
        exact heq
    | cons t ts =>
        rw [List.isEmpty_cons, if_neg Bool.false_ne_true]
        exact Ty.substantiate_basicType.mpr ⟨us, hus, heq⟩

/-- In the finished table a struct has all its fields. -/
theorem length_fieldTypes (hfields : ∀ j, FieldsTypedAt types j) {T : TypeName} {j : Nat}
    {name : String} {decs : List Declaration} {params : List String} {fieldTypes : List Ty}
    (hknown : getKnownType types T types.length = some (j, .struct name decs params fieldTypes)) :
    fieldTypes.length = decs.length :=
  (hfields j name decs params fieldTypes (getKnownType_eq_some hknown).1).length_eq.symm

/-- The type of a struct is a copy of its entry, with the type arguments. -/
theorem lookupType_struct (hfields : ∀ j, FieldsTypedAt types j) {params : List String}
    {name : String} {args : List TypeName} (hname : name ∉ params) {j : Nat} {name' : String}
    {decs : List Declaration} {params' : List String} {fieldTypes : List Ty}
    (hknown : getKnownType types (.mk name args) types.length =
      some (j, .struct name' decs params' fieldTypes)) {type : Ty} :
    lookupType types params types.length (.mk name args) = .ok type ↔
      ∃ ts, List.Forall₂ (fun a t => lookupArgument types params types.length a = .ok t) args ts ∧
        .struct name' j (decs.map Declaration.vname) (Ty.copyList fieldTypes) params' ts =
          type := by
  rw [lookupType_eq_ok hname]
  constructor
  · rintro ⟨j', e, hje, entry, hentry, ts, hts, heq⟩
    rw [hknown, Option.some.injEq, Prod.mk.injEq] at hje
    obtain ⟨rfl, rfl⟩ := hje
    rw [TypeEntry.copy, if_pos (length_fieldTypes hfields hknown), Except.ok.injEq] at hentry
    subst hentry
    exact ⟨ts, hts, heq⟩
  · rintro ⟨ts, hts, heq⟩
    refine ⟨j, _, hknown, .struct name' j (decs.map Declaration.vname) (Ty.copyList fieldTypes)
      params' [], ?_, ts, hts, heq⟩
    rw [TypeEntry.copy, if_pos (length_fieldTypes hfields hknown)]

/-- Without type arguments there are no type parameters. -/
theorem params_eq_nil {name : String} {j : Nat} {name' : String} {decs : List Declaration}
    {params : List String} {fieldTypes : List Ty}
    (hknown : getKnownType types (.mk name []) types.length =
      some (j, .struct name' decs params fieldTypes)) : params = [] :=
  List.length_eq_zero_iff.mp (getKnownType_eq_some hknown).2.2

/-- The type of a variable that is declared with a struct without type arguments. -/
theorem typecheckDeclaration_struct_nil (hfields : ∀ j, FieldsTypedAt types j)
    {params : List String} {d : Declaration} {name : String} (hd : d.typeName = .mk name [])
    (hname : name ∉ params) {j : Nat} {name' : String} {decs : List Declaration}
    {params' : List String} {fieldTypes : List Ty}
    (hknown : getKnownType types (.mk name []) types.length =
      some (j, .struct name' decs params' fieldTypes)) {t : Ty} :
    typecheckDeclaration types params d = .ok t ↔
      .struct name' j (decs.map Declaration.vname) (Ty.copyList fieldTypes) [] [] = t := by
  obtain rfl := params_eq_nil hknown
  unfold typecheckDeclaration
  rw [bind_eq_ok, hd]
  constructor
  · rintro ⟨type, htype, hrest⟩
    obtain ⟨ts, hts, rfl⟩ := (lookupType_struct hfields hname hknown).mp htype
    obtain rfl := List.forall₂_nil_left_iff.mp hts
    rw [Ty.typeArguments, List.isEmpty_nil, if_pos rfl, pure_eq_ok] at hrest
    exact hrest
  · intro heq
    refine ⟨_, (lookupType_struct hfields hname hknown).mpr ⟨[], .nil, rfl⟩, ?_⟩
    rw [Ty.typeArguments, List.isEmpty_nil, if_pos rfl, pure_eq_ok]
    exact heq

/-- The type of a variable that is declared with a struct and type arguments for it. -/
theorem typecheckDeclaration_struct (hfields : ∀ j, FieldsTypedAt types j) {params : List String}
    {d : Declaration} {name : String} {args : List TypeName} (hd : d.typeName = .mk name args)
    (hname : name ∉ params) (hargs : args ≠ []) {j : Nat} {name' : String}
    {decs : List Declaration} {params' : List String} {fieldTypes : List Ty}
    (hknown : getKnownType types (.mk name args) types.length =
      some (j, .struct name' decs params' fieldTypes)) {t : Ty} :
    typecheckDeclaration types params d = .ok t ↔
      ∃ ts us,
      List.Forall₂ (fun a t => lookupArgument types params types.length a = .ok t) args ts ∧
        List.Forall₂ (fun t u => t.substantiate ts = .ok u) fieldTypes us ∧
        .struct name' j (decs.map Declaration.vname) us [] [] = t := by
  have hne : ∀ {ts : List Ty},
      List.Forall₂ (fun a t => lookupArgument types params types.length a = .ok t) args ts →
      ts.isEmpty = false := by
    intro ts hts
    cases hts with
    | nil => exact absurd rfl hargs
    | cons _ _ => rfl
  unfold typecheckDeclaration
  rw [bind_eq_ok, hd]
  constructor
  · rintro ⟨type, htype, hrest⟩
    obtain ⟨ts, hts, rfl⟩ := (lookupType_struct hfields hname hknown).mp htype
    rw [Ty.typeArguments, hne hts, if_neg Bool.false_ne_true] at hrest
    obtain ⟨us, hus, heq⟩ := Ty.substantiate_struct.mp hrest
    exact ⟨ts, us, hts, Ty.forall₂_substantiate_copyList.mp hus, heq⟩
  · rintro ⟨ts, us, hts, hus, heq⟩
    refine ⟨_, (lookupType_struct hfields hname hknown).mpr ⟨ts, hts, rfl⟩, ?_⟩
    rw [Ty.typeArguments, hne hts, if_neg Bool.false_ne_true]
    exact Ty.substantiate_struct.mpr ⟨us, Ty.forall₂_substantiate_copyList.mpr hus, heq⟩

/-- The type of a declaration depends on the type expression only. -/
theorem TypeName.Denotes.intro {d : Declaration} {t : Ty}
    (h : typecheckDeclaration types [] d = .ok t) :
    d.typeName.Denotes types t := by
  intro d' hd'
  unfold typecheckDeclaration at h ⊢
  rw [hd']
  exact h

theorem TypeName.denotes_iff {T : TypeName} {t : Ty} :
    T.Denotes types t ↔ typecheckDeclaration types [] ⟨"", .localScope, T, false⟩ = .ok t :=
  ⟨fun h => h _ rfl, TypeName.Denotes.intro⟩

theorem TypeName.Denotes.unique {T : TypeName} {g g' : Ty} (h : T.Denotes types g)
    (h' : T.Denotes types g') : g = g' :=
  Except.ok.inj ((h ⟨"", .localScope, T, false⟩ rfl).symm.trans (h' _ rfl))

/-- The type of a variable that is declared with a type parameter. -/
theorem typecheckDeclaration_parameter {params : List String} {d : Declaration} {name : String}
    {args : List TypeName} (hd : d.typeName = .mk name args) (hname : name ∈ params) {t : Ty} :
    typecheckDeclaration types params d = .ok t ↔
      args = [] ∧ .typeVariable name (params.idxOf name) = t := by
  unfold typecheckDeclaration
  rw [hd, lookupType, if_pos hname]
  cases args with
  | nil => simp [bind, Except.bind, Ty.typeArguments, pure, Except.pure]
  | cons a args => simp [bind, Except.bind]

/-- The type of an argument that is a basic type. -/
theorem lookupArgument_basicType {params : List String} {name : String} {args : List TypeName}
    (hname : name ∉ params) {j : Nat} {name' : String} {params' : List String}
    (hknown : getKnownType types (.mk name args) types.length = some (j, .basicType name' params'))
    {t : Ty} :
    lookupArgument types params types.length (.mk name args) = .ok t ↔
      ∃ ts, List.Forall₂ (fun a t => lookupArgument types params types.length a = .ok t) args ts ∧
        .basicType name' j params' ts = t := by
  rw [lookupArgument, if_neg hname]
  exact lookupType_basicType hname hknown

/-- The type of an argument that is not applied does not depend on the type parameters. -/
theorem lookupArgument_nil_args {params params' : List String} {name : String}
    (hname : name ∉ params)
    (hname' : name ∉ params') : lookupArgument types params types.length (.mk name []) =
      lookupArgument types params' types.length (.mk name []) := by
  rw [lookupArgument, if_neg hname, lookupArgument, if_neg hname', lookupType, if_neg hname,
    lookupType,
    if_neg hname', lookupTypes, lookupTypes]

/-- The type of an argument that is a struct. -/
theorem lookupArgument_struct (hfields : ∀ j, FieldsTypedAt types j) {params : List String}
    {name : String} {args : List TypeName} (hname : name ∉ params) {j : Nat} {name' : String}
    {decs : List Declaration} {params' : List String} {fieldTypes : List Ty}
    (hknown : getKnownType types (.mk name args) types.length =
      some (j, .struct name' decs params' fieldTypes)) {t : Ty} :
    lookupArgument types params types.length (.mk name args) = .ok t ↔
      ∃ ts, List.Forall₂ (fun a t => lookupArgument types params types.length a = .ok t) args ts ∧
        .struct name' j (decs.map Declaration.vname) (Ty.copyList fieldTypes) params' ts = t := by
  rw [lookupArgument, if_neg hname]
  exact lookupType_struct hfields hname hknown

/-- The type of a ground type expression is no type variable. -/
theorem ne_typeVariable_of_lookup {T : TypeName} {t : Ty}
    (ht : lookupArgument types [] types.length T = .ok t) (name : String) (index : Nat) :
    t ≠ .typeVariable name index := by
  cases T with
  | mk name' args =>
      rw [lookupArgument_nil] at ht
      obtain ⟨j, e, _, type, htype, ts, _, rfl⟩ := (lookupType_eq_ok List.not_mem_nil).mp ht
      rcases copy_eq_ok htype with ⟨_, _, _, rfl⟩ | ⟨_, _, _, _, _, _, rfl⟩
      · exact nofun
      · exact nofun

theorem ne_typeVariable_of_lookups {Ts : List TypeName} {A : List Ty}
    (hA : List.Forall₂ (fun a t => lookupArgument types [] types.length a = .ok t) Ts A) :
    ∀ a ∈ A, ∀ name index, a ≠ .typeVariable name index := by
  intro a ha
  obtain ⟨T, _, hlookup⟩ := forall₂_mem_right hA ha
  exact ne_typeVariable_of_lookup hlookup

/-- A looked up type shows its entry and its type arguments, so it has one type expression. -/
theorem lookup_injective (T : TypeName) : ∀ {U : TypeName} {t u : Ty},
    lookupArgument types [] types.length T = .ok t →
    lookupArgument types [] types.length U = .ok u → t.forget = u.forget → T = U := by
  induction T using TypeName.induction with
  | mk name args ih =>
      intro U t u ht hu heq
      cases U with
      | mk name' args' =>
          rw [lookupArgument_nil] at ht hu
          obtain ⟨j, e, hknown, type, htype, ts, hts, rfl⟩ :=
            (lookupType_eq_ok List.not_mem_nil).mp ht
          obtain ⟨j', e', hknown', type', htype', us, hus, rfl⟩ :=
            (lookupType_eq_ok List.not_mem_nil).mp hu
          have hsame : j = j' ∧ Ty.forgetList ts = Ty.forgetList us := by
            rcases copy_eq_ok htype with ⟨_, _, _, rfl⟩ | ⟨_, _, _, _, _, _, rfl⟩
            · rcases copy_eq_ok htype' with ⟨_, _, _, rfl⟩ | ⟨_, _, _, _, _, _, rfl⟩
              · simp only [Ty.setTypeArguments, Ty.forget, Ty.basicType.injEq] at heq
                exact ⟨heq.2.1, heq.2.2.2⟩
              · cases heq
            · rcases copy_eq_ok htype' with ⟨_, _, _, rfl⟩ | ⟨_, _, _, _, _, _, rfl⟩
              · cases heq
              · simp only [Ty.setTypeArguments, Ty.forget, Ty.struct.injEq] at heq
                exact ⟨heq.2.1, heq.2.2.2.2.2⟩
          obtain ⟨rfl, hargs⟩ := hsame
          have hname : name = name' := ((getKnownType_ref_iff hknown hknown').1.mp rfl).1
          have hcommon := forall₂_comp (forall₂_comp hts (Ty.forgetList_eq_iff.mp hargs)) hus.flip
          have hequal : List.Forall₂ Eq args args' := by
            refine forall₂_imp_mem hcommon ?_
            rintro a ha b ⟨u, ⟨t, ht, heq⟩, hu⟩
            exact ih a ha ht hu heq
          have hsameArgs : args = args' := List.forall₂_eq_eq_eq ▸ hequal
          rw [hname, hsameArgs]

namespace TypeName.Known

/-- In the finished table, the type of a known type expression is found. -/
theorem exists_lookup (hfields : ∀ j, FieldsTypedAt types j) {params : List String} {T : TypeName}
    (h : T.Known types params) : (∃ t, lookupArgument types params types.length T = .ok t) ∧
      ∃ t, lookupType types params types.length T = .ok t := by
  induction h with
  | parameter hname =>
      exact ⟨⟨_, by rw [lookupArgument, if_pos hname]⟩, _, by rw [lookupType, if_pos hname]; rfl⟩
  | @declared name args j e hname hknown _ ih =>
      obtain ⟨ts, hts⟩ := exists_forall₂_iff.mpr fun a ha => (ih a ha).1
      have hlookup : ∃ t, lookupType types params types.length (.mk name args) = .ok t := by
        cases e with
        | basicType => exact ⟨_, (lookupType_basicType hname hknown).mpr ⟨ts, hts, rfl⟩⟩
        | struct => exact ⟨_, (lookupType_struct hfields hname hknown).mpr ⟨ts, hts, rfl⟩⟩
      refine ⟨?_, hlookup⟩
      rw [lookupArgument, if_neg hname]
      exact hlookup

/-- An instance of a known type expression is known. -/
theorem instantiate {params : List String} {targs : List TypeName} {T : TypeName}
    (h : T.Known types params) (htargs : ∀ t ∈ targs, t.Known types [])
    (hlength : targs.length = params.length) : (T.instantiate params targs).Known types [] := by
  induction h with
  | @parameter name hname =>
      have hindex : params.idxOf name < params.length := List.idxOf_lt_length_iff.mpr hname
      rw [TypeName.instantiate, if_pos hname, List.getD_eq_getElem _ _ (by omega)]
      exact htargs _ (List.getElem_mem _)
  | declared hname hknown _ ih =>
      rw [TypeName.instantiate, if_neg hname, TypeName.instantiateList_eq_map]
      refine .declared List.not_mem_nil ((getKnownType_map _ _ _ _).trans hknown) fun a ha => ?_
      obtain ⟨b, hb, rfl⟩ := List.mem_map.mp ha
      exact ih b hb

/-- A ground type expression that can be looked up uses declared types only. -/
theorem of_lookup (T : TypeName) : ∀ {t : Ty},
    lookupArgument types [] types.length T = .ok t → T.Known types [] := by
  induction T using TypeName.induction with
  | mk name args ih =>
      intro t ht
      rw [lookupArgument_nil] at ht
      obtain ⟨j, e, hknown, type, _, ts, hts, _⟩ := (lookupType_eq_ok List.not_mem_nil).mp ht
      refine .declared List.not_mem_nil hknown fun a ha => ?_
      obtain ⟨t, _, hlookup⟩ := forall₂_mem_left hts ha
      exact ih a ha hlookup

/-- Type parameters that are called like no declared type are not looked at. -/
theorem lookup_fresh {params : List String} (hfresh : ∀ p ∈ params, p ∉ types.map TypeEntry.name)
    {T : TypeName} (h : T.Known types []) : ∀ {t : Ty},
    lookupArgument types [] types.length T = .ok t →
      T.name ∉ params ∧ lookupArgument types params types.length T = .ok t := by
  induction h with
  | parameter hname => exact absurd hname List.not_mem_nil
  | @declared name args j e hname hknown _ ih =>
      intro t ht
      obtain ⟨hentry, hsame, _⟩ := getKnownType_eq_some hknown
      have hnot : name ∉ params := by
        intro hmem
        exact hfresh name hmem (List.mem_map.mpr ⟨e, List.mem_of_getElem? hentry, hsame⟩)
      refine ⟨hnot, ?_⟩
      rw [lookupArgument_nil] at ht
      obtain ⟨j', e', hknown', type, htype, ts, hts, heq⟩ := (lookupType_eq_ok hname).mp ht
      rw [lookupArgument, if_neg hnot]
      exact (lookupType_eq_ok hnot).mpr ⟨j', e', hknown', type, htype, ts,
        forall₂_imp_mem hts fun a ha t ht => (ih a ha ht).2, heq⟩

end TypeName.Known

/-! ### Plain type arguments -/

namespace TypeName.Plain

/-- An argument whose instance is plain was plain. -/
theorem of_instantiate {params : List String} {targs : List TypeName} (T : TypeName)
    (h : (T.instantiate params targs).Plain types []) : T.Plain types params := by
  induction T using TypeName.induction with
  | mk name args ih =>
      by_cases hname : name ∈ params
      · exact .parameter hname
      · rw [TypeName.instantiate, if_neg hname, TypeName.instantiateList_eq_map] at h
        generalize hargs : args.map (TypeName.instantiate params targs) = args' at h
        cases h with
        | parameter hname' => exact absurd hname' List.not_mem_nil
        | basicType _ hknown hplain =>
            subst hargs
            rw [getKnownType_map] at hknown
            exact .basicType hname hknown fun a ha =>
              ih a ha (hplain _ (List.mem_map_of_mem ha))
        | struct _ hknown hclosed =>
            obtain rfl := List.map_eq_nil_iff.mp hargs
            exact .struct hname hknown hclosed

variable (hfields : ∀ j, FieldsTypedAt types j)
include hfields

/-- The type variables in the type of a plain argument are its type parameters. -/
theorem mem_typeVariables {params : List String} {T : TypeName} (h : T.Plain types params) :
    ∀ {t : Ty}, lookupArgument types params types.length T = .ok t → ∀ index,
      (index ∈ t.typeVariables ↔ ∃ p ∈ T.parameters params, params.idxOf p = index) := by
  induction h with
  | parameter hname =>
      intro t ht index
      rw [lookupArgument, if_pos hname, Except.ok.injEq] at ht
      subst ht
      simp [TypeName.parameters, hname]
  | basicType hname hknown _ ih =>
      intro t ht index
      obtain ⟨ts, hts, rfl⟩ := (lookupArgument_basicType hname hknown).mp ht
      rw [Ty.mem_typeVariables_basicType, TypeName.parameters, if_neg hname]
      simp only [TypeName.mem_parametersOfList]
      constructor
      · rintro ⟨t, ht, hmem⟩
        obtain ⟨a, ha, hlookup⟩ := forall₂_mem_right hts ht
        obtain ⟨p, hp, heq⟩ := (ih a ha hlookup index).mp hmem
        exact ⟨p, ⟨a, ha, hp⟩, heq⟩
      · rintro ⟨p, ⟨a, ha, hp⟩, heq⟩
        obtain ⟨t, ht, hlookup⟩ := forall₂_mem_left hts ha
        exact ⟨t, ht, (ih a ha hlookup index).mpr ⟨p, hp, heq⟩⟩
  | struct hname hknown hclosed =>
      intro t ht index
      obtain ⟨ts, hts, rfl⟩ := (lookupArgument_struct hfields hname hknown).mp ht
      rw [Ty.mem_typeVariables_struct, TypeName.parameters, if_neg hname, TypeName.parametersOfList,
        Ty.copyList_eq_map]
      refine iff_of_false ?_ (by simp)
      rintro ⟨f, hf, hmem⟩
      obtain ⟨t, ht, rfl⟩ := List.mem_map.mp hf
      rw [Ty.typeVariables_copy] at hmem
      exact hclosed t ht index hmem

/-- The type of a plain argument without type parameters has no type variables. -/
theorem closed {T : TypeName} (h : T.Plain types []) {t : Ty}
    (ht : lookupArgument types [] types.length T = .ok t) : t.Closed := by
  intro index hmem
  obtain ⟨p, hp, _⟩ := (h.mem_typeVariables hfields ht index).mp hmem
  exact absurd (TypeName.mem_of_mem_parameters T hp) List.not_mem_nil

/-- In the type of a plain argument no struct has type arguments. -/
theorem bare {params : List String} {T : TypeName} (h : T.Plain types params) : ∀ {t : Ty},
    lookupArgument types params types.length T = .ok t → t.Bare := by
  induction h with
  | parameter hname =>
      intro t ht
      rw [lookupArgument, if_pos hname, Except.ok.injEq] at ht
      exact ht ▸ rfl
  | basicType hname hknown _ ih =>
      intro t ht
      obtain ⟨ts, hts, rfl⟩ := (lookupArgument_basicType hname hknown).mp ht
      refine Ty.bare_basicType.mpr fun t ht => ?_
      obtain ⟨a, ha, hlookup⟩ := forall₂_mem_right hts ht
      exact ih a ha hlookup
  | struct hname hknown _ =>
      intro t ht
      obtain ⟨ts, hts, rfl⟩ := (lookupArgument_struct hfields hname hknown).mp ht
      obtain rfl := List.forall₂_nil_left_iff.mp hts
      refine Ty.bare_struct.mpr fun f hf => ?_
      rw [Ty.copyList_eq_map] at hf
      obtain ⟨t, _, rfl⟩ := List.mem_map.mp hf
      exact Ty.bare_copy t

/-- Looking a plain argument up and substantiating it is looking its instance up. -/
theorem lookup_instantiate {params : List String} {T : TypeName} (h : T.Plain types params)
    {targs : List TypeName} {A : List Ty}
    (hA : List.Forall₂ (fun a t => lookupArgument types [] types.length a = .ok t) targs A)
    (hlength : targs.length = params.length) : ∀ {t : Ty},
    lookupArgument types params types.length T = .ok t → ∃ u g, t.substantiate A = .ok u ∧
      lookupArgument types [] types.length (T.instantiate params targs) = .ok g ∧
        u.forget = g.forget := by
  induction h with
  | @parameter name args hname =>
      intro t ht
      rw [lookupArgument, if_pos hname, Except.ok.injEq] at ht
      subst ht
      have hindex : params.idxOf name < params.length := List.idxOf_lt_length_iff.mpr hname
      have hAlength := hA.length_eq
      have hlookup := (List.forall₂_iff_get.mp hA).2 (params.idxOf name) (by omega) (by omega)
      rw [TypeName.instantiate, if_pos hname, List.getD_eq_getElem _ _ (by omega)]
      exact ⟨_, _, Ty.substantiate_typeVariable.mpr (List.getElem?_eq_getElem (by omega)),
        hlookup, rfl⟩
  | @basicType name args j name' params' hname hknown hargs ih =>
      intro t ht
      obtain ⟨ts, hts, rfl⟩ := (lookupArgument_basicType hname hknown).mp ht
      obtain ⟨us, gs, hsub, hgs, hsame⟩ := exists_forall₂_square hts ih
      refine ⟨_, .basicType name' j params' gs, Ty.substantiate_basicType.mpr ⟨us, hsub, rfl⟩,
        ?_, ?_⟩
      · rw [TypeName.instantiate, if_neg hname, TypeName.instantiateList_eq_map]
        exact (lookupArgument_basicType List.not_mem_nil
          ((getKnownType_map name args _ _).trans hknown)).mpr
            ⟨gs, List.forall₂_map_left_iff.mpr hgs, rfl⟩
      · rw [Ty.forget, Ty.forget, Ty.forgetList_eq_iff.mpr hsame]
  | @struct name j name' decs params' fieldTypes hname hknown hclosed =>
      intro t ht
      have hplain : (TypeName.mk name []).Plain types params := .struct hname hknown hclosed
      have hground : (TypeName.mk name []).Plain types [] :=
        .struct List.not_mem_nil hknown hclosed
      have hbare : t.Bare := hplain.bare hfields ht
      rw [lookupArgument_nil_args hname List.not_mem_nil] at ht
      obtain ⟨u, hu, heq⟩ := (hground.closed hfields ht).substantiate hbare A
      rw [TypeName.instantiate, if_neg hname, TypeName.instantiateList]
      exact ⟨u, t, hu, ht, heq⟩

/-- A variable that is declared with a plain type expression has the type that is looked up. -/
theorem denotes {T : TypeName} (h : T.Plain types []) {t : Ty}
    (ht : lookupArgument types [] types.length T = .ok t) :
    ∃ g, T.Denotes types g ∧ g.forget = t.forget := by
  cases h with
  | parameter hname => exact absurd hname List.not_mem_nil
  | @basicType name args j name' params' hname hknown hargs =>
      obtain ⟨ts, hts, rfl⟩ := (lookupArgument_basicType hname hknown).mp ht
      -- The type arguments are closed: substantiating them with themselves changes nothing.
      obtain ⟨us, hus, hsame⟩ := exists_forall₂_both hts fun a ha {t} ht => by
        obtain ⟨u, hu, heq⟩ := ((hargs a ha).closed hfields ht).substantiate
          ((hargs a ha).bare hfields ht) ts
        have hlookup : ∃ t, lookupArgument types [] types.length a = .ok t ∧ t.forget = u.forget :=
          ⟨t, ht, heq.symm⟩
        exact ⟨u, hu, hlookup⟩
      refine ⟨_, Denotes.intro (d := ⟨"", .localScope, .mk name args, false⟩)
        ((typecheckDeclaration_basicType rfl hname hknown).mpr ⟨ts, us, hts, hus, rfl⟩), ?_⟩
      rw [Ty.forget, Ty.forget]
      congr 1
      refine Ty.forgetList_eq_iff.mpr ((forall₂_comp hsame.flip hts).imp ?_)
      rintro u t ⟨a, ⟨t', ht', heq⟩, ht⟩
      rw [ht', Except.ok.injEq] at ht
      exact ht ▸ heq.symm
  | @struct name j name' decs params' fieldTypes hname hknown hclosed =>
      obtain ⟨ts, hts, rfl⟩ := (lookupArgument_struct hfields hname hknown).mp ht
      obtain rfl := List.forall₂_nil_left_iff.mp hts
      obtain rfl := params_eq_nil hknown
      exact ⟨_, Denotes.intro (d := ⟨"", .localScope, .mk name [], false⟩)
        ((typecheckDeclaration_struct_nil hfields rfl hname hknown).mpr rfl), rfl⟩

end TypeName.Plain

/-! ### Declarations without type parameters -/

/-- Without type parameters there is nothing to replace. -/
theorem TypeName.instantiate_nil (targs : List TypeName) (T : TypeName) :
    T.instantiate [] targs = T := by
  induction T using TypeName.induction with
  | mk name args ih =>
      rw [TypeName.instantiate, if_neg List.not_mem_nil, TypeName.instantiateList_eq_map,
        List.map_congr_left ih, List.map_id']

/-- A type expression without type parameters is in place. -/
theorem TypeName.inPlace_nil (T : TypeName) (targs : List TypeName) :
    T.InPlace types [] targs := by
  cases T with
  | mk name args =>
      refine Or.inr (Or.inr fun p hp => ?_)
      obtain ⟨a, _, hp⟩ := TypeName.mem_parametersOfList.mp hp
      exact absurd (TypeName.mem_of_mem_parameters a hp) List.not_mem_nil

/-- A direct type expression denotes the type that is looked up. -/
theorem TypeName.Direct.denotes (hfields : ∀ j, FieldsTypedAt types j) {T : TypeName}
    (h : T.Direct types) {t : Ty} (ht : lookupArgument types [] types.length T = .ok t) :
    ∃ g, T.Denotes types g ∧ g.forget = t.forget := by
  cases T with
  | mk name args =>
      obtain ⟨hplain, hstruct⟩ := h
      have hlookup := ht
      rw [lookupArgument_nil] at hlookup
      obtain ⟨j, e, hknown, _⟩ := (lookupType_eq_ok List.not_mem_nil).mp hlookup
      cases e with
      | basicType name' params =>
          have hbasic : (TypeName.mk name args).Plain types [] :=
            .basicType List.not_mem_nil hknown hplain
          exact hbasic.denotes hfields ht
      | struct name' decs params fieldTypes =>
          have hnil : args = [] := hstruct (by rw [TypeName.isStruct, hknown])
          subst hnil
          obtain ⟨ts, hts, rfl⟩ := (lookupArgument_struct hfields List.not_mem_nil hknown).mp ht
          obtain rfl := List.forall₂_nil_left_iff.mp hts
          obtain rfl := params_eq_nil hknown
          exact ⟨_, TypeName.Denotes.intro (d := ⟨"", .localScope, .mk name [], false⟩)
            ((typecheckDeclaration_struct_nil hfields rfl List.not_mem_nil hknown).mpr rfl), rfl⟩

/-- Where no type variable occurs in the type of a struct, none occurs in its fields. -/
theorem closed_fields (hfields : ∀ j, FieldsTypedAt types j) {params : List String} {name : String}
    {args : List TypeName} (hname : name ∉ params) {j : Nat} {name' : String}
    {decs : List Declaration} {params' : List String} {fieldTypes : List Ty}
    (hknown : getKnownType types (.mk name args) types.length =
      some (j, .struct name' decs params' fieldTypes)) {t : Ty}
    (ht : lookupArgument types params types.length (.mk name args) = .ok t) (hclosed : t.Closed) :
    ∀ s ∈ fieldTypes, s.Closed := by
  obtain ⟨ts, _, rfl⟩ := (lookupArgument_struct hfields hname hknown).mp ht
  exact Ty.closed_struct_copyList.mp hclosed

/-- The structs of a ground type expression are closed exactly when no type variable occurs in its
type. -/
theorem TypeName.structsClosed_iff (hfields : ∀ j, FieldsTypedAt types j) {T : TypeName}
    (hknown : T.Known types []) : ∀ {t : Ty}, lookupArgument types [] types.length T = .ok t →
      (T.StructsClosed types ↔ t.Closed) := by
  induction hknown with
  | parameter hname => exact absurd hname List.not_mem_nil
  | @declared name args j e hname hentry hargs ih =>
      intro t ht
      cases e with
      | basicType name' params =>
          obtain ⟨ts, hts, rfl⟩ := (lookupArgument_basicType hname hentry).mp ht
          constructor
          · intro h index hmem
            cases h with
            | struct hentry' =>
                rw [hentry] at hentry'
                cases hentry'
            | basicType _ hinner =>
                obtain ⟨t, ht, hmem⟩ := Ty.mem_typeVariables_basicType.mp hmem
                obtain ⟨a, ha, hlookup⟩ := forall₂_mem_right hts ht
                exact (ih a ha hlookup).mp (hinner a ha) index hmem
          · refine fun h => .basicType hentry fun a ha => ?_
            obtain ⟨t, ht, hlookup⟩ := forall₂_mem_left hts ha
            refine (ih a ha hlookup).mpr fun index hmem => ?_
            exact h index (Ty.mem_typeVariables_basicType.mpr ⟨t, ht, hmem⟩)
      | struct name' decs params fieldTypes =>
          constructor
          · intro h
            cases h with
            | basicType hentry' =>
                rw [hentry] at hentry'
                cases hentry'
            | struct hentry' hclosed =>
                rw [hentry, Option.some.injEq, Prod.mk.injEq, TypeEntry.struct.injEq] at hentry'
                obtain ⟨_, _, _, _, rfl⟩ := hentry'
                obtain ⟨ts, _, rfl⟩ := (lookupArgument_struct hfields hname hentry).mp ht
                exact Ty.closed_struct_copyList.mpr hclosed
          · exact fun h => .struct hentry (closed_fields hfields hname hentry ht h)

/-- A declared struct without type variables in its fields has one type. -/
theorem typecheckDeclaration_closed (hfields : ∀ j, FieldsTypedAt types j) {params : List String}
    {name : String} {args : List TypeName} (hname : name ∉ params) {j : Nat} {name' : String}
    {decs : List Declaration} {params' : List String} {fieldTypes : List Ty}
    (hknown : getKnownType types (.mk name args) types.length =
      some (j, .struct name' decs params' fieldTypes))
    (hclosed : ∀ s ∈ fieldTypes, s.Closed) {d : Declaration} (hd : d.typeName = .mk name args)
    {s : Ty} (hs : typecheckDeclaration types params d = .ok s) : s.forget =
      (Ty.struct name' j (decs.map Declaration.vname) (Ty.copyList fieldTypes) [] []).forget := by
  by_cases hargs : args = []
  · subst hargs
    obtain rfl := (typecheckDeclaration_struct_nil hfields hd hname hknown).mp hs
    rfl
  · obtain ⟨ts, us, _, hus, rfl⟩ :=
      (typecheckDeclaration_struct hfields hd hname hargs hknown).mp hs
    rw [Ty.forget, Ty.forget]
    congr 1
    rw [Ty.forgetList_eq_iff, Ty.copyList_eq_map, List.forall₂_map_right_iff]
    exact (forall₂_imp_mem hus fun t ht u hu =>
      Ty.forget_substantiate_of_closed t (hclosed t ht) hu).flip

/-- A known struct without type variables in its fields can be declared. -/
theorem exists_typecheckDeclaration_closed (hfields : ∀ j, FieldsTypedAt types j)
    {params : List String} {name : String} {args : List TypeName} (hname : name ∉ params) {j : Nat}
    {name' : String} {decs : List Declaration} {params' : List String} {fieldTypes : List Ty}
    (hknown : getKnownType types (.mk name args) types.length =
      some (j, .struct name' decs params' fieldTypes))
    (hclosed : ∀ s ∈ fieldTypes, s.Closed) (hargs : ∀ a ∈ args, a.Known types params)
    {d : Declaration} (hd : d.typeName = .mk name args) :
    ∃ s, typecheckDeclaration types params d = .ok s := by
  by_cases hnil : args = []
  · subst hnil
    exact ⟨_, (typecheckDeclaration_struct_nil hfields hd hname hknown).mpr rfl⟩
  · obtain ⟨ts, hts⟩ := exists_forall₂_iff.mpr fun a ha => ((hargs a ha).exists_lookup hfields).1
    obtain ⟨us, hus⟩ := exists_forall₂_iff.mpr fun t (ht : t ∈ fieldTypes) =>
      (hclosed t ht).exists_substantiate ts
    exact ⟨_, (typecheckDeclaration_struct hfields hd hname hnil hknown).mpr
      ⟨ts, us, hts, hus, rfl⟩⟩

/-- With closed structs, the type of a variable is a copy of the type that is looked up. -/
theorem TypeName.StructsClosed.denotes (hfields : ∀ j, FieldsTypedAt types j) {T : TypeName}
    (h : T.StructsClosed types) {t : Ty} (ht : lookupArgument types [] types.length T = .ok t) :
    ∃ g, T.Denotes types g ∧ g.forget = t.copy.forget := by
  have hknown := TypeName.Known.of_lookup T ht
  have hclosed := (TypeName.structsClosed_iff hfields hknown ht).mp h
  cases h with
  | @basicType name args j name' params hentry hinner =>
      obtain ⟨ts, hts, rfl⟩ := (lookupArgument_basicType List.not_mem_nil hentry).mp ht
      have hall : ∀ t ∈ ts, t.Closed := fun t ht index hmem =>
        hclosed index (Ty.mem_typeVariables_basicType.mpr ⟨t, ht, hmem⟩)
      obtain ⟨us, hus⟩ := exists_forall₂_iff.mpr fun t (ht : t ∈ ts) =>
        (hall t ht).exists_substantiate ts
      refine ⟨_, TypeName.Denotes.intro (d := ⟨"", .localScope, .mk name args, false⟩)
        ((typecheckDeclaration_basicType rfl List.not_mem_nil hentry).mpr
          ⟨ts, us, hts, hus, rfl⟩), ?_⟩
      rw [Ty.copy, Ty.forget, Ty.forget, Ty.copyList_eq_map]
      congr 1
      rw [Ty.forgetList_eq_iff, List.forall₂_map_right_iff]
      exact (forall₂_imp_mem hus fun t ht u hu =>
        Ty.forget_substantiate_of_closed t (hall t ht) hu).flip
  | @struct name args j name' decs params fieldTypes hentry hfieldsClosed =>
      obtain ⟨ts, hts, rfl⟩ := (lookupArgument_struct hfields List.not_mem_nil hentry).mp ht
      cases hknown with
      | parameter hname => exact absurd hname List.not_mem_nil
      | declared _ _ hargs =>
          obtain ⟨g, hg⟩ := exists_typecheckDeclaration_closed hfields List.not_mem_nil hentry
            hfieldsClosed hargs (d := ⟨"", .localScope, .mk name args, false⟩) rfl
          refine ⟨g, TypeName.Denotes.intro hg, ?_⟩
          rw [typecheckDeclaration_closed hfields List.not_mem_nil hentry hfieldsClosed rfl hg,
            Ty.copy, Ty.forget, Ty.forget, Ty.copyList_copyList]

/-- Looking a ground type expression up leaves nothing out exactly when it is plain. -/
theorem TypeName.plain_iff (hfields : ∀ j, FieldsTypedAt types j) {T : TypeName}
    (hknown : T.Known types []) {A : List Ty}
    (hA : ∀ a ∈ A, ∀ name index, a ≠ .typeVariable name index) : ∀ {t : Ty},
    lookupArgument types [] types.length T = .ok t →
      ((∃ u, t.substantiate A = .ok u ∧ t.forget = u.forget) ↔ T.Plain types []) := by
  induction hknown with
  | parameter hname => exact absurd hname List.not_mem_nil
  | @declared name args j e hname hknown hargs ih =>
      intro t ht
      constructor
      · rintro ⟨u, hu, heq⟩
        cases e with
        | basicType name' params =>
            obtain ⟨ts, hts, rfl⟩ := (lookupArgument_basicType hname hknown).mp ht
            obtain ⟨us, hus, rfl⟩ := Ty.substantiate_basicType.mp hu
            simp only [Ty.forget, Ty.basicType.injEq, true_and] at heq
            refine .basicType hname hknown fun a ha => ?_
            obtain ⟨t, hmem, hlookup⟩ := forall₂_mem_left hts ha
            obtain ⟨u, _, hsub, hsame⟩ :=
              forall₂_mem_left (forall₂_and hus (Ty.forgetList_eq_iff.mp heq)) hmem
            exact (ih a ha hlookup).mp ⟨u, hsub, hsame⟩
        | struct name' decs params fieldTypes =>
            obtain ⟨ts, hts, rfl⟩ := (lookupArgument_struct hfields hname hknown).mp ht
            obtain ⟨us, hus, rfl⟩ := Ty.substantiate_struct.mp hu
            simp only [Ty.forget, Ty.struct.injEq, true_and] at heq
            obtain ⟨hsame, hnil⟩ := heq
            -- The type has lost its type arguments, so there were none.
            obtain rfl : ts = [] := by
              rw [Ty.forgetList_eq_map, Ty.forgetList, List.map_eq_nil_iff] at hnil
              exact hnil
            obtain rfl := List.forall₂_nil_right_iff.mp hts
            refine .struct hname hknown fun s hs => ?_
            rw [Ty.forgetList_eq_iff, Ty.copyList_eq_map, List.forall₂_map_left_iff] at hsame
            obtain ⟨u, _, hsub, hcopy⟩ :=
              forall₂_mem_left (forall₂_and (Ty.forall₂_substantiate_copyList.mp hus) hsame) hs
            exact Ty.closed_of_forget_substantiate hA s hsub hcopy.symm
      · intro h
        obtain ⟨u, hu, heq⟩ := (h.closed hfields ht).substantiate (h.bare hfields ht) A
        exact ⟨u, hu, heq.symm⟩

/-- Looking a ground type expression up gives the type of a variable exactly when it is direct. -/
theorem TypeName.direct_iff (hfields : ∀ j, FieldsTypedAt types j) {T : TypeName} {t : Ty}
    (ht : lookupArgument types [] types.length T = .ok t) :
    (∃ g, T.Denotes types g ∧ t.forget = g.forget) ↔ T.Direct types := by
  constructor
  · rintro ⟨g, hg, heq⟩
    cases TypeName.Known.of_lookup T ht with
    | parameter hname => exact absurd hname List.not_mem_nil
    | @declared name args j e hname hknown hargs =>
        have hdec : typecheckDeclaration types [] ⟨"", .localScope, .mk name args, false⟩ = .ok g :=
          hg _ rfl
        cases e with
        | basicType name' params =>
            obtain ⟨ts, hts, rfl⟩ := (lookupArgument_basicType hname hknown).mp ht
            obtain ⟨ts', us, hts', hus, rfl⟩ :=
              (typecheckDeclaration_basicType rfl hname hknown).mp hdec
            obtain rfl := forall₂_unique hts hts'
            simp only [Ty.forget, Ty.basicType.injEq, true_and] at heq
            refine ⟨fun a ha => ?_, fun h => absurd h (by simp [TypeName.isStruct, hknown])⟩
            obtain ⟨t, hmem, hlookup⟩ := forall₂_mem_left hts ha
            obtain ⟨u, _, hsub, hsame⟩ :=
              forall₂_mem_left (forall₂_and hus (Ty.forgetList_eq_iff.mp heq)) hmem
            exact (TypeName.plain_iff hfields (hargs a ha) (ne_typeVariable_of_lookups hts)
              hlookup).mp ⟨u, hsub, hsame⟩
        | struct name' decs params fieldTypes =>
            obtain ⟨ts, hts, rfl⟩ := (lookupArgument_struct hfields hname hknown).mp ht
            -- The type of the variable has no type arguments.
            have hnil : args = [] := by
              by_contra hne
              obtain ⟨_, us, _, _, rfl⟩ :=
                (typecheckDeclaration_struct hfields rfl hname hne hknown).mp hdec
              simp only [Ty.forget, Ty.struct.injEq] at heq
              have hts' := heq.2.2.2.2.2
              rw [Ty.forgetList_eq_map, Ty.forgetList, List.map_eq_nil_iff] at hts'
              subst hts'
              exact hne (List.forall₂_nil_right_iff.mp hts)
            exact ⟨hnil ▸ List.forall_mem_nil _, fun _ => hnil⟩
  · intro h
    obtain ⟨g, hg, heq⟩ := h.denotes hfields ht
    exact ⟨g, hg, heq.symm⟩
/-- With plain type arguments, a ground declaration gets a closed and bare type. -/
theorem closed_bare_of_plain (hfields : ∀ j, FieldsTypedAt types j) {d : Declaration} {s : Ty}
    (hs : typecheckDeclaration types [] d = .ok s)
    (hplain : ∀ a ∈ d.typeName.typeArgumentNames, a.Plain types [])
    (hargs : d.typeName.isStruct types = true → d.typeName.typeArgumentNames ≠ []) :
    s.Closed ∧ s.Bare := by
  rcases d with ⟨vname, scope, ⟨name, args⟩, input⟩
  -- What is substantiated with closed and bare types is closed and bare.
  have hall : ∀ {ts : List Ty},
      List.Forall₂ (fun a t => lookupArgument types [] types.length a = .ok t) args ts →
      ∀ {t u : Ty}, t.substantiate ts = .ok u → u.Closed ∧ u.Bare := by
    intro ts hts t u hu
    constructor
    · intro index hmem
      obtain ⟨i, b, _, hb, hmem⟩ := (Ty.mem_typeVariables_substantiate hu).mp hmem
      obtain ⟨a, ha, hlookup⟩ := forall₂_mem_right hts (List.mem_of_getElem? hb)
      exact (hplain a ha).closed hfields hlookup index hmem
    · refine Ty.bare_substantiate (fun b hb => ?_) t hu
      obtain ⟨a, ha, hlookup⟩ := forall₂_mem_right hts hb
      exact (hplain a ha).bare hfields hlookup
  obtain ⟨type, htype, _⟩ := bind_eq_ok.mp hs
  obtain ⟨j, e, hknown, _⟩ := (lookupType_eq_ok List.not_mem_nil).mp htype
  cases e with
  | basicType name' params =>
      obtain ⟨ts, us, hts, hus, rfl⟩ :=
        (typecheckDeclaration_basicType rfl List.not_mem_nil hknown).mp hs
      have hboth : ∀ u ∈ us, u.Closed ∧ u.Bare := by
        intro u hu
        obtain ⟨t, _, hsub⟩ := forall₂_mem_right hus hu
        exact hall hts hsub
      refine ⟨fun index hmem => ?_, Ty.bare_basicType.mpr fun u hu => (hboth u hu).2⟩
      obtain ⟨u, hu, hmem⟩ := Ty.mem_typeVariables_basicType.mp hmem
      exact (hboth u hu).1 index hmem
  | struct name' decs params fieldTypes =>
      have hne : args ≠ [] := hargs (by rw [TypeName.isStruct, hknown])
      obtain ⟨ts, us, hts, hus, rfl⟩ :=
        (typecheckDeclaration_struct hfields rfl List.not_mem_nil hne hknown).mp hs
      have hboth : ∀ u ∈ us, u.Closed ∧ u.Bare := by
        intro u hu
        obtain ⟨t, _, hsub⟩ := forall₂_mem_right hus hu
        exact hall hts hsub
      refine ⟨fun index hmem => ?_, Ty.bare_struct.mpr fun u hu => (hboth u hu).2⟩
      obtain ⟨u, hu, hmem⟩ := Ty.mem_typeVariables_struct.mp hmem
      exact (hboth u hu).1 index hmem

/-! ### Instances -/

section
variable (hfields : ∀ j, FieldsTypedAt types j) {params : List String} {targs : List TypeName}
  (hlength : targs.length = params.length) {A : List Ty}
  (hA : List.Forall₂ (fun a t => lookupArgument types [] types.length a = .ok t) targs A)
include hfields hlength hA

/-- The types of plain arguments, substantiated, and the types of their instances. -/
theorem exists_instances {args : List TypeName} (hplain : ∀ a ∈ args, a.Plain types params)
    {ts : List Ty}
    (hts : List.Forall₂ (fun a t => lookupArgument types params types.length a = .ok t) args ts) :
    ∃ rs gs, List.Forall₂ (fun t r => t.substantiate A = .ok r) ts rs ∧
      List.Forall₂ (fun a g => lookupArgument types [] types.length
        (a.instantiate params targs) = .ok g) args gs ∧
      List.Forall₂ (fun r g => r.forget = g.forget) rs gs := by
  exact exists_forall₂_square hts fun a ha {t} ht =>
    (hplain a ha).lookup_instantiate hfields hA hlength ht

/-- The substantiated type of a declaration with a basic type, and the type of a variable that is
declared with the instantiated type expression: they are equal exactly when the type parameters
are in place. In any case nothing is left to be substantiated. -/
theorem instance_basicType {name : String} {args : List TypeName} (hname : name ∉ params) {j : Nat}
    {name' : String} {params' : List String}
    (hknown : getKnownType types (.mk name args) types.length = some (j, .basicType name' params'))
    (hplain : ∀ a ∈ args, (a.instantiate params targs).Plain types []) {d : Declaration}
    (hd : d.typeName = .mk name args) {s u : Ty} (hs : typecheckDeclaration types params d = .ok s)
    (hu : s.substantiate A = .ok u) :
    (u.Closed ∧ u.Bare) ∧ ∃ g, (TypeName.instantiate params targs (.mk name args)).Denotes types g ∧
      (u.forget = g.forget ↔ TypeName.InPlace types params targs (.mk name args)) := by
  obtain ⟨ts, us, hts, hus, rfl⟩ := (typecheckDeclaration_basicType hd hname hknown).mp hs
  obtain ⟨vs, hvs, rfl⟩ := Ty.substantiate_basicType.mp hu
  have hplain' : ∀ a ∈ args, a.Plain types params := fun a ha => .of_instantiate a (hplain a ha)
  obtain ⟨rs, gs, hsub, hgs, hsame⟩ := exists_instances hfields hlength hA hplain' hts
  -- Substantiating twice is substantiating with the substantiated arguments.
  have hvs' : List.Forall₂ (fun a v => ∃ t, lookupArgument types params types.length a = .ok t ∧
      t.substantiate rs = .ok v) args vs := by
    refine (forall₂_comp (forall₂_comp hts hus) hvs).imp ?_
    rintro a v ⟨u, ⟨t, ht, hu⟩, hv⟩
    obtain ⟨v', hv', hright⟩ := Ty.substantiate_substantiate hsub t hu
    rw [hv, Except.ok.injEq] at hv'
    exact ⟨t, ht, hv' ▸ hright⟩
  -- The substantiated arguments are closed and bare, and so is what they replace variables in.
  have hrs : ∀ r ∈ rs, r.Closed ∧ r.Bare := by
    intro r hr
    obtain ⟨g, hg, heq⟩ := forall₂_mem_left hsame hr
    obtain ⟨a, ha, hlookup⟩ := forall₂_mem_right hgs hg
    refine ⟨fun index hmem => ?_, ((hplain a ha).bare hfields hlookup).congr heq.symm⟩
    rw [Ty.typeVariables_congr heq] at hmem
    exact (hplain a ha).closed hfields hlookup index hmem
  have hclosed : ∀ v ∈ vs, v.Closed ∧ v.Bare := by
    intro v hv
    obtain ⟨a, _, t, _, hsub⟩ := forall₂_mem_right hvs' hv
    refine ⟨fun index hmem => ?_, Ty.bare_substantiate (fun r hr => (hrs r hr).2) t hsub⟩
    obtain ⟨i, r, _, hr, hmem⟩ := (Ty.mem_typeVariables_substantiate hsub).mp hmem
    exact (hrs r (List.mem_of_getElem? hr)).1 index hmem
  refine ⟨⟨fun index hmem => ?_, Ty.bare_basicType.mpr fun v hv => (hclosed v hv).2⟩, ?_⟩
  · obtain ⟨v, hv, hmem⟩ := Ty.mem_typeVariables_basicType.mp hmem
    exact (hclosed v hv).1 index hmem
  -- The instance of the type expression is plain, so its type is the one that is looked up.
  have hground : (TypeName.mk name (args.map (TypeName.instantiate params targs))).Plain types
      [] := by
    refine .basicType List.not_mem_nil ((getKnownType_map name args _ _).trans hknown)
      fun a ha => ?_
    obtain ⟨b, hb, rfl⟩ := List.mem_map.mp ha
    exact hplain b hb
  obtain ⟨g, hg, heq⟩ := hground.denotes hfields ((lookupArgument_basicType List.not_mem_nil
    ((getKnownType_map name args _ _).trans hknown)).mpr
      ⟨gs, List.forall₂_map_left_iff.mpr hgs, rfl⟩)
  rw [TypeName.instantiate, if_neg hname, TypeName.instantiateList_eq_map]
  refine ⟨g, hg, ?_⟩
  rw [heq, Ty.forget, Ty.forget, Ty.basicType.injEq, and_iff_right rfl, and_iff_right rfl,
    and_iff_right rfl, Ty.forgetList_eq_iff]
  have hstruct : ¬ TypeName.isStruct types (.mk name args) = true := by
    simp [TypeName.isStruct, hknown]
  rw [TypeName.InPlace, or_iff_right hname, or_iff_right hstruct]
  -- At the index of a parameter stand equal types when they come from the same expression.
  have hindex : ∀ k : Nat, (rs[k]?).map Ty.forget = (A[k]?).map Ty.forget ↔
      (args[k]?).map (TypeName.instantiate params targs) = targs[k]? := by
    intro k
    rcases forall₂_getElem? (forall₂_comp hgs hsame.flip) k with
      ⟨ha, hr⟩ | ⟨a, r, ha, hr, g, hag, hrg⟩
    · rcases forall₂_getElem? hA k with ⟨he, hA⟩ | ⟨e, t, he, hA, _⟩
      · simp [ha, hr, he, hA]
      · simp [ha, hr, he, hA]
    · rcases forall₂_getElem? hA k with ⟨he, hA⟩ | ⟨e, t, he, hA, het⟩
      · simp [ha, hr, he, hA]
      · simp only [ha, hr, he, hA, Option.map_some, Option.some.injEq]
        constructor
        · intro h
          exact lookup_injective _ hag het (hrg.symm.trans h)
        · intro h
          rw [h, het, Except.ok.injEq] at hag
          rw [hrg, hag]
  rw [forall₂_iff_of_common (P := fun a => ∀ p ∈ a.parameters params,
    (args[params.idxOf p]?).map (TypeName.instantiate params targs) = targs[params.idxOf p]?)
    hvs' hgs]
  · simp only [TypeName.mem_parametersOfList]
    constructor
    · rintro h p ⟨a, ha, hp⟩
      exact h a ha p hp
    · exact fun h a ha p hp => h p ⟨a, ha, hp⟩
  · rintro a ha v g ⟨t, ht, hv⟩ hg
    obtain ⟨r, g', hr, hg', hrg⟩ := (hplain' a ha).lookup_instantiate hfields hA hlength ht
    rw [hg, Except.ok.injEq] at hg'
    rw [hg', ← hrg, Ty.forget_substantiate_iff t hv hr]
    simp only [(hplain' a ha).mem_typeVariables hfields ht, forall_exists_index, and_imp]
    constructor
    · intro h p hp
      exact (hindex _).mp (h _ p hp rfl)
    · rintro h _ p hp rfl
      exact (hindex _).mpr (h p hp)

/-- The substantiated type of a declaration with a struct is the type of a variable that is
declared with the instantiated type expression. -/
theorem instance_struct {name : String} {args : List TypeName} (hname : name ∉ params)
    (hargs : args ≠ []) {j : Nat} {name' : String} {decs : List Declaration}
    {params' : List String} {fieldTypes : List Ty}
    (hknown : getKnownType types (.mk name args) types.length =
      some (j, .struct name' decs params' fieldTypes))
    (hplain : ∀ a ∈ args, a.Plain types params) {d : Declaration}
    (hd : d.typeName = .mk name args) {s u : Ty} (hs : typecheckDeclaration types params d = .ok s)
    (hu : s.substantiate A = .ok u) :
    ∃ g, (TypeName.instantiate params targs (.mk name args)).Denotes types g ∧
      u.forget = g.forget := by
  obtain ⟨ts, us, hts, hus, rfl⟩ :=
    (typecheckDeclaration_struct hfields hd hname hargs hknown).mp hs
  obtain ⟨vs, hvs, rfl⟩ := Ty.substantiate_struct.mp hu
  obtain ⟨rs, gs, hsub, hgs, hsame⟩ := exists_instances hfields hlength hA hplain hts
  have hagree : ∀ k : Nat, (rs[k]?).map Ty.forget = (gs[k]?).map Ty.forget := by
    intro k
    rcases forall₂_getElem? hsame k with ⟨hr, hg⟩ | ⟨r, g, hr, hg, heq⟩
    · rw [hr, hg]
    · rw [hr, hg, Option.map_some, Option.map_some, heq]
  -- Substantiating twice is substantiating with the instantiated arguments.
  obtain ⟨ws, hvw, hws⟩ := exists_forall₂_both (forall₂_comp hus hvs) fun f _ {v} h => by
    obtain ⟨u, hu, hv⟩ := h
    obtain ⟨v', hv', hright⟩ := Ty.substantiate_substantiate hsub f hu
    have hsub : f.substantiate rs = .ok v := by
      rwa [← Except.ok.inj (hv.symm.trans hv')] at hright
    obtain ⟨w, hw⟩ : ∃ w, f.substantiate gs = .ok w := by
      rw [Ty.exists_substantiate_iff, ← hsame.length_eq, ← Ty.exists_substantiate_iff]
      exact ⟨v, hsub⟩
    have heq : v.forget = w.forget :=
      (Ty.forget_substantiate_iff f hsub hw).mpr fun index _ => hagree index
    exact ⟨w, heq, hw⟩
  rw [TypeName.instantiate, if_neg hname, TypeName.instantiateList_eq_map]
  refine ⟨_, TypeName.Denotes.intro (d := ⟨"", .localScope, .mk name _, false⟩)
    ((typecheckDeclaration_struct hfields rfl List.not_mem_nil (by simpa using hargs)
      ((getKnownType_map name args _ _).trans hknown)).mpr
        ⟨gs, ws, List.forall₂_map_left_iff.mpr hgs, hws, rfl⟩), ?_⟩
  rw [Ty.forget, Ty.forget, Ty.forgetList_eq_iff.mpr hvw]

end

end

end Stabl
