import Stabl.Proofs.Frontend.Parsed
import Stabl.Proofs.Frontend.TypeTable
import Stabl.Proofs.Frontend.TypeVariables

/-!
# `Stabl.Proofs.Frontend.ForwardReferences`: what the types of fields may refer to

`typecheckTypeDeclarations` looks the types of fields up in the table that it fills. An entry can
be copied when all its fields have their types: when it is a basic type, a struct further up, or
a struct without fields (`TypeName.Admitted`). Then the type is substantiated with its own type
arguments, and this succeeds when the type variables in it are among them (`TypeName.InRange`).
`Filled` says how much of the table is done, and the loops keep it. So the type declarations are
accepted exactly when every field is admitted and in range (`acceptsTypes_iff_admitted`).

This differs from the rule that every type name refers back (`RefersBack`) in both directions,
and `acceptsTypes_iff` says when it does not.
-/

set_option autoImplicit false

namespace Stabl

open Result

/-! ### Type expressions of fields -/

/-- The entry is copied at any time: it has no fields that could be without a type. -/
def TypeEntry.HasNoFields : TypeEntry → Prop
  | .basicType _ _ => True
  | .struct _ decs _ _ => decs = []

/-- The type variables in an application of the type at the index `j`. `V` has those in the fields
of the structs, and `args` those of the type arguments. -/
def TypeEntry.applied (V : List (List Nat)) (j : Nat) (args : List (List Nat)) :
    TypeEntry → List Nat
  | .basicType _ _ => args.flatten
  | .struct _ _ _ _ => V.getD j []

namespace TypeName

section
variable (types : List TypeEntry)

/-- The rule for the fields of the struct at the index `i`: every type name in the expression is a
type parameter of the struct, without arguments, or the name of a type before the struct that
has as many type parameters as there are arguments. -/
inductive RefersBack (params : List String) (i : Nat) : TypeName → Prop where
  | parameter {name : String} (hname : name ∈ params) : RefersBack params i (.mk name [])
  | earlier {name : String} {args : List TypeName} {j : Nat} {e : TypeEntry} (hj : j < i)
      (hentry : types[j]? = some e) (hname : e.name = name)
      (hlength : e.typeParameterNames.length = args.length)
      (hargs : ∀ a ∈ args, RefersBack params i a) : RefersBack params i (.mk name args)

/-- What the lookup for a field of the struct at the index `i` accepts. Inside of type arguments
(`inside`) the arguments of a type parameter are not looked at. The first type of the name has
to be a type before the struct, or a type without fields. -/
inductive Admitted (params : List String) (i : Nat) : (inside : Bool) → TypeName → Prop where
  | parameter {name : String} {inside : Bool} {args : List TypeName} (hname : name ∈ params)
      (hargs : inside = true ∨ args = []) : Admitted params i inside (.mk name args)
  | known {name : String} {inside : Bool} {args : List TypeName} {j : Nat} {e : TypeEntry}
      (hname : name ∉ params)
      (hknown : getKnownType types (.mk name args) types.length = some (j, e))
      (hcopy : j < i ∨ e.HasNoFields) (hargs : ∀ a ∈ args, Admitted params i true a) :
      Admitted params i inside (.mk name args)

section
variable (V : List (List Nat)) (params : List String)

mutual

/-- The type variables in the type of a type expression. -/
def typeVariables : TypeName → List Nat
  | .mk name args =>
    if name ∈ params then
      [params.idxOf name]
    else
      match getKnownType types (.mk name args) types.length with
      | none => []
      | some (j, e) => e.applied V j (typeVariablesOfList args)

/-- The type variables in the types of some type expressions. -/
def typeVariablesOfList : List TypeName → List (List Nat)
  | [] => []
  | T :: Ts => T.typeVariables :: typeVariablesOfList Ts

end

/-- The type of a field is substantiated with its own type arguments. Every type variable in it
has to be the index of one of them. -/
def InRange (T : TypeName) : Prop :=
  T.typeArgumentNames ≠ [] → ∀ k ∈ T.typeVariables types V params, k < T.typeArgumentNames.length

/-- The type variables in the type of a field, after it has been substantiated. -/
def fieldVariables (T : TypeName) : List Nat :=
  if T.typeArgumentNames.isEmpty then
    T.typeVariables types V params
  else
    Ty.replaced (T.typeArgumentNames.map (typeVariables types V params))
      (T.typeVariables types V params)

end

end

end TypeName

/-- The type variables in the fields of each of the first `n` types. -/
def fieldVariables (types : List TypeEntry) : (n : Nat) → List (List Nat)
  | 0 => []
  | n + 1 =>
    let V := fieldVariables types n
    match types[n]? with
    | some (.struct _ decs params _) =>
      V ++ [decs.flatMap fun d => d.typeName.fieldVariables types V params]
    | _ => V ++ [[]]

theorem length_fieldVariables (types : List TypeEntry) (n : Nat) :
    (fieldVariables types n).length = n := by
  induction n with
  | zero => rfl
  | succ n ih =>
      rw [fieldVariables]
      split <;> rw [List.length_append, ih, List.length_singleton]

section
variable {types : List TypeEntry}

theorem TypeName.typeVariablesOfList_eq (V : List (List Nat)) (params : List String)
    (Ts : List TypeName) :
    TypeName.typeVariablesOfList types V params Ts = Ts.map (typeVariables types V params) := by
  induction Ts with
  | nil => rfl
  | cons T Ts ih => rw [typeVariablesOfList, ih, List.map_cons]

end

/-! ### The table while it is filled -/

/-- How far the entry at the index `j` of the table `types`, made from the table `types₀`, is
filled. A struct can be copied when it is `done` or has no fields, and then `V` has its type
variables. -/
structure FilledAt (types₀ types : List TypeEntry) (V : List (List Nat)) (done : Prop) (j : Nat) :
    Prop where
  basicType : ∀ name params, types₀[j]? = some (TypeEntry.basicType name params) →
    types[j]? = some (TypeEntry.basicType name params)
  struct : ∀ name decs params fieldTypes₀,
    types₀[j]? = some (TypeEntry.struct name decs params fieldTypes₀) →
    ∃ fieldTypes, types[j]? = some (TypeEntry.struct name decs params fieldTypes) ∧
      (fieldTypes.length = decs.length ↔ done ∨ decs = []) ∧
      (fieldTypes.length = decs.length → fieldTypes.flatMap Ty.typeVariables = V.getD j [])

/-- Another entry is as far as it was when the entry at the index `i` is done. -/
theorem FilledAt.next {types₀ types : List TypeEntry} {V : List (List Nat)} {i j : Nat}
    (h : FilledAt types₀ types V (j < i) j) (hV : V.length = i) (hj : j ≠ i) (new : List Nat) :
    FilledAt types₀ types (V ++ [new]) (j < i + 1) j := by
  refine ⟨h.basicType, fun name decs params fieldTypes₀ hentry => ?_⟩
  have ⟨fieldTypes, hentry', hdone, hvariables⟩ := h.struct name decs params fieldTypes₀ hentry
  refine ⟨fieldTypes, hentry', ?_, fun hlength => ?_⟩
  · rw [hdone, Nat.lt_succ_iff_lt_or_eq]
    simp [hj]
  · rw [hvariables hlength, List.getD_eq_getElem?_getD, List.getD_eq_getElem?_getD]
    rcases Nat.lt_or_gt_of_ne hj with hlt | hgt
    · rw [List.getElem?_append_left (by omega)]
    · rw [List.getElem?_eq_none (by omega), List.getElem?_eq_none (by simp; omega)]

/-- The structs before the index `i` have their fields. -/
structure Filled (types₀ types : List TypeEntry) (V : List (List Nat)) (i : Nat) : Prop where
  keys : types.map TableGrows.key = types₀.map TableGrows.key
  entries : ∀ j, FilledAt types₀ types V (j < i) j

namespace Filled

variable {types₀ types : List TypeEntry} {V : List (List Nat)} {i : Nat}

theorem length_eq (h : Filled types₀ types V i) : types.length = types₀.length := by
  have hlength := congrArg List.length h.keys
  rwa [List.length_map, List.length_map] at hlength

/-- What a lookup finds at an index is made from the entry at this index. -/
theorem getKnownType_iff (h : Filled types₀ types V i) {T : TypeName} {j : Nat} :
    (∃ e, getKnownType types T types.length = some (j, e)) ↔
      ∃ e₀, getKnownType types₀ T types₀.length = some (j, e₀) := by
  have hbound : ∀ {ts : List TypeEntry} {T : TypeName} {e : TypeEntry} {n : Nat},
      getKnownType ts T n = some (j, e) → j < ts.length :=
    fun hknown => (List.getElem?_eq_some_iff.mp (getKnownType_eq_some hknown).1).1
  constructor
  · rintro ⟨e, he⟩
    have ⟨hidx, _⟩ := TableGrows.getKnownType_iff.mp he
    have hj := hbound he
    rw [h.keys, h.length_eq] at hidx
    rw [h.length_eq] at hj
    exact ⟨_, TableGrows.getKnownType_iff.mpr ⟨hidx, List.getElem?_eq_getElem hj⟩⟩
  · rintro ⟨e₀, he₀⟩
    have ⟨hidx, _⟩ := TableGrows.getKnownType_iff.mp he₀
    have hj := hbound he₀
    rw [← h.keys, ← h.length_eq] at hidx
    rw [← h.length_eq] at hj
    exact ⟨_, TableGrows.getKnownType_iff.mpr ⟨hidx, List.getElem?_eq_getElem hj⟩⟩

/-- When an entry can be copied, and what type variables the copy has. -/
theorem copy_spec (h : Filled types₀ types V i) {j : Nat} {e₀ e : TypeEntry}
    (he₀ : types₀[j]? = some e₀) (he : types[j]? = some e) :
    ((∃ t, e.copy j = .ok t) ↔ j < i ∨ e₀.HasNoFields) ∧
      ∀ t ts, e.copy j = .ok t → (t.setTypeArguments ts).typeArguments = ts ∧
        (t.setTypeArguments ts).typeVariables =
          e₀.applied V j (ts.map Ty.typeVariables) := by
  cases e₀ with
  | basicType name params =>
      rw [(h.entries j).basicType name params he₀, Option.some.injEq] at he
      subst he
      refine ⟨iff_of_true ⟨_, rfl⟩ (Or.inr trivial), fun t ts ht => ?_⟩
      rw [TypeEntry.copy, Except.ok.injEq] at ht
      subst ht
      exact ⟨rfl, (Ty.typeVariablesOfList_eq ts).trans (List.flatMap_def ..)⟩
  | struct name decs params fieldTypes₀ =>
      obtain ⟨fieldTypes, hentry, hcomplete, hV⟩ :=
        (h.entries j).struct name decs params fieldTypes₀ he₀
      rw [hentry, Option.some.injEq] at he
      subst he
      rw [TypeEntry.HasNoFields, ← hcomplete, TypeEntry.copy]
      split
      · rename_i hlength
        refine ⟨iff_of_true ⟨_, rfl⟩ hlength, fun t ts ht => ?_⟩
        rw [Except.ok.injEq] at ht
        subst ht
        refine ⟨rfl, ?_⟩
        show Ty.typeVariablesOfList (Ty.copyList fieldTypes) = V.getD j []
        rw [← hV hlength, ← Ty.typeVariablesOfList_eq]
        exact Ty.typeVariablesOfList_copyList fun t _ => Ty.typeVariables_copy t
      · rename_i hlength
        refine ⟨iff_of_false ?_ hlength, fun t ts ht => ?_⟩
        · rintro ⟨t, ht⟩
          cases ht
        · cases ht

variable {params : List String}

/-- The lookup of a type expression that is no type parameter. -/
theorem exists_lookupType_iff (h : Filled types₀ types V i) {name : String} {args : List TypeName}
    (hname : name ∉ params) :
    (∃ t, lookupType types params types.length (.mk name args) = .ok t) ↔
      ∃ j e₀, getKnownType types₀ (.mk name args) types₀.length = some (j, e₀) ∧
        (j < i ∨ e₀.HasNoFields) ∧
        ∀ a ∈ args, ∃ t, lookupArgument types params types.length a = .ok t := by
  constructor
  · rintro ⟨t, ht⟩
    have ⟨j, e, hknown, type, htype, ts, hts, _⟩ := (lookupType_eq_ok hname).mp ht
    have ⟨e₀, hknown₀⟩ := h.getKnownType_iff.mp ⟨e, hknown⟩
    have hcopy := h.copy_spec (getKnownType_eq_some hknown₀).1 (getKnownType_eq_some hknown).1
    exact ⟨j, e₀, hknown₀, hcopy.1.mp ⟨type, htype⟩, exists_forall₂_iff.mp ⟨ts, hts⟩⟩
  · rintro ⟨j, e₀, hknown₀, hfields, hargs⟩
    have ⟨e, hknown⟩ := h.getKnownType_iff.mpr ⟨e₀, hknown₀⟩
    have hcopy := h.copy_spec (getKnownType_eq_some hknown₀).1 (getKnownType_eq_some hknown).1
    have ⟨type, htype⟩ := hcopy.1.mpr hfields
    have ⟨ts, hts⟩ := exists_forall₂_iff.mpr hargs
    exact ⟨_, (lookupType_eq_ok hname).mpr ⟨j, e, hknown, type, htype, ts, hts, rfl⟩⟩

/-- What the lookup of a type argument accepts. -/
theorem exists_lookupArgument_iff (h : Filled types₀ types V i) (T : TypeName) :
    (∃ t, lookupArgument types params types.length T = .ok t) ↔
      T.Admitted types₀ params i true := by
  induction T using TypeName.induction with
  | mk name args ih =>
      rw [lookupArgument]
      split
      · rename_i hname
        exact iff_of_true ⟨_, rfl⟩ (.parameter hname (Or.inl rfl))
      · rename_i hname
        rw [h.exists_lookupType_iff hname]
        constructor
        · rintro ⟨j, e₀, hknown, hcopy, hargs⟩
          exact .known hname hknown hcopy fun a ha => (ih a ha).mp (hargs a ha)
        · intro hadmitted
          cases hadmitted with
          | parameter hname' => exact absurd hname' hname
          | known _ hknown hcopy hargs =>
              exact ⟨_, _, hknown, hcopy, fun a ha => (ih a ha).mpr (hargs a ha)⟩

/-- What the lookup of the type of a field accepts. -/
theorem exists_lookupType_iff_admitted (h : Filled types₀ types V i) (T : TypeName) :
    (∃ t, lookupType types params types.length T = .ok t) ↔ T.Admitted types₀ params i false := by
  cases T with
  | mk name args =>
      by_cases hname : name ∈ params
      · rw [lookupType, if_pos hname]
        constructor
        · rintro ⟨t, ht⟩
          split at ht
          · rename_i hargs
            exact .parameter hname (Or.inr (List.isEmpty_iff.mp hargs))
          · cases ht
        · intro hadmitted
          cases hadmitted with
          | parameter _ hargs =>
              have hnil : args = [] := hargs.resolve_left Bool.false_ne_true
              exact ⟨_, if_pos (List.isEmpty_iff.mpr hnil)⟩
          | known hname' => exact absurd hname hname'
      · rw [h.exists_lookupType_iff hname]
        constructor
        · rintro ⟨j, e₀, hknown, hcopy, hargs⟩
          exact .known hname hknown hcopy fun a ha =>
            (h.exists_lookupArgument_iff a).mp (hargs a ha)
        · intro hadmitted
          cases hadmitted with
          | parameter hname' => exact absurd hname' hname
          | known _ hknown hcopy hargs =>
              exact ⟨_, _, hknown, hcopy, fun a ha =>
                (h.exists_lookupArgument_iff a).mpr (hargs a ha)⟩

/-- The type variables of what a lookup finds. -/
theorem typeVariables_of_known (h : Filled types₀ types V i) {name : String}
    {args : List TypeName} (hname : name ∉ params) {t : Ty}
    (ht : lookupType types params types.length (.mk name args) = .ok t)
    (hargs : ∀ a ∈ args, ∀ u, lookupArgument types params types.length a = .ok u →
      u.typeVariables = a.typeVariables types₀ V params) :
    t.typeVariables = (TypeName.mk name args).typeVariables types₀ V params ∧
      t.typeArguments.map Ty.typeVariables = args.map (TypeName.typeVariables types₀ V params) := by
  have ⟨j, e, hknown, type, htype, ts, hts, heq⟩ := (lookupType_eq_ok hname).mp ht
  have ⟨e₀, hknown₀⟩ := h.getKnownType_iff.mp ⟨e, hknown⟩
  have hcopy := h.copy_spec (getKnownType_eq_some hknown₀).1 (getKnownType_eq_some hknown).1
  have ⟨harguments, hvariables⟩ := hcopy.2 type ts htype
  have hmap : ts.map Ty.typeVariables = args.map (TypeName.typeVariables types₀ V params) :=
    map_eq_map_of_forall₂ (forall₂_imp_mem hts hargs)
  subst heq
  refine ⟨?_, by rw [harguments]; exact hmap⟩
  rw [hvariables, TypeName.typeVariables, if_neg hname, hknown₀, hmap,
    ← TypeName.typeVariablesOfList_eq]

theorem typeVariables_of_lookupArgument (h : Filled types₀ types V i) (T : TypeName) :
    ∀ u, lookupArgument types params types.length T = .ok u →
      u.typeVariables = T.typeVariables types₀ V params := by
  induction T using TypeName.induction with
  | mk name args ih =>
      intro u hu
      rw [lookupArgument] at hu
      split at hu
      · rename_i hname
        rw [Except.ok.injEq] at hu
        subst hu
        rw [TypeName.typeVariables, if_pos hname]
        rfl
      · rename_i hname
        exact (h.typeVariables_of_known hname hu ih).1

theorem typeVariables_of_lookupType (h : Filled types₀ types V i) {T : TypeName} {t : Ty}
    (ht : lookupType types params types.length T = .ok t) :
    t.typeVariables = T.typeVariables types₀ V params ∧ t.typeArguments.map Ty.typeVariables =
      T.typeArgumentNames.map (TypeName.typeVariables types₀ V params) := by
  cases T with
  | mk name args =>
      by_cases hname : name ∈ params
      · rw [lookupType, if_pos hname] at ht
        split at ht
        · rename_i hargs
          rw [Except.ok.injEq] at ht
          subst ht
          rw [TypeName.typeVariables, if_pos hname, TypeName.typeArgumentNames,
            List.isEmpty_iff.mp hargs]
          exact ⟨rfl, rfl⟩
        · cases ht
      · exact h.typeVariables_of_known hname ht fun a _ => h.typeVariables_of_lookupArgument a

/-- The type of a field is substantiated when the type expression has type arguments. -/
theorem typecheckDeclaration_eq_ok (h : Filled types₀ types V i) {d : Declaration} {t : Ty} :
    typecheckDeclaration types params d = .ok t ↔
      ∃ type, lookupType types params types.length d.typeName = .ok type ∧
        if d.typeName.typeArgumentNames.isEmpty then type = t
        else type.substantiate type.typeArguments = .ok t := by
  rw [typecheckDeclaration, bind_eq_ok]
  refine exists_congr fun type => and_congr_right fun htype => ?_
  have hlengths := congrArg List.length (h.typeVariables_of_lookupType htype).2
  rw [List.length_map, List.length_map] at hlengths
  have hempty : type.typeArguments.isEmpty = d.typeName.typeArgumentNames.isEmpty := by
    rw [Bool.eq_iff_iff, List.isEmpty_iff_length_eq_zero, List.isEmpty_iff_length_eq_zero,
      hlengths]
  rw [hempty]
  split
  · exact pure_eq_ok
  · rfl

/-- What the check of a field accepts. -/
theorem exists_typecheckDeclaration_iff (h : Filled types₀ types V i) (d : Declaration) :
    (∃ t, typecheckDeclaration types params d = .ok t) ↔
      d.typeName.Admitted types₀ params i false ∧ d.typeName.InRange types₀ V params := by
  rw [← h.exists_lookupType_iff_admitted]
  simp only [h.typecheckDeclaration_eq_ok]
  constructor
  · rintro ⟨t, type, htype, hrest⟩
    refine ⟨⟨type, htype⟩, fun hne => ?_⟩
    have ⟨hvariables, harguments⟩ := h.typeVariables_of_lookupType htype
    rw [if_neg (by simpa using hne)] at hrest
    have hrange := (Ty.exists_substantiate_iff type).mp ⟨t, hrest⟩
    have hlengths := congrArg List.length harguments
    rw [List.length_map, List.length_map] at hlengths
    rwa [hvariables, hlengths] at hrange
  · rintro ⟨⟨type, htype⟩, hrange⟩
    by_cases hargs : d.typeName.typeArgumentNames = []
    · exact ⟨type, type, htype, by rw [if_pos (by simpa using hargs)]⟩
    · have ⟨hvariables, harguments⟩ := h.typeVariables_of_lookupType htype
      have hlengths := congrArg List.length harguments
      rw [List.length_map, List.length_map] at hlengths
      have hrange := hrange hargs
      rw [← hvariables, ← hlengths] at hrange
      have ⟨t, ht⟩ := (Ty.exists_substantiate_iff type).mpr hrange
      exact ⟨t, type, htype, by rw [if_neg (by simpa using hargs)]; exact ht⟩

/-- The type variables in the type of a field. -/
theorem typeVariables_of_typecheckDeclaration (h : Filled types₀ types V i) {d : Declaration}
    {t : Ty} (ht : typecheckDeclaration types params d = .ok t) :
    t.typeVariables = d.typeName.fieldVariables types₀ V params := by
  have ⟨type, htype, hrest⟩ := h.typecheckDeclaration_eq_ok.mp ht
  have ⟨hvariables, harguments⟩ := h.typeVariables_of_lookupType htype
  rw [TypeName.fieldVariables]
  split at hrest
  · rename_i hargs
    rw [if_pos hargs, ← hvariables, hrest]
  · rename_i hargs
    rw [if_neg hargs, ← hvariables, ← harguments]
    exact Ty.typeVariables_of_substantiate type hrest

end Filled

/-! ### Filling the table -/

/-- The table while the struct at the index `i` is filled. It has the types of its first fields. -/
structure Filling (types₀ types : List TypeEntry) (V : List (List Nat)) (i : Nat) (name : String)
    (decs : List Declaration) (params : List String) (fieldTypes : List Ty) : Prop where
  keys : types.map TableGrows.key = types₀.map TableGrows.key
  others : ∀ j, j ≠ i → FilledAt types₀ types V (j < i) j
  source : types₀[i]? = some (TypeEntry.struct name decs params [])
  entry : types[i]? = some (TypeEntry.struct name decs params fieldTypes)

namespace Filling

variable {types₀ types : List TypeEntry} {V : List (List Nat)} {i : Nat} {name : String}
  {decs : List Declaration} {params : List String} {fieldTypes : List Ty}

/-- How far the struct itself is filled. -/
theorem filledAt (h : Filling types₀ types V i name decs params fieldTypes)
    {V' : List (List Nat)} {done : Prop}
    (hdone : fieldTypes.length = decs.length ↔ done ∨ decs = [])
    (hvariables : fieldTypes.length = decs.length →
      fieldTypes.flatMap Ty.typeVariables = V'.getD i []) : FilledAt types₀ types V' done i := by
  constructor
  · intro name' params' hbasic
    rw [h.source] at hbasic
    cases hbasic
  · intro name' decs' params' fieldTypes₀ hstruct
    rw [h.source] at hstruct
    cases hstruct
    exact ⟨fieldTypes, h.entry, hdone, hvariables⟩

/-- As long as a field is missing, the struct cannot be copied. -/
theorem filled (h : Filling types₀ types V i name decs params fieldTypes)
    (hmissing : fieldTypes.length < decs.length) : Filled types₀ types V i := by
  refine ⟨h.keys, fun j => ?_⟩
  by_cases hj : j = i
  · subst hj
    have hne : decs ≠ [] := List.ne_nil_of_length_pos (by omega)
    exact h.filledAt (iff_of_false (by omega) (by simp [hne])) fun heq => by omega
  · exact h.others j hj

/-- With all its fields the struct is done. -/
theorem done (h : Filling types₀ types V i name decs params fieldTypes)
    (hall : fieldTypes.length = decs.length) (hV : V.length = i) :
    Filled types₀ types (V ++ [fieldTypes.flatMap Ty.typeVariables]) (i + 1) := by
  refine ⟨h.keys, fun j => ?_⟩
  by_cases hj : j = i
  · subst hj
    refine h.filledAt (iff_of_true hall (Or.inl (Nat.lt_succ_self j))) fun _ => ?_
    rw [← hV, List.getD_eq_getElem?_getD, List.getElem?_concat_length]
    rfl
  · exact (h.others j hj).next hV hj _

theorem addFieldType (h : Filling types₀ types V i name decs params fieldTypes) (type : Ty) :
    Filling types₀ (types.modify i (TypeEntry.addFieldType type)) V i name decs params
      (fieldTypes ++ [type]) := by
  have hother : ∀ j, j ≠ i →
      (types.modify i (TypeEntry.addFieldType type))[j]? = types[j]? := by
    intro j hj
    rw [List.getElem?_modify]
    simp [Ne.symm hj]
  refine ⟨?_, fun j hj => ?_, h.source, ?_⟩
  · rw [← h.keys]
    refine List.ext_getElem? fun j => ?_
    rw [List.getElem?_map, List.getElem?_map, List.getElem?_modify]
    cases types[j]? with
    | none => rfl
    | some e =>
        split
        · cases e <;> rfl
        · rfl
  · have ⟨hbasic, hstruct⟩ := h.others j hj
    exact ⟨hother j hj ▸ hbasic, hother j hj ▸ hstruct⟩
  · rw [List.getElem?_modify_eq, h.entry]
    rfl

/-- The loop over the fields of a struct: it accepts them when each is admitted and in range, and
then the struct is done. -/
theorem typecheckStruct_spec (ds : List Declaration) : ∀ {types : List TypeEntry}
    {fieldTypes : List Ty} (done : List Declaration),
    Filling types₀ types V i name decs params fieldTypes → decs = done ++ ds → V.length = i →
    fieldTypes.length = done.length →
    fieldTypes.flatMap Ty.typeVariables =
      done.flatMap (fun d => d.typeName.fieldVariables types₀ V params) →
    ((∃ types', typecheckStruct types i params ds = .ok types') ↔
      ∀ d ∈ ds, d.typeName.Admitted types₀ params i false ∧ d.typeName.InRange types₀ V params) ∧
    ∀ types', typecheckStruct types i params ds = .ok types' → Filled types₀ types'
      (V ++ [decs.flatMap fun d => d.typeName.fieldVariables types₀ V params]) (i + 1) := by
  induction ds with
  | nil =>
      intro types fieldTypes done h hdecs hV hlength hvariables
      rw [List.append_nil] at hdecs
      subst hdecs
      refine ⟨iff_of_true ⟨types, rfl⟩ (List.forall_mem_nil _), fun types' hok => ?_⟩
      rw [typecheckStruct, pure_eq_ok] at hok
      rw [← hok, ← hvariables]
      exact h.done hlength hV
  | cons d ds ih =>
      intro types fieldTypes done h hdecs hV hlength hvariables
      have hfilled : Filled types₀ types V i := by
        refine h.filled ?_
        rw [hlength, hdecs, List.length_append, List.length_cons]
        omega
      -- The rest of the loop, once the field has its type.
      have hrest : ∀ type, typecheckDeclaration types params d = .ok type → _ :=
        fun type htype => ih (done ++ [d]) (h.addFieldType type)
          (by rw [hdecs, List.append_assoc, List.singleton_append]) hV (by simp [hlength])
          (by rw [List.flatMap_append, List.flatMap_append, hvariables, List.flatMap_singleton,
            List.flatMap_singleton, hfilled.typeVariables_of_typecheckDeclaration htype])
      rw [List.forall_mem_cons, ← hfilled.exists_typecheckDeclaration_iff]
      simp only [typecheckStruct, bind_eq_ok]
      constructor
      · constructor
        · rintro ⟨types', type, htype, hok⟩
          exact ⟨⟨type, htype⟩, (hrest type htype).1.mp ⟨types', hok⟩⟩
        · rintro ⟨⟨type, htype⟩, hall⟩
          obtain ⟨types', hok⟩ := (hrest type htype).1.mpr hall
          exact ⟨types', type, htype, hok⟩
      · rintro types' ⟨type, htype, hok⟩
        exact (hrest type htype).2 types' hok

end Filling

/-- A basic type is done from the beginning. -/
theorem Filled.basic {types₀ types : List TypeEntry} {V : List (List Nat)} {i : Nat}
    (h : Filled types₀ types V i) (hV : V.length = i) {name : String} {params : List String}
    (hentry : types₀[i]? = some (.basicType name params)) :
    Filled types₀ types (V ++ [[]]) (i + 1) := by
  refine ⟨h.keys, fun j => ?_⟩
  by_cases hj : j = i
  · subst hj
    refine ⟨(h.entries j).basicType, fun _ _ _ _ hstruct => ?_⟩
    rw [hentry] at hstruct
    cases hstruct
  · exact (h.entries j).next hV hj []

/-- The fields of the struct at the index `i` are admitted and in range. -/
def FieldsAccepted (types : List TypeEntry) (i : Nat) : Prop :=
  ∀ name decs params fieldTypes, types[i]? = some (.struct name decs params fieldTypes) →
    ∀ d ∈ decs, d.typeName.Admitted types params i false ∧
      d.typeName.InRange types (fieldVariables types i) params

/-- The structs of the table have no types of fields yet. -/
def Unfilled (types : List TypeEntry) : Prop :=
  ∀ (j : Nat) name decs params fieldTypes,
    types[j]? = some (TypeEntry.struct name decs params fieldTypes) → fieldTypes = []

/-- The loop over the entries accepts the structs whose fields are admitted and in range. -/
theorem exists_typecheckTypeDeclarations_iff {types₀ : List TypeEntry} (hraw : Unfilled types₀)
    (n : Nat) : ∀ {types : List TypeEntry} {i : Nat},
    Filled types₀ types (fieldVariables types₀ i) i → (∀ j, i ≤ j → types[j]? = types₀[j]?) →
    i + n = types₀.length →
    ((∃ types', typecheckTypeDeclarations types i n = .ok types') ↔
      ∀ j, i ≤ j → FieldsAccepted types₀ j) := by
  induction n with
  | zero =>
      intro types i _ _ hlength
      refine iff_of_true ⟨types, rfl⟩ fun j hj name decs params fieldTypes hentry => ?_
      have hlt := (List.getElem?_eq_some_iff.mp hentry).1
      omega
  | succ n ih =>
      intro types i hfilled htodo hlength
      have hV := length_fieldVariables types₀ i
      -- The entry at the index comes first, and then the others.
      have hsplit : (∀ j, i ≤ j → FieldsAccepted types₀ j) ↔
          FieldsAccepted types₀ i ∧ ∀ j, i + 1 ≤ j → FieldsAccepted types₀ j := by
        constructor
        · exact fun h => ⟨h i le_rfl, fun j hj => h j (by omega)⟩
        · rintro ⟨hi, h⟩ j hj
          rcases Nat.eq_or_lt_of_le hj with rfl | hlt
          · exact hi
          · exact h j hlt
      have hget : types₀[i]? = some types₀[i] := List.getElem?_eq_getElem (by omega)
      rw [hsplit, typecheckTypeDeclarations, htodo i le_rfl]
      generalize types₀[i] = e at hget
      rw [hget]
      cases e with
      | basicType name params =>
          have hnone : FieldsAccepted types₀ i := by
            intro name' decs' params' fieldTypes' hentry
            rw [hget] at hentry
            cases hentry
          have hnext : Filled types₀ types (fieldVariables types₀ (i + 1)) (i + 1) := by
            rw [fieldVariables, hget]
            exact hfilled.basic hV hget
          have hrest := ih hnext (fun j hj => htodo j (by omega)) (by omega)
          exact hrest.trans (and_iff_right hnone).symm
      | struct name decs params fieldTypes =>
          obtain rfl := hraw i name decs params fieldTypes hget
          have hfilling : Filling types₀ types (fieldVariables types₀ i) i name decs params [] :=
            ⟨hfilled.keys, fun j _ => hfilled.entries j, hget, (htodo i le_rfl).trans hget⟩
          obtain ⟨hiff, hdone⟩ := hfilling.typecheckStruct_spec decs [] rfl hV rfl rfl
          have hfields : FieldsAccepted types₀ i ↔ ∀ d ∈ decs,
              d.typeName.Admitted types₀ params i false ∧
                d.typeName.InRange types₀ (fieldVariables types₀ i) params := by
            constructor
            · exact fun h => h name decs params [] hget
            · intro h name' decs' params' fieldTypes' hentry
              rw [hget] at hentry
              cases hentry
              exact h
          have hrest : ∀ types₁, typecheckStruct types i params decs = .ok types₁ →
              ((∃ types', typecheckTypeDeclarations types₁ (i + 1) n = .ok types') ↔
                ∀ j, i + 1 ≤ j → FieldsAccepted types₀ j) := by
            intro types₁ hok
            have hother := (typecheckStruct_grows decs hfilling.entry (by simp) hok).2.1
            refine ih ?_ (fun j hj => ?_) (by omega)
            · rw [fieldVariables, hget]
              exact hdone types₁ hok
            · rw [hother j (by omega)]
              exact htodo j (by omega)
          rw [hfields, ← hiff]
          simp only [bind_eq_ok]
          constructor
          · rintro ⟨types', types₁, hok, hok'⟩
            exact ⟨⟨types₁, hok⟩, (hrest types₁ hok).mp ⟨types', hok'⟩⟩
          · rintro ⟨⟨types₁, hok⟩, hall⟩
            obtain ⟨types', hok'⟩ := (hrest types₁ hok).mpr hall
            exact ⟨types', types₁, hok, hok'⟩

/-! ### References back -/

/-- A property of the type expressions of all fields. It may depend on the index of the struct and
on its type parameters. -/
def ForEachField (types : List TypeEntry) (P : Nat → List String → TypeName → Prop) : Prop :=
  ∀ (i : Nat) name decs params fieldTypes,
    types[i]? = some (TypeEntry.struct name decs params fieldTypes) → ∀ d ∈ decs,
      P i params d.typeName

/-- Every type name in the type of a field refers back. -/
def TypesReferBack (types : List TypeEntry) : Prop :=
  ForEachField types fun i params T => T.RefersBack types params i

/-- The lookup accepts the type of every field. -/
def FieldsAdmitted (types : List TypeEntry) : Prop :=
  ForEachField types fun i params T => T.Admitted types params i false

/-- The type variables in the type of every field are in range. -/
def FieldsInRange (types : List TypeEntry) : Prop :=
  ForEachField types fun i params T => T.InRange types (fieldVariables types i) params

/-- The type of a field is no type parameter with type arguments. -/
def NoFieldAppliesParameter (types : List TypeEntry) : Prop :=
  ForEachField types fun _ params T => T.name ∈ params → T.typeArgumentNames = []

/-- `typecheckTypeDeclarations` accepts the type declarations of a statechart. -/
def AcceptsTypes (moreTypes : List TypeDeclaration) : Prop :=
  ∃ types, typecheckTypeDeclarations (typeTable moreTypes) 0 (typeTable moreTypes).length =
    .ok types

section
variable {types : List TypeEntry} {params : List String} {i : Nat}

/-- Where the table has a type of the name, the lookup finds it or one before it. -/
theorem exists_getKnownType {T : TypeName} {j : Nat} {e : TypeEntry} (hentry : types[j]? = some e)
    (hname : e.name = T.name) (hlength : e.typeParameterNames.length = T.typeArgumentNames.length) :
    ∃ j' e', j' ≤ j ∧ getKnownType types T types.length = some (j', e') := by
  have ⟨hj, hget⟩ := List.getElem?_eq_some_iff.mp hentry
  have hknown : (decide (e.name = T.name) &&
      e.typeParameterNames.length == T.typeArgumentNames.length) = true := by
    simp [hname, hlength]
  cases hfind : (types.map TableGrows.key).findIdx? fun k =>
      decide (k.1 = T.name) && k.2 == T.typeArgumentNames.length with
  | none =>
      have hno := List.findIdx?_eq_none_iff.mp hfind (TableGrows.key e)
        (List.mem_map_of_mem (List.mem_of_getElem? hentry))
      exact absurd hknown (Bool.not_eq_true _ ▸ hno)
  | some j' =>
      have ⟨hj', _, hfirst⟩ := List.findIdx?_eq_some_iff_getElem.mp hfind
      rw [List.length_map] at hj'
      refine ⟨j', types[j'], ?_, TableGrows.getKnownType_iff.mpr ⟨?_, List.getElem?_eq_getElem hj'⟩⟩
      · by_contra hlt
        have hno := hfirst j (by omega)
        rw [List.getElem_map, hget] at hno
        exact hno hknown
      · rw [List.take_of_length_le (by rw [List.length_map]), hfind]

/-- A type expression that refers back is admitted inside of type arguments. On the outside it is
when it is no type parameter with type arguments. -/
theorem TypeName.RefersBack.admitted {T : TypeName} (h : T.RefersBack types params i)
    (inside : Bool) (houter : inside = true ∨ (T.name ∈ params → T.typeArgumentNames = [])) :
    T.Admitted types params i inside := by
  induction h generalizing inside with
  | parameter hname => exact .parameter hname (Or.inr rfl)
  | @earlier name args j e hj hentry hname hlength _ ih =>
      by_cases hparam : name ∈ params
      · exact .parameter hparam (houter.imp_right fun h => h hparam)
      · -- The first type of the name is not after this one.
        have ⟨j', e', hle, hknown⟩ :=
          exists_getKnownType (T := .mk name args) hentry hname hlength
        exact .known hparam hknown (Or.inl (by omega)) fun a ha => ih a ha true (Or.inl rfl)

/-- A type parameter with type arguments is not accepted as the type of a field. -/
theorem TypeName.Admitted.noArguments {T : TypeName} (h : T.Admitted types params i false)
    (hname : T.name ∈ params) : T.typeArgumentNames = [] := by
  cases h with
  | parameter _ hargs => exact hargs.resolve_left Bool.false_ne_true
  | known hname' => exact absurd hname hname'

end

section
variable (moreTypes : List TypeDeclaration)

theorem unfilled_typeTable : Unfilled (typeTable moreTypes) := by
  intro j name decs params fieldTypes hentry
  exact (struct_of_mem_typeTable (List.mem_of_getElem? hentry)).2

theorem filled_typeTable : Filled (typeTable moreTypes) (typeTable moreTypes) [] 0 := by
  refine ⟨rfl, fun j => ⟨fun _ _ hentry => hentry, fun name decs params fieldTypes hentry => ?_⟩⟩
  obtain rfl := unfilled_typeTable moreTypes j name decs params fieldTypes hentry
  refine ⟨[], hentry, ?_, fun _ => rfl⟩
  rw [List.length_nil, eq_comm, List.length_eq_zero_iff]
  exact (or_iff_right (Nat.not_lt_zero j)).symm

/-- The type declarations are accepted exactly when every field is admitted and in range. -/
theorem acceptsTypes_iff_admitted : AcceptsTypes moreTypes ↔
    FieldsAdmitted (typeTable moreTypes) ∧ FieldsInRange (typeTable moreTypes) := by
  have hloop := exists_typecheckTypeDeclarations_iff (unfilled_typeTable moreTypes)
    (typeTable moreTypes).length (filled_typeTable moreTypes) (fun _ _ => rfl) (Nat.zero_add _)
  rw [AcceptsTypes, hloop]
  constructor
  · intro h
    exact ⟨fun i name decs params fieldTypes hentry d hd =>
        (h i (Nat.zero_le i) name decs params fieldTypes hentry d hd).1,
      fun i name decs params fieldTypes hentry d hd =>
        (h i (Nat.zero_le i) name decs params fieldTypes hentry d hd).2⟩
  · rintro ⟨hadmitted, hrange⟩ i _ name decs params fieldTypes hentry d hd
    exact ⟨hadmitted i name decs params fieldTypes hentry d hd,
      hrange i name decs params fieldTypes hentry d hd⟩

/-- Acceptance is the rule that all references go back, exactly under two conditions. Where the
references go back, no field applies a type parameter to arguments, and the type variables are in
range. And where the fields are admitted and in range, no reference goes to a later type without
fields, or to a type parameter with arguments inside of other arguments, against the rule. -/
theorem acceptsTypes_iff : (AcceptsTypes moreTypes ↔ TypesReferBack (typeTable moreTypes)) ↔
    (TypesReferBack (typeTable moreTypes) → NoFieldAppliesParameter (typeTable moreTypes) ∧
      FieldsInRange (typeTable moreTypes)) ∧
    (FieldsAdmitted (typeTable moreTypes) → FieldsInRange (typeTable moreTypes) →
      TypesReferBack (typeTable moreTypes)) := by
  rw [acceptsTypes_iff_admitted]
  constructor
  · intro hiff
    refine ⟨fun hback => ⟨?_, (hiff.mpr hback).2⟩, fun hadmitted hrange =>
      hiff.mp ⟨hadmitted, hrange⟩⟩
    intro i name decs params fieldTypes hentry d hd
    exact ((hiff.mpr hback).1 i name decs params fieldTypes hentry d hd).noArguments
  · rintro ⟨hback, hadmitted⟩
    refine ⟨fun h => hadmitted h.1 h.2, fun h => ⟨?_, (hback h).2⟩⟩
    intro i name decs params fieldTypes hentry d hd
    exact (h i name decs params fieldTypes hentry d hd).admitted false
      (Or.inr ((hback h).1 i name decs params fieldTypes hentry d hd))

end

/-! ### A list that is declared later -/

/-- A queue of numbers. The list that it uses is declared after it. -/
def queue : WrittenStatechart where
  types := [
    .struct ⟨"Queue", by decide, by decide⟩
      [.normal ⟨"items", by decide, by decide⟩ (.mk "list" [.mk "int" []]) .localWord]
      none,
    .polytypedecl ⟨"list", by decide, by decide⟩ [⟨"a", by decide, by decide⟩]]
  events := []
  functions := []
  root := .mk ⟨"Office", by decide, by decide⟩ .unmarked [] none none [] []
  marks := Or.inl rfl

theorem queue_accepted : AcceptsTypes (parsed queue).moreTypes :=
  ⟨_, eq_ok_getD (by decide) []⟩

/-- The type declarations of the queue are accepted, and one of them refers to a later one. -/
theorem not_typesReferBack_queue : queue.result = .ok (parsed queue) ∧
    ¬ (AcceptsTypes (parsed queue).moreTypes ↔
      TypesReferBack (typeTable (parsed queue).moreTypes)) := by
  refine ⟨eq_ok_getD (by decide) _, fun hiff => ?_⟩
  have hfield := hiff.mp queue_accepted 3 "Queue" _ [] [] rfl _ List.mem_cons_self
  cases hfield with
  | earlier hj hentry hname _ _ =>
      have hother : ∀ j < 3, ∀ e ∈ (typeTable (parsed queue).moreTypes)[j]?, e.name ≠ "list" := by
        decide
      exact hother _ hj _ hentry hname

end Stabl
