import Stabl.Proofs.Frontend.Instances

/-!
# `Stabl.Proofs.Frontend.FieldPaths`: the types of fields

A name `v.f1...fm` walks through the fields of the type of `v`. Each field is declared in a
struct with a type expression over the type parameters of the struct, and the type of the
name should be that of a variable declared with the instance of this expression.

`InstanceOf` says what the walk holds at a field: the type that its instance denotes or, for a
struct without type arguments below one that has some, a copy that was substantiated all the
same. One step finds the instance of a field when the type parameters are in place, and a type
parameter stands for a type argument that is looked up as it should be (`Stored.step`). The walk
keeps to fields without polymorphic structs in their type arguments (`SettledAlong`), and this is
asked of the fields on the path only.
-/

set_option autoImplicit false

namespace Stabl

open Result

/-! ### Fields of instances -/

/-- A type expression over type parameters, and the type arguments it is instantiated with. -/
structure FieldInstance where
  typeParameterNames : List String
  typeArgumentNames : List TypeName
  typeName : TypeName

namespace FieldInstance

/-- The instantiated type expression. -/
def denoted (i : FieldInstance) : TypeName :=
  i.typeName.instantiate i.typeParameterNames i.typeArgumentNames

/-- The type parameters in the type expression are in place. -/
def InPlace (types : List TypeEntry) (i : FieldInstance) : Prop :=
  i.typeName.InPlace types i.typeParameterNames i.typeArgumentNames

variable (types : List TypeEntry)

/-- The declared type expression keeps structs that have to be substantiated out of its type
arguments, for a basic type also after it is instantiated. -/
def Settled (i : FieldInstance) : Prop :=
  i.typeName.name ∉ i.typeParameterNames →
    if i.typeName.isStruct types = true then
      ∀ a ∈ i.typeName.typeArgumentNames, a.Plain types i.typeParameterNames
    else ∀ a ∈ i.denoted.typeArgumentNames, a.Plain types []

/-- The walk finds the instance of the declared type expression: type parameters are in place, and
a type parameter itself stands for a type argument that is looked up as a variable's type is. -/
def Follows (i : FieldInstance) : Prop :=
  i.InPlace types ∧
    (i.typeName.name ∈ i.typeParameterNames → i.denoted.Direct types)

/-- The field is a struct without type arguments, in the instance of a struct with type arguments
or below such a field. Its fields are substantiated although they have no type parameters. -/
def below (i : FieldInstance) (inside : Bool) : Bool :=
  decide (i.typeName.name ∉ i.typeParameterNames) && i.typeName.isStruct types &&
    i.typeName.typeArgumentNames.isEmpty && (inside || !i.typeParameterNames.isEmpty)

end FieldInstance

/-- The field `f` of a struct that is applied to type arguments. -/
def fieldOf (types : List TypeEntry) (T : TypeName) (f : String) : Option FieldInstance :=
  match getKnownType types T types.length with
  | some (_, .struct _ decs params _) =>
    (decs.find? fun d => decide (d.vname = f)).map fun d =>
      ⟨params, T.typeArgumentNames, d.typeName⟩
  | _ => none

/-- The field at the end of a field path, below a variable that is declared with `T`. -/
def fieldAt (types : List TypeEntry) : TypeName → Path → Option FieldInstance
  | _, [] => none
  | T, [f] => fieldOf types T f
  | T, f :: next :: rest => (fieldOf types T f).bind fun i => fieldAt types i.denoted (next :: rest)

/-- Every field on the path is settled, and the walk finds the fields before the last one. -/
def SettledAlong (types : List TypeEntry) : TypeName → Path → Prop
  | _, [] => True
  | T, f :: rest => ∀ i, fieldOf types T f = some i → i.Settled types ∧
    (rest ≠ [] → i.Follows types) ∧ SettledAlong types i.denoted rest

/-- The last field on the path is a struct that is substantiated although it has no type
parameters. -/
def belowAt (types : List TypeEntry) : Bool → TypeName → Path → Bool
  | inside, _, [] => inside
  | inside, T, f :: rest =>
    match fieldOf types T f with
    | some i => belowAt types (i.below types inside) i.denoted rest
    | none => false

section
variable {types : List TypeEntry}

theorem fieldOf_eq_some {T : TypeName} {f : String} {i : FieldInstance}
    (h : fieldOf types T f = some i) :
    ∃ j name decs params fieldTypes k d,
      getKnownType types T types.length = some (j, .struct name decs params fieldTypes) ∧
      (decs.map Declaration.vname).idxOf f = k ∧ decs[k]? = some d ∧
      i = ⟨params, T.typeArgumentNames, d.typeName⟩ := by
  unfold fieldOf at h
  split at h
  · rename_i j name decs params fieldTypes hknown
    obtain ⟨d, hd, heq⟩ := Option.map_eq_some_iff.mp h
    refine ⟨j, name, decs, params, fieldTypes, _, d, hknown, rfl, ?_, heq.symm⟩
    have hidx :
      (decs.map Declaration.vname).idxOf f = decs.findIdx fun d => decide (d.vname = f) := by
      rw [List.idxOf, List.findIdx_map]
      congr 1
    rw [hidx, ← List.find?_eq_getElem?_findIdx]
    exact hd
  · cases h

/-- The walk finds a struct. -/
theorem FieldInstance.follows_of_below {i : FieldInstance} {inside : Bool}
    (h : i.below types inside = true) : i.Follows types := by
  rcases i with ⟨params, targs, name, args⟩
  simp only [FieldInstance.below, Bool.and_eq_true, decide_eq_true_eq] at h
  exact ⟨Or.inr (Or.inl h.1.1.2), fun hname => absurd hname h.1.1.1⟩

/-! ### One step of the walk -/

/-- What the walk holds at a field with the instance `T`. -/
inductive InstanceOf (types : List TypeEntry) : Bool → TypeName → Ty → Prop where
  | declared {T : TypeName} {t g : Ty} (hg : T.Denotes types g) (heq : t.forget = g.forget) :
      InstanceOf types false T t
  | below {name : String} {j : Nat} {name' : String} {decs : List Declaration}
      {params : List String} {fieldTypes A fields : List Ty} {t : Ty}
      (hknown : getKnownType types (.mk name []) types.length =
        some (j, .struct name' decs params fieldTypes))
      (hA : ∀ a ∈ A, ∀ name index, a ≠ .typeVariable name index)
      (hfields : List.Forall₂ (fun s u => s.substantiate A = .ok u) fieldTypes fields)
      (heq : t.forget = (Ty.struct name' j (decs.map Declaration.vname) fields [] []).forget) :
      InstanceOf types true (.mk name []) t

/-- What becomes of the stored type of a field, in the instance `T` of its struct. -/
inductive Stored (types : List TypeEntry) : Bool → TypeName → Ty → Ty → Prop where
  | copied {name : String} {s u : Ty} (heq : u.forget = s.copy.forget) :
      Stored types false (.mk name []) s u
  | applied {name : String} {args : List TypeName} {A : List Ty} {s v u : Ty} (hargs : args ≠ [])
      (hA : List.Forall₂ (fun a t => lookupArgument types [] types.length a = .ok t) args A)
      (hv : s.substantiate A = .ok v) (heq : u.forget = v.forget) :
      Stored types false (.mk name args) s u
  | below {name : String} {A : List Ty} {s v u : Ty}
      (hA : ∀ a ∈ A, ∀ name index, a ≠ .typeVariable name index)
      (hv : s.substantiate A = .ok v) (heq : u.forget = v.forget) :
      Stored types true (.mk name []) s u

/-- The fields of an instance come from the stored types of the fields of its struct. -/
theorem InstanceOf.stored (hfields : ∀ j, FieldsTypedAt types j) {inside : Bool} {T : TypeName}
    {t : Ty} (h : InstanceOf types inside T t) {j : Nat} {name : String} {decs : List Declaration}
    {params : List String} {fieldTypes : List Ty}
    (hknown : getKnownType types T types.length = some (j, .struct name decs params fieldTypes)) :
    ∃ fields ps as, t = .struct name j (decs.map Declaration.vname) fields ps as ∧
      List.Forall₂ (Stored types inside T) fieldTypes fields := by
  -- A type that equals a struct is a struct, with equal fields.
  have hstruct : ∀ {fields : List Ty},
      t.forget = (Ty.struct name j (decs.map Declaration.vname) fields [] []).forget →
      ∃ fields' ps as, t = .struct name j (decs.map Declaration.vname) fields' ps as ∧
        List.Forall₂ (fun u v => u.forget = v.forget) fields' fields := by
    intro fields heq
    cases t with
    | basicType => cases heq
    | typeVariable => cases heq
    | struct name' j' vnames fields' ps as =>
        simp only [Ty.forget, Ty.struct.injEq] at heq
        obtain ⟨rfl, rfl, rfl, hsame, _⟩ := heq
        exact ⟨fields', ps, as, rfl, Ty.forgetList_eq_iff.mp hsame⟩
  cases h with
  | @declared _ _ g hg heq =>
      rcases T with ⟨nameT, args⟩
      have hdeclared := hg ⟨"", .localScope, .mk nameT args, false⟩ rfl
      by_cases hargs : args = []
      · subst hargs
        obtain rfl :=
          (typecheckDeclaration_struct_nil hfields rfl List.not_mem_nil hknown).mp hdeclared
        obtain ⟨fields, ps, as, rfl, hsame⟩ := hstruct heq
        rw [Ty.copyList_eq_map, List.forall₂_map_right_iff] at hsame
        exact ⟨fields, ps, as, rfl, hsame.flip.imp fun s u h => .copied h⟩
      · obtain ⟨A, us, hA, hus, rfl⟩ :=
          (typecheckDeclaration_struct hfields rfl List.not_mem_nil hargs hknown).mp hdeclared
        obtain ⟨fields, ps, as, rfl, hsame⟩ := hstruct heq
        refine ⟨fields, ps, as, rfl, (forall₂_comp hus hsame.flip).imp ?_⟩
        rintro s u ⟨v, hv, huv⟩
        exact .applied hargs hA hv huv
  | @below nameT j' name' decs' params' fieldTypes' A us _ hknown' hA hus heq =>
      rw [hknown, Option.some.injEq, Prod.mk.injEq, TypeEntry.struct.injEq] at hknown'
      obtain ⟨rfl, rfl, rfl, rfl, rfl⟩ := hknown'
      obtain ⟨fields, ps, as, rfl, hsame⟩ := hstruct heq
      refine ⟨fields, ps, as, rfl, (forall₂_comp hus hsame.flip).imp ?_⟩
      rintro s u ⟨v, hv, huv⟩
      exact .below hA hv huv

/-- In a struct without type parameters, a settled field that is no struct without type arguments
has the type of its declaration. -/
theorem Stored.declared (hfields : ∀ j, FieldsTypedAt types j) {inside : Bool} {name : String}
    {s u : Ty} (h : Stored types inside (.mk name []) s u) {d : Declaration}
    (hs : typecheckDeclaration types [] d = .ok s)
    (hplain : ∀ a ∈ d.typeName.typeArgumentNames, a.Plain types [])
    (hargs : d.typeName.isStruct types = true → d.typeName.typeArgumentNames ≠ []) :
    InstanceOf types false d.typeName u := by
  obtain ⟨hclosed, hbare⟩ := closed_bare_of_plain hfields hs hplain hargs
  refine .declared (TypeName.Denotes.intro hs) ?_
  cases h with
  | copied heq => exact heq.trans hbare
  | applied hne => exact absurd rfl hne
  | below _ hv heq => exact heq.trans ((Ty.forget_substantiate_of_closed s hclosed hv).trans hbare)

section
variable (hfields : ∀ j, FieldsTypedAt types j) {inside : Bool} {T : TypeName} {s u : Ty}
  (h : Stored types inside T s u) {params : List String}
  (hlength : T.typeArgumentNames.length = params.length) {d : Declaration} {name : String}
  {args : List TypeName} (hd : d.typeName = .mk name args)
  (hs : typecheckDeclaration types params d = .ok s)
include hfields h hlength hd hs

/-- A field that is declared with a type parameter has the looked up type of the type argument. -/
theorem Stored.step_parameter (hname : name ∈ params) :
    InstanceOf types false (TypeName.instantiate params T.typeArgumentNames (.mk name args)) u ↔
      (TypeName.instantiate params T.typeArgumentNames (.mk name args)).Direct types := by
  have hindex : params.idxOf name < params.length := List.idxOf_lt_length_iff.mpr hname
  rw [TypeName.instantiate, if_pos hname, List.getD_eq_getElem _ _ (by omega)]
  obtain ⟨_, rfl⟩ := (typecheckDeclaration_parameter hd hname).mp hs
  cases h with
  | copied =>
      simp only [TypeName.typeArgumentNames, List.length_nil] at hlength
      omega
  | below =>
      simp only [TypeName.typeArgumentNames, List.length_nil] at hlength
      omega
  | @applied _ targs A _ v _ _ hA hv heq =>
      have hlength : targs.length = params.length := hlength
      have hAlength := hA.length_eq
      have hlookup := (List.forall₂_iff_get.mp hA).2 (params.idxOf name) (by omega) (by omega)
      rw [Ty.substantiate_typeVariable, List.getElem?_eq_getElem (by omega),
        Option.some.injEq] at hv
      refine Iff.trans ?_ (TypeName.direct_iff hfields hlookup)
      constructor
      · intro h
        cases h with
        | declared hg hgu => exact ⟨_, hg, (hv ▸ heq.symm).trans hgu⟩
      · rintro ⟨g, hg, hgv⟩
        exact .declared hg (heq.trans (hv ▸ hgv))

/-- A field that is declared with a struct is the instance of it. Without type arguments its
fields are substantiated below a struct with type arguments. -/
theorem Stored.step_struct (hname : name ∉ params) {j : Nat} {name' : String}
    {decs : List Declaration} {params' : List String} {fieldTypes : List Ty}
    (hknown : getKnownType types (.mk name args) types.length =
      some (j, .struct name' decs params' fieldTypes))
    (hplain : ∀ a ∈ args, a.Plain types params) :
    InstanceOf types (args.isEmpty && (inside || !params.isEmpty))
      (TypeName.instantiate params T.typeArgumentNames (.mk name args)) u := by
  by_cases hargs : args = []
  · subst hargs
    obtain rfl := (typecheckDeclaration_struct_nil hfields hd hname hknown).mp hs
    rw [TypeName.instantiate, if_neg hname, TypeName.instantiateList, List.isEmpty_nil,
      Bool.true_and]
    cases h with
    | copied heq =>
        obtain rfl := List.length_eq_zero_iff.mp hlength.symm
        refine .declared (TypeName.Denotes.intro (d := ⟨"", .localScope, .mk name [], false⟩)
          ((typecheckDeclaration_struct_nil hfields rfl List.not_mem_nil hknown).mpr rfl)) ?_
        rw [heq, Ty.copy, Ty.copyList_copyList]
    | applied hne hA hv heq =>
        have hparams : params.isEmpty = false := by
          rw [List.isEmpty_eq_false_iff]
          rintro rfl
          exact hne (List.length_eq_zero_iff.mp hlength)
        obtain ⟨us, hus, rfl⟩ := Ty.substantiate_struct.mp hv
        rw [hparams, Bool.not_false, Bool.or_true]
        exact .below hknown (ne_typeVariable_of_lookups hA)
          (Ty.forall₂_substantiate_copyList.mp hus) heq
    | below hA hv heq =>
        obtain ⟨us, hus, rfl⟩ := Ty.substantiate_struct.mp hv
        exact .below hknown hA (Ty.forall₂_substantiate_copyList.mp hus) heq
  · rw [List.isEmpty_eq_false_iff.mpr hargs, Bool.false_and]
    rcases T with ⟨nameT, targs⟩
    have hlength : targs.length = params.length := hlength
    by_cases htargs : targs = []
    · subst htargs
      obtain rfl := List.length_eq_zero_iff.mp hlength.symm
      rw [TypeName.instantiate_nil, ← hd]
      refine h.declared hfields hs ?_ fun _ => ?_
      · rw [hd]
        exact hplain
      · rw [hd]
        exact hargs
    · cases h with
      | copied => exact absurd rfl htargs
      | below => exact absurd rfl htargs
      | applied _ hA hv heq =>
          obtain ⟨g, hg, hvg⟩ :=
            instance_struct hfields hlength hA hname hargs hknown hplain hd hs hv
          exact .declared hg (heq.trans hvg)

/-- A field that is declared with a basic type is the instance of it exactly when the type
parameters are in place. -/
theorem Stored.step_basicType (hname : name ∉ params) {j : Nat} {name' : String}
    {params' : List String}
    (hknown : getKnownType types (.mk name args) types.length = some (j, .basicType name' params'))
    (hplain : ∀ a ∈ args, (a.instantiate params T.typeArgumentNames).Plain types []) :
    InstanceOf types false (TypeName.instantiate params T.typeArgumentNames (.mk name args)) u ↔
      TypeName.InPlace types params T.typeArgumentNames (.mk name args) := by
  rcases T with ⟨nameT, targs⟩
  have hlength : targs.length = params.length := hlength
  have hplain : ∀ a ∈ args, (a.instantiate params targs).Plain types [] := hplain
  by_cases htargs : targs = []
  · subst htargs
    obtain rfl := List.length_eq_zero_iff.mp hlength.symm
    refine iff_of_true ?_ (TypeName.inPlace_nil _ [])
    rw [TypeName.instantiate_nil, ← hd]
    refine h.declared hfields hs (fun a ha => ?_) fun hstruct => ?_
    · rw [hd] at ha
      exact TypeName.instantiate_nil [] a ▸ hplain a ha
    · rw [hd, TypeName.isStruct, hknown] at hstruct
      cases hstruct
  · cases h with
    | copied => exact absurd rfl htargs
    | below => exact absurd rfl htargs
    | applied _ hA hv heq =>
        obtain ⟨_, g, hg, hvg⟩ := instance_basicType hfields hlength hA hname hknown hplain hd hs hv
        refine Iff.trans ⟨fun h => ?_, fun h => .declared hg (heq.trans h)⟩ hvg
        cases h with
        | declared hg' heq' =>
            have hsame := (hg ⟨"", .localScope, _, false⟩ rfl).symm.trans (hg' _ rfl)
            rw [Except.ok.injEq] at hsame
            rw [← heq, heq', hsame]

end

/-- One step of the walk: it finds the instance of a settled field exactly when it follows it. -/
theorem Stored.step (hfields : ∀ j, FieldsTypedAt types j) {inside : Bool} {T : TypeName} {s u : Ty}
    (h : Stored types inside T s u) {i : FieldInstance}
    (htargs : i.typeArgumentNames = T.typeArgumentNames)
    (hlength : T.typeArgumentNames.length = i.typeParameterNames.length) {d : Declaration}
    (hd : d.typeName = i.typeName) (hs : typecheckDeclaration types i.typeParameterNames d = .ok s)
    (hsettled : i.Settled types) :
    InstanceOf types (i.below types inside) i.denoted u ↔ i.Follows types := by
  rcases i with ⟨params, targs, name, args⟩
  obtain rfl : targs = T.typeArgumentNames := htargs
  have hd : d.typeName = .mk name args := hd
  by_cases hname : name ∈ params
  · have hbelow : FieldInstance.below types ⟨params, T.typeArgumentNames, .mk name args⟩ inside =
        false := by
      simp [FieldInstance.below, TypeName.name, hname]
    rw [hbelow]
    refine (h.step_parameter hfields hlength hd hs hname).trans ?_
    exact ⟨fun h => ⟨Or.inl hname, fun _ => h⟩, fun h => h.2 hname⟩
  · -- The head of the type expression is known, since the field has a type.
    obtain ⟨type, htype, _⟩ := bind_eq_ok.mp hs
    rw [hd] at htype
    obtain ⟨j, e, hknown, _⟩ := (lookupType_eq_ok hname).mp htype
    have hsettled := hsettled hname
    cases e with
    | struct name' decs params' fieldTypes =>
        have hstruct : TypeName.isStruct types (.mk name args) = true := by
          rw [TypeName.isStruct, hknown]
        have hbelow : FieldInstance.below types ⟨params, T.typeArgumentNames, .mk name args⟩
            inside = (args.isEmpty && (inside || !params.isEmpty)) := by
          simp [FieldInstance.below, TypeName.name, TypeName.typeArgumentNames, hname, hstruct]
        rw [if_pos hstruct] at hsettled
        rw [hbelow]
        exact iff_of_true (h.step_struct hfields hlength hd hs hname hknown hsettled)
          ⟨Or.inr (Or.inl hstruct), fun h => absurd h hname⟩
    | basicType name' params' =>
        have hstruct : ¬ TypeName.isStruct types (.mk name args) = true := by
          simp [TypeName.isStruct, hknown]
        have hbelow : FieldInstance.below types ⟨params, T.typeArgumentNames, .mk name args⟩
            inside = false := by
          simp [FieldInstance.below, hstruct]
        rw [if_neg hstruct, FieldInstance.denoted, TypeName.instantiate, if_neg hname,
          TypeName.instantiateList_eq_map] at hsettled
        rw [hbelow]
        refine (h.step_basicType hfields hlength hd hs hname hknown fun a ha =>
          hsettled _ (List.mem_map_of_mem ha)).trans ?_
        exact ⟨fun h => ⟨h, fun hmem => absurd hmem hname⟩, fun h => h.1⟩

/-! ### The walk -/

/-- One step into a struct. -/
theorem getTypeOfName_field (hfields : ∀ j, FieldsTypedAt types j) {inside : Bool} {T : TypeName}
    {t : Ty} (h : InstanceOf types inside T t) {f : String} {i : FieldInstance}
    (hfield : fieldOf types T f = some i) (hsettled : i.Settled types) (x : String) (rest : Path) :
    ∃ u, Declared.getTypeOfName (x :: f :: rest) t = Declared.getTypeOfName (f :: rest) u ∧
      (InstanceOf types (i.below types inside) i.denoted u ↔ i.Follows types) := by
  obtain ⟨j, name, decs, params, fieldTypes, k, field, hknown, hk, hget, hi⟩ :=
    fieldOf_eq_some hfield
  obtain ⟨fields, ps, as, rfl, hstored⟩ := h.stored hfields hknown
  have htyped := hfields j name decs params fieldTypes (getKnownType_eq_some hknown).1
  obtain ⟨hlt, hfieldGet⟩ := List.getElem?_eq_some_iff.mp hget
  have hlengths := htyped.length_eq
  have hlengths' := hstored.length_eq
  have hs := (List.forall₂_iff_get.mp htyped).2 k hlt (by omega)
  have hu := (List.forall₂_iff_get.mp hstored).2 k (by omega) (by omega)
  simp only [List.get_eq_getElem, hfieldGet] at hs hu
  subst hi
  refine ⟨fields[k], ?_, hu.step hfields rfl (getKnownType_eq_some hknown).2.2.symm rfl hs
    hsettled⟩
  rw [Declared.getTypeOfName, hk, List.getElem?_eq_getElem (by omega)]

/-- What the walk holds is the type that the instance denotes, except that a struct that was
substantiated all the same must have nothing to replace in it. -/
theorem InstanceOf.denotes_iff (hfields : ∀ j, FieldsTypedAt types j) {inside : Bool} {T : TypeName}
    {u : Ty} (h : InstanceOf types inside T u) :
    (∃ g, T.Denotes types g ∧ u.forget = g.forget) ↔ (inside = true → T.Plain types []) := by
  cases h with
  | declared hg heq => exact iff_of_true ⟨_, hg, heq⟩ nofun
  | @below name j name' decs params fieldTypes A us _ hknown hA hus heq =>
      have hstruct : ∀ {g : Ty}, (TypeName.mk name []).Denotes types g ↔ .struct name' j
          (decs.map Declaration.vname) (Ty.copyList fieldTypes) [] [] = g := by
        intro g
        rw [TypeName.denotes_iff]
        exact typecheckDeclaration_struct_nil hfields rfl List.not_mem_nil hknown
      simp only [hstruct, exists_eq_left', heq, forall_true_left]
      rw [Ty.forget, Ty.forget, Ty.struct.injEq, and_iff_right rfl, and_iff_right rfl,
        and_iff_right rfl, and_iff_left ⟨rfl, rfl⟩, Ty.forgetList_eq_iff, Ty.copyList_eq_map,
        List.forall₂_map_right_iff]
      constructor
      · intro hsame
        refine .struct List.not_mem_nil hknown fun s hs => ?_
        obtain ⟨u, _, hsub, hcopy⟩ := forall₂_mem_left (forall₂_and hus hsame.flip) hs
        exact Ty.closed_of_forget_substantiate hA s hsub hcopy
      · intro hplain
        have hclosed : ∀ s ∈ fieldTypes, s.Closed := by
          cases hplain with
          | parameter hname => exact absurd hname List.not_mem_nil
          | basicType _ hbasic _ =>
              rw [hknown] at hbasic
              cases hbasic
          | struct _ hstruct hclosed =>
              rw [hknown] at hstruct
              cases hstruct
              exact hclosed
        exact (forall₂_imp_mem hus fun s hs u hu =>
          Ty.forget_substantiate_of_closed s (hclosed s hs) hu).flip

/-- The walk along a field path: at its end stands the type that the instantiated type
expression denotes exactly when the walk follows the last field, and has not replaced type
variables in a struct that has none of its own. -/
theorem getTypeOfName_spec (hfields : ∀ j, FieldsTypedAt types j) (path : Path) :
    ∀ {inside : Bool} {T : TypeName} {t : Ty}, InstanceOf types inside T t →
      SettledAlong types T path → ∀ {i : FieldInstance}, fieldAt types T path = some i →
      ∀ x : String, ∃ u, Declared.getTypeOfName (x :: path) t = .ok u ∧
        ((∃ g, i.denoted.Denotes types g ∧ u.forget = g.forget) ↔
          i.Follows types ∧ (belowAt types inside T path = true → i.denoted.Plain types [])) := by
  induction path with
  | nil =>
      intro _ T _ _ _ i hfield
      cases hfield
  | cons f rest ih =>
      intro inside T t h hsettled i hfield x
      cases rest with
      | nil =>
          rw [fieldAt] at hfield
          obtain ⟨hi, _, _⟩ := hsettled i hfield
          obtain ⟨u, hwalk, hiff⟩ := getTypeOfName_field hfields h hfield hi x []
          refine ⟨u, hwalk, ?_⟩
          have hbelowAt : belowAt types inside T [f] = i.below types inside := by
            simp [belowAt, hfield]
          rw [hbelowAt]
          constructor
          · intro hu
            have hinstance : InstanceOf types (i.below types inside) i.denoted u := by
              cases hbelow : i.below types inside with
              | false =>
                  obtain ⟨g, hg, heq⟩ := hu
                  exact .declared hg heq
              | true => exact hbelow ▸ hiff.mpr (FieldInstance.follows_of_below hbelow)
            exact ⟨hiff.mp hinstance, (hinstance.denotes_iff hfields).mp hu⟩
          · rintro ⟨hfollows, hplain⟩
            exact ((hiff.mpr hfollows).denotes_iff hfields).mpr hplain
      | cons next rest =>
          rw [fieldAt] at hfield
          obtain ⟨i', hi', hrest⟩ := Option.bind_eq_some_iff.mp hfield
          obtain ⟨hi, hfollows, hsettled⟩ := hsettled i' hi'
          obtain ⟨u, hwalk, hiff⟩ := getTypeOfName_field hfields h hi' hi x (next :: rest)
          have hbelowAt : belowAt types inside T (f :: next :: rest) =
              belowAt types (i'.below types inside) i'.denoted (next :: rest) := by
            simp [belowAt, hi']
          rw [hwalk, hbelowAt]
          exact ih (hiff.mpr (hfollows (List.cons_ne_nil next rest))) hsettled hrest f

end

/-! ### Names with fields -/

/-- The name `v.f1...fm` has the type that a variable gets that is declared with the
instantiated type expression of the last field. -/
def HasDenotedType (sc : Declared) (n : Path) (env : Environment) (i : FieldInstance) : Prop :=
  ∃ name t g, sc.typecheckName n env = .ok (name, t) ∧ i.denoted.Denotes sc.types g ∧
    t.forget = g.forget

/-- For a field path that is settled along its fields: it has the type that its last field denotes
exactly when the walk follows this field, and has not replaced type variables in a struct that
has none of its own. -/
theorem hasDenotedType_iff {statechart : Statechart} {sc : Declared}
    (hsc : typecheckDeclarations statechart = .ok sc) {p : StateRef} {v : Declaration}
    (hv : v ∈ sc.root.declarationsAt p) {n : Path} {env : Environment} {r : DeclarationRef}
    {x : String} {path : Path} (hn : sc.locateName n env = some ((r, v), x :: path))
    (hsettled : SettledAlong sc.types v.typeName path) {i : FieldInstance}
    (hfield : fieldAt sc.types v.typeName path = some i) :
    HasDenotedType sc n env i ↔ i.Follows sc.types ∧
      (belowAt sc.types false v.typeName path = true → i.denoted.Plain sc.types []) := by
  have hfields := fieldsTyped_of_declared hsc
  obtain ⟨t, ht⟩ := Declared.typecheckDeclaration_of_mem hsc hv
  obtain ⟨u, hwalk, hiff⟩ := getTypeOfName_spec hfields path
    (.declared (TypeName.Denotes.intro ht) rfl) hsettled hfield x
  have hname := typecheckName_path hn ht hwalk
  rw [← hiff]
  constructor
  · rintro ⟨name, t', g, htype, hg, heq⟩
    rw [hname, Except.ok.injEq, Prod.mk.injEq] at htype
    exact ⟨g, hg, htype.2 ▸ heq⟩
  · rintro ⟨g, hg, heq⟩
    exact ⟨_, u, g, hname, hg, heq⟩

/-- A struct with a polymorphic struct in a field, and another one inside a type argument. -/
def shelf : Statechart where
  root := { plainState "Storage" with
    declarations := ⟨[⟨"v", .localScope, .mk "Shelf" [.mk "int" []], false⟩], by decide⟩ }
  moreTypes := [
    .basicType "map" ["a", "b"],
    .struct "Box" ⟨[⟨"lid", .localScope, .mk "A" [], false⟩], by decide⟩ ["A"],
    .struct "Shelf" ⟨[
      ⟨"inner", .localScope, .mk "Box" [.mk "A" []], false⟩,
      ⟨"rest", .localScope, .mk "map" [.mk "A" [], .mk "Box" [.mk "int" []]], false⟩],
      by decide⟩ ["A"]]
  events := []
  functionDeclarations := []
  initialised := by decide

theorem shelf_declared : typecheckDeclarations shelf = .ok (declared shelf) :=
  eq_ok_getD (by decide) _

/-- The path does not come to the field `rest`. -/
theorem hasDenotedType_iff_shelf : HasDenotedType (declared shelf) ["v", "inner", "lid"]
    (getEnvironment shelf.root []) ⟨["A"], [.mk "int" []], .mk "A" []⟩ := by
  have hsettled : SettledAlong (declared shelf).types (.mk "Shelf" [.mk "int" []])
      ["inner", "lid"] := by
    intro i hi
    cases hi
    refine ⟨fun _ => ?_, fun _ => ⟨Or.inr (Or.inl rfl), fun h => ?_⟩, fun i hi => ?_⟩
    · exact List.forall_mem_singleton.mpr (.parameter List.mem_cons_self)
    · exact absurd h (by decide)
    · cases hi
      exact ⟨fun h => absurd List.mem_cons_self h, fun h => absurd rfl h, trivial⟩
  exact (hasDenotedType_iff shelf_declared (p := []) (r := ⟨[], "v"⟩)
    (v := ⟨"v", .localScope, .mk "Shelf" [.mk "int" []], false⟩)
    (List.mem_of_getElem? (i := 0) rfl) rfl hsettled rfl).mpr
      ⟨⟨Or.inl List.mem_cons_self, fun _ => ⟨List.forall_mem_nil _, fun _ => rfl⟩⟩,
        fun h => absurd h (by decide)⟩

/-- A struct whose type parameters stand in another order in a field of basic type. -/
def crossed : Statechart where
  root := { plainState "Crossed" with
    declarations := ⟨[
      ⟨"v", .localScope, .mk "Sides" [.mk "int" [], .mk "boolean" []], false⟩,
      ⟨"m", .localScope, .mk "map" [.mk "int" [], .mk "boolean" []], false⟩], by decide⟩
    entry := .statementList [.assignmentStatement ["m"] (.name ["v", "both"])] }
  moreTypes := [
    .basicType "map" ["a", "b"],
    .struct "Sides" ⟨[
      ⟨"left", .localScope, .mk "A" [], false⟩,
      ⟨"both", .localScope, .mk "map" [.mk "B" [], .mk "A" []], false⟩], by decide⟩ ["A", "B"]]
  events := []
  functionDeclarations := []
  initialised := by decide

theorem crossed_declared : typecheckDeclarations crossed = .ok (declared crossed) :=
  eq_ok_getD (by decide) _

/-- Every field path of every variable has the type that the last
field denotes. -/
def FieldsHaveDenotedTypes (statechart : Statechart) : Prop :=
  ∀ sc, typecheckDeclarations statechart = .ok sc → ∀ p v, v ∈ sc.root.declarationsAt p →
    ∀ n env r x path, sc.locateName n env = some ((r, v), x :: path) →
      ∀ i, fieldAt sc.types v.typeName path = some i → HasDenotedType sc n env i

/-- The map from booleans to numbers is taken for one from numbers to booleans. -/
theorem not_fieldsHaveDenotedTypes_crossed :
    (typecheck crossed).isOk = true ∧ ¬ FieldsHaveDenotedTypes crossed := by
  refine ⟨by decide, fun h => ?_⟩
  obtain ⟨name, t, g, htype, hdenoted, heq⟩ :=
    h _ crossed_declared [] _ (List.mem_of_getElem? (i := 0) rfl)
    ["v", "both"] (getEnvironment crossed.root []) ⟨[], "v"⟩ "v" ["both"] rfl _ rfl
  have hdeclared :=
    hdenoted ⟨"w", .localScope, .mk "map" [.mk "boolean" [], .mk "int" []], false⟩ rfl
  have hname : (declared crossed).typecheckName ["v", "both"] (getEnvironment crossed.root []) = .ok
      (⟨["v", "both"], ⟨[], "v"⟩⟩, .basicType "map" 3 ["a", "b"] [Ty.int, Ty.boolean]) := rfl
  have hmap : typecheckDeclaration (declared crossed).types []
      ⟨"w", .localScope, .mk "map" [.mk "boolean" [], .mk "int" []], false⟩ = .ok
      (.basicType "map" 3 ["a", "b"] [Ty.boolean, Ty.int]) := rfl
  rw [hname, Except.ok.injEq, Prod.mk.injEq] at htype
  rw [hmap, Except.ok.injEq] at hdeclared
  rw [← htype.2, ← hdeclared] at heq
  exact absurd heq (by simp [Ty.forget, Ty.forgetList, Ty.int, Ty.boolean, Ty.builtin])

end Stabl
