import Stabl.Proofs.Frontend.Substantiate

/-!
# `Stabl.Proofs.Frontend.TypeTable`: the type table after the type declarations

`typecheckTypeDeclarations` fills the fields of the structs one by one, and looks each type up
in the table as it is at that time. A lookup copies complete entries only, and a complete entry
does not change any more (`TypeEntry.Grows`). So what a lookup found, it finds in the finished
table as well (`TableGrows.lookupType`), and there every field has the type that its declaration
has (`fieldsTyped_of_declared`).
-/

set_option autoImplicit false

namespace Stabl

open Result

/-! ### Growing tables -/

/-- The entry is the same, or it was a struct without all its fields and has got more. -/
inductive TypeEntry.Grows : TypeEntry → TypeEntry → Prop where
  | same (e : TypeEntry) : Grows e e
  | more {name : String} {decs : List Declaration} {params : List String} {fieldTypes : List Ty}
      (hmissing : fieldTypes.length < decs.length) (newTypes : List Ty) :
      Grows (.struct name decs params fieldTypes)
        (.struct name decs params (fieldTypes ++ newTypes))

theorem TypeEntry.Grows.trans {e e' e'' : TypeEntry} (h : e.Grows e') (h' : e'.Grows e'') :
    e.Grows e'' := by
  cases h with
  | same => exact h'
  | more hmissing newTypes =>
      cases h' with
      | same => exact .more hmissing newTypes
      | more _ moreTypes =>
          rw [List.append_assoc]
          exact .more hmissing (newTypes ++ moreTypes)

/-- Every entry of the table grows. -/
def TableGrows (types types' : List TypeEntry) : Prop := List.Forall₂ TypeEntry.Grows types types'

namespace TableGrows

variable {types types' types'' : List TypeEntry}

theorem refl (types : List TypeEntry) : TableGrows types types :=
  List.forall₂_same.mpr fun e _ => .same e

theorem trans (h : TableGrows types types') (h' : TableGrows types' types'') :
    TableGrows types types'' := by
  induction h generalizing types'' with
  | nil => exact h'
  | cons he _ ih =>
      cases h' with
      | cons he' h' => exact .cons (he.trans he') (ih h')

theorem getElem? (h : TableGrows types types') {j : Nat} {e : TypeEntry} (he : types[j]? = some e) :
    ∃ e', types'[j]? = some e' ∧ e.Grows e' := by
  have ⟨hj, hget⟩ := List.getElem?_eq_some_iff.mp he
  have ⟨hlength, hgrows⟩ := List.forall₂_iff_get.mp h
  have hgrows := hgrows j hj (by omega)
  rw [List.get_eq_getElem, hget] at hgrows
  exact ⟨_, List.getElem?_eq_getElem (by omega), hgrows⟩

/-- What `getKnownType` asks an entry for. -/
def key (e : TypeEntry) : String × Nat := (e.name, e.typeParameterNames.length)

theorem keys (h : TableGrows types types') : types.map key = types'.map key := by
  induction h with
  | nil => rfl
  | cons he _ ih =>
      rw [List.map_cons, List.map_cons, ih]
      cases he <;> rfl

/-- The index of the entry that `getKnownType` finds. -/
theorem getKnownType_iff {T : TypeName} {i j : Nat} {e : TypeEntry} :
    getKnownType types T i = some (j, e) ↔
      (((types.map key).take i).findIdx? fun k =>
        decide (k.1 = T.name) && k.2 == T.typeArgumentNames.length) = some j ∧ types[j]? = some e :=
        by
  have hindex : (((types.map key).take i).findIdx? fun k =>
      decide (k.1 = T.name) && k.2 == T.typeArgumentNames.length) = (types.take i).findIdx? fun e =>
        decide (e.name = T.name) && e.typeParameterNames.length == T.typeArgumentNames.length := by
    rw [← List.map_take, List.findIdx?_map]
    rfl
  rw [hindex]
  constructor
  · intro h
    refine ⟨?_, (getKnownType_eq_some h).1⟩
    unfold getKnownType at h
    dsimp only at h
    split at h
    · rename_i j' e' hj _
      simp only [Option.some.injEq, Prod.mk.injEq] at h
      rw [hj, h.1]
    · cases h
  · rintro ⟨hj, he⟩
    unfold getKnownType
    dsimp only
    have ⟨hlt, hp, _⟩ := List.findIdx?_eq_some_iff_getElem.mp hj
    cases hfind : (types.take i).find? fun e =>
        decide (e.name = T.name) && e.typeParameterNames.length == T.typeArgumentNames.length with
    | none =>
        rw [List.find?_eq_none] at hfind
        exact absurd hp (hfind _ (List.getElem_mem hlt))
    | some e' =>
        simp only [hj]
        -- The entry at the index is the one that was found.
        have hknown : getKnownType types T i = some (j, e') := by
          unfold getKnownType
          simp only [hj, hfind]
        have hget := (getKnownType_eq_some hknown).1
        rw [he, Option.some.injEq] at hget
        rw [hget]

theorem getKnownType (h : TableGrows types types') {T : TypeName} {i j : Nat} {e : TypeEntry}
    (he : Stabl.getKnownType types T i = some (j, e)) :
    ∃ e', Stabl.getKnownType types' T i = some (j, e') ∧ e.Grows e' := by
  have ⟨hj, hget⟩ := getKnownType_iff.mp he
  have ⟨e', hget', hgrows⟩ := h.getElem? hget
  rw [h.keys] at hj
  exact ⟨e', getKnownType_iff.mpr ⟨hj, hget'⟩, hgrows⟩

/-- A lookup succeeds with complete entries only, so it finds the same in a grown table. -/
theorem lookupType (h : TableGrows types types') {params : List String} {i : Nat} (T : TypeName) :
    ∀ {t : Ty}, Stabl.lookupType types params i T = .ok t →
      Stabl.lookupType types' params i T = .ok t := by
  induction T using TypeName.induction with
  | mk name args ih =>
      intro t ht
      by_cases hname : name ∈ params
      · rw [Stabl.lookupType, if_pos hname] at ht ⊢
        exact ht
      · obtain ⟨j, e, hknown, type, htype, ts, hts, heq⟩ := (lookupType_eq_ok hname).mp ht
        obtain ⟨e', hknown', hgrows⟩ := h.getKnownType hknown
        refine (lookupType_eq_ok hname).mpr ⟨j, e', hknown', type, ?_, ts, ?_, heq⟩
        · cases hgrows with
          | same => exact htype
          | more hmissing newTypes =>
              rw [TypeEntry.copy, if_neg (by omega)] at htype
              cases htype
        · refine forall₂_imp_mem hts fun a ha u hu => ?_
          cases a with
          | mk name' args' =>
              rw [lookupArgument] at hu ⊢
              by_cases hname' : name' ∈ params
              · rwa [if_pos hname'] at hu ⊢
              · rw [if_neg hname'] at hu ⊢
                exact ih _ ha hu

theorem typecheckDeclaration (h : TableGrows types types') {params : List String} {d : Declaration}
    {t : Ty} (ht : Stabl.typecheckDeclaration types params d = .ok t) :
    Stabl.typecheckDeclaration types' params d = .ok t := by
  have ⟨type, htype, hrest⟩ := bind_eq_ok.mp ht
  have hlength : types.length = types'.length := List.Forall₂.length_eq h
  rw [hlength] at htype
  exact bind_eq_ok.mpr ⟨type, h.lookupType d.typeName htype, hrest⟩

end TableGrows

/-! ### Filling the table -/

/-- The struct at the index has all its fields, each with the type of its declaration. -/
def FieldsTypedAt (types : List TypeEntry) (j : Nat) : Prop :=
  ∀ name decs params fieldTypes, types[j]? = some (.struct name decs params fieldTypes) →
    List.Forall₂ (fun d t => typecheckDeclaration types params d = .ok t) decs fieldTypes

/-- A complete entry stays complete, and its fields keep their types. -/
theorem FieldsTypedAt.grows {types types' : List TypeEntry} {j : Nat} (h : FieldsTypedAt types j)
    (hgrows : TableGrows types types') (hlength : types.length = types'.length) :
      FieldsTypedAt types' j := by
  intro name decs params fieldTypes hentry
  have ⟨hj, _⟩ := List.getElem?_eq_some_iff.mp hentry
  have hget : types[j]? = some types[j] := List.getElem?_eq_getElem (by omega)
  have ⟨e', he', hgrow⟩ := hgrows.getElem? hget
  rw [hentry, Option.some.injEq] at he'
  generalize types[j] = e at hget hgrow
  subst he'
  cases hgrow with
  | same => exact (h name decs params fieldTypes hget).imp fun _ _ => hgrows.typecheckDeclaration
  | more hmissing newTypes =>
      have hcomplete := (h _ _ _ _ hget).length_eq
      omega

/-- The loop over the fields of the struct at the index `i`. -/
theorem typecheckStruct_grows {i : Nat} {name : String} {decs : List Declaration}
    {params : List String}
    (ds : List Declaration) : ∀ {types types' : List TypeEntry} {fieldTypes : List Ty},
    types[i]? = some (.struct name decs params fieldTypes) →
    fieldTypes.length + ds.length = decs.length →
    typecheckStruct types i params ds = .ok types' → TableGrows types types' ∧
      (∀ j, j ≠ i → types'[j]? = types[j]?) ∧ ∃ newTypes,
        types'[i]? = some (.struct name decs params (fieldTypes ++ newTypes)) ∧
        List.Forall₂ (fun d t => typecheckDeclaration types' params d = .ok t) ds newTypes := by
  induction ds with
  | nil =>
      intro types types' fieldTypes hentry _ h
      rw [typecheckStruct, pure_eq_ok] at h
      subst h
      exact ⟨.refl types, fun _ _ => rfl, [], by rw [List.append_nil]; exact hentry, .nil⟩
  | cons d ds ih =>
      intro types types' fieldTypes hentry hlength h
      rw [List.length_cons] at hlength
      rw [typecheckStruct] at h
      have ⟨type, htype, hrest⟩ := bind_eq_ok.mp h
      have hentry₁ : (types.modify i (TypeEntry.addFieldType type))[i]? =
          some (.struct name decs params (fieldTypes ++ [type])) := by
        rw [List.getElem?_modify_eq, hentry]
        rfl
      have hother₁ :
        ∀ j, j ≠ i → (types.modify i (TypeEntry.addFieldType type))[j]? = types[j]? := by
        intro j hj
        rw [List.getElem?_modify]
        simp [Ne.symm hj]
      have hgrows₁ : TableGrows types (types.modify i (TypeEntry.addFieldType type)) := by
        refine List.forall₂_iff_get.mpr ⟨(List.length_modify _ _ _).symm, fun j h₁ h₂ => ?_⟩
        have hj : types[j]? = some (types.get ⟨j, h₁⟩) := List.getElem?_eq_getElem h₁
        have hj' : (types.modify i (TypeEntry.addFieldType type))[j]? =
            some ((types.modify i (TypeEntry.addFieldType type)).get ⟨j, h₂⟩) :=
              List.getElem?_eq_getElem h₂
        by_cases hji : j = i
        · subst hji
          rw [hentry, Option.some.injEq] at hj
          rw [hentry₁, Option.some.injEq] at hj'
          rw [← hj, ← hj']
          exact .more (by omega) [type]
        · rw [hother₁ j hji, hj, Option.some.injEq] at hj'
          rw [← hj']
          exact .same _
      have ⟨hgrows, hother, newTypes, hentry', hnew⟩ :=
        ih hentry₁ (by rw [List.length_append, List.length_singleton]; omega) hrest
      refine ⟨hgrows₁.trans hgrows, fun j hj =>
        (hother j hj).trans (hother₁ j hj), type :: newTypes, ?_,
        .cons ?_ hnew⟩
      · rw [hentry', List.append_assoc, List.singleton_append]
      · exact (hgrows₁.trans hgrows).typecheckDeclaration htype

/-- The loop over the entries, from the index `i` on. -/
theorem typecheckTypeDeclarations_fieldsTyped (n : Nat) :
    ∀ {types types' : List TypeEntry} {i : Nat},
    (∀ j < i, FieldsTypedAt types j) →
    (∀ j, i ≤ j → ∀ name decs params fieldTypes,
      types[j]? = some (.struct name decs params fieldTypes) →
      fieldTypes = []) →
    i + n = types.length → typecheckTypeDeclarations types i n = .ok types' →
      ∀ j, FieldsTypedAt types' j := by
  induction n with
  | zero =>
      intro types types' i hdone _ hlength h
      rw [typecheckTypeDeclarations, pure_eq_ok] at h
      subst h
      intro j
      by_cases hj : j < i
      · exact hdone j hj
      · intro name decs params fieldTypes hentry
        have ⟨hlt, _⟩ := List.getElem?_eq_some_iff.mp hentry
        omega
  | succ n ih =>
      intro types types' i hdone htodo hlength h
      rw [typecheckTypeDeclarations] at h
      split at h
      · rename_i name decs params fieldTypes hentry
        have ⟨types₁, hstruct, hrest⟩ := bind_eq_ok.mp h
        have hnil := htodo i le_rfl name decs params fieldTypes hentry
        subst hnil
        have ⟨hgrows, hother, newTypes, hentry', hnew⟩ :=
          typecheckStruct_grows decs hentry (by simp) hstruct
        have hlength₁ : types.length = types₁.length := List.Forall₂.length_eq hgrows
        refine ih ?_ ?_ (by omega) hrest
        · intro j hj
          by_cases hji : j = i
          · subst hji
            intro name' decs' params' fieldTypes' hj'
            rw [hentry', Option.some.injEq, List.nil_append] at hj'
            cases hj'
            exact hnew
          · exact (hdone j (by omega)).grows hgrows hlength₁
        · intro j hj name' decs' params' fieldTypes' hj'
          rw [hother j (by omega)] at hj'
          exact htodo j (by omega) name' decs' params' fieldTypes' hj'
      · rename_i hno
        have ⟨types₁, hpure, hrest⟩ := bind_eq_ok.mp h
        rw [pure_eq_ok] at hpure
        subst hpure
        refine ih ?_ (fun j hj => htodo j (by omega)) (by omega) hrest
        intro j hj
        by_cases hji : j = i
        · subst hji
          intro name decs params fieldTypes hentry
          exact absurd hentry (hno name decs params fieldTypes)
        · exact hdone j (by omega)

/-- The structs of the parser are those that were declared, and have no field types yet. -/
theorem struct_of_mem_typeTable {moreTypes : List TypeDeclaration} {name : String}
    {decs : List Declaration} {params : List String} {fieldTypes : List Ty}
    (h : TypeEntry.struct name decs params fieldTypes ∈ typeTable moreTypes) :
    (decs.map Declaration.vname).Nodup ∧ fieldTypes = [] := by
  rw [typeTable, List.mem_append] at h
  obtain h | h := h
  · simp at h
  · have ⟨declaration, _, heq⟩ := List.mem_map.mp h
    cases declaration with
    | basicType name params => cases heq
    | struct name decs params =>
        cases heq
        exact ⟨decs.nodup, rfl⟩

/-- After the pass over the type declarations, the fields of every struct have the types of
their declarations. -/
theorem fieldsTyped_of_typeTable {moreTypes : List TypeDeclaration} {types : List TypeEntry}
    (h : typecheckTypeDeclarations (typeTable moreTypes) 0 (typeTable moreTypes).length =
    .ok types) :
    ∀ j, FieldsTypedAt types j := by
  refine typecheckTypeDeclarations_fieldsTyped _ (fun j hj => by omega) ?_ (by omega) h
  intro j _ name decs params fieldTypes hentry
  exact (struct_of_mem_typeTable (List.mem_of_getElem? hentry)).2

theorem fieldsTyped_of_declared {statechart : Statechart} {sc : Declared}
    (h : typecheckDeclarations statechart = .ok sc) : ∀ j, FieldsTypedAt sc.types j := by
  have ⟨_, htypes, _⟩ := typecheckDeclarations_eq_ok h
  exact fieldsTyped_of_typeTable htypes

/-! ### The built-in types -/

/-- The first three entries of a type table are the built-in types. -/
def BuiltinFirst (types : List TypeEntry) : Prop :=
  ∃ more, types = [.basicType "int" [], .basicType "boolean" [], .basicType "string" []] ++ more

theorem BuiltinFirst.modify {types : List TypeEntry} (h : BuiltinFirst types) (i : Nat)
    (ty : Ty) : BuiltinFirst (types.modify i (TypeEntry.addFieldType ty)) := by
  obtain ⟨more, rfl⟩ := h
  match i with
  | 0 => exact ⟨more, by simp [TypeEntry.addFieldType]⟩
  | 1 => exact ⟨more, by simp [TypeEntry.addFieldType]⟩
  | 2 => exact ⟨more, by simp [TypeEntry.addFieldType]⟩
  | i + 3 => exact ⟨more.modify i (TypeEntry.addFieldType ty), by simp⟩

theorem BuiltinFirst.typecheckStruct {types types' : List TypeEntry} (h : BuiltinFirst types)
    {i : Nat} {params : List String} {ds : List Declaration}
    (hs : typecheckStruct types i params ds = .ok types') : BuiltinFirst types' := by
  induction ds generalizing types with
  | nil =>
      rw [Stabl.typecheckStruct, pure_eq_ok] at hs
      exact hs ▸ h
  | cons d ds ih =>
      rw [Stabl.typecheckStruct, bind_eq_ok] at hs
      obtain ⟨ty, _, hs⟩ := hs
      exact ih (h.modify i ty) hs

theorem BuiltinFirst.typecheckTypeDeclarations {types types' : List TypeEntry}
    (h : BuiltinFirst types) {i n : Nat}
    (hs : typecheckTypeDeclarations types i n = .ok types') : BuiltinFirst types' := by
  induction n generalizing types i with
  | zero =>
      rw [Stabl.typecheckTypeDeclarations, pure_eq_ok] at hs
      exact hs ▸ h
  | succ n ih =>
      rw [Stabl.typecheckTypeDeclarations] at hs
      split at hs
      · obtain ⟨types₁, hstruct, hs⟩ := bind_eq_ok.mp hs
        exact ih (h.typecheckStruct hstruct) hs
      · obtain ⟨types₁, hpure, hs⟩ := bind_eq_ok.mp hs
        rw [pure_eq_ok] at hpure
        exact ih (hpure ▸ h) hs

/-- The passes over the declarations leave the built-in types where they were. -/
theorem builtinFirst_of_declared {statechart : Statechart} {sc : Declared}
    (h : typecheckDeclarations statechart = .ok sc) : BuiltinFirst sc.types := by
  have ⟨_, htypes, _⟩ := typecheckDeclarations_eq_ok h
  exact BuiltinFirst.typecheckTypeDeclarations ⟨_, rfl⟩ htypes

theorem BuiltinFirst.lookup {types : List TypeEntry} (h : BuiltinFirst types) :
    lookupGroundType types (.mk "int" []) = .ok Ty.int ∧
      lookupGroundType types (.mk "boolean" []) = .ok Ty.boolean ∧
        lookupGroundType types (.mk "string" []) = .ok Ty.string := by
  obtain ⟨more, rfl⟩ := h
  refine ⟨?_, ?_, ?_⟩ <;>
    simp [lookupGroundType, lookupType, getKnownType, TypeEntry.name, TypeEntry.copy,
      TypeEntry.typeParameterNames, TypeName.name, TypeName.typeArgumentNames, lookupTypes,
      Ty.setTypeArguments, Ty.int, Ty.boolean, Ty.string, Ty.builtin, List.findIdx?_cons, pure,
      Except.pure, bind, Except.bind]

end Stabl
