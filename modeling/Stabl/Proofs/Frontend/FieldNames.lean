import Stabl.Proofs.Frontend.TypeTable

/-!
# `Stabl.Proofs.Frontend.FieldNames`: the field names of a struct are distinct

The declarations of a struct are a `DeclarationList`, so no field name occurs in it twice. A type
object takes its field names from the table, where they stay as they are, and `copy` and
`substantiate` keep them. So every struct in the type of a variable has distinct field names
(`distinctFields_of_declared`), and a field is found by its name (`getTypeOfName_path`).
-/

set_option autoImplicit false

namespace Stabl

open Result

/-! ### Types with distinct field names -/

/-- No struct in the type has two fields of one name. -/
inductive Ty.DistinctFields : Ty → Prop where
  | basicType {name : String} {ref : Nat} {params : List String} {args : List Ty}
      (hargs : ∀ a ∈ args, DistinctFields a) : DistinctFields (.basicType name ref params args)
  | struct {name : String} {ref : Nat} {vnames : List String} {fields : List Ty}
      {params : List String} {args : List Ty} (hnodup : vnames.Nodup)
      (hfields : ∀ f ∈ fields, DistinctFields f) (hargs : ∀ a ∈ args, DistinctFields a) :
      DistinctFields (.struct name ref vnames fields params args)
  | typeVariable {name : String} {index : Nat} : DistinctFields (.typeVariable name index)

namespace Ty.DistinctFields

theorem copy {t : Ty} (h : t.DistinctFields) : t.copy.DistinctFields := by
  induction h with
  | basicType _ ih =>
      rw [Ty.copy, copyList_eq_map]
      exact .basicType (List.forall_mem_map.mpr ih)
  | struct hnodup _ _ ih =>
      rw [Ty.copy, copyList_eq_map]
      exact .struct hnodup (List.forall_mem_map.mpr ih) (List.forall_mem_nil _)
  | typeVariable => exact .typeVariable

theorem typeArguments {t : Ty} (h : t.DistinctFields) :
    ∀ a ∈ t.typeArguments, a.DistinctFields := by
  cases h with
  | basicType hargs => exact hargs
  | struct _ _ hargs => exact hargs
  | typeVariable => exact List.forall_mem_nil _

theorem setTypeArguments {t : Ty} (h : t.DistinctFields) {args : List Ty}
    (hargs : ∀ a ∈ args, a.DistinctFields) : (t.setTypeArguments args).DistinctFields := by
  cases h with
  | basicType => exact .basicType hargs
  | struct hnodup hfields _ => exact .struct hnodup hfields hargs
  | typeVariable => exact .typeVariable

/-- The field names of the result are those of the type and of the arguments. -/
theorem substantiate {t : Ty} (h : t.DistinctFields) {A : List Ty}
    (hA : ∀ a ∈ A, a.DistinctFields) :
    ∀ {u : Ty}, t.substantiate A = .ok u → u.DistinctFields := by
  induction h with
  | basicType _ ih =>
      intro u hu
      have ⟨us, hus, heq⟩ := substantiate_basicType.mp hu
      subst heq
      refine .basicType fun u hu => ?_
      have ⟨a, ha, hsub⟩ := forall₂_mem_right hus hu
      exact ih a ha hsub
  | struct hnodup _ _ ih =>
      intro u hu
      have ⟨us, hus, heq⟩ := substantiate_struct.mp hu
      subst heq
      refine .struct hnodup (fun u hu => ?_) (List.forall_mem_nil _)
      have ⟨f, hf, hsub⟩ := forall₂_mem_right hus hu
      exact ih f hf hsub
  | typeVariable =>
      intro u hu
      exact hA u (List.mem_of_getElem? (substantiate_typeVariable.mp hu))

end Ty.DistinctFields

/-! ### Tables with distinct field names -/

/-- Every struct of the table has distinct field names, and so have the types of its fields. -/
def DistinctFieldNames (types : List TypeEntry) : Prop :=
  ∀ name decs params fieldTypes, TypeEntry.struct name decs params fieldTypes ∈ types →
    (decs.map Declaration.vname).Nodup ∧ ∀ t ∈ fieldTypes, t.DistinctFields

namespace DistinctFieldNames

variable {types : List TypeEntry}

theorem lookupType (h : DistinctFieldNames types) {params : List String} {i : Nat} (T : TypeName) :
    ∀ {t : Ty}, Stabl.lookupType types params i T = .ok t → t.DistinctFields := by
  induction T using TypeName.induction with
  | mk name args ih =>
      intro t ht
      by_cases hname : name ∈ params
      · rw [Stabl.lookupType, if_pos hname] at ht
        split at ht
        · rw [Except.ok.injEq] at ht
          exact ht ▸ .typeVariable
        · cases ht
      · obtain ⟨j, e, hknown, type, htype, ts, hts, heq⟩ := (lookupType_eq_ok hname).mp ht
        have hcopy : type.DistinctFields := by
          rcases copy_eq_ok htype with
            ⟨_, _, _, rfl⟩ | ⟨_, decs, _, fieldTypes, rfl, _, rfl⟩
          · exact .basicType (List.forall_mem_nil _)
          · obtain ⟨hnodup, hfields⟩ :=
              h _ _ _ _ (List.mem_of_getElem? (getKnownType_eq_some hknown).1)
            rw [Ty.copyList_eq_map]
            exact .struct hnodup (List.forall_mem_map.mpr fun f hf => (hfields f hf).copy)
              (List.forall_mem_nil _)
        subst heq
        refine hcopy.setTypeArguments fun a ha => ?_
        obtain ⟨T, hT, hlookup⟩ := forall₂_mem_right hts ha
        cases T with
        | mk name' args' =>
            rw [lookupArgument] at hlookup
            split at hlookup
            · rw [Except.ok.injEq] at hlookup
              exact hlookup ▸ .typeVariable
            · exact ih _ hT hlookup

theorem typecheckDeclaration (h : DistinctFieldNames types) {params : List String} {d : Declaration}
    {t : Ty} (ht : Stabl.typecheckDeclaration types params d = .ok t) : t.DistinctFields := by
  have ⟨type, htype, hrest⟩ := bind_eq_ok.mp ht
  have hdistinct := h.lookupType d.typeName htype
  split at hrest
  · rw [pure_eq_ok] at hrest
    exact hrest ▸ hdistinct
  · exact hdistinct.substantiate hdistinct.typeArguments hrest

theorem addFieldType (h : DistinctFieldNames types) {type : Ty} (htype : type.DistinctFields)
    (i : Nat) : DistinctFieldNames (types.modify i (TypeEntry.addFieldType type)) := by
  intro name decs params fieldTypes hmem
  have ⟨j, hj⟩ := List.mem_iff_getElem?.mp hmem
  rw [List.getElem?_modify] at hj
  have ⟨e, he, heq⟩ := Option.map_eq_some_iff.mp hj
  have hold := List.mem_of_getElem? he
  split at heq
  · -- The entry with the new field type.
    cases e with
    | basicType name params => cases heq
    | struct name' decs' params' fieldTypes' =>
        cases heq
        have ⟨hnodup, hfields⟩ := h _ _ _ _ hold
        exact ⟨hnodup, List.forall_mem_append.mpr ⟨hfields, by simpa using htype⟩⟩
  · exact h _ _ _ _ (heq ▸ hold)

theorem typecheckStruct {i : Nat} {params : List String} (ds : List Declaration) :
    ∀ {types types' : List TypeEntry}, DistinctFieldNames types →
      Stabl.typecheckStruct types i params ds = .ok types' → DistinctFieldNames types' := by
  induction ds with
  | nil =>
      intro types types' h hok
      rw [Stabl.typecheckStruct, pure_eq_ok] at hok
      exact hok ▸ h
  | cons d ds ih =>
      intro types types' h hok
      rw [Stabl.typecheckStruct] at hok
      obtain ⟨type, htype, hrest⟩ := bind_eq_ok.mp hok
      exact ih (h.addFieldType (h.typecheckDeclaration htype) i) hrest

theorem typecheckTypeDeclarations (n : Nat) : ∀ {types types' : List TypeEntry} {i : Nat},
    DistinctFieldNames types → Stabl.typecheckTypeDeclarations types i n = .ok types' →
      DistinctFieldNames types' := by
  induction n with
  | zero =>
      intro types types' i h hok
      rw [Stabl.typecheckTypeDeclarations, pure_eq_ok] at hok
      exact hok ▸ h
  | succ n ih =>
      intro types types' i h hok
      rw [Stabl.typecheckTypeDeclarations] at hok
      split at hok
      · obtain ⟨types₁, hstruct, hrest⟩ := bind_eq_ok.mp hok
        exact ih (typecheckStruct _ h hstruct) hrest
      · obtain ⟨types₁, hpure, hrest⟩ := bind_eq_ok.mp hok
        rw [pure_eq_ok] at hpure
        exact ih (hpure ▸ h) hrest

/-- The table of the parser's objects. -/
theorem typeTable (moreTypes : List TypeDeclaration) :
    DistinctFieldNames (Stabl.typeTable moreTypes) := by
  intro name decs params fieldTypes hmem
  obtain ⟨hnodup, rfl⟩ := struct_of_mem_typeTable hmem
  exact ⟨hnodup, List.forall_mem_nil _⟩

end DistinctFieldNames

/-- Every struct in the type of a variable has distinct field names. -/
theorem distinctFields_of_declared {statechart : Statechart} {sc : Declared}
    (h : typecheckDeclarations statechart = .ok sc) {d : Declaration} {t : Ty}
    (ht : typecheckDeclaration sc.types [] d = .ok t) : t.DistinctFields := by
  have ⟨_, htypes, _⟩ := typecheckDeclarations_eq_ok h
  have htable := DistinctFieldNames.typecheckTypeDeclarations _ (.typeTable _) htypes
  exact htable.typecheckDeclaration ht

/-! ### Field paths -/

/-- `FieldType t path u`: the field path leads from the type `t` to the type `u`. Each name of the
path is that of a field of the struct reached so far. -/
inductive FieldType : Ty → Path → Ty → Prop where
  | here (t : Ty) : FieldType t [] t
  | field {name : String} {ref : Nat} {vnames : List String} {fieldTypes : List Ty}
      {params : List String} {args : List Ty} {k : Nat} {f : String} {t u : Ty} {path : Path}
      (hname : vnames[k]? = some f) (htype : fieldTypes[k]? = some t) (hrest : FieldType t path u) :
      FieldType (.struct name ref vnames fieldTypes params args) (f :: path) u

/-- The walk along a field path ends in the type of the field. -/
theorem getTypeOfName_path {t u : Ty} {path : Path} (h : FieldType t path u)
    (ht : t.DistinctFields) (x : String) : Declared.getTypeOfName (x :: path) t = .ok u := by
  induction h generalizing x with
  | here => rfl
  | @field name ref vnames fieldTypes params args k f t u path hname htype _ ih =>
      cases ht with
      | struct hnodup hfields hargs =>
          obtain ⟨hk, hget⟩ := List.getElem?_eq_some_iff.mp hname
          have hidx : vnames.idxOf f = k := by
            rw [← hget]
            exact hnodup.idxOf_getElem k hk
          rw [Declared.getTypeOfName, hidx, htype]
          exact ih (hfields t (List.mem_of_getElem? htype)) f

end Stabl
