import Stabl.Proofs.Frontend.Instances

/-!
# `Stabl.Proofs.Frontend.TypeObjects`: the types that expressions get

Every type of an expression is made from the entries of the type table by `copy` and
`substantiate` (`Ty.Built`). So a type has the name of its entry, and where no type variable
occurs in the fields of a struct, all types of this struct have the same fields. For such types
`equals` is equality (`TypeName.StructsClosed.eq_of_equals`).

The fields of an entry have such types themselves, from other entries. `Ty.BuiltTo` follows a type
to a depth only, so that what holds of the entries to one depth holds of the types made from them
to the next (`storedTo`).
-/

set_option autoImplicit false

namespace Stabl

open Result

namespace Ty

/-! ### Types made from the table -/

/-- To the depth, the type is made from the entries of the table: it has the name of its entry,
and the fields of a struct are those of its entry where no type variable occurs in them. -/
def BuiltTo (types : List TypeEntry) : Nat → Ty → Prop
  | 0, _ => True
  | depth + 1, .basicType name ref _ args =>
    (∃ params, types[ref]? = some (.basicType name params)) ∧ ∀ a ∈ args, BuiltTo types depth a
  | depth + 1, .struct name ref vnames fields _ _ =>
    (∃ decs params fieldTypes, types[ref]? = some (.struct name decs params fieldTypes) ∧
      vnames = decs.map Declaration.vname ∧
      ((∀ s ∈ fieldTypes, s.Closed) → forgetList fields = forgetList (copyList fieldTypes))) ∧
    ∀ f ∈ fields, BuiltTo types depth f
  | _ + 1, .typeVariable _ _ => True

/-- The type is made from the entries of the table. -/
def Built (types : List TypeEntry) (t : Ty) : Prop := ∀ depth, t.BuiltTo types depth

variable {types : List TypeEntry}

theorem BuiltTo.pred {depth : Nat} {t : Ty} (h : t.BuiltTo types (depth + 1)) :
    t.BuiltTo types depth := by
  induction depth generalizing t with
  | zero => trivial
  | succ depth ih =>
      cases t with
      | basicType => exact ⟨h.1, fun a ha => ih (h.2 a ha)⟩
      | struct => exact ⟨h.1, fun f hf => ih (h.2 f hf)⟩
      | typeVariable => trivial

/-- Equal fields have equal copies. -/
theorem copyList_congr {ts us : List Ty} (h : forgetList ts = forgetList us) :
    forgetList (copyList ts) = forgetList (copyList us) := by
  rw [forgetList_eq_iff] at h ⊢
  rw [copyList_eq_map, copyList_eq_map, List.forall₂_map_left_iff, List.forall₂_map_right_iff]
  exact h.imp fun t u => copy_congr

theorem BuiltTo.copy {depth : Nat} {t : Ty} (h : t.BuiltTo types depth) :
    t.copy.BuiltTo types depth := by
  induction depth generalizing t with
  | zero => trivial
  | succ depth ih =>
      cases t with
      | basicType name ref params args =>
          refine ⟨h.1, fun a ha => ?_⟩
          rw [copyList_eq_map] at ha
          obtain ⟨b, hb, rfl⟩ := List.mem_map.mp ha
          exact ih (h.2 b hb)
      | struct name ref vnames fields params args =>
          obtain ⟨⟨decs, params', fieldTypes, hentry, hnames, hclosed⟩, hfields⟩ := h
          refine ⟨⟨decs, params', fieldTypes, hentry, hnames, fun hall => ?_⟩, fun f hf => ?_⟩
          · rw [copyList_congr (hclosed hall), copyList_copyList]
          · rw [copyList_eq_map] at hf
            obtain ⟨g, hg, rfl⟩ := List.mem_map.mp hf
            exact ih (hfields g hg)
      | typeVariable => trivial

/-- Substantiating fields without type variables leaves them as they are in a copy. -/
theorem forgetList_substantiate {A fields us fieldTypes : List Ty}
    (hclosed : ∀ s ∈ fieldTypes, s.Closed)
    (hsame : forgetList fields = forgetList (copyList fieldTypes))
    (hus : List.Forall₂ (fun f u => f.substantiate A = .ok u) fields us) :
    forgetList us = forgetList (copyList fieldTypes) := by
  have hfields := forgetList_eq_iff.mp hsame
  rw [copyList_eq_map, List.forall₂_map_right_iff] at hfields
  have hall : ∀ f ∈ fields, f.Closed := by
    intro f hf index hmem
    obtain ⟨s, hs, heq⟩ := forall₂_mem_left hfields hf
    rw [typeVariables_congr heq, typeVariables_copy] at hmem
    exact hclosed s hs index hmem
  have hcopies : forgetList us = forgetList (copyList fields) := by
    rw [forgetList_eq_iff, copyList_eq_map, List.forall₂_map_right_iff]
    exact (forall₂_imp_mem hus fun f hf u hu =>
      forget_substantiate_of_closed f (hall f hf) hu).flip
  rw [hcopies, copyList_congr hsame, copyList_copyList]

theorem BuiltTo.substantiate {depth : Nat} {A : List Ty} (hA : ∀ a ∈ A, a.BuiltTo types depth)
    {t u : Ty} (h : t.BuiltTo types depth) (hu : t.substantiate A = .ok u) :
    u.BuiltTo types depth := by
  induction depth generalizing t u with
  | zero => trivial
  | succ depth ih =>
      cases t with
      | basicType name ref params args =>
          obtain ⟨us, hus, rfl⟩ := substantiate_basicType.mp hu
          refine ⟨h.1, fun u hu => ?_⟩
          obtain ⟨a, ha, hsub⟩ := forall₂_mem_right hus hu
          exact ih (fun b hb => (hA b hb).pred) (h.2 a ha) hsub
      | struct name ref vnames fields params args =>
          obtain ⟨us, hus, rfl⟩ := substantiate_struct.mp hu
          obtain ⟨⟨decs, params', fieldTypes, hentry, hnames, hclosed⟩, hfields⟩ := h
          refine ⟨⟨decs, params', fieldTypes, hentry, hnames, fun hall =>
            forgetList_substantiate hall (hclosed hall) hus⟩, fun u hu => ?_⟩
          obtain ⟨f, hf, hsub⟩ := forall₂_mem_right hus hu
          exact ih (fun b hb => (hA b hb).pred) (hfields f hf) hsub
      | typeVariable name index =>
          exact hA u (List.mem_of_getElem? (substantiate_typeVariable.mp hu))

theorem Built.copy {t : Ty} (h : t.Built types) : t.copy.Built types :=
  fun depth => (h depth).copy

theorem Built.substantiate {A : List Ty} (hA : ∀ a ∈ A, a.Built types) {t u : Ty}
    (h : t.Built types) (hu : t.substantiate A = .ok u) : u.Built types :=
  fun depth => (h depth).substantiate (fun a ha => hA a ha depth) hu

theorem Built.argument {name : String} {ref : Nat} {params : List String} {args : List Ty}
    (h : (basicType name ref params args).Built types) {a : Ty} (ha : a ∈ args) : a.Built types :=
  fun depth => (h (depth + 1)).2 a ha

/-- The fields of a type that is made from the table are made from it. -/
theorem Built.field {name : String} {ref : Nat} {vnames params : List String}
    {fields args : List Ty} (h : (struct name ref vnames fields params args).Built types) {f : Ty}
    (hf : f ∈ fields) : f.Built types :=
  fun depth => (h (depth + 1)).2 f hf

end Ty

section
variable {types : List TypeEntry}

/-! ### Declared types -/

/-- To the depth, the stored types of all fields are made from the table. -/
def StoredTo (types : List TypeEntry) (depth : Nat) : Prop :=
  ∀ (j : Nat) name decs params fieldTypes,
    types[j]? = some (.struct name decs params fieldTypes) →
      ∀ s ∈ fieldTypes, s.BuiltTo types depth

/-- What is looked up goes one level further than the stored types. -/
theorem lookupArgument_builtTo {depth : Nat} (hstored : StoredTo types depth)
    {params : List String} {i : Nat} (T : TypeName) : ∀ {t : Ty},
    lookupArgument types params i T = .ok t → t.BuiltTo types (depth + 1) := by
  induction T using TypeName.induction with
  | mk name args ih =>
      intro t ht
      by_cases hname : name ∈ params
      · rw [lookupArgument, if_pos hname, Except.ok.injEq] at ht
        exact ht ▸ trivial
      · rw [lookupArgument, if_neg hname] at ht
        obtain ⟨j, e, hknown, type, htype, ts, hts, rfl⟩ := (lookupType_eq_ok hname).mp ht
        have hentry := (getKnownType_eq_some hknown).1
        rcases copy_eq_ok htype with
          ⟨name', params', rfl, rfl⟩ | ⟨name', decs, params', fieldTypes, rfl, _, rfl⟩
        · refine ⟨⟨params', hentry⟩, fun t ht => ?_⟩
          obtain ⟨a, ha, hlookup⟩ := forall₂_mem_right hts ht
          exact (ih a ha hlookup).pred
        · refine ⟨⟨decs, params', fieldTypes, hentry, rfl, fun _ => rfl⟩, fun f hf => ?_⟩
          rw [Ty.copyList_eq_map] at hf
          obtain ⟨s, hs, rfl⟩ := List.mem_map.mp hf
          exact (hstored j name' decs params' fieldTypes hentry s hs).copy

theorem lookupType_builtTo {depth : Nat} (hstored : StoredTo types depth) {params : List String}
    {T : TypeName} {t : Ty} (ht : lookupType types params types.length T = .ok t) :
    t.BuiltTo types (depth + 1) := by
  rcases T with ⟨name, args⟩
  by_cases hname : name ∈ params
  · rw [lookupType, if_pos hname] at ht
    split at ht
    · rw [Except.ok.injEq] at ht
      exact ht ▸ trivial
    · cases ht
  · have hargument : lookupArgument types params types.length (.mk name args) = .ok t := by
      rwa [lookupArgument, if_neg hname]
    exact lookupArgument_builtTo hstored (.mk name args) hargument

/-- The type arguments of a looked up type are looked up themselves. -/
theorem typeArguments_builtTo {depth : Nat} (hstored : StoredTo types depth)
    {params : List String} {T : TypeName} {t : Ty}
    (ht : lookupType types params types.length T = .ok t) :
    ∀ a ∈ t.typeArguments, a.BuiltTo types (depth + 1) := by
  rcases T with ⟨name, args⟩
  by_cases hname : name ∈ params
  · rw [lookupType, if_pos hname] at ht
    split at ht
    · rw [Except.ok.injEq] at ht
      subst ht
      exact List.forall_mem_nil _
    · cases ht
  · obtain ⟨j, e, _, type, htype, ts, hts, rfl⟩ := (lookupType_eq_ok hname).mp ht
    have hargs : (type.setTypeArguments ts).typeArguments = ts := by
      rcases copy_eq_ok htype with ⟨_, _, _, rfl⟩ | ⟨_, _, _, _, _, _, rfl⟩
      · rfl
      · rfl
    rw [hargs]
    intro t ht
    obtain ⟨a, _, hlookup⟩ := forall₂_mem_right hts ht
    exact lookupArgument_builtTo hstored a hlookup

theorem typecheckDeclaration_builtTo {depth : Nat} (hstored : StoredTo types depth)
    {params : List String} {d : Declaration} {t : Ty}
    (ht : typecheckDeclaration types params d = .ok t) : t.BuiltTo types (depth + 1) := by
  obtain ⟨type, htype, hrest⟩ := bind_eq_ok.mp ht
  by_cases hargs : type.typeArguments.isEmpty
  · rw [if_pos hargs, pure_eq_ok] at hrest
    exact hrest ▸ lookupType_builtTo hstored htype
  · rw [if_neg hargs] at hrest
    exact (lookupType_builtTo hstored htype).substantiate (typeArguments_builtTo hstored htype)
      hrest

/-- The stored types are types of declarations, so they go one level further as well. -/
theorem storedTo (hfields : ∀ j, FieldsTypedAt types j) (depth : Nat) : StoredTo types depth := by
  induction depth with
  | zero => exact fun _ _ _ _ _ _ _ _ => trivial
  | succ depth ih =>
      intro j name decs params fieldTypes hentry s hs
      obtain ⟨d, _, hd⟩ := forall₂_mem_right (hfields j name decs params fieldTypes hentry) hs
      exact typecheckDeclaration_builtTo ih hd

theorem lookupArgument_built (hfields : ∀ j, FieldsTypedAt types j) {params : List String}
    {i : Nat} {T : TypeName} {t : Ty} (ht : lookupArgument types params i T = .ok t) :
    t.Built types :=
  fun depth => (lookupArgument_builtTo (storedTo hfields depth) T ht).pred

theorem lookupType_built (hfields : ∀ j, FieldsTypedAt types j) {params : List String}
    {T : TypeName} {t : Ty} (ht : lookupType types params types.length T = .ok t) :
    t.Built types :=
  fun depth => (lookupType_builtTo (storedTo hfields depth) ht).pred

theorem typecheckDeclaration_built (hfields : ∀ j, FieldsTypedAt types j) {params : List String}
    {d : Declaration} {t : Ty} (ht : typecheckDeclaration types params d = .ok t) :
    t.Built types :=
  fun depth => (typecheckDeclaration_builtTo (storedTo hfields depth) ht).pred

/-! ### Equal types -/

namespace Ty

/-- `equals` does not look at the fields of a struct. -/
theorem equals_struct {u : Ty} {name name' : String} {j : Nat} {vnames vnames' : List String}
    {fields fields' : List Ty} {params params' : List String} {args : List Ty} :
    u.equals (.struct name j vnames fields params args) =
      u.equals (.struct name' j vnames' fields' params' args) := by
  cases u with
  | basicType => rfl
  | struct => rfl
  | typeVariable => rfl

theorem sameName_comm (t u : Ty) : t.sameName u = u.sameName t := by
  cases t <;> cases u <;> simp [sameName, eq_comm]

/-- `equals` compares the heads and the type arguments. -/
theorem equals_eq (t u : Ty) :
    t.equals u = (t.sameName u && equalsList t.typeArguments u.typeArguments) := by
  cases t with
  | basicType => rfl
  | struct => rfl
  | typeVariable =>
      rw [equals]
      cases u.typeArguments <;> rfl

theorem equalsList_congr {ts ts' : List Ty}
    (h : List.Forall₂ (fun t t' => ∀ u : Ty, u.equals t = u.equals t') ts ts') :
    ∀ us, equalsList us ts = equalsList us ts' := by
  induction h with
  | nil => exact fun _ => rfl
  | cons hab _ ih =>
      intro us
      cases us with
      | nil => rfl
      | cons u us => rw [equalsList, equalsList, hab u, ih us]

/-- `equals` looks at the type arguments of a basic type through `equals` only. -/
theorem equals_basicType {u : Ty} {name : String} {j : Nat} {params : List String}
    {args args' : List Ty}
    (h : List.Forall₂ (fun a a' => ∀ u : Ty, u.equals a = u.equals a') args args') :
    u.equals (.basicType name j params args) = u.equals (.basicType name j params args') := by
  rw [equals_eq, equals_eq, typeArguments, typeArguments, equalsList_congr h]
  cases u <;> rfl

theorem equalsList_comm {ts : List Ty} (h : ∀ t ∈ ts, ∀ u : Ty, t.equals u = u.equals t) :
    ∀ us, equalsList ts us = equalsList us ts := by
  induction ts with
  | nil =>
      intro us
      cases us <;> rfl
  | cons t ts ih =>
      intro us
      cases us with
      | nil => rfl
      | cons u us =>
          rw [equalsList, equalsList, h t List.mem_cons_self u,
            ih fun t ht => h t (List.mem_cons_of_mem _ ht)]

/-- `equals` is symmetric. -/
theorem equals_comm (t : Ty) : ∀ u : Ty, t.equals u = u.equals t := by
  have hstep : ∀ t : Ty, (∀ a ∈ t.typeArguments, ∀ b : Ty, a.equals b = b.equals a) →
      ∀ u : Ty, t.equals u = u.equals t := by
    intro t ih u
    rw [equals_eq t u, equals_eq u t, sameName_comm, equalsList_comm ih]
  induction t using Ty.induction with
  | basicType name ref params args ih => exact hstep _ ih
  | struct name ref vnames fields params args _ ih => exact hstep _ ih
  | typeVariable name index => exact hstep _ (List.forall_mem_nil _)

/-- Where no type variable occurs in the fields of a struct, its types are equal when they have
no type arguments. -/
theorem eq_of_equals_struct {name : String} {j : Nat} {decs : List Declaration}
    {params ps : List String} {fieldTypes : List Ty}
    (hentry : types[j]? = some (.struct name decs params fieldTypes))
    (hclosed : ∀ s ∈ fieldTypes, s.Closed) {u t : Ty}
    (hu : u.forget =
      (Ty.struct name j (decs.map Declaration.vname) (copyList fieldTypes) ps []).forget)
    (ht : t.Built types) (hequals : u.equals t = true) : t.forget = u.forget := by
  rw [← equals_forget, hu, equals_forget] at hequals
  rw [hu]
  cases t with
  | basicType name' ref params' args =>
      simp only [equals, sameName, Bool.and_eq_true, decide_eq_true_eq] at hequals
      obtain ⟨rfl, _⟩ := hequals
      obtain ⟨⟨_, hbasic⟩, _⟩ := ht 1
      rw [hentry] at hbasic
      cases hbasic
  | struct name' ref vnames fields params' args =>
      simp only [equals, sameName, Bool.and_eq_true, decide_eq_true_eq, typeArguments] at hequals
      obtain ⟨rfl, hargs⟩ := hequals
      obtain ⟨⟨decs', params'', fieldTypes', hstruct, rfl, hsame⟩, _⟩ := ht 1
      rw [hentry, Option.some.injEq, TypeEntry.struct.injEq] at hstruct
      obtain ⟨rfl, rfl, rfl, rfl⟩ := hstruct
      obtain rfl := List.forall₂_nil_left_iff.mp (equalsList_iff.mp hargs)
      rw [forget, forget, hsame hclosed]
  | typeVariable name' index => simp [equals, sameName] at hequals

end Ty

/-- A type that is taken for the type of a type expression with closed structs is that type. -/
theorem TypeName.StructsClosed.eq_of_equals (hfields : ∀ j, FieldsTypedAt types j) {T : TypeName}
    (h : T.StructsClosed types) : ∀ {l t : Ty}, lookupArgument types [] types.length T = .ok l →
      t.Built types → l.copy.equals t = true → t.forget = l.copy.forget := by
  induction h with
  | @basicType name args j name' params hentry hinner ih =>
      intro l t hl ht hequals
      obtain ⟨ls, hls, rfl⟩ := (lookupArgument_basicType List.not_mem_nil hentry).mp hl
      have hmem := (getKnownType_eq_some hentry).1
      cases t with
      | basicType name'' ref params' ts =>
          simp only [Ty.copy, Ty.equals, Ty.sameName, Bool.and_eq_true, decide_eq_true_eq,
            Ty.typeArguments] at hequals
          obtain ⟨rfl, hargs⟩ := hequals
          obtain ⟨⟨_, hbasic⟩, _⟩ := ht 1
          rw [hmem, Option.some.injEq, TypeEntry.basicType.injEq] at hbasic
          obtain ⟨rfl, rfl⟩ := hbasic
          rw [Ty.copy, Ty.forget, Ty.forget]
          congr 1
          have hargs := Ty.equalsList_iff.mp hargs
          rw [Ty.copyList_eq_map, List.forall₂_map_left_iff] at hargs
          rw [Ty.forgetList_eq_iff, Ty.copyList_eq_map, List.forall₂_map_right_iff]
          -- Element by element: the type expression, its type, and the type that equals it.
          have hsame : List.Forall₂ (fun l t => t.Built types → t.forget = l.copy.forget)
              ls ts := by
            refine forall₂_imp_mem hargs fun l hl t hequals ht => ?_
            obtain ⟨a, ha, hlookup⟩ := forall₂_mem_right hls hl
            exact ih a ha hlookup ht hequals
          exact forall₂_imp_mem hsame.flip fun t hmem l h => h (ht.argument hmem)
      | struct name'' ref vnames fields params' ts =>
          simp only [Ty.copy, Ty.equals, Ty.sameName, Bool.and_eq_true, decide_eq_true_eq]
            at hequals
          obtain ⟨rfl, _⟩ := hequals
          obtain ⟨⟨_, _, _, hstruct, _⟩, _⟩ := ht 1
          rw [hmem] at hstruct
          cases hstruct
      | typeVariable name'' index => simp [Ty.copy, Ty.equals, Ty.sameName] at hequals
  | @struct name args j name' decs params fieldTypes hentry hclosed =>
      intro l t hl ht hequals
      obtain ⟨ls, _, rfl⟩ := (lookupArgument_struct hfields List.not_mem_nil hentry).mp hl
      have hcopy : (Ty.struct name' j (decs.map Declaration.vname) (Ty.copyList fieldTypes) params
          ls).copy.forget = (Ty.struct name' j (decs.map Declaration.vname) (Ty.copyList fieldTypes)
            params []).forget := by
        rw [Ty.copy, Ty.copyList_copyList]
      exact Ty.eq_of_equals_struct (getKnownType_eq_some hentry).1 hclosed hcopy ht hequals

/-- What takes an argument of the denoted type takes the arguments of this type only. -/
theorem TypeName.StructsClosed.equals_iff (hfields : ∀ j, FieldsTypedAt types j) {T : TypeName}
    (h : T.StructsClosed types) {l : Ty} (hl : lookupArgument types [] types.length T = .ok l)
    {g u t : Ty} (hg : g.forget = l.copy.forget) (hu : u.Built types) (hequals : u.equals g = true)
    (ht : t.Built types) : u.equals t = true ↔ t.forget = g.forget := by
  have hsame : u.forget = l.copy.forget := by
    rw [Ty.equals_comm, ← Ty.equals_forget, hg, Ty.equals_forget] at hequals
    exact h.eq_of_equals hfields hl hu hequals
  rw [hg, ← Ty.equals_forget, hsame, Ty.equals_forget]
  constructor
  · exact h.eq_of_equals hfields hl ht
  · exact fun heq => Ty.equals_of_forget_eq heq.symm

/-- The substantiated types of a ground type expression differ in the fields of structs only, which
`equals` does not see. -/
theorem TypeName.Known.equals_substantiate (hfields : ∀ j, FieldsTypedAt types j) {T : TypeName}
    (h : T.Known types []) {A B : List Ty} : ∀ {t r r' : Ty},
    lookupArgument types [] types.length T = .ok t → t.substantiate A = .ok r →
      t.substantiate B = .ok r' → ∀ u : Ty, u.equals r = u.equals r' := by
  induction h with
  | parameter hname => exact absurd hname List.not_mem_nil
  | @declared name args j e hname hknown hargs ih =>
      intro t r r' ht hr hr' u
      cases e with
      | basicType name' params =>
          obtain ⟨ts, hts, rfl⟩ := (lookupArgument_basicType hname hknown).mp ht
          obtain ⟨rs, hrs, rfl⟩ := Ty.substantiate_basicType.mp hr
          obtain ⟨rs', hrs', rfl⟩ := Ty.substantiate_basicType.mp hr'
          refine Ty.equals_basicType ((forall₂_iff_of_common (forall₂_comp hts hrs)
            (forall₂_comp hts hrs') ?_).mpr fun _ _ => trivial)
          rintro a ha r r' ⟨t, ht, hr⟩ ⟨t', ht', hr'⟩
          obtain rfl : t = t' := Except.ok.inj (ht.symm.trans ht')
          exact iff_of_true (ih a ha ht hr hr') trivial
      | struct name' decs params fieldTypes =>
          obtain ⟨ts, hts, rfl⟩ := (lookupArgument_struct hfields hname hknown).mp ht
          obtain ⟨rs, hrs, rfl⟩ := Ty.substantiate_struct.mp hr
          obtain ⟨rs', hrs', rfl⟩ := Ty.substantiate_struct.mp hr'
          exact Ty.equals_struct

/-- What is taken for the type of a variable is taken for every substantiated type of its type
expression. -/
theorem TypeName.Known.equals_denoted (hfields : ∀ j, FieldsTypedAt types j) {T : TypeName}
    (h : T.Known types []) {t g : Ty} (ht : lookupArgument types [] types.length T = .ok t)
    (hg : T.Denotes types g) {A : List Ty} {r : Ty} (hr : t.substantiate A = .ok r) (u : Ty) :
    u.equals g = u.equals r := by
  rw [TypeName.denotes_iff] at hg
  cases h with
  | parameter hname => exact absurd hname List.not_mem_nil
  | @declared name args j e hname hknown hargs =>
      cases e with
      | basicType name' params =>
          obtain ⟨ts, hts, rfl⟩ := (lookupArgument_basicType hname hknown).mp ht
          obtain ⟨rs, hrs, rfl⟩ := Ty.substantiate_basicType.mp hr
          obtain ⟨ts', us, hts', hus, rfl⟩ :=
            (typecheckDeclaration_basicType rfl hname hknown).mp hg
          refine Ty.equals_basicType ((forall₂_iff_of_common (forall₂_comp hts' hus)
            (forall₂_comp hts hrs) ?_).mpr fun _ _ => trivial)
          rintro a ha u r ⟨t, ht, hu⟩ ⟨t', ht', hr⟩
          obtain rfl : t = t' := Except.ok.inj (ht.symm.trans ht')
          exact iff_of_true ((hargs a ha).equals_substantiate hfields ht hu hr) trivial
      | struct name' decs params fieldTypes =>
          obtain ⟨ts, hts, rfl⟩ := (lookupArgument_struct hfields hname hknown).mp ht
          obtain ⟨rs, hrs, rfl⟩ := Ty.substantiate_struct.mp hr
          by_cases hnil : args = []
          · subst hnil
            obtain rfl := (typecheckDeclaration_struct_nil hfields rfl hname hknown).mp hg
            exact Ty.equals_struct
          · obtain ⟨_, us, _, _, rfl⟩ :=
              (typecheckDeclaration_struct hfields rfl hname hnil hknown).mp hg
            exact Ty.equals_struct

end

end Stabl
