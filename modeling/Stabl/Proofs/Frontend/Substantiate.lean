import Stabl.Frontend.Typechecker
import Stabl.Lib.Result

/-!
# `Stabl.Proofs.Frontend.Substantiate`: looking types up and instantiating them

Rules for `lookupType` and `substantiate`, on lists element by element. Type expressions and
types are trees with lists of children, so each has its own induction rule.

Two substitutions in a row are one, with the substantiated arguments
(`substantiate_substantiate`).
-/

set_option autoImplicit false

namespace Stabl

open Result

/-! ### Induction -/

mutual

/-- Induction over a type expression. -/
theorem TypeName.induction {motive : TypeName → Prop}
    (mk : ∀ name args, (∀ a ∈ args, motive a) → motive (.mk name args)) : ∀ T, motive T
  | .mk name args => mk name args (TypeName.inductionList mk args)

theorem TypeName.inductionList {motive : TypeName → Prop}
    (mk : ∀ name args, (∀ a ∈ args, motive a) → motive (.mk name args)) :
    ∀ (args : List TypeName), ∀ a ∈ args, motive a
  | [] => List.forall_mem_nil _
  | T :: args => List.forall_mem_cons.mpr ⟨TypeName.induction mk T, TypeName.inductionList mk args⟩

end

namespace Ty

mutual

/-- Induction over a type. -/
theorem induction {motive : Ty → Prop}
    (basicType : ∀ name ref params args, (∀ a ∈ args, motive a) →
      motive (.basicType name ref params args))
    (struct : ∀ name ref vnames fields params args, (∀ f ∈ fields, motive f) →
      (∀ a ∈ args, motive a) →
      motive (.struct name ref vnames fields params args))
    (typeVariable : ∀ name index, motive (.typeVariable name index)) : ∀ t, motive t
  | .basicType name ref params args =>
      basicType name ref params args (inductionList basicType struct typeVariable args)
  | .struct name ref vnames fields params args =>
      struct name ref vnames fields params args (inductionList basicType struct typeVariable fields)
        (inductionList basicType struct typeVariable args)
  | .typeVariable name index => typeVariable name index

theorem inductionList {motive : Ty → Prop}
    (basicType : ∀ name ref params args, (∀ a ∈ args, motive a) →
      motive (.basicType name ref params args))
    (struct : ∀ name ref vnames fields params args, (∀ f ∈ fields, motive f) →
      (∀ a ∈ args, motive a) →
      motive (.struct name ref vnames fields params args))
    (typeVariable : ∀ name index, motive (.typeVariable name index)) :
    ∀ (ts : List Ty), ∀ t ∈ ts, motive t
  | [] => List.forall_mem_nil _
  | t :: ts => List.forall_mem_cons.mpr ⟨induction basicType struct typeVariable t,
      inductionList basicType struct typeVariable ts⟩

end

/-! ### Lists of types -/

theorem argument_eq_ok {typeArguments : List Ty} {index : Nat} {t : Ty} :
    argument typeArguments index = .ok t ↔ typeArguments[index]? = some t := by
  unfold argument
  cases typeArguments[index]? with
  | none => simp
  | some a => simp

theorem substantiate_typeVariable {typeArguments : List Ty} {name : String} {index : Nat} {t : Ty} :
    (typeVariable name index).substantiate typeArguments = .ok t ↔
      typeArguments[index]? = some t := by
  rw [substantiate]
  cases typeArguments[index]? with
  | none => simp
  | some a => simp

/-- A list is substantiated element by element. -/
theorem substantiateList_eq_ok {typeArguments ts us : List Ty} :
    substantiateList typeArguments ts = .ok us ↔
      List.Forall₂ (fun t u => t.substantiate typeArguments = .ok u) ts us := by
  induction ts generalizing us with
  | nil =>
      rw [substantiateList, pure_eq_ok, List.forall₂_nil_left_iff]
      exact eq_comm
  | cons t ts ih =>
      -- The loop treats a type variable by itself, with the same result.
      have hstep : substantiateList typeArguments (t :: ts) = .ok us ↔
          ∃ u, t.substantiate typeArguments = .ok u ∧
            ∃ rest, substantiateList typeArguments ts = .ok rest ∧ u :: rest = us := by
        cases t with
        | typeVariable name index =>
            simp only [substantiateList, bind_eq_ok, pure_eq_ok, argument_eq_ok,
              substantiate_typeVariable]
        | basicType name ref params args =>
            simp only [substantiateList, bind_eq_ok, pure_eq_ok]
        | struct name ref vnames fields params args =>
            simp only [substantiateList, bind_eq_ok, pure_eq_ok]
      rw [hstep]
      constructor
      · rintro ⟨u, hu, rest, hrest, rfl⟩
        exact .cons hu (ih.mp hrest)
      · intro h
        cases h with
        | cons hu hrest => exact ⟨_, hu, _, ih.mpr hrest, rfl⟩

theorem substantiate_basicType {typeArguments : List Ty} {name : String} {ref : Nat}
    {params : List String} {args : List Ty} {t : Ty} :
    (basicType name ref params args).substantiate typeArguments = .ok t ↔
      ∃ args', List.Forall₂ (fun a a' => a.substantiate typeArguments = .ok a') args args' ∧
        basicType name ref params args' = t := by
  simp only [substantiate, bind_eq_ok, pure_eq_ok, substantiateList_eq_ok]

theorem substantiate_struct {typeArguments : List Ty} {name : String} {ref : Nat}
    {vnames params : List String} {fields args : List Ty} {t : Ty} :
    (struct name ref vnames fields params args).substantiate typeArguments = .ok t ↔
      ∃ fields', List.Forall₂ (fun f f' => f.substantiate typeArguments = .ok f') fields fields' ∧
        struct name ref vnames fields' [] [] = t := by
  simp only [substantiate, bind_eq_ok, pure_eq_ok, substantiateList_eq_ok]

theorem copyList_eq_map (ts : List Ty) : copyList ts = ts.map copy := by
  induction ts with
  | nil => rfl
  | cons t ts ih => rw [copyList, ih, List.map_cons]

/-- Lists of types are compared element by element. -/
theorem equalsList_iff {ts us : List Ty} :
    equalsList ts us = true ↔ List.Forall₂ (fun t u => t.equals u = true) ts us := by
  induction ts generalizing us with
  | nil =>
      cases us with
      | nil => simp [equalsList]
      | cons u us => simp [equalsList]
  | cons t ts ih =>
      cases us with
      | nil => simp [equalsList]
      | cons u us => rw [equalsList, Bool.and_eq_true, ih, List.forall₂_cons]

theorem setTypeArguments_typeArguments {t : Ty} (args : List Ty)
    (h : ∀ name index, t ≠ .typeVariable name index) :
    (t.setTypeArguments args).typeArguments = args := by
  cases t with
  | basicType name ref params args => rfl
  | struct name ref vnames fields params args => rfl
  | typeVariable name index => exact absurd rfl (h name index)

/-- Substantiating twice is substantiating once, with substantiated arguments. -/
theorem substantiate_substantiate {A A' B : List Ty}
    (hA : List.Forall₂ (fun a a' => a.substantiate B = .ok a') A A') (t : Ty) :
    ∀ {u : Ty}, t.substantiate A = .ok u →
      ∃ v, u.substantiate B = .ok v ∧ t.substantiate A' = .ok v := by
  induction t using Ty.induction with
  | basicType name ref params args ih =>
      intro u hu
      have ⟨us, hus, heq⟩ := substantiate_basicType.mp hu
      subst heq
      have ⟨vs, hleft, hright⟩ := exists_forall₂_both hus ih
      exact ⟨_, substantiate_basicType.mpr ⟨vs, hleft, rfl⟩,
        substantiate_basicType.mpr ⟨vs, hright, rfl⟩⟩
  | struct name ref vnames fields params args ih =>
      intro u hu
      have ⟨us, hus, heq⟩ := substantiate_struct.mp hu
      subst heq
      have ⟨vs, hleft, hright⟩ := exists_forall₂_both hus ih
      exact ⟨_, substantiate_struct.mpr ⟨vs, hleft, rfl⟩, substantiate_struct.mpr ⟨vs, hright, rfl⟩⟩
  | typeVariable name index =>
      intro u hu
      have hget := substantiate_typeVariable.mp hu
      have ⟨hlt, helem⟩ := List.getElem?_eq_some_iff.mp hget
      have ⟨hlength, hall⟩ := List.forall₂_iff_get.mp hA
      have hindex := hall index hlt (by omega)
      rw [List.get_eq_getElem, helem] at hindex
      exact ⟨_, hindex, substantiate_typeVariable.mpr (List.getElem?_eq_getElem (by omega))⟩

/-- Types are equal to themselves. -/
theorem equals_refl (t : Ty) : t.equals t = true := by
  induction t using Ty.induction with
  | basicType name ref params args ih =>
      have hargs : equalsList args args = true := equalsList_iff.mpr (List.forall₂_same.mpr ih)
      simp [equals, sameName, typeArguments, hargs]
  | struct name ref vnames fields params args _ ih =>
      have hargs : equalsList args args = true := equalsList_iff.mpr (List.forall₂_same.mpr ih)
      simp [equals, sameName, typeArguments, hargs]
  | typeVariable name index => simp [equals, sameName, typeArguments]

end Ty

/-! ### Known types -/

/-- A known type is the entry at its index, and the expression is an application of it. -/
theorem getKnownType_eq_some {types : List TypeEntry} {T : TypeName} {i j : Nat} {e : TypeEntry}
    (h : getKnownType types T i = some (j, e)) : types[j]? = some e ∧ e.name = T.name ∧
      e.typeParameterNames.length = T.typeArgumentNames.length := by
  unfold getKnownType at h
  dsimp only at h
  split at h
  · rename_i j' e' hj he
    simp only [Option.some.injEq, Prod.mk.injEq] at h
    obtain ⟨rfl, rfl⟩ := h
    have hknown := List.find?_some he
    simp only [Bool.and_eq_true, decide_eq_true_eq, beq_iff_eq] at hknown
    rw [List.find?_eq_some_iff_getElem] at he
    have ⟨_, k, hk, hget, hbefore⟩ := he
    have hj := List.findIdx?_eq_some_iff_getElem.mp hj
    have ⟨hlt, hp, hfirst⟩ := hj
    -- Both searches stop at the first entry that is known.
    have hkj : k = j' := by
      rcases Nat.lt_trichotomy k j' with hlt' | heq | hgt
      · have hno := hfirst k hlt'
        rw [hget] at hno
        simp [hknown.1, hknown.2] at hno
      · exact heq
      · have hno := hbefore j' hgt
        rw [hp] at hno
        cases hno
    subst hkj
    refine ⟨?_, hknown.1, hknown.2⟩
    have hlt' : k < types.length := by
      rw [List.length_take] at hk
      omega
    rw [List.getElem?_eq_getElem hlt', ← hget, List.getElem_take]
  · cases h

/-- The name and the number of arguments decide which entry it is. -/
theorem getKnownType_congr {types : List TypeEntry} {T T' : TypeName} (i : Nat)
    (hname : T.name = T'.name)
    (hlength : T.typeArgumentNames.length = T'.typeArgumentNames.length) :
    getKnownType types T i = getKnownType types T' i := by
  unfold getKnownType
  rw [hname, hlength]

theorem getKnownType_map {types : List TypeEntry} (name : String) (args : List TypeName)
    (f : TypeName → TypeName) (i : Nat) :
    getKnownType types (.mk name (args.map f)) i = getKnownType types (.mk name args) i :=
  getKnownType_congr i rfl (by simp [TypeName.typeArgumentNames])

/-- Known types have the same entry when name and number of arguments agree. -/
theorem getKnownType_ref_iff {types : List TypeEntry} {T T' : TypeName} {i j j' : Nat}
    {e e' : TypeEntry}
    (h : getKnownType types T i = some (j, e)) (h' : getKnownType types T' i = some (j', e')) :
    (j = j' ↔ T.name = T'.name ∧ T.typeArgumentNames.length = T'.typeArgumentNames.length) ∧
      (j = j' → e = e') := by
  have ⟨hget, hname, hlength⟩ := getKnownType_eq_some h
  have ⟨hget', hname', hlength'⟩ := getKnownType_eq_some h'
  have hentry : j = j' → e = e' := by
    intro hj
    rw [hj, hget', Option.some.injEq] at hget
    exact hget.symm
  refine ⟨⟨fun hj => ?_, fun ⟨hn, hl⟩ => ?_⟩, hentry⟩
  · have he := hentry hj
    subst he
    exact ⟨hname.symm.trans hname', hlength.symm.trans hlength'⟩
  · rw [getKnownType_congr i hn hl, h'] at h
    exact (Prod.mk.inj (Option.some.inj h)).1.symm

/-- The copy of an entry is an application without arguments yet. -/
theorem copy_eq_ok {e : TypeEntry} {j : Nat} {t : Ty} (h : e.copy j = .ok t) :
    (∃ name params, e = .basicType name params ∧ t = .basicType name j params []) ∨
      ∃ name decs params fieldTypes, e = .struct name decs params fieldTypes ∧
        fieldTypes.length = decs.length ∧
        t = .struct name j (decs.map Declaration.vname) (Ty.copyList fieldTypes) params [] := by
  cases e with
  | basicType name params =>
      rw [TypeEntry.copy, Except.ok.injEq] at h
      exact Or.inl ⟨name, params, rfl, h.symm⟩
  | struct name decs params fieldTypes =>
      rw [TypeEntry.copy] at h
      by_cases hlength : fieldTypes.length = decs.length
      · rw [if_pos hlength, Except.ok.injEq] at h
        exact Or.inr ⟨name, decs, params, fieldTypes, rfl, hlength, h.symm⟩
      · rw [if_neg hlength] at h
        cases h

/-! ### Looking types up -/

/-- One turn of the loop of `lookupType` over the type arguments. -/
def lookupArgument (types : List TypeEntry) (params : List String) (i : Nat) : TypeName → Check Ty
  | .mk name args =>
    if name ∈ params then .ok (.typeVariable name (params.idxOf name))
    else lookupType types params i (.mk name args)

/-- The type arguments are looked up one by one. -/
theorem lookupTypes_eq_ok {types : List TypeEntry} {params : List String} {i : Nat}
    {args : List TypeName} {ts : List Ty} : lookupTypes types params i args = .ok ts ↔
      List.Forall₂ (fun a t => lookupArgument types params i a = .ok t) args ts := by
  induction args generalizing ts with
  | nil =>
      rw [lookupTypes, pure_eq_ok, List.forall₂_nil_left_iff]
      exact eq_comm
  | cons T args ih =>
      have hstep : lookupTypes types params i (T :: args) = .ok ts ↔
          ∃ t, lookupArgument types params i T = .ok t ∧
            ∃ rest, lookupTypes types params i args = .ok rest ∧ t :: rest = ts := by
        cases T with
        | mk name targs =>
            rw [lookupTypes, lookupArgument]
            split
            · simp only [bind_eq_ok, pure_eq_ok, Except.ok.injEq, exists_eq_left']
            · simp only [bind_eq_ok, pure_eq_ok]
      rw [hstep]
      constructor
      · rintro ⟨t, ht, rest, hrest, rfl⟩
        exact .cons ht (ih.mp hrest)
      · intro h
        cases h with
        | cons ht hrest => exact ⟨_, ht, _, ih.mpr hrest, rfl⟩

/-- The lookup of a type expression that is no type parameter. -/
theorem lookupType_eq_ok {types : List TypeEntry} {params : List String} {i : Nat} {name : String}
    {args : List TypeName} (hname : name ∉ params) {t : Ty} :
    lookupType types params i (.mk name args) = .ok t ↔
      ∃ j e, getKnownType types (.mk name args) i = some (j, e) ∧ ∃ type, e.copy j = .ok type ∧
        ∃ ts, List.Forall₂ (fun a t => lookupArgument types params i a = .ok t) args ts ∧
          type.setTypeArguments ts = t := by
  rw [lookupType, if_neg hname]
  cases hknown : getKnownType types (.mk name args) i with
  | none => simp
  | some known =>
      simp only [bind_eq_ok, pure_eq_ok, lookupTypes_eq_ok, Option.some.injEq]
      constructor
      · rintro ⟨type, htype, ts, hts, heq⟩
        exact ⟨known.1, known.2, rfl, type, htype, ts, hts, heq⟩
      · rintro ⟨j, e, hje, type, htype, ts, hts, heq⟩
        subst hje
        exact ⟨type, htype, ts, hts, heq⟩

/-- Without type parameters an argument is looked up like any type. -/
theorem lookupArgument_nil (types : List TypeEntry) (i : Nat) (T : TypeName) :
    lookupArgument types [] i T = lookupType types [] i T := by
  cases T
  rw [lookupArgument, if_neg List.not_mem_nil]

end Stabl
