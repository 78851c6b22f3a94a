import Stabl.Proofs.Frontend.Substantiate

/-!
# `Stabl.Proofs.Frontend.TypeVariables`: type variables and what replaces them

`substantiate` comes to the type variables of a type (`typeVariables`). It succeeds when there is
an argument for each of them (`exists_substantiate_iff`), and with two lists of arguments it
gives the same type exactly when the lists agree on them (`forget_substantiate_iff`). A type
without type variables stays as it is, except that the structs in it lose their type arguments,
as they do in a copy (`forget_substantiate_of_closed`).

Types are compared up to their lists of type parameter names (`forget`): `substantiate` empties
the list of a struct and `copy` keeps it, and once a type is looked up nothing reads it.
-/

set_option autoImplicit false

namespace Stabl

open Result

namespace Ty

/-! ### The type variables of a type -/

mutual

/-- The type variables that `substantiate` comes to, in their order. It does not look at the type
arguments of a struct. -/
def typeVariables : Ty → List Nat
  | .basicType _ _ _ args => typeVariablesOfList args
  | .struct _ _ _ fields _ _ => typeVariablesOfList fields
  | .typeVariable _ index => [index]

/-- The type variables of a list of types. -/
def typeVariablesOfList : List Ty → List Nat
  | [] => []
  | t :: ts => t.typeVariables ++ typeVariablesOfList ts

end

theorem typeVariablesOfList_eq (ts : List Ty) :
    typeVariablesOfList ts = ts.flatMap typeVariables := by
  induction ts with
  | nil => rfl
  | cons t ts ih => rw [typeVariablesOfList, ih, List.flatMap_cons]

theorem typeVariablesOfList_copyList {ts : List Ty}
    (h : ∀ t ∈ ts, t.copy.typeVariables = t.typeVariables) :
    typeVariablesOfList (copyList ts) = typeVariablesOfList ts := by
  rw [typeVariablesOfList_eq, typeVariablesOfList_eq, copyList_eq_map, List.flatMap_map]
  exact List.flatMap_congr h

/-- A copy has the same type variables. -/
theorem typeVariables_copy (t : Ty) : t.copy.typeVariables = t.typeVariables := by
  induction t using Ty.induction with
  | basicType name ref params args ih => exact typeVariablesOfList_copyList ih
  | struct name ref vnames fields params args ih => exact typeVariablesOfList_copyList ih
  | typeVariable name index => rfl

/-- Substantiating succeeds when there is an argument for each type variable. -/
theorem exists_substantiate_iff {A : List Ty} (t : Ty) :
    (∃ u, t.substantiate A = .ok u) ↔ ∀ k ∈ t.typeVariables, k < A.length := by
  have hlist : ∀ ts : List Ty,
      (∀ t ∈ ts, (∃ u, t.substantiate A = .ok u) ↔ ∀ k ∈ t.typeVariables, k < A.length) →
      ((∃ us, List.Forall₂ (fun t u => t.substantiate A = .ok u) ts us) ↔
        ∀ k ∈ typeVariablesOfList ts, k < A.length) := by
    intro ts ih
    rw [exists_forall₂_iff, typeVariablesOfList_eq]
    simp only [List.mem_flatMap]
    constructor
    · rintro h k ⟨t, ht, hk⟩
      exact (ih t ht).mp (h t ht) k hk
    · intro h t ht
      exact (ih t ht).mpr fun k hk => h k ⟨t, ht, hk⟩
  induction t using Ty.induction with
  | basicType name ref params args ih =>
      rw [typeVariables, ← hlist args ih]
      simp only [substantiate_basicType]
      constructor
      · rintro ⟨u, us, hus, _⟩
        exact ⟨us, hus⟩
      · rintro ⟨us, hus⟩
        exact ⟨_, us, hus, rfl⟩
  | struct name ref vnames fields params args ih =>
      rw [typeVariables, ← hlist fields ih]
      simp only [substantiate_struct]
      constructor
      · rintro ⟨u, us, hus, _⟩
        exact ⟨us, hus⟩
      · rintro ⟨us, hus⟩
        exact ⟨_, us, hus, rfl⟩
  | typeVariable name index =>
      simp only [substantiate_typeVariable, typeVariables, List.mem_singleton, forall_eq]
      constructor
      · rintro ⟨u, hu⟩
        exact (List.getElem?_eq_some_iff.mp hu).1
      · exact fun hk => ⟨_, List.getElem?_eq_getElem hk⟩

/-- The type variables that come to the places of `indices`, when the argument at the index `k`
has the type variables `args[k]`. -/
def replaced (args : List (List Nat)) (indices : List Nat) : List Nat :=
  indices.flatMap fun k => args.getD k []

/-- Each type variable is replaced by those of its argument. -/
theorem typeVariables_of_substantiate {A : List Ty} (t : Ty) : ∀ {u : Ty},
    t.substantiate A = .ok u →
      u.typeVariables = replaced (A.map typeVariables) t.typeVariables := by
  have hlist : ∀ ts : List Ty,
      (∀ t ∈ ts, ∀ {u : Ty}, t.substantiate A = .ok u →
        u.typeVariables = replaced (A.map typeVariables) t.typeVariables) →
      ∀ us, List.Forall₂ (fun t u => t.substantiate A = .ok u) ts us →
        typeVariablesOfList us = replaced (A.map typeVariables) (typeVariablesOfList ts) := by
    intro ts ih us hus
    induction hus with
    | nil => rfl
    | cons hu _ ih' =>
        rw [typeVariablesOfList, typeVariablesOfList, ih _ List.mem_cons_self hu,
          ih' fun t ht => ih t (List.mem_cons_of_mem _ ht), replaced, replaced, replaced,
          List.flatMap_append]
  induction t using Ty.induction with
  | basicType name ref params args ih =>
      intro u hu
      obtain ⟨us, hus, heq⟩ := substantiate_basicType.mp hu
      subst heq
      exact hlist args ih us hus
  | struct name ref vnames fields params args ih =>
      intro u hu
      obtain ⟨us, hus, heq⟩ := substantiate_struct.mp hu
      subst heq
      exact hlist fields ih us hus
  | typeVariable name index =>
      intro u hu
      have harg := substantiate_typeVariable.mp hu
      rw [typeVariables, replaced, List.flatMap_singleton, List.getD_eq_getElem?_getD,
        List.getElem?_map, harg]
      rfl

theorem mem_typeVariablesOfList {index : Nat} {ts : List Ty} :
    index ∈ typeVariablesOfList ts ↔ ∃ t ∈ ts, index ∈ t.typeVariables := by
  rw [typeVariablesOfList_eq, List.mem_flatMap]

@[simp] theorem mem_typeVariables_basicType {index : Nat} {name : String} {ref : Nat}
    {params : List String} {args : List Ty} :
    index ∈ (basicType name ref params args).typeVariables ↔
      ∃ a ∈ args, index ∈ a.typeVariables := by
  rw [typeVariables, mem_typeVariablesOfList]

@[simp] theorem mem_typeVariables_struct {index : Nat} {name : String} {ref : Nat}
    {vnames params : List String} {fields args : List Ty} :
    index ∈ (struct name ref vnames fields params args).typeVariables ↔
      ∃ f ∈ fields, index ∈ f.typeVariables := by
  rw [typeVariables, mem_typeVariablesOfList]

@[simp] theorem mem_typeVariables_typeVariable {index index' : Nat} {name : String} :
    index ∈ (typeVariable name index').typeVariables ↔ index' = index := by
  rw [typeVariables, List.mem_singleton]
  exact eq_comm

/-- The type variables of the result come from the arguments of those that are replaced. -/
theorem mem_typeVariables_substantiate {A : List Ty} {index : Nat} {t u : Ty}
    (hu : t.substantiate A = .ok u) : index ∈ u.typeVariables ↔
      ∃ i a, i ∈ t.typeVariables ∧ A[i]? = some a ∧ index ∈ a.typeVariables := by
  rw [typeVariables_of_substantiate t hu, replaced, List.mem_flatMap]
  refine exists_congr fun i => ?_
  rw [List.getD_eq_getElem?_getD, List.getElem?_map]
  cases A[i]? with
  | none => simp
  | some a => simp

/-- No type variable occurs in the type. -/
def Closed (t : Ty) : Prop := ∀ index, index ∉ t.typeVariables

/-- A struct with copied fields is closed when the fields are. -/
theorem closed_struct_copyList {name : String} {ref : Nat} {vnames params : List String}
    {fields args : List Ty} :
    (struct name ref vnames (copyList fields) params args).Closed ↔
      ∀ f ∈ fields, f.Closed := by
  simp only [Closed, mem_typeVariables_struct, copyList_eq_map, List.mem_map,
    exists_exists_and_eq_and, typeVariables_copy, not_exists, not_and]
  exact ⟨fun h f hf index => h index f hf, fun h index f hf => h f hf index⟩

/-! ### Copies -/

theorem copy_copy (t : Ty) : t.copy.copy = t.copy := by
  induction t using Ty.induction with
  | basicType name ref params args ih =>
      simp only [copy, copyList_eq_map, List.map_map]
      rw [List.map_congr_left (f := copy ∘ copy) ih]
  | struct name ref vnames fields params args ih =>
      simp only [copy, copyList_eq_map, List.map_map]
      rw [List.map_congr_left (f := copy ∘ copy) ih]
  | typeVariable name i => rfl

theorem copyList_copyList (ts : List Ty) : copyList (copyList ts) = copyList ts := by
  rw [copyList_eq_map, copyList_eq_map, List.map_map]
  exact List.map_congr_left fun t _ => copy_copy t

/-- What a copy has lost, substantiating drops as well. -/
theorem substantiate_copy {A : List Ty} (t : Ty) : ∀ {u : Ty},
    t.copy.substantiate A = .ok u ↔ t.substantiate A = .ok u := by
  have hchildren : ∀ {ts us : List Ty},
      (∀ t ∈ ts, ∀ {u : Ty}, t.copy.substantiate A = .ok u ↔ t.substantiate A = .ok u) →
      (List.Forall₂ (fun t u => t.substantiate A = .ok u) (copyList ts) us ↔
        List.Forall₂ (fun t u => t.substantiate A = .ok u) ts us) := by
    intro ts us ih
    rw [copyList_eq_map, List.forall₂_map_left_iff]
    constructor
    · exact fun h => forall₂_imp_mem h fun t ht u hu => (ih t ht).mp hu
    · exact fun h => forall₂_imp_mem h fun t ht u hu => (ih t ht).mpr hu
  induction t using Ty.induction with
  | basicType name ref params args ih =>
      intro u
      simp only [copy, substantiate_basicType, hchildren ih]
  | struct name ref vnames fields params args ih =>
      intro u
      simp only [copy, substantiate_struct, hchildren ih]
  | typeVariable name i => exact Iff.rfl

/-- The copies of a list are substantiated like the list. -/
theorem forall₂_substantiate_copyList {A ts us : List Ty} :
    List.Forall₂ (fun t u => t.substantiate A = .ok u) (copyList ts) us ↔
      List.Forall₂ (fun t u => t.substantiate A = .ok u) ts us := by
  rw [copyList_eq_map, List.forall₂_map_left_iff]
  simp only [substantiate_copy]

/-! ### Types up to their type parameter names -/

mutual

/-- The type without the names of type parameters that it was declared with. -/
def forget : Ty → Ty
  | .basicType name ref _ args => .basicType name ref [] (forgetList args)
  | .struct name ref vnames fields _ args =>
    .struct name ref vnames (forgetList fields) [] (forgetList args)
  | .typeVariable name index => .typeVariable name index

/-- The types without the names of type parameters. -/
def forgetList : List Ty → List Ty
  | [] => []
  | t :: ts => t.forget :: forgetList ts

end

theorem forgetList_eq_map (ts : List Ty) : forgetList ts = ts.map forget := by
  induction ts with
  | nil => rfl
  | cons t ts ih => rw [forgetList, ih, List.map_cons]

theorem forgetList_eq_iff {ts us : List Ty} :
    forgetList ts = forgetList us ↔ List.Forall₂ (fun t u => t.forget = u.forget) ts us := by
  rw [forgetList_eq_map, forgetList_eq_map, ← List.forall₂_eq_eq_eq, List.forall₂_map_left_iff,
    List.forall₂_map_right_iff]

theorem typeVariablesOfList_forgetList {ts : List Ty}
    (h : ∀ t ∈ ts, t.forget.typeVariables = t.typeVariables) :
    typeVariablesOfList (forgetList ts) = typeVariablesOfList ts := by
  rw [typeVariablesOfList_eq, typeVariablesOfList_eq, forgetList_eq_map, List.flatMap_map]
  exact List.flatMap_congr h

/-- Forgetting changes no type variable. -/
theorem typeVariables_forget (t : Ty) : t.forget.typeVariables = t.typeVariables := by
  induction t using Ty.induction with
  | basicType name ref params args ih => exact typeVariablesOfList_forgetList ih
  | struct name ref vnames fields params args ih => exact typeVariablesOfList_forgetList ih
  | typeVariable name index => rfl

/-- Equal types have the same type variables. -/
theorem typeVariables_congr {t u : Ty} (h : t.forget = u.forget) :
    t.typeVariables = u.typeVariables := by
  rw [← typeVariables_forget t, h, typeVariables_forget u]

theorem copy_forget (t : Ty) : t.forget.copy = t.copy.forget := by
  induction t using Ty.induction with
  | basicType name ref params args ih =>
      simp only [forget, copy, forgetList_eq_map, copyList_eq_map, List.map_map]
      exact congrArg _ (List.map_congr_left ih)
  | struct name ref vnames fields params args ih =>
      simp only [forget, copy, forgetList_eq_map, copyList_eq_map, List.map_map, List.map_nil]
      rw [List.map_congr_left (f := copy ∘ forget) (g := forget ∘ copy) ih]
  | typeVariable name i => rfl

/-- Equal types have equal copies. -/
theorem copy_congr {t u : Ty} (h : t.forget = u.forget) : t.copy.forget = u.copy.forget := by
  rw [← copy_forget, h, copy_forget]

theorem sameName_forget (t u : Ty) : t.forget.sameName u.forget = t.sameName u := by
  cases t <;> cases u <;> rfl

theorem typeArguments_forget (t : Ty) : t.forget.typeArguments = forgetList t.typeArguments := by
  cases t <;> rfl

/-- `equals` does not look at the names of type parameters. -/
theorem equals_forget (t : Ty) : ∀ u : Ty, t.forget.equals u.forget = t.equals u := by
  have hchildren : ∀ {ts : List Ty}, (∀ t ∈ ts, ∀ u : Ty, t.forget.equals u.forget = t.equals u) →
      ∀ us, equalsList (forgetList ts) (forgetList us) = equalsList ts us := by
    intro ts ih
    induction ts with
    | nil =>
        intro us
        cases us <;> rfl
    | cons t ts ihs =>
        intro us
        cases us with
        | nil => rfl
        | cons u us =>
            rw [forgetList, forgetList, equalsList, equalsList, ih t List.mem_cons_self u,
              ihs fun t ht => ih t (List.mem_cons_of_mem _ ht)]
  induction t using Ty.induction with
  | basicType name ref params args ih =>
      intro u
      have hname := sameName_forget (.basicType name ref params args) u
      rw [forget] at hname ⊢
      rw [equals, equals, hname, typeArguments_forget, hchildren ih]
  | struct name ref vnames fields params args _ ih =>
      intro u
      have hname := sameName_forget (.struct name ref vnames fields params args) u
      rw [forget] at hname ⊢
      rw [equals, equals, hname, typeArguments_forget, hchildren ih]
  | typeVariable name index =>
      intro u
      have hname := sameName_forget (.typeVariable name index) u
      rw [forget] at hname ⊢
      rw [equals, equals, hname, typeArguments_forget]
      cases u.typeArguments <;> rfl

/-- Equal types are taken for equal. -/
theorem equals_of_forget_eq {t u : Ty} (h : t.forget = u.forget) : t.equals u = true := by
  rw [← equals_forget, h]
  exact equals_refl _

/-- With two lists of arguments: the results are equal exactly when the lists agree on the type
variables that occur. -/
theorem forget_substantiate_iff {A B : List Ty} (t : Ty) : ∀ {u v : Ty},
    t.substantiate A = .ok u → t.substantiate B = .ok v →
      (u.forget = v.forget ↔
        ∀ index, index ∈ t.typeVariables → (A[index]?).map forget = (B[index]?).map forget) := by
  have hchildren : ∀ {ts us vs : List Ty},
      List.Forall₂ (fun t u => t.substantiate A = .ok u) ts us →
      List.Forall₂ (fun t v => t.substantiate B = .ok v) ts vs →
      (∀ t ∈ ts, ∀ {u v : Ty}, t.substantiate A = .ok u → t.substantiate B = .ok v →
        (u.forget = v.forget ↔
          ∀ index, index ∈ t.typeVariables → (A[index]?).map forget = (B[index]?).map forget)) →
      (forgetList us = forgetList vs ↔
        ∀ index, (∃ t ∈ ts, index ∈ t.typeVariables) →
          (A[index]?).map forget = (B[index]?).map forget) := by
    intro ts us vs hus hvs ih
    rw [forgetList_eq_iff, forall₂_iff_of_common hus hvs fun t ht u v hu hv => ih t ht hu hv]
    constructor
    · rintro h index ⟨t, ht, hmem⟩
      exact h t ht index hmem
    · intro h t ht index hmem
      exact h index ⟨t, ht, hmem⟩
  induction t using Ty.induction with
  | basicType name ref params args ih =>
      intro u v hu hv
      obtain ⟨us, hus, rfl⟩ := substantiate_basicType.mp hu
      obtain ⟨vs, hvs, rfl⟩ := substantiate_basicType.mp hv
      simp only [forget, mem_typeVariables_basicType, ← hchildren hus hvs ih, basicType.injEq,
        true_and]
  | struct name ref vnames fields params args ih =>
      intro u v hu hv
      obtain ⟨us, hus, rfl⟩ := substantiate_struct.mp hu
      obtain ⟨vs, hvs, rfl⟩ := substantiate_struct.mp hv
      simp only [forget, mem_typeVariables_struct, ← hchildren hus hvs ih, struct.injEq, true_and,
        and_true]
  | typeVariable name index =>
      intro u v hu hv
      rw [substantiate_typeVariable] at hu hv
      simp only [mem_typeVariables_typeVariable, forall_eq', hu, hv, Option.map_some,
        Option.some.injEq]

/-! ### Types that substantiating leaves as they are -/

/-- The structs in the type have no type arguments: a copy is as good as the type. -/
def Bare (t : Ty) : Prop := t.copy.forget = t.forget

theorem bare_copy (t : Ty) : t.copy.Bare := by
  rw [Bare, copy_copy]

theorem Bare.congr {t u : Ty} (h : t.Bare) (heq : t.forget = u.forget) : u.Bare :=
  (copy_congr heq).symm.trans (h.trans heq)

theorem bare_basicType {name : String} {ref : Nat} {params : List String} {args : List Ty} :
    (basicType name ref params args).Bare ↔ ∀ a ∈ args, a.Bare := by
  simp only [Bare, copy, forget, copyList_eq_map, forgetList_eq_map, List.map_map,
    basicType.injEq, true_and]
  exact List.map_inj_left

theorem bare_struct {name : String} {ref : Nat} {vnames params : List String} {fields : List Ty} :
    (struct name ref vnames fields params []).Bare ↔ ∀ f ∈ fields, f.Bare := by
  simp only [Bare, copy, forget, copyList_eq_map, forgetList_eq_map, List.map_map,
    struct.injEq, true_and, and_true]
  exact List.map_inj_left

/-- With bare arguments, substantiating leaves a bare type. -/
theorem bare_substantiate {A : List Ty} (hA : ∀ a ∈ A, a.Bare) (t : Ty) : ∀ {u : Ty},
    t.substantiate A = .ok u → u.Bare := by
  induction t using Ty.induction with
  | basicType name ref params args ih =>
      intro u hu
      obtain ⟨us, hus, rfl⟩ := substantiate_basicType.mp hu
      refine bare_basicType.mpr fun u hu => ?_
      obtain ⟨a, ha, hsub⟩ := forall₂_mem_right hus hu
      exact ih a ha hsub
  | struct name ref vnames fields params args ih =>
      intro u hu
      obtain ⟨us, hus, rfl⟩ := substantiate_struct.mp hu
      refine bare_struct.mpr fun u hu => ?_
      obtain ⟨f, hf, hsub⟩ := forall₂_mem_right hus hu
      exact ih f hf hsub
  | typeVariable name index =>
      intro u hu
      exact hA u (List.mem_of_getElem? (substantiate_typeVariable.mp hu))

/-- Without type variables there is nothing to substantiate, but structs lose their type
arguments. -/
theorem forget_substantiate_of_closed {A : List Ty} (t : Ty) : ∀ {u : Ty}, t.Closed →
    t.substantiate A = .ok u → u.forget = t.copy.forget := by
  induction t using Ty.induction with
  | basicType name ref params args ih =>
      intro u hclosed hu
      obtain ⟨us, hus, rfl⟩ := substantiate_basicType.mp hu
      have hargs : List.Forall₂ (fun a u => u.forget = a.copy.forget) args us :=
        forall₂_imp_mem hus fun a ha u hu =>
          ih a ha
            (fun index hmem => hclosed index (mem_typeVariables_basicType.mpr ⟨a, ha, hmem⟩)) hu
      simp only [copy, forget, copyList_eq_map, forgetList_eq_map, List.map_map]
      rw [map_eq_map_of_forall₂ (f := forget ∘ copy) hargs]
  | struct name ref vnames fields params args ih =>
      intro u hclosed hu
      obtain ⟨us, hus, rfl⟩ := substantiate_struct.mp hu
      have hfields : List.Forall₂ (fun f u => u.forget = f.copy.forget) fields us :=
        forall₂_imp_mem hus fun f hf u hu =>
          ih f hf (fun index hmem => hclosed index (mem_typeVariables_struct.mpr ⟨f, hf, hmem⟩)) hu
      simp only [copy, forget, copyList_eq_map, forgetList_eq_map, List.map_map]
      rw [map_eq_map_of_forall₂ (f := forget ∘ copy) hfields]
  | typeVariable name index =>
      intro u hclosed _
      exact absurd (mem_typeVariables_typeVariable.mpr rfl) (hclosed index)

theorem Closed.exists_substantiate {t : Ty} (h : t.Closed) (A : List Ty) :
    ∃ u, t.substantiate A = .ok u :=
  (exists_substantiate_iff t).mpr fun index hmem => absurd hmem (h index)

/-- A closed and bare type stays as it is. -/
theorem Closed.substantiate {t : Ty} (h : t.Closed) (hbare : t.Bare) (A : List Ty) :
    ∃ u, t.substantiate A = .ok u ∧ u.forget = t.forget := by
  obtain ⟨u, hu⟩ := h.exists_substantiate A
  exact ⟨u, hu, (forget_substantiate_of_closed t h hu).trans hbare⟩

/-- When arguments that are no type variables change nothing, there was no type variable. -/
theorem closed_of_forget_substantiate {A : List Ty}
    (hA : ∀ a ∈ A, ∀ name index, a ≠ .typeVariable name index) (t : Ty) : ∀ {u : Ty},
    t.substantiate A = .ok u → u.forget = t.copy.forget → t.Closed := by
  induction t using Ty.induction with
  | basicType name ref params args ih =>
      intro u hu hsame index hmem
      obtain ⟨us, hus, rfl⟩ := substantiate_basicType.mp hu
      obtain ⟨a, ha, hmem⟩ := mem_typeVariables_basicType.mp hmem
      simp only [copy, forget, basicType.injEq, true_and, copyList_eq_map] at hsame
      have hargs := forgetList_eq_iff.mp hsame
      rw [List.forall₂_map_right_iff] at hargs
      obtain ⟨u, hsub, heq⟩ := List.forall₂_same.mp (forall₂_comp hus hargs) a ha
      exact ih a ha hsub heq index hmem
  | struct name ref vnames fields params args ih =>
      intro u hu hsame index hmem
      obtain ⟨us, hus, rfl⟩ := substantiate_struct.mp hu
      obtain ⟨f, hf, hmem⟩ := mem_typeVariables_struct.mp hmem
      simp only [copy, forget, struct.injEq, true_and, and_true, copyList_eq_map] at hsame
      have hfields := forgetList_eq_iff.mp hsame
      rw [List.forall₂_map_right_iff] at hfields
      obtain ⟨u, hsub, heq⟩ := List.forall₂_same.mp (forall₂_comp hus hfields) f hf
      exact ih f hf hsub heq index hmem
  | typeVariable name index =>
      intro u hu hsame
      have hmem := List.mem_of_getElem? (substantiate_typeVariable.mp hu)
      cases u with
      | typeVariable name' index' => exact absurd rfl (hA _ hmem name' index')
      | basicType name' ref params args => cases hsame
      | struct name' ref vnames fields params args => cases hsame

/-- Arguments that are no type variables change nothing exactly when there is no type variable. -/
theorem substantiate_eq_copy_iff {A : List Ty}
    (hA : ∀ a ∈ A, ∀ name index, a ≠ .typeVariable name index) {t : Ty} :
    (∃ u, t.substantiate A = .ok u ∧ u.forget = t.copy.forget) ↔ t.Closed := by
  constructor
  · rintro ⟨u, hu, heq⟩
    exact closed_of_forget_substantiate hA t hu heq
  · intro h
    obtain ⟨u, hu⟩ := h.exists_substantiate A
    exact ⟨u, hu, forget_substantiate_of_closed t h hu⟩

end Ty

end Stabl
