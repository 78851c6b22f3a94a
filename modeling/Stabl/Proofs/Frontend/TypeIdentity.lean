import Stabl.Proofs.Frontend.Accepted
import Stabl.Proofs.Frontend.Substantiate

/-!
# `Stabl.Proofs.Frontend.TypeIdentity`: when two declared types are equal

`Type.equals` looks at the name of a type and at its type arguments. Before it is stored in a
variable, a type is substantiated, and that drops the type arguments of every struct in it
(`Stripped`). So two variables have equal types when their type expressions are the same
except for the type arguments of structs (`equals_iff_sameOutsideStructs`).
-/

set_option autoImplicit false

namespace Stabl

open Result

section
variable (types : List TypeEntry)

/-! ### Type expressions -/

/-- The type expression is the application of a struct. -/
def TypeName.isStruct (T : TypeName) : Bool :=
  match getKnownType types T types.length with
  | some (_, .struct _ _ _ _) => true
  | _ => false

mutual

/-- The type expressions are the same, except for the type arguments of structs. -/
def sameOutsideStructs : TypeName → TypeName → Bool
  | .mk name args, .mk name' args' =>
    decide (name = name') && args.length == args'.length &&
      (TypeName.isStruct types (.mk name args) || sameOutsideStructsList args args')

/-- The lists of type expressions are the same, except for the type arguments of structs. -/
def sameOutsideStructsList : List TypeName → List TypeName → Bool
  | [], [] => true
  | T :: Ts, U :: Us => sameOutsideStructs T U && sameOutsideStructsList Ts Us
  | _, _ => false

end

variable {types}

theorem sameOutsideStructsList_iff {Ts Us : List TypeName} :
    sameOutsideStructsList types Ts Us = true ↔
    List.Forall₂ (fun T U => sameOutsideStructs types T U = true) Ts Us := by
  induction Ts generalizing Us with
  | nil =>
      cases Us with
      | nil => simp [sameOutsideStructsList]
      | cons U Us => simp [sameOutsideStructsList]
  | cons T Ts ih =>
      cases Us with
      | nil => simp [sameOutsideStructsList]
      | cons U Us => rw [sameOutsideStructsList, Bool.and_eq_true, ih, List.forall₂_cons]

theorem sameOutsideStructs_refl (T : TypeName) : sameOutsideStructs types T T = true := by
  induction T using TypeName.induction with
  | mk name args ih =>
      have hargs : sameOutsideStructsList types args args = true :=
        sameOutsideStructsList_iff.mpr (List.forall₂_same.mpr ih)
      simp [sameOutsideStructs, hargs]

/-! ### Stripped types -/

/-- `t` is a type object for the type expression, and its structs have no type arguments. -/
inductive Stripped (types : List TypeEntry) : TypeName → Ty → Prop where
  | basicType {name name' : String} {args : List TypeName} {j : Nat} {params : List String}
    {ts : List Ty}
      (hknown : getKnownType types (.mk name args) types.length = some (j, .basicType name' params))
      (hargs : List.Forall₂ (Stripped types) args ts) :
      Stripped types (.mk name args) (.basicType name' j params ts)
  | struct {name name' : String} {args : List TypeName} {j : Nat} {decs : List Declaration}
      {params params' vnames : List String} {fieldTypes fields : List Ty}
      (hknown : getKnownType types (.mk name args) types.length =
        some (j, .struct name' decs params fieldTypes)) :
      Stripped types (.mk name args) (.struct name' j vnames fields params' [])

/-- Substantiating a ground type strips it. -/
theorem stripped_of_substantiate {A : List Ty} (T : TypeName) : ∀ {t u : Ty},
    lookupGroundType types T = .ok t → t.substantiate A = .ok u → Stripped types T u := by
  induction T using TypeName.induction with
  | mk name args ih =>
      intro t u ht hu
      have ⟨j, e, hknown, type, htype, ts, hts, heq⟩ := (lookupType_eq_ok List.not_mem_nil).mp ht
      rcases copy_eq_ok htype with
        ⟨name', params, rfl, rfl⟩ | ⟨name', decs, params, fields, rfl, _, rfl⟩
      · subst heq
        have ⟨us, hus, heq⟩ := Ty.substantiate_basicType.mp hu
        subst heq
        refine .basicType hknown ?_
        refine forall₂_imp_mem (forall₂_comp hts hus) fun a ha u ⟨t, hlookup, hsub⟩ => ?_
        rw [lookupArgument_nil] at hlookup
        exact ih a ha hlookup hsub
      · subst heq
        have ⟨fields', _, heq⟩ := Ty.substantiate_struct.mp hu
        subst heq
        exact .struct hknown

/-- The type of a variable is stripped. -/
theorem stripped_of_typecheckDeclaration {dec : Declaration} {t : Ty}
    (h : typecheckDeclaration types [] dec = .ok t) : Stripped types dec.typeName t := by
  have ⟨type, htype, hrest⟩ := bind_eq_ok.mp h
  by_cases hargs : type.typeArguments.isEmpty
  · rw [if_pos hargs, pure_eq_ok] at hrest
    subst hrest
    cases hname : dec.typeName with
    | mk name args =>
        rw [hname] at htype
        have ⟨j, e, hknown, entry, hentry, ts, hts, heq⟩ :=
          (lookupType_eq_ok List.not_mem_nil).mp htype
        -- Without type arguments there is nothing to strip.
        have hnil : ts = [] := by
          have hset : (entry.setTypeArguments ts).typeArguments = ts := by
            refine Ty.setTypeArguments_typeArguments ts fun n i hvar => ?_
            rcases copy_eq_ok hentry with ⟨_, _, _, rfl⟩ | ⟨_, _, _, _, _, _, rfl⟩
            · cases hvar
            · cases hvar
          rw [heq] at hset
          rw [← hset]
          exact List.isEmpty_iff.mp hargs
        subst hnil
        rcases copy_eq_ok hentry with ⟨_, _, rfl, rfl⟩ | ⟨_, _, _, _, rfl, _, rfl⟩
        · subst heq
          have hnone : args = [] := List.forall₂_nil_right_iff.mp hts
          exact .basicType hknown (hnone ▸ .nil)
        · subst heq
          exact .struct hknown
  · rw [if_neg hargs] at hrest
    exact stripped_of_substantiate dec.typeName htype hrest

/-- A stripped type stays stripped. -/
theorem Stripped.substantiate {A : List Ty} (T : TypeName) : ∀ {t u : Ty},
    Stripped types T t → t.substantiate A = .ok u → Stripped types T u := by
  induction T using TypeName.induction with
  | mk name args ih =>
      intro t u ht hu
      cases ht with
      | basicType hknown hargs =>
          obtain ⟨us, hus, rfl⟩ := Ty.substantiate_basicType.mp hu
          refine .basicType hknown (forall₂_imp_mem (forall₂_comp hargs hus) ?_)
          rintro a ha u ⟨t, ht, hu⟩
          exact ih a ha ht hu
      | struct hknown =>
          obtain ⟨us, _, rfl⟩ := Ty.substantiate_struct.mp hu
          exact .struct hknown

/-- A basic type equals a stripped one when its type arguments do. -/
theorem Stripped.equals_basicType {name : String} {args : List TypeName} {j : Nat}
    {name' : String} {params : List String}
    (hknown : getKnownType types (.mk name args) types.length = some (j, .basicType name' params))
    {g : Ty} (hg : Stripped types (.mk name args) g) :
    ∃ gs, List.Forall₂ (Stripped types) args gs ∧ ∀ {params' : List String} {ws : List Ty},
      (Ty.basicType name' j params' ws).equals g = true ↔
        List.Forall₂ (fun w g => w.equals g = true) ws gs := by
  cases hg with
  | struct hknown' =>
      rw [hknown] at hknown'
      cases hknown'
  | basicType hknown' hargs =>
      rw [hknown, Option.some.injEq, Prod.mk.injEq] at hknown'
      obtain ⟨rfl, _⟩ := hknown'
      refine ⟨_, hargs, fun {params' ws} => ?_⟩
      rw [Ty.equals, Ty.sameName, decide_eq_true rfl, Bool.true_and, Ty.typeArguments,
        Ty.equalsList_iff]

/-- What `equals` sees of stripped types is what the type expressions are outside the type
arguments of structs. -/
theorem equals_iff_sameOutsideStructs (T : TypeName) : ∀ {U : TypeName} {t u : Ty},
    Stripped types T t → Stripped types U u →
      (t.equals u = true ↔ sameOutsideStructs types T U = true) := by
  induction T using TypeName.induction with
  | mk name args ih =>
      intro U t u ht hu
      cases ht with
      | basicType hknown hargs =>
          have hstruct : TypeName.isStruct types (.mk name args) = false := by
            rw [TypeName.isStruct, hknown]
          cases hu with
          | basicType hknown' hargs' =>
              rw [Ty.equals, Ty.sameName, sameOutsideStructs, hstruct, Bool.false_or,
                Bool.and_eq_true,
                Bool.and_eq_true, Bool.and_eq_true, decide_eq_true_eq, decide_eq_true_eq,
                  beq_iff_eq,
                (getKnownType_ref_iff hknown hknown').1, Ty.typeArguments, Ty.equalsList_iff,
                sameOutsideStructsList_iff]
              refine and_congr_right fun _ => forall₂_iff_of_related hargs ?_ hargs'
              intro a ha _ _ _ ht hu
              exact ih a ha ht hu
          | struct hknown' =>
              -- A basic type and a struct are different entries.
              obtain ⟨href, hentry⟩ := getKnownType_ref_iff hknown hknown'
              have hne : _ ≠ _ := fun hj => by cases hentry hj
              rw [Ty.equals, Ty.sameName, decide_eq_false hne, sameOutsideStructs]
              refine iff_of_false (by simp) fun h => ?_
              simp only [Bool.and_eq_true, decide_eq_true_eq, beq_iff_eq] at h
              exact hne (href.mpr h.1)
      | struct hknown =>
          have hstruct : TypeName.isStruct types (.mk name args) = true := by
            rw [TypeName.isStruct, hknown]
          cases hu with
          | basicType hknown' hargs' =>
              obtain ⟨href, hentry⟩ := getKnownType_ref_iff hknown hknown'
              have hne : _ ≠ _ := fun hj => by cases hentry hj
              rw [Ty.equals, Ty.sameName, decide_eq_false hne, sameOutsideStructs]
              refine iff_of_false (by simp) fun h => ?_
              simp only [Bool.and_eq_true, decide_eq_true_eq, beq_iff_eq] at h
              exact hne (href.mpr h.1)
          | struct hknown' =>
              rw [Ty.equals, Ty.sameName, sameOutsideStructs, hstruct, Bool.true_or, Bool.and_true,
                Bool.and_eq_true, Bool.and_eq_true, decide_eq_true_eq, decide_eq_true_eq,
                  beq_iff_eq,
                (getKnownType_ref_iff hknown hknown').1, Ty.typeArguments]
              exact and_iff_left rfl

end

/-! ### Variables of a statechart -/

/-- The types of two variables are equal exactly when their type expressions are the same,
and so is an assignment of one to the other accepted. -/
def TypesIdentified (sc : Declared) (v₁ v₂ : Declaration) : Prop :=
  (∃ t₁ t₂, typecheckDeclaration sc.types [] v₁ = .ok t₁ ∧
    typecheckDeclaration sc.types [] v₂ = .ok t₂ ∧
      (t₁.equals t₂ = true ↔ v₁.typeName = v₂.typeName)) ∧
    ∀ renv wenv n₁ n₂ r₁ r₂ x₁ x₂, sc.locateName n₁ wenv = some ((r₁, v₁), [x₁]) →
      sc.locateName n₂ renv = some ((r₂, v₂), [x₂]) →
        ((sc.typecheckStatement renv wenv (.assignmentStatement n₁ (.name n₂))).isOk = true ↔
          v₁.typeName = v₂.typeName)

/-- A name has the type at the end of its field path, below the type of its variable. -/
theorem typecheckName_path {sc : Declared} {n : Path} {env : Environment} {r : DeclarationRef}
    {v : Declaration} {path : Path} {t u : Ty} (hn : sc.locateName n env = some ((r, v), path))
    (ht : typecheckDeclaration sc.types [] v = .ok t) (hu : Declared.getTypeOfName path t = .ok u) :
    sc.typecheckName n env = .ok (⟨n, r⟩, u) := by
  have hne : n.isEmpty = false := by
    cases n with
    | nil => simp [Declared.locateName] at hn
    | cons first rest => rfl
  rw [Declared.typecheckName, if_neg (by simp [hne]), hn]
  show (typecheckDeclaration sc.types [] v >>= fun type => _) = _
  rw [ht]
  show (Declared.getTypeOfName path t >>= fun type => _) = _
  rw [hu]
  rfl

/-- A name of a whole variable has the type of the variable. -/
theorem typecheckName_variable {sc : Declared} {n : Path} {env : Environment} {r : DeclarationRef}
    {v : Declaration} {x : String} {t : Ty} (hn : sc.locateName n env = some ((r, v), [x]))
    (ht : typecheckDeclaration sc.types [] v = .ok t) : sc.typecheckName n env = .ok (⟨n, r⟩, t) :=
  typecheckName_path hn ht rfl

/-- An assignment between variables is accepted when their types are equal. -/
theorem typecheckStatement_assignment {sc : Declared} {renv wenv : Environment} {n₁ n₂ : Path}
    {r₁ r₂ : DeclarationRef} {t₁ t₂ : Ty} (h₁ : sc.typecheckName n₁ wenv = .ok (⟨n₁, r₁⟩, t₁))
    (h₂ : sc.typecheckName n₂ renv = .ok (⟨n₂, r₂⟩, t₂)) :
    (sc.typecheckStatement renv wenv (.assignmentStatement n₁ (.name n₂))).isOk = t₁.equals t₂ := by
  rw [Declared.typecheckStatement, h₁, Declared.typecheckExpression, h₂]
  show (require (t₁.equals t₂) _ >>= fun _ => _).isOk = t₁.equals t₂
  cases t₁.equals t₂ with
  | true => rfl
  | false => rfl

/-- For any two variables of an accepted statechart: equality of their types is equality of
their type expressions, unless these differ in the type arguments of structs only. -/
theorem typesIdentified_iff {statechart : Statechart} {sc : Declared}
    (hsc : typecheckDeclarations statechart = .ok sc) {p₁ p₂ : StateRef} {v₁ v₂ : Declaration}
    (hv₁ : v₁ ∈ sc.root.declarationsAt p₁) (hv₂ : v₂ ∈ sc.root.declarationsAt p₂) :
    TypesIdentified sc v₁ v₂ ↔
      (sameOutsideStructs sc.types v₁.typeName v₂.typeName = true → v₁.typeName = v₂.typeName) := by
  have ⟨t₁, ht₁⟩ := Declared.typecheckDeclaration_of_mem hsc hv₁
  have ⟨t₂, ht₂⟩ := Declared.typecheckDeclaration_of_mem hsc hv₂
  have hequals : t₁.equals t₂ = true ↔ sameOutsideStructs sc.types v₁.typeName v₂.typeName = true :=
    equals_iff_sameOutsideStructs v₁.typeName (stripped_of_typecheckDeclaration ht₁)
      (stripped_of_typecheckDeclaration ht₂)
  constructor
  · rintro ⟨⟨u₁, u₂, hu₁, hu₂, hiff⟩, _⟩ hsame
    obtain rfl : t₁ = u₁ := Except.ok.inj (ht₁.symm.trans hu₁)
    obtain rfl : t₂ = u₂ := Except.ok.inj (ht₂.symm.trans hu₂)
    exact hiff.mp (hequals.mpr hsame)
  · intro hsame
    have hiff : t₁.equals t₂ = true ↔ v₁.typeName = v₂.typeName := by
      rw [hequals]
      exact ⟨hsame, fun heq => heq ▸ sameOutsideStructs_refl _⟩
    refine ⟨⟨t₁, t₂, ht₁, ht₂, hiff⟩, fun renv wenv n₁ n₂ r₁ r₂ x₁ x₂ hn₁ hn₂ => ?_⟩
    rw [typecheckStatement_assignment (typecheckName_variable hn₁ ht₁)
      (typecheckName_variable hn₂ ht₂)]
    exact hiff

/-- The result of the passes over the declarations, for a statechart that they accept. -/
def declared (statechart : Statechart) : Declared :=
  getD (typecheckDeclarations statechart) ⟨statechart.root, [], [], []⟩

/-- Two parcels with boxes of one kind, and two maps of different kinds. -/
def parcels : Statechart where
  root := { plainState "Parcels" with
    declarations := ⟨[
      ⟨"a", .localScope, .mk "list" [.mk "Box" [.mk "int" []]], false⟩,
      ⟨"b", .localScope, .mk "list" [.mk "Box" [.mk "int" []]], false⟩,
      ⟨"m", .localScope, .mk "map" [.mk "int" [], .mk "boolean" []], false⟩,
      ⟨"n", .localScope, .mk "map" [.mk "boolean" [], .mk "int" []], false⟩], by decide⟩ }
  moreTypes := [.basicType "list" ["A"], .basicType "map" ["A", "B"],
    .struct "Box" ⟨[⟨"content", .localScope, .mk "A" [], false⟩], by decide⟩ ["A"]]
  events := []
  functionDeclarations := []
  initialised := by decide

/-- The parcels have one type, and the maps have two. -/
theorem typesIdentified_iff_parcels :
    TypesIdentified (declared parcels)
        ⟨"a", .localScope, .mk "list" [.mk "Box" [.mk "int" []]], false⟩
        ⟨"b", .localScope, .mk "list" [.mk "Box" [.mk "int" []]], false⟩ ∧
      TypesIdentified (declared parcels)
        ⟨"m", .localScope, .mk "map" [.mk "int" [], .mk "boolean" []], false⟩
        ⟨"n", .localScope, .mk "map" [.mk "boolean" [], .mk "int" []], false⟩ := by
  have hdeclared : typecheckDeclarations parcels = .ok (declared parcels) :=
    eq_ok_getD (by decide) _
  have hmem : ∀ {i v}, ((declared parcels).root.declarationsAt [])[i]? = some v →
      v ∈ (declared parcels).root.declarationsAt [] := List.mem_of_getElem?
  refine ⟨(typesIdentified_iff hdeclared (hmem (i := 0) rfl) (hmem (i := 1) rfl)).mpr fun _ => rfl,
    (typesIdentified_iff hdeclared (hmem (i := 2) rfl) (hmem (i := 3) rfl)).mpr fun hsame => ?_⟩
  exact absurd hsame (by decide)

/-- Two boxes with different contents, and two numbers. -/
def boxes : Statechart where
  root := { plainState "Boxes" with
    declarations := ⟨[
      ⟨"a", .localScope, .mk "Box" [.mk "int" []], false⟩,
      ⟨"b", .localScope, .mk "Box" [.mk "boolean" []], false⟩,
      integerVariable "m" .localScope,
      integerVariable "n" .localScope], by decide⟩
    entry := .statementList [.assignmentStatement ["a"] (.name ["b"])] }
  moreTypes := [.struct "Box" ⟨[⟨"content", .localScope, .mk "A" [], false⟩], by decide⟩ ["A"]]
  events := []
  functionDeclarations := []
  initialised := by decide

theorem boxes_declared : typecheckDeclarations boxes = .ok (declared boxes) :=
  eq_ok_getD (by decide) _

/-- Types are identified by their type expressions. -/
def TypesAreIdentified (statechart : Statechart) : Prop :=
  ∀ sc, typecheckDeclarations statechart = .ok sc → ∀ p₁ p₂ v₁ v₂,
    v₁ ∈ sc.root.declarationsAt p₁ → v₂ ∈ sc.root.declarationsAt p₂ → TypesIdentified sc v₁ v₂

/-- A box of a boolean is assigned to a box of a number. -/
theorem not_typesAreIdentified_boxes :
    (typecheck boxes).isOk = true ∧ ¬ TypesAreIdentified boxes := by
  refine ⟨by decide, fun h => ?_⟩
  have hidentified := h _ boxes_declared [] [] ⟨"a", .localScope, .mk "Box" [.mk "int" []], false⟩
    ⟨"b", .localScope, .mk "Box" [.mk "boolean" []], false⟩ (List.mem_of_getElem? (i := 0) rfl)
    (List.mem_of_getElem? (i := 1) rfl)
  have hassigned :=
    (hidentified.2 (getEnvironment boxes.root []) (getEnvironment boxes.root []) ["a"] ["b"]
    ⟨[], "a"⟩ ⟨[], "b"⟩ "a" "b" rfl rfl).mp (by decide)
  simp at hassigned

end Stabl
