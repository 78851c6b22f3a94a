import Mathlib.Data.List.Forall2

/-!
# `Stabl.Lib.Shape`: trees of one shape

A tree of any kind is given here by its root and the function `children`, and `nodeAt` follows an
address: the child indices on the way to a node, innermost index first. When the nodes of two
trees are related from the root on, child by child, the trees have the same addresses, and the
nodes at each of them are related (`nodeAt_related`). A pass that rebuilds a tree node by node is
an example: its result has the shape of its argument.
-/

set_option autoImplicit false

namespace TreeAddress

variable {α β : Type}

/-! ### Lists of one length -/

/-- Lists that are related element by element are related at every index. -/
theorem rel_getElem? {R : α → β → Prop} {l : List α} {l' : List β} (h : List.Forall₂ R l l')
    (i : Nat) : Option.Rel R l[i]? l'[i]? := by
  induction h generalizing i with
  | nil => exact .none
  | cons hab _ ih =>
      cases i with
      | zero => exact .some hab
      | succ i => exact ih i

theorem exists_left {R : α → β → Prop} {o : Option α} {o' : Option β} (h : Option.Rel R o o')
    {b : β} (hb : o' = some b) : ∃ a, o = some a ∧ R a b := by
  subst hb
  cases h with
  | some hab => exact ⟨_, rfl, hab⟩

theorem exists_right {R : α → β → Prop} {o : Option α} {o' : Option β} (h : Option.Rel R o o')
    {a : α} (ha : o = some a) : ∃ b, o' = some b ∧ R a b := by
  subst ha
  cases h with
  | some hab => exact ⟨_, rfl, hab⟩

theorem rel_imp {R S : α → β → Prop} {o : Option α} {o' : Option β} (h : Option.Rel R o o')
    (himp : ∀ {a b}, R a b → S a b) : Option.Rel S o o' := by
  cases h with
  | none => exact .none
  | some hab => exact .some (himp hab)

theorem rel_trans {γ : Type} {R : α → β → Prop} {S : β → γ → Prop} {T : α → γ → Prop} {o : Option α}
    {o' : Option β} {o'' : Option γ} (h : Option.Rel R o o') (h' : Option.Rel S o' o'')
    (hcomp : ∀ {a b c}, R a b → S b c → T a c) : Option.Rel T o o'' := by
  cases h with
  | none =>
      cases h'
      exact .none
  | some hab =>
      cases h' with
      | some hbc => exact .some (hcomp hab hbc)

/-- Lists with the same values at every index, under two functions, have the same images. -/
theorem map_eq_map_of_rel {γ : Type} {f : α → γ} {g : β → γ} {l : List α} {l' : List β}
    (h : ∀ i : Nat, Option.Rel (fun a b => g b = f a) l[i]? l'[i]?) : l'.map g = l.map f := by
  refine List.ext_getElem? fun i => ?_
  rw [List.getElem?_map, List.getElem?_map]
  have hi := h i
  generalize l[i]? = o at hi ⊢
  generalize l'[i]? = o' at hi ⊢
  cases hi with
  | some hab => exact congrArg some hab
  | none => rfl

/-! ### Trees -/

/-- The node at an address. -/
def nodeAt (children : α → List α) (root : α) : List Nat → Option α
  | [] => some root
  | i :: p => (nodeAt children root p).bind fun a => (children a)[i]?

/-- Inside the node at an address, the addresses go on. -/
theorem nodeAt_append (children : α → List α) (root : α) (q p : List Nat) :
    nodeAt children root (q ++ p) =
      (nodeAt children root p).bind fun a => nodeAt children a q := by
  induction q with
  | nil =>
      show nodeAt children root p = (nodeAt children root p).bind some
      rw [Option.bind_fun_some]
  | cons i q ih =>
      show (nodeAt children root (q ++ p)).bind (fun a => (children a)[i]?) = _
      rw [ih, Option.bind_assoc]
      rfl

/-- Where children are related whenever their parents are, all nodes are related. -/
theorem nodeAt_related {children : α → List α} {children' : β → List β}
    {R : List Nat → α → β → Prop} {root : α} {root' : β}
    (step : ∀ {p a b}, R p a b → ∀ i : Nat,
      Option.Rel (R (i :: p)) (children a)[i]? (children' b)[i]?)
    (hroot : R [] root root') (p : List Nat) :
    Option.Rel (R p) (nodeAt children root p) (nodeAt children' root' p) := by
  induction p with
  | nil => exact .some hroot
  | cons i p ih =>
      rw [nodeAt, nodeAt]
      generalize nodeAt children root p = o at ih ⊢
      generalize nodeAt children' root' p = o' at ih ⊢
      cases ih with
      | none => exact .none
      | some hab => exact step hab i

end TreeAddress
