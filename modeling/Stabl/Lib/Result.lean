import Mathlib.Data.List.Forall2

/-!
# `Stabl.Lib.Result`: computations that may fail

`Except` computations that succeed, split into their parts. A bind that succeeds is two
successes (`bind_eq_ok`), a map over a list succeeds element by element (`mapM_eq_ok`),
and what every step of a fold preserves, a successful fold preserves
(`foldlM_preserves`). A fold that fails does so at some step, after steps that succeeded
(`foldlM_fails_at`).
-/

set_option autoImplicit false

namespace Result

variable {ε α β : Type}

/-- A bind that succeeds, split into its two halves. -/
theorem bind_eq_ok {x : Except ε α} {f : α → Except ε β} {b : β} :
    (x >>= f) = .ok b ↔ ∃ a, x = .ok a ∧ f a = .ok b := by
  cases x with
  | error e => simp [bind, Except.bind]
  | ok a => simp [bind, Except.bind]

/-- A bind that fails: the first half failed, or the second one did. -/
theorem bind_eq_error {x : Except ε α} {f : α → Except ε β} {e : ε} :
    (x >>= f) = .error e ↔ x = .error e ∨ ∃ a, x = .ok a ∧ f a = .error e := by
  cases x with
  | error e' => simp [bind, Except.bind]
  | ok a => simp [bind, Except.bind]

@[simp] theorem pure_eq_ok {a b : α} : (pure a : Except ε α) = .ok b ↔ a = b := by
  simp [pure, Except.pure]

/-- A map succeeds when it succeeds on every element, with the results in order. -/
theorem mapM_eq_ok {f : α → Except ε β} {l : List α} {l' : List β} :
    l.mapM f = .ok l' ↔ List.Forall₂ (fun a b => f a = .ok b) l l' := by
  induction l generalizing l' with
  | nil =>
      rw [List.mapM_nil, pure_eq_ok, List.forall₂_nil_left_iff]
      exact eq_comm
  | cons a l ih =>
      rw [List.mapM_cons, bind_eq_ok]
      constructor
      · rintro ⟨b, hb, hrest⟩
        obtain ⟨bs, hbs, heq⟩ := bind_eq_ok.mp hrest
        rw [pure_eq_ok] at heq
        exact heq ▸ .cons hb (ih.mp hbs)
      · intro h
        cases h with
        | cons hb hbs => exact ⟨_, hb, bind_eq_ok.mpr ⟨_, ih.mpr hbs, rfl⟩⟩

/-- A loop succeeds only when every one of its steps does. -/
theorem forM_eq_ok {f : α → Except ε Unit} {l : List α} {u : Unit} (h : l.forM f = .ok u) {a : α}
    (ha : a ∈ l) : ∃ u, f a = .ok u := by
  induction l generalizing u with
  | nil => cases ha
  | cons b l ih =>
      have ⟨u₀, hfirst, hrest⟩ := bind_eq_ok.mp h
      rcases List.mem_cons.mp ha with rfl | ha
      · exact ⟨u₀, hfirst⟩
      · exact ih hrest ha

/-- A loop succeeds when each of its steps does. -/
theorem forM_ok {f : α → Except ε Unit} {l : List α} (h : ∀ a ∈ l, f a = .ok ()) :
    l.forM f = .ok () := by
  induction l with
  | nil => rfl
  | cons a l ih =>
      exact bind_eq_ok.mpr ⟨(), h a List.mem_cons_self, ih fun b hb =>
        h b (List.mem_cons_of_mem _ hb)⟩

/-- Related lists stay related when the relation is weakened on the elements of the first. -/
theorem forall₂_imp_mem {R S : α → β → Prop} {l : List α} {l' : List β} (h : List.Forall₂ R l l')
    (himp : ∀ a ∈ l, ∀ b, R a b → S a b) : List.Forall₂ S l l' := by
  induction h with
  | nil => exact .nil
  | cons hab _ ih =>
      exact .cons (himp _ List.mem_cons_self _ hab) (ih fun a ha =>
        himp a (List.mem_cons_of_mem _ ha))

/-- Every element of a list is related to something exactly when the list is related to a list. -/
theorem exists_forall₂_iff {R : α → β → Prop} {l : List α} :
    (∃ l', List.Forall₂ R l l') ↔ ∀ a ∈ l, ∃ b, R a b := by
  induction l with
  | nil => exact iff_of_true ⟨[], .nil⟩ (List.forall_mem_nil _)
  | cons a l ih =>
      rw [List.forall_mem_cons, ← ih]
      constructor
      · rintro ⟨l', h⟩
        cases h with
        | cons hab h => exact ⟨⟨_, hab⟩, _, h⟩
      · rintro ⟨⟨b, hab⟩, l', h⟩
        exact ⟨b :: l', .cons hab h⟩

/-- Two maps agree on lists whose elements have the same images in pairs. -/
theorem map_eq_map_of_forall₂ {γ : Type} {f : α → γ} {g : β → γ} {l : List α} {l' : List β}
    (h : List.Forall₂ (fun a b => g b = f a) l l') : l'.map g = l.map f := by
  induction h with
  | nil => rfl
  | cons hab _ ih => rw [List.map_cons, List.map_cons, hab, ih]

/-- The results of a list are unique. -/
theorem forall₂_unique {f : α → Except ε β} {l : List α} {l' l'' : List β}
    (h : List.Forall₂ (fun a b => f a = .ok b) l l')
    (h' : List.Forall₂ (fun a b => f a = .ok b) l l'') :
    l' = l'' := by
  induction h generalizing l'' with
  | nil =>
      cases h'
      rfl
  | cons hab _ ih =>
      cases h' with
      | cons hab' h' => rw [Except.ok.inj (hab.symm.trans hab'), ih h']

/-- A step of two ways that meet, element by element. -/
theorem exists_forall₂_both {γ : Type} {R : α → β → Prop} {S : β → γ → Prop} {T : α → γ → Prop}
    {l : List α} {l' : List β} (h : List.Forall₂ R l l')
    (hmeet : ∀ a ∈ l, ∀ {b}, R a b → ∃ c, S b c ∧ T a c) :
    ∃ l'', List.Forall₂ S l' l'' ∧ List.Forall₂ T l l'' := by
  induction h with
  | nil => exact ⟨[], .nil, .nil⟩
  | cons hab _ ih =>
      have ⟨c, hbc, hac⟩ := hmeet _ List.mem_cons_self hab
      have ⟨cs, hleft, hright⟩ := ih fun a ha => hmeet a (List.mem_cons_of_mem _ ha)
      exact ⟨c :: cs, .cons hbc hleft, .cons hac hright⟩

/-- What each element of a list and its result meet in, in two more lists that are related. -/
theorem exists_forall₂_square {γ δ : Type} {R : α → β → Prop} {S : β → γ → Prop} {T : α → δ → Prop}
    {E : γ → δ → Prop} {l : List α} {l' : List β} (h : List.Forall₂ R l l')
    (hmeet : ∀ a ∈ l, ∀ {b}, R a b → ∃ c d, S b c ∧ T a d ∧ E c d) :
    ∃ cs ds, List.Forall₂ S l' cs ∧ List.Forall₂ T l ds ∧ List.Forall₂ E cs ds := by
  induction h with
  | nil => exact ⟨[], [], .nil, .nil, .nil⟩
  | cons hab _ ih =>
      have ⟨c, d, hbc, had, hcd⟩ := hmeet _ List.mem_cons_self hab
      have ⟨cs, ds, hleft, hright, hboth⟩ := ih fun a ha => hmeet a (List.mem_cons_of_mem _ ha)
      exact ⟨c :: cs, d :: ds, .cons hbc hleft, .cons had hright, .cons hcd hboth⟩

/-- Two lists of results of one list are related element by element exactly when every element
of that list says so. -/
theorem forall₂_iff_of_common {γ : Type} {R : α → β → Prop} {S : α → γ → Prop} {E : β → γ → Prop}
    {P : α → Prop} {l : List α} {l' : List β} {l'' : List γ} (h : List.Forall₂ R l l')
    (h' : List.Forall₂ S l l'') (hiff : ∀ a ∈ l, ∀ b c, R a b → S a c → (E b c ↔ P a)) :
    List.Forall₂ E l' l'' ↔ ∀ a ∈ l, P a := by
  induction h generalizing l'' with
  | nil =>
      cases h'
      simp
  | cons hab _ ih =>
      cases h' with
      | cons hac h' =>
          rw [List.forall₂_cons, List.forall_mem_cons, hiff _ List.mem_cons_self _ _ hab hac,
            ih h' fun a ha => hiff a (List.mem_cons_of_mem _ ha)]

/-- Two lists that are related to two others member by member: a relation between them holds
exactly when one between the others does. -/
theorem forall₂_iff_of_related {γ δ : Type} {R : α → β → Prop} {S : γ → δ → Prop} {E : β → δ → Prop}
    {F : α → γ → Prop} {as : List α} {bs : List β} (h : List.Forall₂ R as bs) :
    (∀ a ∈ as, ∀ b c d, R a b → S c d → (E b d ↔ F a c)) → ∀ {cs : List γ} {ds : List δ},
      List.Forall₂ S cs ds → (List.Forall₂ E bs ds ↔ List.Forall₂ F as cs) := by
  induction h with
  | nil =>
      intro _ cs ds h'
      cases h' with
      | nil => exact iff_of_true .nil .nil
      | cons => exact iff_of_false nofun nofun
  | cons hab _ ih =>
      intro hiff cs ds h'
      cases h' with
      | nil => exact iff_of_false nofun nofun
      | cons hcd hrest =>
          rw [List.forall₂_cons, List.forall₂_cons, hiff _ List.mem_cons_self _ _ _ hab hcd,
            ih (fun a ha => hiff a (List.mem_cons_of_mem _ ha)) hrest]

/-- Lists that are related through a middle one. -/
theorem forall₂_comp {γ : Type} {R : α → β → Prop} {S : β → γ → Prop} {as : List α} {bs : List β}
    {cs : List γ} (h : List.Forall₂ R as bs) (h' : List.Forall₂ S bs cs) :
    List.Forall₂ (fun a c => ∃ b, R a b ∧ S b c) as cs := by
  induction h generalizing cs with
  | nil =>
      cases h'
      exact .nil
  | cons hab _ ih =>
      cases h' with
      | cons hbc h' => exact .cons ⟨_, hab, hbc⟩ (ih h')

/-- Two relations of lists are one. -/
theorem forall₂_and {R S : α → β → Prop} {l : List α} {l' : List β} (h : List.Forall₂ R l l')
    (h' : List.Forall₂ S l l') : List.Forall₂ (fun a b => R a b ∧ S a b) l l' := by
  induction h with
  | nil => exact .nil
  | cons hab _ ih =>
      cases h' with
      | cons hab' h' => exact .cons ⟨hab, hab'⟩ (ih h')

/-- The results of two lists that are related element by element, in terms of the elements of a list
that both come from. -/
theorem exists_forall₂_pair_iff {β' γ δ : Type} {R : α → β → Prop} {R' : α → β' → Prop}
    {S : β → γ → Prop} {S' : β' → δ → Prop} {E : γ → δ → Prop} {P : α → Prop} {l : List α}
    {bs : List β} (h : List.Forall₂ R l bs) : ∀ {bs' : List β'}, List.Forall₂ R' l bs' →
    (∀ a ∈ l, ∀ b b', R a b → R' a b' → ((∃ c d, S b c ∧ S' b' d ∧ E c d) ↔ P a)) →
    ((∃ cs ds, List.Forall₂ S bs cs ∧ List.Forall₂ S' bs' ds ∧ List.Forall₂ E cs ds) ↔
      ∀ a ∈ l, P a) := by
  induction h with
  | nil =>
      intro bs' h' _
      cases h'
      exact iff_of_true ⟨[], [], .nil, .nil, .nil⟩ (List.forall_mem_nil _)
  | cons hab _ ih =>
      intro bs' h' hiff
      cases h' with
      | cons hab' h' =>
          rw [List.forall_mem_cons, ← ih h' fun a ha => hiff a (List.mem_cons_of_mem _ ha),
            ← hiff _ List.mem_cons_self _ _ hab hab']
          constructor
          · rintro ⟨cs, ds, hcs, hds, hes⟩
            cases hcs with
            | cons hc hcs =>
                cases hds with
                | cons hd hds =>
                    cases hes with
                    | cons he hes => exact ⟨⟨_, _, hc, hd, he⟩, _, _, hcs, hds, hes⟩
          · rintro ⟨⟨c, d, hc, hd, he⟩, cs, ds, hcs, hds, hes⟩
            exact ⟨c :: cs, d :: ds, .cons hc hcs, .cons hd hds, .cons he hes⟩
/-- An element on the right of related lists is related to one on the left. -/
theorem forall₂_mem_right {R : α → β → Prop} {l : List α} {l' : List β}
    (h : List.Forall₂ R l l') {b : β} (hb : b ∈ l') : ∃ a ∈ l, R a b := by
  induction h with
  | nil => simp at hb
  | cons hab _ ih =>
      rcases List.mem_cons.mp hb with rfl | hb
      · exact ⟨_, List.mem_cons_self, hab⟩
      · obtain ⟨a, ha, hR⟩ := ih hb
        exact ⟨a, List.mem_cons_of_mem _ ha, hR⟩

/-- An element on the left of related lists is related to one on the right. -/
theorem forall₂_mem_left {R : α → β → Prop} {l : List α} {l' : List β}
    (h : List.Forall₂ R l l') {a : α} (ha : a ∈ l) : ∃ b ∈ l', R a b := by
  induction h with
  | nil => cases ha
  | cons hab _ ih =>
      rcases List.mem_cons.mp ha with rfl | ha
      · exact ⟨_, List.mem_cons_self, hab⟩
      · have ⟨b, hb, hR⟩ := ih ha
        exact ⟨b, List.mem_cons_of_mem _ hb, hR⟩

/-- At every index, related lists have related elements or none. -/
theorem forall₂_getElem? {R : α → β → Prop} {l : List α} {l' : List β} (h : List.Forall₂ R l l')
    (k : Nat) :
    (l[k]? = none ∧ l'[k]? = none) ∨ ∃ a b, l[k]? = some a ∧ l'[k]? = some b ∧ R a b := by
  induction h generalizing k with
  | nil => exact Or.inl ⟨rfl, rfl⟩
  | cons hab _ ih =>
      cases k with
      | zero => exact Or.inr ⟨_, _, rfl, rfl, hab⟩
      | succ k => exact ih k

/-- What every step preserves, a fold that succeeds preserves. -/
theorem foldlM_preserves {P : β → Prop} {f : β → α → Except ε β} {l : List α}
    (step : ∀ a ∈ l, ∀ b b', P b → f b a = .ok b' → P b') {b b' : β} (hb : P b)
    (h : l.foldlM f b = .ok b') : P b' := by
  induction l generalizing b with
  | nil =>
      rw [List.foldlM_nil, pure_eq_ok] at h
      exact h ▸ hb
  | cons a l ih =>
      obtain ⟨b₁, h₁, hrest⟩ := bind_eq_ok.mp h
      exact ih (fun a ha => step a (List.mem_cons_of_mem _ ha))
        (step a List.mem_cons_self b b₁ hb h₁) hrest

/-- A fold that fails does so at some element, from a state that the elements before it
have led to. -/
theorem foldlM_fails_at {P : β → Prop} {f : β → α → Except ε β} {l : List α}
    (step : ∀ a ∈ l, ∀ b b', P b → f b a = .ok b' → P b') {b : β} (hb : P b) {e : ε}
    (h : l.foldlM f b = .error e) : ∃ a ∈ l, ∃ b', P b' ∧ f b' a = .error e := by
  induction l generalizing b with
  | nil => simp [pure, Except.pure] at h
  | cons a l ih =>
      rcases bind_eq_error.mp h with h | ⟨b₁, h₁, hrest⟩
      · exact ⟨a, List.mem_cons_self, b, hb, h⟩
      · obtain ⟨a', ha', hfail⟩ := ih (fun a ha => step a (List.mem_cons_of_mem _ ha))
          (step a List.mem_cons_self b b₁ hb h₁) hrest
        exact ⟨a', List.mem_cons_of_mem _ ha', hfail⟩

/-- The result, or `d` after a failure. -/
def getD (x : Except ε α) (d : α) : α :=
  match x with
  | .ok a => a
  | .error _ => d

theorem eq_ok_getD {x : Except ε α} (h : x.isOk = true) (d : α) : x = .ok (getD x d) := by
  cases x with
  | ok a => rfl
  | error e => simp [Except.isOk, Except.toBool] at h

end Result
