import Stabl.Proofs.Ast.Lub
import Stabl.Proofs.Frontend.Accepted

/-!
# `Stabl.Proofs.Ast.Environments`: the environments of a transition

The environment of a state has one frame for each state of its chain, so below an ancestor `l`
it is the frames of the climb up to `l`, followed by the environment of `l`
(`getEnvironment_eq`). `copyExclusive` cuts off this second part, and `copyInclusive` puts an
environment behind a copy. With this the environments of a transition are lists of frames that
can be compared (`frames_readOnly`, `frames_writeOnly`), and their lookups compose
(`environments_compose`).

An environment whose frames climb the tree is `Nested`. There a lookup finds the innermost
declaration of the name, and no other (`Nested.lookup_eq_some_iff`).

The variables that may only be read and those that may only be written are apart when the
source and the destination are in different branches. Where one end is above the other, the
upper end is in both parts (`separated_iff`).
-/

set_option autoImplicit false

namespace Stabl

open Result TreeAddress

variable {ν : Type}

namespace Environment

/-! ### Lookups -/

/-- The declaration `d` of the environment is the variable `r`. -/
def Declares (env : Environment) (r : DeclarationRef) (d : Declaration) : Prop :=
  ∃ f ∈ env, f.state = r.state ∧ d ∈ f.declarations ∧ d.vname = r.vname

theorem lookup_append (env env' : Environment) (x : String) :
    lookup (env ++ env') x = (lookup env x).or (lookup env' x) := by
  induction env with
  | nil => rfl
  | cons f env ih =>
      rw [List.cons_append, lookup, lookup]
      split
      · rfl
      · exact ih

@[simp] theorem lookup_unowned (env : Environment) (x : String) :
    lookup env.unowned x = lookup env x := by
  induction env with
  | nil => rfl
  | cons f env ih =>
      have ih : lookup (env.map fun f => { f with owner := none }) x = lookup env x := ih
      rw [unowned, List.map_cons, lookup, lookup, ih]

theorem declares_unowned {env : Environment} {r : DeclarationRef} {d : Declaration} :
    env.unowned.Declares r d ↔ env.Declares r d := by
  simp [Declares, unowned]

/-- The frames belong to states that climb the tree, and none declares a name twice. -/
structure Nested (env : Environment) : Prop where
  climbs : env.Pairwise fun f g => ProperAncestor g.state f.state
  nodup : ∀ f ∈ env, (f.declarations.map Declaration.vname).Nodup

/-- In a nested environment a name is looked up to the declaration in the innermost state. -/
theorem Nested.lookup_eq_some_iff {env : Environment} (h : env.Nested) {x : String}
    {r : DeclarationRef} {d : Declaration} : env.lookup x = some (r, d) ↔
      env.Declares r d ∧ r.vname = x ∧
        ∀ r' d', env.Declares r' d' → r'.vname = x → r'.state <:+ r.state := by
  induction env with
  | nil =>
      refine iff_of_false (fun h => by cases h) ?_
      rintro ⟨⟨f, hf, _⟩, _⟩
      cases hf
  | cons f env ih =>
      obtain ⟨hbelow, hclimbs⟩ := List.pairwise_cons.mp h.climbs
      have ih := ih ⟨hclimbs, fun g hg => h.nodup g (List.mem_cons_of_mem _ hg)⟩
      rw [lookup]
      split
      · rename_i d' hd'
        have hmem' : d' ∈ f.declarations := List.mem_of_find?_eq_some hd'
        have hx' : d'.vname = x := by simpa using List.find?_some hd'
        rw [Option.some.injEq, Prod.mk.injEq]
        constructor
        · rintro ⟨rfl, rfl⟩
          refine ⟨⟨f, List.mem_cons_self, rfl, hmem', rfl⟩, hx', ?_⟩
          rintro r' d'' ⟨g, hg, hstate, _⟩ _
          rcases List.mem_cons.mp hg with rfl | hg
          · exact hstate ▸ List.suffix_rfl
          · exact hstate ▸ (hbelow g hg).1
        · rintro ⟨⟨g, hg, hstate, hmem, hvname⟩, hx, hinner⟩
          -- No frame further up is as deep as `f`.
          have hf := hinner ⟨f.state, d'.vname⟩ d' ⟨f, List.mem_cons_self, rfl, hmem', rfl⟩ hx'
          have hgf : g = f := by
            rcases List.mem_cons.mp hg with rfl | hg
            · rfl
            · obtain ⟨hsuffix, hne⟩ := hbelow g hg
              rw [← hstate] at hf
              exact absurd (hsuffix.eq_of_length_le hf.length_le) hne
          subst hgf
          have hd : d = d' := List.inj_on_of_nodup_map (h.nodup g List.mem_cons_self) hmem hmem'
            (hvname.trans (hx.trans hx'.symm))
          subst hd
          refine ⟨?_, rfl⟩
          rw [hstate, hvname]
      · rename_i hnone
        rw [ih]
        have hnot : ∀ d' ∈ f.declarations, d'.vname ≠ x := by simpa using hnone
        constructor
        · rintro ⟨⟨g, hg, hdeclares⟩, hx, hinner⟩
          refine ⟨⟨g, List.mem_cons_of_mem _ hg, hdeclares⟩, hx, ?_⟩
          rintro r' d' ⟨g', hg', hstate', hmem', hvname'⟩ hx'
          rcases List.mem_cons.mp hg' with rfl | hg'
          · exact absurd (hvname'.trans hx') (hnot d' hmem')
          · exact hinner r' d' ⟨g', hg', hstate', hmem', hvname'⟩ hx'
        · rintro ⟨⟨g, hg, hstate, hmem, hvname⟩, hx, hinner⟩
          rcases List.mem_cons.mp hg with rfl | hg
          · exact absurd (hvname.trans hx) (hnot d hmem)
          · refine ⟨⟨g, hg, hstate, hmem, hvname⟩, hx, ?_⟩
            rintro r' d' ⟨g', hg', hdeclares'⟩ hx'
            exact hinner r' d' ⟨g', List.mem_cons_of_mem _ hg', hdeclares'⟩ hx'

/-- A copy that goes on with `env` is a copy of the frames, and `env`. -/
theorem copyInclusive_eq (this env : Environment) :
    this.copyInclusive env = this.unowned ++ env := by
  fun_induction copyInclusive this env with
  | case1 env => rfl
  | case2 f env => rfl
  | case3 f next env hnext ih =>
      rw [ih]
      rfl

end Environment

open Environment

/-! ### The environments of states -/

section
variable (root : State ν)

/-- Below an ancestor, an environment is the frames up to the ancestor and its environment. -/
theorem getEnvironment_eq {l p : StateRef} (h : l <:+ p) :
    getEnvironment root p = (climb l p).map (stateFrame root) ++ getEnvironment root l := by
  induction p with
  | nil =>
      rw [List.suffix_nil.mp h, climb_self]
      rfl
  | cons i p ih =>
      rcases List.suffix_cons_iff.mp h with rfl | h
      · rw [climb_self]
        rfl
      · rw [climb_cons_of_suffix h, getEnvironment, ih h]
        rfl

/-- The frames of a climb, behind a first frame of the state below, are nested. -/
theorem nested_climb {l p : StateRef} (h : l <:+ p) {i : Nat} {owner : Option StateRef}
    {decs : List Declaration} (hdecs : (decs.map Declaration.vname).Nodup) :
    Nested (⟨owner, i :: p, decs⟩ :: (climb l p).map (stateFrame root)) := by
  constructor
  · refine List.pairwise_cons.mpr ⟨?_, List.pairwise_map.mpr (pairwise_climb h)⟩
    intro g hg
    have ⟨q, hq, heq⟩ := List.mem_map.mp hg
    rw [← heq]
    exact properAncestor_cons.mpr ((mem_climb h).mp hq).1
  · intro g hg
    rcases List.mem_cons.mp hg with rfl | hg
    · exact hdecs
    · have ⟨q, _, heq⟩ := List.mem_map.mp hg
      rw [← heq]
      exact State.nodup_declarationsAt root q

/-- What the frames of a climb declare, behind a first frame. -/
theorem declares_climb {l p : StateRef} (h : l <:+ p) {f : Frame} {r : DeclarationRef}
    {d : Declaration} :
    Declares (f :: (climb l p).map (stateFrame root)) r d ↔ d.vname = r.vname ∧
      ((r.state = f.state ∧ d ∈ f.declarations) ∨
        (r.state <:+ p ∧ ProperAncestor l r.state ∧ d ∈ root.declarationsAt r.state)) := by
  constructor
  · rintro ⟨g, hg, hstate, hmem, hname⟩
    refine ⟨hname, ?_⟩
    rcases List.mem_cons.mp hg with rfl | hg
    · exact Or.inl ⟨hstate.symm, hmem⟩
    · have ⟨q, hq, heq⟩ := List.mem_map.mp hg
      subst heq
      have hstate : q = r.state := hstate
      have ⟨hqp, hlq, hne⟩ := (mem_climb h).mp hq
      subst hstate
      exact Or.inr ⟨hqp, ⟨hlq, Ne.symm hne⟩, hmem⟩
  · rintro ⟨hname, ⟨hstate, hmem⟩ | ⟨hp, hl, hmem⟩⟩
    · exact ⟨f, List.mem_cons_self, hstate.symm, hmem, hname⟩
    · have hclimb : r.state ∈ climb l p := (mem_climb h).mpr ⟨hp, hl.1, Ne.symm hl.2⟩
      exact ⟨_, List.mem_cons_of_mem _ (List.mem_map_of_mem hclimb), rfl, hmem, hname⟩

end

/-! ### The environments of a transition -/

section
variable {root : State ν} {t : PlacedTransition ν}

/-- The source is below the state of the transition, and so is the destination. -/
theorem ends_of_lub (hlub : lub t.transition.source t.transition.destination = some t.state) :
    (∃ i p, t.transition.source = i :: p ∧ t.state <:+ p) ∧
      ∃ i p, t.transition.destination = i :: p ∧ t.state <:+ p := by
  have hbelow : ∀ q : StateRef, ProperAncestor t.state q → ∃ i p, q = i :: p ∧ t.state <:+ p := by
    intro q hq
    cases q with
    | nil => exact absurd (List.suffix_nil.mp hq.1) hq.2
    | cons i p => exact ⟨i, p, rfl, properAncestor_cons.mp hq⟩
  have hdeepest := deepest_of_lub hlub
  exact ⟨hbelow _ hdeepest.left, hbelow _ hdeepest.right⟩

theorem getReadOnlyEnvironment_eq {i : Nat} {p : StateRef} (hsource : t.transition.source = i :: p)
    (hp : t.state <:+ p) : t.getReadOnlyEnvironment root =
      unowned (stateFrame root (i :: p) :: (climb t.state p).map (stateFrame root)) := by
  rw [PlacedTransition.getReadOnlyEnvironment, hsource]
  exact copyExclusive_eq root hp (stateFrame root (i :: p))

theorem getWriteOnlyEnvironment_eq {i : Nat} {p : StateRef}
    (hdestination : t.transition.destination = i :: p) (hp : t.state <:+ p) :
    t.getWriteOnlyEnvironment root =
      unowned (⟨none, i :: p, t.destinationParameters root⟩ ::
        (climb t.state p).map (stateFrame root)) := by
  rw [PlacedTransition.getWriteOnlyEnvironment, hdestination]
  exact copyExclusive_eq root hp ⟨none, i :: p, t.destinationParameters root⟩

/-- The transition may read, and not write, the variables of the states from its source up to
its own state. -/
theorem declares_readOnly
    (hlub : lub t.transition.source t.transition.destination = some t.state) {r : DeclarationRef}
    {d : Declaration} : (t.getReadOnlyEnvironment root).Declares r d ↔ d.vname = r.vname ∧
      r.state <:+ t.transition.source ∧ ProperAncestor t.state r.state ∧
        d ∈ root.declarationsAt r.state := by
  have ⟨i, p, hsource, hp⟩ := (ends_of_lub hlub).1
  have hself : ProperAncestor t.state (i :: p) := properAncestor_cons.mpr hp
  rw [getReadOnlyEnvironment_eq hsource hp, declares_unowned, declares_climb root hp, hsource,
    List.suffix_cons_iff]
  refine and_congr_right fun _ => ⟨?_, ?_⟩
  · rintro (⟨hstate, hmem⟩ | ⟨hsuffix, hbelow, hmem⟩)
    · have hstate : r.state = i :: p := hstate
      rw [hstate]
      exact ⟨Or.inl rfl, hself, hmem⟩
    · exact ⟨Or.inr hsuffix, hbelow, hmem⟩
  · rintro ⟨hstate | hsuffix, hbelow, hmem⟩
    · rw [hstate] at hmem
      exact Or.inl ⟨hstate, hmem⟩
    · exact Or.inr ⟨hsuffix, hbelow, hmem⟩

/-- The transition may write, and not read, the parameters of its destination and the variables
of the states between its destination and its own state. -/
theorem declares_writeOnly
    (hlub : lub t.transition.source t.transition.destination = some t.state) {r : DeclarationRef}
    {d : Declaration} : (t.getWriteOnlyEnvironment root).Declares r d ↔ d.vname = r.vname ∧
      ((r.state = t.transition.destination ∧ d ∈ root.declarationsAt r.state ∧
          d.scope = .parameterScope) ∨
        (ProperAncestor r.state t.transition.destination ∧ ProperAncestor t.state r.state ∧
          d ∈ root.declarationsAt r.state)) := by
  have ⟨i, p, hdestination, hp⟩ := (ends_of_lub hlub).2
  rw [getWriteOnlyEnvironment_eq hdestination hp, declares_unowned, declares_climb root hp,
    hdestination, properAncestor_cons, PlacedTransition.destinationParameters, hdestination]
  refine and_congr_right fun _ => or_congr_left ?_
  show r.state = i :: p ∧ d ∈ (root.declarationsAt (i :: p)).filter _ ↔ _
  rw [List.mem_filter, decide_eq_true_eq]
  constructor
  · rintro ⟨hstate, hmem, hscope⟩
    exact ⟨hstate, hstate ▸ hmem, hscope⟩
  · rintro ⟨hstate, hmem, hscope⟩
    exact ⟨hstate, hstate ▸ hmem, hscope⟩

/-! ### Lookups in the environments of a transition -/

/-- What the transition may read is what it may only read, and what it may read and write. -/
theorem lookup_read (hlub : lub t.transition.source t.transition.destination = some t.state)
    (x : String) : (t.getReadEnvironment root).lookup x =
      ((t.getReadOnlyEnvironment root).lookup x).or ((t.getRWEnvironment root).lookup x) := by
  have ⟨i, p, hsource, hp⟩ := (ends_of_lub hlub).1
  have hsplit : getEnvironment root (i :: p) =
      (stateFrame root (i :: p) :: (climb t.state p).map (stateFrame root)) ++
        getEnvironment root t.state := by
    rw [getEnvironment_eq root (hp.trans (List.suffix_cons i p)), climb_cons_of_suffix hp]
    rfl
  rw [PlacedTransition.getReadEnvironment, PlacedTransition.getRWEnvironment,
    getReadOnlyEnvironment_eq hsource hp, lookup_unowned, hsource, hsplit, lookup_append]

/-- What the transition may write is what it may only write, and what it may read and write. -/
theorem lookup_write (x : String) : (t.getWriteEnvironment root).lookup x =
    ((t.getWriteOnlyEnvironment root).lookup x).or ((t.getRWEnvironment root).lookup x) := by
  rw [PlacedTransition.getWriteEnvironment, PlacedTransition.getRWEnvironment, copyInclusive_eq,
    lookup_append, lookup_unowned]

theorem nested_unowned {env : Environment} (h : env.Nested) : env.unowned.Nested := by
  refine ⟨List.pairwise_map.mpr h.climbs, fun g hg => ?_⟩
  have ⟨f, hf, heq⟩ := List.mem_map.mp hg
  rw [← heq]
  exact h.nodup f hf

theorem nested_readOnly (hlub : lub t.transition.source t.transition.destination = some t.state) :
    (t.getReadOnlyEnvironment root).Nested := by
  have ⟨i, p, hsource, hp⟩ := (ends_of_lub hlub).1
  rw [getReadOnlyEnvironment_eq hsource hp]
  exact nested_unowned (nested_climb root hp (State.nodup_declarationsAt root (i :: p)))

theorem nested_writeOnly (hlub : lub t.transition.source t.transition.destination = some t.state) :
    (t.getWriteOnlyEnvironment root).Nested := by
  have ⟨i, p, hdestination, hp⟩ := (ends_of_lub hlub).2
  rw [getWriteOnlyEnvironment_eq hdestination hp]
  refine nested_unowned (nested_climb root hp ?_)
  exact (State.nodup_declarationsAt root t.transition.destination).sublist
    (List.filter_sublist.map Declaration.vname)

end

/-- The environment finds a name in the innermost one of the states that declare it. -/
def LookupIsInnermost (env : Environment) : Prop :=
  ∀ x r d, env.lookup x = some (r, d) ↔ env.Declares r d ∧ r.vname = x ∧
    ∀ r' d', env.Declares r' d' → r'.vname = x → r'.state <:+ r.state

/-- The composition of the environments of a transition, for a transition that is placed in the
lub of its source and its destination. -/
structure EnvironmentsCompose (root : State ν) (t : PlacedTransition ν) : Prop where
  read : ∀ x, (t.getReadEnvironment root).lookup x =
    ((t.getReadOnlyEnvironment root).lookup x).or ((t.getRWEnvironment root).lookup x)
  write : ∀ x, (t.getWriteEnvironment root).lookup x =
    ((t.getWriteOnlyEnvironment root).lookup x).or ((t.getRWEnvironment root).lookup x)
  readOnly : ∀ r d, (t.getReadOnlyEnvironment root).Declares r d ↔ d.vname = r.vname ∧
    r.state <:+ t.transition.source ∧ ProperAncestor t.state r.state ∧
      d ∈ root.declarationsAt r.state
  writeOnly : ∀ r d, (t.getWriteOnlyEnvironment root).Declares r d ↔ d.vname = r.vname ∧
    ((r.state = t.transition.destination ∧ d ∈ root.declarationsAt r.state ∧
        d.scope = .parameterScope) ∨
      (ProperAncestor r.state t.transition.destination ∧ ProperAncestor t.state r.state ∧
        d ∈ root.declarationsAt r.state))
  shadowing : LookupIsInnermost (t.getReadOnlyEnvironment root) ∧
    LookupIsInnermost (t.getWriteOnlyEnvironment root)

theorem environments_compose {root : State ν} {t : PlacedTransition ν}
    (hlub : lub t.transition.source t.transition.destination = some t.state) :
    EnvironmentsCompose root t where
  read := lookup_read hlub
  write := lookup_write
  readOnly := fun _ _ => declares_readOnly hlub
  writeOnly := fun _ _ => declares_writeOnly hlub
  shadowing := ⟨fun _ _ _ => (nested_readOnly hlub).lookup_eq_some_iff,
    fun _ _ _ => (nested_writeOnly hlub).lookup_eq_some_iff⟩

/-- A state with a room and a desk in it, and a corridor. -/
def office : State Path :=
  { plainState "Office" with
    declarations := ⟨[integerVariable "visitors" .localScope], by decide⟩
    states := [
      { plainState "Room" with
        declarations := ⟨[integerVariable "visitors" .localScope], by decide⟩
        states := [plainState "Desk"] },
      plainState "Corridor"] }

/-- The transition from the desk to the corridor reads the visitors of the room. -/
theorem environments_compose_office :
    EnvironmentsCompose office ⟨[], { plainTransition "leave" "Office" "Room" "Corridor" 0 1 with
      source := [0, 0] }⟩ :=
  environments_compose (by decide)

/-! ### Separation -/

theorem Environment.mem_declarations_iff_declares {env : Environment} {r : DeclarationRef} :
    r ∈ env.declarations ↔ ∃ d, env.Declares r d := by
  rw [mem_declarations]
  constructor
  · rintro ⟨f, hf, d, hd, rfl⟩
    exact ⟨d, f, hf, rfl, hd, rfl⟩
  · rintro ⟨d, f, hf, hstate, hd, hname⟩
    refine ⟨f, hf, d, hd, ?_⟩
    rw [hstate, hname]

/-- The separation of the environments of a transition: no variable may only be read and only
be written, and the variables that may be read and written are those of the read-write
environment. -/
def Separated (root : State ν) (t : PlacedTransition ν) : Prop :=
  (∀ r, ¬ (r ∈ (t.getReadOnlyEnvironment root).declarations ∧
    r ∈ (t.getWriteOnlyEnvironment root).declarations)) ∧
  ∀ r, (r ∈ (t.getReadEnvironment root).declarations ∧
      r ∈ (t.getWriteEnvironment root).declarations) ↔
    r ∈ (t.getRWEnvironment root).declarations

/-- The variables of the read-only environment are those of the read environment below the
state of the transition. -/
theorem mem_readOnly {root : State ν} {t : PlacedTransition ν}
    (hlub : lub t.transition.source t.transition.destination = some t.state) {r : DeclarationRef} :
    r ∈ (t.getReadOnlyEnvironment root).declarations ↔
      r ∈ (t.getReadEnvironment root).declarations ∧ ProperAncestor t.state r.state := by
  rw [Environment.mem_declarations_iff_declares]
  constructor
  · rintro ⟨d, hd⟩
    have ⟨hname, hstate, hbelow, hmem⟩ := (declares_readOnly hlub).mp hd
    have hread := mem_getEnvironment_of_suffix root hstate hmem
    rw [hname] at hread
    exact ⟨hread, hbelow⟩
  · rintro ⟨hread, hbelow⟩
    have ⟨hstate, d, hmem, hname⟩ := mem_getEnvironment hread
    exact ⟨d, (declares_readOnly hlub).mpr ⟨hname, hstate, hbelow, hmem⟩⟩

/-- A variable of the write-only environment belongs to a state below that of the transition. -/
theorem properAncestor_of_writeOnly {root : State ν} {t : PlacedTransition ν}
    (hlub : lub t.transition.source t.transition.destination = some t.state) {r : DeclarationRef}
    (hr : r ∈ (t.getWriteOnlyEnvironment root).declarations) : ProperAncestor t.state r.state := by
  have ⟨d, hd⟩ := Environment.mem_declarations_iff_declares.mp hr
  rcases ((declares_writeOnly hlub).mp hd).2 with ⟨hstate, _⟩ | ⟨_, hbelow, _⟩
  · rw [hstate]
    exact (deepest_of_lub hlub).right
  · exact hbelow

/-- The second half of the separation follows from the first one. -/
theorem separated_of_disjoint {root : State ν} {t : PlacedTransition ν}
    (hlub : lub t.transition.source t.transition.destination = some t.state)
    (hdisjoint : ∀ r, ¬ (r ∈ (t.getReadOnlyEnvironment root).declarations ∧
      r ∈ (t.getWriteOnlyEnvironment root).declarations)) : Separated root t := by
  refine ⟨hdisjoint, fun r => ?_⟩
  rw [PlacedTransition.getWriteEnvironment, declarations_copyInclusive, List.mem_append]
  constructor
  · rintro ⟨hread, hwrite | hrw⟩
    · have hbelow := properAncestor_of_writeOnly hlub hwrite
      exact absurd ⟨(mem_readOnly hlub).mpr ⟨hread, hbelow⟩, hwrite⟩ (hdisjoint r)
    · exact hrw
  · intro hrw
    have ⟨hstate, d, hmem, hname⟩ := mem_getEnvironment hrw
    have hread := mem_getEnvironment_of_suffix root
      (hstate.trans (deepest_of_lub hlub).left.1) hmem
    rw [hname] at hread
    exact ⟨hread, Or.inr hrw⟩

/-- The environments of a transition of an accepted statechart are separated exactly when its
source has no variables if it is above the destination, and its destination has no parameters if
it is the source or above it. -/
theorem separated_iff {sc : Statechart} {c : CheckedStatechart} (hc : typecheck sc = .ok c)
    {t : PlacedTransition Name} (ht : t.transition ∈ c.root.transitionsAt t.state) :
    Separated c.root t ↔
      (ProperAncestor t.transition.source t.transition.destination →
        c.root.declarationsAt t.transition.source = []) ∧
      (t.transition.destination <:+ t.transition.source →
        ∀ d ∈ c.root.declarationsAt t.transition.destination, d.scope ≠ .parameterScope) := by
  have hlub := (lub_of_accepted hc ht).1
  have hdeepest := deepest_of_lub hlub
  constructor
  · rintro ⟨hdisjoint, _⟩
    have hnot : ∀ r d d', (t.getReadOnlyEnvironment c.root).Declares r d →
        ¬ (t.getWriteOnlyEnvironment c.root).Declares r d' := by
      intro r d d' hro hwo
      exact hdisjoint r ⟨Environment.mem_declarations_iff_declares.mpr ⟨d, hro⟩,
        Environment.mem_declarations_iff_declares.mpr ⟨d', hwo⟩⟩
    constructor
    · intro habove
      refine List.eq_nil_iff_forall_not_mem.mpr fun d hd => ?_
      -- The source is one of the states between the destination and its lub.
      exact hnot ⟨t.transition.source, d.vname⟩ d d
        ((declares_readOnly hlub).mpr ⟨rfl, List.suffix_rfl, hdeepest.left, hd⟩)
        ((declares_writeOnly hlub).mpr ⟨rfl, Or.inr ⟨habove, hdeepest.left, hd⟩⟩)
    · intro habove d hd hscope
      -- The destination is one of the states between the source and its lub.
      exact hnot ⟨t.transition.destination, d.vname⟩ d d
        ((declares_readOnly hlub).mpr ⟨rfl, habove, hdeepest.right, hd⟩)
        ((declares_writeOnly hlub).mpr ⟨rfl, Or.inl ⟨rfl, hd, hscope⟩⟩)
  · rintro ⟨hsource, hdestination⟩
    refine separated_of_disjoint hlub ?_
    rintro r ⟨hro, hwo⟩
    have ⟨d, hd⟩ := Environment.mem_declarations_iff_declares.mp hro
    have ⟨d', hd'⟩ := Environment.mem_declarations_iff_declares.mp hwo
    have ⟨_, hstate, hbelow, hmem⟩ := (declares_readOnly hlub).mp hd
    rcases ((declares_writeOnly hlub).mp hd').2 with ⟨heq, hmem', hscope⟩ | ⟨habove, _, _⟩
    · rw [heq] at hstate hmem'
      exact hdestination hstate d' hmem' hscope
    · by_cases hs : r.state = t.transition.source
      · rw [hs] at habove hmem
        rw [hsource habove] at hmem
        cases hmem
      · -- A state above both ends is not below their lub.
        have hle := hdeepest.deepest r.state ⟨hstate, hs⟩ habove
        exact hbelow.2 (hbelow.1.eq_of_length_le hle.length_le)

/-! ### A state that starts itself again -/

/-- The parameter of `Call` is passed by the transition `dial` from outside, and by the
transition `redial` from the state itself. -/
def telephone : Statechart where
  root := { plainState "Telephone" with
    states := [
      plainState "Idle",
      { plainState "Call" with
        declarations := ⟨[integerVariable "number" .parameterScope], by decide⟩ }]
    transitions := [
      plainTransition "dial" "Telephone" "Idle" "Call" 0 1,
      plainTransition "redial" "Telephone" "Call" "Call" 1 1] }
  moreTypes := []
  events := ["turn"]
  functionDeclarations := []
  initialised := by decide

theorem telephone_accepted : typecheck telephone = .ok (accepted telephone) :=
  eq_ok_getD (by decide) _

/-- The environments of `dial` are separated. -/
theorem separated_iff_dial : ∃ t ∈ (accepted telephone).root.transitionsAt [],
    t.name = "dial" ∧ Separated (accepted telephone).root ⟨[], t⟩ := by
  have hdial : ((accepted telephone).root.transitionsAt [])[0]? = some _ := rfl
  have hmem := List.mem_of_getElem? hdial
  refine ⟨_, hmem, rfl, (separated_iff telephone_accepted (t := ⟨[], _⟩) hmem).mpr ⟨?_, ?_⟩⟩
  · intro h
    exact absurd h.1 (by decide)
  · intro h
    exact absurd h (by decide)

/-- The environments of every transition are separated. -/
def TransitionsSeparated (sc : Statechart) : Prop :=
  ∀ c, typecheck sc = .ok c → ∀ t : PlacedTransition Name,
    t.transition ∈ c.root.transitionsAt t.state → Separated c.root t

/-- The number may only be read, and only be written, on the transition `redial`. -/
theorem not_transitionsSeparated_telephone :
    (typecheck telephone).isOk = true ∧ ¬ TransitionsSeparated telephone := by
  refine ⟨by decide, fun h => ?_⟩
  have hredial : ((accepted telephone).root.transitionsAt [])[1]? = some _ := rfl
  have hseparated := h _ telephone_accepted ⟨[], _⟩ (List.mem_of_getElem? hredial)
  exact hseparated.1 ⟨[1], "number"⟩ (by decide)

end Stabl
