import Stabl.Ast.Hierarchy

/-!
# `Stabl.Ast.Environment`: environments of states and transitions

An `Environment` object is a linked list of declaration lists. Here it is the list of
its frames, innermost first, and `next` is the tail.

`copyExclusive` compares environments by object identity. `State.getEnvironment` caches
its result, so there is one environment object for each state, and `Frame.owner` names
the state whose cached environment begins at the frame. A frame made by a copy is a new
object and has no owner.

The environments of a transition follow `Transition.java`: the code may read what the
source sees, and may write what the enclosing state sees, the parameters of the
destination, and every variable of the states between the two.
-/

set_option autoImplicit false

namespace Stabl

open TreeAddress

variable {ν : Type}

/-- One link of an environment: the declarations of (or made from) the state `state`. -/
structure Frame where
  owner : Option StateRef
  state : StateRef
  declarations : List Declaration

/-- An environment, by its frames. -/
abbrev Environment := List Frame

namespace Environment

/-- `Environment.emptyEnvironment`. -/
def emptyEnvironment : Environment := [⟨none, [], []⟩]

/-- `Environment.lookup`: the declaration of `name` in the innermost frame that has
one, with the object it is. -/
def lookup : Environment → String → Option (DeclarationRef × Declaration)
  | [], _ => none
  | f :: next, name =>
    match f.declarations.find? (fun d => d.vname = name) with
    | some d => some (⟨f.state, d.vname⟩, d)
    | none => lookup next name

/-- The variables declared in an environment: those of `getAllDeclarations`. -/
def declarations (env : Environment) : List DeclarationRef :=
  env.flatMap fun f => f.declarations.map fun d => ⟨f.state, d.vname⟩

/-- `this == other` on environment objects that a state caches. -/
def sameObject : Environment → Environment → Bool
  | f :: _, g :: _ => f.owner.isSome && decide (f.owner = g.owner)
  | _, _ => false

/-- `this.copyInclusive(env)`: a copy whose last link continues with `env`. -/
def copyInclusive : (this env : Environment) → Environment
  | [], env => env
  | [f], env => { f with owner := none } :: env
  | f :: next, env => { f with owner := none } :: copyInclusive next env

/-- `this.copyExclusive(env)`: a copy that ends before `env`. The first frame is copied in
any case. -/
def copyExclusive : (this env : Environment) → Environment
  | [], _ => []
  | f :: next, env =>
    if next.isEmpty || sameObject env next then
      [{ f with owner := none }]
    else
      { f with owner := none } :: copyExclusive next env

end Environment

/-- `State.getEnvironment`: the declarations of the state, then those of its
superstates. -/
def getEnvironment (root : State ν) : StateRef → Environment
  | [] => [⟨some [], [], root.declarationsAt []⟩]
  | i :: p => ⟨some (i :: p), i :: p, root.declarationsAt (i :: p)⟩ :: getEnvironment root p

namespace PlacedTransition

variable (root : State ν) (t : PlacedTransition ν)

/-- `Transition.getReadOnlyEnvironment`. -/
def getReadOnlyEnvironment : Environment :=
  (getEnvironment root t.transition.source).copyExclusive (getEnvironment root t.state)

/-- The parameters of the destination, the list `temp` of `getWriteOnlyEnvironment`. -/
def destinationParameters : List Declaration :=
  (root.declarationsAt t.transition.destination).filter fun d =>
    d.scope = ScopeName.parameterScope

/-- `Transition.getWriteOnlyEnvironment`. -/
def getWriteOnlyEnvironment : Environment :=
  Environment.copyExclusive
    (⟨none, t.transition.destination, t.destinationParameters root⟩ ::
      (getEnvironment root t.transition.destination).tail)
    (getEnvironment root t.state)

/-- `Transition.getRWEnvironment`. -/
def getRWEnvironment : Environment := getEnvironment root t.state

/-- `Transition.getReadEnvironment`. -/
def getReadEnvironment : Environment := getEnvironment root t.transition.source

/-- `Transition.getWriteEnvironment`. -/
def getWriteEnvironment : Environment :=
  (t.getWriteOnlyEnvironment root).copyInclusive (getEnvironment root t.state)

end PlacedTransition

/-! ### What an environment declares -/

namespace Environment

@[simp] theorem mem_declarations {env : Environment} {v : DeclarationRef} :
    v ∈ env.declarations ↔
      ∃ f ∈ env, ∃ d ∈ f.declarations, (⟨f.state, d.vname⟩ : DeclarationRef) = v := by
  simp [declarations]

/-- A name is found as a declaration of some frame. -/
theorem exists_frame_of_lookup {env : Environment} {name : String} {v : DeclarationRef}
    {d : Declaration} (h : env.lookup name = some (v, d)) :
    ∃ f ∈ env, d ∈ f.declarations ∧ v = ⟨f.state, d.vname⟩ ∧ d.vname = name := by
  induction env with
  | nil => simp [lookup] at h
  | cons f next ih =>
      rw [lookup] at h
      split at h
      · rename_i d' hd
        have hmem : d' ∈ f.declarations := List.mem_of_find?_eq_some hd
        have hname : d'.vname = name := by simpa using List.find?_some hd
        simp only [Option.some.injEq, Prod.mk.injEq] at h
        obtain ⟨rfl, rfl⟩ := h
        exact ⟨f, List.mem_cons_self, hmem, rfl, hname⟩
      · have ⟨g, hg, hfound⟩ := ih h
        exact ⟨g, List.mem_cons_of_mem _ hg, hfound⟩

/-- A name found in an environment is declared there. -/
theorem lookup_mem_declarations {env : Environment} {name : String} {v : DeclarationRef}
    {d : Declaration} (h : env.lookup name = some (v, d)) : v ∈ env.declarations := by
  obtain ⟨f, hf, hd, rfl, _⟩ := exists_frame_of_lookup h
  exact mem_declarations.mpr ⟨f, hf, d, hd, rfl⟩

/-- The same frames, as new objects. -/
def unowned (env : Environment) : Environment := env.map fun f => { f with owner := none }

end Environment

/-! ### Environments of states -/

section
variable {root : State ν}

/-- The frames of the environment of a state are the states on its chain. -/
theorem frame_getEnvironment {p : StateRef} {f : Frame} (hf : f ∈ getEnvironment root p) :
    f.state <:+ p ∧ f.declarations = root.declarationsAt f.state := by
  induction p with
  | nil =>
      rw [List.mem_singleton.mp hf]
      exact ⟨List.suffix_rfl, rfl⟩
  | cons i p ih =>
      rcases List.mem_cons.mp hf with rfl | hf
      · exact ⟨List.suffix_rfl, rfl⟩
      · have ⟨hsuffix, hdecs⟩ := ih hf
        exact ⟨hsuffix.trans (List.suffix_cons i p), hdecs⟩

/-- Every state on the chain has a frame. -/
theorem exists_frame_getEnvironment {p q : StateRef} (h : q <:+ p) :
    ∃ f ∈ getEnvironment root p, f.state = q := by
  induction p with
  | nil => exact ⟨_, List.mem_singleton_self _, (List.suffix_nil.mp h).symm⟩
  | cons i p ih =>
      rcases List.suffix_cons_iff.mp h with heq | h
      · exact ⟨_, List.mem_cons_self, heq.symm⟩
      · have ⟨f, hf, hstate⟩ := ih h
        exact ⟨f, List.mem_cons_of_mem _ hf, hstate⟩

/-- The environment of a state has the variables of its chain. -/
theorem mem_getEnvironment {p : StateRef} {v : DeclarationRef}
    (h : v ∈ (getEnvironment root p).declarations) :
    v.state <:+ p ∧ ∃ d ∈ root.declarationsAt v.state, d.vname = v.vname := by
  obtain ⟨f, hf, d, hd, rfl⟩ := Environment.mem_declarations.mp h
  have ⟨hsuffix, hdecs⟩ := frame_getEnvironment hf
  exact ⟨hsuffix, d, hdecs ▸ hd, rfl⟩

/-- A copy that ends before `env` declares nothing new. -/
theorem declarations_copyExclusive (this env : Environment) {v : DeclarationRef}
    (h : v ∈ (this.copyExclusive env).declarations) : v ∈ this.declarations := by
  induction this with
  | nil => exact h
  | cons f next ih =>
      rw [Environment.copyExclusive] at h
      split at h
      · obtain ⟨g, hg, d, hd, rfl⟩ := Environment.mem_declarations.mp h
        obtain rfl : g = { f with owner := none } := by simpa using hg
        exact Environment.mem_declarations.mpr ⟨f, by simp, d, hd, rfl⟩
      · obtain ⟨g, hg, d, hd, rfl⟩ := Environment.mem_declarations.mp h
        rcases List.mem_cons.mp hg with rfl | hg
        · exact Environment.mem_declarations.mpr ⟨f, by simp, d, hd, rfl⟩
        · obtain ⟨g', hg', hd'⟩ := Environment.mem_declarations.mp
            (ih (Environment.mem_declarations.mpr ⟨g, hg, d, hd, rfl⟩))
          exact Environment.mem_declarations.mpr ⟨g', by simp [hg'], hd'⟩

/-- A copy that goes on with `env` declares what the two declare. -/
theorem declarations_copyInclusive (this env : Environment) :
    (this.copyInclusive env).declarations = this.declarations ++ env.declarations := by
  fun_induction Environment.copyInclusive this env with
  | case1 env => simp [Environment.declarations]
  | case2 f env => simp [Environment.declarations]
  | case3 f next env hnext ih =>
      simp only [Environment.declarations] at ih ⊢
      rw [List.flatMap_cons, List.flatMap_cons, ih, List.append_assoc]

variable (root)

/-- The environment of a state has every variable of its chain. -/
theorem mem_getEnvironment_of_suffix {p q : StateRef} (hqp : q <:+ p) {d : Declaration}
    (hd : d ∈ root.declarationsAt q) : ⟨q, d.vname⟩ ∈ (getEnvironment root p).declarations := by
  have hframe : ∃ f ∈ getEnvironment root p, f.state = q := exists_frame_getEnvironment hqp
  obtain ⟨f, hf, rfl⟩ := hframe
  have hdecs := (frame_getEnvironment hf).2
  exact Environment.mem_declarations.mpr ⟨f, hf, d, hdecs ▸ hd, rfl⟩

/-- The frame of a state in an environment that a state caches. -/
def stateFrame (q : StateRef) : Frame := ⟨some q, q, root.declarationsAt q⟩

/-- A copy of the environment of `p`, with another first frame `f`, ends before the environment
of an ancestor of `p`. -/
theorem copyExclusive_eq {l p : StateRef} (h : l <:+ p) (f : Frame) :
    Environment.copyExclusive (f :: getEnvironment root p) (getEnvironment root l) =
      Environment.unowned (f :: (climb l p).map (stateFrame root)) := by
  have hsame : ∀ q : StateRef, Environment.sameObject (getEnvironment root l)
      (getEnvironment root q) = decide (l = q) := by
    intro q
    cases l <;> cases q <;> simp [getEnvironment, Environment.sameObject]
  have hne : ∀ q : StateRef, (getEnvironment root q).isEmpty = false := by
    intro q
    cases q <;> rfl
  induction p generalizing f with
  | nil =>
      rw [List.suffix_nil.mp h] at hsame ⊢
      rw [Environment.copyExclusive, hsame, climb_self]
      simp [Environment.unowned]
  | cons i p ih =>
      rw [Environment.copyExclusive, hne, hsame, Bool.false_or]
      rcases List.suffix_cons_iff.mp h with rfl | h
      · simp [Environment.unowned]
      · have hcut : decide (l = i :: p) = false := by
          rw [decide_eq_false_iff_not]
          rintro rfl
          exact cons_not_suffix i p h
        rw [hcut, climb_cons_of_suffix h, getEnvironment]
        simp only [Bool.false_eq_true, if_false]
        rw [ih h]
        rfl

/-- A copy that ends before the environment of `l` has the variables below `l`. -/
theorem mem_copyExclusive {l p q : StateRef} (hlp : l <:+ p) (hqp : q <:+ p) (hql : ¬ q <:+ l)
    (f : Frame) {d : Declaration} (hd : d ∈ root.declarationsAt q) :
    ⟨q, d.vname⟩ ∈
      (Environment.copyExclusive (f :: getEnvironment root p)
      (getEnvironment root l)).declarations := by
  have hbelow : l <:+ q := (List.suffix_or_suffix_of_suffix hlp hqp).resolve_right hql
  have hne : q ≠ l := fun h => hql (h ▸ List.suffix_rfl)
  have hclimb : q ∈ climb l p := (mem_climb hlp).mpr ⟨hqp, hbelow, hne⟩
  have hframe : { stateFrame root q with owner := none } ∈
      Environment.unowned (f :: (climb l p).map (stateFrame root)) :=
    List.mem_map_of_mem (List.mem_cons_of_mem f (List.mem_map_of_mem hclimb))
  rw [copyExclusive_eq root hlp f]
  exact Environment.mem_declarations.mpr ⟨_, hframe, d, hd, rfl⟩

end

end Stabl
