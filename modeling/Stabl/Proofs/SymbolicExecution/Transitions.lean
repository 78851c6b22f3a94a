import Stabl.Proofs.Simulator.Configuration
import Stabl.Proofs.SymbolicExecution.Paths

/-!
# `Stabl.Proofs.SymbolicExecution.Transitions`: transitions of the engine and the simulator

The simulator leaves the states from the current one up to the lub, and enters those
from the lub down to the destination, the outermost first. The engine leaves the states
from the source of the transition, enters the superstates of the destination innermost
first, and ends both lists at a state whose superstate has the name of the lub. Below
the destination the engine always takes first substates.

`takeTransition_agrees_iff` says exactly when the two sequences are one. Each direction
compares the sequences part by part (`transitionSteps_inj`).
-/

set_option autoImplicit false

namespace Stabl

open Result TreeAddress World

section
variable {root : State Name}

/-! ### The lists of the engine -/

/-- The loop meets exactly the states below `l` when no state on the way has its name. -/
theorem superstatesBelow_eq_climb_iff (root : State Name) {l p : StateRef} (hl : l <:+ p)
    (hne : p ≠ l) :
    superstatesBelow root (root.nameAt l) p = some (climb l p) ↔
      ∀ q, q <:+ p → q ≠ p → l <:+ q → q ≠ l → root.nameAt q ≠ root.nameAt l := by
  induction p with
  | nil => exact absurd (List.suffix_nil.mp hl).symm hne
  | cons i p ih =>
      have hlp : l <:+ p := (List.suffix_cons_iff.mp hl).resolve_left hne.symm
      rw [superstatesBelow, climb_cons_of_suffix hlp]
      by_cases hpl : p = l
      · subst hpl
        simp only [if_true, climb_self, true_iff]
        intro q hq hqi hpq hqp
        rcases List.suffix_cons_iff.mp hq with rfl | hq
        · exact absurd rfl hqi
        · exact absurd (hq.eq_of_length_le hpq.length_le) hqp
      · by_cases hname : root.nameAt p = root.nameAt l
        · rw [if_pos hname]
          have hmore : climb l p ≠ [] := climb_ne_nil hlp hpl
          constructor
          · intro h
            have htail : [] = climb l p := by simpa using h
            exact absurd htail.symm hmore
          · intro h
            have hself : p ≠ i :: p := fun heq => cons_not_suffix i p (heq ▸ List.suffix_rfl)
            exact absurd hname (h p (List.suffix_cons i p) hself hlp hpl)
        · rw [if_neg hname]
          have hmap : (superstatesBelow root (root.nameAt l) p).map ((i :: p) :: ·) =
              some ((i :: p) :: climb l p) ↔
                superstatesBelow root (root.nameAt l) p = some (climb l p) := by
            cases superstatesBelow root (root.nameAt l) p with
            | none => simp
            | some states => simp
          rw [hmap, ih hlp hpl]
          constructor
          · intro h q hq hqi hlq hql
            rcases List.suffix_cons_iff.mp hq with rfl | hq
            · exact absurd rfl hqi
            · by_cases hqp : q = p
              · exact hqp ▸ hname
              · exact h q hq hqp hlq hql
          · intro h q hq hqp hlq hql
            refine h q (hq.trans (List.suffix_cons i p)) ?_ hlq hql
            rintro rfl
            exact cons_not_suffix i p hq

/-! ### The sequence of the simulator -/

/-- Two sequences of a transition are equal part by part. -/
theorem transitionSteps_inj {exits exits' enters enters' : List StateRef} {a : TransitionStep}
    (ha : ∀ s, a ≠ .exit s) :
    exits.map .exit ++ a :: enters.map .enter = exits'.map .exit ++ a :: enters'.map .enter ↔
      exits = exits' ∧ enters = enters' := by
  induction exits generalizing exits' with
  | nil =>
      cases exits' with
      | nil =>
          have hinj : Function.Injective TransitionStep.enter := fun _ _ h => by simpa using h
          simp [List.map_inj_right hinj]
      | cons s exits' =>
          constructor
          · intro h
            exact absurd (List.cons.inj h).1 (ha s)
          · rintro ⟨h, _⟩
            cases h
  | cons s exits ih =>
      cases exits' with
      | nil =>
          constructor
          · intro h
            exact absurd (List.cons.inj h).1.symm (ha s)
          · rintro ⟨h, _⟩
            cases h
      | cons s' exits' =>
          simp only [List.map_cons, List.cons_append, List.cons.injEq, TransitionStep.exit.injEq,
            ih]
          tauto

/-- When the engine makes the steps of the simulator. The source is the current state and
the destination a child of the lub, no state between the source and the lub has the name
of the lub, and below the destination the descent takes first substates. -/
structure EnginesAgree (root : State Name) (t : PlacedTransition Name) (curr : StateRef)
    (w : World) :
    Prop where
  source : t.transition.source = curr
  names : ∀ q, q <:+ curr → q ≠ curr → t.state <:+ q → q ≠ t.state →
    root.nameAt q ≠ root.nameAt t.state
  destination : getSuperstate t.transition.destination = some t.state
  below : BelowFirst root t curr w

/-- The states that the engine leaves are those that the simulator leaves. -/
theorem sourceStates_eq_iff {t : PlacedTransition Name} {curr : StateRef}
    (hlub : lub t.transition.source t.transition.destination = some t.state)
    (hsource : t.transition.source <:+ curr) {states : TransitionStates}
    (hstates : transitionStates root t = some states) :
    climb t.state curr = states.sourceStates ↔ t.transition.source = curr ∧
      ∀ q, q <:+ curr → q ≠ curr → t.state <:+ q → q ≠ t.state →
        root.nameAt q ≠ root.nameAt t.state := by
  have ⟨hsuffix, hne⟩ := (lub_proper hlub).1
  simp only [transitionStates, Option.bind_eq_bind, Option.bind_eq_some_iff, Option.pure_def,
    Option.some.injEq] at hstates
  obtain ⟨source, hsourceStates, destination, _, rfl⟩ := hstates
  have hclimb := superstatesBelow_eq_climb_iff root hsuffix hne.symm
  rw [hsourceStates, Option.some.injEq] at hclimb
  have ⟨more, hmore, _⟩ := superstatesBelow_eq_some root hsuffix hne.symm
  have hhead : source = t.transition.source :: more := by
    rw [hsourceStates, Option.some.injEq] at hmore
    exact hmore
  constructor
  · intro h
    have heq : t.transition.source = curr := by
      cases curr with
      | nil => exact List.suffix_nil.mp hsource
      | cons i p =>
          -- Both lists begin with the state that is left first.
          have hlp : t.state <:+ p := by
            refine (List.suffix_cons_iff.mp (hsuffix.trans hsource)).resolve_left ?_
            rintro heq
            rw [heq, climb_self, hhead] at h
            cases h
          rw [climb_cons_of_suffix hlp, hhead] at h
          exact (List.cons.inj h).1.symm
    refine ⟨heq, ?_⟩
    rw [← heq] at h ⊢
    exact hclimb.mp h.symm
  · rintro ⟨heq, hnames⟩
    rw [← heq] at hnames ⊢
    exact (hclimb.mpr hnames).symm

/-- The states that the engine enters are those that the simulator enters, when the
simulator enters `s`, then `way`, and then `below`. -/
theorem destinationStates_eq_iff {t : PlacedTransition Name}
    (hlub : lub t.transition.source t.transition.destination = some t.state)
    {states : TransitionStates} (hstates : transitionStates root t = some states) {s : StateRef}
    {rest way : List StateRef}
    (hpath : (climb t.state t.transition.destination).reverse = s :: rest) (hway : way <+: rest)
    (below : List StateRef) :
    s :: (way ++ below) = states.destinationSuperstates ++ states.destinationSubstates ↔
      getSuperstate t.transition.destination = some t.state ∧
        below = root.firstSubstatesAt t.transition.destination := by
  obtain ⟨hsuffix, hne⟩ := (lub_proper hlub).2
  simp only [transitionStates, Option.bind_eq_bind, Option.bind_eq_some_iff, Option.pure_def,
    Option.some.injEq] at hstates
  obtain ⟨source, _, destination, hdestination, rfl⟩ := hstates
  obtain ⟨more, hmore, _⟩ := superstatesBelow_eq_some root hsuffix hne.symm
  rw [hdestination, Option.some.injEq] at hmore
  -- Where the destination is a child of the lub, both lists of superstates are short.
  have hchild : getSuperstate t.transition.destination = some t.state →
      s = t.transition.destination ∧ way = [] ∧ destination = [t.transition.destination] := by
    intro hd
    cases hdest : t.transition.destination with
    | nil => rw [hdest] at hd; cases hd
    | cons i q =>
        rw [hdest] at hd hpath hdestination
        have hq : q = t.state := by simpa [getSuperstate] using hd
        rw [hq, climb_cons_of_suffix List.suffix_rfl, climb_self] at hpath
        simp only [List.reverse_cons, List.reverse_nil, List.nil_append, List.cons.injEq] at hpath
        rw [hq, superstatesBelow, if_pos rfl, Option.some.injEq] at hdestination
        refine ⟨hpath.1.symm.trans (by rw [hq]), ?_, hdestination.symm.trans (by rw [hq])⟩
        exact List.prefix_nil.mp (hpath.2 ▸ hway)
  constructor
  · intro h
    rw [hmore, List.cons_append, List.cons.injEq] at h
    have hd : getSuperstate t.transition.destination = some t.state :=
      climb_reverse_head hsuffix hne.symm (h.1 ▸ hpath)
    obtain ⟨_, hnil, hone⟩ := hchild hd
    have hmore' : more = [] := by
      rw [hone] at hmore
      exact ((List.cons.inj hmore).2).symm
    rw [hnil, hmore'] at h
    exact ⟨hd, h.2⟩
  · rintro ⟨hd, hbelow⟩
    obtain ⟨hs, hnil, hone⟩ := hchild hd
    rw [hs, hnil, hone, hbelow]
    rfl

end

/-- For every run of the transition in the simulator and every path of the engine: the
steps that the engine appends to the path are those that the simulator logs, from the
first exit to the end of the descent, exactly where `EnginesAgree` holds. -/
theorem takeTransition_agrees_iff {sc : Statechart} {c : CheckedStatechart}
    (h : typecheck sc = .ok c) {t : PlacedTransition Name}
    (ht : t.transition ∈ c.root.transitionsAt t.state) {curr : StateRef}
    (hsource : t.transition.source <:+ curr) {fuel fuel' : Nat} {w w' : World}
    {r : StateRef × World} (hperform : performTransition c.root fuel t curr w = .ok w')
    (hdescend : getAtomicState c.root fuel' t.transition.destination 0 w' = .ok r)
    {maxDepth : Int} {solver : Solver} {leaf n : SETNode} {conf conf' : List StateRef}
    {res : SymbolicExecutionResult}
    (htake : takeTransition c.root maxDepth solver t leaf conf = some (res, conf'))
    (hn : n ∈ res.live) :
    (∃ steps, logSteps r.2.log = logSteps w.log ++ steps ∧ n.steps = leaf.steps ++ steps) ↔
      EnginesAgree c.root t curr w := by
  have ⟨hlub, _, _⟩ := lub_of_accepted h ht
  have hcurr : t.state <:+ curr := (lub_proper hlub).1.1.trans hsource
  have ⟨s, rest, way, below, hpath, hway, hlog, hbelow⟩ :=
    performTransition_steps hlub hcurr hperform hdescend
  simp only [takeTransition, Option.bind_eq_bind, Option.bind_eq_some_iff, Option.pure_def,
    Option.some.injEq, Prod.mk.injEq] at htake
  obtain ⟨states, hstates, rfl, _⟩ := htake
  have hsteps : n.steps = leaf.steps ++ states.steps t := by
    simpa using ((takeTransitionNodes_steps c.root maxDepth solver t states leaf).live n hn).2
  have hexits := sourceStates_eq_iff hlub hsource hstates
  have henters := destinationStates_eq_iff hlub hstates hpath hway below
  rw [hlog, hsteps]
  have hiff : (∃ steps, logSteps w.log ++ ((climb t.state curr).map .exit ++
      .action t.state t.transition.name :: (s :: (way ++ below)).map .enter) =
        logSteps w.log ++ steps ∧ leaf.steps ++ states.steps t = leaf.steps ++ steps) ↔
      (climb t.state curr).map .exit ++
        .action t.state t.transition.name :: (s :: (way ++ below)).map .enter = states.steps t := by
    simp only [List.append_cancel_left_eq]
    constructor
    · rintro ⟨steps, rfl, hsteps⟩
      exact hsteps.symm
    · exact fun h => ⟨_, rfl, h.symm⟩
  rw [hiff, TransitionStates.steps, ← List.map_append, transitionSteps_inj (by simp), hexits,
    henters,
    hbelow]
  constructor
  · rintro ⟨⟨hsrc, hnames⟩, hdest, hfirst⟩
    exact ⟨hsrc, hnames, hdest, hfirst⟩
  · rintro ⟨hsrc, hnames, hdest, hfirst⟩
    exact ⟨⟨hsrc, hnames⟩, hdest, hfirst⟩

/-! ### A door -/

/-- From `Closed` two transitions lead to `Open` and to `Locked`. -/
def door : Statechart where
  root := { plainState "Door" with
    states := [plainState "Closed", plainState "Open", plainState "Locked"]
    transitions := [plainTransition "open" "Door" "Closed" "Open" 0 1,
      plainTransition "lock" "Door" "Closed" "Locked" 0 2] }
  moreTypes := []
  events := ["turn"]
  functionDeclarations := []
  initialised := by decide

/-- A transition of the statechart, by its place in the list of all transitions. -/
def transitionNumber (root : State Name) (i : Nat) : PlacedTransition Name :=
  ((allTransitions root)[i]?).getD ⟨[], ⟨"", [], [], "", .constant (.booleanConstant true),
    .statementList [], [], []⟩⟩

/-- Every solver call is answered `sat`. -/
def satisfied : Solver := fun _ _ => .sat

/-- The first live node of a transition. -/
def firstLive : Option (SymbolicExecutionResult × List StateRef) → SETNode
  | some (res, _) => res.live.headD .start
  | none => .start

theorem firstLive_mem {o : Option (SymbolicExecutionResult × List StateRef)}
    (h : o.any (fun r => !r.1.live.isEmpty) = true) :
    ∃ res conf, o = some (res, conf) ∧ firstLive o ∈ res.live := by
  cases o with
  | none => cases h
  | some r =>
      refine ⟨r.1, r.2, rfl, ?_⟩
      show r.1.live.headD .start ∈ r.1.live
      cases hlive : r.1.live with
      | nil => simp [hlive] at h
      | cons n rest => exact List.mem_cons_self

set_option maxRecDepth 4000 in
/-- `open` leads from one child of the statechart to another. -/
theorem takeTransition_agrees_iff_door : EnginesAgree (accepted door).root
    (transitionNumber (accepted door).root 0) [0] (loopHead (accepted door) 10 [] []).2 := by
  let c := accepted door
  let t := transitionNumber c.root 0
  let w := (loopHead c 10 [] []).2
  let w' := getD (performTransition c.root 10 t [0] w) w
  have hperform : performTransition c.root 10 t [0] w = .ok w' := eq_ok_getD (by decide) w
  have hdescend : getAtomicState c.root 10 t.transition.destination 0 w' =
      .ok (getD (getAtomicState c.root 10 t.transition.destination 0 w') ([], w)) :=
    eq_ok_getD (by decide) _
  have ⟨res, conf, htake, hn⟩ := firstLive_mem
    (o := takeTransition c.root 20 satisfied t .start []) (by decide)
  refine (takeTransition_agrees_iff (eq_ok_getD (by decide) _) (List.mem_of_getElem? (i := 0) rfl)
    (List.suffix_refl _) hperform hdescend htake hn).mp ?_
  exact ⟨[.exit [0], .action [] "open", .enter [1]], by decide, by decide⟩

/-- The symbolic execution agrees with the simulator on every transition whose source is on the
chain of the current atomic state. -/
def TransitionsAgree (sc : Statechart) : Prop :=
  ∀ c, typecheck sc = .ok c → ∀ t : PlacedTransition Name,
    t.transition ∈ c.root.transitionsAt t.state → ∀ curr w,
      c.root.isAtomicAt curr = true → w.eState.configuration = chain curr →
      t.transition.source <:+ curr → ∀ fuel w' r,
        performTransition c.root fuel t curr w = .ok w' →
        getAtomicState c.root fuel t.transition.destination 0 w' = .ok r →
        ∀ maxDepth solver leaf conf res conf' n,
          takeTransition c.root maxDepth solver t leaf conf = some (res, conf') → n ∈ res.live →
          ∃ steps, logSteps r.2.log = logSteps w.log ++ steps ∧ n.steps = leaf.steps ++ steps

set_option maxRecDepth 4000 in
/-- `start` of the courier leads into a substate of `Tour`. The simulator enters `Tour`
first, and the engine enters it last. -/
theorem not_transitionsAgree_courier :
    (typecheck courier).isOk = true ∧ ¬ TransitionsAgree courier := by
  refine ⟨by decide, fun h => ?_⟩
  let c := accepted courier
  let t := transitionNumber c.root 0
  let w := (loopHead c 10 [] []).2
  let w' := getD (performTransition c.root 10 t [0] w) w
  let r := getD (getAtomicState c.root 10 t.transition.destination 0 w') ([], w)
  have hperform : performTransition c.root 10 t [0] w = .ok w' := eq_ok_getD (by decide) w
  have hdescend : getAtomicState c.root 10 t.transition.destination 0 w' = .ok r :=
    eq_ok_getD (by decide) _
  have ⟨res, conf, htake, hn⟩ := firstLive_mem
    (o := takeTransition c.root 20 satisfied t .start []) (by decide)
  have ⟨steps, hlog, hsteps⟩ :=
    h c (eq_ok_getD (by decide) _) t (List.mem_of_getElem? (i := 0) rfl) [0] w
    (by decide) (by decide) (List.suffix_refl _) 10 w' r hperform hdescend 20 satisfied .start []
    res conf _ htake hn
  have hengine : (firstLive (takeTransition c.root 20 satisfied t .start [])).steps =
      [.exit [0], .action [] "start", .enter [0, 1], .enter [1]] := by decide
  have hsimulator : logSteps r.2.log = logSteps w.log ++
      [.exit [0], .action [] "start", .enter [1], .enter [0, 1]] := by decide
  rw [hsimulator, List.append_cancel_left_eq] at hlog
  rw [hengine, ← hlog] at hsteps
  revert hsteps
  decide

end Stabl
