import Stabl.Proofs.SymbolicExecution.Transitions

/-!
# `Stabl.Proofs.SymbolicExecution.Configuration`: the set `conf` and the paths

The engine keeps one set `conf` for all leaves. Each call of `takeTransition` in a round
changes it, for one leaf after the other. In a run whose rounds meet `QuietRound`, the
set is the active configuration of every leaf at the head of every round, and every path
leaves active states and enters inactive ones (`conf_eq_active`).

The invariant is `ConfMatches`. Inside a round, the set is still the one of the round's
beginning, or it is what each of the taken transitions makes of that (`RoundMatches`).
-/

set_option autoImplicit false

namespace Stabl

open EnterExit Result TreeAddress

/-! ### Marks -/

/-- The entry or exit that a step is. -/
def TransitionStep.mark? : TransitionStep → Option (Mark StateRef)
  | .exit s => some (.exit s)
  | .enter s => some (.enter s)
  | .action _ _ => none

/-- The state entry nodes and state exit nodes on the path to a node. -/
def SETNode.marks (n : SETNode) : List (Mark StateRef) := n.steps.filterMap TransitionStep.mark?

/-- The states that are entered. -/
def TransitionStates.destinationStates (states : TransitionStates) : List StateRef :=
  states.destinationSuperstates ++ states.destinationSubstates

theorem TransitionStates.marks_eq (states : TransitionStates) :
    states.marks = leaveEnter states.sourceStates states.destinationStates := by
  simp [marks, leaveEnter, destinationStates]

theorem filterMap_mark?_enter (l : List StateRef) :
    (l.map TransitionStep.enter).filterMap TransitionStep.mark? = l.map .enter := by
  induction l with
  | nil => rfl
  | cons s l ih => simpa [TransitionStep.mark?] using ih

theorem filterMap_mark?_exit (l : List StateRef) :
    (l.map TransitionStep.exit).filterMap TransitionStep.mark? = l.map .exit := by
  induction l with
  | nil => rfl
  | cons s l ih => simpa [TransitionStep.mark?] using ih

theorem TransitionStates.filterMap_steps (states : TransitionStates) (t : PlacedTransition Name) :
    (states.steps t).filterMap TransitionStep.mark? = states.marks := by
  have haction : TransitionStep.mark? (.action t.state t.transition.name) = none := rfl
  rw [steps, marks, List.filterMap_append, filterMap_mark?_exit, List.filterMap_cons_none haction,
    List.filterMap_append, filterMap_mark?_enter, filterMap_mark?_enter]

/-- The states that are active on the path to a node. -/
def SETNode.active (n : SETNode) : List StateRef := replay [] n.marks

theorem SETNode.nodup_active (n : SETNode) : n.active.Nodup := nodup_replay List.nodup_nil _

theorem SETNode.mem_active {n : SETNode} {s : StateRef} : s ∈ n.active ↔ LastEntered n.marks s :=
  mem_replay n.marks s

section
variable {root : State Name}

/-! ### The lists of a transition have no duplicates -/

theorem superstatesBelow_suffix {name : String} {p : StateRef} : ∀ {states : List StateRef},
    superstatesBelow root name p = some states →
      states.Nodup ∧ p ∈ states ∧ ∀ q ∈ states, q <:+ p := by
  induction p with
  | nil =>
      intro states h
      cases h
  | cons i p ih =>
      intro states h
      rw [superstatesBelow] at h
      split at h
      · obtain rfl : [i :: p] = states := Option.some.inj h
        exact ⟨List.nodup_singleton _, List.mem_singleton_self _, fun q hq =>
          List.mem_singleton.mp hq ▸ List.suffix_rfl⟩
      · obtain ⟨rest, hrest, heq⟩ := Option.map_eq_some_iff.mp h
        obtain ⟨hnodup, _, hsuffix⟩ := ih hrest
        subst heq
        refine ⟨List.nodup_cons.mpr ⟨fun hmem => ?_, hnodup⟩, List.mem_cons_self, fun q hq => ?_⟩
        · exact cons_not_suffix i p (hsuffix _ hmem)
        · rcases List.mem_cons.mp hq with rfl | hq
          · exact List.suffix_rfl
          · exact (hsuffix q hq).trans (List.suffix_cons i p)

mutual

/-- The first substates are longer and longer positions. -/
theorem State.pairwise_firstSubstates : ∀ (s : State Name) (p : StateRef),
    (p :: s.firstSubstates p).Pairwise (fun q r => q.length < r.length)
  | ⟨_, _, _, _, states, _, _, _, _, _⟩, p => by
      rw [State.firstSubstates]
      exact pairwise_firstSubstatesOf states p

theorem pairwise_firstSubstatesOf : ∀ (states : List (State Name)) (p : StateRef),
    (p :: firstSubstatesOf p states).Pairwise (fun q r => q.length < r.length)
  | [], p => by simp [firstSubstatesOf]
  | s :: _, p => by
      rw [firstSubstatesOf]
      have ih := State.pairwise_firstSubstates s (0 :: p)
      refine List.pairwise_cons.mpr ⟨fun q hq => ?_, ih⟩
      rcases List.mem_cons.mp hq with rfl | hq
      · simp
      · have hlt := (List.pairwise_cons.mp ih).1 q hq
        rw [List.length_cons] at hlt
        omega

end

theorem pairwise_firstSubstatesAt (root : State Name) (p : StateRef) :
    (p :: root.firstSubstatesAt p).Pairwise (fun q r => q.length < r.length) := by
  unfold State.firstSubstatesAt
  split
  · exact State.pairwise_firstSubstates _ p
  · exact List.pairwise_singleton _ _

theorem nodup_of_pairwise_length {l : List StateRef}
    (h : l.Pairwise (fun q r => q.length < r.length)) : l.Nodup :=
  h.imp fun hlt heq => by
    rw [heq] at hlt
    omega

/-- Where the lists of a transition are defined, each has no duplicates, and the source is
among the states that are left. -/
theorem transitionStates_nodup {t : PlacedTransition Name} {states : TransitionStates}
    (h : transitionStates root t = some states) : states.sourceStates.Nodup ∧
      states.destinationStates.Nodup ∧ t.transition.source ∈ states.sourceStates := by
  simp only [transitionStates, Option.bind_eq_bind, Option.bind_eq_some_iff, Option.pure_def,
    Option.some.injEq] at h
  obtain ⟨source, hsource, destination, hdestination, rfl⟩ := h
  obtain ⟨hsourceNodup, hmem, _⟩ := superstatesBelow_suffix hsource
  obtain ⟨hdestNodup, _, hsuffix⟩ := superstatesBelow_suffix hdestination
  have hbelow := pairwise_firstSubstatesAt root t.transition.destination
  refine ⟨hsourceNodup, ?_, hmem⟩
  show (destination ++ root.firstSubstatesAt t.transition.destination).Nodup
  refine List.nodup_append.mpr ⟨hdestNodup, (nodup_of_pairwise_length hbelow).of_cons, ?_⟩
  rintro q hq r hr rfl
  -- A superstate of the destination is no longer a position than the destination.
  have hlt := (List.pairwise_cons.mp hbelow).1 q hr
  have hle := (hsuffix q hq).length_le
  omega

/-! ### One transition -/

/-- What a transition makes of the active states, as a set. -/
def TransitionStates.Leads (states : TransitionStates) (before : List StateRef) (s : StateRef) :
    Prop :=
  s ∈ states.destinationStates ∨ (s ∈ before ∧ s ∉ states.sourceStates)

theorem TransitionStates.mem_replay {states : TransitionStates} {before : List StateRef}
    (h : before.Nodup) (s : StateRef) : s ∈ replay before states.marks ↔ states.Leads before s := by
  rw [states.marks_eq, mem_replay_leaveEnter h]
  rfl

theorem TransitionStates.leads_congr {states : TransitionStates} {before before' : List StateRef}
    (h : ∀ s, s ∈ before ↔ s ∈ before') (s : StateRef) :
    states.Leads before s ↔ states.Leads before' s := by
  simp only [Leads, h]

/-- Taken a second time, a transition changes nothing. -/
theorem TransitionStates.leads_leads {states : TransitionStates} {before after : List StateRef}
    (h : ∀ s, s ∈ after ↔ states.Leads before s) (s : StateRef) :
    states.Leads after s ↔ states.Leads before s := by
  unfold Leads at h ⊢
  rw [h]
  tauto

/-- The transition leaves states of `before`, and enters none of them but those it leaves. -/
structure TransitionStates.Fits (states : TransitionStates) (before : List StateRef) : Prop where
  leaves : ∀ s ∈ states.sourceStates, s ∈ before
  enters : ∀ s ∈ states.destinationStates, s ∈ before → s ∈ states.sourceStates

/-- The nodes of a transition that fits the active states of its leaf: their paths are
proper, and on a live one the active states are those that the transition leads to. -/
theorem takeTransitionNodes_active (maxDepth : Int) (solver : Solver) {t : PlacedTransition Name}
    {states : TransitionStates} (hstates : transitionStates root t = some states) {leaf : SETNode}
    (hproper : Proper leaf.marks) (hfits : states.Fits leaf.active) :
    (∀ n ∈ (takeTransitionNodes root maxDepth solver t states leaf).done, Proper n.marks) ∧
      ∀ n ∈ (takeTransitionNodes root maxDepth solver t states leaf).live, Proper n.marks ∧
        ∀ s, s ∈ n.active ↔ states.Leads leaf.active s := by
  have hsteps := takeTransitionNodes_steps root maxDepth solver t states leaf
  have ⟨hexits, henters, _⟩ := transitionStates_nodup hstates
  have hmarks : (leaf.steps ++ states.steps t).filterMap TransitionStep.mark? =
      leaf.marks ++ states.marks := by
    rw [List.filterMap_append, states.filterMap_steps]
    rfl
  have hfull : Proper (leaf.marks ++ states.marks) := by
    rw [states.marks_eq]
    exact hproper.leave_enter hexits henters hfits.leaves hfits.enters
  constructor
  · intro n hn
    have ⟨_, rest, hrest⟩ := hsteps.done n hn
    rw [← hrest, List.filterMap_append] at hmarks
    rw [← hmarks] at hfull
    exact hfull.of_append
  · intro n hn
    have hn := (hsteps.live n hn).2
    rw [List.append_nil] at hn
    have heq : n.marks = leaf.marks ++ states.marks := by
      rw [SETNode.marks, hn, hmarks]
    refine ⟨heq ▸ hfull, fun s => ?_⟩
    rw [SETNode.active, heq, replay_append]
    exact states.mem_replay leaf.nodup_active s

/-! ### One round -/

/-- The transitions `taken` all lead from `conf` to one set of states, and each of them
fits `conf`. -/
structure Quiet (root : State Name) (conf : List StateRef)
    (taken : List (SETNode × PlacedTransition Name)) : Prop where
  fits : ∀ pair ∈ taken, ∀ states, transitionStates root pair.2 = some states → states.Fits conf
  same : ∀ pair ∈ taken, ∀ states, transitionStates root pair.2 = some states →
    ∀ pair' ∈ taken, ∀ states', transitionStates root pair'.2 = some states' →
      ∀ s, states.Leads conf s ↔ states'.Leads conf s

/-- What a round has to meet. -/
def QuietRound (root : State Name) (solver : Solver) (loop : LoopState) : Prop :=
  Quiet root loop.conf (loop.taken solver)

/-- At the head of the loop, `conf` is the set of states that are active on each leaf. All
paths are proper. -/
structure ConfMatches (loop : LoopState) : Prop where
  nodup : loop.conf.Nodup
  leaves : ∀ leaf ∈ loop.leaves, Proper leaf.marks ∧ ∀ s, s ∈ loop.conf ↔ s ∈ leaf.active
  done : ∀ n ∈ loop.done, Proper n.marks

/-- Inside a round, after some of its transitions: each of them leads from the old `conf`
to the new one, which is also active on every new leaf. -/
structure RoundMatches (root : State Name) (before : List StateRef)
    (taken : List (SETNode × PlacedTransition Name)) (acc : RoundState) : Prop where
  nodup : acc.conf.Nodup
  done : ∀ n ∈ acc.done, Proper n.marks
  start : taken = [] → acc.conf = before ∧ acc.leavesTemp = []
  leads : ∀ pair ∈ taken, ∃ states, transitionStates root pair.2 = some states ∧
    ∀ s, s ∈ acc.conf ↔ states.Leads before s
  leaves : ∀ n ∈ acc.leavesTemp, Proper n.marks ∧ ∀ s, s ∈ acc.conf ↔ s ∈ n.active

section
variable {maxDepth : Int} {solver : Solver}

/-- One more transition of a quiet round. -/
theorem RoundMatches.take {before : List StateRef} {taken : List (SETNode × PlacedTransition Name)}
    {acc : RoundState} (h : RoundMatches root before taken acc) {leaf : SETNode}
    {t : PlacedTransition Name} (hquiet : Quiet root before (taken ++ [(leaf, t)]))
    (hleaf : Proper leaf.marks ∧ ∀ s, s ∈ before ↔ s ∈ leaf.active) {states : TransitionStates}
    (hstates : transitionStates root t = some states) {res : SymbolicExecutionResult}
    (hres : res = takeTransitionNodes root maxDepth solver t states
      (guardNode t leaf)) :
    RoundMatches root before (taken ++ [(leaf, t)])
      ⟨acc.leavesTemp ++ res.live, acc.done ++ res.done, replay acc.conf states.marks, true⟩ := by
  have hlast : (leaf, t) ∈ taken ++ [(leaf, t)] := by simp
  have hfits : states.Fits leaf.active := by
    have hfits := hquiet.fits _ hlast states hstates
    exact ⟨fun s hs => (hleaf.2 s).mp (hfits.leaves s hs),
      fun s hs hactive => hfits.enters s hs ((hleaf.2 s).mpr hactive)⟩
  have hproper : Proper (guardNode t leaf).marks := hleaf.1
  have ⟨hdone, hlive⟩ := takeTransitionNodes_active maxDepth solver hstates hproper hfits
  rw [← hres] at hdone hlive
  -- The first transition of the round starts from `before`, a later one from what it leads to.
  have hconf : ∀ s, s ∈ replay acc.conf states.marks ↔ states.Leads before s := by
    intro s
    rw [states.mem_replay h.nodup]
    cases htaken : taken with
    | nil => rw [(h.start htaken).1]
    | cons pair rest =>
        have hpair : pair ∈ taken := by simp [htaken]
        have ⟨states', hstates', hleads⟩ := h.leads pair hpair
        refine states.leads_leads (fun s => ?_) s
        rw [hleads]
        exact hquiet.same pair (by simp [hpair]) states' hstates' _ hlast states hstates s
  have hleads : ∀ pair ∈ taken ++ [(leaf, t)], ∃ states',
      transitionStates root pair.2 = some states' ∧
      ∀ s, s ∈ replay acc.conf states.marks ↔ states'.Leads before s := by
    intro pair hpair
    have ⟨states', hstates'⟩ : ∃ states', transitionStates root pair.2 = some states' := by
      rcases List.mem_append.mp hpair with hold | hnew
      · have ⟨states', hstates', _⟩ := h.leads pair hold
        exact ⟨states', hstates'⟩
      · rw [List.mem_singleton.mp hnew]
        exact ⟨states, hstates⟩
    refine ⟨states', hstates', fun s => ?_⟩
    rw [hconf]
    exact hquiet.same _ hlast states hstates pair hpair states' hstates' s
  refine ⟨nodup_replay h.nodup _, ?_, by simp, hleads, ?_⟩
  · intro n hn
    rcases List.mem_append.mp hn with hn | hn
    · exact h.done n hn
    · exact hdone n hn
  · intro n hn
    rcases List.mem_append.mp hn with hold | hnew
    · -- There are leaves, so a transition was taken before, and the set stays what it is.
      have ⟨hproper, hactive⟩ := h.leaves n hold
      refine ⟨hproper, fun s => ?_⟩
      cases htaken : taken with
      | nil =>
          rw [(h.start htaken).2] at hold
          cases hold
      | cons pair rest =>
          have hpair : pair ∈ taken := by simp [htaken]
          have ⟨states', hstates', hleads'⟩ := h.leads pair hpair
          rw [hconf, ← hactive, hleads']
          exact hquiet.same _ hlast states hstates pair (by simp [hpair]) states' hstates' s
    · have ⟨hproper, hactive⟩ := hlive n hnew
      refine ⟨hproper, fun s => ?_⟩
      rw [hconf, hactive]
      exact states.leads_congr hleaf.2 s

/-- A whole quiet round. -/
theorem RoundMatches.foldlM {before : List StateRef} :
    ∀ {pairs taken : List (SETNode × PlacedTransition Name)} {acc acc' : RoundState},
      RoundMatches root before taken acc →
        Quiet root before (taken ++ takenPairs solver acc.sat pairs) →
      (∀ pair ∈ pairs, Proper pair.1.marks ∧ ∀ s, s ∈ before ↔ s ∈ pair.1.active) →
      pairs.foldlM (fun acc pair => tryTransition root maxDepth solver acc pair.1 pair.2) acc =
      some acc' →
      RoundMatches root before (taken ++ takenPairs solver acc.sat pairs) acc' := by
  intro pairs
  induction pairs with
  | nil =>
      intro taken acc acc' h _ _ hfold
      obtain rfl : acc = acc' := by simpa using hfold
      simpa [takenPairs] using h
  | cons pair pairs ih =>
      intro taken acc acc' h hquiet hleaves hfold
      rw [List.foldlM_cons, Option.bind_eq_bind, Option.bind_eq_some_iff] at hfold
      have ⟨next, hnext, hrest⟩ := hfold
      have hpair := hleaves pair List.mem_cons_self
      have hpairs : ∀ pair ∈ pairs, Proper pair.1.marks ∧ ∀ s, s ∈ before ↔ s ∈ pair.1.active :=
        fun pair hpair => hleaves pair (List.mem_cons_of_mem _ hpair)
      rcases tryTransition_cases hnext with ⟨hsat, states, hstates, res, hres, rfl⟩ | ⟨hsat, rfl⟩
      · have htaken : takenPairs solver acc.sat (pair :: pairs) =
            pair :: takenPairs solver true pairs := by
          simp [takenPairs, hsat]
        rw [htaken, List.append_cons] at hquiet ⊢
        have hquiet' : Quiet root before (taken ++ [pair]) :=
          ⟨fun p hp => hquiet.fits p (List.mem_append_left _ hp), fun p hp states hs p' hp' =>
            hquiet.same p (List.mem_append_left _ hp) states hs p' (List.mem_append_left _ hp')⟩
        exact ih (h.take hquiet' hpair hstates hres) hquiet hpairs hrest
      · have htaken :
          takenPairs solver acc.sat (pair :: pairs) = takenPairs solver false pairs := by
          simp [takenPairs, hsat]
        rw [htaken] at hquiet ⊢
        refine ih ?_ hquiet hpairs hrest
        refine ⟨h.nodup, fun n hn => ?_, h.start, h.leads, h.leaves⟩
        rcases List.mem_append.mp hn with hn | hn
        · exact h.done n hn
        · exact List.mem_singleton.mp hn ▸ hpair.1

/-- A quiet round keeps the invariant. -/
theorem ConfMatches.engineRound {maxTreeDepth : Int} {loop loop' : LoopState} (h : ConfMatches loop)
    (hquiet : QuietRound root solver loop)
    (hround : Stabl.engineRound root maxDepth solver maxTreeDepth loop = some loop') :
    ConfMatches loop' := by
  simp only [Stabl.engineRound, Option.bind_eq_bind, Option.bind_eq_some_iff, Option.pure_def,
    Option.some.injEq] at hround
  obtain ⟨acc, hfold, rfl⟩ := hround
  have hstart : RoundMatches root loop.conf [] ⟨[], loop.done, loop.conf, loop.sat⟩ :=
    ⟨h.nodup, h.done, fun _ => ⟨rfl, rfl⟩, by simp, by simp⟩
  have hacc :=
    hstart.foldlM hquiet (fun pair hpair => h.leaves _ (LoopState.mem_pairs.mp hpair).1) hfold
  refine ⟨hacc.nodup, fun leaf hleaf => hacc.leaves leaf (List.mem_filter.mp hleaf).1,
    fun n hn => ?_⟩
  rcases List.mem_append.mp hn with hn | hn
  · exact hacc.done n hn
  · exact (hacc.leaves n (List.mem_filter.mp hn).1).1

/-! ### The first round -/

theorem nodup_firstConfiguration (root : State Name) : (firstConfiguration root).Nodup :=
  nodup_of_pairwise_length (pairwise_firstSubstatesAt root [])

/-- At first `conf` is the first configuration, and every leaf has entered it. -/
theorem firstRound_confMatches {loop : LoopState}
    (h : firstRound root maxDepth solver = some loop) :
    ConfMatches loop := by
  obtain ⟨hdone, hlive⟩ := firstRound_steps h
  have hconf : loop.conf = firstConfiguration root := by
    unfold firstRound at h
    split at h
    · cases h
    · rw [← Option.some.inj h]
  have hnodup := nodup_firstConfiguration root
  have hfull : Proper ((firstConfiguration root).map .enter) := by
    simpa using proper_nil.enters hnodup (by simp)
  refine ⟨hconf ▸ hnodup, fun leaf hleaf => ?_, fun n hn => ?_⟩
  · have hmarks : leaf.marks = (firstConfiguration root).map .enter := by
      rw [SETNode.marks, hlive leaf hleaf, filterMap_mark?_enter]
    refine ⟨hmarks ▸ hfull, fun s => ?_⟩
    rw [SETNode.active, hmarks, mem_replay_enters List.nodup_nil, hconf]
    simp
  · obtain ⟨rest, hrest⟩ := hdone n hn
    rw [← filterMap_mark?_enter, ← hrest, List.filterMap_append] at hfull
    exact hfull.of_append

/-! ### Runs -/

/-- At the head of every round, `out_ts` is computed from `conf`. -/
theorem AtRound.outTs_eq {maxTreeDepth : Int} {Q : LoopState → Prop} {loop : LoopState}
    (h : AtRound root maxDepth solver maxTreeDepth Q loop) :
    loop.outTs = computeOutts root loop.conf (allTransitions root) := by
  cases h with
  | first h =>
      unfold firstRound at h
      split at h
      · cases h
      · rw [← Option.some.inj h]
  | next _ _ _ h =>
      simp only [Stabl.engineRound, Option.bind_eq_bind, Option.bind_eq_some_iff, Option.pure_def,
        Option.some.injEq] at h
      obtain ⟨acc, _, rfl⟩ := h
      rfl

/-- Quiet rounds keep the invariant, so it holds at the head of every round of a run whose
rounds are quiet. -/
theorem AtRound.confMatches {maxTreeDepth : Int} {loop : LoopState}
    (h : AtRound root maxDepth solver maxTreeDepth (QuietRound root solver) loop) :
      ConfMatches loop := by
  induction h with
  | first h => exact firstRound_confMatches h
  | next _ _ hquiet hround ih => exact ih.engineRound hquiet hround

theorem takenPairs_subset {pairs : List (SETNode × PlacedTransition Name)} : ∀ {sat : Bool},
    takenPairs solver sat pairs ⊆ pairs := by
  induction pairs with
  | nil => exact fun {_} _ hp => hp
  | cons pair pairs ih =>
      intro sat p hp
      rw [takenPairs] at hp
      split at hp
      · rcases List.mem_cons.mp hp with rfl | hp
        · exact List.mem_cons_self
        · exact List.mem_cons_of_mem _ (ih hp)
      · exact List.mem_cons_of_mem _ (ih hp)

/-- The outgoing transitions are transitions of the statechart. -/
theorem mem_transitionsAt_of_mem_computeOutts {conf : List StateRef} {t : PlacedTransition Name}
    (h : t ∈ computeOutts root conf (allTransitions root)) :
    t.transition ∈ root.transitionsAt t.state := by
  have ht := (List.mem_filter.mp h).1
  simp only [allTransitions, List.mem_flatMap, List.mem_map] at ht
  obtain ⟨p, _, t', ht', rfl⟩ := ht
  exact ht'

end

end

/-- In an accepted statechart, the lists of states of every transition are defined. -/
theorem transitionStates_of_accepted {sc : Statechart} {c : CheckedStatechart}
    (h : typecheck sc = .ok c) {t : PlacedTransition Name}
    (ht : t.transition ∈ c.root.transitionsAt t.state) :
    ∃ states, transitionStates c.root t = some states := by
  have ⟨hlub, _, _⟩ := lub_of_accepted h ht
  have ⟨hsource, hdestination⟩ := lub_proper hlub
  have ⟨source, hs, _⟩ := superstatesBelow_eq_some c.root hsource.1 hsource.2.symm
  have ⟨destination, hd, _⟩ := superstatesBelow_eq_some c.root hdestination.1 hdestination.2.symm
  exact ⟨_, by simp only [transitionStates, hs, hd]; rfl⟩

/-- In every run whose rounds are quiet, at the head of every round: `out_ts` is computed
from `conf`, `conf` is the set of states that are active on every leaf, and on every path
each exit leaves an active state and each entry enters an inactive one. When the round
itself is quiet, the sources of the transitions that it takes are active too. -/
theorem conf_eq_active {sc : Statechart} {c : CheckedStatechart} (h : typecheck sc = .ok c)
    {maxDepth maxTreeDepth : Int} {solver : Solver} {loop : LoopState}
    (hrun : AtRound c.root maxDepth solver maxTreeDepth (QuietRound c.root solver) loop) :
    loop.outTs = computeOutts c.root loop.conf (allTransitions c.root) ∧
    (∀ leaf ∈ loop.leaves, ∀ s, s ∈ loop.conf ↔ LastEntered leaf.marks s) ∧
    (∀ n ∈ loop.leaves ++ loop.done, ∀ pre s post,
      (n.marks = pre ++ .exit s :: post → LastEntered pre s) ∧
      (n.marks = pre ++ .enter s :: post → ¬ LastEntered pre s)) ∧
    (QuietRound c.root solver loop → ∀ pair ∈ loop.taken solver,
      LastEntered pair.1.marks pair.2.transition.source) := by
  have hmatches := hrun.confMatches
  have hleaves : ∀ leaf ∈ loop.leaves, ∀ s, s ∈ loop.conf ↔ LastEntered leaf.marks s := by
    intro leaf hleaf s
    rw [(hmatches.leaves leaf hleaf).2, SETNode.mem_active]
  refine ⟨hrun.outTs_eq, hleaves, fun n hn pre s post => ?_, fun hquiet pair hpair => ?_⟩
  · have hproper : Proper n.marks := by
      rcases List.mem_append.mp hn with hn | hn
      · exact (hmatches.leaves n hn).1
      · exact hmatches.done n hn
    constructor
    · intro heq
      exact (mem_replay pre s).mp (hproper pre _ post heq)
    · intro heq hentered
      exact hproper pre _ post heq ((mem_replay pre s).mpr hentered)
  · have ⟨hleaf, ht⟩ := LoopState.mem_pairs.mp (takenPairs_subset hpair)
    rw [hrun.outTs_eq] at ht
    have ⟨states, hstates⟩ :=
      transitionStates_of_accepted h (mem_transitionsAt_of_mem_computeOutts ht)
    have ⟨_, _, hsource⟩ := transitionStates_nodup hstates
    exact (hleaves _ hleaf _).mp ((hquiet.fits pair hpair states hstates).leaves _ hsource)

/-! ### The door -/

/-- The guard of `open` is `sat`, and no other question is. -/
def opening : Solver
  | _, .guard t => if t.transition.name = "open" then .sat else .other
  | _, _ => .other

/-- The loop state of an optional result. -/
def getLoop (loop : Option LoopState) : LoopState := loop.getD ⟨[], [], [], [], false⟩

theorem eq_some_getLoop {loop : Option LoopState} (h : loop.isSome = true) :
    loop = some (getLoop loop) := by
  have ⟨l, hl⟩ := Option.isSome_iff_exists.mp h
  rw [hl]
  rfl

set_option maxRecDepth 4000 in
/-- The first round of the door is quiet when only `open` is taken: then `conf` and the
one leaf are in `Open`. -/
theorem conf_eq_active_door :
    let loop := getLoop (engineRound (accepted door).root 20 opening 20
      (getLoop (firstRound (accepted door).root 20 opening)))
    loop.leaves.length = 1 ∧ loop.conf = [[], [1]] ∧
      ∀ leaf ∈ loop.leaves, ∀ s, s ∈ loop.conf ↔ LastEntered leaf.marks s := by
  let root := (accepted door).root
  let first := getLoop (firstRound root 20 opening)
  have hfirst : firstRound root 20 opening = some first := eq_some_getLoop (by decide)
  have hround : engineRound root 20 opening 20 first =
    some (getLoop (engineRound root 20 opening 20 first)) :=
    eq_some_getLoop (by decide)
  have hstates : transitionStates root (transitionNumber root 0) = some ⟨[[0]], [[1]], []⟩ := rfl
  have htaken : ∀ pair ∈ first.taken opening, pair.2 = transitionNumber root 0 := by
    intro pair hpair
    have hlist : (first.taken opening).map (·.2) = [transitionNumber root 0] := rfl
    have hmem : pair.2 ∈ (first.taken opening).map (·.2) := List.mem_map_of_mem hpair
    rw [hlist] at hmem
    exact List.mem_singleton.mp hmem
  have hquiet : QuietRound root opening first := by
    constructor
    · intro pair hpair states hs
      rw [htaken pair hpair, hstates] at hs
      obtain rfl := Option.some.inj hs
      exact ⟨by decide, by decide⟩
    · intro pair hpair states hs pair' hpair' states' hs' s
      rw [htaken pair hpair, hstates] at hs
      rw [htaken pair' hpair', hstates] at hs'
      rw [← Option.some.inj hs, ← Option.some.inj hs']
  have hlive : first.leaves ≠ [] := by
    rw [← List.length_pos_iff]
    decide
  have hrun := AtRound.next (.first hfirst) hlive hquiet hround
  exact ⟨by decide, by decide, (conf_eq_active (eq_ok_getD (by decide) _) hrun).2.1⟩

/-- Whatever the solver answers, `conf` is the active
configuration of every leaf. -/
def ConfIsActive (sc : Statechart) : Prop :=
  ∀ c, typecheck sc = .ok c → ∀ maxDepth maxTreeDepth solver loop,
    AtRound c.root maxDepth solver maxTreeDepth (fun _ => True) loop →
      ∀ leaf ∈ loop.leaves, ∀ s, s ∈ loop.conf ↔ LastEntered leaf.marks s

set_option maxRecDepth 4000 in
/-- Both transitions of the door are taken in the first round. After it `conf` has `Open`
and `Locked`, and each leaf is in one of them. -/
theorem not_confIsActive_door : (typecheck door).isOk = true ∧ ¬ ConfIsActive door := by
  refine ⟨by decide, fun h => ?_⟩
  let root := (accepted door).root
  let first := getLoop (firstRound root 20 satisfied)
  let second := getLoop (engineRound root 20 satisfied 20 first)
  have hlive : first.leaves ≠ [] := by
    rw [← List.length_pos_iff]
    decide
  have hrun : AtRound root 20 satisfied 20 (fun _ => True) second :=
    .next (.first (eq_some_getLoop (by decide))) hlive trivial (eq_some_getLoop (by decide))
  have hleaf : second.leaves.headD .start ∈ second.leaves := by
    cases hleaves : second.leaves with
    | nil =>
        have hlength : second.leaves.length = 2 := by decide
        rw [hleaves] at hlength
        cases hlength
    | cons n rest => exact List.mem_cons_self
  have hactive :=
    (h _ (eq_ok_getD (by decide) _) 20 20 satisfied second hrun _ hleaf [2]).mp (by decide)
  rw [← SETNode.mem_active] at hactive
  revert hactive
  decide

end Stabl
