import Stabl.Proofs.SymbolicExecution.Configuration
import Stabl.Proofs.SymbolicExecution.Frontier
import Stabl.Proofs.SymbolicExecution.Termination

/-!
# `Stabl.Proofs.SymbolicExecution.FrontierRun`: done and live nodes in a run

`takeTransition` executes blocks at leaves that are apart, so its nodes are an antichain when
every block is clean (`takeTransitionNodes_apart`). A round takes transitions at leaves that are
apart. Different transitions at one leaf lead to nodes that are apart as well, since the first
node of each is a state exit node of its own. But a transition whose guard is not satisfiable
leaves the leaf among the nodes that are done, and then another transition at the same leaf finds
it there, or goes on below it. So a round is clean when no leaf is tried twice, or every pair is
taken (`CleanRound`).
-/

set_option autoImplicit false

namespace Stabl

open Forest

/-! ### Loops over leaves and states -/

/-- Every leaf grows below itself. -/
theorem atEveryLeaf_apart {f : SETNode → SymbolicExecutionResult} {res : SymbolicExecutionResult}
    (hres : res.Apart) (hf : ∀ l ∈ res.live, (f l).Apart)
    (hbelow : ∀ l, AllNodes (fun n => l ∈ n.path) (f l)) : (atEveryLeaf f res).Apart := by
  refine Antichain.grow_split SETNode.isForest_above hres hf ?_
  intro l _ n hn
  exact SETNode.above_of_mem_path ((hbelow l).mem hn)

/-- `C` holds of the states and the leaves of a loop over states. -/
def CleanAtStates (f : StateRef → SETNode → SymbolicExecutionResult)
    (C : StateRef → SETNode → Prop) : List StateRef → SymbolicExecutionResult → Prop
  | [], _ => True
  | s :: states, res => (∀ l ∈ res.live, C s l) ∧ CleanAtStates f C states (atEveryLeaf (f s) res)

theorem atEveryState_apart {f : StateRef → SETNode → SymbolicExecutionResult}
    {C : StateRef → SETNode → Prop} (hf : ∀ s l, C s l → (f s l).Apart)
    (hbelow : ∀ s l, AllNodes (fun n => l ∈ n.path) (f s l)) :
    ∀ {states : List StateRef} {res : SymbolicExecutionResult}, res.Apart →
      CleanAtStates f C states res → (atEveryState f states res).Apart := by
  intro states
  induction states with
  | nil => exact fun hres _ => hres
  | cons s states ih =>
      intro res hres hclean
      have hfirst := atEveryLeaf_apart hres (fun l hl => hf s l (hclean.1 l hl)) (hbelow s)
      exact ih hfirst hclean.2

theorem below_codeClosed (solver : Solver) (l : SETNode) :
    CodeClosed solver (fun n => l ∈ n.path) where
  instruction := fun _ _ _ h => List.mem_cons_of_mem _ h
  thenBranch := fun _ _ h _ => List.mem_cons_of_mem _ (List.mem_cons_of_mem _ h)
  elseBranch := fun _ _ h _ => List.mem_cons_of_mem _ (List.mem_cons_of_mem _ h)

section
variable (root : State Name) (maxDepth : Int) (solver : Solver)

/-! ### Transitions -/

/-- The exit code of a state is clean. -/
def CleanExit (s : StateRef) (l : SETNode) : Prop :=
  CleanStatement maxDepth solver (root.exitAt s) [.stateExit s l]

/-- The entry code of a superstate of the destination is clean. -/
def CleanSuperstate (s : StateRef) (l : SETNode) : Prop :=
  CleanStatement maxDepth solver (root.entryAt s)
    [initializeVariables root s .localScope (.stateEntry s l)]

/-- The entry code of a substate of the destination is clean, or that of a state of the first
configuration. -/
def CleanSubstate (s : StateRef) (l : SETNode) : Prop :=
  CleanStatement maxDepth solver (root.entryAt s)
    [initializeVariables root s .parameterScope
      (initializeVariables root s .localScope (.stateEntry s l))]

/-- The nodes of `takeTransition` after its exits. -/
def nodesAfterExits (states : TransitionStates) (leaf : SETNode) : SymbolicExecutionResult :=
  atEveryState (exitStateSym root maxDepth solver) states.sourceStates ⟨[], [leaf]⟩

/-- The nodes of `takeTransition` after its action. -/
def nodesAfterAction (t : PlacedTransition Name) (states : TransitionStates) (leaf : SETNode) :
    SymbolicExecutionResult :=
  atEveryLeaf (fun l => executeBlock maxDepth solver t.transition.action
    (.note (.action t.state t.transition.name) l))
    (nodesAfterExits root maxDepth solver states leaf)

/-- The nodes of `takeTransition` after it has entered the superstates of the destination. -/
def nodesAfterSuperstates (t : PlacedTransition Name) (states : TransitionStates)
    (leaf : SETNode) : SymbolicExecutionResult :=
  atEveryState (enterSuperstate root maxDepth solver) states.destinationSuperstates
    (nodesAfterAction root maxDepth solver t states leaf)

/-- Every block that `takeTransition` executes is clean. -/
structure CleanTransition (t : PlacedTransition Name) (states : TransitionStates)
    (leaf : SETNode) : Prop where
  exits : CleanAtStates (exitStateSym root maxDepth solver) (CleanExit root maxDepth solver)
    states.sourceStates ⟨[], [leaf]⟩
  action : ∀ l ∈ (nodesAfterExits root maxDepth solver states leaf).live,
    CleanStatement maxDepth solver t.transition.action [.note (.action t.state t.transition.name) l]
  superstates : CleanAtStates (enterSuperstate root maxDepth solver)
    (CleanSuperstate root maxDepth solver) states.destinationSuperstates
    (nodesAfterAction root maxDepth solver t states leaf)
  substates : CleanAtStates (enterSubstate root maxDepth solver)
    (CleanSubstate root maxDepth solver) states.destinationSubstates
    (nodesAfterSuperstates root maxDepth solver t states leaf)

variable {root maxDepth solver}

theorem exitStateSym_below (s : StateRef) (l : SETNode) :
    AllNodes (fun n => l ∈ n.path) (exitStateSym root maxDepth solver s l) :=
  exitStateSym_preserves root maxDepth (below_codeClosed solver l)
    (List.mem_cons_of_mem _ l.self_mem_path)

theorem enterSuperstate_below (s : StateRef) (l : SETNode) :
    AllNodes (fun n => l ∈ n.path) (enterSuperstate root maxDepth solver s l) :=
  enterSuperstate_preserves root maxDepth (below_codeClosed solver l)
    (List.mem_cons_of_mem _ l.self_mem_path)

theorem enterSubstate_below (s : StateRef) (l : SETNode) :
    AllNodes (fun n => l ∈ n.path) (enterSubstate root maxDepth solver s l) :=
  enterSubstate_preserves root maxDepth (below_codeClosed solver l)
    (List.mem_cons_of_mem _ l.self_mem_path)

theorem takeTransitionNodes_below (t : PlacedTransition Name) (states : TransitionStates)
    (leaf : SETNode) :
    AllNodes (fun n => leaf ∈ n.path)
      (takeTransitionNodes root maxDepth solver t states leaf) := by
  have hcode := below_codeClosed solver leaf
  have hstart : AllNodes (fun n => leaf ∈ n.path) ⟨[], [leaf]⟩ :=
    ⟨by simp, by simpa using leaf.self_mem_path⟩
  have hexits := hstart.atEveryState (f := exitStateSym root maxDepth solver)
    (fun s l hl => exitStateSym_preserves root maxDepth hcode (List.mem_cons_of_mem _ hl))
    states.sourceStates
  have haction := hexits.atEveryLeaf fun l hl =>
    have hl : leaf ∈ (SETNode.note (.action t.state t.transition.name) l).path :=
      List.mem_cons_of_mem _ hl
    executeAction_preserves maxDepth hcode t hl
  have hsuper := haction.atEveryState (f := enterSuperstate root maxDepth solver)
    (fun s l hl => enterSuperstate_preserves root maxDepth hcode (List.mem_cons_of_mem _ hl))
    states.destinationSuperstates
  exact hsuper.atEveryState (f := enterSubstate root maxDepth solver)
    (fun s l hl => enterSubstate_preserves root maxDepth hcode (List.mem_cons_of_mem _ hl))
    states.destinationSubstates

/-- The nodes of a clean transition are an antichain. -/
theorem takeTransitionNodes_apart {t : PlacedTransition Name} {states : TransitionStates}
    {leaf : SETNode} (h : CleanTransition root maxDepth solver t states leaf) :
    (takeTransitionNodes root maxDepth solver t states leaf).Apart := by
  have hstart : (⟨[], [leaf]⟩ : SymbolicExecutionResult).Apart := List.pairwise_singleton _ _
  have hexits : (nodesAfterExits root maxDepth solver states leaf).Apart :=
    atEveryState_apart (fun s l hl => executeBlock_apart hl) exitStateSym_below hstart h.exits
  have haction : (nodesAfterAction root maxDepth solver t states leaf).Apart := by
    refine atEveryLeaf_apart hexits (fun l hl => executeBlock_apart (h.action l hl)) ?_
    exact fun l => executeAction_preserves maxDepth (below_codeClosed solver l) t
      (List.mem_cons_of_mem _ l.self_mem_path)
  have hsuper : (nodesAfterSuperstates root maxDepth solver t states leaf).Apart :=
    atEveryState_apart (fun s l hl => executeBlock_apart hl) enterSuperstate_below haction
      h.superstates
  exact atEveryState_apart (fun s l hl => executeBlock_apart hl) enterSubstate_below hsuper
    h.substates

/-- At least one state is exited, so the nodes of a transition are proper descendants. -/
theorem takeTransitionNodes_below_real {t : PlacedTransition Name} {states : TransitionStates}
    (hstates : transitionStates root t = some states) (leaf : SETNode) :
    AllNodes (fun n => leaf ∈ n.real.path)
      (takeTransitionNodes root maxDepth solver t states leaf) := by
  -- `sourceStates` starts with the state of the transition.
  have hsource : states.sourceStates ≠ [] := by
    simp only [transitionStates, Option.bind_eq_bind, Option.bind_eq_some_iff, Option.pure_def,
      Option.some.injEq] at hstates
    obtain ⟨source, hclimb, destination, _, rfl⟩ := hstates
    obtain ⟨_, hmem, _⟩ := superstatesBelow_suffix hclimb
    exact List.ne_nil_of_mem hmem
  have hdeep : AllNodes (fun n => leaf.treedepth < n.treedepth)
      (takeTransitionNodes root maxDepth solver t states leaf) :=
    takeTransitionNodes_deeper root hsource leaf
  have hbelow : AllNodes (fun n => leaf ∈ n.path)
      (takeTransitionNodes root maxDepth solver t states leaf) :=
    takeTransitionNodes_below t states leaf
  exact ⟨fun n hn => SETNode.mem_path_real_of_deeper (hbelow.done n hn) (hdeep.done n hn),
    fun n hn => SETNode.mem_path_real_of_deeper (hbelow.live n hn) (hdeep.live n hn)⟩

end

/-! ### Rounds -/

/-- The state and the name of a transition say which one it is. -/
def PlacedTransition.key (t : PlacedTransition Name) : StateRef × String :=
  (t.state, t.transition.name)

/-- A node comes from one transition at a leaf. -/
theorem key_eq_of_guardNode {t t' : PlacedTransition Name} {leaf n : SETNode}
    (h : guardNode t leaf ∈ n.path) (h' : guardNode t' leaf ∈ n.path) : t.key = t'.key := by
  have hsuffix := SETNode.mem_path_iff.mp h
  have hsuffix' := SETNode.mem_path_iff.mp h'
  have hlength : (guardNode t leaf).path.length = (guardNode t' leaf).path.length := rfl
  have hsame : (guardNode t leaf).path = (guardNode t' leaf).path :=
    (List.suffix_of_suffix_length_le hsuffix hsuffix' hlength.le).eq_of_length hlength
  have hnode := SETNode.path_injective hsame
  simp only [guardNode, SETNode.note.injEq, Note.transition.injEq] at hnode
  exact Prod.ext hnode.1.1 hnode.1.2

/-- What different transitions lead to at one leaf is apart. -/
theorem apart_of_guardNode {t t' : PlacedTransition Name} (hkey : t.key ≠ t'.key)
    {leaf m n : SETNode} (hm : guardNode t leaf ∈ m.real.path)
    (hn : guardNode t' leaf ∈ n.real.path) : Apart SETNode.Above m n := by
  constructor
  · intro habove
    exact hkey (key_eq_of_guardNode (SETNode.mem_path_trans hm habove)
      (SETNode.mem_path_trans hn n.real_mem_path))
  · intro habove
    exact hkey (key_eq_of_guardNode (SETNode.mem_path_trans hm m.real_mem_path)
      (SETNode.mem_path_trans hn habove))

/-- The transitions of an accepted statechart differ in their keys. -/
theorem nodup_transition_keys {sc : Statechart} {c : CheckedStatechart} (h : typecheck sc = .ok c) :
    ((allTransitions c.root).map PlacedTransition.key).Nodup := by
  rw [allTransitions, List.map_flatMap]
  refine List.nodup_flatMap.mpr ⟨?_, ?_⟩
  · intro p _
    have hnames := nodup_transition_names h p
    rw [List.map_map]
    refine List.Nodup.of_map Prod.snd ?_
    rw [List.map_map]
    exact hnames
  · refine (c.root.nodup_positions []).imp ?_
    intro p q hpq key hp hq
    obtain ⟨t, ht, hkey⟩ := List.mem_map.mp hp
    obtain ⟨t', ht', hkey'⟩ := List.mem_map.mp hq
    obtain ⟨_, _, heq⟩ := List.mem_map.mp ht
    obtain ⟨_, _, heq'⟩ := List.mem_map.mp ht'
    have hp : t.state = p := by rw [← heq]
    have hq : t'.state = q := by rw [← heq']
    have hsame : t.key.1 = t'.key.1 := by rw [hkey, hkey']
    exact hpq (by rw [← hp, ← hq]; exact hsame)

section
variable (root : State Name) (maxDepth : Int) (solver : Solver)

/-- No leaf of the round is tried with two transitions, unless every pair of the round is taken.
Every block that the transitions execute is clean. -/
structure CleanRound (loop : LoopState) : Prop where
  pairs : loop.outTs.length ≤ 1 ∨ loop.taken solver = loop.pairs
  transitions : ∀ pair ∈ loop.taken solver, ∀ states, transitionStates root pair.2 = some states →
    CleanTransition root maxDepth solver pair.2 states (guardNode pair.2 pair.1)

/-- The pairs of a round, one after the other. `B pair` holds of the nodes to which a pair may
lead, and different pairs lead to nodes that are apart. -/
structure PairsApart (B : SETNode × PlacedTransition Name → SETNode → Prop)
    (pairs : List (SETNode × PlacedTransition Name)) (nodes : List SETNode) : Prop where
  collected : Antichain SETNode.Above nodes
  ahead : pairs.Pairwise fun pair pair' => ∀ m n, B pair m → B pair' n → Apart SETNode.Above m n
  rest : ∀ m ∈ nodes, ∀ pair ∈ pairs, ∀ n, B pair n → Apart SETNode.Above m n

/-- The nodes of the first pair join those before. -/
theorem PairsApart.next {B : SETNode × PlacedTransition Name → SETNode → Prop}
    {pair : SETNode × PlacedTransition Name} {pairs : List (SETNode × PlacedTransition Name)}
    {nodes new : List SETNode} (h : PairsApart B (pair :: pairs) nodes)
    (hnew : Antichain SETNode.Above new) (hB : ∀ n ∈ new, B pair n) :
    PairsApart B pairs (nodes ++ new) where
  collected := antichain_append.mpr
    ⟨h.collected, hnew, fun m hm n hn => h.rest m hm pair List.mem_cons_self n (hB n hn)⟩
  ahead := (List.pairwise_cons.mp h.ahead).2
  rest := by
    intro m hm pair' hpair' n hn
    rcases List.mem_append.mp hm with hm | hm
    · exact h.rest m hm pair' (List.mem_cons_of_mem _ hpair') n hn
    · exact (List.pairwise_cons.mp h.ahead).1 pair' hpair' m n (hB m hm) hn

theorem PairsApart.perm {B : SETNode × PlacedTransition Name → SETNode → Prop}
    {pairs : List (SETNode × PlacedTransition Name)} {nodes nodes' : List SETNode}
    (h : PairsApart B pairs nodes) (hperm : nodes.Perm nodes') : PairsApart B pairs nodes' where
  collected := h.collected.perm hperm
  ahead := h.ahead
  rest := fun m hm => h.rest m (hperm.mem_iff.mpr hm)

variable {root maxDepth solver}

/-- One pair: it is taken, or its leaf may be among its nodes. -/
theorem tryTransition_apart {B : SETNode × PlacedTransition Name → SETNode → Prop}
    (hB : ∀ pair n, guardNode pair.2 pair.1 ∈ n.real.path → B pair n)
    {pair : SETNode × PlacedTransition Name} {pairs : List (SETNode × PlacedTransition Name)}
    {acc acc' : RoundState}
    (hclean : satAfter acc.sat (solver pair.1 (.guard pair.2)) = true → ∀ states,
      transitionStates root pair.2 = some states →
        CleanTransition root maxDepth solver pair.2 states (guardNode pair.2 pair.1))
    (hleaf : satAfter acc.sat (solver pair.1 (.guard pair.2)) = false → B pair pair.1)
    (h : PairsApart B (pair :: pairs) (acc.done ++ acc.leavesTemp))
    (hstep : tryTransition root maxDepth solver acc pair.1 pair.2 = some acc') :
    PairsApart B pairs (acc'.done ++ acc'.leavesTemp) := by
  rcases tryTransition_cases hstep with ⟨hsat, states, hstates, res, hres, rfl⟩ | ⟨hsat, rfl⟩
  · -- Taken: the nodes of the transition join the others.
    have hapart : res.Apart := hres ▸ takeTransitionNodes_apart (hclean hsat states hstates)
    have hbelow : AllNodes (fun n => guardNode pair.2 pair.1 ∈ n.real.path) res :=
      hres ▸ takeTransitionNodes_below_real hstates _
    have hnext := h.next hapart fun n hn => hB pair n (hbelow.mem hn)
    exact hnext.perm (append_four_perm _ _ _ _).symm
  · -- Not taken: the leaf itself is done.
    have hnext := h.next (List.pairwise_singleton _ pair.1) fun n hn =>
      List.mem_singleton.mp hn ▸ hleaf hsat
    refine hnext.perm ?_
    have hperm := append_four_perm acc.done acc.leavesTemp [pair.1] []
    rw [List.append_nil, List.append_nil] at hperm
    exact hperm.symm

/-- The pairs of a round. `R` says what is known of the pairs that are left: the first of them is
taken, or its leaf may be among its nodes. -/
theorem pairs_apart {B : SETNode × PlacedTransition Name → SETNode → Prop}
    (hB : ∀ pair n, guardNode pair.2 pair.1 ∈ n.real.path → B pair n)
    {R : Bool → List (SETNode × PlacedTransition Name) → Prop}
    (hrest : ∀ sat pair pairs, R sat (pair :: pairs) →
      (satAfter sat (solver pair.1 (.guard pair.2)) = false → B pair pair.1) ∧
        R (satAfter sat (solver pair.1 (.guard pair.2))) pairs) :
    ∀ (pairs : List (SETNode × PlacedTransition Name)) (acc : RoundState) {acc' : RoundState},
      R acc.sat pairs →
      (∀ pair ∈ takenPairs solver acc.sat pairs, ∀ states,
        transitionStates root pair.2 = some states →
          CleanTransition root maxDepth solver pair.2 states (guardNode pair.2 pair.1)) →
      PairsApart B pairs (acc.done ++ acc.leavesTemp) →
      pairs.foldlM (fun acc pair => tryTransition root maxDepth solver acc pair.1 pair.2) acc =
        some acc' →
      Antichain SETNode.Above (acc'.done ++ acc'.leavesTemp)
  | [], acc, acc', _, _, h, hfold => by
      obtain rfl : acc = acc' := by simpa using hfold
      exact h.collected
  | pair :: pairs, acc, acc', hknown, hclean, h, hfold => by
      have ⟨next, hnext, hfold⟩ := Option.bind_eq_some_iff.mp hfold
      have ⟨hleaf, hknown⟩ := hrest acc.sat pair pairs hknown
      have hsat : next.sat = satAfter acc.sat (solver pair.1 (.guard pair.2)) := by
        rcases tryTransition_cases hnext with ⟨hsat, _, _, _, _, rfl⟩ | ⟨hsat, rfl⟩
        · exact hsat.symm
        · exact hsat.symm
      have hfirst := tryTransition_apart hB ?_ hleaf h hnext
      · refine pairs_apart hB hrest pairs next (hsat ▸ hknown) ?_ hfirst hfold
        intro pair' hpair'
        refine hclean pair' ?_
        rw [takenPairs]
        split
        · exact List.mem_cons_of_mem _ (hsat ▸ hpair')
        · exact hsat ▸ hpair'
      · intro htaken
        refine hclean pair ?_
        rw [takenPairs, if_pos htaken]
        exact List.mem_cons_self

theorem length_takenPairs_le (solver : Solver) :
    ∀ (pairs : List (SETNode × PlacedTransition Name)) (sat : Bool),
      (takenPairs solver sat pairs).length ≤ pairs.length := by
  intro pairs
  induction pairs with
  | nil => exact fun _ => Nat.le_refl 0
  | cons pair pairs ih =>
      intro sat
      rw [takenPairs]
      split
      · exact Nat.succ_le_succ (ih _)
      · exact Nat.le_succ_of_le (ih _)

/-- All pairs are taken: then the first is, and the others are. -/
theorem takenPairs_cons {sat : Bool} {pair : SETNode × PlacedTransition Name}
    {pairs : List (SETNode × PlacedTransition Name)}
    (h : takenPairs solver sat (pair :: pairs) = pair :: pairs) :
    satAfter sat (solver pair.1 (.guard pair.2)) = true ∧
      takenPairs solver (satAfter sat (solver pair.1 (.guard pair.2))) pairs = pairs := by
  rw [takenPairs] at h
  split at h
  · rename_i hsat
    exact ⟨hsat, (List.cons.inj h).2⟩
  · -- The pairs that are left are fewer.
    exfalso
    have hlength := congrArg List.length h
    have hshort :=
      length_takenPairs_le solver pairs (satAfter sat (solver pair.1 (.guard pair.2)))
    rw [hlength, List.length_cons] at hshort
    omega

theorem above_of_guardNode {t : PlacedTransition Name} {leaf n : SETNode}
    (h : guardNode t leaf ∈ n.real.path) : leaf.Above n := by
  have hguard : leaf ∈ (guardNode t leaf).path :=
    List.mem_cons_of_mem _ (List.mem_cons_of_mem _ leaf.self_mem_path)
  exact SETNode.above_of_mem_path
    (SETNode.mem_path_trans hguard (SETNode.mem_path_trans h n.real_mem_path))

/-- A clean round keeps the antichain. -/
theorem engineRound_apart {maxTreeDepth : Int} {loop loop' : LoopState}
    (hkeys : (loop.outTs.map PlacedTransition.key).Nodup)
    (hclean : CleanRound root maxDepth solver loop)
    (h : Antichain SETNode.Above (loop.done ++ loop.leaves))
    (hround : engineRound root maxDepth solver maxTreeDepth loop = some loop') :
    Antichain SETNode.Above (loop'.done ++ loop'.leaves) := by
  have ⟨acc, hfold, hacc⟩ := Option.bind_eq_some_iff.mp hround
  obtain rfl := Option.some.inj hacc
  have hforest := SETNode.isForest_above
  have ⟨hdone, hleaves, hapart⟩ := antichain_append.mp h
  have hnodes : Antichain SETNode.Above (acc.done ++ acc.leavesTemp) := by
    rcases hclean.pairs with hone | hall
    · -- The leaf of a pair that is not taken is tried with no other transition.
      refine pairs_apart (B := fun pair n => pair.1.Above n)
        (fun _ _ hn => above_of_guardNode hn) (R := fun _ _ => True)
        (fun _ pair _ _ => ⟨fun _ => pair.1.real_mem_path, trivial⟩) loop.pairs
        ⟨[], loop.done, loop.conf, loop.sat⟩ trivial hclean.transitions ⟨?_, ?_, ?_⟩ hfold
      · rw [List.append_nil]
        exact hdone
      · refine List.pairwise_flatMap.mpr ⟨fun leaf _ => ?_, hleaves.imp ?_⟩
        · match houtTs : loop.outTs with
          | [] => exact List.Pairwise.nil
          | [t] => exact List.pairwise_singleton _ _
          | t :: t' :: _ =>
              rw [houtTs] at hone
              simp at hone
        · intro leaf leaf' hleaf pair hpair pair' hpair' m n hm hn
          have ⟨t, _, heq⟩ := List.mem_map.mp hpair
          have ⟨t', _, heq'⟩ := List.mem_map.mp hpair'
          subst heq heq'
          exact hleaf.below_both hforest hm hn
      · intro m hm pair hpair n hn
        rw [List.append_nil] at hm
        exact (hapart m hm _ (LoopState.mem_pairs.mp hpair).1).below hforest hn
    · -- Every pair is taken, so its nodes are below its own guard node.
      refine pairs_apart (B := fun pair n => guardNode pair.2 pair.1 ∈ n.real.path)
        (fun _ _ hn => hn) (R := fun sat pairs => takenPairs solver sat pairs = pairs)
        ?_ loop.pairs ⟨[], loop.done, loop.conf, loop.sat⟩ hall hclean.transitions ⟨?_, ?_, ?_⟩
        hfold
      · intro sat pair pairs hpairs
        have ⟨htaken, hrest⟩ := takenPairs_cons hpairs
        exact ⟨fun hno => absurd (hno.symm.trans htaken) Bool.false_ne_true, hrest⟩
      · rw [List.append_nil]
        exact hdone
      · refine List.pairwise_flatMap.mpr ⟨fun leaf _ => ?_, hleaves.imp ?_⟩
        · refine List.pairwise_map.mpr ((List.pairwise_map.mp hkeys).imp ?_)
          intro t t' hkey m n hm hn
          exact apart_of_guardNode hkey hm hn
        · intro leaf leaf' hleaf pair hpair pair' hpair' m n hm hn
          have ⟨t, _, heq⟩ := List.mem_map.mp hpair
          have ⟨t', _, heq'⟩ := List.mem_map.mp hpair'
          subst heq heq'
          exact hleaf.below_both hforest (above_of_guardNode hm) (above_of_guardNode hn)
      · intro m hm pair hpair n hn
        rw [List.append_nil] at hm
        exact (hapart m hm _ (LoopState.mem_pairs.mp hpair).1).below hforest (above_of_guardNode hn)
  refine hnodes.perm ?_
  -- The nodes beyond the bound move from the leaves to those that are done.
  have hsplit := List.filter_append_perm
    (fun leaf : SETNode => decide ((leaf.treedepth : Int) > maxTreeDepth)) acc.leavesTemp
  rw [List.append_assoc]
  simp only [decide_not]
  exact hsplit.symm.append_left acc.done

end

/-! ### Before the main loop -/

section
variable (root : State Name) (maxDepth : Int) (solver : Solver)

/-- The entry code of a state of the first configuration is clean at every leaf. The loop over the
leaves ends at the first one without live results. -/
def CleanEnterFirst (s : StateRef) : List SETNode → Prop
  | [] => True
  | leaf :: leaves => CleanSubstate root maxDepth solver s leaf ∧
    ((enterSubstate root maxDepth solver s leaf).live ≠ [] → CleanEnterFirst s leaves)

/-- The same for every state of the first configuration. -/
def CleanEnterFirstStates : List StateRef → SymbolicExecutionResult → Prop
  | [], _ => True
  | s :: states, res => CleanEnterFirst root maxDepth solver s res.live ∧
    CleanEnterFirstStates states (enterFirst root maxDepth solver s [] res.live res.done)

/-- The blocks before the main loop are clean. -/
def CleanFirst : Prop :=
  CleanEnterFirstStates root maxDepth solver (firstConfiguration root) ⟨[], [startNode root]⟩

variable {root maxDepth solver}

/-- A leaf is replaced by its results. -/
theorem grown_perm (a b c d v : List SETNode) :
    (a ++ b ++ c ++ (d ++ v)).Perm (a ++ d ++ (b ++ v) ++ c) := by
  classical
  refine List.perm_iff_count.mpr fun n => ?_
  simp only [List.count_append]
  omega

/-- The leaves that are left are dropped where the loop ends early, and the rest is apart. -/
theorem enterFirst_apart {s : StateRef} : ∀ {leaves leavesTemp done : List SETNode},
    Antichain SETNode.Above (done ++ leavesTemp ++ leaves) →
      CleanEnterFirst root maxDepth solver s leaves →
      (enterFirst root maxDepth solver s leavesTemp leaves done).Apart
  | [], leavesTemp, done, h, _ => by
      rw [List.append_nil] at h
      exact h
  | leaf :: leaves, leavesTemp, done, h, hclean => by
      have hres : (enterSubstate root maxDepth solver s leaf).Apart := executeBlock_apart hclean.1
      -- The leaf grows in its place.
      have hnodes : Antichain SETNode.Above (done ++ leavesTemp ++ leaves ++
          ((enterSubstate root maxDepth solver s leaf).done ++
            (enterSubstate root maxDepth solver s leaf).live)) := by
        have hlast : Antichain SETNode.Above (done ++ leavesTemp ++ leaves ++ [leaf]) :=
          h.perm (by
            rw [List.append_assoc (done ++ leavesTemp)]
            exact (List.perm_append_singleton leaf leaves).symm.append_left (done ++ leavesTemp))
        refine hlast.grow SETNode.isForest_above hres ?_
        intro n hn
        exact ⟨leaf, List.mem_singleton_self leaf,
          SETNode.above_of_mem_path ((enterSubstate_below s leaf).mem hn)⟩
      have hnodes := hnodes.perm (grown_perm _ _ _ _ _)
      rw [enterFirst]
      split
      · refine hnodes.sublist (List.Sublist.trans ?_ (List.sublist_append_left _ _))
        exact (List.sublist_append_left _ _).append_left _
      · rename_i hlive
        exact enterFirst_apart hnodes (hclean.2 (by simpa using hlive))

theorem enterFirstStates_apart : ∀ {states : List StateRef} {res : SymbolicExecutionResult},
    res.Apart → CleanEnterFirstStates root maxDepth solver states res →
      (enterFirstStates root maxDepth solver states res).Apart
  | [], res, hres, _ => hres
  | s :: states, res, hres, hclean => by
      have hstart : Antichain SETNode.Above (res.done ++ [] ++ res.live) := by
        rw [List.append_nil]
        exact hres
      have hfirst : (enterFirst root maxDepth solver s [] res.live res.done).Apart :=
        enterFirst_apart hstart hclean.1
      show (enterFirstStates root maxDepth solver states
        (enterFirst root maxDepth solver s [] res.live res.done)).Apart
      exact enterFirstStates_apart hfirst hclean.2

end

/-! ### Runs -/

section
variable {sc : Statechart} {c : CheckedStatechart} (h : typecheck sc = .ok c) {maxDepth : Int}
  {solver : Solver}
include h

theorem AtRound.nodup_keys {maxTreeDepth : Int} {Q : LoopState → Prop} {loop : LoopState}
    (hloop : AtRound c.root maxDepth solver maxTreeDepth Q loop) :
    (loop.outTs.map PlacedTransition.key).Nodup := by
  rw [hloop.outTs_eq]
  exact (nodup_transition_keys h).sublist (List.filter_sublist.map _)

/-- At the head of every round, when the rounds before are clean. -/
theorem AtRound.apart {maxTreeDepth : Int} {loop : LoopState}
    (hfirst : CleanFirst c.root maxDepth solver)
    (hloop : AtRound c.root maxDepth solver maxTreeDepth (CleanRound c.root maxDepth solver) loop) :
    Antichain SETNode.Above (loop.done ++ loop.leaves) := by
  induction hloop with
  | first hrun =>
      unfold firstRound at hrun
      split at hrun
      · cases hrun
      · obtain rfl := Option.some.inj hrun
        exact enterFirstStates_apart (List.pairwise_singleton _ _) hfirst
  | next hrun _ hclean hround ih => exact engineRound_apart (hrun.nodup_keys h) hclean ih hround

omit h in
/-- What `execute` returns are the nodes that are done at the head of a round without leaves. -/
theorem mainLoop_atRound {root : State Name} {maxTreeDepth : Int} {Q : LoopState → Prop}
    (hQ : ∀ loop, AtRound root maxDepth solver maxTreeDepth Q loop → loop.leaves ≠ [] → Q loop) :
    ∀ {fuel : Nat} {loop : LoopState} {nodes : List SETNode},
      AtRound root maxDepth solver maxTreeDepth Q loop →
      mainLoop root maxDepth solver maxTreeDepth fuel loop = some nodes →
      ∃ last, AtRound root maxDepth solver maxTreeDepth Q last ∧ last.leaves = [] ∧
        last.done = nodes
  | 0, loop, nodes, _, hmain => by cases hmain
  | fuel + 1, loop, nodes, hloop, hmain => by
      rw [mainLoop] at hmain
      split at hmain
      · rename_i hempty
        exact ⟨loop, hloop, List.isEmpty_iff.mp hempty, Option.some.inj hmain⟩
      · rename_i hlive
        have hlive : loop.leaves ≠ [] := by simpa using hlive
        obtain ⟨next, hnext, hrest⟩ := Option.bind_eq_some_iff.mp hmain
        exact mainLoop_atRound hQ (hloop.next hlive (hQ loop hloop hlive) hnext) hrest

variable (maxDepth solver)

/-- The result of an if is a frontier exactly when the if does not add its leaf, and the results of
its bodies are frontiers. Of the ifs of a block whose results are kept, each result is a frontier
exactly when none of them adds its leaf, and then the result of `executeBlock` is a frontier. The
result of `takeTransition` is one when all its blocks are such blocks. And in a run of `execute`
whose rounds are clean, the nodes that are done and those that are live are a frontier at the head
of every round, and at the end. -/
theorem execute_frontier (maxTreeDepth : Int) :
    (∀ (condition : Expression Name) (thenBody elseBody : Statement Name) (leaf : SETNode),
      IfFrontier maxDepth solver condition thenBody elseBody leaf ↔
        IfKeeps solver condition leaf
            (executeStatementSym maxDepth solver thenBody [branchNode condition true leaf])
            (executeStatementSym maxDepth solver elseBody [branchNode condition false leaf]) ∧
          StatementFrontier maxDepth solver thenBody (branchNode condition true leaf) ∧
          StatementFrontier maxDepth solver elseBody (branchNode condition false leaf)) ∧
    (∀ (block : Statement Name) (leaf : SETNode),
      (EveryIf maxDepth solver (IfFrontier maxDepth solver) block [leaf] ↔
        CleanStatement maxDepth solver block [leaf]) ∧
      (CleanStatement maxDepth solver block [leaf] →
        Frontier (executeBlock maxDepth solver block leaf).done
          (executeBlock maxDepth solver block leaf).live)) ∧
    (∀ (t : PlacedTransition Name) (leaf : SETNode) (conf conf' : List StateRef)
      (res : SymbolicExecutionResult),
      takeTransition c.root maxDepth solver t leaf conf = some (res, conf') →
      (∀ states, transitionStates c.root t = some states →
        CleanTransition c.root maxDepth solver t states leaf) →
      Frontier res.done res.live) ∧
    (CleanFirst c.root maxDepth solver →
      (∀ loop,
        AtRound c.root maxDepth solver maxTreeDepth (CleanRound c.root maxDepth solver) loop →
        Frontier loop.done loop.leaves) ∧
      ∀ (fuel : Nat) (nodes : List SETNode),
        executeSym c.root maxDepth solver maxTreeDepth fuel = some nodes →
        (∀ loop, AtRound c.root maxDepth solver maxTreeDepth (CleanRound c.root maxDepth solver)
          loop → loop.leaves ≠ [] → CleanRound c.root maxDepth solver loop) →
        Frontier nodes []) := by
  refine ⟨ifFrontier_iff, fun block leaf => ⟨everyIf_frontier_iff block [leaf], fun hclean =>
    frontier_of_antichain (executeBlock_apart hclean)⟩, ?_, ?_⟩
  · intro t leaf conf conf' res htake hclean
    have ⟨states, hstates, heq⟩ := Option.bind_eq_some_iff.mp htake
    have hres := (Prod.mk.inj (Option.some.inj heq)).1
    exact frontier_of_antichain (hres ▸ takeTransitionNodes_apart (hclean states hstates))
  · intro hfirst
    refine ⟨fun loop hloop => frontier_of_antichain (hloop.apart h hfirst), ?_⟩
    intro fuel nodes hexec hclean
    have ⟨loop, hloop, hmain⟩ := Option.bind_eq_some_iff.mp hexec
    have ⟨last, hlast, hempty, hdone⟩ := mainLoop_atRound hclean (.first hloop) hmain
    have hnodes := hlast.apart h hfirst
    rw [hempty, hdone] at hnodes
    exact frontier_of_antichain hnodes

end

/-! ### The fork -/

theorem cleanFirst_fork : CleanFirst (accepted fork).root 20 alwaysSat := by
  refine ⟨⟨?_, fun _ => trivial⟩, ⟨fun l _ => trivial, fun _ => trivial⟩, trivial⟩
  intro l hl
  obtain rfl := Option.some.inj hl
  refine ⟨?_, trivial, trivial⟩
  intro l hl
  obtain rfl := Option.some.inj hl
  refine ⟨⟨rfl, rfl, ?_⟩, fun l _ => ⟨trivial, trivial⟩, fun l _ => ⟨trivial, trivial⟩⟩
  -- Both bodies leave a live node.
  intro hlive
  exact absurd (congrArg List.length hlive) (by decide)

/-- Where both conditions of the fork are satisfiable, one node is live before the main loop, and
none is done. -/
theorem execute_frontier_fork :
    ∃ loop, firstRound (accepted fork).root 20 alwaysSat = some loop ∧ loop.leaves.length = 1 ∧
      Frontier loop.done loop.leaves :=
  have hfork : typecheck fork = .ok (accepted fork) := Result.eq_ok_getD (by decide) _
  ⟨_, rfl, by decide,
    ((execute_frontier hfork 20 alwaysSat 5).2.2.2 cleanFirst_fork).1 _ (.first rfl)⟩

/-- The answers of a solver for the entry code of the fork: `x` is 0, so the else body is not
executed. -/
def xIsZero : Solver
  | _, .elseCondition _ => .other
  | _, _ => .sat

/-- The leaf at which the entry code of the fork is executed. -/
def forkLeaf : SETNode :=
  initializeVariables (accepted fork).root [] .localScope (.stateEntry [] .start)

/-- The leaf is done, and a node below it is live. -/
theorem not_frontier_fork :
    (typecheck fork).isOk = true ∧
    (executeBlock 20 xIsZero ((accepted fork).root.entryAt []) forkLeaf).done = [forkLeaf] ∧
    ¬ Frontier (executeBlock 20 xIsZero ((accepted fork).root.entryAt []) forkLeaf).done
      (executeBlock 20 xIsZero ((accepted fork).root.entryAt []) forkLeaf).live := by
  refine ⟨by decide, rfl, fun h => ?_⟩
  let live := (executeBlock 20 xIsZero ((accepted fork).root.entryAt []) forkLeaf).live
  have hlive : live.headD .start ∈ live := List.mem_of_getElem? (i := 0) rfl
  have hpath : forkLeaf ∈ (live.headD .start).path := List.mem_of_getElem? (i := 4) rfl
  have hsame := h.unexplored forkLeaf List.mem_cons_self _ (List.mem_append_right _ hlive) hpath
  exact absurd (congrArg SETNode.depth hsame) (by decide)

end Stabl
