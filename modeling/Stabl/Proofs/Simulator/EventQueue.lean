import Stabl.Proofs.Simulator.Invariants
import Stabl.Proofs.Simulator.NullEvent

/-!
# `Stabl.Proofs.Simulator.EventQueue`: no event is lost, and none comes twice

A round of the simulation takes one event from the queue, asks the user when there is none, and
fires one transition. `roundsOf` lists, for each round of a run, the event, the events that the
user has typed, and the transition. `events_conserved` is the law of the queue: the events that
the rounds have handled, followed by those that wait, are the events of the statechart followed by
those that were typed, in order. The event `null` stands for no event, so it is not counted.

The two modes that ask for no events are this mode with the answer no in every round
(`preEventRounds_eq`), and handle the events of the statechart one by one
(`preEventOneShot_events`).
-/

set_option autoImplicit false

namespace Stabl

open Result World

/-- A round: its event, what the user has typed in it, and the transition that it fires. -/
structure Round where
  event : String
  asked : List String
  transition : PlacedTransition Name

/-- The events that the user types, when there is none. -/
def typedEvents (typed : Option (List String)) (w : World) : List String :=
  if w.getEvent.1 = "null" then typed.getD [] else []

section
variable (root : State Name) (fuel : Nat)

/-- What the round from a loop head handles, if it fires a transition. -/
def roundOf (head : StateRef × World) (typed : Option (List String)) : Option Round :=
  match getValidTransition root head.1 (nextEvent typed head.2).1 (nextEvent typed head.2).2 with
  | (.transition t, _) => some ⟨(nextEvent typed head.2).1, typedEvents typed head.2, t⟩
  | _ => none

/-- The rounds of a run from a loop head, up to the one that does not end. -/
def roundsOf : StateRef × World → List (Option (List String)) → List Round
  | _, [] => []
  | head, typed :: rest =>
    match roundOf root head typed, simulateStep root fuel head typed with
    | some round, .ok head' => round :: roundsOf head' rest
    | _, _ => []

end

/-- The events that count. -/
def realEvents (events : List String) : List String := events.filter (· ≠ "null")

@[simp] theorem realEvents_append (es es' : List String) :
    realEvents (es ++ es') = realEvents es ++ realEvents es' := List.filter_append es es'

/-- The next event and those that wait then are those that have waited and were typed. -/
theorem nextEvent_conserves (typed : Option (List String)) (w : World) :
    realEvents ((nextEvent typed w).1 :: (nextEvent typed w).2.eState.eventQueue) =
      realEvents (w.eState.eventQueue ++ typedEvents typed w) := by
  have hget : ∀ w : World,
      realEvents (w.getEvent.1 :: w.getEvent.2.eState.eventQueue) =
        realEvents w.eState.eventQueue := by
    intro w
    unfold getEvent
    split
    · rename_i hempty
      rw [hempty]
      rfl
    · rename_i e es hqueue
      rw [hqueue]
  -- A null event adds nothing.
  have hnull : ∀ es : List String, realEvents ("null" :: es) = realEvents es := fun es => rfl
  have hfirst := hget w
  unfold nextEvent typedEvents
  split
  · rename_i w₁ heq
    rw [heq] at hfirst ⊢
    rw [hnull] at hfirst
    rw [if_pos rfl]
    cases typed with
    | none =>
        rw [hnull, Option.getD_none, List.append_nil]
        exact hfirst
    | some es =>
        have hsecond := hget (w₁.addEvents es)
        rw [Option.getD_some, realEvents_append, ← hfirst, ← realEvents_append]
        exact hsecond
  · rename_i event w₁ hne heq
    rw [heq] at hfirst ⊢
    have hevent : event ≠ "null" := by
      rintro rfl
      exact hne rfl
    rw [if_neg hevent, List.append_nil]
    exact hfirst

section
variable {sc : Statechart} {c : CheckedStatechart}

/-- Code does not touch the event queue, and neither do `enterState` and `exitState`. -/
theorem eventQueue_kept (root : State Name) (q : List String) :
    Kept root (fun _ => True) (fun _ _ => True) (fun w => w.eState.eventQueue = q) where
  reads hreads h := by
    rw [hreads.eState]
    exact h
  record _ h := h
  assign {lhs rhs w} _ h := by
    have hstate := (evaluate_readsTo rhs w).eState
    show (evaluate rhs w).2.eState.eventQueue = q
    rw [hstate]
    exact h
  enter {s w} _ h := by
    refine ⟨fun w' hw' => ?_, fun w' hw' => ?_⟩
    · exact (enterState_entersTo hw').eventQueue.trans h
    · obtain ⟨w₁, heq, henter, _⟩ := enterState_throws hw'
      rw [Stop.exception.injEq] at heq
      exact heq ▸ henter.eventQueue.trans h
  exit {s w} _ h := (exitState_exitsTo root s w).eventQueue.trans h
  entryCode _ := Statement.assigns_true _
  exitCode _ := Statement.assigns_true _

/-- A round that reaches the next loop head has fired a transition, and has taken its event from
the queue. -/
theorem simulateStep_round (hc : typecheck sc = .ok c) {fuel : Nat} {head head' : StateRef × World}
    {typed : Option (List String)} (hhistory : head.2.HistoryBelow)
    (h : simulateStep c.root fuel head typed = .ok head') : ∃ t,
      roundOf c.root head typed =
          some ⟨(nextEvent typed head.2).1, typedEvents typed head.2, t⟩ ∧
        (t.transition.trigger = (nextEvent typed head.2).1 ∨ t.transition.trigger = "null") ∧
          head'.2.eState.eventQueue = (nextEvent typed head.2).2.eState.eventQueue := by
  obtain ⟨t, w₁, w₂, hselect, hperform, hatomic⟩ := simulateStep_eq_ok.mp h
  refine ⟨t, by rw [roundOf, hselect], trigger_of_getValidTransition (by rw [hselect]), ?_⟩
  obtain ⟨q, hq⟩ := nextEvent_world typed head.2
  rw [hq] at hselect ⊢
  have hreads := getValidTransition_readsTo c.root head.1 (nextEvent typed head.2).1
    { head.2 with eState := { head.2.eState with eventQueue := q } }
  rw [hselect] at hreads
  obtain ⟨_, hcurr, hplaced, _⟩ := getValidTransition_transition hselect
  have hlub := (lub_of_accepted hc hplaced).1
  have hkept := eventQueue_kept c.root q
  have hbelow₁ := (historyBelow_kept c.root).reads hreads (historyBelow_queueFree _ q hhistory)
  have hbelow₂ := (historyBelow_kept c.root).performTransition hlub hcurr (fun _ _ => trivial)
    (Statement.assigns_true _) hbelow₁ hperform
  have hqueue₁ : w₁.eState.eventQueue = q := hkept.reads hreads rfl
  have hqueue₂ := hkept.performTransition hlub hcurr (fun _ _ => trivial)
    (Statement.assigns_true _) hqueue₁ hperform
  exact hkept.getAtomicState hbelow₂ (fun _ _ => trivial) hqueue₂ hatomic

/-- The law of the queue, for any segment of a run. -/
theorem rounds_conserve (hc : typecheck sc = .ok c) {fuel : Nat}
    {replies : List (Option (List String))} {head head' : StateRef × World}
    (hhistory : head.2.HistoryBelow)
    (h : replies.foldlM (simulateStep c.root fuel) head = .ok head') :
    (roundsOf c.root fuel head replies).length = replies.length ∧
      realEvents ((roundsOf c.root fuel head replies).map Round.event ++
          head'.2.eState.eventQueue) =
        realEvents (head.2.eState.eventQueue ++
          (roundsOf c.root fuel head replies).flatMap Round.asked) ∧
      ∀ round ∈ roundsOf c.root fuel head replies,
        round.transition.transition.trigger = round.event ∨
          round.transition.transition.trigger = "null" := by
  induction replies generalizing head with
  | nil =>
      rw [List.foldlM_nil, pure_eq_ok] at h
      subst h
      refine ⟨rfl, ?_, fun _ h => by cases h⟩
      rw [roundsOf, List.flatMap_nil, List.append_nil, List.map_nil, List.nil_append]
  | cons typed rest ih =>
      rw [List.foldlM_cons, bind_eq_ok] at h
      obtain ⟨mid, hstep, hrest⟩ := h
      obtain ⟨t, hround, htrigger, hqueue⟩ := simulateStep_round hc hhistory hstep
      have hbelow : mid.2.HistoryBelow :=
        (historyBelow_kept c.root).simulateStep hc historyBelow_queueFree hhistory
          (fun _ _ => trivial) (fun _ _ _ _ => Statement.assigns_true _) hhistory hstep
      obtain ⟨hlength, hconserve, htriggers⟩ := ih hbelow hrest
      have hrounds : roundsOf c.root fuel head (typed :: rest) =
          ⟨(nextEvent typed head.2).1, typedEvents typed head.2, t⟩ ::
            roundsOf c.root fuel mid rest := by
        rw [roundsOf, hround, hstep]
      rw [hrounds]
      refine ⟨by rw [List.length_cons, List.length_cons, hlength], ?_, ?_⟩
      · -- The event of the first round comes before what the others handle.
        calc realEvents (((nextEvent typed head.2).1 ::
                (roundsOf c.root fuel mid rest).map Round.event) ++ head'.2.eState.eventQueue)
            = realEvents [(nextEvent typed head.2).1] ++
                realEvents ((roundsOf c.root fuel mid rest).map Round.event ++
                  head'.2.eState.eventQueue) := by
              rw [← realEvents_append, List.cons_append, List.singleton_append]
          _ = realEvents ((nextEvent typed head.2).1 ::
                (nextEvent typed head.2).2.eState.eventQueue) ++
                realEvents ((roundsOf c.root fuel mid rest).flatMap Round.asked) := by
              rw [hconserve, hqueue, realEvents_append, ← List.append_assoc, ← realEvents_append,
                List.singleton_append]
          _ = realEvents (head.2.eState.eventQueue ++ (typedEvents typed head.2 ++
                (roundsOf c.root fuel mid rest).flatMap Round.asked)) := by
              rw [nextEvent_conserves, ← realEvents_append, List.append_assoc]
      · intro round hround
        rcases List.mem_cons.mp hround with rfl | hround
        · exact htrigger
        · exact htriggers round hround

/-- The constructor puts the events of the statechart into the queue. -/
theorem initial_eventQueue (root : State Name) (events : List String)
    (stdin : List (Option Int32)) :
    (World.initial root events stdin).eState.eventQueue = events := by
  have hpopulate : ∀ (e : ExecutionState) (s : StateRef),
      (populate root e s).eventQueue = e.eventQueue := by
    intro e s
    unfold populate
    split <;> rfl
  refine List.foldlRecOn _ (populate root) ?_ (motive := fun e => e.eventQueue = events)
    fun e he s _ => (hpopulate e s).trans he
  exact hpopulate ⟨fun _ => none, [], events, fun _ => none, fun _ => none⟩ []

/-- The simulation begins with the events of the statechart in the queue. -/
theorem start_eventQueue {fuel : Nat} {stdin : List (Option Int32)} {start : StateRef × World}
    (h : getAtomicState c.root fuel [] 1 (World.initial c.root c.events stdin) = .ok start) :
    start.2.HistoryBelow ∧ start.2.eState.eventQueue = c.events := by
  have hbelow := initial_historyBelow c.root c.events stdin
  exact ⟨(historyBelow_kept c.root).getAtomicState hbelow (fun _ _ => trivial) hbelow h,
    (eventQueue_kept c.root c.events).getAtomicState hbelow (fun _ _ => trivial)
      (initial_eventQueue c.root c.events stdin) h⟩

/-- In a run of an accepted statechart, the events that the rounds have handled, followed by those
that still wait, are the events of the statechart followed by those that the user has typed. Each
round handles one event and fires one transition, which has the event as its trigger or the null
event. -/
theorem events_conserved (hc : typecheck sc = .ok c) {fuel : Nat} {stdin : List (Option Int32)}
    {replies : List (Option (List String))} {curr : StateRef} {w : World}
    (h : simulate c.root c.events fuel stdin replies = .ok (curr, w)) : ∃ start,
    getAtomicState c.root fuel [] 1 (World.initial c.root c.events stdin) = .ok start ∧
      (roundsOf c.root fuel start replies).length = replies.length ∧
      realEvents ((roundsOf c.root fuel start replies).map Round.event ++ w.eState.eventQueue) =
        realEvents (c.events ++ (roundsOf c.root fuel start replies).flatMap Round.asked) ∧
      ∀ round ∈ roundsOf c.root fuel start replies,
        round.transition.transition.trigger = round.event ∨
          round.transition.transition.trigger = "null" := by
  obtain ⟨start, hstart, hrun⟩ := bind_eq_ok.mp h
  obtain ⟨hbelow, hqueue⟩ := start_eventQueue hstart
  refine ⟨start, hstart, ?_⟩
  rw [← hqueue]
  exact rounds_conserve hc hbelow hrun

/-! ### The modes that ask for no events -/

/-- The answer no leaves the event as it is. -/
theorem nextEvent_none (w : World) : nextEvent none w = w.getEvent := by
  unfold nextEvent
  split
  · rename_i heq
    exact heq.symm
  · rename_i heq
    exact heq.symm

/-- Asking for no events is asking and getting the answer no. -/
theorem preEventStep_eq (root : State Name) (fuel : Nat) (head : StateRef × World) :
    preEventStep root fuel head = simulateStep root fuel head none := by
  rw [preEventStep, simulateStep, nextEvent_none]

theorem preEventRounds_eq (root : State Name) (fuel n : Nat) (head : StateRef × World) :
    preEventRounds root fuel n head =
      (List.replicate n none).foldlM (simulateStep root fuel) head := by
  induction n generalizing head with
  | zero => rfl
  | succ n ih =>
      rw [preEventRounds, List.replicate_succ, List.foldlM_cons, preEventStep_eq]
      exact congrArg _ (funext ih)

/-- The mode without questions is the mode with questions that are answered with no. -/
theorem preEventOneShot_eq (root : State Name) (events : List String) (fuel : Nat)
    (stdin : List (Option Int32)) (n : Nat) : preEventOneShot root events fuel stdin n =
      simulate root events fuel stdin (List.replicate n none) := by
  rw [preEventOneShot, simulate]
  exact congrArg _ (funext (preEventRounds_eq root fuel n))

/-- Without questions, a segment of `n` rounds handles the events of the queue one by one, and
the null event once they are used up. -/
theorem rounds_in_order (hc : typecheck sc = .ok c) {fuel n : Nat} {head head' : StateRef × World}
    (hhistory : head.2.HistoryBelow)
    (h : (List.replicate n none).foldlM (simulateStep c.root fuel) head = .ok head') :
    (roundsOf c.root fuel head (List.replicate n none)).map Round.event =
        (head.2.eState.eventQueue ++ List.replicate n "null").take n ∧
      head'.2.eState.eventQueue = head.2.eState.eventQueue.drop n := by
  induction n generalizing head with
  | zero =>
      rw [List.replicate_zero, List.foldlM_nil, pure_eq_ok] at h
      subst h
      exact ⟨rfl, rfl⟩
  | succ n ih =>
      rw [List.replicate_succ, List.foldlM_cons, bind_eq_ok] at h
      obtain ⟨mid, hstep, hrest⟩ := h
      obtain ⟨t, hround, _, hqueue⟩ := simulateStep_round hc hhistory hstep
      have hbelow : mid.2.HistoryBelow :=
        (historyBelow_kept c.root).simulateStep hc historyBelow_queueFree hhistory
          (fun _ _ => trivial) (fun _ _ _ _ => Statement.assigns_true _) hhistory hstep
      obtain ⟨hevents, hrestQueue⟩ := ih hbelow hrest
      rw [List.replicate_succ, roundsOf, hround, hstep, List.map_cons, hevents, hrestQueue, hqueue,
        nextEvent_none]
      unfold getEvent
      split
      · -- The queue is empty, and stays so.
        rename_i hempty
        rw [hempty, List.nil_append, List.nil_append, List.replicate_succ, List.take_succ_cons,
          List.drop_nil, List.drop_nil]
        exact ⟨rfl, rfl⟩
      · rename_i e es hes
        rw [hes, List.cons_append, List.take_succ_cons, List.drop_succ_cons]
        refine ⟨?_, rfl⟩
        -- One `null` less is enough for one round less.
        show e :: (es ++ List.replicate n "null").take n =
          e :: (es ++ List.replicate (n + 1) "null").take n
        rw [List.take_append, List.take_append, List.take_replicate, List.take_replicate]
        congr 3
        omega

/-- A run of `n` rounds without questions handles the first `n` events of the statechart, and
the null event after the last one. -/
theorem preEventOneShot_events (hc : typecheck sc = .ok c) {fuel n : Nat}
    {stdin : List (Option Int32)} {curr : StateRef} {w : World}
    (h : preEventOneShot c.root c.events fuel stdin n = .ok (curr, w)) : AtLoopHead c curr w ∧
    w.eState.eventQueue = c.events.drop n ∧ ∃ start,
      getAtomicState c.root fuel [] 1 (World.initial c.root c.events stdin) = .ok start ∧
        (roundsOf c.root fuel start (List.replicate n none)).map Round.event =
          (c.events ++ List.replicate n "null").take n := by
  rw [preEventOneShot_eq] at h
  obtain ⟨start, hstart, hrun⟩ := bind_eq_ok.mp h
  obtain ⟨hbelow, hqueue⟩ := start_eventQueue hstart
  obtain ⟨hevents, hrest⟩ := rounds_in_order hc hbelow hrun
  rw [hqueue] at hevents hrest
  exact ⟨⟨fuel, stdin, List.replicate n none, h⟩, hrest, start, hstart, hevents⟩

end

/-! ### The courier -/

/-- A run that is known to get to the loop head. -/
theorem loopHead_run (c : CheckedStatechart) (fuel : Nat) (stdin : List (Option Int32))
    (replies : List (Option (List String)))
    (h : (simulate c.root c.events fuel stdin replies).isOk = true) :
    simulate c.root c.events fuel stdin replies =
      .ok ((loopHead c fuel stdin replies).1, (loopHead c fuel stdin replies).2) :=
  eq_ok_getD h _

/-- The courier is loading after one tour. -/
def courierShot : StateRef × World :=
  getD (preEventOneShot (accepted courier).root (accepted courier).events 10 [] 2)
    ([], World.initial (accepted courier).root [] [])

/-- Two rounds handle the two events of the courier, in their order. -/
theorem preEventOneShot_events_courier :
    courierShot.2.eState.eventQueue = [] ∧ ∃ start,
      (roundsOf (accepted courier).root 10 start [none, none]).map Round.event =
        ["go", "home"] := by
  have hrun : preEventOneShot (accepted courier).root (accepted courier).events 10 [] 2 =
      .ok (courierShot.1, courierShot.2) :=
    eq_ok_getD (by decide) ([], World.initial (accepted courier).root [] [])
  obtain ⟨_, hqueue, start, _, hevents⟩ := preEventOneShot_events courier_accepted hrun
  exact ⟨hqueue, start, hevents⟩

/-- The courier handles the events that it begins with and one that the user types. -/
theorem events_conserved_courier : ∃ start,
    (roundsOf (accepted courier).root 10 start [none, none, some ["go"]]).length = 3 ∧
      realEvents ((roundsOf (accepted courier).root 10 start [none, none, some ["go"]]).map
          Round.event ++
        (loopHead (accepted courier) 10 [] [none, none, some ["go"]]).2.eState.eventQueue) =
      realEvents (["go", "home"] ++
        (roundsOf (accepted courier).root 10 start [none, none, some ["go"]]).flatMap
          Round.asked) := by
  obtain ⟨start, _, hlength, hconserve, _⟩ := events_conserved courier_accepted
    (loopHead_run (accepted courier) 10 [] [none, none, some ["go"]] (by decide +kernel))
  exact ⟨start, hlength, hconserve⟩

end Stabl
