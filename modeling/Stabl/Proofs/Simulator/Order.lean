import Stabl.Lib.CallTrace
import Stabl.Proofs.Simulator.DataFlow

/-!
# `Stabl.Proofs.Simulator.Order`: the order of code in a transition

The log of a transition, without the reads and writes of variables. The way up alternates exit
code and `exitState`, then comes the action, and the way down and the descent alternate
`enterState` and entry code (`performTransition_order`).

The configuration in which a piece of code runs is the one that the entries and exits before it
lead to. On the way up and on the way down it is a chain, which the code's state ends
(`along_leaving`, `along_entering`).
-/

set_option autoImplicit false

namespace Stabl

open Result TreeAddress EnterExit World CallTrace

/-! ### The log without accesses -/

/-- The events of a log other than reads and writes of variables. -/
def stateEvents (log : List Event) : List Event :=
  log.filter fun e =>
    match e with
    | .access _ => false
    | _ => true

@[simp] theorem stateEvents_append (log log' : List Event) :
    stateEvents (log ++ log') = stateEvents log ++ stateEvents log' :=
  List.filter_append log log'

theorem marks_stateEvents (log : List Event) : marks (stateEvents log) = marks log := by
  induction log with
  | nil => rfl
  | cons e log ih =>
      have hcons : stateEvents (e :: log) = stateEvents [e] ++ stateEvents log :=
        stateEvents_append [e] log
      have hmarks : marks (e :: log) = marks [e] ++ marks log := marks_append [e] log
      rw [hcons, marks_append, ih, hmarks]
      cases e <;> rfl

/-- A state is left: its exit code runs before `exitState`. -/
def leaving (s : StateRef) : List Event := [.exit s, .exitState s]

/-- A state is entered: its entry code runs after `enterState`. -/
def entering (s : StateRef) : List Event := [.enterState s, .entry s]

/-- From `w` to `w'` the log grows by the events, and by accesses. -/
def World.Logs (w : World) (events : List Event) (w' : World) : Prop :=
  ∃ trace, w'.log = w.log ++ trace ∧ stateEvents trace = events

namespace World.Logs

theorem rfl (w : World) : w.Logs [] w := ⟨[], (List.append_nil _).symm, Eq.refl _⟩

theorem trans {a b c : World} {events events' : List Event} (h : a.Logs events b)
    (h' : b.Logs events' c) : a.Logs (events ++ events') c := by
  have ⟨trace, hlog, htrace⟩ := h
  have ⟨trace', hlog', htrace'⟩ := h'
  refine ⟨trace ++ trace', ?_, ?_⟩
  · rw [hlog', hlog, List.append_assoc]
  · rw [stateEvents_append, htrace, htrace']

/-- Code reads and writes variables only. -/
theorem of_computesTo {w w' : World} (h : w.ComputesTo w') : w.Logs [] w' := by
  have ⟨trace, hlog, _⟩ := h.accesses
  refine ⟨_, hlog, ?_⟩
  simp [stateEvents]

/-- A piece of code, with the event that is logged before it. -/
theorem of_record {w w' : World} {e : Event} (he : stateEvents [e] = [e])
    (h : (w.record e).ComputesTo w') : w.Logs [e] w' := by
  have hrecord : w.Logs [e] (w.record e) := ⟨[e], w.record_log e, he⟩
  exact hrecord.trans (of_computesTo h)

end World.Logs

section
variable {root : State Name}

/-! ### The phases -/

/-- The way up leaves the states on it, innermost first. -/
theorem bubbleUp_logs {fuel : Nat} {l p : StateRef} (hl : l <:+ p) {w w' : World}
    (h : bubbleUp root fuel (some l) p w = .ok w') : w.Logs ((climb l p).flatMap leaving) w' := by
  -- The states left so far, followed by those still to be left, are the whole climb.
  have hrule := bubbleUp_preserves hl (P := fun q w₁ =>
    ∃ exits, exits ++ climb l q = climb l p ∧ w.Logs (exits.flatMap leaving) w₁) ?_
    ⟨[], rfl, .rfl w⟩ h
  · have ⟨exits, hexits, hlogs⟩ := hrule
    rw [climb_self, List.append_nil] at hexits
    exact hexits ▸ hlogs
  · intro i q w₁ w₂ hlq _ hP hcomp
    have ⟨exits, hexits, hlogs⟩ := hP
    have hcode : w₁.Logs [.exit (i :: q)] w₂ := .of_record rfl hcomp
    have hexit : w₂.Logs [.exitState (i :: q)] (w₂.exitState root (i :: q)) :=
      ⟨_, (exitState_exitsTo root (i :: q) w₂).log, rfl⟩
    refine ⟨exits ++ [i :: q], ?_, ?_⟩
    · rw [← hexits, climb_cons_of_suffix hlq, List.append_assoc, List.singleton_append]
    · rw [List.flatMap_append, List.flatMap_singleton]
      exact hlogs.trans (hcode.trans hexit)

theorem enterAndExecute_logs {fuel : Nat} {s : StateRef} {w w' : World}
    (h : enterAndExecute root fuel s w = .ok w') : w.Logs (entering s) w' := by
  have ⟨w₁, henter, hentry⟩ := (enterAndExecute_eq_ok root).mp h
  have hfirst : w.Logs [.enterState s] w₁ := ⟨_, (enterState_entersTo henter).log, rfl⟩
  have hcode : w₁.Logs [.entry s] w' := .of_record rfl (executeStatement_computesTo hentry)
  exact hfirst.trans hcode

/-- The way down enters the states on it, outermost first. -/
theorem enterPath_logs {fuel : Nat} {l p : StateRef} {w w' : World}
    (h : enterPath root fuel l p w = .ok w') :
    w.Logs ((climb l p).reverse.flatMap entering) w' := by
  unfold enterPath at h
  generalize (climb l p).reverse = states at h ⊢
  induction states generalizing w with
  | nil =>
      rw [List.foldlM_nil, pure_eq_ok] at h
      exact h ▸ .rfl w
  | cons s states ih =>
      have ⟨w₁, hfirst, hrest⟩ := bind_eq_ok.mp h
      rw [List.flatMap_cons]
      exact (enterAndExecute_logs hfirst).trans (ih hrest)

/-- The descent below a state enters one substate after the other, down to an atomic state. -/
theorem getAtomicState_logs {fuel : Nat} : ∀ {p : StateRef} {w : World} {r : StateRef × World},
    Entering root p w → getAtomicState root fuel p 1 w = .ok r →
      ∃ below, w.Logs ((p :: below).flatMap entering) r.2 ∧ chain r.1 = chain p ++ below := by
  induction fuel with
  | zero =>
      intro p w r _ h
      cases h
  | succ fuel ih =>
      intro p w r hin h
      rw [getAtomicState] at h
      simp only [if_true] at h
      split at h
      · rename_i w₁ hthrow
        exact absurd hthrow hin.noException
      · cases h
      · rename_i w₁ henter
        have hlogs := enterAndExecute_logs henter
        have hin₁ := hin.enter henter
        split at h
        · obtain rfl := Except.ok.inj h
          refine ⟨[], ?_, (List.append_nil _).symm⟩
          simpa using hlogs
        · rename_i hatomic
          have hnext := hin₁.nextSubstate hatomic
          obtain ⟨below, hbelow, hchain⟩ := ih hnext h
          refine ⟨nextSubstate root p w₁ :: below, ?_, ?_⟩
          · rw [List.flatMap_cons]
            exact hlogs.trans hbelow
          · have hsuper : chain (nextSubstate root p w₁) = chain p ++ [nextSubstate root p w₁] := by
              rw [← getAllSuperstates_append_self, ← hnext.configuration, hin₁.configuration]
            rw [hchain, hsuper, List.append_assoc, List.singleton_append]

/-- The descent below a state that has been entered already. -/
theorem getAtomicState_logs_below {fuel : Nat} {p : StateRef} {w : World} {r : StateRef × World}
    (hin : InState root p w) (h : getAtomicState root fuel p 0 w = .ok r) :
    ∃ below, w.Logs (below.flatMap entering) r.2 ∧ chain r.1 = chain p ++ below := by
  cases fuel with
  | zero => cases h
  | succ fuel =>
      rw [getAtomicState] at h
      simp only [Nat.reduceEqDiff, if_false] at h
      split at h
      · obtain rfl := Except.ok.inj h
        exact ⟨[], .rfl w, (List.append_nil _).symm⟩
      · rename_i hatomic
        have hnext := hin.nextSubstate hatomic
        obtain ⟨below, hbelow, hchain⟩ := getAtomicState_logs hnext h
        refine ⟨nextSubstate root p w :: below, hbelow, ?_⟩
        have hsuper : chain (nextSubstate root p w) = chain p ++ [nextSubstate root p w] := by
          rw [← getAllSuperstates_append_self, ← hnext.configuration, hin.configuration]
        rw [hchain, hsuper, List.append_assoc, List.singleton_append]

end

/-! ### The configuration in which code runs -/

/-- The code of a state runs while the configuration is the chain of the state. `conf` is the
configuration in which the log begins. -/
def RunsInChain (conf : List StateRef) (before : List Event) (e : Event) : Prop :=
  ∀ s, e = .exit s ∨ e = .entry s → replay conf (marks before) = chain s

/-- Accesses change no configuration. -/
theorem along_stateEvents {conf : List StateRef} {log : List Event} :
    ∀ {before : List Event}, Along (RunsInChain conf) (stateEvents before) (stateEvents log) →
      Along (RunsInChain conf) before log := by
  induction log with
  | nil => exact fun _ => trivial
  | cons e log ih =>
      intro before h
      have hcons : stateEvents (e :: log) = stateEvents [e] ++ stateEvents log :=
        stateEvents_append [e] log
      rw [hcons, along_append, ← stateEvents_append] at h
      refine ⟨?_, ih h.2⟩
      intro s hs
      have hfirst : stateEvents [e] = [e] := by
        rcases hs with rfl | rfl
        · rfl
        · rfl
      rw [hfirst] at h
      rw [← marks_stateEvents before]
      exact h.1.1 s hs

/-- The way up. -/
theorem along_leaving {conf : List StateRef} {l p : StateRef} (hl : l <:+ p) :
    ∀ {before : List Event}, replay conf (marks before) = chain p →
      Along (RunsInChain conf) before ((climb l p).flatMap leaving) ∧
        replay conf (marks (before ++ (climb l p).flatMap leaving)) = chain l := by
  induction p with
  | nil =>
      intro before h
      obtain rfl := List.suffix_nil.mp hl
      rw [climb_self, List.flatMap_nil, List.append_nil]
      exact ⟨trivial, h⟩
  | cons i p ih =>
      intro before h
      rcases List.suffix_cons_iff.mp hl with rfl | hl
      · rw [climb_self, List.flatMap_nil, List.append_nil]
        exact ⟨trivial, h⟩
      · -- Leaving a state removes the last state of its chain.
        have hleft : replay conf (marks (before ++ leaving (i :: p))) = chain p := by
          rw [marks_append, replay_append, h]
          show mark (chain (i :: p)) (.exit (i :: p)) = chain p
          rw [mark, ← erase_chain_cons i p]
          congr 1
          exact lawful_beq_subsingleton _ _
        obtain ⟨hrest, hend⟩ := ih hl hleft
        rw [climb_cons_of_suffix hl, List.flatMap_cons, along_append, ← List.append_assoc]
        refine ⟨⟨⟨?_, ?_, trivial⟩, hrest⟩, hend⟩
        · intro s hs
          obtain rfl : i :: p = s := by simpa using hs
          exact h
        · intro s hs
          simp at hs

/-- The way down and the descent: `above` is the chain to which the states are added. -/
theorem along_entering {conf : List StateRef} {last : StateRef} {states : List StateRef} :
    ∀ (above : List StateRef) {before : List Event}, chain last = above ++ states →
      replay conf (marks before) = above →
      Along (RunsInChain conf) before (states.flatMap entering) := by
  induction states with
  | nil => exact fun _ _ _ _ => trivial
  | cons x states ih =>
      intro above before hlast h
      -- `x` is the next state of the chain of `last`, so entering it gives the chain of `x`.
      have hx : chain x = above ++ [x] := chain_of_append _ hlast
      have hnew : x ∉ above := by
        intro hmem
        have hnodup := hx ▸ nodup_chain x
        exact (List.nodup_append.mp hnodup).2.2 x hmem x (List.mem_singleton_self x) rfl
      have hentered : replay conf (marks (before ++ [.enterState x])) = above ++ [x] := by
        rw [marks_append, replay_append, h]
        show mark above (.enter x) = above ++ [x]
        rw [mark, if_neg hnew]
      rw [List.flatMap_cons, along_append]
      refine ⟨⟨?_, ?_, trivial⟩, ih (above ++ [x]) ?_ ?_⟩
      · intro s hs
        simp at hs
      · intro s hs
        obtain rfl : x = s := by simpa using hs
        rw [hentered, hx]
      · rw [hlast, List.append_assoc, List.singleton_append]
      · have hmarks : marks (before ++ entering x) = marks (before ++ [.enterState x]) := by
          rw [marks_append, marks_append]
          rfl
        rw [hmarks, hentered]

/-! ### Settled worlds and the order of a transition -/

/-- A world of a run in which a chain is the configuration: the chain of an atomic state. The
constructor has prepared the statechart and its direct children, the children that were left last
are children, and the log leads to the configuration. -/
structure Settled (root : State Name) (curr : StateRef) (w : World) : Prop where
  configuration : w.eState.configuration = chain curr
  valid : (root.stateAt curr).isSome
  atomic : root.isAtomicAt curr = true
  populated : ∀ s, s.length ≤ 1 → (∃ d ∈ root.declarationsAt s, d.scope = .staticScope) →
    w.eState.valueHistory s ≠ none
  history : ∀ s c, w.eState.stateHistory s = some c →
    getSuperstate c = some s ∧ (root.stateAt c).isSome
  tracked : w.Tracked

theorem Settled.inState {root : State Name} {curr : StateRef} {w : World}
    (h : Settled root curr w) (hstatics : StaticsAtTop root) : InState root curr w where
  sound := ⟨fun s hs => h.populated s (hstatics s hs) hs, h.history, h.tracked⟩
  configuration := h.configuration
  valid := h.valid

/-- The head of the loop of `simulate` is such a world. -/
theorem AtLoopHead.settled {sc : Statechart} {c : CheckedStatechart} (hc : typecheck sc = .ok c)
    (hstatics : StaticsAtTop c.root) {curr : StateRef} {w : World} (h : AtLoopHead c curr w) :
    Settled c.root curr w :=
  have ⟨hin, hatomic⟩ := h.inState hc hstatics
  ⟨hin.configuration, hin.valid, hatomic, fun s _ hs => hin.sound.prepared s hs,
    hin.sound.history, hin.sound.tracked⟩

/-- The log of a transition from the state `curr`, with the descent to the state `last`. -/
structure TransitionOrder (t : PlacedTransition Name) (curr last : StateRef) (trace : List Event) :
    Prop where
  /-- Exit code up to the lub, the action, then entry code down to the last state. -/
  events : ∃ below, chain last = chain t.transition.destination ++ below ∧
    stateEvents trace = (climb t.state curr).flatMap leaving ++
      .action t.state t.transition.name ::
        ((climb t.state t.transition.destination).reverse ++ below).flatMap entering
  once : (stateEvents trace).Nodup
  /-- The states in the configuration are the state whose code runs and its ancestors. -/
  configuration : ∀ before e after s, trace = before ++ e :: after → e = .exit s ∨ e = .entry s →
    replay (chain curr) (marks before) = chain s
  /-- The lub and its ancestors stay. -/
  stays : ∀ s, s <:+ t.state →
    ∀ e ∈ trace, e ≠ .exit s ∧ e ≠ .exitState s ∧ e ≠ .enterState s ∧ e ≠ .entry s

/-! ### The whole transition -/

theorem mem_stateEvents {log : List Event} {e : Event} (he : stateEvents [e] = [e]) :
    e ∈ stateEvents log ↔ e ∈ log := by
  have hfilter : e ∈ stateEvents [e] := by
    rw [he]
    exact List.mem_singleton_self e
  exact ⟨fun h => (List.mem_filter.mp h).1,
    fun h => List.mem_filter.mpr ⟨h, (List.mem_filter.mp hfilter).2⟩⟩

theorem mem_leaving {states : List StateRef} {e : Event} :
    e ∈ states.flatMap leaving ↔ ∃ s ∈ states, e = .exit s ∨ e = .exitState s := by
  simp [leaving]

theorem mem_entering {states : List StateRef} {e : Event} :
    e ∈ states.flatMap entering ↔ ∃ s ∈ states, e = .enterState s ∨ e = .entry s := by
  simp [entering]

/-- The state whose code a logged event is about. -/
def Event.codeState : Event → Option StateRef
  | .exit s | .exitState s | .enterState s | .entry s => some s
  | _ => none

theorem codeState_leaving {s : StateRef} {e : Event} (h : e ∈ leaving s) :
    e.codeState = some s := by
  simp only [leaving, List.mem_cons, List.not_mem_nil, or_false] at h
  rcases h with rfl | rfl
  · rfl
  · rfl

theorem codeState_entering {s : StateRef} {e : Event} (h : e ∈ entering s) :
    e.codeState = some s := by
  simp only [entering, List.mem_cons, List.not_mem_nil, or_false] at h
  rcases h with rfl | rfl
  · rfl
  · rfl

/-- Different states have different events. -/
theorem nodup_flatMap_code {code : StateRef → List Event} (hone : ∀ s, (code s).Nodup)
    (hcode : ∀ s, ∀ e ∈ code s, e.codeState = some s) {states : List StateRef}
    (h : states.Nodup) : (states.flatMap code).Nodup := by
  refine List.nodup_flatMap.mpr ⟨fun s _ => hone s, h.imp ?_⟩
  intro s s' hne e he he'
  have hsame : some s = some s' := (hcode s e he).symm.trans (hcode s' e he')
  exact hne (Option.some.inj hsame)

section
variable {t : PlacedTransition Name} {curr last : StateRef} {trace : List Event}
  {below : List StateRef}
  (hevents : stateEvents trace = (climb t.state curr).flatMap leaving ++
    .action t.state t.transition.name ::
      ((climb t.state t.transition.destination).reverse ++ below).flatMap entering)
include hevents

/-- Code of a state runs only when the state is left or entered. -/
theorem mem_of_codeState {e : Event} (he : e ∈ stateEvents trace) {s : StateRef}
    (hs : e.codeState = some s) :
    s ∈ climb t.state curr ∨ s ∈ (climb t.state t.transition.destination).reverse ++ below := by
  rw [hevents, List.mem_append, List.mem_cons] at he
  rcases he with he | rfl | he
  · have ⟨q, hq, he⟩ := List.mem_flatMap.mp he
    rw [codeState_leaving he] at hs
    exact .inl (Option.some.inj hs ▸ hq)
  · cases hs
  · have ⟨q, hq, he⟩ := List.mem_flatMap.mp he
    rw [codeState_entering he] at hs
    exact .inr (Option.some.inj hs ▸ hq)

/-- No event comes twice. -/
theorem nodup_stateEvents (hcurr : t.state <:+ curr)
    (hdown : ((climb t.state t.transition.destination).reverse ++ below).Nodup) :
    (stateEvents trace).Nodup := by
  have hleaving := nodup_flatMap_code (fun s => by simp [leaving])
    (fun s e => codeState_leaving) (nodup_climb hcurr)
  have hentering := nodup_flatMap_code (fun s => by simp [entering])
    (fun s e => codeState_entering) hdown
  rw [hevents]
  refine List.nodup_append.mpr ⟨hleaving, List.nodup_cons.mpr ⟨?_, hentering⟩, ?_⟩
  · intro hmem
    have ⟨s, _, hs⟩ := mem_entering.mp hmem
    rcases hs with hs | hs
    · cases hs
    · cases hs
  · intro e he e' he' heq
    have ⟨s, _, hs⟩ := mem_leaving.mp he
    subst heq
    rcases List.mem_cons.mp he' with rfl | he'
    · simp at hs
    · have ⟨s', _, hs'⟩ := mem_entering.mp he'
      rcases hs with rfl | rfl
      · simp at hs'
      · simp at hs'

/-- The exit code of a state runs in the configuration that ends with it, and so does its entry
code. -/
theorem runsInChain_of_events (hcurr : t.state <:+ curr)
    (hchain : chain last =
      chain t.state ++ ((climb t.state t.transition.destination).reverse ++ below)) :
    Along (RunsInChain (chain curr)) [] trace := by
  have hstart : replay (chain curr) (marks []) = chain curr := rfl
  have ⟨hup, hlub⟩ := along_leaving hcurr hstart
  refine along_stateEvents ?_
  rw [hevents, along_append, along_cons]
  refine ⟨hup, fun s hs => by simp at hs, along_entering _ hchain ?_⟩
  rw [marks_append]
  show replay (chain curr) (marks ([] ++ (climb t.state curr).flatMap leaving) ++ []) = _
  rw [List.append_nil]
  exact hlub

/-- The rest of the order follows from the events. -/
theorem TransitionOrder.of_events (hcurr : t.state <:+ curr)
    (hdest : t.state <:+ t.transition.destination)
    (hlast : chain last = chain t.transition.destination ++ below) :
    TransitionOrder t curr last trace := by
  -- The chain of the last state is that of the lub, with the states that are entered.
  have hchain : chain last =
      chain t.state ++ ((climb t.state t.transition.destination).reverse ++ below) := by
    rw [hlast, chain_eq_append_climb hdest, List.append_assoc]
  have ⟨_, hdown, hapart⟩ := List.nodup_append.mp (hchain ▸ nodup_chain last)
  refine ⟨⟨below, hlast, hevents⟩, nodup_stateEvents hevents hcurr hdown, ?_, ?_⟩
  · intro before e after s htrace hs
    have halong := runsInChain_of_events hevents hcurr hchain
    rw [htrace] at halong
    exact halong.split s hs
  · intro s hs e he
    have hup : s ∉ climb t.state curr := by
      intro hmem
      have ⟨_, hl, hne⟩ := (mem_climb hcurr).mp hmem
      exact hne (hs.eq_of_length_le hl.length_le)
    have hdown : s ∉ (climb t.state t.transition.destination).reverse ++ below := by
      intro hmem
      exact hapart s (mem_chain.mpr hs) s hmem rfl
    have hnot : ∀ e : Event, stateEvents [e] = [e] → e.codeState = some s → e ∉ trace := by
      intro e hkept hcode he
      have hmem := mem_of_codeState hevents ((mem_stateEvents hkept).mpr he) hcode
      exact hmem.elim hup hdown
    exact ⟨fun h => hnot _ rfl rfl (h ▸ he), fun h => hnot _ rfl rfl (h ▸ he),
      fun h => hnot _ rfl rfl (h ▸ he), fun h => hnot _ rfl rfl (h ▸ he)⟩

end

/-- A transition that is fired in an atomic state, with the descent after it. The exit code runs
from the current state up to the child of the lub, then the action runs, then the entry code of the
states from the child of the lub down to the destination and further down to an atomic state. Each
piece of code runs once, while its state and the ancestors of its state are in the configuration.
Neither the lub nor an ancestor of it is left or entered. -/
theorem performTransition_order {sc : Statechart} {c : CheckedStatechart}
    (hc : typecheck sc = .ok c) (hstatics : StaticsAtTop c.root) {t : PlacedTransition Name}
    (ht : t.transition ∈ c.root.transitionsAt t.state) {curr : StateRef} {w : World}
    (hw : Settled c.root curr w) (hsource : t.transition.source <:+ curr) {fuel fuel' : Nat}
    {w' : World} {r : StateRef × World}
    (hperform : performTransition c.root fuel t curr w = .ok w')
    (hdescend : getAtomicState c.root fuel' t.transition.destination 0 w' = .ok r) :
    lub t.transition.source t.transition.destination = some t.state ∧
    ∃ trace, r.2.log = w.log ++ trace ∧ TransitionOrder t curr r.1 trace ∧
      r.2.eState.configuration = chain r.1 ∧ c.root.isAtomicAt r.1 = true := by
  have ⟨hlub, _, hdest⟩ := lub_of_accepted hc ht
  have ⟨⟨hlsource, _⟩, ⟨hldest, _⟩⟩ := lub_proper hlub
  have hcurr : t.state <:+ curr := hlsource.trans hsource
  refine ⟨hlub, ?_⟩
  have hin := hw.inState hstatics
  have hin' : InState c.root t.transition.destination w' :=
    hin.performTransition hlub hcurr hdest hperform
  have ⟨hlast, hatomic⟩ := getAtomicState_inState (fun h => absurd h (by decide))
    (fun _ => hin') hdescend
  have ⟨w₁, w₂, hup, haction, hdown⟩ := (performTransition_eq_ok hlub hcurr).mp hperform
  have hup' := bubbleUp_logs hcurr hup
  have haction' : w₁.Logs [.action t.state t.transition.name] w₂ :=
    .of_record rfl (executeStatement_computesTo haction)
  have hin₂ : InState c.root t.state w₂ :=
    ((hin.bubbleUp hcurr hup).record rfl).computesTo (executeStatement_computesTo haction)
  have hdown' : w₂.Logs ((climb t.state t.transition.destination).reverse.flatMap entering) w' := by
    rcases hdown with hdown | hthrow
    · exact enterPath_logs hdown
    · exact absurd hthrow (hin₂.enterPath_noException hldest hdest)
  have ⟨below, hbelow, hchain⟩ := getAtomicState_logs_below hin' hdescend
  have ⟨trace, hlog, htrace⟩ := hup'.trans (haction'.trans (hdown'.trans hbelow))
  refine ⟨trace, hlog, ?_, hlast.configuration, hatomic⟩
  refine .of_events ?_ hcurr hldest hchain
  rw [htrace, List.flatMap_append]
  rfl

/-- The courier before its first event. -/
def courierLoaded : World := (loopHead (accepted courier) 10 [] []).2

/-- The courier after `start`, and after the descent to an atomic state. -/
def courierStarted : World :=
  getD (performTransition (accepted courier).root 10 courierStart [0] courierLoaded) courierLoaded

def courierDriving : StateRef × World :=
  getD (getAtomicState (accepted courier).root 10 [0, 1] 0 courierStarted) ([], courierStarted)

set_option maxRecDepth 4000 in
/-- `start` leaves `Loading`, and enters `Tour` and `Driving`. -/
theorem performTransition_order_courier :
    ∃ trace, courierDriving.2.log = courierLoaded.log ++ trace ∧
      TransitionOrder courierStart [0] courierDriving.1 trace := by
  have hhead : AtLoopHead (accepted courier) [0] courierLoaded := by
    have hcurr : (loopHead (accepted courier) 10 [] []).1 = [0] := by decide
    have h := atLoopHead (accepted courier) 10 [] [] (by decide)
    rw [hcurr] at h
    exact h
  have hsettled := hhead.settled courier_accepted (by decide)
  have hmem : courierStart.transition ∈
      (accepted courier).root.transitionsAt courierStart.state :=
    List.mem_of_getElem? (i := 0) rfl
  have hperform : performTransition (accepted courier).root 10 courierStart [0] courierLoaded =
      .ok courierStarted := eq_ok_getD (by decide) _
  have hdescend : getAtomicState (accepted courier).root 10 courierStart.transition.destination 0
      courierStarted = .ok courierDriving := eq_ok_getD (by decide) _
  have ⟨_, trace, hlog, horder, _⟩ := performTransition_order courier_accepted (by decide) hmem
    hsettled (by decide) hperform hdescend
  exact ⟨trace, hlog, horder⟩

end Stabl
