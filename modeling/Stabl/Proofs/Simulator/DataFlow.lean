import Stabl.Proofs.Simulator.Configuration

/-!
# `Stabl.Proofs.Simulator.DataFlow`: values across a transition

Code reads and writes variables, and the log has its accesses. `enterState` and
`exitState` write variables too, which the log does not show: a variable that they leave
alone has the value that the logged writes give it (`FollowsLog`), and one that they
reset does not.

So the values that an action reads and writes survive the phases before and after it for
the variables that these phases do not reset. Both directions are stated:

* `action_reads_exit_value`: leaving a state removes its local variables before the
  action reads them. Every other variable has the value that the exit code has left.
* `action_write_survives`: entering a state between the lub and the destination resets
  its local and static variables after the action has written them. Every other variable
  of the write environment keeps what the action wrote.
-/

set_option autoImplicit false

namespace Stabl

open Result TreeAddress AccessTrace World

/-! ### Values and the log -/

/-- The reads and writes in a log. -/
def accesses (log : List Event) : List (Access DeclarationRef (Option Constant)) :=
  log.filterMap fun e =>
    match e with
    | .access a => some a
    | _ => none

@[simp] theorem accesses_append (log log' : List Event) :
    accesses (log ++ log') = accesses log ++ accesses log' := by
  simp [accesses]

@[simp] theorem accesses_map (trace : List (Access DeclarationRef (Option Constant))) :
    accesses (trace.map Event.access) = trace := by
  induction trace with
  | nil => rfl
  | cons a trace ih => simp [accesses]

namespace World

/-- The accesses logged between `w` and a later world. -/
def accessesSince (w w' : World) : List (Access DeclarationRef (Option Constant)) :=
  accesses (w'.log.drop w.log.length)

theorem accessesSince_eq {w w' : World} {es : List Event} (h : w'.log = w.log ++ es) :
    w.accessesSince w' = accesses es := by
  rw [accessesSince, h, List.drop_left]

/-- What the writes logged between `w` and `w'` leave in a variable. -/
def loggedValue (w w' : World) (v : DeclarationRef) : Option Constant :=
  final w.eState.valueEnvironment (w.accessesSince w') v

/-- Between `w` and `w'` only logged writes have changed the variable `v`. -/
def FollowsLog (v : DeclarationRef) (w w' : World) : Prop :=
  ∃ es, w'.log = w.log ++ es ∧
    w'.eState.valueEnvironment v = final w.eState.valueEnvironment (accesses es) v

namespace FollowsLog

variable {v : DeclarationRef} {a b c : World}

theorem rfl (w : World) : FollowsLog v w w := ⟨[], by simp [accesses]⟩

theorem trans (h : FollowsLog v a b) (h' : FollowsLog v b c) : FollowsLog v a c := by
  obtain ⟨es, hlog, hvalue⟩ := h
  obtain ⟨es', hlog', hvalue'⟩ := h'
  refine ⟨es ++ es', by rw [hlog', hlog, List.append_assoc], ?_⟩
  rw [hvalue', accesses_append, final_append]
  exact final_congr hvalue _

theorem loggedValue (h : FollowsLog v a b) :
    b.eState.valueEnvironment v = a.loggedValue b v := by
  obtain ⟨es, hlog, hvalue⟩ := h
  rw [World.loggedValue, accessesSince_eq hlog, hvalue]

/-- Without a logged write the variable keeps its value. -/
theorem unwritten (h : FollowsLog v a b) (hv : Unwritten v (a.accessesSince b)) :
    b.eState.valueEnvironment v = a.eState.valueEnvironment v := by
  rw [h.loggedValue, World.loggedValue, final_of_unwritten _ hv]

/-- Code logs all of its writes. -/
theorem of_computesTo (h : a.ComputesTo b) : FollowsLog v a b := by
  obtain ⟨trace, hlog, _, hfinal⟩ := h.accesses
  exact ⟨trace.map Event.access, hlog, by rw [hfinal, accesses_map]⟩

theorem record (w : World) {e : Event} (he : accesses [e] = []) :
    FollowsLog v w (w.record e) :=
  ⟨[e], w.record_log e, by rw [he]; exact Eq.refl _⟩

variable {root : State Name} {s : StateRef}

theorem of_entersTo (h : EntersTo root s a b)
    (hv : ¬ DeclaredIn root s [.localScope, .staticScope] v) : FollowsLog v a b :=
  ⟨[.enterState s], h.log, h.frame v hv⟩

theorem of_exitsTo (h : ExitsTo root s a b) (hv : ¬ DeclaredIn root s [.localScope] v) :
    FollowsLog v a b :=
  ⟨[.exitState s], h.log, h.frame v hv⟩

end FollowsLog

end World

/-! ### The exit phase -/

section
variable {root : State Name} {fuel : Nat} {l p s : StateRef} {v : DeclarationRef} {w w' : World}

/-- A variable that is local to no exited state follows the log. -/
theorem bubbleUp_followsLog (hl : l <:+ p)
    (hv : ∀ s ∈ climb l p, ¬ DeclaredIn root s [.localScope] v)
    (h : bubbleUp root fuel (some l) p w = .ok w') : FollowsLog v w w' := by
  refine bubbleUp_preserves (P := fun _ w₁ => FollowsLog v w w₁) hl ?_ (.rfl w) h
  intro i q w₁ w₂ hq hi hfollows hcomp
  have hmem : i :: q ∈ climb l p :=
    (mem_climb hl).mpr ⟨hi, hq.trans (List.suffix_cons i q),
      fun he => cons_not_suffix i q (he ▸ hq)⟩
  have hexit : FollowsLog v w₁ w₂ :=
    (FollowsLog.record w₁ rfl).trans (.of_computesTo hcomp)
  exact (hfollows.trans hexit).trans (.of_exitsTo (exitState_exitsTo root _ w₂) (hv _ hmem))

/-- A local variable of an exited state is removed, and stays so unless the exit code of
an outer state writes it. -/
theorem bubbleUp_removes (hl : l <:+ p) (hs : s ∈ climb l p)
    (hv : DeclaredIn root s [.localScope] v)
    (h : bubbleUp root fuel (some l) p w = .ok w') :
    ∃ w₀ : World, w.log <+: w₀.log ∧ w₀.eState.valueEnvironment v = none ∧
      FollowsLog v w₀ w' ∧ ∃ w₁ : World, w₀ = w₁.exitState root s := by
  obtain ⟨hsp, hls, hne⟩ := (mem_climb hl).mp hs
  -- As long as `s` is on the chain it is still to be left; afterwards it has been left.
  have hrun := bubbleUp_preserves (P := fun q w₁ => w.log <+: w₁.log ∧
      (s <:+ q ∨ (¬ s <:+ q ∧ ∃ w₀ : World, w.log <+: w₀.log ∧
        w₀.eState.valueEnvironment v = none ∧ FollowsLog v w₀ w₁ ∧
          ∃ w₁ : World, w₀ = w₁.exitState root s))) hl ?_
    ⟨List.prefix_rfl, Or.inl hsp⟩ h
  · rcases hrun.2 with hsl | ⟨_, w₀, hw₀⟩
    · exact absurd (hsl.eq_of_length_le hls.length_le) hne
    · exact ⟨w₀, hw₀⟩
  · rintro i q w₁ w₂ hq hi ⟨hbefore, hcase⟩ hcomp
    have hexit := exitState_exitsTo root (i :: q) w₂
    have hrecord : FollowsLog v w₁ w₂ :=
      (FollowsLog.record w₁ rfl).trans (.of_computesTo hcomp)
    obtain ⟨es, hes, _⟩ := hrecord
    have hlog : w.log <+: (w₂.exitState root (i :: q)).log := by
      rw [hexit.log, hes, List.append_assoc]
      exact hbefore.trans (List.prefix_append _ _)
    refine ⟨hlog, ?_⟩
    rcases hcase with hsq | ⟨hnot, w₀, hw₀, hnone, hfollows, hw₁⟩
    · rcases List.suffix_cons_iff.mp hsq with rfl | hsq
      · exact Or.inr ⟨cons_not_suffix i q, _, hlog, exitState_local w₂ hv, .rfl _, w₂, rfl⟩
      · exact Or.inl hsq
    · have hother : ¬ DeclaredIn root (i :: q) [.localScope] v := by
        rintro ⟨hstate, _⟩
        exact hnot (hv.1 ▸ hstate ▸ List.suffix_rfl)
      refine Or.inr ⟨fun h => hnot (h.trans (List.suffix_cons i q)), w₀, hw₀, hnone, ?_, hw₁⟩
      exact (hfollows.trans ((FollowsLog.record w₁ rfl).trans (.of_computesTo hcomp))).trans
        (.of_exitsTo hexit hother)

/-! ### The entry phase -/

/-- One state is entered that does not reset the variable. -/
theorem enterAndExecute_followsLog
    (hv : ¬ DeclaredIn root s [.localScope, .staticScope] v)
    (h : enterAndExecute root fuel s w = .ok w') : FollowsLog v w w' := by
  obtain ⟨w₁, henter, hentry⟩ := (enterAndExecute_eq_ok root).mp h
  have hcomp := executeStatement_computesTo hentry
  exact (FollowsLog.of_entersTo (enterState_entersTo henter) hv).trans
    ((FollowsLog.record w₁ rfl).trans (.of_computesTo hcomp))

/-- A variable that no entered state resets follows the log, also when an exception ends
the phase. -/
theorem enterPath_followsLog (hl : l <:+ p)
    (hv : ∀ s ∈ climb l p, ¬ DeclaredIn root s [.localScope, .staticScope] v)
    (h : enterPath root fuel l p w = .ok w' ∨
      enterPath root fuel l p w = .error (.exception w')) : FollowsLog v w w' := by
  have hmem : ∀ i q, l <:+ q → (i :: q) <:+ p → i :: q ∈ climb l p := fun i q hq hi =>
    (mem_climb hl).mpr ⟨hi, hq.trans (List.suffix_cons i q),
      fun he => cons_not_suffix i q (he ▸ hq)⟩
  have hstep : ∀ i q w₁ w₂, l <:+ q → (i :: q) <:+ p → FollowsLog v w w₁ →
      enterAndExecute root fuel (i :: q) w₁ = .ok w₂ → FollowsLog v w w₂ :=
    fun i q w₁ w₂ hq hi hfollows hstep =>
      hfollows.trans (enterAndExecute_followsLog (hv _ (hmem i q hq hi)) hstep)
  rcases h with h | h
  · exact enterPath_preserves (P := fun _ w₁ => FollowsLog v w w₁) hl hstep (.rfl w) h
  · obtain ⟨i, q, w₁, hq, hi, hfollows, hthrow⟩ :=
      enterPath_throws (P := fun _ w₁ => FollowsLog v w w₁) hl hstep (.rfl w) h
    obtain ⟨w₂, heq, henters, _⟩ := enterState_throws hthrow
    obtain rfl : w' = w₂ := by simpa using heq
    exact hfollows.trans (.of_entersTo henters (hv _ (hmem i q hq hi)))

/-- A variable that entering `s` sets to `r` has the value `r` after the way down, unless
entry code writes it. -/
theorem enterPath_resets (hl : l <:+ p) (hs : s ∈ climb l p) (hv : v.state = s)
    {r : Option Constant}
    (hr : ∀ a b : World, a.eState.valueHistory = w.eState.valueHistory →
      a.enterState root s = .ok b → b.eState.valueEnvironment v = r)
    (h : enterPath root fuel l p w = .ok w') (hentry : Unwritten v (w.accessesSince w')) :
    w'.eState.valueEnvironment v = r := by
  obtain ⟨hsp, hls, hne⟩ := (mem_climb hl).mp hs
  -- Once `s` is on the chain, the value is `r` up to the entry code that has run since.
  have hrun := enterPath_preserves
    (P := fun q w₁ => w₁.eState.valueHistory = w.eState.valueHistory ∧ w.log <+: w₁.log ∧
      (s <:+ q → ∃ w₀ : World, w.log <+: w₀.log ∧ w₀.eState.valueEnvironment v = r ∧
        FollowsLog v w₀ w₁)) hl ?_
    ⟨rfl, List.prefix_rfl, fun hsl => absurd (hsl.eq_of_length_le hls.length_le) hne⟩ h
  · obtain ⟨w₀, hbefore, hvalue, hfollows⟩ := hrun.2.2 hsp
    rw [hfollows.unwritten ?_, hvalue]
    obtain ⟨es, hes⟩ := hbefore
    obtain ⟨es', hes', _⟩ := hfollows
    rw [accessesSince_eq hes']
    rw [accessesSince_eq (by rw [hes', ← hes, List.append_assoc]), accesses_append] at hentry
    exact fun b hb => hentry b (List.mem_append_right _ hb)
  · rintro i q w₁ w₂ hq hi ⟨hhistory, hbefore, hreset⟩ hstep
    obtain ⟨w₃, henter, hexec⟩ := (enterAndExecute_eq_ok root).mp hstep
    have henters := enterState_entersTo henter
    have hcomp := executeStatement_computesTo hexec
    have hcode : FollowsLog v w₃ w₂ :=
      (FollowsLog.record w₃ rfl).trans (.of_computesTo hcomp)
    have hbefore₃ : w.log <+: w₃.log := by
      rw [henters.log]
      exact hbefore.trans (List.prefix_append _ _)
    have hbefore₂ : w.log <+: w₂.log := by
      obtain ⟨es, hes, _⟩ := hcode
      rw [hes]
      exact hbefore₃.trans (List.prefix_append _ _)
    refine ⟨?_, hbefore₂, ?_⟩
    · exact hcomp.valueHistory.trans (henters.valueHistory.trans hhistory)
    · intro hsq
      rcases List.suffix_cons_iff.mp hsq with rfl | hsq
      · exact ⟨w₃, hbefore₃, hr w₁ w₃ hhistory henter, hcode⟩
      · obtain ⟨w₀, hbefore₀, hvalue, hfollows⟩ := hreset hsq
        have hother : ¬ DeclaredIn root (i :: q) [.localScope, .staticScope] v := by
          rintro ⟨hstate, _⟩
          exact cons_not_suffix i q (hstate ▸ hv ▸ hsq)
        exact ⟨w₀, hbefore₀, hvalue,
          (hfollows.trans (.of_entersTo henters hother)).trans hcode⟩

end

/-! ### The write environment -/

section
variable {ν : Type} {root : State ν}

/-- Of the destination's own variables, a transition may write the parameters. -/
theorem writeEnvironment_destination {t : PlacedTransition ν}
    (hlub : lub t.transition.source t.transition.destination = some t.state)
    {v : DeclarationRef} (hv : v ∈ (t.getWriteEnvironment root).declarations) :
    ¬ DeclaredIn root t.transition.destination [.localScope, .staticScope] v := by
  rintro ⟨hstate, d, hd, hname, hscope⟩
  obtain ⟨hsuffix, hproper⟩ := (lub_proper hlub).2
  rw [PlacedTransition.getWriteEnvironment, declarations_copyInclusive, List.mem_append] at hv
  -- The frames of the enclosing states are not those of the destination.
  have hbelow : ∀ {p : StateRef}, p <:+ t.transition.destination →
      p ≠ t.transition.destination → v ∉ (getEnvironment root p).declarations := by
    intro p hp hne hmem
    have hle := (mem_getEnvironment hmem).1
    rw [hstate] at hle
    exact hne (hp.eq_of_length_le hle.length_le)
  rcases hv with hv | hv
  · have hother := declarations_copyExclusive _ _ hv
    obtain ⟨f, hf, d', hd', rfl⟩ := Environment.mem_declarations.mp hother
    rcases List.mem_cons.mp hf with rfl | hf
    · -- The parameter frame: a parameter has one scope only.
      rw [PlacedTransition.destinationParameters, List.mem_filter, decide_eq_true_eq] at hd'
      have heq : d = d' :=
        List.inj_on_of_nodup_map (State.nodup_declarationsAt root t.transition.destination) hd hd'.1
          hname
      rw [heq, hd'.2] at hscope
      simp at hscope
    · cases hdest : t.transition.destination with
      | nil =>
          rw [hdest] at hsuffix hproper
          exact hproper (List.suffix_nil.mp hsuffix)
      | cons i p =>
          rw [hdest, getEnvironment, List.tail_cons] at hf
          refine hbelow (p := p) (hdest ▸ List.suffix_cons i p) ?_
            (Environment.mem_declarations.mpr ⟨f, hf, d', hd', rfl⟩)
          intro he
          exact cons_not_suffix i p (by rw [← hdest, ← he])
  · exact hbelow hsuffix hproper hv

end

/-! ### Data flow through a transition -/

/-- The transition `t` is fired from the head of the loop in some run, in the state `curr`
and the world `w`. -/
def FiredFrom (c : CheckedStatechart) (curr : StateRef) (w : World) (t : PlacedTransition Name) :
    Prop :=
  ∃ w₀ typed, AtLoopHead c curr w₀ ∧
    getValidTransition c.root curr (nextEvent typed w₀).1 (nextEvent typed w₀).2 =
      (.transition t, w)

/-- Between `w` and `w'` the variable `v` is read before it is written, and the read
obtains `x`. -/
def ReadsFirst (w w' : World) (v : DeclarationRef) (x : Option Constant) : Prop :=
  ∃ pre post, w.accessesSince w' = pre ++ .get v x :: post ∧ Unwritten v pre

/-- The last write of `v` between `w` and `w'` stores `x`. -/
def LastWrites (w w' : World) (v : DeclarationRef) (x : Option Constant) : Prop :=
  ∃ pre post, w.accessesSince w' = pre ++ .set v x :: post ∧ Unwritten v post

/-- `v` is a local variable of a state that is left on the way from `curr` to the lub. -/
def LocalOfExited (root : State Name) (t : PlacedTransition Name) (curr : StateRef)
    (v : DeclarationRef) : Prop :=
  ∃ s ∈ climb t.state curr, DeclaredIn root s [.localScope] v

/-- `v` is a variable, with one of the given scopes, of a state strictly between the lub
and the destination. -/
def VariableBetween (root : State Name) (t : PlacedTransition Name) (scopes : List ScopeName)
    (v : DeclarationRef) : Prop :=
  ∃ s ∈ climb t.state t.transition.destination, s ≠ t.transition.destination ∧
    DeclaredIn root s scopes v

section
variable {sc : Statechart} {c : CheckedStatechart} {curr : StateRef} {w w₁ w₂ : World}
  {t : PlacedTransition Name} {fuel : Nat} {v : DeclarationRef} {x : Option Constant}

/-- A fired transition is placed in its lub, on the chain of the current state. -/
theorem FiredFrom.placed (hc : typecheck sc = .ok c) (h : FiredFrom c curr w t) :
    lub t.transition.source t.transition.destination = some t.state ∧ t.state <:+ curr := by
  obtain ⟨w₀, typed, _, hselect⟩ := h
  obtain ⟨_, hchain, hplaced, _⟩ := getValidTransition_transition hselect
  exact ⟨(lub_of_accepted hc hplaced).1, hchain⟩

/-- The action code reads what the world at its beginning holds. -/
theorem ReadsFirst.value (hact : executeAction fuel t w₁ = .ok w₂)
    (hread : ReadsFirst w₁ w₂ v x) : x = w₁.eState.valueEnvironment v := by
  obtain ⟨pre, post, htrace, hpre⟩ := hread
  obtain ⟨trace, hlog, hhonest, _⟩ := (executeStatement_computesTo hact).accesses
  have hlog' : w₂.log = w₁.log ++ (.action t.state t.transition.name :: trace.map .access) := by
    rw [hlog, record_log, List.append_assoc]
    rfl
  have htrace' : w₁.accessesSince w₂ = trace := by
    rw [accessesSince_eq hlog']
    exact accesses_map trace
  rw [← htrace', htrace] at hhonest
  exact hhonest.first_get hpre

/-- The value that the action code leaves in a variable it has written. -/
theorem LastWrites.value (hact : executeAction fuel t w₁ = .ok w₂)
    (hwrite : LastWrites w₁ w₂ v x) : w₂.eState.valueEnvironment v = x := by
  obtain ⟨pre, post, htrace, hpost⟩ := hwrite
  have hfollows : FollowsLog v w₁ w₂ :=
    (FollowsLog.record w₁ rfl).trans (.of_computesTo (executeStatement_computesTo hact))
  rw [hfollows.loggedValue, loggedValue, htrace, final_of_last_set _ hpost]

end

/-! ### The small statechart fires `start` -/

/-- The selection in the first round of `courier`, with the event `go`. -/
def courierSelection : Selection × World :=
  let head := loopHead (accepted courier) 10 [] []
  let next := nextEvent none head.2
  getValidTransition (accepted courier).root head.1 next.1 next.2

/-- The transition `start`. -/
def courierStart : PlacedTransition Name :=
  match courierSelection.1 with
  | .transition t => t
  | _ => ⟨[], ⟨"", [], [], "", .constant (.booleanConstant true), .skipStatement, [], []⟩⟩

/-- The worlds after the exit phase, after the action and after the transition. -/
def courierExited : World :=
  getD (bubbleUp (accepted courier).root 10 (some []) [0] courierSelection.2) courierSelection.2

def courierActed : World := getD (executeAction 10 courierStart courierExited) courierExited

def courierPerformed : World :=
  getD (performTransition (accepted courier).root 10 courierStart [0] courierSelection.2)
    courierActed

set_option maxRecDepth 4000 in
theorem courier_fired :
    FiredFrom (accepted courier) [0] courierSelection.2 courierStart := by
  refine ⟨(loopHead (accepted courier) 10 [] []).2, none, ?_, ?_⟩
  · have hcurr : (loopHead (accepted courier) 10 [] []).1 = [0] := by decide
    rw [← hcurr]
    exact atLoopHead (accepted courier) 10 [] [] (by decide)
  · have hselected :
      (match courierSelection.1 with | .transition _ => true | _ => false) = true := by
      decide
    show courierSelection = (.transition courierStart, courierSelection.2)
    unfold courierStart
    cases hselection : courierSelection with
    | mk selection w =>
        cases selection with
        | transition t => rfl
        | noViableTransition => simp [hselection] at hselected
        | nonDeterminism ts => simp [hselection] at hselected

set_option maxRecDepth 4000 in
theorem courier_exited :
    bubbleUp (accepted courier).root 10
      (lub courierStart.transition.source courierStart.transition.destination) [0]
      courierSelection.2 = .ok courierExited := by
  have hlub : lub courierStart.transition.source courierStart.transition.destination =
      some [] := by decide
  rw [hlub]
  exact eq_ok_getD (by decide) _

set_option maxRecDepth 4000 in
theorem courier_acted : executeAction 10 courierStart courierExited = .ok courierActed :=
  eq_ok_getD (by decide) _

set_option maxRecDepth 4000 in
theorem courier_performed :
    performTransition (accepted courier).root 10 courierStart [0] courierSelection.2 =
      .ok courierPerformed :=
  eq_ok_getD (by decide) _

/-! ### Data flow out of the source state -/

section
variable {sc : Statechart} {c : CheckedStatechart} {curr : StateRef} {w w₁ w₂ : World}
  {t : PlacedTransition Name} {fuel : Nat} {v : DeclarationRef} {x : Option Constant}

/-- A variable that is read by the action before it is written: the read obtains the
value that the exit code has left, unless the variable is local to an exited state. Such
a variable has been removed, and the read obtains `null` as long as the exit code does
not write it. -/
theorem action_reads_exit_value (hc : typecheck sc = .ok c) (hfired : FiredFrom c curr w t)
    (hexit : bubbleUp c.root fuel (lub t.transition.source t.transition.destination) curr w =
      .ok w₁)
    (hact : executeAction fuel t w₁ = .ok w₂) (hread : ReadsFirst w₁ w₂ v x) :
    (¬ LocalOfExited c.root t curr v → x = w.loggedValue w₁ v) ∧
      (LocalOfExited c.root t curr v → Unwritten v (w.accessesSince w₁) → x = none) := by
  obtain ⟨hlub, hchain⟩ := hfired.placed hc
  rw [hlub] at hexit
  have hx := hread.value hact
  constructor
  · intro hv
    have hfollows := bubbleUp_followsLog hchain (fun s hs hd => hv ⟨s, hs, hd⟩) hexit
    rw [hx, hfollows.loggedValue]
  · rintro ⟨s, hs, hd⟩ hunwritten
    obtain ⟨w₀, ⟨es, hes⟩, hnone, hfollows, _⟩ := bubbleUp_removes hchain hs hd hexit
    rw [hx, hfollows.unwritten ?_, hnone]
    obtain ⟨es', hes', _⟩ := hfollows
    rw [accessesSince_eq hes']
    rw [accessesSince_eq (by rw [hes', ← hes, List.append_assoc]), accesses_append] at hunwritten
    exact fun b hb => hunwritten b (List.mem_append_right _ hb)

end

set_option maxRecDepth 4000 in
/-- The action reads `stock` of the statechart, and obtains the value that it had before. -/
theorem action_reads_exit_value_courier :
    some (.integerConstant 7) =
      courierSelection.2.loggedValue courierExited ⟨[], "stock"⟩ := by
  refine (action_reads_exit_value courier_accepted courier_fired courier_exited courier_acted
    ⟨[], courierExited.accessesSince courierActed |>.tail, by decide,
      fun _ => List.not_mem_nil⟩).1 ?_
  rintro ⟨s, hs, hstate, _⟩
  have hcases : s ∈ ([[0]] : List StateRef) := hs
  obtain rfl := List.mem_singleton.mp hcases
  exact absurd hstate (by decide)

/-- The data flow out of the source state, as the read environment allows it: the value
that the action obtains for a variable is the one that the exit code has left. -/
def ActionReadsExitValues (c : CheckedStatechart) : Prop :=
  ∀ (curr : StateRef) (w w₁ w₂ : World) (t : PlacedTransition Name) (fuel : Nat)
    (v : DeclarationRef) (x : Option Constant), FiredFrom c curr w t →
    bubbleUp c.root fuel (lub t.transition.source t.transition.destination) curr w = .ok w₁ →
    executeAction fuel t w₁ = .ok w₂ → v ∈ (t.getReadEnvironment c.root).declarations →
    ReadsFirst w₁ w₂ v x → x = w.loggedValue w₁ v

set_option maxRecDepth 4000 in
/-- `parcels` is 3 when `Loading` is left, and the action obtains `null` for it. -/
theorem not_actionReadsExitValues_courier :
    typecheck courier = .ok (accepted courier) ∧ ¬ ActionReadsExitValues (accepted courier) := by
  refine ⟨courier_accepted, fun h => ?_⟩
  have hnull : none = courierSelection.2.loggedValue courierExited ⟨[0], "parcels"⟩ := by
    refine h [0] courierSelection.2 courierExited courierActed courierStart 10
      ⟨[0], "parcels"⟩ none courier_fired courier_exited courier_acted (by decide)
      ⟨(courierExited.accessesSince courierActed).take 1,
        (courierExited.accessesSince courierActed).drop 2, by decide, ?_⟩
    intro b hb
    have hfirst : (courierExited.accessesSince courierActed).take 1 =
        [.get ⟨[], "stock"⟩ (some (.integerConstant 7))] := by decide
    rw [hfirst] at hb
    simp at hb
  have hthree : courierSelection.2.loggedValue courierExited ⟨[0], "parcels"⟩ =
      some (.integerConstant 3) := by decide
  rw [hthree] at hnull
  simp at hnull

/-! ### Data flow into the destination state -/

section
variable {sc : Statechart} {c : CheckedStatechart} {curr : StateRef} {w w₁ w₂ : World}
  {t : PlacedTransition Name} {fuel : Nat} {v : DeclarationRef} {x : Option Constant}

/-- A variable of the write environment that the action has written and that no entry code
writes: it keeps its value, unless it is a local or static variable of a state strictly
between the lub and the destination. Once all these states have been entered, such a local
variable has no value, and such a static one that of its last exit. -/
theorem action_write_survives {w₃ : World} (hc : typecheck sc = .ok c)
    (hfired : FiredFrom c curr w t)
    (hexit : bubbleUp c.root fuel (lub t.transition.source t.transition.destination) curr w =
      .ok w₁)
    (hact : executeAction fuel t w₁ = .ok w₂)
    (hperform : performTransition c.root fuel t curr w = .ok w₃)
    (hv : v ∈ (t.getWriteEnvironment c.root).declarations) (hwrite : LastWrites w₁ w₂ v x)
    (hentry : Unwritten v (w₂.accessesSince w₃)) :
    (¬ VariableBetween c.root t [.localScope, .staticScope] v →
        w₃.eState.valueEnvironment v = x) ∧
      (bubbleDown c.root fuel (lub t.transition.source t.transition.destination)
            t.transition.destination w₂ = .ok w₃ →
        (VariableBetween c.root t [.localScope] v → w₃.eState.valueEnvironment v = none) ∧
          (VariableBetween c.root t [.staticScope] v → ∃ values,
            w₂.eState.valueHistory v.state = some values ∧
              w₃.eState.valueEnvironment v = values v)) := by
  obtain ⟨hlub, hchain⟩ := hfired.placed hc
  have hsuffix : t.state <:+ t.transition.destination := (lub_proper hlub).2.1
  rw [hlub] at hexit ⊢
  rw [bubbleDown_eq_enterPath hlub]
  have hx := hwrite.value hact
  constructor
  · intro hbetween
    obtain ⟨w₁', w₂', hexit', hact', hdown⟩ := (performTransition_eq_ok hlub hchain).mp hperform
    obtain rfl : w₁ = w₁' := by simpa [hexit] using hexit'
    obtain rfl : w₂ = w₂' := by simpa [hact] using hact'
    have hfollows : FollowsLog v w₂ w₃ := by
      refine enterPath_followsLog hsuffix ?_ hdown
      intro s hs hd
      by_cases hsd : s = t.transition.destination
      · exact writeEnvironment_destination hlub hv (hsd ▸ hd)
      · exact hbetween ⟨s, hs, hsd, hd⟩
    rw [hfollows.unwritten hentry, hx]
  · intro hdown
    constructor
    · rintro ⟨s, hs, _, hd⟩
      exact enterPath_resets hsuffix hs hd.1 (fun a b _ henter => enterState_local henter hd)
        hdown hentry
    · rintro ⟨s, hs, _, hd⟩
      obtain rfl := hd.1
      -- The value history has not changed since the action.
      cases hvalues : w₂.eState.valueHistory v.state with
      | some values =>
          refine ⟨values, rfl, enterPath_resets hsuffix hs rfl ?_ hdown hentry⟩
          intro a b ha henter
          obtain ⟨values', hsome, hvalue⟩ := enterState_static henter hd
          rw [ha, hvalues, Option.some.injEq] at hsome
          rw [hvalue, hsome]
      | none =>
          -- Then entering the state would have thrown.
          have hnone : w₃.eState.valueEnvironment v = none ∧
              w₃.eState.valueEnvironment v = some (.booleanConstant true) := by
            have hthrow : ∀ r (a b : World), a.eState.valueHistory = w₂.eState.valueHistory →
                a.enterState c.root v.state = .ok b → b.eState.valueEnvironment v = r := by
              intro r a b ha henter
              obtain ⟨values, hsome, _⟩ := enterState_static henter hd
              rw [ha, hvalues] at hsome
              simp at hsome
            exact ⟨enterPath_resets hsuffix hs rfl (hthrow none) hdown hentry,
              enterPath_resets hsuffix hs rfl (hthrow _) hdown hentry⟩
          rw [hnone.1] at hnone
          simp at hnone

end

set_option maxRecDepth 4000 in
/-- The action stores 0 in `stock` of the statechart, and it stays there. -/
theorem action_write_survives_courier :
    courierPerformed.eState.valueEnvironment ⟨[], "stock"⟩ = some (.integerConstant 0) := by
  refine (action_write_survives courier_accepted courier_fired courier_exited courier_acted
    courier_performed (by decide)
    ⟨(courierExited.accessesSince courierActed).take 3,
      (courierExited.accessesSince courierActed).drop 4, by decide, ?_⟩ ?_).1 ?_
  · have hpost : (courierExited.accessesSince courierActed).drop 4 =
        [.set ⟨[1], "stop"⟩ (some (.integerConstant 1)),
          .set ⟨[1], "round"⟩ (some (.integerConstant 1))] := by decide
    intro b hb
    rw [hpost] at hb
    simp at hb
  · have hnone : courierActed.accessesSince courierPerformed = [] := by decide
    intro b hb
    rw [hnone] at hb
    simp at hb
  · rintro ⟨s, hs, _, hstate, _⟩
    have hcases : s ∈ ([[0, 1], [1]] : List StateRef) := hs
    rw [← show ([] : StateRef) = s from hstate] at hcases
    simp at hcases

/-- The data flow into the destination state, as the write environment allows it: what the
action assigns to a variable last is there when the transition has been performed, unless
entry code assigns to it. -/
def ActionWritesSurvive (c : CheckedStatechart) : Prop :=
  ∀ (curr : StateRef) (w w₁ w₂ w₃ : World) (t : PlacedTransition Name) (fuel : Nat)
    (v : DeclarationRef) (x : Option Constant), FiredFrom c curr w t →
    bubbleUp c.root fuel (lub t.transition.source t.transition.destination) curr w = .ok w₁ →
    executeAction fuel t w₁ = .ok w₂ → performTransition c.root fuel t curr w = .ok w₃ →
    v ∈ (t.getWriteEnvironment c.root).declarations → LastWrites w₁ w₂ v x →
    Unwritten v (w₂.accessesSince w₃) → w₃.eState.valueEnvironment v = x

set_option maxRecDepth 4000 in
/-- The action stores 1 in `stop` of `Tour`, which lies between the lub and the
destination. Entering `Tour` removes it. -/
theorem not_actionWritesSurvive_courier :
    typecheck courier = .ok (accepted courier) ∧ ¬ ActionWritesSurvive (accepted courier) := by
  refine ⟨courier_accepted, fun h => ?_⟩
  have hone : courierPerformed.eState.valueEnvironment ⟨[1], "stop"⟩ =
      some (.integerConstant 1) := by
    refine h [0] courierSelection.2 courierExited courierActed courierPerformed courierStart 10
      ⟨[1], "stop"⟩ (some (.integerConstant 1)) courier_fired courier_exited courier_acted
      courier_performed (by decide)
      ⟨(courierExited.accessesSince courierActed).take 4,
        (courierExited.accessesSince courierActed).drop 5, by decide, ?_⟩ ?_
    · have hpost : (courierExited.accessesSince courierActed).drop 5 =
          [.set ⟨[1], "round"⟩ (some (.integerConstant 1))] := by decide
      intro b hb
      rw [hpost] at hb
      simp at hb
    · have hnone : courierActed.accessesSince courierPerformed = [] := by decide
      intro b hb
      rw [hnone] at hb
      simp at hb
  have hnull : courierPerformed.eState.valueEnvironment ⟨[1], "stop"⟩ = none := by decide
  rw [hnull] at hone
  simp at hone

end Stabl
