import Mathlib.Data.List.Count
import Stabl.Lib.StepCondition
import Stabl.StablCfg.CFG

/-!
# `Stabl.Proofs.StablCfg.Representation`: the three records of an edge

An edge of a control-flow graph is recorded in the edge set, at its tail and at its head.
`addEdge_cases` says what `addEdge` can do. It keeps the records in step just when the call is
orderly (`addEdge_represented_iff`): the tail has room for the edge, and the edge is new. So the
records are in step in all states of a run just when all calls of the run are orderly
(`keepsRecords_iff`).
-/

set_option autoImplicit false

namespace Stabl.StablCfg

open StepCondition

namespace CFG

/-- The edge is recorded at its tail: as the outgoing edge of a basic-block node, or as just one
of the then-edge and the else-edge of a decision node. -/
def RecordedAtTail (g : CFG) (e : CFEdge) : Prop :=
  match e.tail with
  | .basicBlock node => g.outgoingEdge node = some e
  | .decision node => Xor (g.thenEdge node = some e) (g.elseEdge node = some e)
  | .plain _ => False

/-- The edge set and the fields of the nodes record the same edges, between nodes of the graph. -/
structure Represented (g : CFG) : Prop where
  tail : ∀ e, e ∈ g.edges ↔ g.RecordedAtTail e
  head : ∀ e, (g.incomingEdges e.head).count e = if e ∈ g.edges then 1 else 0
  nodes : ∀ e ∈ g.edges, g.hasNode e.tail = true ∧ g.hasNode e.head = true

/-- An outgoing edge starts at its node. -/
def OutgoingOwn (g : CFG) : Prop :=
  ∀ node e, g.outgoingEdge node = some e → e.tail = .basicBlock node

/-! ### What `addEdge` can do -/

/-- The graph after an edge got into the edge set and into the incoming edges of its head. -/
def enter (g : CFG) (e : CFEdge) : CFG :=
  { g with edges := insert e g.edges }.addIncomingEdge e.head e

/-- The cases of `addEdge`. It never throws. -/
inductive AddEdge (g : CFG) (e : CFEdge) : Option CFEdge → CFG → Prop where
  | noNode (h : ¬ (g.hasNode e.head = true ∧ g.hasNode e.tail = true)) : AddEdge g e none g
  | outgoing {node : CFGBasicBlockNode} (hh : g.hasNode e.head = true)
    (ht : g.hasNode e.tail = true) (htail : e.tail = .basicBlock node) :
    AddEdge g e (some e) ((g.setOutgoingEdge node e).enter e)
  | full {node : CFGDecisionNode} (hh : g.hasNode e.head = true) (ht : g.hasNode e.tail = true)
    (htail : e.tail = .decision node) (hthen : g.thenEdge node ≠ none)
    (helse : g.elseEdge node ≠ none) :
    AddEdge g e none { g with edges := insert e g.edges }
  | thenEdge {node : CFGDecisionNode} (hh : g.hasNode e.head = true)
    (ht : g.hasNode e.tail = true) (htail : e.tail = .decision node)
    (hthen : g.thenEdge node = none) :
    AddEdge g e (some e)
      ({ g with thenEdge := Function.update g.thenEdge node (some e) }.enter e)
  | elseEdge {node : CFGDecisionNode} (hh : g.hasNode e.head = true)
    (ht : g.hasNode e.tail = true) (htail : e.tail = .decision node)
    (hthen : g.thenEdge node ≠ none) (helse : g.elseEdge node = none) :
    AddEdge g e (some e)
      ({ g with elseEdge := Function.update g.elseEdge node (some e) }.enter e)

theorem addEdge_cases (g : CFG) (e : CFEdge) :
    ∃ r g', g.addEdge e = some (r, g') ∧ AddEdge g e r g' := by
  by_cases hnodes : g.hasNode e.head = true ∧ g.hasNode e.tail = true
  · obtain ⟨hh, ht⟩ := hnodes
    cases htail : e.tail with
    | basicBlock node =>
        have hnode : g.hasNode (.basicBlock node) = true := htail ▸ ht
        refine ⟨_, _, ?_, .outgoing hh ht htail⟩
        simp [addEdge, hh, htail, hnode, setOutgoingEdge, enter, addIncomingEdge]
    | decision node =>
        have hnode : g.hasNode (.decision node) = true := htail ▸ ht
        by_cases hthen : g.thenEdge node = none
        · refine ⟨_, _, ?_, .thenEdge hh ht htail hthen⟩
          simp [addEdge, hh, htail, hnode, hthen, setThenEdge, enter, addIncomingEdge]
        · by_cases helse : g.elseEdge node = none
          · refine ⟨_, _, ?_, .elseEdge hh ht htail hthen helse⟩
            simp [addEdge, hh, htail, hnode, hthen, helse, setElseEdge, enter, addIncomingEdge]
          · refine ⟨_, _, ?_, .full hh ht htail hthen helse⟩
            simp [addEdge, hh, htail, hnode, hthen, helse]
    | plain identity =>
        rw [htail] at ht
        cases ht
  · refine ⟨none, g, ?_, .noNode hnodes⟩
    have hnot : (g.hasNode e.head && g.hasNode e.tail) = false := by
      simpa using hnodes
    simp [addEdge, hnot]

/-- What `addEdge` returns is one of the cases. -/
theorem addEdge_of_eq {g g' : CFG} {e : CFEdge} {r : Option CFEdge}
    (h : g.addEdge e = some (r, g')) : AddEdge g e r g' := by
  obtain ⟨r', g'', h', hcases⟩ := addEdge_cases g e
  rw [h, Option.some.injEq, Prod.mk.injEq] at h'
  obtain ⟨rfl, rfl⟩ := h'
  exact hcases

/-! ### One call -/

/-- The entry counts once more among the incoming edges of its head, and no other edge does. -/
theorem count_enter (g : CFG) (e e' : CFEdge) : ((g.enter e).incomingEdges e'.head).count e' =
    (g.incomingEdges e'.head).count e' + if e' = e then 1 else 0 := by
  show (Function.update g.incomingEdges e.head (g.incomingEdges e.head ++ [e]) e'.head).count e' = _
  by_cases hhead : e'.head = e.head
  · rw [hhead, Function.update_self, List.count_append, List.count_singleton]
    simp only [beq_iff_eq, @eq_comm _ e e']
  · have hne : e' ≠ e := fun heq => hhead (congrArg CFEdge.head heq)
    rw [Function.update_of_ne hhead, if_neg hne, Nat.add_zero]

/-- After a graph's fields at the tail of an edge have been written, the entry of the edge keeps the
records in step just when the edge is new, is recorded at its tail, and the write was about no
other edge. -/
theorem Represented.enter_iff {g : CFG} {e : CFEdge} (h : g.Represented) (g' : CFG)
    (hedges : g'.edges = g.edges) (hincoming : g'.incomingEdges = g.incomingEdges)
    (hnodes : g'.hasNode = g.hasNode) (hh : g.hasNode e.head = true)
    (ht : g.hasNode e.tail = true) : (g'.enter e).Represented ↔
      e ∉ g.edges ∧ g'.RecordedAtTail e ∧
        ∀ e', e' ≠ e → (g'.RecordedAtTail e' ↔ g.RecordedAtTail e') := by
  have hmem : ∀ e', e' ∈ (g'.enter e).edges ↔ e' = e ∨ e' ∈ g.edges := by
    intro e'
    rw [← hedges]
    exact Finset.mem_insert
  have hcount : ∀ e', ((g'.enter e).incomingEdges e'.head).count e' =
      (if e' ∈ g.edges then 1 else 0) + if e' = e then 1 else 0 := by
    intro e'
    rw [count_enter, hincoming, h.head]
  constructor
  · intro h'
    have hnew : e ∉ g.edges := by
      -- An edge that was there before is now twice among the incoming edges of its head.
      intro he
      have htwo := h'.head e
      rw [hcount, if_pos he, if_pos rfl, if_pos ((hmem e).mpr (Or.inl rfl))] at htwo
      cases htwo
    refine ⟨hnew, (h'.tail e).mp ((hmem e).mpr (Or.inl rfl)), fun e' hne => ?_⟩
    rw [← h.tail e', ← or_iff_right hne (b := e' ∈ g.edges), ← hmem e']
    exact (h'.tail e').symm
  · intro ⟨hnew, hself, hother⟩
    refine ⟨fun e' => ?_, fun e' => ?_, fun e' he' => ?_⟩
    · rw [hmem]
      show _ ↔ g'.RecordedAtTail e'
      by_cases hne : e' = e
      · subst hne
        simp [hself]
      · rw [or_iff_right hne, hother e' hne, h.tail]
    · rw [hcount]
      by_cases hne : e' = e
      · subst hne
        rw [if_neg hnew, if_pos rfl, if_pos ((hmem e').mpr (Or.inl rfl))]
      · rw [if_neg hne, Nat.add_zero]
        simp only [hmem, or_iff_right hne]
    · show g'.hasNode e'.tail = true ∧ g'.hasNode e'.head = true
      rw [hnodes]
      rcases (hmem e').mp he' with rfl | he'
      · exact ⟨ht, hh⟩
      · exact h.nodes e' he'

/-- The call finds room for the edge: a basic-block node has no outgoing edge yet, and a decision
node has room just when the edge is new. -/
def Orderly (g : CFG) (e : CFEdge) : Prop :=
  g.hasNode e.head = true → g.hasNode e.tail = true →
    match e.tail with
    | .basicBlock node => g.outgoingEdge node = none
    | .decision node => e ∉ g.edges ↔ g.thenEdge node = none ∨ g.elseEdge node = none
    | .plain _ => True

/-- A call that returns `null` changes nothing. -/
def NullUnchanged (g : CFG) (e : CFEdge) : Prop := ∀ g', g.addEdge e = some (none, g') → g' = g

theorem OutgoingOwn.addEdge {g g' : CFG} {e : CFEdge} {r : Option CFEdge} (h : g.OutgoingOwn)
    (hcases : AddEdge g e r g') : g'.OutgoingOwn := by
  cases hcases with
  | noNode | full | thenEdge | elseEdge => exact h
  | @outgoing node hh ht htail =>
      intro node' e' he'
      have he' : Function.update g.outgoingEdge node (some e) node' = some e' := he'
      by_cases hnode : node' = node
      · subst hnode
        rw [Function.update_self, Option.some.injEq] at he'
        exact he' ▸ htail
      · rw [Function.update_of_ne hnode] at he'
        exact h node' e' he'

section
variable {g : CFG} {e : CFEdge}

theorem orderly_basicBlock {node : CFGBasicBlockNode} (hh : g.hasNode e.head = true)
    (ht : g.hasNode e.tail = true) (htail : e.tail = .basicBlock node) :
    g.Orderly e ↔ g.outgoingEdge node = none := by
  rw [Orderly, htail]
  simp [hh, htail ▸ ht]

theorem orderly_decision {node : CFGDecisionNode} (hh : g.hasNode e.head = true)
    (ht : g.hasNode e.tail = true) (htail : e.tail = .decision node) :
    g.Orderly e ↔ (e ∉ g.edges ↔ g.thenEdge node = none ∨ g.elseEdge node = none) := by
  rw [Orderly, htail]
  simp [hh, htail ▸ ht]

/-- The outgoing edge of a basic-block node is set. -/
theorem outgoing_represented_iff (h : g.Represented) (hown : g.OutgoingOwn)
    {node : CFGBasicBlockNode} (hh : g.hasNode e.head = true) (ht : g.hasNode e.tail = true)
    (htail : e.tail = .basicBlock node) :
    ((g.setOutgoingEdge node e).enter e).Represented ↔ g.outgoingEdge node = none := by
  rw [h.enter_iff (g.setOutgoingEdge node e) rfl rfl rfl hh ht]
  have hrecorded : ∀ {g' : CFG} {e' : CFEdge}, e'.tail = .basicBlock node →
      (g'.RecordedAtTail e' ↔ g'.outgoingEdge node = some e') := by
    intro g' e' htail'
    rw [RecordedAtTail, htail']
  have hset : (g.setOutgoingEdge node e).outgoingEdge node = some e := Function.update_self ..
  constructor
  · intro ⟨hnew, _, hother⟩
    cases hout : g.outgoingEdge node with
    | none => rfl
    | some e' =>
        -- The edge that was recorded here is overwritten, and stays in the edge set.
        exfalso
        have htail' := hown node e' hout
        by_cases hne : e' = e
        · subst hne
          exact hnew ((h.tail e').mpr ((hrecorded htail').mpr hout))
        · have hboth := (hother e' hne).mpr ((hrecorded htail').mpr hout)
          rw [hrecorded htail', hset, Option.some.injEq] at hboth
          exact hne hboth.symm
  · intro hout
    refine ⟨fun he => ?_, (hrecorded htail).mpr hset, fun e' hne => ?_⟩
    · have hself := (hrecorded htail).mp ((h.tail e).mp he)
      rw [hout] at hself
      cases hself
    · by_cases htail' : e'.tail = .basicBlock node
      · rw [hrecorded htail', hrecorded htail', hset, hout]
        simp [Ne.symm hne]
      · rw [RecordedAtTail, RecordedAtTail]
        split
        · rename_i node' hnode'
          have hdiff : node' ≠ node := fun heq => htail' (heq ▸ hnode')
          have hsame : (g.setOutgoingEdge node e).outgoingEdge node' = g.outgoingEdge node' :=
            Function.update_of_ne hdiff ..
          rw [hsame]
        · rfl
        · rfl

/-- A write to the edges of a decision node is about no edge that starts elsewhere. -/
theorem recordedAtTail_of_ne {g g' : CFG} {node : CFGDecisionNode}
    (hout : g'.outgoingEdge = g.outgoingEdge)
    (hthen : ∀ n, n ≠ node → g'.thenEdge n = g.thenEdge n)
    (helse : ∀ n, n ≠ node → g'.elseEdge n = g.elseEdge n) {e' : CFEdge}
    (htail : e'.tail ≠ .decision node) : g'.RecordedAtTail e' ↔ g.RecordedAtTail e' := by
  rw [RecordedAtTail, RecordedAtTail]
  split
  · rw [hout]
  · rename_i node' hnode'
    have hdiff : node' ≠ node := fun heq => htail (heq ▸ hnode')
    rw [hthen node' hdiff, helse node' hdiff]
  · rfl

/-- A free edge of a decision node is set. -/
theorem free_represented_iff (h : g.Represented) {node : CFGDecisionNode} (g' : CFG)
    (hh : g.hasNode e.head = true) (ht : g.hasNode e.tail = true)
    (htail : e.tail = .decision node) (hedges : g'.edges = g.edges)
    (hincoming : g'.incomingEdges = g.incomingEdges) (hnodes : g'.hasNode = g.hasNode)
    (hfree : g.thenEdge node = none ∨ g.elseEdge node = none)
    (hnode : ∀ e', (Xor (g'.thenEdge node = some e') (g'.elseEdge node = some e') ↔
      Xor (g.thenEdge node = some e' ∨ g.elseEdge node = some e') (e' = e)))
    (hother : ∀ e', e'.tail ≠ .decision node → (g'.RecordedAtTail e' ↔ g.RecordedAtTail e')) :
    (g'.enter e).Represented ↔ e ∉ g.edges := by
  have hrecorded : ∀ {g' : CFG} {e' : CFEdge}, e'.tail = .decision node →
      (g'.RecordedAtTail e' ↔ Xor (g'.thenEdge node = some e') (g'.elseEdge node = some e')) := by
    intro g' e' htail'
    rw [RecordedAtTail, htail']
  have hor : ∀ e', (Xor (g.thenEdge node = some e') (g.elseEdge node = some e') ↔
      g.thenEdge node = some e' ∨ g.elseEdge node = some e') := by
    intro e'
    rcases hfree with hfree | hfree <;> simp [hfree, Xor]
  rw [h.enter_iff g' hedges hincoming hnodes hh ht, and_iff_left_iff_imp]
  -- A new edge is in neither field, so it does not land in both of them.
  intro hnew
  rw [h.tail, hrecorded htail, hor] at hnew
  refine ⟨(hrecorded htail).mpr ((hnode e).mpr (Or.inr ⟨rfl, hnew⟩)), fun e' hne => ?_⟩
  by_cases htail' : e'.tail = .decision node
  · rw [hrecorded htail', hrecorded htail', hnode, hor]
    simp [hne, Xor]
  · exact hother e' htail'

theorem then_represented_iff (h : g.Represented) {node : CFGDecisionNode}
    (hh : g.hasNode e.head = true) (ht : g.hasNode e.tail = true)
    (htail : e.tail = .decision node) (hthen : g.thenEdge node = none) :
    ({ g with thenEdge := Function.update g.thenEdge node (some e) }.enter e).Represented ↔
      e ∉ g.edges := by
  refine free_represented_iff h _ hh ht htail rfl rfl rfl (Or.inl hthen) ?_ ?_
  · intro e'
    simp only [Function.update_self, hthen, Option.some.injEq, reduceCtorEq, false_or,
      @eq_comm _ e e']
    exact Iff.of_eq (xor_comm _ _)
  · intro e' htail'
    refine recordedAtTail_of_ne ?_ ?_ ?_ htail'
    · rfl
    · exact fun n hn => Function.update_of_ne hn ..
    · exact fun n _ => rfl

theorem else_represented_iff (h : g.Represented) {node : CFGDecisionNode}
    (hh : g.hasNode e.head = true) (ht : g.hasNode e.tail = true)
    (htail : e.tail = .decision node) (helse : g.elseEdge node = none) :
    ({ g with elseEdge := Function.update g.elseEdge node (some e) }.enter e).Represented ↔
      e ∉ g.edges := by
  refine free_represented_iff h _ hh ht htail rfl rfl rfl (Or.inr helse) ?_ ?_
  · intro e'
    simp only [Function.update_self, helse, Option.some.injEq, reduceCtorEq, or_false,
      @eq_comm _ e e']
  · intro e' htail'
    refine recordedAtTail_of_ne ?_ ?_ ?_ htail'
    · rfl
    · exact fun n _ => rfl
    · exact fun n hn => Function.update_of_ne hn ..

/-- From records in step, a call of `addEdge` leads to records in step, and changes nothing when it
returns `null`, just when it is orderly. -/
theorem addEdge_represented_iff {g' : CFG} {r : Option CFEdge} (h : g.Represented)
    (hown : g.OutgoingOwn) (hcall : g.addEdge e = some (r, g')) :
    g'.Represented ∧ g.NullUnchanged e ↔ g.Orderly e := by
  have hreturned : g.NullUnchanged e ↔ (r = none → g' = g) := by
    rw [NullUnchanged, hcall]
    simp
  rw [hreturned]
  cases addEdge_of_eq hcall with
  | noNode hnodes =>
      have horderly : g.Orderly e := fun hh ht => absurd ⟨hh, ht⟩ hnodes
      simp [h, horderly]
  | outgoing hh ht htail =>
      rw [orderly_basicBlock hh ht htail, outgoing_represented_iff h hown hh ht htail]
      simp
  | @full node hh ht htail hthen helse =>
      -- The edge is in the edge set when the call returns `null`.
      rw [orderly_decision hh ht htail]
      have hsame : { g with edges := insert e g.edges } = g ↔ e ∈ g.edges := by
        rw [← Finset.insert_eq_self]
        exact ⟨fun heq => congrArg CFG.edges heq, fun heq => by rw [heq]⟩
      simp only [hsame, hthen, helse, or_self, iff_false, not_not, forall_const]
      refine and_iff_right_of_imp fun he => ?_
      rwa [hsame.mpr he]
  | thenEdge hh ht htail hthen =>
      rw [orderly_decision hh ht htail, then_represented_iff h hh ht htail hthen]
      simp [hthen]
  | elseEdge hh ht htail _ helse =>
      rw [orderly_decision hh ht htail, else_represented_iff h hh ht htail helse]
      simp [helse]

/-- A graph with more nodes records the same edges. -/
theorem Represented.of_more_nodes {g' : CFG} (h : g.Represented) (hedges : g'.edges = g.edges)
    (htail : ∀ e, g'.RecordedAtTail e ↔ g.RecordedAtTail e)
    (hincoming : g'.incomingEdges = g.incomingEdges)
    (hnodes : ∀ n, g.hasNode n = true → g'.hasNode n = true) : g'.Represented := by
  refine ⟨fun e => ?_, fun e => ?_, fun e he => ?_⟩
  · rw [hedges, htail, h.tail]
  · rw [hincoming, hedges, h.head]
  · have ⟨ht, hh⟩ := h.nodes e (hedges ▸ he)
    exact ⟨hnodes _ ht, hnodes _ hh⟩

theorem Represented.addBasicBlockNode (h : g.Represented) (node : CFGBasicBlockNode) :
    (g.addBasicBlockNode node).2.Represented := by
  rw [CFG.addBasicBlockNode]
  split
  · exact h
  · refine h.of_more_nodes rfl (fun e => Iff.rfl) rfl fun n hn => ?_
    cases n with
    | basicBlock node' =>
        have hn : node' ∈ g.cfgBasicBlockNodeList := by simpa [hasNode] using hn
        simp [hasNode, hn]
    | decision | plain => exact hn

theorem Represented.addDecisionNode (h : g.Represented) (node : CFGDecisionNode) :
    (g.addDecisionNode node).2.Represented := by
  rw [CFG.addDecisionNode]
  split
  · exact h
  · refine h.of_more_nodes rfl (fun e => Iff.rfl) rfl fun n hn => ?_
    cases n with
    | decision node' =>
        have hn : node' ∈ g.decisionNodeList := by simpa [hasNode] using hn
        simp [hasNode, hn]
    | basicBlock | plain => exact hn

end

/-! ### Runs -/

theorem represented_new (start stop : CFGBasicBlockNode) : (new start stop).Represented := by
  refine ⟨fun e => ?_, fun e => rfl, fun e he => ?_⟩
  · rw [RecordedAtTail]
    split <;> simp [new, Xor]
  · simp [new] at he

/-- No call throws. -/
theorem call_total (g : CFG) (c : Call) : ∃ g', g.call c = some g' := by
  cases c with
  | addBasicBlockNode node => exact ⟨_, rfl⟩
  | addDecisionNode node => exact ⟨_, rfl⟩
  | addEdge e =>
      obtain ⟨r, g', h, _⟩ := addEdge_cases g e
      exact ⟨g', by rw [call, h]; rfl⟩

theorem addEdge_of_call {g g' : CFG} {e : CFEdge} (h : g.call (.addEdge e) = some g') :
    ∃ r, g.addEdge e = some (r, g') := by
  rw [call, Option.map_eq_some_iff] at h
  obtain ⟨⟨r, g''⟩, h, rfl⟩ := h
  exact ⟨r, h⟩

theorem OutgoingOwn.call {g g' : CFG} {c : Call} (hc : g.call c = some g') (h : g.OutgoingOwn) :
    g'.OutgoingOwn := by
  cases c with
  | addBasicBlockNode node =>
      obtain rfl := Option.some.inj hc
      rw [addBasicBlockNode]
      split <;> exact h
  | addDecisionNode node =>
      obtain rfl := Option.some.inj hc
      rw [addDecisionNode]
      split <;> exact h
  | addEdge e =>
      obtain ⟨r, hedge⟩ := addEdge_of_call hc
      exact h.addEdge (addEdge_of_eq hedge)

/-- Along the run that makes the calls on a new graph, the records of the edges are in step, and no
call of `addEdge` changes anything when it returns `null`. -/
structure KeepsRecords (start stop : CFGBasicBlockNode) (calls : List Call) : Prop where
  represented : ∀ g, Reached call (new start stop) calls g → g.Represented
  nullUnchanged : ∀ g e, Makes call (new start stop) calls g (.addEdge e) → g.NullUnchanged e

/-- The records are kept just when every call of `addEdge` in the run is orderly. -/
theorem keepsRecords_iff (start stop : CFGBasicBlockNode) (calls : List Call) :
    KeepsRecords start stop calls ↔
      ∀ g e, Makes call (new start stop) calls g (.addEdge e) → g.Orderly e := by
  have halong := along_iff (K := OutgoingOwn) (I := Represented)
    (P := fun g c => ∀ e, c = .addEdge e → g.NullUnchanged e)
    (C := fun g c => ∀ e, c = .addEdge e → g.Orderly e) call_total OutgoingOwn.call
    (fun {g c g'} hc hown h => by
      cases c with
      | addBasicBlockNode node =>
          obtain rfl := Option.some.inj hc
          simp [h.addBasicBlockNode node]
      | addDecisionNode node =>
          obtain rfl := Option.some.inj hc
          simp [h.addDecisionNode node]
      | addEdge e =>
          obtain ⟨r, hedge⟩ := addEdge_of_call hc
          simpa using addEdge_represented_iff h hown hedge)
    calls (show (new start stop).OutgoingOwn from nofun) (represented_new start stop)
  constructor
  · intro h g e hmakes
    exact halong.mp ⟨h.represented, fun g c hc e hce => h.nullUnchanged g e (hce ▸ hc)⟩ g _ hmakes
      e rfl
  · intro h
    have ⟨hrepresented, hnull⟩ := halong.mpr fun g c hc e hce => h g e (hce ▸ hc)
    exact ⟨hrepresented, fun g e hmakes => hnull g _ hmakes e rfl⟩

/-- A decision node gets three edges. -/
def thirdEdge : List Call :=
  [.addDecisionNode ⟨0⟩, .addEdge ⟨0, .decision ⟨0⟩, .basicBlock ⟨0⟩⟩,
    .addEdge ⟨1, .decision ⟨0⟩, .basicBlock ⟨1⟩⟩, .addEdge ⟨2, .decision ⟨0⟩, .basicBlock ⟨0⟩⟩]

/-- The third edge is refused, and is in the edge set. -/
theorem thirdEdge_not_keepsRecords : ¬ KeepsRecords ⟨0⟩ ⟨1⟩ thirdEdge := by
  intro h
  have hunchanged := h.nullUnchanged _ _ (.later rfl (.later rfl (.later rfl .here))) _ rfl
  have hmem := congrArg
    (fun g : CFG => decide (⟨2, .decision ⟨0⟩, .basicBlock ⟨0⟩⟩ ∈ g.edges)) hunchanged
  cases hmem

end CFG

end Stabl.StablCfg
