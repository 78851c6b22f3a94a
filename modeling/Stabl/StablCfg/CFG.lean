import Mathlib.Data.Finset.Insert
import Mathlib.Logic.Function.Basic

/-!
# `Stabl.StablCfg.CFG`: the control-flow graph

The classes of the package `stablcfg` and the calls that build a graph. A node or an edge is
a Java object, known by its identity, and none of the classes has an `equals` of its own. The
fields of nodes that the calls write are parts of the state: `incomingEdges` of every node,
`outgoingEdge` of the basic-block nodes, and `thenEdge` and `elseEdge` of the decision nodes. A
thrown exception is `none`, and so is `null` as the value of a field.
-/

set_option autoImplicit false

namespace Stabl.StablCfg

/-- A `CFGBasicBlockNode` object. -/
structure CFGBasicBlockNode where
  identity : Nat
deriving DecidableEq, Repr

/-- A `CFGDecisionNode` object. -/
structure CFGDecisionNode where
  identity : Nat
deriving DecidableEq, Repr

/-- A `CFGNode` object. The class is not abstract, so there are nodes of neither subclass. -/
inductive CFGNode where
  | basicBlock (node : CFGBasicBlockNode)
  | decision (node : CFGDecisionNode)
  | plain (identity : Nat)
deriving DecidableEq, Repr

/-- A `CFEdge` object. -/
structure CFEdge where
  identity : Nat
  tail : CFGNode
  head : CFGNode
deriving DecidableEq, Repr

/-- A `CFG` with the fields of the nodes. -/
structure CFG where
  decisionNodeList : Finset CFGDecisionNode
  cfgBasicBlockNodeList : Finset CFGBasicBlockNode
  edges : Finset CFEdge
  incomingEdges : CFGNode → List CFEdge
  outgoingEdge : CFGBasicBlockNode → Option CFEdge
  thenEdge : CFGDecisionNode → Option CFEdge
  elseEdge : CFGDecisionNode → Option CFEdge

namespace CFG

/-- The constructor, with nodes that are as their own constructors leave them. -/
def new (start stop : CFGBasicBlockNode) : CFG where
  decisionNodeList := ∅
  cfgBasicBlockNodeList := {start, stop}
  edges := ∅
  incomingEdges := fun _ => []
  outgoingEdge := fun _ => none
  thenEdge := fun _ => none
  elseEdge := fun _ => none

/-- `CFG.addDecisionNode`. -/
def addDecisionNode (g : CFG) (node : CFGDecisionNode) : Option CFGDecisionNode × CFG :=
  if node ∈ g.decisionNodeList then
    (none, g)
  else
    (some node, { g with decisionNodeList := insert node g.decisionNodeList })

/-- `CFG.addBasicBlockNode`. -/
def addBasicBlockNode (g : CFG) (node : CFGBasicBlockNode) : Option CFGBasicBlockNode × CFG :=
  if node ∈ g.cfgBasicBlockNodeList then
    (none, g)
  else
    (some node, { g with cfgBasicBlockNodeList := insert node g.cfgBasicBlockNodeList })

/-- `CFG.hasNode`. -/
def hasNode (g : CFG) : CFGNode → Bool
  | .decision node => decide (node ∈ g.decisionNodeList)
  | .basicBlock node => decide (node ∈ g.cfgBasicBlockNodeList)
  | .plain _ => false

/-- `CFGNode.addIncomingEdge`. -/
def addIncomingEdge (g : CFG) (node : CFGNode) (edge : CFEdge) : CFG :=
  { g with incomingEdges := Function.update g.incomingEdges node (g.incomingEdges node ++ [edge]) }

/-- `CFGBasicBlockNode.setOutgoingEdge`. -/
def setOutgoingEdge (g : CFG) (node : CFGBasicBlockNode) (edge : CFEdge) : CFG :=
  { g with outgoingEdge := Function.update g.outgoingEdge node (some edge) }

/-- `CFGDecisionNode.setThenEdge`. It throws where the edge's tail is another node. -/
def setThenEdge (g : CFG) (node : CFGDecisionNode) (edge : CFEdge) : Option CFG :=
  if edge.tail = .decision node then
    some { g with thenEdge := Function.update g.thenEdge node (some edge) }
  else
    none

/-- `CFGDecisionNode.setElseEdge`. It throws where the edge's tail is another node. -/
def setElseEdge (g : CFG) (node : CFGDecisionNode) (edge : CFEdge) : Option CFG :=
  if edge.tail = .decision node then
    some { g with elseEdge := Function.update g.elseEdge node (some edge) }
  else
    none

/-- `CFG.addEdge`, with the value that it returns: `none` is `null`. -/
def addEdge (g : CFG) (edge : CFEdge) : Option (Option CFEdge × CFG) :=
  let h := edge.head
  let t := edge.tail
  if !(g.hasNode h && g.hasNode t) then
    some (none, g)
  else
    let g := { g with edges := insert edge g.edges }
    match t with
    | .basicBlock node => some (some edge, (g.setOutgoingEdge node edge).addIncomingEdge h edge)
    | .decision node =>
      if !(g.thenEdge node = none || g.elseEdge node = none) then
        some (none, g)
      else if g.thenEdge node = none then
        (g.setThenEdge node edge).map fun g => (some edge, g.addIncomingEdge h edge)
      else if g.elseEdge node = none then
        (g.setElseEdge node edge).map fun g => (some edge, g.addIncomingEdge h edge)
      else
        some (some edge, g.addIncomingEdge h edge)
    -- The cast to `CFGDecisionNode` would throw.
    | .plain _ => none

/-- A call of one of the three methods. -/
inductive Call where
  | addBasicBlockNode (node : CFGBasicBlockNode)
  | addDecisionNode (node : CFGDecisionNode)
  | addEdge (edge : CFEdge)
deriving DecidableEq, Repr

/-- The graph after a call. -/
def call (g : CFG) : Call → Option CFG
  | .addBasicBlockNode node => some (g.addBasicBlockNode node).2
  | .addDecisionNode node => some (g.addDecisionNode node).2
  | .addEdge edge => (g.addEdge edge).map Prod.snd

end CFG

end Stabl.StablCfg
