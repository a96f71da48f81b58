import StackLift.Frame.Snapshot

/-!
# Graphs

Nodes and control edges live in arrays and are named by their index. A removed node or edge leaves
an empty place, so that handles are never given out twice. Every place of a node also lists the
edges that leave it and the edges that enter it, in the order in which they came.

An operation on a handle that is not live fails and changes nothing; only `removeNode` and the two
annotations `setStart` and `setFrequency` accept any handle.
-/
namespace StackLift

/-- What an edge means to its source. -/
inductive EdgeKind where
  | next                  -- the only successor
  | taken                 -- of an if whose input is not zero
  | notTaken
  | case (index : Nat)    -- of a switch
  | default
  | exception             -- of a call
deriving DecidableEq, Repr, Inhabited

def EdgeKind.label : EdgeKind → String
  | .next => ""
  | .taken => "T"
  | .notTaken => "F"
  | .case n => "case " ++ toString n
  | .default => "default"
  | .exception => "exc"

structure Edge where
  source : NodeId
  target : NodeId
  kind : EdgeKind
  probability : Float     -- of taking the edge when control is at the source
deriving Repr, Inhabited

structure Node where
  kind : NodeKind
  inputs : List NodeId := []
  snapshot : Option Snapshot := none
deriving DecidableEq, Repr, Inhabited

/-- The place of a node: empty once it is removed. -/
structure Slot where
  node : Option Node
  outgoing : List EdgeId := []
  incoming : List EdgeId := []
deriving DecidableEq, Repr, Inhabited

structure Graph where
  slots : Array Slot := #[]
  edges : Array (Option Edge) := #[]
  start : Option NodeId := none
  frequencies : List (NodeId × Float) := []   -- one entry for each annotated loop header
  live : Nat := 0                             -- the number of nodes that are not removed
deriving Repr, Inhabited

namespace Graph

/-! ## Queries -/

def node? (g : Graph) (n : NodeId) : Option Node := (g.slots[n.index]?).bind (·.node)

def kind? (g : Graph) (n : NodeId) : Option NodeKind := (g.node? n).map (·.kind)

def inputs (g : Graph) (n : NodeId) : List NodeId :=
  match g.node? n with
  | some node => node.inputs
  | none => []

def snapshot? (g : Graph) (n : NodeId) : Option Snapshot := (g.node? n).bind (·.snapshot)

def contains (g : Graph) (n : NodeId) : Bool := (g.node? n).isSome

/-- The node is live and its kind satisfies `p`. -/
def kindIs (g : Graph) (n : NodeId) (p : NodeKind → Bool) : Bool := (g.kind? n).any p

def edge? (g : Graph) (e : EdgeId) : Option Edge := (g.edges[e.index]?).join

def outgoing (g : Graph) (n : NodeId) : List EdgeId :=
  match g.slots[n.index]? with
  | some s => s.outgoing
  | none => []

def incoming (g : Graph) (n : NodeId) : List EdgeId :=
  match g.slots[n.index]? with
  | some s => s.incoming
  | none => []

def outDegree (g : Graph) (n : NodeId) : Nat := (g.outgoing n).length

def inDegree (g : Graph) (n : NodeId) : Nat := (g.incoming n).length

/-- The edges that leave `n`, in order. -/
def successorEdges (g : Graph) (n : NodeId) : List (EdgeId × Edge) :=
  (g.outgoing n).filterMap fun e => (g.edge? e).map fun d => (e, d)

/-- The edges that enter `n`, in order. -/
def predecessorEdges (g : Graph) (n : NodeId) : List (EdgeId × Edge) :=
  (g.incoming n).filterMap fun e => (g.edge? e).map fun d => (e, d)

def successors (g : Graph) (n : NodeId) : List NodeId :=
  (g.successorEdges n).map fun (_, d) => d.target

def predecessors (g : Graph) (n : NodeId) : List NodeId :=
  (g.predecessorEdges n).map fun (_, d) => d.source

/-- The number of handles given out so far. -/
def nodeCount (g : Graph) : Nat := g.slots.size

/-- The edges that are not removed, oldest first. -/
def liveEdges (g : Graph) : List Edge := g.edges.toList.filterMap id

def edgeCount (g : Graph) : Nat := g.liveEdges.length

/-- The nodes that are not removed, oldest first. -/
def liveNodes (g : Graph) : List (NodeId × Node) :=
  g.slots.toList.zipIdx.filterMap fun (s, i) => s.node.map fun n => (⟨i⟩, n)

/-- The live nodes whose kind satisfies `p`, oldest first. -/
def nodesWhere (g : Graph) (p : NodeId → Node → Bool) : List NodeId :=
  (g.liveNodes.filter fun (i, n) => p i n).map (·.1)

def nodesOf (g : Graph) (c : NodeClass) : List NodeId :=
  g.nodesWhere fun _ n => n.kind.toClass = c

def frequency? (g : Graph) (header : NodeId) : Option Float := g.frequencies.lookup header

/-! ## Construction -/

def addNode (g : Graph) (kind : NodeKind) (inputs : List NodeId) : NodeId × Graph :=
  (⟨g.slots.size⟩,
    { g with slots := g.slots.push { node := some { kind, inputs } }, live := g.live + 1 })

/-- Changes a node where it stands. -/
def modifyNode (g : Graph) (n : NodeId) (f : Node → Node) : Graph :=
  { g with slots := g.slots.modify n.index fun s => { s with node := s.node.map f } }

def addPhiInput (g : Graph) (phi value : NodeId) : Except Error Graph :=
  match g.kind? phi with
  | none => .error (.malformed (.missingNode phi))
  | some (.phi _) => .ok (g.modifyNode phi fun n => { n with inputs := n.inputs ++ [value] })
  | some _ => .error (.malformed (.notPhi phi))

def setSnapshot (g : Graph) (n : NodeId) (s : Snapshot) : Except Error Graph :=
  if g.contains n then .ok (g.modifyNode n fun d => { d with snapshot := some s })
  else .error (.malformed (.missingNode n))

def setStart (g : Graph) (n : NodeId) : Graph := { g with start := some n }

def setFrequency (g : Graph) (header : NodeId) (frequency : Float) : Graph :=
  { g with frequencies := (header, frequency) :: g.frequencies.filter (·.1 ≠ header) }

/-- Enters `e` at the end of the lists of `source` and `target`. -/
def attach (slots : Array Slot) (e : EdgeId) (source target : NodeId) : Array Slot :=
  (slots.modify source.index fun s => { s with outgoing := s.outgoing ++ [e] }).modify
    target.index fun s => { s with incoming := s.incoming ++ [e] }

def addEdge (g : Graph) (source target : NodeId) (kind : EdgeKind) (probability : Float) :
    Except Error (EdgeId × Graph) :=
  if !g.contains source then .error (.malformed (.missingEdgeSource source))
  else if !g.contains target then .error (.malformed (.missingEdgeTarget target))
  else
    let e : EdgeId := ⟨g.edges.size⟩
    .ok (e, { g with
      slots := attach g.slots e source target
      edges := g.edges.push (some { source, target, kind, probability }) })

/-- Moves the head of an edge; it enters its new target last. -/
def retarget (g : Graph) (e : EdgeId) (target : NodeId) : Except Error Graph :=
  if !g.contains target then .error (.malformed (.missingEdgeTarget target))
  else match g.edge? e with
    | none => .error (.malformed (.missingEdge e))
    | some d =>
      .ok { g with
        slots := (g.slots.modify d.target.index fun s =>
            { s with incoming := s.incoming.filter (· ≠ e) }).modify
          target.index fun s => { s with incoming := s.incoming ++ [e] }
        edges := g.edges.setIfInBounds e.index (some { d with target }) }

/-- Takes an edge out of the graph and out of the lists of its ends. -/
def dropEdge (g : Graph) (e : EdgeId) : Graph :=
  match g.edge? e with
  | none => g
  | some d =>
    { g with
      slots := (g.slots.modify d.source.index fun s =>
          { s with outgoing := s.outgoing.filter (· ≠ e) }).modify
        d.target.index fun s => { s with incoming := s.incoming.filter (· ≠ e) }
      edges := g.edges.setIfInBounds e.index none }

/-- Removes a node, its edges and its annotation. -/
def removeNode (g : Graph) (n : NodeId) : Graph :=
  if g.contains n then
    let touching := g.outgoing n ++ g.incoming n
    touching.foldl dropEdge
      { g with
        slots := g.slots.modify n.index fun _ => { node := none }
        live := g.live - 1
        frequencies := g.frequencies.filter (·.1 ≠ n) }
  else g

end Graph

end StackLift
