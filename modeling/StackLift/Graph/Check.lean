import StackLift.Graph.Basic

/-!
# Checking graphs

What every finished graph satisfies: it has a live start with a snapshot; every node that needs a
snapshot has one; a phi belongs to a merge and has one input for each of its predecessors; a proxy
belongs to a loop exit; and control reaches every control node but the start over some edge.

`check` reports the first violation, going through the nodes in allocation order.
-/
namespace StackLift

namespace Graph

/-- The position at which the node was captured, if it was. -/
def positionOf (g : Graph) (n : NodeId) : Position :=
  match g.snapshot? n with
  | some s => s.position
  | none => ⟨0⟩

def snapshotFault? (id : NodeId) (n : Node) : Option Error :=
  if n.kind.isStateEffecting && n.snapshot.isNone then
    some (.verification ⟨0⟩ (.missingSnapshot n.kind id))
  else none

def linkFault? (g : Graph) (id : NodeId) (n : Node) : Option Error :=
  match n.kind with
  | .phi m =>
    if !g.kindIs m NodeKind.isMerge then
      some (.verification ⟨0⟩ (.phiWithoutMerge id m))
    else if n.inputs.length ≠ g.inDegree m then
      some (.verification (g.positionOf m) (.phiArity id n.inputs.length m (g.inDegree m)))
    else none
  | .proxy e =>
    match g.kind? e with
    | some (.loopExit _) => none
    | _ => some (.verification ⟨0⟩ (.proxyWithoutExit id e))
  | _ => none

def reachFault? (g : Graph) (start id : NodeId) (n : Node) : Option Error :=
  if n.kind.isControl && id ≠ start && g.inDegree id = 0 then
    some (.verification (g.positionOf id) (.unreachable n.kind id))
  else none

def nodeFault? (g : Graph) (start id : NodeId) (n : Node) : Option Error :=
  (snapshotFault? id n).or ((g.linkFault? id n).or (g.reachFault? start id n))

/-- The first violation. -/
def fault? (g : Graph) : Option Error :=
  match g.start.filter g.contains with
  | none => some (.verification ⟨0⟩ .noStart)
  | some start =>
    if (g.snapshot? start).isNone then some (.verification ⟨0⟩ (.startWithoutSnapshot start))
    else g.liveNodes.findSome? fun (id, n) => g.nodeFault? start id n

def check (g : Graph) : Except Error Unit :=
  match g.fault? with
  | some e => .error e
  | none => .ok ()

end Graph

end StackLift
