import StackLift.Graph.Basic

/-!
# Tidying graphs

Lifting leaves begins that were replaced by a merge, headers of loops that are never reached, and
begins that separate nothing. A begin is only needed as the start or after a control split.
-/
namespace StackLift

namespace Graph

/-- The begins and loop headers that no edge leads to, the start apart. -/
def orphans (g : Graph) : List NodeId :=
  g.nodesWhere fun id n =>
    (match n.kind with
      | .begin | .loopHeader _ => true
      | _ => false) && g.start ≠ some id && g.inDegree id == 0

/-- Takes `id` out of the way if it is between two nodes and not behind a split: the edge into it
goes to its successor instead. -/
def fold (g : Graph) (id : NodeId) : Except Error Graph :=
  match g.predecessorEdges id, g.successors id with
  | [(e, d)], [successor] =>
    if g.kindIs d.source NodeKind.isControlSplit then .ok g
    else do
      let g ← g.retarget e successor
      return g.removeNode id
  | _, _ => .ok g

def tidy (g : Graph) : Except Error Graph :=
  let g := g.orphans.foldl removeNode g
  let begins := g.nodesWhere fun id n => n.kind == .begin && g.start ≠ some id
  begins.foldlM fold g

end Graph

end StackLift
