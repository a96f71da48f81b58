import StackLift.Graph.Basic

/-!
# Carriers of a value

Phis and proxies only carry values on. `carriers` finds everything that a set of values is carried
to, or a node that does something else with one of them.
-/
namespace StackLift

namespace Graph

/-- Adds the users of `value` to the nodes found and to the nodes still to be followed; stops at a
user that is not a carrier. -/
def spread (value : NodeId) (found work : List NodeId) :
    List (NodeId × Node) → Except NodeId (List NodeId × List NodeId)
  | [] => .ok (found, work)
  | (user, n) :: rest =>
    if user ∈ found || value ∉ n.inputs then spread value found work rest
    else if n.kind.isCarrier then spread value (user :: found) (user :: work) rest
    else .error user

/-- Every node is followed at most once beside the roots, so their number and the number of nodes
bound the rounds. -/
def carriersFrom (g : Graph) : Nat → List NodeId → List NodeId → Except NodeId (List NodeId)
  | 0, found, _ => .ok found
  | _ + 1, found, [] => .ok found
  | fuel + 1, found, value :: work => do
    let (found, work) ← spread value found work g.liveNodes
    carriersFrom g fuel found work

/-- The roots and everything that carries them, or the first other user. The last root is followed
first, and what was found last before what was found earlier. -/
def carriers (g : Graph) (roots : List NodeId) : Except NodeId (List NodeId) :=
  g.carriersFrom (roots.length + g.nodeCount + 1) roots roots.reverse

end Graph

end StackLift
