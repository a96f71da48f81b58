import StackLift.Graph.Basic

/-!
# Changes in steps

The operations that can be refused, step by step: what is looked up, what is refused, and what is
written into the tables one after the other. With its error a change returns the graph as the steps
before the error have left it.
-/
namespace StackLift.Graph

abbrev Change := EStateM Error Graph

def modifySlot (g : Graph) (n : NodeId) (f : Slot → Slot) : Graph :=
  { g with slots := g.slots.modify n.index f }

namespace Change

def addPhiInput (phi value : NodeId) : Change Unit := do
  let some kind := (← get).kind? phi | throw (.malformed (.missingNode phi))
  unless kind.toClass = .phi do
    throw (.malformed (.notPhi phi))
  modify (·.modifyNode phi fun n => { n with inputs := n.inputs ++ [value] })

def setSnapshot (n : NodeId) (s : Snapshot) : Change Unit := do
  unless (← get).contains n do
    throw (.malformed (.missingNode n))
  modify (·.modifyNode n fun d => { d with snapshot := some s })

def addEdge (source target : NodeId) (kind : EdgeKind) (probability : Float) : Change EdgeId := do
  unless (← get).contains source do
    throw (.malformed (.missingEdgeSource source))
  unless (← get).contains target do
    throw (.malformed (.missingEdgeTarget target))
  let e : EdgeId := ⟨(← get).edges.size⟩
  modify fun g => { g with edges := g.edges.push (some { source, target, kind, probability }) }
  modify (·.modifySlot source fun s => { s with outgoing := s.outgoing ++ [e] })
  modify (·.modifySlot target fun s => { s with incoming := s.incoming ++ [e] })
  return e

def retarget (e : EdgeId) (target : NodeId) : Change Unit := do
  unless (← get).contains target do
    throw (.malformed (.missingEdgeTarget target))
  let some d := (← get).edge? e | throw (.malformed (.missingEdge e))
  modify fun g => { g with edges := g.edges.setIfInBounds e.index (some { d with target }) }
  modify (·.modifySlot d.target fun s => { s with incoming := s.incoming.filter (· ≠ e) })
  modify (·.modifySlot target fun s => { s with incoming := s.incoming ++ [e] })

end Change

end StackLift.Graph
