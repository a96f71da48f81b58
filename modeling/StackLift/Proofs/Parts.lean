import StackLift.Build.Unit

/-!
# Actions in parts

The longer actions of a build come to the same end on several ways. These ends have names here, so that
what they do can be stated once.
-/
namespace StackLift

namespace BuildM

/-! ## Joins -/

/-- A local is dropped at a join, and its phi with it. -/
abbrev dropLocal (merge : NodeId) (old : Value) : BuildM (Option Value) := do
  if isPhiOf (← get).graph old.node merge then
    changeGraph fun g => .ok ((), g.removeNode old.node)
  return none

/-- The entry of a block moves to its merge. -/
abbrev moveEntry (target : BlockId) (merge : NodeId) : BuildM NodeId := do
  let e ← entry target
  setEntry target { e with node := merge }
  return merge

/-- The first edge into a block that is no loop header. -/
abbrev placeTarget (scope : Scope) (target : BlockId) (f : Frame) : BuildM NodeId := do
  let node ← addNode .begin []
  setEntry target { node, frame := some (scope.prune f target) }
  return node

/-- One more edge comes in at a merge, through an end of its own. -/
abbrev joinTarget (target : BlockId) (merge : NodeId) (f : Frame) (p : Position) : BuildM NodeId := do
  let stop ← addNode .endNode []
  follow stop merge
  mergeInto target merge f p
  return stop

/-! ## Loops -/

/-- The number of handles is noted at the start of a loop. -/
abbrev noteMark (loop mark : Nat) (f : Frame) : BuildM Frame := do
  if (← get).table.marks.size ≤ loop then
    malformed (.loopWithoutNode loop)
  changeTable fun t => { t with marks := t.marks.setIfInBounds loop (some mark) }
  return f

/-! ## Calls and ways out -/

/-- A call that is bound is lowered and reported. -/
abbrev lowerBound (nested : Option Parser) (declared : MethodId) (d : Devirtualization) (call : Call)
    (pt : Point) : BuildM Point := do
  let r ← lowerCall nested call pt
  recordCall r.2.position declared d r.1
  return r.2

/-- Control goes on at `n`, behind the call. -/
abbrev goOn (n : NodeId) (pt : Point) : BuildM Point := do
  snapshotMerge n pt.frame pt.position.next
  return { pt with last := some n }

/-- Control leaves the method through the exits of the loops. -/
abbrev leave (pt : Point) (exits : Option ExitChain) (stub : NodeId) : BuildM Point := do
  let head ← prependExits exits stub
  let (last, pt) ← pt.takeLast
  follow last head
  return pt

/-! ## Blocks -/

/-- Control is led from the begin `n` into the first block. -/
def enterFirst (sc : Scope) (f : Frame) (n : NodeId) : BuildM Unit :=
  if (sc.blocks.block ⟨0⟩).isLoopHeader = true then do
    let stop ← addLoopEntry ⟨0⟩ f ⟨0⟩
    follow n stop
  else setEntry ⟨0⟩ { node := n, frame := some (sc.prune f ⟨0⟩) }

end BuildM

end StackLift
