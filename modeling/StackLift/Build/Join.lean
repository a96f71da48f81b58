import StackLift.Build.Loop

/-!
# Joins

The first edge into a block makes a begin. The second forward edge turns it into a merge, and every
edge comes in through an end of its own. Where the arriving frames differ, a phi of the merge takes
the place of the value; a local that is not defined everywhere with one kind is dropped.

`resolveTarget` is the way into a block: it answers the node that the edge has to lead to. With dead
code elimination, an edge that is never taken leads to a trap.
-/
namespace StackLift

namespace BuildM

/-! ## Frames that meet -/

/-- Joins what a slot held on the first `ends` edges with what a new edge brings. -/
def mergeValue (merge : NodeId) (ends : Nat) (old new : Value) : BuildM Value := do
  if isPhiOf (← get).graph old.node merge then
    addPhiInput old.node new.node
    return old
  else if old.node = new.node then
    return old
  else
    let phi ← addNode (.phi merge) (List.replicate ends old.node ++ [new.node])
    return ⟨phi, old.kind⟩

/-- Joins a local; it stays only if both sides have it with one kind. -/
def mergeLocal (merge : NodeId) (ends : Nat) : Option Value → Option Value → BuildM (Option Value)
  | none, _ => return none
  | some old, new => do
    match new with
    | some new =>
      if new.kind = old.kind then
        return some (← mergeValue merge ends old new)
    | none => pure ()
    if isPhiOf (← get).graph old.node merge then
      changeGraph fun g => .ok ((), g.removeNode old.node)
    return none

/-- Joins the frame at `merge` with one that arrives over an edge that is already there. -/
def mergeFrames (merge : NodeId) (current incoming : Frame) (p : Position) : BuildM Frame := do
  liftExcept (current.checkCompatible p incoming)
  let ends := (← get).graph.inDegree merge - 1
  let locals ← (current.pairLocals incoming).mapM fun (old, new) =>
    mergeLocal merge ends old new
  let stack ← (current.stack.reverse.zip incoming.stack.reverse).mapM fun (old, new) =>
    mergeValue merge ends old new
  let monitors ← (current.monitors.reverse.zip incoming.monitors.reverse).mapM fun (old, new) =>
    mergeValue merge ends old new
  return { locals, stack := stack.reverse, monitors := monitors.reverse }

/-- One more frame arrives at the entry of `target`. -/
def mergeInto (target : BlockId) (merge : NodeId) (incoming : Frame) (p : Position) :
    BuildM Unit := do
  let e ← entry target
  let current ← demand e.frame (.noEntryState target)
  let merged ← mergeFrames merge current incoming p
  setEntry target { e with frame := some merged }

/-! ## Edges that meet -/

/-- Replaces the begin of a block by a merge that is reached through a new end. The edge into the
begin moves to the end; after a control split the begin has to stay, in front of the end. -/
def promote (target : BlockId) (start : NodeId) : BuildM NodeId := do
  let merge ← addNode .merge []
  let stop ← addNode .endNode []
  follow stop merge
  let g := (← get).graph
  match g.predecessorEdges start with
  | [(e, d)] =>
    if g.kindIs d.source NodeKind.isControlSplit then
      follow start stop
    else
      changeGraph fun g => return ((), ← g.retarget e stop)
  | _ => follow start stop
  let e ← entry target
  setEntry target { e with node := merge }
  return merge

/-- A forward edge into a loop header. -/
def addLoopEntry (target : BlockId) (f : Frame) (p : Position) : BuildM NodeId := do
  let e ← demand (← entry? target) (.headerMissing target)
  if e.parsed then
    malformed (.headerAlreadyParsed target)
  let stop ← addNode .endNode []
  follow stop e.node
  match e.frame with
  | none => setEntry target { e with frame := some ((← read).prune f target) }
  | some _ => mergeInto target e.node f p
  return stop

/-- The node that an edge from `source` into `target` has to lead to. -/
def createTarget (source target : BlockId) (f : Frame) (p : Position) : BuildM NodeId := do
  let scope ← read
  if (scope.blocks.block target).isLoopHeader then
    if target.index ≤ source.index then
      addLoopEnd target f p
    else
      addLoopEntry target f p
  else
    match ← entry? target with
    | none =>
      let node ← addNode .begin []
      setEntry target { node, frame := some (scope.prune f target) }
      return node
    | some e =>
      if e.parsed then
        malformed (.alreadyParsed source target)
      let merge ← if ← kindIs e.node (· == .begin) then promote target e.node else pure e.node
      let stop ← addNode .endNode []
      follow stop merge
      mergeInto target merge f p
      return stop

/-- The node that leads from `source` to `target`, through the exits of the loops it leaves. -/
def resolveTarget (source target : BlockId) (f : Frame) (probability : Float) (p : Position) :
    BuildM NodeId := do
  if probability ≤ 0.0 && (← read).config.deadCodeElimination then
    addDeopt .unreached f p
  else
    let (f, exits) ← exitLoops source target f p
    let stub ← createTarget source target f p
    prependExits exits stub

/-- One successor of a control split. -/
def addBranch (source : BlockId) (split : NodeId) (target : BlockId) (f : Frame)
    (probability : Float) (kind : EdgeKind) (p : Position) : BuildM Unit := do
  let stub ← resolveTarget source target f probability p
  let stub ← beginStub stub
  addEdge split stub kind probability

end BuildM

/-- Goes on at `target`, whatever happens. -/
def Point.jump (pt : Point) (target : BlockId) : BuildM Point := do
  let stub ← BuildM.resolveTarget pt.block target pt.frame 1.0 pt.position
  let (last, pt) ← pt.takeLast
  BuildM.follow last stub
  return pt

end StackLift
