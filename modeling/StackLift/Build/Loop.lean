import StackLift.Build.Work
import StackLift.Graph.Carriers

/-!
# Loops

A loop header is made before its method is parsed, so that back edges and exits can name it. When
its block is parsed, every value of its frame becomes a phi of the header, and the number of handles
in use is noted: what is allocated later belongs to the loop.

**Back edges** give every phi of the header one more input. A local that a back edge leaves
undefined, or with another kind, loses its phi, together with everything that only carries it; if
anything else uses it, the code is faulty.

**Exits.** An edge out of loops goes through one loop exit for each of them, the innermost first,
and every value that the loop defined goes on as a proxy of its exit.
-/
namespace StackLift

namespace BuildM

def isPhiOf (g : Graph) (n merge : NodeId) : Bool :=
  match g.kind? n with
  | some (.phi m) => m = merge
  | _ => false

/-- The loop of `header` defines `n`: it is one of the header's phis, or younger than the mark. -/
def definedInLoop (g : Graph) (n header : NodeId) (mark : Option Nat) : Bool :=
  match g.kind? n with
  | none => false
  | some k =>
    if k.isUniversal then false
    else k == .phi header || mark.any (· ≤ n.index)

/-! ## Headers -/

/-- Makes one header for each loop of the method. -/
def createLoopHeaders : BuildM Unit := do
  let blocks := (← read).blocks
  for loopIndex in List.range blocks.loopCount do
    let b ← demand (blocks.loopHeader? loopIndex) (.loopWithoutBlock loopIndex)
    let node ← addNode (.loopHeader loopIndex) []
    setEntry b { node }
    changeTable fun t =>
      { t with headers := t.headers.push node, marks := t.marks.push none }

/-- Turns the values of the header's frame into phis with one input for each forward edge. -/
def beginLoop (loopIndex : Nat) (header : NodeId) (f : Frame) : BuildM Frame := do
  let w ← get
  let mark := w.graph.nodeCount
  let forward := w.graph.inDegree header
  let f ← f.mapValuesM fun v => do
    if isPhiOf (← get).graph v.node header then
      return v
    else
      let phi ← addNode (.phi header) (List.replicate forward v.node)
      return { v with node := phi }
  if (← get).table.marks.size ≤ loopIndex then
    malformed (.loopWithoutNode loopIndex)
  changeTable fun t => { t with marks := t.marks.setIfInBounds loopIndex (some mark) }
  return f

/-! ## Back edges -/

/-- Drops phis of a header, and their carriers, from the graph, from all snapshots and from all
frames that wait at an entry. Answers the frame of the header without them. -/
def dropPhis (header : BlockId) (headerFrame incoming : Frame) (roots : List NodeId)
    (p : Position) : BuildM Frame := do
  let stuck : Fault := .lostLocalOnStack header
  let dead ← match (← get).graph.carriers roots with
    | .ok dead => pure dead
    | .error user => verify p (.lostLocalUsed header user)
  if incoming.values.any (·.node ∈ dead) then
    verify p stuck
  let some headerFrame := headerFrame.withoutLocals? dead | verify p stuck
  let entries ← (← get).table.entries.mapM fun
    | some e =>
      match e.frame with
      | some f =>
        match f.withoutLocals? dead with
        | some f => pure (some { e with frame := some f })
        | none => verify p stuck
      | none => pure (some e)
    | none => pure none
  changeTable fun t => { t with entries }
  let stale := (← get).graph.nodesWhere fun _ n => n.snapshot.any (·.refersTo dead)
  for n in stale do
    match ((← get).graph.snapshot? n).bind (·.withoutLocals? dead) with
    | some s => setSnapshot n s
    | none => verify p stuck
  for n in dead do
    changeGraph fun g => .ok ((), g.removeNode n)
  return headerFrame

/-- The phis of the locals that `incoming` does not define with the kind they have. -/
def lostPhis (headerFrame incoming : Frame) : List NodeId :=
  (headerFrame.pairLocals incoming).filterMap fun
    | (some phi, some v) => if v.kind = phi.kind then none else some phi.node
    | (some phi, none) => some phi.node
    | (none, _) => none

/-- The header's frame `f` without the locals that `incoming` lacks. -/
def shedLocals (header : BlockId) (f incoming : Frame) (p : Position) : BuildM Frame :=
  if (lostPhis f incoming).isEmpty then pure f
  else dropPhis header f incoming (lostPhis f incoming) p

/-- Gives the phis in `f` the values of `incoming`. -/
def feedPhis (f incoming : Frame) : BuildM Unit := do
  for pair in f.pairLocals incoming do
    if let (some phi, some v) := pair then
      addPhiInput phi.node v.node
  for (phi, v) in f.stack.reverse.zip incoming.stack.reverse do
    addPhiInput phi.node v.node
  for (phi, v) in f.monitors.reverse.zip incoming.monitors.reverse do
    addPhiInput phi.node v.node

/-- Gives every value of the header's frame the input that a back edge brings. -/
def fillPhis (header : BlockId) (headerFrame incoming : Frame) (p : Position) :
    BuildM Frame := do
  liftExcept (headerFrame.checkCompatible p incoming)
  let headerFrame ← shedLocals header headerFrame incoming p
  feedPhis headerFrame incoming
  return headerFrame

/-- A back edge into the header of block `target`. -/
def addLoopEnd (target : BlockId) (incoming : Frame) (p : Position) : BuildM NodeId := do
  let e ← entry target
  if !e.parsed then
    malformed (.headerNotParsed target)
  let headerFrame ← demand e.frame (.headerWithoutState target)
  let headerFrame ← fillPhis target headerFrame incoming p
  setEntry target { e with frame := some headerFrame }
  let loopEnd ← addNode (.loopEnd e.node) []
  follow loopEnd e.node
  return loopEnd

/-! ## Exits -/

/-- The loop exits of one edge; control enters at the first and leaves at the last. -/
structure ExitChain where
  first : NodeId
  last : NodeId
deriving DecidableEq, Repr, Inhabited

/-- The value as it is seen after `exit`; `proxies` holds the proxies made so far. -/
def proxyOf (exit header : NodeId) (mark : Option Nat) (v : Value) :
    StateT (List (NodeId × NodeId)) BuildM Value := do
  let g := (← getThe Work).graph
  if definedInLoop g v.node header mark then
    match (← getThe (List (NodeId × NodeId))).lookup v.node with
    | some proxy => return { v with node := proxy }
    | none =>
      let proxy ← addNode (.proxy exit) [v.node]
      modifyThe (List (NodeId × NodeId)) ((v.node, proxy) :: ·)
      return { v with node := proxy }
  else
    return v

/-- Leaves one loop. -/
def exitLoop (p : Position) (state : Frame × Option ExitChain) (loopIndex : Nat) :
    BuildM (Frame × Option ExitChain) := do
  let t := (← get).table
  let header ← demand t.headers[loopIndex]? (.loopWithoutNode loopIndex)
  let mark ← demand t.marks[loopIndex]? (.loopWithoutNode loopIndex)
  let exit ← addNode (.loopExit header) []
  let (f, _) ← (state.1.mapValuesM (proxyOf exit header mark)).run []
  attachSnapshot exit f p
  match state.2 with
  | some c =>
    follow c.last exit
    return (f, some { c with last := exit })
  | none => return (f, some ⟨exit, exit⟩)

/-- Leaves every loop around `source` that is not around `target`. Inner loops have larger headers,
hence larger numbers. -/
def exitLoops (source target : BlockId) (f : Frame) (p : Position) :
    BuildM (Frame × Option ExitChain) := do
  let blocks := (← read).blocks
  let exited := (blocks.block source).loops.difference (blocks.block target).loops
  exited.toList.reverse.foldlM (exitLoop p) (f, none)

/-- Puts the exits in front of `stub`. -/
def prependExits (exits : Option ExitChain) (stub : NodeId) : BuildM NodeId :=
  match exits with
  | some c => do
    follow c.last stub
    return c.first
  | none => return stub

end BuildM

end StackLift
