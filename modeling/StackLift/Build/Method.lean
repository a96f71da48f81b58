import StackLift.Build.Step

/-!
# Methods

The blocks of a method are lifted in the order of their numbers; a block that no edge has reached by
then is left out. At the root, the unwind block ends in an unwind node. In an inlined method, the
exit and the unwind block are answered to the caller, which goes on there.
-/
namespace StackLift

namespace BuildM

/-- The begin of the method: after the caller's control point, or as the start of the graph. -/
def connectEntry (f : Frame) (predecessor : Option NodeId) : BuildM Unit := do
  let scope ← read
  let entryBlock : BlockId := ⟨0⟩
  let origin : Position := ⟨0⟩
  let start ← addNode .begin []
  match predecessor with
  | some n => follow n start
  | none =>
    changeGraph fun g => .ok ((), g.setStart start)
    attachSnapshot start f origin
  if (scope.blocks.block entryBlock).isLoopHeader then
    let stop ← addLoopEntry entryBlock f origin
    follow start stop
  else
    setEntry entryBlock { node := start, frame := some (scope.prune f entryBlock) }

/-- Lifts the instructions at `positions` for as long as control is in the block. -/
def runCode (nested : Option Parser) : List Position → Point → BuildM Point
  | [], pt => return pt
  | p :: rest, pt => do
    match pt.last, (← read).body.instruction? p with
    | some _, some i =>
      let pt ← step nested i { pt with position := p }
      runCode nested rest pt
    | _, _ => return pt

/-- The frame of a loop header becomes a frame of phis. -/
def openHeader (loop : Nat) (b : BlockId) (node : NodeId) (f : Frame) : BuildM Frame := do
  let f ← beginLoop loop node f
  let e ← entry b
  setEntry b { e with frame := some f }
  return f

/-- The code of a block, behind its entry, and the jump to the next block. -/
def runBody (nested : Option Parser) (b : Block) (node : NodeId) (f : Frame) : BuildM Unit := do
  snapshotMerge node f b.start
  let positions := (List.range' b.start.index (b.stop.index - b.start.index)).map Position.mk
  let pt ← runCode nested positions
    { block := b.id, position := b.start, frame := f, last := some node }
  if pt.last.isSome then
    let next ← demand ((← read).blocks.blockAt? b.stop) (.blockFallsOffEnd b.id)
    let _ ← pt.jump next

def instructionBlock (nested : Option Parser) (b : Block) : BuildM Unit := do
  let (node, f) ← openBlock b.id (.noEntryState b.id)
  let f ← match b.loopHeader with
    | some loop => openHeader loop b.id node f
    | none => pure f
  runBody nested b node f

def exitBlock (b : Block) : BuildM Unit := do
  let (node, frame) ← openBlock b.id (.noEntryState b.id)
  changeTable fun t => { t with exits := { t.exits with returned := some { node, frame } } }

def unwindBlock (b : Block) : BuildM Unit := do
  let (node, frame) ← openBlock b.id (.noEntryState b.id)
  if (← read).depth = 0 then
    snapshotMerge node frame b.start
    match frame.peek? with
    | some exception =>
      let n ← addNode .unwind [exception.node]
      follow node n
    | none => verify b.start .unwindWithoutException
  else
    changeTable fun t => { t with exits := { t.exits with unwound := some { node, frame } } }

/-- Lifts a block, if some edge has reached it. -/
def liftBlock (nested : Option Parser) (b : Block) : BuildM Unit := do
  if ((← entry? b.id).bind (·.frame)).isSome then
    checkBudget b.start
    match b.kind with
    | .instructions => instructionBlock nested b
    | .dispatch handler next => dispatchBlock b.id handler next
    | .exit => exitBlock b
    | .unwind => unwindBlock b

/-- The body of the method is entered. -/
def enterBody : BuildM Unit := do
  let scope ← read
  modify fun w => { w with parsed := scope.body :: w.parsed }

/-- Lifts the blocks of a method, one after the other. -/
def followBlocks (nested : Option Parser) : Parser := fun f predecessor => do
  createLoopHeaders
  connectEntry f predecessor
  for b in (← read).blocks.blocks do
    liftBlock nested b
  return (← get).table.exits

/-- Follows a method; calls in it are inlined by `nested`. -/
def parseWith (nested : Option Parser) : Parser := fun f predecessor => do
  enterBody
  followBlocks nested f predecessor

/-- Follows a method into which calls may nest `levels` deep. -/
def parse : Nat → Parser
  | 0, f, predecessor => parseWith none f predecessor
  | levels + 1, f, predecessor => parseWith (some (parse levels)) f predecessor

end BuildM

end StackLift
