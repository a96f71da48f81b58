import StackLift.BitSet
import StackLift.Flow.Dominators
import StackLift.Flow.Vertex
import StackLift.Search

/-!
# Block maps

The reachable blocks of a body, numbered in reverse postorder of a depth-first search from the
entry, with the exit and the unwind block last. So every forward edge goes from a smaller to a
larger number, and every other edge is a back edge: its target has to dominate its source, and is
then the header of a loop. Code in which it does not is irreducible and is refused.

The loop of a header is everything that reaches one of its back edges without going through it.
Loops are numbered by their headers.
-/
namespace StackLift

inductive BlockKind where
  | instructions
  /-- Tests one handler; without a `next` the handler catches everything. -/
  | dispatch (handler : Nat) (next : Option BlockId)
  | exit
  | unwind
deriving DecidableEq, Repr, Inhabited

structure Block where
  id : BlockId
  kind : BlockKind
  start : Position            -- of a test, the entry of its handler; of an exit, the body's end
  stop : Position             -- one past the last instruction
  successors : List BlockId
  predecessors : List BlockId
  loops : BitSet              -- the loops around the block
  loopHeader : Option Nat     -- the loop that the block is the header of
deriving DecidableEq, Repr, Inhabited

namespace Block

def isLoopHeader (b : Block) : Bool := b.loopHeader.isSome

/-- The position of the last instruction, if there is one. -/
def last? (b : Block) : Option Position :=
  if b.start.index < b.stop.index then some ⟨b.stop.index - 1⟩ else none

end Block

structure BlockMap where
  blocks : Array Block
  starts : List (Position × BlockId)       -- the runs of instructions
  dispatches : List (Position × BlockId)   -- the first test of every covered position
  loopHeaders : List BlockId
deriving DecidableEq, Repr, Inhabited

namespace BlockMap

/-! ## Queries -/

def size (m : BlockMap) : Nat := m.blocks.size

def block (m : BlockMap) (b : BlockId) : Block := m.blocks[b.index]?.getD default

/-- The run of instructions that starts at `p`. -/
def blockAt? (m : BlockMap) (p : Position) : Option BlockId := m.starts.lookup p

/-- The first test of an exception raised at `p`. -/
def dispatchAt? (m : BlockMap) (p : Position) : Option BlockId := m.dispatches.lookup p

def exitBlock (m : BlockMap) : BlockId := ⟨m.size - 2⟩

def unwindBlock (m : BlockMap) : BlockId := ⟨m.size - 1⟩

def loopHeader? (m : BlockMap) (loopIndex : Nat) : Option BlockId := m.loopHeaders[loopIndex]?

def loopCount (m : BlockMap) : Nat := m.loopHeaders.length

/-! ## Numbering -/

/-- The reachable vertices in the order of their numbers. -/
def order (t : Partition) : List Vertex :=
  (Search.visit t.successors t.searchDepth { seen := [.exit, .unwind] } (.code ⟨0⟩)).done ++
    [.exit, .unwind]

def number? (order : List Vertex) (v : Vertex) : Option BlockId :=
  (order.idxOf? v).map BlockId.mk

/-- The successors of every block, by number. -/
def edgeTable (t : Partition) (order : List Vertex) : Array (List Nat) :=
  (order.map fun v => (t.successors v).filterMap order.idxOf?).toArray

/-- All edges, in the order of their sources. -/
def links (edges : Array (List Nat)) : List (Nat × Nat) :=
  edges.toList.zipIdx.flatMap fun (targets, a) => targets.map fun b => (a, b)

/-- The sources of the edges into `b`, in the order of their numbers. -/
def sources (links : List (Nat × Nat)) (b : Nat) : List Nat :=
  (links.filter (·.2 = b)).map (·.1)

/-! ## Loops -/

/-- The edges that do not go forward, in the order of their sources. -/
def backEdges (links : List (Nat × Nat)) : List (Nat × Nat) := links.filter fun (a, b) => b ≤ a

/-- The headers of `count` blocks with the back edges `back`, ascending. -/
def headers (count : Nat) (back : List (Nat × Nat)) : List Nat :=
  (List.range count).filter fun b => back.any (·.2 = b)

/-- The blocks that reach a back edge of `header` without going through it. -/
def loopBody (count : Nat) (back : List (Nat × Nat)) (preds : Nat → List Nat) (header : Nat) :
    BitSet :=
  ((sources back header).foldl (Search.visit preds (count + 1)) { seen := [header] }).seen.foldl
    BitSet.insert (BitSet.empty count)

/-- The loops, given by their bodies, that block `b` is in. -/
def loopsAround (bodies : List BitSet) (b : Nat) : BitSet :=
  bodies.zipIdx.foldl (fun s (body, l) => if body.contains b then s.insert l else s)
    (BitSet.empty bodies.length)

/-! ## Construction -/

def kindOf (t : Partition) (order : List Vertex) : Vertex → BlockKind
  | .code _ => .instructions
  | .dispatch h rest =>
    .dispatch h (if t.body.catchesAllAt h then none else number? order (Partition.chain rest))
  | .exit => .exit
  | .unwind => .unwind

/-- The positions that the block of a vertex spans. -/
def spanOf (t : Partition) : Vertex → Position × Position
  | .code p => (p, t.stop p)
  | .dispatch h _ => (t.body.entryOf h, t.body.entryOf h)
  | .exit | .unwind => (⟨t.body.size⟩, ⟨t.body.size⟩)

/-- The map of a body whose back edges `back` are known to be proper. -/
def assemble (t : Partition) (order : List Vertex) (edges : Array (List Nat))
    (back : List (Nat × Nat)) (preds : Nat → List Nat) : BlockMap :=
  let heads := headers edges.size back
  let bodies := heads.map (loopBody edges.size back preds)
  { blocks := (order.zipIdx.map fun (v, id) =>
      { id := ⟨id⟩
        kind := kindOf t order v
        start := (spanOf t v).1
        stop := (spanOf t v).2
        successors := (edges[id]?.getD []).map BlockId.mk
        predecessors := (preds id).map BlockId.mk
        loops := loopsAround bodies id
        loopHeader := heads.idxOf? id }).toArray
    starts := order.zipIdx.filterMap fun
      | (.code p, id) => some (p, ⟨id⟩)
      | _ => none
    dispatches := ((List.range t.body.size).map Position.mk).filterMap fun p =>
      match t.body.thrownTo p with
      | [] => none
      | h :: rest => (number? order (.dispatch h rest)).map fun b => (p, b)
    loopHeaders := heads.map BlockId.mk }

/-- Partitions a body. It has to be valid, and its loops reducible. -/
def ofBody (b : Body) : Except Error BlockMap := do
  b.validate
  let t := b.partition
  let order := order t
  let edges := edgeTable t order
  let links := links edges
  let table := ((List.range edges.size).map (sources links)).toArray
  let preds (b : Nat) : List Nat := table[b]?.getD []
  let back := backEdges links
  let dominators := DominatorTable.compute edges.size preds
  match back.find? fun (a, b) => !dominators.dominates b a with
  | some (a, b) => throw (.notSupported (.irreducible ⟨a⟩ ⟨b⟩))
  | none => return assemble t order edges back preds

end BlockMap

end StackLift
