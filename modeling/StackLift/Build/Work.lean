import StackLift.Build.Report
import StackLift.Config
import StackLift.Flow.Liveness
import StackLift.Plugin.Basic
import StackLift.Profile
import StackLift.Program.Hierarchy

/-!
# The state of a build

A build follows one root method and everything that is inlined into it. All of them share the graph
and the report. What belongs to one method is its `Scope`, which stays as it is, and its `Table`,
which says where its blocks stand in the graph.

`BuildM` reads a scope, changes the work, and may fail. What was asked of plugins up to a failure
is not lost.
-/
namespace StackLift

/-- What every build may look at. -/
structure Env where
  hierarchy : Hierarchy := {}
  profile : Profile := Profile.blank
  plugins : Plugins := {}

instance : Inhabited Env := ⟨{}⟩

/-- One method, the root or an inlined one. -/
structure Scope where
  env : Env
  config : Config
  method : MethodDecl
  body : Body
  blocks : BlockMap
  liveness : Option Liveness     -- none if dead locals are to be kept
  chain : List MethodId          -- from the root down to this method
  callers : Option Snapshot      -- the frames that the method is inlined into
  callerHandles : Bool           -- some caller may catch what this method throws

instance : Inhabited Scope :=
  ⟨⟨{}, {}, default, default, default, none, [], none, false⟩⟩

namespace Scope

/-- Analyses the body of a method. -/
def ofMethod (env : Env) (config : Config) (method : MethodDecl) (body : Body)
    (chain : List MethodId) (callers : Option Snapshot) (callerHandles : Bool) :
    Except Error Scope := do
  let blocks ← BlockMap.ofBody body
  let liveness := if config.livenessPruning then some (Liveness.compute body blocks) else none
  return { env, config, method, body, blocks, liveness, chain, callers, callerHandles }

def id (s : Scope) : MethodId := s.method.id

/-- The root has depth 0. -/
def depth (s : Scope) : Nat := s.chain.length - 1

def snapshot (s : Scope) (f : Frame) (p : Position) : Snapshot := f.snapshot s.id p s.callers

/-- A handler here or in a caller sees what is thrown at `p`. -/
def observes (s : Scope) (p : Position) : Bool :=
  s.callerHandles || (s.blocks.dispatchAt? p).isSome

/-- The block that an exception raised at `p` goes to first. -/
def exceptionTarget (s : Scope) (p : Position) : BlockId :=
  (s.blocks.dispatchAt? p).getD s.blocks.unwindBlock

def branchProbability (s : Scope) (p : Position) : Float :=
  s.env.profile.branchProbability s.id p

def switchProbabilities (s : Scope) (p : Position) (count : Nat) : List Float :=
  s.env.profile.switchProbabilities s.id p count

def mayThrow (s : Scope) (p : Position) : Bool := s.env.profile.mayThrow s.id p

/-- Drops the locals that are dead on entry to `b`. -/
def prune (s : Scope) (f : Frame) (b : BlockId) : Frame :=
  match s.liveness with
  | some l => f.keepLive (l.isLive b)
  | none => f

end Scope

/-- Where a block stands in the graph, and with which frame control arrives. -/
structure Entry where
  node : NodeId                  -- a begin, a merge or a loop header
  frame : Option Frame := none   -- none until the first edge arrives
  parsed : Bool := false
deriving DecidableEq, Repr, Inhabited

/-- A way out of a method. -/
structure Exit where
  node : NodeId
  frame : Frame
deriving DecidableEq, Repr, Inhabited

structure Exits where
  returned : Option Exit := none
  unwound : Option Exit := none
deriving DecidableEq, Repr, Inhabited

structure Table where
  entries : Array (Option Entry)        -- by block
  headers : Array NodeId := #[]         -- by loop
  marks : Array (Option Nat) := #[]     -- by loop: the handles in use when it was parsed
  exits : Exits := {}
deriving DecidableEq, Repr, Inhabited

def Table.blank (blocks : Nat) : Table := { entries := Array.replicate blocks none }

structure Work where
  graph : Graph := {}
  report : Report := {}
  consulted : Array Consultation := #[]
  table : Table := Table.blank 0
  parsed : List Body := []       -- the bodies that were entered, the last one first
deriving Inhabited

abbrev BuildM := ReaderT Scope (EStateM Error Work)

/-- The place that is being lifted: a block, an instruction of it, the frame before the
instruction, and the node that control stands at. -/
structure Point where
  block : BlockId
  position : Position
  frame : Frame
  last : Option NodeId           -- none once control has left the block
deriving DecidableEq, Repr, Inhabited

namespace BuildM

/-- The bodies that were entered up to the end of a run. -/
def parsedIn {α : Type} : EStateM.Result Error Work α → List Body
  | .ok _ w | .error _ w => w.parsed

def liftExcept {α : Type} : Except Error α → BuildM α
  | .ok a => pure a
  | .error e => throw e

def malformed {α : Type} (d : Defect) : BuildM α := throw (.malformed d)

def verify {α : Type} (p : Position) (f : Fault) : BuildM α := throw (.verification p f)

/-- The value of `o`, or the defect that there is none. -/
def demand {α : Type} (o : Option α) (d : Defect) : BuildM α :=
  match o with
  | some a => pure a
  | none => malformed d

/-! ## The graph -/

/-- Changes the graph. It is taken out meanwhile, so a failure leaves the work without one. -/
def changeGraph {α : Type} (f : Graph → Except Error (α × Graph)) : BuildM α := do
  let graph ← modifyGet fun w => (w.graph, { w with graph := {} })
  match f graph with
  | .ok (a, graph) =>
    modify fun w => { w with graph }
    return a
  | .error e => throw e

def addNode (kind : NodeKind) (inputs : List NodeId) : BuildM NodeId :=
  changeGraph fun g => .ok (g.addNode kind inputs)

def addEdge (source target : NodeId) (kind : EdgeKind) (probability : Float) : BuildM Unit :=
  changeGraph fun g => do
    let (_, g) ← g.addEdge source target kind probability
    return ((), g)

/-- The only way from `source` to `target`. -/
def follow (source target : NodeId) : BuildM Unit := addEdge source target .next 1.0

def addPhiInput (phi value : NodeId) : BuildM Unit :=
  changeGraph fun g => return ((), ← g.addPhiInput phi value)

def setSnapshot (n : NodeId) (s : Snapshot) : BuildM Unit :=
  changeGraph fun g => return ((), ← g.setSnapshot n s)

def attachSnapshot (n : NodeId) (f : Frame) (p : Position) : BuildM Unit := do
  setSnapshot n ((← read).snapshot f p)

def kindIs (n : NodeId) (p : NodeKind → Bool) : BuildM Bool := return (← get).graph.kindIs n p

/-- Captures the frame where control joins; nothing else at a block's entry needs it. -/
def snapshotMerge (n : NodeId) (f : Frame) (p : Position) : BuildM Unit := do
  if ← kindIs n NodeKind.isMerge then
    attachSnapshot n f p

def constant (value : Int64) : BuildM NodeId := addNode (.constant value) []

/-- A deoptimization that resumes with frame `f` at `p`. -/
def addDeopt (reason : DeoptReason) (f : Frame) (p : Position) : BuildM NodeId := do
  let n ← addNode (.deoptimize reason) []
  attachSnapshot n f p
  return n

/-- Only certain nodes may follow a control split; the others get a begin in front. -/
def beginStub (stub : NodeId) : BuildM NodeId := do
  if ← kindIs stub NodeKind.isBeginLike then
    return stub
  else
    let b ← addNode .begin []
    follow b stub
    return b

/-! ## The report -/

def changeReport (f : Report → Report) : BuildM Unit :=
  modify fun w => { w with report := f w.report }

def recordUnresolved (p : Position) (reference : Reference) (why : Absence) : BuildM Unit := do
  let method := (← read).id
  changeReport (·.addUnresolved { method, position := p, reference, why })

def consult (c : Consultation) : BuildM Unit :=
  modify fun w => { w with consulted := w.consulted.push c }

/-- Fails once there are too many nodes or no time is left. -/
def checkBudget (p : Position) : BuildM Unit := do
  let config := (← read).config
  if config.maxNodeCount < (← get).graph.live then
    throw (.budgetExceeded p (.nodeCount config.maxNodeCount))
  if config.isExpired then
    throw (.budgetExceeded p .deadline)

/-! ## The table -/

def changeTable (f : Table → Table) : BuildM Unit :=
  modify fun w => { w with table := f w.table }

def entry? (b : BlockId) : BuildM (Option Entry) :=
  return ((← get).table.entries[b.index]?).join

def entry (b : BlockId) : BuildM Entry := do demand (← entry? b) (.noEntry b)

def setEntry (b : BlockId) (e : Entry) : BuildM Unit :=
  changeTable fun t => { t with entries := t.entries.setIfInBounds b.index (some e) }

def blockAt (p : Position) : BuildM BlockId := do
  demand ((← read).blocks.blockAt? p) (.noBlockAt p)

/-- Starts on a block: it is parsed from now on. -/
def openBlock (b : BlockId) (missing : Defect) : BuildM (NodeId × Frame) := do
  let e ← entry b
  setEntry b { e with parsed := true }
  return (e.node, ← demand e.frame missing)

/-- Does `act` for an inlined method, with a table of its own. -/
def inside {α : Type} (inner : Scope) (act : BuildM α) : BuildM α := fun _ w =>
  match act inner { w with table := Table.blank inner.blocks.size } with
  | .ok a w' => .ok a { w' with table := w.table }
  | .error e w' => .error e w'

end BuildM

namespace Point

open BuildM

/-- Runs an operation on the frame. -/
def onFrame {α : Type} (pt : Point) (act : FrameM α) : BuildM (α × Point) :=
  match act.run pt.frame with
  | .ok a frame => pure (a, { pt with frame })
  | .error e _ => throw e

def pop (pt : Point) : BuildM (Value × Point) := pt.onFrame (Frame.pop pt.position)

def popKind (pt : Point) (kind : ValueKind) : BuildM (Value × Point) :=
  pt.onFrame (Frame.popKind pt.position kind)

def push (pt : Point) (v : Value) : Point := { pt with frame := pt.frame.push v }

/-- Leaves the control point for good. -/
def takeLast (pt : Point) : BuildM (NodeId × Point) := do
  let last ← demand pt.last (.noControlPoint pt.position (← read).id)
  return (last, { pt with last := none })

/-- Puts a node after the control point. -/
def append (pt : Point) (kind : NodeKind) (inputs : List NodeId) : BuildM (NodeId × Point) := do
  let (last, pt) ← pt.takeLast
  let n ← addNode kind inputs
  follow last n
  return (n, { pt with last := some n })

/-- Ends the block with a deoptimization that resumes before the instruction. -/
def deoptimize (pt : Point) (reason : DeoptReason) : BuildM Point := do
  let n ← addDeopt reason pt.frame pt.position
  let (last, pt) ← pt.takeLast
  follow last n
  return pt

end Point

end StackLift
