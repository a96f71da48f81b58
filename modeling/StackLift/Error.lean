import StackLift.Code.Handler
import StackLift.Graph.NodeKind

/-!
# Errors

Every way in which assembling, analysing or lifting a method can fail. A `Fault` is a
contradiction in the code found while its effect on the frame is followed. A `Defect` is a body,
a graph or a table that is not well formed. `message` is the only place with wording.
-/
namespace StackLift

/-- The budget that ran out. -/
inductive Budget where
  | tooDeepInlining (depth : Nat)
  | nodeCount (limit : Nat)
  | deadline
deriving DecidableEq, Repr

def Budget.text : Budget → String
  | .tooDeepInlining d => "too deep inlining (depth " ++ toString d ++ ")"
  | .nodeCount n => "node count exceeds " ++ toString n
  | .deadline => "deadline exceeded"

/-- Why the code cannot be verified. -/
inductive Fault where
  | argumentsDoNotFit (count locals : Nat)
  | stackUnderflow
  | kindMismatch (expected found : ValueKind)
  | localUndefined (slot : Nat)
  | localOutOfRange (slot : Nat)
  | monitorNotHeld
  | mergeDepth (here arriving : Nat)
  | mergeKind (slot : Nat) (here arriving : ValueKind)
  | mergeMonitors (here arriving : Nat)
  | missingReturnValue (declared : ValueKind)
  | wrongReturnKind (found declared : ValueKind)
  | monitorsHeldAtReturn (count : Nat)
  | callKind (kind : CallKind) (calleeIsStatic : Bool) (method : MethodId)
  | dispatchStack (count : Nat)
  | unwindWithoutException
  | lostLocalUsed (header : BlockId) (user : NodeId)
  | lostLocalOnStack (header : BlockId)
  | noStart
  | startWithoutSnapshot (start : NodeId)
  | missingSnapshot (kind : NodeKind) (node : NodeId)
  | phiWithoutMerge (phi merge : NodeId)
  | phiArity (phi : NodeId) (inputs : Nat) (merge : NodeId) (predecessors : Nat)
  | proxyWithoutExit (proxy exit : NodeId)
  | unreachable (kind : NodeKind) (node : NodeId)
deriving DecidableEq, Repr

namespace Fault

private def lostLocal (header : BlockId) : String :=
  "a local undefined on the back edge into loop header " ++ header.text

def text : Fault → String
  | .argumentsDoNotFit n l => s!"{n} arguments do not fit in {l} locals"
  | .stackUnderflow => "operand stack underflow"
  | .kindMismatch e f => s!"expected {e.text} on the stack, found {f.text}"
  | .localUndefined s => s!"local {s} is undefined"
  | .localOutOfRange s => s!"local {s} out of range"
  | .monitorNotHeld => "monitor exit without matching enter"
  | .mergeDepth h a => s!"stack depth mismatch at merge: {h} vs {a}"
  | .mergeKind s h a => s!"stack slot {s} kind mismatch at merge: {h.text} vs {a.text}"
  | .mergeMonitors h a => s!"monitor depth mismatch at merge: {h} vs {a}"
  | .missingReturnValue d => s!"missing {d.text} return value"
  | .wrongReturnKind f d => s!"returning {f.text} from a method declared {d.text}"
  | .monitorsHeldAtReturn n => s!"returning with {n} monitors held"
  | .callKind k s m =>
    k.text ++ " call to " ++ (if s then "static" else "instance") ++ " method " ++ m.text
  | .dispatchStack n =>
    s!"exception dispatch expects a single object on the stack, found {n} values"
  | .unwindWithoutException => "unwinding without an exception"
  | .lostLocalUsed h u => lostLocal h ++ " is used by " ++ u.text
  | .lostLocalOnStack h => lostLocal h ++ " is still on the stack"
  | .noStart => "graph has no start node"
  | .startWithoutSnapshot s => s!"start node {s.text} has no frame snapshot"
  | .missingSnapshot k n => s!"{k.text} {n.text} has no frame snapshot"
  | .phiWithoutMerge p m => s!"phi {p.text} is attached to {m.text} which is not a merge"
  | .phiArity p i m n =>
    s!"phi {p.text} has {i} inputs but {m.text} has {n} predecessors"
  | .proxyWithoutExit p e => s!"proxy {p.text} refers to {e.text} which is not a loop exit"
  | .unreachable k n => s!"control node {k.text} {n.text} is unreachable"

end Fault

/-- What is not well formed. -/
inductive Defect where
  | emptyBody
  | branchOutside (position target : Position) (size : Nat)
  | localOutside (position : Position) (slot locals : Nat)
  | switchArity (position : Position) (keys targets : Nat)
  | fallsOffEnd
  | handlerRange (handler : Handler)
  | duplicateLabel (name : String)
  | fixupOnNonBranch (found : Option (Instruction Position))
  | missingNode (node : NodeId)
  | notPhi (node : NodeId)
  | missingEdgeSource (node : NodeId)
  | missingEdgeTarget (node : NodeId)
  | missingEdge (edge : EdgeId)
  | noControlPoint (position : Position) (method : MethodId)
  | noBlockAt (position : Position)
  | blockFallsOffEnd (block : BlockId)
  | noEntry (block : BlockId)
  | noEntryState (block : BlockId)
  | noDispatchState (block : BlockId)
  | alreadyParsed (source target : BlockId)
  | headerMissing (block : BlockId)
  | headerAlreadyParsed (block : BlockId)
  | headerNotParsed (block : BlockId)
  | headerWithoutState (block : BlockId)
  | loopWithoutBlock (loopIndex : Nat)
  | loopWithoutNode (loopIndex : Nat)
  | missingHandler (handler : Nat)
  | dispatchWithoutSuccessor (handler : Nat)
  | inlinedWithoutBody (method : MethodId)
  | unwoundWithoutException (method : MethodId)
  | returnedWithoutValue (method : MethodId)
  | pluginStack (plugin : String) (left : Nat) (target : MethodId) (expected : Nat)
  | pluginAfterEnd
deriving DecidableEq, Repr

namespace Defect

def text : Defect → String
  | .emptyBody => "Method body has no instructions"
  | .branchOutside p t n =>
    s!"Instruction {p.text} branches to {t.text} outside of the body ({n} instructions)"
  | .localOutside p s n => s!"Instruction {p.text} accesses local {s} but max_locals is {n}"
  | .switchArity p k t => s!"Switch {p.text} has {k} keys but {t} targets"
  | .fallsOffEnd => "Execution can fall off the end of the body"
  | .handlerRange h => s!"Exception handler {h.tagged} has an invalid range"
  | .duplicateLabel l => "Label '" ++ l ++ "' defined more than once"
  | .fixupOnNonBranch i =>
    "Label fixup on non-branch instruction " ++ ((i.map Instruction.mnemonic).getD "")
  | .missingNode n => s!"Node {n.text} does not exist"
  | .notPhi n => s!"Node {n.text} is not a phi"
  | .missingEdgeSource n => s!"Edge source {n.text} does not exist"
  | .missingEdgeTarget n => s!"Edge target {n.text} does not exist"
  | .missingEdge e => s!"Edge {e.tagged} does not exist"
  | .noControlPoint p m => s!"No control point at {p.text} in {m.text}"
  | .noBlockAt p => s!"No block starts at {p.text}"
  | .blockFallsOffEnd b => s!"Block {b.text} falls through past the end of the method"
  | .noEntry b => s!"Block {b.text} has no entry"
  | .noEntryState b => s!"Block {b.text} has no entry state"
  | .noDispatchState b => s!"Dispatch block {b.text} has no entry state"
  | .alreadyParsed s t =>
    s!"Forward edge {s.text} -> {t.text} reaches a block that was already parsed"
  | .headerMissing b => s!"Loop header {b.text} was not created"
  | .headerAlreadyParsed b => s!"Forward edge into loop header {b.text} after it was parsed"
  | .headerNotParsed b => s!"Back edge into loop header {b.text} before it was parsed"
  | .headerWithoutState b => s!"Loop header {b.text} has no state"
  | .loopWithoutBlock i => s!"Loop {i} has no header block"
  | .loopWithoutNode i => s!"Loop {i} has no header node"
  | .missingHandler h => s!"Handler {h} does not exist"
  | .dispatchWithoutSuccessor h => s!"Typed handler {h} has no dispatch successor"
  | .inlinedWithoutBody m => s!"Inlined method {m.text} has no body"
  | .unwoundWithoutException m => s!"Unwind exit of {m.text} has no exception"
  | .returnedWithoutValue m => s!"Return exit of {m.text} has no value"
  | .pluginStack p l t e =>
    "Plugin '" ++ p ++ s!"' left {l} values on the stack for {t.text} (expected {e})"
  | .pluginAfterEnd => "Plugin appended a node after control flow ended"

end Defect

/-- Why a lookup in the program finds nothing. -/
inductive Absence where
  | marked       -- the program says that it cannot be resolved
  | notLoaded
deriving DecidableEq, Repr

def Absence.text : Absence → String
  | .marked => "is marked unresolved"
  | .notLoaded => "is not loaded"

/-- Why there is nothing to lift. -/
inductive RootFault where
  | absent (method : MethodId) (why : Absence)
  | noBody (method : MethodId)
deriving DecidableEq, Repr

def RootFault.text : RootFault → String
  | .absent m w => m.text ++ " " ++ w.text
  | .noBody m => m.text ++ " has no body"

/-- What is deliberately not handled. -/
inductive Unsupported where
  | irreducible (source target : BlockId)   -- the edge enters a loop beside its header
  | declined (reason : String)              -- a plugin gives up
deriving DecidableEq, Repr

def Unsupported.text : Unsupported → String
  | .irreducible s t =>
    s!"irreducible control flow: edge {s.text} -> {t.text} enters a loop not through its header"
  | .declined r => r

inductive Error where
  | verification (position : Position) (fault : Fault)
  | budgetExceeded (position : Position) (budget : Budget)
  | malformed (defect : Defect)
  | undefinedLabel (name : String)
  | notSupported (what : Unsupported)
  | unresolvedRoot (why : RootFault)
deriving DecidableEq, Repr

namespace Error

def message : Error → String
  | .verification p f => s!"Verification failed at {p.text}: {f.text}"
  | .budgetExceeded p b => s!"Budget exceeded at {p.text}: {b.text}"
  | .malformed d => d.text
  | .undefinedLabel l => s!"Undefined label - {l}"
  | .notSupported u => s!"Not supported - {u.text}"
  | .unresolvedRoot w => s!"Unresolved compilation root - {w.text}"

/-- The instruction that was being handled, where there is one. -/
def position? : Error → Option Position
  | .verification p _ | .budgetExceeded p _ => some p
  | _ => none

def isVerification : Error → Bool
  | .verification .. => true
  | _ => false

/-- Another attempt with a larger budget may succeed. -/
def isBudgetExceeded : Error → Bool
  | .budgetExceeded .. => true
  | _ => false

def isTooDeepInlining : Error → Bool
  | .budgetExceeded _ (.tooDeepInlining _) => true
  | _ => false

end Error

end StackLift
