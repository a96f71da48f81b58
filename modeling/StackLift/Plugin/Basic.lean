import StackLift.Graph.Basic
import StackLift.Program.Decl

/-!
# Plugins

Plugins are asked at every call, in the order in which they are registered. The first call plugin
that claims a call lifts it in its own way. Inline plugins can overrule the inlining policy.

A call plugin works on a `Bench`: the graph, the frame from which the arguments have already been
popped, and the point where control stands. Where control goes on after a claimed call, exactly the
result of the callee, if it has one, has to be pushed.
-/
namespace StackLift

/-- A call whose arguments are popped and whose target is as good as it can be known. -/
structure Call where
  kind : CallKind
  target : MethodDecl
  args : List Value         -- a receiver comes first
  returns : ValueKind
deriving DecidableEq, Repr, Inhabited

def Call.receiver? (c : Call) : Option Value := if c.kind.hasReceiver then c.args.head? else none

/-- Where a call is. -/
structure Site where
  method : MethodId
  position : Position
  callers : Option Snapshot
deriving DecidableEq, Repr, Inhabited

structure Bench where
  graph : Graph
  frame : Frame
  last : Option NodeId      -- none once control has ended
deriving Repr, Inhabited

abbrev PluginM := ReaderT Site (EStateM Error Bench)

namespace PluginM

def addValue (kind : NodeKind) (inputs : List NodeId) : PluginM NodeId :=
  modifyGet fun b =>
    let (n, graph) := b.graph.addNode kind inputs
    (n, { b with graph })

def constant (value : Int64) : PluginM NodeId := addValue (.constant value) []

def push (v : Value) : PluginM Unit := modify fun b => { b with frame := b.frame.push v }

def liftGraph {α : Type} (f : Graph → Except Error (α × Graph)) : PluginM α := do
  match f (← get).graph with
  | .ok (a, graph) =>
    modify fun b => { b with graph }
    return a
  | .error e => throw e

/-- Puts a node after the control point. A node that needs a snapshot gets one of the frame as it
is. -/
def append (kind : NodeKind) (inputs : List NodeId) : PluginM NodeId := do
  let some last := (← get).last | throw (.malformed .pluginAfterEnd)
  let n ← addValue kind inputs
  let _ ← liftGraph fun g => g.addEdge last n .next 1.0
  if kind.isStateEffecting then
    let site ← read
    let s := (← get).frame.snapshot site.method site.position site.callers
    liftGraph fun g => return ((), ← g.setSnapshot n s)
  modify fun b => { b with last := some n }
  return n

/-- Ends control with a deoptimization. -/
def deoptimize (reason : DeoptReason) : PluginM NodeId := do
  let n ← append (.deoptimize reason) []
  modify fun b => { b with last := none }
  return n

end PluginM

/-- Which calls a plugin is offered. -/
inductive PluginScope where
  | direct      -- after devirtualization
  | indirect
  | any
deriving DecidableEq, Repr, Inhabited

namespace PluginScope

def accepts : PluginScope → (isDirect : Bool) → Bool
  | .direct, d => d
  | .indirect, d => !d
  | .any, _ => true

def text : PluginScope → String
  | .direct => "Direct"
  | .indirect => "Indirect"
  | .any => "Any"

end PluginScope

structure CallPlugin where
  name : String
  scope : PluginScope := .any
  traced : Bool := true                 -- a question to the plugin is written down
  /-- Claims the call, or answers `false` and leaves the bench alone. -/
  handle : Call → PluginM Bool

/-- A plugin for the calls of one method, which goes about its work unseen. -/
def CallPlugin.intrinsic (name : String) (method : MethodId) (scope : PluginScope)
    (work : Call → PluginM Unit) : CallPlugin where
  name
  scope
  traced := false
  handle call := do
    if call.target.id = method then
      work call
      return true
    else
      return false

inductive InlineDecision where
  | inline
  | doNotInline
  | noDecision       -- the next plugin decides, or the policy
deriving DecidableEq, Repr, Inhabited

structure InlinePlugin where
  name : String
  decide : (caller callee : MethodDecl) → (depth : Nat) → InlineDecision

structure Plugins where
  calls : List CallPlugin := []
  inlining : List InlinePlugin := []

instance : Inhabited Plugins := ⟨{}⟩

/-- A question that was put to a plugin. -/
inductive Consultation where
  | call (plugin : String) (kind : CallKind) (target : MethodId) (returns : ValueKind)
      (argCount : Nat) (position : Position)
  | inlining (plugin : String) (caller callee : MethodId) (depth : Nat)
deriving DecidableEq, Repr, Inhabited

end StackLift
