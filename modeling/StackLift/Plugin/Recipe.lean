import StackLift.Plugin.Basic

/-!
# Plugins as data

A recipe is a list of actions on the bench. Actions that make a node remember it, so that later
actions can use it. With a recipe, or with a list of rules, a plugin can be written down without
writing a function.
-/
namespace StackLift

/-- A node that an action works on. -/
inductive Operand where
  | arg (index : Nat)      -- an argument of the call
  | made (index : Nat)     -- what the recipe has made, counted from 0
  | node (id : NodeId)
deriving DecidableEq, Repr, Inhabited

inductive Action where
  | const (value : Int64)
  | value (kind : NodeKind) (inputs : List Operand)      -- a floating node
  | append (kind : NodeKind) (inputs : List Operand)     -- a node after the control point
  | deopt (reason : DeoptReason)
  | push (value : Operand) (kind : ValueKind)
  | position               -- a constant: the position of the call
  | depth                  -- a constant: the depth of the stack
  | allocated              -- a constant: the number of handles given out
  | receiver               -- the receiver, or the constant -1
  | fail (reason : String)
deriving DecidableEq, Repr, Inhabited

namespace Operand

def find? (call : Call) (made : Array NodeId) : Operand → Option NodeId
  | .arg i => call.args[i]?.map Value.node
  | .made i => made[i]?
  | .node n => some n

def resolve (call : Call) (made : Array NodeId) (o : Operand) : PluginM NodeId :=
  match o.find? call made with
  | some n => pure n
  | none => throw (Error.notSupported (.declined "the recipe names a value that does not exist"))

end Operand

namespace Action

/-- Does one action; answers the nodes made so far. -/
def run (call : Call) (made : Array NodeId) (a : Action) : PluginM (Array NodeId) := do
  match a with
  | .const v => return made.push (← PluginM.constant v)
  | .value kind inputs =>
    let inputs ← inputs.mapM (Operand.resolve call made)
    return made.push (← PluginM.addValue kind inputs)
  | .append kind inputs =>
    let inputs ← inputs.mapM (Operand.resolve call made)
    return made.push (← PluginM.append kind inputs)
  | .deopt reason => return made.push (← PluginM.deoptimize reason)
  | .push v kind =>
    PluginM.push ⟨← v.resolve call made, kind⟩
    return made
  | .position =>
    return made.push (← PluginM.constant (Int64.ofNat (← read).position.index))
  | .depth => return made.push (← PluginM.constant (Int64.ofNat (← get).frame.depth))
  | .allocated => return made.push (← PluginM.constant (Int64.ofNat (← get).graph.nodeCount))
  | .receiver =>
    match call.receiver? with
    | some v => return made.push v.node
    | none => return made.push (← PluginM.constant (-1))
  | .fail reason => throw (.notSupported (.declined reason))

end Action

abbrev Recipe := List Action

namespace Recipe

def run (r : Recipe) (call : Call) : PluginM Unit := do
  let _ ← r.foldlM (Action.run call) #[]

/-- A plugin that lifts calls by a recipe. It claims nothing unless `claim` says so, and only the
calls of `method` if one is given. -/
def plugin (name : String) (scope : PluginScope) (claim : Bool) (method : Option MethodId)
    (r : Recipe) : CallPlugin where
  name
  scope
  handle call := do
    if claim && method.all (· = call.target.id) then
      r.run call
      return true
    else
      return false

/-- An intrinsic for `method` that lifts calls by a recipe. -/
def intrinsic (name : String) (scope : PluginScope) (method : MethodId) (r : Recipe) :
    CallPlugin :=
  CallPlugin.intrinsic name method scope r.run

end Recipe

/-- A rule that decides on the calls that fit everything it names; the bounds are inclusive. -/
structure InlineRule where
  caller : Option MethodId := none
  callee : Option MethodId := none
  minDepth : Option Nat := none
  maxDepth : Option Nat := none
  decision : InlineDecision
deriving DecidableEq, Repr, Inhabited

namespace InlineRule

def applies (r : InlineRule) (caller callee : MethodId) (depth : Nat) : Bool :=
  r.caller.all (· = caller) && r.callee.all (· = callee) && r.minDepth.all (· ≤ depth) &&
    r.maxDepth.all (depth ≤ ·)

/-- The first rule that applies decides. -/
def plugin (name : String) (rules : List InlineRule) : InlinePlugin where
  name
  decide caller callee depth :=
    match rules.find? (·.applies caller.id callee.id depth) with
    | some r => r.decision
    | none => .noDecision

end InlineRule

end StackLift
