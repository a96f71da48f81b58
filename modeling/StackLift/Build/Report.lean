import StackLift.Error

/-!
# Build reports

What happened during a build beside the graph: how every call was lifted, which methods were
inlined, and which references had to be given up.
-/
namespace StackLift

/-- What proved that a call has a single target. -/
inductive Proof where
  | exactType        -- the receiver was allocated in the same unit
  | final            -- the method or its type cannot be overridden
  | classHierarchy   -- there is only one implementation
deriving DecidableEq, Repr, Inhabited

inductive Devirtualization where
  | notAttempted                                  -- the call was given up before
  | notNeeded                                     -- the call was direct
  | devirtualized (target : MethodId) (via : Proof)
  | notDevirtualizable
deriving DecidableEq, Repr, Inhabited

/-- How a call was lifted. -/
inductive Outcome where
  | pluginHandled (plugin : String)
  | inlined (callee : MethodId)
  | directCall (target : MethodId) (exceptionEdge : Bool)
  | indirectCall (target : MethodId) (exceptionEdge : Bool)
  | deoptimized (reason : DeoptReason)
deriving DecidableEq, Repr, Inhabited

structure CallSite where
  caller : MethodId
  position : Position
  depth : Nat                -- how deep the caller is inlined
  declared : MethodId        -- the method that the instruction names
  devirtualization : Devirtualization
  outcome : Outcome
deriving DecidableEq, Repr, Inhabited

inductive Reference where
  | method (id : MethodId)
  | type (id : TypeId)
deriving DecidableEq, Repr, Inhabited

def Reference.text : Reference → String
  | .method m => m.text
  | .type t => t.text

/-- A reference that was replaced by a deoptimization. -/
structure Unresolved where
  method : MethodId          -- the method that contains it
  position : Position
  reference : Reference
  why : Absence
deriving DecidableEq, Repr

def Unresolved.reason (u : Unresolved) : String := u.reference.text ++ " " ++ u.why.text

structure Inlining where
  method : MethodId
  caller : MethodId
  position : Position        -- of the call
  depth : Nat                -- of the inlined frame; the root has depth 0
deriving DecidableEq, Repr, Inhabited

structure Report where
  callSites : Array CallSite := #[]
  inlined : Array Inlining := #[]
  unresolved : Array Unresolved := #[]
  maxInlineDepth : Nat := 0
deriving DecidableEq, Repr, Inhabited

namespace Report

def callSite? (r : Report) (caller : MethodId) (p : Position) : Option CallSite :=
  r.callSites.find? fun c => c.caller = caller && c.position = p

def inlineCount (r : Report) (m : MethodId) : Nat := r.inlined.countP (·.method = m)

def addCallSite (r : Report) (c : CallSite) : Report :=
  { r with callSites := r.callSites.push c }

def addUnresolved (r : Report) (u : Unresolved) : Report :=
  { r with unresolved := r.unresolved.push u }

def addInlining (r : Report) (i : Inlining) : Report :=
  { r with
    inlined := r.inlined.push i
    maxInlineDepth := max r.maxInlineDepth i.depth }

end Report

end StackLift
