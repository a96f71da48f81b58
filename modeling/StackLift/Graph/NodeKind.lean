import StackLift.Code.Instruction

/-!
# Node kinds

Control nodes are linked by the graph's edges; data nodes float and are only named as inputs.

**Classes.** `NodeClass` is a kind without its payload. Which nodes take part in control is a
matter of the class alone.
-/
namespace StackLift

/-- Why compiled code is abandoned. -/
inductive DeoptReason where
  | unreached     -- the profile never saw control here
  | unresolved    -- a method or a type is not known
  | forced        -- every call is configured to end here
deriving DecidableEq, Repr, Inhabited

def DeoptReason.text : DeoptReason → String
  | .unreached => "Unreached"
  | .unresolved => "Unresolved"
  | .forced => "Forced"

inductive NodeClass where
  | begin
  | merge
  | loopHeader
  | endNode
  | loopEnd
  | loopExit
  | ifNode
  | switch
  | invoke
  | invokeWithException
  | exceptionObject
  | deoptimize
  | returnNode
  | unwind
  | monitorEnter
  | monitorExit
  | new
  | checkCast
  | parameter
  | constant
  | null
  | arithmetic
  | compare
  | instanceOf
  | pi
  | phi
  | proxy
deriving DecidableEq, Repr, Inhabited

namespace NodeClass

def text : NodeClass → String
  | .begin => "Begin"
  | .merge => "Merge"
  | .loopHeader => "LoopHeader"
  | .endNode => "End"
  | .loopEnd => "LoopEnd"
  | .loopExit => "LoopExit"
  | .ifNode => "If"
  | .switch => "Switch"
  | .invoke => "Invoke"
  | .invokeWithException => "InvokeWithException"
  | .exceptionObject => "ExceptionObject"
  | .deoptimize => "Deoptimize"
  | .returnNode => "Return"
  | .unwind => "Unwind"
  | .monitorEnter => "MonitorEnter"
  | .monitorExit => "MonitorExit"
  | .new => "New"
  | .checkCast => "CheckCast"
  | .parameter => "Parameter"
  | .constant => "Constant"
  | .null => "Null"
  | .arithmetic => "Arithmetic"
  | .compare => "Compare"
  | .instanceOf => "InstanceOf"
  | .pi => "Pi"
  | .phi => "Phi"
  | .proxy => "Proxy"

def isControl : NodeClass → Bool
  | .parameter | .constant | .null | .arithmetic | .compare | .instanceOf | .pi | .phi
  | .proxy => false
  | _ => true

end NodeClass

inductive NodeKind where
  | begin                                   -- a straight line of code with one predecessor
  | merge                                   -- a forward join; its phis follow predecessor order
  | loopHeader (loopIndex : Nat)            -- forward ends first, then loop ends
  | endNode                                 -- a forward edge into a merge or a loop header
  | loopEnd (header : NodeId)               -- a back edge into `header`
  | loopExit (header : NodeId)              -- control leaves the loop of `header`
  | ifNode                                  -- a non-zero input takes the true edge
  | switch (keys : List Int64)              -- keys are parallel to the case edges
  | invoke (kind : CallKind) (target : MethodId)
  | invokeWithException (kind : CallKind) (target : MethodId)
  | exceptionObject                         -- the exception in flight
  | deoptimize (reason : DeoptReason)
  | returnNode                              -- at most one input, the result
  | unwind                                  -- its input is the exception
  | monitorEnter
  | monitorExit
  | new (type : TypeId)
  | checkCast (type : TypeId)
  | parameter (index : Nat)
  | constant (value : Int64)
  | null
  | arithmetic (op : ArithOp)
  | compare (cond : Condition)              -- one if the condition holds of the inputs
  | instanceOf (type : TypeId)              -- one if the input is an instance
  | pi (type : TypeId)                      -- the input, narrowed where a test has passed
  | phi (merge : NodeId)                    -- one input per predecessor of `merge`
  | proxy (exit : NodeId)                   -- a loop's value, used after `exit`
deriving DecidableEq, Repr, Inhabited

namespace NodeKind

def toClass : NodeKind → NodeClass
  | .begin => .begin
  | .merge => .merge
  | .loopHeader _ => .loopHeader
  | .endNode => .endNode
  | .loopEnd _ => .loopEnd
  | .loopExit _ => .loopExit
  | .ifNode => .ifNode
  | .switch _ => .switch
  | .invoke .. => .invoke
  | .invokeWithException .. => .invokeWithException
  | .exceptionObject => .exceptionObject
  | .deoptimize _ => .deoptimize
  | .returnNode => .returnNode
  | .unwind => .unwind
  | .monitorEnter => .monitorEnter
  | .monitorExit => .monitorExit
  | .new _ => .new
  | .checkCast _ => .checkCast
  | .parameter _ => .parameter
  | .constant _ => .constant
  | .null => .null
  | .arithmetic _ => .arithmetic
  | .compare _ => .compare
  | .instanceOf _ => .instanceOf
  | .pi _ => .pi
  | .phi _ => .phi
  | .proxy _ => .proxy

def isControl (k : NodeKind) : Bool := k.toClass.isControl

/-- The node must carry a snapshot of the frame. -/
def isStateEffecting : NodeKind → Bool
  | .merge | .loopHeader _ | .loopExit _ | .invoke .. | .invokeWithException ..
  | .exceptionObject | .deoptimize _ | .monitorEnter | .monitorExit | .new _
  | .checkCast _ => true
  | _ => false

/-- The node may directly follow a control split. -/
def isBeginLike : NodeKind → Bool
  | .begin | .loopExit _ | .exceptionObject => true
  | _ => false

/-- The node has more than one control successor. -/
def isControlSplit : NodeKind → Bool
  | .ifNode | .switch _ | .invokeWithException .. => true
  | _ => false

def isMerge : NodeKind → Bool
  | .merge | .loopHeader _ => true
  | _ => false

def isTerminal : NodeKind → Bool
  | .returnNode | .unwind | .deoptimize _ => true
  | _ => false

/-- A value that is the same wherever it is used. -/
def isUniversal : NodeKind → Bool
  | .constant _ | .null | .parameter _ => true
  | _ => false

/-- A value that only carries other values from one place to another. -/
def isCarrier : NodeKind → Bool
  | .phi _ | .proxy _ => true
  | _ => false

def text : NodeKind → String
  | .loopHeader i => "LoopHeader#" ++ toString i
  | .loopEnd h => "LoopEnd(" ++ h.text ++ ")"
  | .loopExit h => "LoopExit(" ++ h.text ++ ")"
  | .switch ks => "Switch[" ++ ", ".intercalate (ks.map fun k => toString k.toInt) ++ "]"
  | .invoke k t => "Invoke[" ++ k.text ++ " " ++ t.text ++ "]"
  | .invokeWithException k t => "InvokeWithException[" ++ k.text ++ " " ++ t.text ++ "]"
  | .deoptimize r => "Deoptimize<" ++ r.text ++ ">"
  | .new t => "New[" ++ t.text ++ "]"
  | .checkCast t => "CheckCast[" ++ t.text ++ "]"
  | .instanceOf t => "InstanceOf[" ++ t.text ++ "]"
  | .pi t => "Pi[" ++ t.text ++ "]"
  | .parameter i => "Parameter(" ++ toString i ++ ")"
  | .constant v => "Constant(" ++ toString v.toInt ++ ")"
  | .arithmetic op => "Arithmetic[" ++ op.text ++ "]"
  | .compare c => "Compare[" ++ c.text ++ "]"
  | .phi m => "Phi(" ++ m.text ++ ")"
  | .proxy e => "Proxy(" ++ e.text ++ ")"
  | k => k.toClass.text

end NodeKind

end StackLift
