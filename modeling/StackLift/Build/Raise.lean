import StackLift.Build.Join

/-!
# Exceptions

An exception goes to the first test of its position, or out of the method. The frame it takes along
has nothing but the exception on the stack.

A test block asks whether the exception is an instance of the catch type: if so, control goes on in
the handler with the narrowed exception, else at the next test. A handler that catches everything
needs no test. A catch type that does not resolve ends the block, and a skipped one leaves a trap in
the place of its handler.
-/
namespace StackLift

namespace BuildM

/-- The probability of the exceptional successor of a call or a check. -/
def exceptionProbability : Float := 1e-3

/-- The probability that a test matches. -/
def matchProbability : Float := 0.5

/-- The exception at the start of an exceptional path out of `p`. -/
def exceptionObject (f : Frame) (p : Position) : BuildM NodeId := do
  let n ← addNode .exceptionObject []
  attachSnapshot n (f.raising (.object n)) p
  return n

/-- Sends an exception raised at `p` on its way from the control point `start`. -/
def dispatchException (block : BlockId) (start : NodeId) (f : Frame) (exception : Value)
    (p : Position) : BuildM Unit := do
  let target := (← read).exceptionTarget p
  let stub ← resolveTarget block target (f.raising exception) 1.0 p
  follow start stub

/-- The only value on the stack, which has to be an object. -/
def pendingException (f : Frame) (p : Position) : BuildM Value :=
  match f.stack with
  | [v] => if v.kind = .object then pure v else verify p (.dispatchStack 1)
  | stack => verify p (.dispatchStack stack.length)

/-- Tests the catch type of a handler at control point `node`. -/
def testHandler (block : BlockId) (node : NodeId) (f : Frame) (exception : Value)
    (type : TypeId) (skipped : Bool) (handlerBlock noMatch : BlockId) (p : Position) :
    BuildM Unit := do
  let test ← addNode (.instanceOf type) [exception.node]
  let split ← addNode .ifNode [test]
  follow node split
  let matched := if skipped then 0.0 else matchProbability
  if skipped then
    let trap ← addDeopt .unreached f p
    let stub ← beginStub trap
    addEdge split stub .taken matched
  else
    let narrowed ← addNode (.pi type) [exception.node]
    addBranch block split handlerBlock (f.raising (.object narrowed)) matched .taken p
  addBranch block split noMatch (f.raising exception) (1.0 - matched) .notTaken p

/-- Lifts the block that tests handler number `handler`. -/
def dispatchBlock (block : BlockId) (handler : Nat) (next : Option BlockId) : BuildM Unit := do
  let scope ← read
  let (node, f) ← openBlock block (.noDispatchState block)
  let info ← demand scope.body.handlers[handler]? (.missingHandler handler)
  let p := (scope.blocks.block block).start
  let exception ← pendingException f p
  snapshotMerge node f p
  let handlerBlock ← blockAt info.entry
  match info.catchType with
  | none =>
    let stub ← resolveTarget block handlerBlock f 1.0 p
    follow node stub
  | some type =>
    let noMatch ← demand next (.dispatchWithoutSuccessor handler)
    let skipped := decide (type ∈ scope.config.skippedExceptionTypes)
    match skipped, scope.env.hierarchy.lookupType type with
    | false, .error why =>
      recordUnresolved p (.type type) why
      let deopt ← addDeopt .unresolved f p
      follow node deopt
    | _, _ => testHandler block node f exception type skipped handlerBlock noMatch p

end BuildM

end StackLift
