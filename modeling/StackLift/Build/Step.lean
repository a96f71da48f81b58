import StackLift.Build.Call

/-!
# Instructions

The effect of each instruction on the frame and on the graph. After an instruction that ends its
block, the point has no control left.
-/
namespace StackLift

namespace BuildM

def unary (op : ArithOp) (pt : Point) : BuildM Point := do
  let (a, pt) ← pt.popKind .int
  let n ← addNode (.arithmetic op) [a.node]
  return pt.push (.int n)

/-- Splits on a zero divisor; the zero side raises. -/
def zeroCheck (divisor : Value) (pt : Point) : BuildM Point := do
  let zero ← constant 0
  let compare ← addNode (.compare .eq) [divisor.node, zero]
  let (split, pt) ← pt.append .ifNode [compare]
  let exception ← exceptionObject pt.frame pt.position
  addEdge split exception .taken exceptionProbability
  dispatchException pt.block exception pt.frame (.object exception) pt.position
  let proceed ← addNode .begin []
  addEdge split proceed .notTaken (1.0 - exceptionProbability)
  return { pt with last := some proceed }

/-- A division is checked where its exception is seen and has happened. -/
def needsZeroCheck (scope : Scope) (op : ArithOp) (p : Position) : Bool :=
  op.canThrow && scope.observes p && scope.mayThrow p

def binary (op : ArithOp) (pt : Point) : BuildM Point := do
  let (b, pt) ← pt.popKind .int
  let (a, pt) ← pt.popKind .int
  let pt ← if needsZeroCheck (← read) op pt.position then zeroCheck b pt else pure pt
  let n ← addNode (.arithmetic op) [a.node, b.node]
  return pt.push (.int n)

/-- Splits on `condition`; the target is the successor where it holds. -/
def branch (condition : NodeId) (target : Position) (pt : Point) : BuildM Point := do
  let p := pt.position
  let taken := (← read).branchProbability p
  let (split, pt) ← pt.append .ifNode [condition]
  let target ← blockAt target
  let fallThrough ← blockAt p.next
  addBranch pt.block split target pt.frame taken .taken p
  addBranch pt.block split fallThrough pt.frame (1.0 - taken) .notTaken p
  return { pt with last := none }

def nullBranch (cond : Condition) (target : Position) (pt : Point) : BuildM Point := do
  let (object, pt) ← pt.popKind .object
  let null ← addNode .null []
  let compare ← addNode (.compare cond) [object.node, null]
  branch compare target pt

/-- The kinds of the edges of a switch with `count` cases. -/
def caseKinds (count : Nat) : List EdgeKind := (List.range count).map .case ++ [.default]

def switch (keys : List Int64) (targets : List Position) (default : Position) (pt : Point) :
    BuildM Point := do
  let p := pt.position
  let (key, pt) ← pt.popKind .int
  let probabilities := (← read).switchProbabilities p (targets.length + 1)
  let (split, pt) ← pt.append (.switch keys) [key.node]
  for ((target, probability), kind) in
      ((targets ++ [default]).zip probabilities).zip (caseKinds targets.length) do
    let target ← blockAt target
    addBranch pt.block split target pt.frame probability kind p
  return { pt with last := none }

/-- Does `act` if the type resolves; else ends the block with a deoptimization. -/
def withType (type : TypeId) (pt : Point) (act : BuildM Point) : BuildM Point := do
  match (← read).env.hierarchy.lookupType type with
  | .ok _ => act
  | .error why =>
    recordUnresolved pt.position (.type type) why
    pt.deoptimize .unresolved

/-- Returns; the exits of the loops around the block come before the way out. -/
def emitReturn (value : Option Value) (pt : Point) : BuildM Point := do
  let scope ← read
  let p := pt.position
  let declared := scope.method.returns
  match value with
  | none => if declared ≠ .void then verify p (.missingReturnValue declared)
  | some v => if v.kind ≠ declared then verify p (.wrongReturnKind v.kind declared)
  if pt.frame.monitorDepth ≠ 0 then
    verify p (.monitorsHeldAtReturn pt.frame.monitorDepth)
  let f := match value with
    | some v => pt.frame.push v
    | none => pt.frame
  let exitBlock := scope.blocks.exitBlock
  let (f, exits) ← exitLoops pt.block exitBlock f p
  let results ← match value with
    | some _ =>
      match (Frame.pop p).run f with
      | .ok v _ => pure [v]
      | .error e _ => throw e
    | none => pure []
  let stub ← if scope.depth = 0 then addNode .returnNode (results.map (·.node))
    else createTarget pt.block exitBlock { stack := results } p
  let head ← prependExits exits stub
  let (last, pt) ← pt.takeLast
  follow last head
  return pt

/-- Lifts one instruction. -/
def step (nested : Option Parser) (i : Instruction Position) (pt : Point) : BuildM Point := do
  let p := pt.position
  match i with
  | .nop => return pt
  | .const v => return pt.push (.int (← constant v))
  | .constNull => return pt.push (.object (← addNode .null []))
  | .load slot =>
    let (v, pt) ← pt.onFrame (Frame.loadLocal p slot)
    return pt.push v
  | .store slot =>
    let (v, pt) ← pt.pop
    let (_, pt) ← pt.onFrame (Frame.storeLocal p slot v)
    return pt
  | .pop =>
    let (_, pt) ← pt.pop
    return pt
  | .dup =>
    match pt.frame.peek? with
    | some v => return pt.push v
    | none => verify p .stackUnderflow
  | .swap =>
    let (b, pt) ← pt.pop
    let (a, pt) ← pt.pop
    return (pt.push b).push a
  | .arith op => if op.isUnary then unary op pt else binary op pt
  | .ifCompare cond target =>
    let (b, pt) ← pt.popKind .int
    let (a, pt) ← pt.popKind .int
    let compare ← addNode (.compare cond) [a.node, b.node]
    branch compare target pt
  | .ifZero cond target =>
    let (a, pt) ← pt.popKind .int
    let zero ← constant 0
    let compare ← addNode (.compare cond) [a.node, zero]
    branch compare target pt
  | .ifNull target => nullBranch .eq target pt
  | .ifNonNull target => nullBranch .ne target pt
  | .goto target => pt.jump (← blockAt target)
  | .switch keys targets default => switch keys targets default pt
  | .invoke kind method => invoke nested kind method pt
  | .new type => withType type pt do
    let before := pt.frame
    let (n, pt) ← pt.append (.new type) []
    attachSnapshot n before p
    return pt.push (.object n)
  | .checkCast type => withType type pt do
    let before := pt.frame
    let (object, pt) ← pt.popKind .object
    let (n, pt) ← pt.append (.checkCast type) [object.node]
    attachSnapshot n before p
    return pt.push (.object n)
  | .instanceOf type => withType type pt do
    let (object, pt) ← pt.popKind .object
    let n ← addNode (.instanceOf type) [object.node]
    return pt.push (.int n)
  | .throw =>
    let (exception, pt) ← pt.popKind .object
    let (last, pt) ← pt.takeLast
    dispatchException pt.block last pt.frame exception p
    return pt
  | .ret => emitReturn none pt
  | .retValue =>
    let (v, pt) ← pt.pop
    emitReturn (some v) pt
  | .monitorEnter =>
    let (object, pt) ← pt.popKind .object
    let (n, pt) ← pt.append .monitorEnter [object.node]
    let pt := { pt with frame := pt.frame.enterMonitor object }
    attachSnapshot n pt.frame p.next
    return pt
  | .monitorExit =>
    let (object, pt) ← pt.popKind .object
    let (_, pt) ← pt.onFrame (Frame.exitMonitor p)
    let (n, pt) ← pt.append .monitorExit [object.node]
    attachSnapshot n pt.frame p.next
    return pt

end BuildM

end StackLift
