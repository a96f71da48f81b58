import StackLift.Build.Raise

/-!
# Calls

A call goes through these stages: it is given up where all calls are, or where its method does not
resolve; its arguments are popped; a virtual call is bound to its only target, if one can be proved;
the plugins are asked; then it is inlined or becomes a call node.

**Inlining** parses the callee into the same graph. `Parser` is how: it follows a method from a
frame and a control point, and answers the ways out. How deep a call may still nest is a parser or
none: a call that is to be inlined where none is left fails the build.
-/
namespace StackLift

/-- Follows the method of the scope from its entry; the root method has no predecessor. -/
abbrev Parser := Frame → Option NodeId → BuildM Exits

namespace BuildM

def recordCall (p : Position) (declared : MethodId) (devirtualization : Devirtualization)
    (outcome : Outcome) : BuildM Unit := do
  let scope ← read
  changeReport (·.addCallSite
    { caller := scope.id, position := p, depth := scope.depth, declared, devirtualization, outcome })

/-! ## Targets -/

/-- The implementation that the receiver's exact type selects, if it was allocated here. -/
def exactTarget? (h : Hierarchy) (g : Graph) (m : MethodDecl) (args : List Value) :
    Option MethodId := do
  let receiver ← args.head?
  match g.kind? receiver.node with
  | some (.new type) => h.implementation? m.id type
  | _ => none

/-- The method cannot be overridden. -/
def isFinal (h : Hierarchy) (m : MethodDecl) : Bool :=
  m.isConcrete && (m.flags.final ||
    match h.lookupType m.holder with
    | .ok t => t.flags.final
    | .error _ => false)

/-- The only target of a virtual or interface call, and what proves it. -/
def devirtualize (h : Hierarchy) (g : Graph) (m : MethodDecl) (args : List Value) :
    Option (MethodDecl × Proof) := do
  let exact := (exactTarget? h g m args).map (·, Proof.exactType)
  let final := if isFinal h m then some (m.id, Proof.final) else none
  let unique := (h.uniqueImplementation? m.id).map (·, Proof.classHierarchy)
  let (target, via) ← exact.or (final.or unique)
  return (← h.resolved? target, via)

/-! ## Plugins -/

/-- Offers the call to one plugin, and checks what it leaves on the stack. -/
def tryPlugin (plugin : CallPlugin) (call : Call) (pt : Point) : BuildM (Bool × Point) := do
  let scope ← read
  if plugin.traced then
    consult (.call plugin.name call.kind call.target.id call.returns call.args.length pt.position)
  let before := pt.frame.depth
  let graph ← modifyGet fun w => (w.graph, { w with graph := {} })
  let site : Site := { method := scope.id, position := pt.position, callers := scope.callers }
  match (plugin.handle call).run site |>.run { graph, frame := pt.frame, last := pt.last } with
  | .error e _ => throw e
  | .ok claimed bench =>
    modify fun w => { w with graph := bench.graph }
    let pt := { pt with frame := bench.frame, last := bench.last }
    let expected := before + if call.returns = .void then 0 else 1
    if claimed && pt.last.isSome && pt.frame.depth ≠ expected then
      malformed (.pluginStack plugin.name pt.frame.depth call.target.id expected)
    return (claimed, pt)

/-- The first plugin that claims the call. -/
def tryPlugins (call : Call) : List CallPlugin → Point → BuildM (Option String × Point)
  | [], pt => return (none, pt)
  | plugin :: rest, pt => do
    if plugin.scope.accepts call.kind.isDirect then
      let (claimed, pt) ← tryPlugin plugin call pt
      if claimed then
        return (some plugin.name, pt)
      else
        tryPlugins call rest pt
    else
      tryPlugins call rest pt

/-- The first decision of a plugin. -/
def askInlining (callee : MethodDecl) : List InlinePlugin → BuildM InlineDecision
  | [] => return .noDecision
  | plugin :: rest => do
    let scope ← read
    consult (.inlining plugin.name scope.id callee.id scope.depth)
    match plugin.decide scope.method callee scope.depth with
    | .noDecision => askInlining callee rest
    | decision => return decision

/-! ## Inlining -/

/-- The policy where no plugin decides: small enough, nothing forbids it, and not too often in the
chain. -/
def fitsPolicy (scope : Scope) (callee : MethodDecl) : Bool :=
  let config := scope.config
  config.enableInlining &&
    !(callee.flags.neverInline || callee.flags.native || callee.flags.abstract) &&
    callee.codeSize?.any (· ≤ config.inlineSizeThreshold) &&
    scope.chain.count callee.id < config.maxRecursiveInlining

def shouldInline (call : Call) : BuildM Bool := do
  let scope ← read
  if call.kind.isDirect then
    match ← askInlining call.target scope.env.plugins.inlining with
    | .inline => return call.target.body.isSome
    | .doNotInline => return false
    | .noDecision => return fitsPolicy scope call.target
  else
    return false

/-- Goes on where an inlined method threw an exception that it did not catch. -/
def resumeUnwound (pt : Point) (callee : MethodId) (exit : Exit) : BuildM Unit := do
  let exception ← demand exit.frame.peek? (.unwoundWithoutException callee)
  snapshotMerge exit.node (pt.frame.raising exception) pt.position
  dispatchException pt.block exit.node pt.frame exception pt.position

/-- Goes on where an inlined method returned. -/
def resumeReturned (pt : Point) (call : Call) (exit : Exit) : BuildM Point := do
  let pt ← if call.returns = .void then pure pt
    else do
      let v ← demand exit.frame.peek? (.returnedWithoutValue call.target.id)
      pure (pt.push v)
  snapshotMerge exit.node pt.frame pt.position.next
  return { pt with last := some exit.node }

/-- Parses the callee into the graph and goes on at its exits. -/
def inlineCall (parse : Parser) (call : Call) (pt : Point) : BuildM Point := do
  let scope ← read
  let callee := call.target
  let p := pt.position
  let body ← demand callee.body (.inlinedWithoutBody callee.id)
  checkBudget p
  let f ← liftExcept (Frame.withArgs body.maxLocals call.args)
  let inner ← liftExcept (Scope.ofMethod scope.env scope.config callee body
    (scope.chain ++ [callee.id]) (some (scope.snapshot pt.frame p)) (scope.observes p))
  let (last, pt) ← pt.takeLast
  let exits ← inside inner (parse f (some last))
  changeReport (·.addInlining
    { method := callee.id, caller := scope.id, position := p, depth := inner.depth })
  if let some exit := exits.unwound then
    resumeUnwound pt callee.id exit
  match exits.returned with
  | some exit => resumeReturned pt call exit
  | none => return pt

/-! ## Call nodes -/

/-- Adds a call node, and says whether it got an exception edge: where a handler may see the
exception, unless the profile never saw one. -/
def callNode (call : Call) (pt : Point) : BuildM (Bool × Point) := do
  let scope ← read
  let p := pt.position
  let throws := scope.observes p &&
    (!scope.config.useProfileForExceptionEdges || scope.mayThrow p)
  let kind : NodeKind := if throws then .invokeWithException call.kind call.target.id
    else .invoke call.kind call.target.id
  let (n, pt) ← pt.append kind (call.args.map (·.node))
  let before := pt.frame
  let pt := if call.returns = .void then pt else pt.push ⟨n, call.returns⟩
  attachSnapshot n pt.frame p.next
  if throws then
    let normal ← addNode .begin []
    addEdge n normal .next (1.0 - exceptionProbability)
    let exception ← exceptionObject before p
    addEdge n exception .exception exceptionProbability
    dispatchException pt.block exception before (.object exception) p
    return (true, { pt with last := some normal })
  else
    return (false, pt)

/-! ## The whole call -/

/-- Pops the arguments, the last one first. -/
def popArgs (pt : Point) (kinds : List ValueKind) : BuildM (List Value × Point) :=
  kinds.reverse.foldlM
    (fun (args, pt) kind => do
      let (v, pt) ← pt.popKind kind
      return (v :: args, pt))
    ([], pt)

/-- Gives the call up. -/
def abandonCall (declared : MethodId) (reason : DeoptReason) (pt : Point) : BuildM Point := do
  let pt ← pt.deoptimize reason
  recordCall pt.position declared .notAttempted (.deoptimized reason)
  return pt

/-- Lifts a call whose target is as good as it can be known. -/
def lowerCall (nested : Option Parser) (call : Call) (pt : Point) : BuildM (Outcome × Point) := do
  let scope ← read
  let (claimed, pt) ← tryPlugins call scope.env.plugins.calls pt
  if let some plugin := claimed then
    return (.pluginHandled plugin, pt)
  if ← shouldInline call then
    match nested with
    | none => throw (.budgetExceeded pt.position (.tooDeepInlining scope.depth))
    | some parse => return (.inlined call.target.id, ← inlineCall parse call pt)
  let (throws, pt) ← callNode call pt
  let outcome := if call.kind.isDirect then Outcome.directCall else Outcome.indirectCall
  return (outcome call.target.id throws, pt)

/-- Lifts the call of `m`, which the instruction names. -/
def liftResolved (nested : Option Parser) (kind : CallKind) (m : MethodDecl) (pt : Point) :
    BuildM Point := do
  let scope ← read
  let (args, pt) ← popArgs pt m.argKinds
  let (kind, target, devirtualization) ←
    if kind.isDirect then
      pure (kind, m, Devirtualization.notNeeded)
    else
      match devirtualize scope.env.hierarchy (← get).graph m args with
      | some (target, via) => pure (.special, target, .devirtualized target.id via)
      | none => pure (kind, m, .notDevirtualizable)
  let call : Call := { kind, target, args, returns := target.returns }
  let (outcome, pt) ← lowerCall nested call pt
  recordCall pt.position m.id devirtualization outcome
  return pt

def invoke (nested : Option Parser) (kind : CallKind) (declared : MethodId) (pt : Point) :
    BuildM Point := do
  let scope ← read
  if scope.config.deoptAllInvokes then
    abandonCall declared .forced pt
  else
    match scope.env.hierarchy.lookupMethod declared with
    | .error why =>
      recordUnresolved pt.position (.method declared) why
      abandonCall declared .unresolved pt
    | .ok m =>
      if kind.hasReceiver = m.isStatic then
        verify pt.position (.callKind kind m.isStatic declared)
      liftResolved nested kind m pt

end BuildM

end StackLift
