import StackLift.Error

/-!
# Frames

The state of one method activation while its code is followed symbolically: what every local, every
stack slot and every held monitor holds, as the node that computes it together with its kind.

**Order.** The stack has its top first, the monitors the innermost first. `values` lists everything
in the order in which a frame is walked: the locals by slot, then the stack from the bottom, then
the monitors from the outermost.

**Failure.** An operation that may fail is a `FrameM`. The frame that it leaves behind is part of
its answer: a value of the wrong kind has been popped all the same.
-/
namespace StackLift

structure Value where
  node : NodeId
  kind : ValueKind
deriving DecidableEq, Repr, Inhabited

namespace Value

def int (node : NodeId) : Value := ⟨node, .int⟩

def object (node : NodeId) : Value := ⟨node, .object⟩

end Value

structure Frame where
  locals : List (Option Value) := []
  stack : List Value := []          -- top first
  monitors : List Value := []       -- innermost first
deriving DecidableEq, Repr, Inhabited

abbrev FrameM := EStateM Error Frame

namespace Frame

/-! ## Construction -/

/-- A frame whose locals are all undefined. -/
def blank (maxLocals : Nat) : Frame := { locals := List.replicate maxLocals none }

/-- The frame at the entry of a method: the arguments are in the first slots. -/
def withArgs (maxLocals : Nat) (args : List Value) : Except Error Frame :=
  if maxLocals < args.length then
    .error (.verification ⟨0⟩ (.argumentsDoNotFit args.length maxLocals))
  else
    .ok { locals := args.map some ++ List.replicate (maxLocals - args.length) none }

/-! ## The stack -/

def push (f : Frame) (v : Value) : Frame := { f with stack := v :: f.stack }

def peek? (f : Frame) : Option Value := f.stack.head?

def depth (f : Frame) : Nat := f.stack.length

def clearStack (f : Frame) : Frame := { f with stack := [] }

/-- The frame in which a handler starts: nothing but the exception is on the stack. -/
def raising (f : Frame) (exception : Value) : Frame := f.clearStack.push exception

def pop (p : Position) : FrameM Value := do
  match (← get).stack with
  | v :: rest =>
    modify fun f => { f with stack := rest }
    return v
  | [] => throw (.verification p .stackUnderflow)

def popKind (p : Position) (kind : ValueKind) : FrameM Value := do
  let v ← pop p
  if v.kind = kind then
    return v
  else
    throw (.verification p (.kindMismatch kind v.kind))

/-! ## The locals -/

/-- The value of a local; none if the slot is undefined or does not exist. -/
def local? (f : Frame) (slot : Nat) : Option Value := f.locals[slot]?.join

def clearLocals (f : Frame) : Frame := { f with locals := f.locals.map fun _ => none }

def loadLocal (p : Position) (slot : Nat) : FrameM Value := do
  match (← get).local? slot with
  | some v => return v
  | none => throw (.verification p (.localUndefined slot))

def storeLocal (p : Position) (slot : Nat) (v : Value) : FrameM Unit := do
  if slot < (← get).locals.length then
    modify fun f => { f with locals := f.locals.set slot (some v) }
  else
    throw (.verification p (.localOutOfRange slot))

/-- The locals of `f`, each beside what `g` holds in the same slot. -/
def pairLocals (f g : Frame) : List (Option Value × Option Value) :=
  f.locals.zip (g.locals ++ List.replicate (f.locals.length - g.locals.length) none)

/-- Drops the locals that are not live. -/
def keepLive (f : Frame) (live : Nat → Bool) : Frame :=
  { f with locals := f.locals.zipIdx.map fun (v, slot) => if live slot then v else none }

/-! ## The monitors -/

def monitorDepth (f : Frame) : Nat := f.monitors.length

def enterMonitor (f : Frame) (object : Value) : Frame :=
  { f with monitors := object :: f.monitors }

/-- Releases the innermost monitor. -/
def exitMonitor (p : Position) : FrameM Value := do
  match (← get).monitors with
  | v :: rest =>
    modify fun f => { f with monitors := rest }
    return v
  | [] => throw (.verification p .monitorNotHeld)

/-! ## All values -/

/-- What cannot be dropped: the stack from the bottom, then the monitors from the outermost. -/
def pinned (f : Frame) : List Value := f.stack.reverse ++ f.monitors.reverse

def values (f : Frame) : List Value := f.locals.filterMap id ++ f.pinned

/-- Replaces every value, in the order of `values`. -/
def mapValuesM {m : Type → Type} [Monad m] (g : Value → m Value) (f : Frame) : m Frame := do
  let locals ← f.locals.mapM fun
    | some v => return some (← g v)
    | none => return none
  let stack ← f.stack.reverse.mapM g
  let monitors ← f.monitors.reverse.mapM g
  return { locals, stack := stack.reverse, monitors := monitors.reverse }

/-- Drops every local that holds one of `dead`; none if something pinned holds one. -/
def withoutLocals? (f : Frame) (dead : List NodeId) : Option Frame :=
  if f.pinned.any (·.node ∈ dead) then none
  else some { f with locals := f.locals.map fun v => v.filter (·.node ∉ dead) }

/-! ## Joins -/

/-- Both frames may reach the same block: their stacks have the same depth and kinds, and their
monitors the same depth. -/
def isCompatible (f g : Frame) : Bool :=
  f.stack.map (·.kind) == g.stack.map (·.kind) && f.monitorDepth == g.monitorDepth

/-- The lowest stack slot whose kinds differ. -/
def kindClash? (f g : Frame) : Option Fault :=
  (f.stack.reverse.zip g.stack.reverse).zipIdx.findSome? fun ((a, b), slot) =>
    if a.kind = b.kind then none else some (.mergeKind slot a.kind b.kind)

/-- Why `g` may not arrive where `f` has arrived before. -/
def clash? (f g : Frame) : Option Fault :=
  if f.depth ≠ g.depth then some (.mergeDepth f.depth g.depth)
  else (kindClash? f g).or
    (if f.monitorDepth ≠ g.monitorDepth then
      some (.mergeMonitors f.monitorDepth g.monitorDepth)
    else none)

def checkCompatible (f : Frame) (p : Position) (g : Frame) : Except Error Unit :=
  match f.clash? g with
  | some fault => .error (.verification p fault)
  | none => .ok ()

end Frame

end StackLift
