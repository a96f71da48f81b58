import StackLift.Error

/-!
# Method bodies

A body is its instructions, the number of local slots (arguments included) and the handler table.
Handlers are tested in the order of the table.

`validate` accepts a body iff it has an instruction, every branch stays inside, every local exists,
every switch pairs its keys with its targets, the last instruction does not fall through, and every
handler has a proper range and entry. It reports the first defect: instruction by instruction, then
the end of the body, then the handlers.
-/
namespace StackLift

structure Body where
  code : Array (Instruction Position)
  maxLocals : Nat
  handlers : List Handler
deriving DecidableEq, Repr, Inhabited

namespace Body

def size (b : Body) : Nat := b.code.size

def isEmpty (b : Body) : Bool := b.code.isEmpty

def instruction? (b : Body) (p : Position) : Option (Instruction Position) := b.code[p.index]?

/-- The instructions with their positions. -/
def lines (b : Body) : List (Instruction Position × Position) :=
  b.code.toList.zipIdx.map fun (i, n) => (i, ⟨n⟩)

/-- The instructions from `start` up to, and not including, `stop`. -/
def slice (b : Body) (start stop : Position) : List (Instruction Position) :=
  (b.code.extract start.index stop.index).toList

/-- The covering handlers of an indexed table; none is tested after one that catches all. -/
def coveringIn (p : Position) : List (Handler × Nat) → List Nat
  | [] => []
  | (h, n) :: rest =>
    if h.covers p then
      if h.catchesAll then [n] else n :: coveringIn p rest
    else coveringIn p rest

/-- The indices of the handlers that an exception raised at `p` is offered to, in order. -/
def handlersAt (b : Body) (p : Position) : List Nat := coveringIn p b.handlers.zipIdx

def instructionDefect? (b : Body) (i : Instruction Position) (p : Position) : Option Defect :=
  match i.branchTargets.find? fun t => b.size ≤ t.index with
  | some t => some (.branchOutside p t b.size)
  | none =>
    match i with
    | .load s | .store s =>
      if b.maxLocals ≤ s then some (.localOutside p s b.maxLocals) else none
    | .switch ks ts _ =>
      if ks.length ≠ ts.length then some (.switchArity p ks.length ts.length) else none
    | _ => none

def endDefect? (b : Body) : Option Defect :=
  match b.code.back? with
  | none => some .emptyBody
  | some i => if i.fallsThrough then some .fallsOffEnd else none

def handlerDefect? (b : Body) (h : Handler) : Option Defect :=
  if h.stop.index ≤ h.start.index || b.size < h.stop.index || b.size ≤ h.entry.index then
    some (.handlerRange h)
  else none

/-- The first thing wrong with the body. -/
def defect? (b : Body) : Option Defect :=
  b.lines.findSome? (fun (i, p) => b.instructionDefect? i p)
    |>.or b.endDefect?
    |>.or (b.handlers.findSome? b.handlerDefect?)

def validate (b : Body) : Except Error Unit :=
  match b.defect? with
  | some d => .error (.malformed d)
  | none => .ok ()

end Body

end StackLift
