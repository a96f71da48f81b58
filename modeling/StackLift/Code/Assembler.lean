import StackLift.Code.Body

/-!
# Assembling bodies

Instructions are written one after the other, and their targets may be labels that are only defined
later. The code holds a placeholder for every label, and a fixup says where it stands and which label
it waits for. `finish` works through the fixups on a copy of the code and validates the body. Its
errors come in this order: a label defined twice, the first fixup that cannot be made, the first
undefined label of the handlers, the first defect of the body.

The assembler also counts locals: as many as were reserved, and at least one past every slot that is
named. A slot has 16 bits, and so has the count.
-/
namespace StackLift

/-- A branch target while the code is being written. -/
inductive Target where
  | label (name : String)
  | pos (position : Position)
deriving DecidableEq, Repr, Inhabited

/-- What stands in the code for the target until it is known. -/
def Target.placeholder : Target → Position
  | .label _ => ⟨0⟩
  | .pos p => p

def Target.label? : Target → Option String
  | .label l => some l
  | .pos _ => none

/-- An operand that waits for its labels. The instruction stands at `index`. -/
inductive Fixup where
  | single (index : Nat) (label : String)
  | switch (index : Nat) (targets : List Target) (default : Target)
deriving DecidableEq, Repr, Inhabited

/-- A handler whose range and entry are still labels. -/
structure PendingHandler where
  start : String
  stop : String
  entry : String
  catchType : Option TypeId
deriving DecidableEq, Repr, Inhabited

structure Assembler where
  code : Array (Instruction Position) := #[]  -- with placeholders
  labels : List (String × Position) := []     -- latest first
  fixups : Array Fixup := #[]
  handlers : Array PendingHandler := #[]
  maxLocals : Nat := 0
  duplicate : Option String := none           -- the first label that was defined again
deriving DecidableEq, Repr, Inhabited

/-- One step of writing a body. -/
inductive AssemblyStep where
  | emit (i : Instruction Target)
  | label (name : String)
  | locals (count : Nat)
  | handler (h : PendingHandler)
deriving DecidableEq, Repr, Inhabited

namespace Instruction

/-- The fixup of an instruction that is written at `index`, if it names a label. -/
def fixup? (index : Nat) : Instruction Target → Option Fixup
  | .ifCompare _ t | .ifZero _ t | .ifNull t | .ifNonNull t | .goto t =>
    t.label?.map (.single index)
  | .switch _ ts d =>
    if (ts ++ [d]).any (·.label?.isSome) then some (.switch index ts d) else none
  | _ => none

/-- The instruction with `p` for its target, if it is a branch with one target. -/
def aim? (p : Position) : Instruction Position → Option (Instruction Position)
  | .ifCompare c _ => some (.ifCompare c p)
  | .ifZero c _ => some (.ifZero c p)
  | .ifNull _ => some (.ifNull p)
  | .ifNonNull _ => some (.ifNonNull p)
  | .goto _ => some (.goto p)
  | _ => none

end Instruction

namespace Assembler

/-- The position of the next instruction. -/
def position (a : Assembler) : Position := ⟨a.code.size⟩

/-- Reserves local slots. -/
def locals (a : Assembler) (count : Nat) : Assembler :=
  { a with maxLocals := max a.maxLocals count }

/-- Defines a label at the next instruction. -/
def label (a : Assembler) (name : String) : Assembler :=
  { a with
    labels := (name, a.position) :: a.labels
    duplicate := a.duplicate <|> if (a.labels.lookup name).isSome then some name else none }

def emit (a : Assembler) (i : Instruction Target) : Assembler :=
  let a := match i.slot? with
    | some s => a.locals (min (s + 1) 65535)
    | none => a
  { a with
    fixups := a.fixups ++ (i.fixup? a.code.size).toList
    code := a.code.push (i.mapTargets fun t => (pure t.placeholder : Id Position)).run }

def handler (a : Assembler) (h : PendingHandler) : Assembler :=
  { a with handlers := a.handlers.push h }

def step (a : Assembler) : AssemblyStep → Assembler
  | .emit i => a.emit i
  | .label l => a.label l
  | .locals n => a.locals n
  | .handler h => a.handler h

def resolveLabel (a : Assembler) (name : String) : Except Error Position :=
  match a.labels.lookup name with
  | some p => .ok p
  | none => .error (.undefinedLabel name)

def resolve (a : Assembler) : Target → Except Error Position
  | .label l => a.resolveLabel l
  | .pos p => .ok p

/-- Makes one fixup. A label is looked up before the instruction that waits for it. -/
def patch (a : Assembler) (code : Array (Instruction Position)) :
    Fixup → Except Error (Array (Instruction Position))
  | .single index label => do
    let p ← a.resolveLabel label
    match code[index]?.bind (Instruction.aim? p) with
    | some i => return code.setIfInBounds index i
    | none => throw (.malformed (.fixupOnNonBranch code[index]?))
  | .switch index targets default => do
    let ts ← targets.mapM a.resolve
    let d ← a.resolve default
    match code[index]? with
    | some (.switch ks _ _) => return code.setIfInBounds index (.switch ks ts d)
    | _ => return code

def resolveHandler (a : Assembler) (h : PendingHandler) : Except Error Handler := do
  let start ← a.resolveLabel h.start
  let stop ← a.resolveLabel h.stop
  let entry ← a.resolveLabel h.entry
  return { start, stop, entry, catchType := h.catchType }

def finish (a : Assembler) : Except Error Body := do
  if let some l := a.duplicate then
    throw (.malformed (.duplicateLabel l))
  let code ← a.fixups.toList.foldlM a.patch a.code
  let handlers ← a.handlers.toList.mapM a.resolveHandler
  let body : Body := { code, maxLocals := a.maxLocals, handlers }
  body.validate
  return body

end Assembler

/-- Writes a body from scratch. -/
def assemble (steps : List AssemblyStep) : Except Error Body :=
  (steps.foldl Assembler.step {}).finish

end StackLift
