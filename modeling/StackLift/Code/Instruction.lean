import StackLift.Identity

/-!
# The instruction set

A stack machine with 64-bit integers and object references. An instruction carries its operands,
and `τ` is what it names its branch targets by: a `Position` in finished code, a label or a
position in code that is still being assembled.
-/
namespace StackLift

/-- What a stack slot or a local holds; `void` only occurs as the kind of a missing result. -/
inductive ValueKind where
  | int
  | object
  | void
deriving DecidableEq, Repr, Inhabited

def ValueKind.text : ValueKind → String
  | .int => "int"
  | .object => "object"
  | .void => "void"

/-- A comparison of two integers. -/
inductive Condition where
  | eq
  | ne
  | lt
  | le
  | gt
  | ge
deriving DecidableEq, Repr, Inhabited

namespace Condition

def holds : Condition → Int64 → Int64 → Bool
  | .eq, a, b => a == b
  | .ne, a, b => a != b
  | .lt, a, b => a < b
  | .le, a, b => a ≤ b
  | .gt, a, b => b < a
  | .ge, a, b => b ≤ a

def text : Condition → String
  | .eq => "eq"
  | .ne => "ne"
  | .lt => "lt"
  | .le => "le"
  | .gt => "gt"
  | .ge => "ge"

end Condition

/-- How a call finds the method that runs. -/
inductive CallKind where
  | static      -- no receiver
  | special     -- a receiver, and a fixed target
  | virtual     -- dispatch on the receiver's class
  | interface   -- dispatch through an interface
deriving DecidableEq, Repr, Inhabited

namespace CallKind

/-- The instruction alone fixes the target. -/
def isDirect : CallKind → Bool
  | .static | .special => true
  | .virtual | .interface => false

/-- The first argument is a receiver. -/
def hasReceiver : CallKind → Bool
  | .static => false
  | _ => true

def text : CallKind → String
  | .static => "static"
  | .special => "special"
  | .virtual => "virtual"
  | .interface => "interface"

end CallKind

inductive ArithOp where
  | add
  | sub
  | mul
  | div
  | rem
  | and
  | or
  | xor
  | shl
  | shr
  | neg
deriving DecidableEq, Repr, Inhabited

namespace ArithOp

/-- A zero divisor raises an exception. -/
def canThrow : ArithOp → Bool
  | .div | .rem => true
  | _ => false

def isUnary : ArithOp → Bool
  | .neg => true
  | _ => false

def text : ArithOp → String
  | .add => "add"
  | .sub => "sub"
  | .mul => "mul"
  | .div => "div"
  | .rem => "rem"
  | .and => "and"
  | .or => "or"
  | .xor => "xor"
  | .shl => "shl"
  | .shr => "shr"
  | .neg => "neg"

end ArithOp

inductive Instruction (τ : Type) where
  | nop
  | const (value : Int64)
  | constNull
  | load (slot : Nat)
  | store (slot : Nat)
  | pop
  | dup
  | swap
  | arith (op : ArithOp)
  | ifCompare (cond : Condition) (target : τ)   -- two integers, the deeper one on the left
  | ifZero (cond : Condition) (target : τ)      -- one integer, compared with zero
  | ifNull (target : τ)
  | ifNonNull (target : τ)
  | goto (target : τ)
  | switch (keys : List Int64) (targets : List τ) (default : τ)
  | invoke (kind : CallKind) (method : MethodId)
  | new (type : TypeId)
  | checkCast (type : TypeId)
  | instanceOf (type : TypeId)
  | throw
  | ret
  | retValue
  | monitorEnter
  | monitorExit
deriving DecidableEq, Repr, Inhabited

namespace Instruction

variable {τ υ : Type}

def mnemonic : Instruction τ → String
  | .nop => "nop"
  | .const _ => "const"
  | .constNull => "const_null"
  | .load _ => "load"
  | .store _ => "store"
  | .pop => "pop"
  | .dup => "dup"
  | .swap => "swap"
  | .arith _ => "arith"
  | .ifCompare .. => "if"
  | .ifZero .. => "if_zero"
  | .ifNull _ => "if_null"
  | .ifNonNull _ => "if_non_null"
  | .goto _ => "goto"
  | .switch .. => "switch"
  | .invoke .. => "invoke"
  | .new _ => "new"
  | .checkCast _ => "check_cast"
  | .instanceOf _ => "instance_of"
  | .throw => "throw"
  | .ret => "return"
  | .retValue => "return_value"
  | .monitorEnter => "monitor_enter"
  | .monitorExit => "monitor_exit"

/-- The explicit targets, without the fall-through; the default of a switch comes last. -/
def branchTargets : Instruction τ → List τ
  | .ifCompare _ t | .ifZero _ t | .ifNull t | .ifNonNull t | .goto t => [t]
  | .switch _ ts d => ts ++ [d]
  | _ => []

/-- Execution may go on at the next instruction. -/
def fallsThrough : Instruction τ → Bool
  | .goto _ | .switch .. | .throw | .ret | .retValue => false
  | _ => true

/-- The instruction ends a basic block. -/
def isBlockEnd (i : Instruction τ) : Bool := !i.branchTargets.isEmpty || !i.fallsThrough

/-- A handler may have to catch an exception of this instruction. -/
def canThrow : Instruction τ → Bool
  | .invoke .. | .throw => true
  | .arith op => op.canThrow
  | _ => false

def isReturn : Instruction τ → Bool
  | .ret | .retValue => true
  | _ => false

/-- The local slot that a load or a store names. -/
def slot? : Instruction τ → Option Nat
  | .load s | .store s => some s
  | _ => none

/-- Renames the targets from left to right; the first failure is the answer. -/
def mapTargets {m : Type → Type} [Monad m] (f : τ → m υ) : Instruction τ → m (Instruction υ)
  | .nop => pure .nop
  | .const v => pure (.const v)
  | .constNull => pure .constNull
  | .load s => pure (.load s)
  | .store s => pure (.store s)
  | .pop => pure .pop
  | .dup => pure .dup
  | .swap => pure .swap
  | .arith op => pure (.arith op)
  | .ifCompare c t => return .ifCompare c (← f t)
  | .ifZero c t => return .ifZero c (← f t)
  | .ifNull t => return .ifNull (← f t)
  | .ifNonNull t => return .ifNonNull (← f t)
  | .goto t => return .goto (← f t)
  | .switch ks ts d => do
    let ts ← ts.mapM f
    return .switch ks ts (← f d)
  | .invoke k m => pure (.invoke k m)
  | .new t => pure (.new t)
  | .checkCast t => pure (.checkCast t)
  | .instanceOf t => pure (.instanceOf t)
  | .throw => pure .throw
  | .ret => pure .ret
  | .retValue => pure .retValue
  | .monitorEnter => pure .monitorEnter
  | .monitorExit => pure .monitorExit

end Instruction

end StackLift
