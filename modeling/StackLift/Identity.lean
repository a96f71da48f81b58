/-!
# Identities

Methods and types are numbered by the program that is being compiled, positions count the
instructions of one body, and blocks, nodes and control edges are numbered in the order in which
they are made. Every number is kept in a type of its own.

`text` is the short form used in messages; `tagged` spells the sort of number out.
-/
namespace StackLift

structure MethodId where
  value : Nat
deriving DecidableEq, Repr, Inhabited

structure TypeId where
  value : Nat
deriving DecidableEq, Repr, Inhabited

/-- The index of an instruction in a method body. -/
structure Position where
  index : Nat
deriving DecidableEq, Repr, Inhabited

structure BlockId where
  index : Nat
deriving DecidableEq, Repr, Inhabited

/-- The handle of a graph node, given out in allocation order and never again. -/
structure NodeId where
  index : Nat
deriving DecidableEq, Repr, Inhabited

/-- The handle of a control edge, given out in the order the edges are added. -/
structure EdgeId where
  index : Nat
deriving DecidableEq, Repr, Inhabited

namespace MethodId

def text (m : MethodId) : String := "method#" ++ toString m.value

def tagged (m : MethodId) : String := "MethodId(" ++ toString m.value ++ ")"

end MethodId

namespace TypeId

def text (t : TypeId) : String := "type#" ++ toString t.value

def tagged (t : TypeId) : String := "TypeId(" ++ toString t.value ++ ")"

end TypeId

namespace Position

def text (p : Position) : String := "@" ++ toString p.index

def tagged (p : Position) : String := "Position(" ++ toString p.index ++ ")"

/-- Positions are 32 bits wide; this is the last one. -/
def last : Position := ⟨0xffffffff⟩

/-- The position of the following instruction. -/
def next (p : Position) : Position := ⟨p.index + 1⟩

/-- The following position, if 32 bits can hold it. -/
def next? (p : Position) : Option Position :=
  if p.index < last.index then some p.next else none

end Position

namespace BlockId

def text (b : BlockId) : String := "B" ++ toString b.index

end BlockId

namespace NodeId

def text (n : NodeId) : String := "n" ++ toString n.index

end NodeId

namespace EdgeId

def tagged (e : EdgeId) : String := "EdgeId(" ++ toString e.index ++ ")"

end EdgeId

end StackLift
