import StackLift.Code.Body

/-!
# Cursors

A cursor reads the instructions of one body in order. It may stand anywhere, also past the end,
but a position has 32 bits: the step past the last one does not exist.
-/
namespace StackLift

structure Cursor where
  body : Body
  position : Position := ⟨0⟩
deriving DecidableEq, Repr, Inhabited

namespace Cursor

def moveTo (c : Cursor) (p : Position) : Cursor := { c with position := p }

/-- The instruction under the cursor; none past the end. -/
def current? (c : Cursor) : Option (Instruction Position) := c.body.instruction? c.position

def hasCurrent (c : Cursor) : Bool := decide (c.position.index < c.body.size)

def nextPosition? (c : Cursor) : Option Position := c.position.next?

def advance? (c : Cursor) : Option Cursor := c.nextPosition?.map c.moveTo

end Cursor

end StackLift
