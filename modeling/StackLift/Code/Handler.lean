import StackLift.Identity

/-!
# Exception handlers

A handler covers the instructions from `start` up to, and not including, `stop`. An exception that
it catches goes on at `entry` with the exception as the only value on the stack. Without a catch
type it catches everything.
-/
namespace StackLift

structure Handler where
  start : Position
  stop : Position
  entry : Position
  catchType : Option TypeId
deriving DecidableEq, Repr, Inhabited

namespace Handler

def covers (h : Handler) (p : Position) : Bool :=
  h.start.index ≤ p.index && p.index < h.stop.index

def catchesAll (h : Handler) : Bool := h.catchType.isNone

/-- All fields by name, as messages show a handler. -/
def tagged (h : Handler) : String :=
  let type := match h.catchType with
    | some t => "Some(" ++ t.tagged ++ ")"
    | none => "None"
  "ExceptionHandler \x7b start: " ++ h.start.tagged ++ ", end: " ++ h.stop.tagged ++
    ", handler: " ++ h.entry.tagged ++ ", catch_type: " ++ type ++ " \x7d"

end Handler

end StackLift
