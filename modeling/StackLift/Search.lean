/-!
# Depth-first search

`next` lists the successors of a vertex in the order in which they are tried. The fuel bounds the
depth of the search, not its length: a path that never meets a vertex twice is no longer than the
number of vertices, so that number plus one is enough.
-/
namespace StackLift

/-- A search in progress. -/
structure Search (α : Type) where
  seen : List α := []    -- every vertex met, latest first
  done : List α := []    -- every vertex left again, latest first: a reverse postorder
deriving DecidableEq, Repr, Inhabited

namespace Search

variable {α : Type} [DecidableEq α]

def visit (next : α → List α) : Nat → Search α → α → Search α
  | 0, s, _ => s
  | fuel + 1, s, v =>
    if v ∈ s.seen then s
    else
      let s := (next v).foldl (visit next fuel) { s with seen := v :: s.seen }
      { s with done := v :: s.done }

end Search

end StackLift
