import StackLift.Identity

/-!
# Configuration

What a build may do and how far it may go. The clock of a build stands still, so the only time
budget that runs out is an empty one.
-/
namespace StackLift

structure Config where
  deadCodeElimination : Bool := true     -- a successor of probability zero becomes a trap
  livenessPruning : Bool := true         -- locals that are dead at a block's entry are dropped
  enableInlining : Bool := true
  inlineSizeThreshold : Nat := 35        -- the most instructions of an inlined method
  maxInliningDepth : Nat := 8            -- an inlining that would nest deeper fails the build
  maxRecursiveInlining : Nat := 1        -- how often a method may occur in one inline chain
  maxNodeCount : Nat := 100000           -- the most live nodes
  timeout : Option Nat := none           -- milliseconds
  deoptAllInvokes : Bool := false        -- no call is lifted
  skippedExceptionTypes : List TypeId := []   -- ascending; their handlers are never reached
  useProfileForExceptionEdges : Bool := true  -- calls never seen to throw get no exception edge
deriving DecidableEq, Repr, Inhabited

namespace Config

def withInlining (c : Config) (enable : Bool) (sizeThreshold : Nat) : Config :=
  { c with enableInlining := enable, inlineSizeThreshold := sizeThreshold }

def withInliningLimits (c : Config) (maxDepth maxRecursive : Nat) : Config :=
  { c with maxInliningDepth := maxDepth, maxRecursiveInlining := maxRecursive }

def withDeadCodeElimination (c : Config) (enable : Bool) : Config :=
  { c with deadCodeElimination := enable }

def withLivenessPruning (c : Config) (enable : Bool) : Config :=
  { c with livenessPruning := enable }

def withMaxNodeCount (c : Config) (limit : Nat) : Config := { c with maxNodeCount := limit }

def withTimeout (c : Config) (milliseconds : Nat) : Config :=
  { c with timeout := some milliseconds }

def withDeoptAllInvokes (c : Config) (enable : Bool) : Config :=
  { c with deoptAllInvokes := enable }

/-- Puts `t` into its place in an ascending list, unless it is there. -/
def insertType (t : TypeId) : List TypeId → List TypeId
  | [] => [t]
  | u :: rest =>
    if t.value < u.value then t :: u :: rest
    else if t = u then u :: rest
    else u :: insertType t rest

def withSkippedExceptionType (c : Config) (t : TypeId) : Config :=
  { c with skippedExceptionTypes := insertType t c.skippedExceptionTypes }

def withProfiledExceptionEdges (c : Config) (enable : Bool) : Config :=
  { c with useProfileForExceptionEdges := enable }

/-- The time budget is used up. -/
def isExpired (c : Config) : Bool := c.timeout == some 0

end Config

end StackLift
