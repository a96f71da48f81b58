import StackLift.Identity

/-!
# Execution profiles

A profile answers three questions about a site, or has no data for it. A gap or a malformed answer
never stops a build: branches are then even, switch targets equally likely, and an exception is
taken to have been seen.

A usable probability is a number from 0 to 1. Switch data is usable if it has one probability for
each successor, the default last, and their sum is within `sumTolerance` of 1.
-/
namespace StackLift

structure Profile where
  /-- The probability that the branch is taken. -/
  branch : MethodId → Position → Option Float
  /-- The probability of each case of a switch, then of its default. -/
  switch : MethodId → Position → Option (List Float)
  /-- Whether an exception was ever seen. -/
  exceptionSeen : MethodId → Position → Option Bool

namespace Profile

/-- No data at all. -/
def blank : Profile := ⟨fun _ _ => none, fun _ _ => none, fun _ _ => none⟩

instance : Inhabited Profile := ⟨blank⟩

def sumTolerance : Float := 1e-3

def isProbability (p : Float) : Bool := p.isFinite && 0.0 ≤ p && p ≤ 1.0

def branchProbability (profile : Profile) (m : MethodId) (p : Position) : Float :=
  match profile.branch m p with
  | some taken => if isProbability taken then taken else 0.5
  | none => 0.5

def isDistribution (ps : List Float) (count : Nat) : Bool :=
  ps.length == count && ps.all isProbability &&
    ((ps.foldl (· + ·) 0.0) - 1.0).abs ≤ sumTolerance

def switchProbabilities (profile : Profile) (m : MethodId) (p : Position) (count : Nat) :
    List Float :=
  let uniform := List.replicate count (1.0 / Float.ofNat count)
  match profile.switch m p with
  | some ps => if isDistribution ps count then ps else uniform
  | none => uniform

def mayThrow (profile : Profile) (m : MethodId) (p : Position) : Bool :=
  (profile.exceptionSeen m p).getD true

end Profile

/-- A profile recorded ahead of time; a later record for a site replaces the earlier one. -/
structure Recording where
  branches : List ((MethodId × Position) × Float) := []         -- latest first
  switches : List ((MethodId × Position) × List Float) := []
  exceptions : List ((MethodId × Position) × Bool) := []
deriving Inhabited

namespace Recording

def recordBranch (r : Recording) (m : MethodId) (p : Position) (taken : Float) : Recording :=
  { r with branches := ((m, p), taken) :: r.branches }

def recordSwitch (r : Recording) (m : MethodId) (p : Position) (ps : List Float) : Recording :=
  { r with switches := ((m, p), ps) :: r.switches }

def recordException (r : Recording) (m : MethodId) (p : Position) (seen : Bool) : Recording :=
  { r with exceptions := ((m, p), seen) :: r.exceptions }

def toProfile (r : Recording) : Profile where
  branch m p := r.branches.lookup (m, p)
  switch m p := r.switches.lookup (m, p)
  exceptionSeen m p := r.exceptions.lookup (m, p)

end Recording

end StackLift
