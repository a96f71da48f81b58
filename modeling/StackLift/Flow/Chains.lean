import StackLift.Flow.Vertex

/-!
# Raw blocks

The blocks in the order in which they are made, before the unreachable ones are dropped: the runs,
the tests, the two ways out. A test is made after the one that it leads to. A table holds the tests
that are there, by the handlers that are left, and a throwing instruction is given the tests that its
handlers have already. The unwind block is made last, so a chain that can run out leads to a
placeholder, which is filled in at the end.
-/
namespace StackLift

/-- A block that leads to the tests and the unwind block by links of type `ι`. -/
inductive RawBlock (ι : Type) where
  | run (start stop : Position)
  | dispatch (handler : Nat) (next : Option ι)
  | exit
  | unwind
deriving DecidableEq, Repr, Inhabited

def RawBlock.map {ι κ : Type} (f : ι → κ) : RawBlock ι → RawBlock κ
  | .run p q => .run p q
  | .dispatch h next => .dispatch h (next.map f)
  | .exit => .exit
  | .unwind => .unwind

/-- The blocks that are made so far. A link is an index or the placeholder of the unwind block. -/
structure Chains where
  raw : List (RawBlock (Option Nat))
  made : List (List Nat × Nat) := []    -- the test that the handlers start with, latest first
deriving DecidableEq, Repr, Inhabited

namespace Chains

/-- The link to the test that `hs` start with. What is missing of the chain is made. -/
def require (b : Body) : List Nat → Chains → Option Nat × Chains
  | [], s => (none, s)
  | h :: rest, s =>
    match s.made.lookup (h :: rest) with
    | some n => (some n, s)
    | none =>
      let (next, s) := if b.catchesAllAt h then (none, s) else
        (some (require b rest s).1, (require b rest s).2)
      (some s.raw.length,
        { raw := s.raw ++ [.dispatch h next], made := (h :: rest, s.raw.length) :: s.made })

end Chains

namespace Body

/-- The runs and all the tests that a throwing instruction needs. -/
def chains (b : Body) : Chains :=
  ((List.range b.size).map Position.mk).foldl (fun s p => (s.require b (b.thrownTo p)).2)
    { raw := b.leaders.map fun p => .run p (b.partition.stop p) }

/-- All blocks, with the index of the last one in the place of the placeholder. -/
def rawBlocks (b : Body) : List (RawBlock Nat) :=
  let raw := b.chains.raw ++ [.exit, .unwind]
  raw.map (·.map (·.getD (raw.length - 1)))

end Body

end StackLift
