import StackLift.Frame.Basic

/-!
# Snapshots

A snapshot is what a deoptimization needs to rebuild the interpreter: the activation of the method
that was running, and the activations of the methods it was inlined into, the nearest caller first.
-/
namespace StackLift

/-- A method, a position in it, and the frame there. -/
structure Activation where
  method : MethodId
  position : Position
  frame : Frame
deriving DecidableEq, Repr, Inhabited

structure Snapshot where
  inner : Activation
  callers : List Activation := []
deriving DecidableEq, Repr, Inhabited

namespace Snapshot

/-- Every activation, the innermost first. -/
def chain (s : Snapshot) : List Activation := s.inner :: s.callers

def method (s : Snapshot) : MethodId := s.inner.method

def position (s : Snapshot) : Position := s.inner.position

def frame (s : Snapshot) : Frame := s.inner.frame

def frameCount (s : Snapshot) : Nat := s.chain.length

/-- The values of the innermost frame. -/
def values (s : Snapshot) : List Value := s.frame.values

/-- Some frame of the chain holds one of `nodes`. -/
def refersTo (s : Snapshot) (nodes : List NodeId) : Bool :=
  s.chain.any fun a => a.frame.values.any (·.node ∈ nodes)

/-- Drops every local of every frame that holds one of `dead`; none if something pinned holds one. -/
def withoutLocals? (s : Snapshot) (dead : List NodeId) : Option Snapshot := do
  let drop (a : Activation) : Option Activation := do
    return { a with frame := ← a.frame.withoutLocals? dead }
  let inner ← drop s.inner
  let callers ← s.callers.mapM drop
  return { inner, callers }

end Snapshot

/-- Freezes a frame of `method` at `position`, below the frames of `callers`. -/
def Frame.snapshot (f : Frame) (method : MethodId) (position : Position)
    (callers : Option Snapshot) : Snapshot :=
  { inner := ⟨method, position, f⟩
    callers := match callers with
      | some s => s.chain
      | none => [] }

end StackLift
