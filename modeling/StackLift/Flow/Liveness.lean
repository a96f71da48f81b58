import StackLift.Flow.BlockMap

/-!
# Live locals

A slot is live on entry to a block if some path from there loads it before storing it. The live
sets are the least solution of `live = used ∪ (live of the successors \ stored)`; they are grown
from the empty sets, last block first, until nothing changes. Every round but the last adds an
element, so blocks times slots, and one more, rounds are enough.
-/
namespace StackLift

/-- Answers whether a slot is live on entry to a block. -/
abbrev LiveTest := BlockId → Nat → Bool

/-- The test that never lets a local be dropped. -/
def LiveTest.all : LiveTest := fun _ _ => true

structure Liveness where
  liveIn : Array BitSet     -- by block
deriving DecidableEq, Repr, Inhabited

namespace Liveness

/-- The slots that a run of code loads before storing them, and the slots that it stores. -/
structure Access where
  used : BitSet
  stored : BitSet
deriving DecidableEq, Repr, Inhabited

namespace Access

def empty (slots : Nat) : Access := ⟨BitSet.empty slots, BitSet.empty slots⟩

def step (a : Access) : Instruction Position → Access
  | .load s => if a.stored.contains s then a else { a with used := a.used.insert s }
  | .store s => { a with stored := a.stored.insert s }
  | _ => a

end Access

def accessOf (body : Body) (b : Block) : Access :=
  match b.kind with
  | .instructions =>
    (body.slice b.start b.stop).foldl Access.step (Access.empty body.maxLocals)
  | _ => Access.empty body.maxLocals

def liveAt (live : Array BitSet) (slots : Nat) (b : BlockId) : BitSet :=
  live[b.index]?.getD (BitSet.empty slots)

/-- What is live before a block, from what is live before its successors. -/
def transfer (slots : Nat) (live : Array BitSet) (b : Block) (a : Access) : BitSet :=
  let after := b.successors.foldl (fun s t => s.union (liveAt live slots t)) (BitSet.empty slots)
  (after.difference a.stored).union a.used

/-- One round over blocks paired with what they access. -/
def round (slots : Nat) (blocks : List (Block × Access)) (live : Array BitSet) : Array BitSet :=
  blocks.foldl (fun live (b, a) => live.setIfInBounds b.id.index (transfer slots live b a)) live

def settle (slots : Nat) (blocks : List (Block × Access)) : Nat → Array BitSet → Array BitSet
  | 0, live => live
  | fuel + 1, live =>
    let next := round slots blocks live
    if next = live then live else settle slots blocks fuel next

def compute (body : Body) (m : BlockMap) : Liveness :=
  let slots := body.maxLocals
  let blocks := m.blocks.toList.reverse.map fun b => (b, accessOf body b)
  ⟨settle slots blocks (m.size * slots + 1) (Array.replicate m.size (BitSet.empty slots))⟩

def liveIn? (l : Liveness) (b : BlockId) : Option BitSet := l.liveIn[b.index]?

def isLive (l : Liveness) : LiveTest := fun b slot => (l.liveIn? b).any (·.contains slot)

end Liveness

end StackLift
