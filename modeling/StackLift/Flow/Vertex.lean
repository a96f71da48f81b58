import StackLift.BitSet
import StackLift.Code.Body

/-!
# The block graph

The vertices are runs of instructions, the tests that an exception goes through, and the two ways
out of a method. A run is named by its first position. A test is named by the handler that it tries
and those that are left after it. So two throwing instructions share the tests that their lists of
handlers have in common at the end.

A position starts a run if it is the entry, a branch target, an end or the entry of a handler's
range, or follows an instruction that ends a block. An instruction that can throw ends its block
where a handler covers it.
-/
namespace StackLift

inductive Vertex where
  | code (start : Position)
  | dispatch (handler : Nat) (rest : List Nat)   -- indices into the handler table
  | exit                                         -- all normal returns
  | unwind                                       -- all exceptions that leave the method
deriving DecidableEq, Repr, Inhabited

namespace Body

/-- The handlers that the instruction at `p` can reach by throwing. -/
def thrownTo (b : Body) (p : Position) : List Nat :=
  match b.instruction? p with
  | some i => if i.canThrow then b.handlersAt p else []
  | none => []

/-- The block of the instruction at `p` ends there. -/
def endsBlockAt (b : Body) (p : Position) : Bool :=
  match b.instruction? p with
  | some i => i.isBlockEnd || !(b.thrownTo p).isEmpty
  | none => false

/-- What a run may start at, in no order; the last ones may be past the end. -/
def seeds (b : Body) : List Position :=
  ⟨0⟩ :: b.lines.flatMap (fun (i, p) =>
      i.branchTargets ++ if b.endsBlockAt p then [p.next] else []) ++
    b.handlers.flatMap fun h => [h.start, h.entry, h.stop]

/-- The positions that start a run, ascending. -/
def leaders (b : Body) : List Position :=
  (b.seeds.foldl (fun s p => s.insert p.index) (BitSet.empty b.size)).toList.map Position.mk

def catchesAllAt (b : Body) (h : Nat) : Bool := b.handlers[h]?.any Handler.catchesAll

def entryOf (b : Body) (h : Nat) : Position := (b.handlers[h]?.map (·.entry)).getD default

end Body

/-- Keeps the first of every run of equal elements. -/
def squeeze {α : Type} [DecidableEq α] : List α → List α
  | [] => []
  | [a] => [a]
  | a :: b :: rest => if a = b then squeeze (b :: rest) else a :: squeeze (b :: rest)

/-- A body with its leaders. -/
structure Partition where
  body : Body
  leaders : List Position
deriving DecidableEq, Repr, Inhabited

namespace Partition

/-- One past the last instruction of the run that starts at `p`. -/
def stop (t : Partition) (p : Position) : Position :=
  (t.leaders.find? fun l => p.index < l.index).getD ⟨t.body.size⟩

/-- Where an exception goes when the handlers in `hs` are still to be tried. -/
def chain : List Nat → Vertex
  | [] => .unwind
  | h :: rest => .dispatch h rest

/-- Where control goes after the last instruction of a run: the branch targets, the fall-through,
the return, and the place where its exception goes. An instruction that falls through and is not
covered has no exceptional successor. -/
def afterLast (t : Partition) (last : Position) (i : Instruction Position) : List Vertex :=
  i.branchTargets.map .code ++
    (if i.fallsThrough && last.index + 1 < t.body.size then [.code last.next] else []) ++
    (if i.isReturn then [.exit] else []) ++
    (if i.canThrow && (!(t.body.handlersAt last).isEmpty || !i.fallsThrough) then
      [chain (t.body.handlersAt last)]
    else [])

/-- The successors, in order; the same successor is not named twice in a row. -/
def successors (t : Partition) : Vertex → List Vertex
  | .code p =>
    let last : Position := ⟨(t.stop p).index - 1⟩
    match t.body.instruction? last with
    | some i => squeeze (t.afterLast last i)
    | none => []
  | .dispatch h rest =>
    squeeze (.code (t.body.entryOf h) :: if t.body.catchesAllAt h then [] else [chain rest])
  | .exit | .unwind => []

/-- At least one more than the number of vertices. -/
def searchDepth (t : Partition) : Nat :=
  t.leaders.length + t.body.size * t.body.handlers.length + 3

end Partition

def Body.partition (b : Body) : Partition := ⟨b, b.leaders⟩

end StackLift
