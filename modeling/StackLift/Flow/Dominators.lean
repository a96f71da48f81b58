/-!
# Dominators

Immediate dominators of blocks that are numbered in reverse postorder from block 0, so that every
block but the first has a predecessor with a smaller number or is not reachable. `preds` lists the
predecessors of each block.

A table holds the immediate dominator of every block that has one so far; block 0 is its own. The
table is improved round by round until a round changes nothing. An entry can only become defined or
smaller, so `count * (count + 1)` rounds suffice.
-/
namespace StackLift

abbrev DominatorTable := Array (Option Nat)

namespace DominatorTable

def parent? (t : DominatorTable) (b : Nat) : Option Nat := (t[b]?).join

/-- The nearest block at which the paths upwards from `a` and `b` meet. Every step decreases the
larger number, so `a + b` steps are enough. -/
def meetFrom (t : DominatorTable) : Nat → Nat → Nat → Nat
  | 0, a, _ => a
  | fuel + 1, a, b =>
    if a = b then a
    else if b < a then meetFrom t fuel ((t.parent? a).getD 0) b
    else meetFrom t fuel a ((t.parent? b).getD 0)

def meet (t : DominatorTable) (a b : Nat) : Nat := t.meetFrom (a + b) a b

/-- The dominator that the predecessors seen so far agree on. -/
def candidate (t : DominatorTable) (preds : List Nat) : Option Nat :=
  (preds.filter fun p => (t.parent? p).isSome).foldl
    (fun acc p =>
      match acc with
      | none => some p
      | some d => some (t.meet p d))
    none

def improve (preds : Nat → List Nat) (t : DominatorTable) (b : Nat) : DominatorTable :=
  match t.candidate (preds b) with
  | some d => t.setIfInBounds b (some d)
  | none => t

def round (preds : Nat → List Nat) (t : DominatorTable) : DominatorTable :=
  (List.range' 1 (t.size - 1)).foldl (improve preds) t

def settle (preds : Nat → List Nat) : Nat → DominatorTable → DominatorTable
  | 0, t => t
  | fuel + 1, t =>
    let next := t.round preds
    if next = t then t else settle preds fuel next

/-- The immediate dominators of `count` blocks. -/
def compute (count : Nat) (preds : Nat → List Nat) : DominatorTable :=
  settle preds (count * (count + 1) + 1) ((Array.replicate count none).setIfInBounds 0 (some 0))

/-- `a` lies on the path from `b` up to the root, if at most `fuel` steps are taken. -/
def dominatesWithin (t : DominatorTable) (a : Nat) : Nat → Nat → Bool
  | 0, b => a == b
  | fuel + 1, b =>
    if a = b then true
    else match t.parent? b with
      | some p => if p = b then false else dominatesWithin t a fuel p
      | none => false

/-- Every path from block 0 to `b` goes through `a`. -/
def dominates (t : DominatorTable) (a b : Nat) : Bool := t.dominatesWithin a b b

end DominatorTable

end StackLift
