import StackLift.Graph.Basic

/-!
# Loop frequencies

How often each loop is expected to go round, from the probabilities of the edges. Probability flows
from the start along the control edges. A merge waits until it has come in over every forward edge,
and passes the sum on. At a loop header the flow goes once through the loop on its own, starting
with probability 1: what arrives at the exits is the probability of leaving in one round, and the
loop goes round as often as its inverse says, within bounds. Then the flow goes on behind the exits.

**Order.** The node that was reached last is handled first. Loops are listed in the order in which
they are finished, so a loop comes after the loops inside it.

**Termination.** Back edges end the flow, so it never goes round. Each step handles an arrival over a
path of its own, or lets a merge go that has waited in vain; an arrival is good for one of each, and
no more paths leave the start than there are sets of edges.
-/
namespace StackLift

/-- The least probability of leaving a loop. -/
def minExitProbability : Float := 1e-4

/-- The frequency of a loop that is hardly ever left. -/
def maxLoopFrequency : Float := 10000.0

structure LoopFrequency where
  header : NodeId
  frequency : Float
deriving Repr, Inhabited

/-- The larger number; the second if the first is not a number. -/
def maxNumber (a b : Float) : Float := if b < a then a else b

/-- The smaller number; the second if the first is not a number. -/
def minNumber (a b : Float) : Float := if a < b then a else b

/-- The expected number of rounds of a loop that is left with probability `exit`. -/
def expectedRounds (exit : Float) : Float :=
  minNumber (1.0 / maxNumber exit minExitProbability) maxLoopFrequency

namespace Flow

/-- Probability that has arrived at a node. -/
structure Arrival where
  node : NodeId
  probability : Float
deriving Repr, Inhabited

/-- A merge that waits for more edges. -/
structure Waiting where
  node : NodeId
  probability : Float
  count : Nat
deriving Repr, Inhabited

structure State where
  work : List Arrival               -- the next one first
  waiting : List Waiting := []      -- ascending by node
  exits : List Arrival := []        -- of the loop around, the latest first
  loops : List LoopFrequency        -- the latest first
deriving Repr, Inhabited

/-- What to do with an arrival. -/
inductive Response where
  | ignore
  | leave                           -- it is an exit of the loop around
  | wait (waiting : List Waiting)
  | enter (probability : Float) (waiting : List Waiting)
deriving Repr, Inhabited

/-- The number of edges into `merge` that are not back edges. -/
def forwardDegree (g : Graph) (merge : NodeId) : Nat :=
  (g.predecessors merge).countP fun p =>
    !g.kindIs p fun
      | .loopEnd _ => true
      | _ => false

/-- Counts an arrival at `node`. -/
def arrive (node : NodeId) (p : Float) : List Waiting → Waiting × List Waiting
  | [] => (⟨node, 0.0 + p, 1⟩, [])
  | w :: rest =>
    if w.node = node then (⟨node, w.probability + p, w.count + 1⟩, rest)
    else
      let (found, rest) := arrive node p rest
      (found, w :: rest)

/-- Puts a merge into its place. -/
def insertWaiting (w : Waiting) : List Waiting → List Waiting
  | [] => [w]
  | v :: rest => if w.node.index < v.node.index then w :: v :: rest else v :: insertWaiting w rest

/-- Decides on an arrival inside the loop of `within`. -/
def respond (g : Graph) (within : Option NodeId) (s : State) (a : Arrival) : Response :=
  match g.kind? a.node with
  | none | some (.loopEnd _) => .ignore
  | some k =>
    if within.any fun header => k == .loopExit header then .leave
    else if k.isMerge then
      let (w, rest) := arrive a.node a.probability s.waiting
      if forwardDegree g a.node ≤ w.count then .enter w.probability rest
      else .wait (insertWaiting w rest)
    else .enter a.probability s.waiting

/-- What flows over the edges of `n` if `p` is there. -/
def outflow (g : Graph) (n : NodeId) (p : Float → Float) : List Arrival :=
  (g.successorEdges n).map fun (_, d) => ⟨d.target, p d.probability⟩

/-- Lets `arrivals` be handled next, the last one first. -/
def push (s : State) (arrivals : List Arrival) : State :=
  { s with work := arrivals.reverse ++ s.work }

def isHeader (g : Graph) (n : NodeId) : Bool :=
  g.kindIs n fun
    | .loopHeader _ => true
    | _ => false

/-- Notes a loop that was left through `exits` (in order), and goes on behind them. -/
def finishLoop (g : Graph) (header : NodeId) (p : Float) (exits : List Arrival) (s : State) :
    State :=
  let frequency := expectedRounds (exits.foldl (fun sum a => sum + a.probability) 0.0)
  let s := { s with loops := ⟨header, frequency⟩ :: s.loops }
  push s (exits.flatMap fun a => outflow g a.node (a.probability * p * frequency * ·))

/-- Lets the flow run dry. -/
def run (g : Graph) : Nat → Option NodeId → State → State
  | 0, _, s => s
  | fuel + 1, within, s =>
    let enter (n : NodeId) (p : Float) (s : State) : State :=
      if isHeader g n then
        let inner := run g fuel (some n)
          (push { work := [], loops := s.loops } (outflow g n id))
        finishLoop g n p inner.exits.reverse { s with loops := inner.loops }
      else push s (outflow g n (p * ·))
    match s.work, s.waiting with
    | a :: work, _ =>
      let s := { s with work }
      match respond g within s a with
      | .ignore => run g fuel within s
      | .leave => run g fuel within { s with exits := a :: s.exits }
      | .wait waiting => run g fuel within { s with waiting }
      | .enter p waiting => run g fuel within (enter a.node p { s with waiting })
    | [], w :: waiting => run g fuel within (enter w.node w.probability { s with waiting })
    | [], [] => s

/-- Enough steps for any graph without a cycle of forward edges. -/
def enough (g : Graph) : Nat := Nat.pow 2 (g.edges.size + 2)

end Flow

namespace Graph

/-- The frequency of every loop that the start reaches. -/
def loopFrequencies (g : Graph) : List LoopFrequency :=
  match g.start with
  | none => []
  | some start =>
    (Flow.run g (Flow.enough g) none { work := [⟨start, 1.0⟩], loops := [] }).loops.reverse

/-- Annotates the loop headers. -/
def annotate (g : Graph) (loops : List LoopFrequency) : Graph :=
  loops.foldl (fun g l => g.setFrequency l.header l.frequency) g

end Graph

end StackLift
