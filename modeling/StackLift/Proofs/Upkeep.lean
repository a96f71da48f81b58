import Mathlib
import StackLift.Graph.Change
import StackLift.Proofs.Removal

/-!
# What any sequence of requests leaves behind

A graph says the same thing in several places: an edge is an entry of the edges, of the list of its
source and of the list of its target, and the number of live nodes is kept beside the nodes. Here is
that the places never disagree, whatever is asked of a graph and in whatever order.

**Requests.** `Op` is a request; its handles may be stale, or may never have been given out. `perform`
answers one request by the steps of its change, and `run` a sequence of them. A request that is refused
is answered by its error, and the next one finds the graph that the refused change has left.

**Invariant.** `Upkept` holds of the empty graph and passes through every request (`Upkept.perform`),
so it holds after every run. What it means for the queries is `Consistent`.

**Results.**
* `run_consistent`: after every run the lists, the degrees and the counts agree with the edges and the
  nodes, no handle was given out twice, and a request is refused, with no effect, exactly when
  it names something that is not there.
-/
namespace StackLift

namespace Graph

variable {g g' : Graph} {r : Except Error Graph} {op : Op} {s t : NodeId} {k : EdgeKind} {p : Float}
  {e : EdgeId} {α : Type}

/-! ## Requests -/

inductive Op where
  | addNode (kind : NodeKind) (inputs : List NodeId)
  | addEdge (source target : NodeId) (kind : EdgeKind) (probability : Float)
  | retarget (e : EdgeId) (target : NodeId)
  | removeNode (n : NodeId)
  | addPhiInput (phi value : NodeId)
  | setSnapshot (n : NodeId) (s : Snapshot)
  | setStart (n : NodeId)
  | setFrequency (header : NodeId) (frequency : Float)

inductive Reply where
  | done
  | node (n : NodeId)
  | edge (e : EdgeId)
  | refused (why : Error)

namespace Reply

/-- The handle of a node that was given out. -/
def node? : Reply → Option NodeId
  | .node n => some n
  | _ => none

/-- The handle of an edge that was given out. -/
def edge? : Reply → Option EdgeId
  | .edge e => some e
  | _ => none

end Reply

/-- The steps that answer a request. -/
def Op.change : Op → Change Reply
  | .addNode kind inputs =>
    modifyGet fun g => (.node (g.addNode kind inputs).1, (g.addNode kind inputs).2)
  | .addEdge source target kind probability =>
    return .edge (← Change.addEdge source target kind probability)
  | .retarget e target => do Change.retarget e target; return .done
  | .removeNode n => do modify (·.removeNode n); return .done
  | .addPhiInput phi value => do Change.addPhiInput phi value; return .done
  | .setSnapshot n s => do Change.setSnapshot n s; return .done
  | .setStart n => do modify (·.setStart n); return .done
  | .setFrequency header frequency => do modify (·.setFrequency header frequency); return .done

/-- The reply, and the graph that the next request finds. -/
def perform (g : Graph) (op : Op) : Reply × Graph :=
  match op.change g with
  | .ok reply g' => (reply, g')
  | .error why g' => (.refused why, g')

/-- The replies to a sequence of requests, and the graph after it. -/
def run (g : Graph) : List Op → List Reply × Graph
  | [] => ([], g)
  | op :: ops => ((g.perform op).1 :: ((g.perform op).2.run ops).1, ((g.perform op).2.run ops).2)

/-- The handles in a request that have to be live are. -/
def Admits (g : Graph) : Op → Prop
  | .addEdge source target _ _ => g.contains source = true ∧ g.contains target = true
  | .retarget e target => (g.edge? e).isSome = true ∧ g.contains target = true
  | .addPhiInput phi _ => ∃ merge, g.kind? phi = some (.phi merge)
  | .setSnapshot n _ => g.contains n = true
  | _ => True

/-! ## Refusals

Every check of a change stands before its first write, so a refused change has written nothing. -/

namespace Change

variable {α β : Type}

theorem bind_apply (x : Change α) (f : α → Change β) : (x >>= f) g =
    match x g with
    | .ok a g' => f a g'
    | .error why g' => .error why g' := by
  change EStateM.bind x f g = _
  unfold EStateM.bind
  cases x g <;> rfl

theorem get_apply : (get : Change Graph) g = .ok g g := rfl

/-- The outcome of a change that answers `r` and that has written nothing where it is refused. -/
def untouched (g : Graph) (r : Except Error (α × Graph)) : EStateM.Result Error Graph α :=
  match r with
  | .ok (a, g') => .ok a g'
  | .error why => .error why g

theorem addPhiInput_apply (phi v : NodeId) :
    addPhiInput phi v g = untouched g ((g.addPhiInput phi v).map fun g' => ((), g')) := by
  simp only [addPhiInput, Graph.addPhiInput, bind_apply, get_apply]
  rcases g.kind? phi with - | k
  · rfl
  · cases k <;> rfl

theorem setSnapshot_apply (n : NodeId) (s : Snapshot) :
    setSnapshot n s g = untouched g ((g.setSnapshot n s).map fun g' => ((), g')) := by
  cases h : g.contains n <;> simp [setSnapshot, Graph.setSnapshot, bind_apply, get_apply, h] <;> rfl

theorem addEdge_apply (s t : NodeId) (k : EdgeKind) (p : Float) :
    addEdge s t k p g = untouched g (g.addEdge s t k p) := by
  cases hs : g.contains s <;> cases ht : g.contains t <;>
    simp [addEdge, Graph.addEdge, bind_apply, get_apply, hs, ht] <;> rfl

theorem retarget_apply (e : EdgeId) (t : NodeId) :
    retarget e t g = untouched g ((g.retarget e t).map fun g' => ((), g')) := by
  cases ht : g.contains t <;> cases he : g.edge? e <;>
    simp [retarget, Graph.retarget, bind_apply, get_apply, ht, he] <;> rfl

end Change

/-- The reply to an operation, and the graph behind it: the old one if it fails. -/
def settled (g : Graph) : Except Error Graph → Reply × Graph
  | .ok g' => (.done, g')
  | .error why => (.refused why, g)

theorem perform_of_untouched {c : Change Unit}
    (hop : op.change = (do c; return .done)) (hc : c g = Change.untouched g (r.map fun g' => ((), g'))) :
    g.perform op = g.settled r := by
  rw [perform, hop, Change.bind_apply, hc]
  cases r <;> rfl

theorem perform_addEdge : g.perform (.addEdge s t k p) =
    match g.addEdge s t k p with
    | .ok (e, g') => (.edge e, g')
    | .error why => (.refused why, g) := by
  rw [perform, Op.change, Change.bind_apply, Change.addEdge_apply]
  cases g.addEdge s t k p <;> rfl

theorem perform_retarget : g.perform (.retarget e t) = g.settled (g.retarget e t) :=
  perform_of_untouched rfl (Change.retarget_apply e t)

theorem perform_addPhiInput {phi v : NodeId} :
    g.perform (.addPhiInput phi v) = g.settled (g.addPhiInput phi v) :=
  perform_of_untouched rfl (Change.addPhiInput_apply phi v)

theorem perform_setSnapshot {n : NodeId} {s : Snapshot} :
    g.perform (.setSnapshot n s) = g.settled (g.setSnapshot n s) :=
  perform_of_untouched rfl (Change.setSnapshot_apply n s)

/-! ## The invariant -/

structure Upkept (g : Graph) : Prop where
  linked : g.Linked
  ends : ∀ {e d}, g.edge? e = some d → g.contains d.source = true ∧ g.contains d.target = true
  counted : g.Counted

namespace Upkept

theorem empty : Upkept {} := by
  have hout : ∀ n, ({} : Graph).outgoing n = [] := fun _ => rfl
  have hin : ∀ n, ({} : Graph).incoming n = [] := fun _ => rfl
  have hedge : ∀ e, ({} : Graph).edge? e = none := fun _ => rfl
  refine ⟨⟨?_, ?_, ?_, ?_⟩, ?_, rfl⟩
  · intro n e
    simp [hout, hedge]
  · intro n e
    simp [hin, hedge]
  · intro n
    simp [hout]
  · intro n
    simp [hin]
  · intro e d hd
    rw [hedge] at hd
    cases hd

theorem of_same (hg : g.Upkept) (h : SameWires g g') (hc : ∀ n, g'.contains n = g.contains n)
    (hcount : g'.Counted) : g'.Upkept := by
  refine ⟨hg.linked.of_same h, fun {e d} hd => ?_, hcount⟩
  rw [h.edge?] at hd
  rw [hc, hc]
  exact hg.ends hd

theorem addNode (hg : g.Upkept) (k : NodeKind) (I : List NodeId) : (g.addNode k I).2.Upkept := by
  have hold : ∀ n, g.contains n = true → (g.addNode k I).2.contains n = true := by
    intro n hn
    rw [contains, node?_addNode]
    split
    · rfl
    · exact hn
  refine ⟨hg.linked.of_same (.addNode g k I), ?_, hg.counted.addNode k I⟩
  intro e d hd
  exact ⟨hold _ (hg.ends hd).1, hold _ (hg.ends hd).2⟩

theorem addEdge (hg : g.Upkept) (h : g.addEdge s t k p = .ok (e, g')) : g'.Upkept := by
  obtain ⟨hs, ht, -, hl, hlive, -⟩ := addEdge_ok h
  have hc : ∀ n, g'.contains n = g.contains n := fun n => contains_congr (hl.node? n)
  refine ⟨hg.linked.links hl rfl rfl, ?_, hg.counted.of_same hl.nodeCount hc hlive⟩
  intro x d hd
  rw [hl.edge?] at hd
  rw [hc, hc]
  split at hd
  · cases hd
    exact ⟨hs, ht⟩
  · exact hg.ends hd

theorem retarget (hg : g.Upkept) (h : g.retarget e t = .ok g') : g'.Upkept := by
  obtain ⟨ht, d, hd, hm, hlive, -⟩ := retarget_ok h
  have hc : ∀ n, g'.contains n = g.contains n := fun n => contains_congr (hm.node? n)
  refine ⟨hg.linked.moves hd hm, ?_, hg.counted.of_same hm.nodeCount hc hlive⟩
  intro x y hy
  rw [hm.edge?] at hy
  rw [hc, hc]
  split at hy
  · cases hy
    exact ⟨(hg.ends hd).1, ht⟩
  · exact hg.ends hy

theorem modifyNode (hg : g.Upkept) (n : NodeId) (f : Node → Node) : (g.modifyNode n f).Upkept := by
  refine hg.of_same (.modifyNode g n f) (fun m => ?_) (hg.counted.modifyNode n f)
  rw [contains, contains, node?_modifyNode]
  split
  · exact Option.isSome_map
  · rfl

end Upkept

theorem Upkept.removeNode (hg : g.Upkept) (n : NodeId) : (g.removeNode n).Upkept := by
  by_cases hn : g.contains n = true
  · have hd := hg.linked.removeNode hn
    obtain ⟨-, hnode⟩ := g.removeNode_spec n
    refine ⟨hg.linked.detaches hd, ?_, hg.counted.removeNode n⟩
    intro e d he
    rw [hd.edge?, Option.filter_eq_some_iff, decide_eq_true_eq] at he
    obtain ⟨he, hs, ht⟩ := he
    rw [contains, contains, hnode, hnode, if_neg hs, if_neg ht]
    exact hg.ends he
  · rw [Graph.removeNode, if_neg hn]
    exact hg

/-! ## Runs -/

theorem Upkept.settled (hg : g.Upkept) (hr : ∀ g', r = .ok g' → g'.Upkept) :
    (g.settled r).2.Upkept := by
  cases r with
  | ok g' => exact hr g' rfl
  | error why => exact hg

theorem Upkept.perform (hg : g.Upkept) (op : Op) : (g.perform op).2.Upkept := by
  cases op with
  | addNode k I => exact hg.addNode k I
  | addEdge s t k p =>
    rw [perform_addEdge]
    split
    · next h => exact hg.addEdge h
    · exact hg
  | retarget e t => exact perform_retarget ▸ hg.settled fun _ h => hg.retarget h
  | removeNode n => exact hg.removeNode n
  | addPhiInput phi v =>
    refine perform_addPhiInput ▸ hg.settled fun g' h => ?_
    rw [(addPhiInput_ok h).2]
    exact hg.modifyNode phi _
  | setSnapshot n s =>
    refine perform_setSnapshot ▸ hg.settled fun g' h => ?_
    rw [(setSnapshot_ok h).2]
    exact hg.modifyNode n _
  | setStart n => exact ⟨⟨hg.linked.1, hg.linked.2, hg.linked.3, hg.linked.4⟩, hg.ends, hg.counted⟩
  | setFrequency n f => exact ⟨⟨hg.linked.1, hg.linked.2, hg.linked.3, hg.linked.4⟩, hg.ends, hg.counted⟩

theorem Upkept.run (hg : g.Upkept) (ops : List Op) : (g.run ops).2.Upkept := by
  induction ops generalizing g with
  | nil => exact hg
  | cons op ops ih => exact ih (hg.perform op)

theorem refused_iff (g : Graph) (op : Op) :
    (∃ why, (g.perform op).1 = .refused why) ↔ ¬ g.Admits op := by
  have hset : ∀ r : Except Error Graph, (∃ why, (g.settled r).1 = .refused why) ↔
    ∃ why, r = .error why := by
    intro r
    cases r <;> simp [settled]
  cases op with
  | addNode k I => exact iff_of_false (not_exists.2 fun _ h => by cases h) (not_not_intro trivial)
  | addEdge s t k p =>
    simp only [perform_addEdge, Admits, Graph.addEdge]
    cases hs : g.contains s <;> cases ht : g.contains t <;> simp
  | retarget e t =>
    simp only [perform_retarget, hset, Admits, Graph.retarget]
    cases ht : g.contains t <;> cases he : g.edge? e <;> simp
  | removeNode n => exact iff_of_false (not_exists.2 fun _ h => by cases h) (not_not_intro trivial)
  | addPhiInput phi v =>
    simp only [perform_addPhiInput, hset, Admits, Graph.addPhiInput]
    split
    · next h => simp [h]
    · next h => simp [h]
    · next k h hk =>
      simp only [Except.error.injEq, exists_eq', hk, Option.some.injEq, not_exists, true_iff]
      exact h
  | setSnapshot n s =>
    simp only [perform_setSnapshot, hset, Admits, Graph.setSnapshot]
    split <;> simp_all
  | setStart n => exact iff_of_false (not_exists.2 fun _ h => by cases h) (not_not_intro trivial)
  | setFrequency n f => exact iff_of_false (not_exists.2 fun _ h => by cases h) (not_not_intro trivial)

theorem perform_of_refused {why : Error} (h : (g.perform op).1 = .refused why) :
    (g.perform op).2 = g := by
  have hset : ∀ r : Except Error Graph, (g.settled r).1 = .refused why → (g.settled r).2 = g := by
    intro r hr
    cases r with
    | ok g' => cases hr
    | error why => rfl
  cases op with
  | addNode k I => cases h
  | addEdge s t k p =>
    rw [perform_addEdge] at h ⊢
    split at h
    · cases h
    · rfl
  | retarget e t =>
    rw [perform_retarget] at h ⊢
    exact hset _ h
  | removeNode n => cases h
  | addPhiInput phi v =>
    rw [perform_addPhiInput] at h ⊢
    exact hset _ h
  | setSnapshot n s =>
    rw [perform_setSnapshot] at h ⊢
    exact hset _ h
  | setStart n => cases h
  | setFrequency n f => cases h

/-! ## Handles -/

/-- What a request does to the number of handles, and which handle it gives out. -/
theorem perform_handles (g : Graph) (op : Op) :
    (g.nodeCount ≤ (g.perform op).2.nodeCount ∧ ∀ n, (g.perform op).1.node? = some n →
        g.nodeCount ≤ n.index ∧ n.index < (g.perform op).2.nodeCount) ∧
      g.edges.size ≤ (g.perform op).2.edges.size ∧ ∀ e, (g.perform op).1.edge? = some e →
        g.edges.size ≤ e.index ∧ e.index < (g.perform op).2.edges.size := by
  have hset : ∀ r : Except Error Graph,
      (∀ g', r = .ok g' → g'.nodeCount = g.nodeCount ∧ g'.edges.size = g.edges.size) →
      (g.settled r).1.node? = none ∧ (g.settled r).1.edge? = none ∧
        (g.settled r).2.nodeCount = g.nodeCount ∧ (g.settled r).2.edges.size = g.edges.size := by
    intro r hr
    cases r with
    | ok g' => exact ⟨rfl, rfl, hr g' rfl⟩
    | error why => exact ⟨rfl, rfl, rfl, rfl⟩
  -- A request that gives out no handle, and leaves both numbers as they are.
  have hsilent : ∀ x : Reply × Graph, x.1.node? = none ∧ x.1.edge? = none ∧
      x.2.nodeCount = g.nodeCount ∧ x.2.edges.size = g.edges.size →
      (g.nodeCount ≤ x.2.nodeCount ∧ ∀ n, x.1.node? = some n →
          g.nodeCount ≤ n.index ∧ n.index < x.2.nodeCount) ∧
        g.edges.size ≤ x.2.edges.size ∧ ∀ e, x.1.edge? = some e →
          g.edges.size ≤ e.index ∧ e.index < x.2.edges.size := by
    rintro x ⟨h1, h2, h3, h4⟩
    simp [h1, h2, h3, h4]
  cases op with
  | addNode k I =>
    refine ⟨⟨?_, ?_⟩, Nat.le_refl _, ?_⟩
    · exact Nat.le_of_lt (by simp [perform, Op.change, modifyGet, MonadStateOf.modifyGet,
        EStateM.modifyGet])
    · rintro n ⟨⟩
      simp [perform, Op.change, modifyGet, MonadStateOf.modifyGet, EStateM.modifyGet]
    · rintro e ⟨⟩
  | addEdge s t k p =>
    rw [perform_addEdge]
    split
    · next e g' h =>
      obtain ⟨-, -, rfl, hl, -, hsize⟩ := addEdge_ok h
      refine ⟨⟨hl.nodeCount.ge, ?_⟩, by rw [hsize]; exact Nat.le_succ _, ?_⟩
      · rintro n ⟨⟩
      · rintro e ⟨⟩
        exact ⟨Nat.le_refl _, by rw [hsize]; exact Nat.lt_succ_self _⟩
    · exact hsilent (.refused _, g) ⟨rfl, rfl, rfl, rfl⟩
  | retarget e t =>
    refine hsilent _ (perform_retarget ▸ hset _ fun g' h => ?_)
    obtain ⟨-, d, -, hm, -, hsize⟩ := retarget_ok h
    exact ⟨hm.nodeCount, hsize⟩
  | removeNode n =>
    refine hsilent _ ⟨rfl, rfl, (g.removeNode_spec n).1, ?_⟩
    change (g.removeNode n).edges.size = g.edges.size
    by_cases hn : g.contains n = true
    · rw [removeNode_eq hn, foldl_dropEdge (q := fun g => g.edges.size) fun _ _ => size_dropEdge]
      rfl
    · rw [Graph.removeNode, if_neg hn]
  | addPhiInput phi v =>
    refine hsilent _ (perform_addPhiInput ▸ hset _ fun g' h => ?_)
    rw [(addPhiInput_ok h).2]
    exact ⟨nodeCount_modifyNode _, rfl⟩
  | setSnapshot n s =>
    refine hsilent _ (perform_setSnapshot ▸ hset _ fun g' h => ?_)
    rw [(setSnapshot_ok h).2]
    exact ⟨nodeCount_modifyNode _, rfl⟩
  | setStart n => exact hsilent _ ⟨rfl, rfl, rfl, rfl⟩
  | setFrequency n f => exact hsilent _ ⟨rfl, rfl, rfl, rfl⟩

theorem run_ascending {pick : Reply → Option α} {index : α → Nat} {size : Graph → Nat}
    (hstep : ∀ g op, size g ≤ size (g.perform op).2 ∧ ∀ a, pick (g.perform op).1 = some a →
      size g ≤ index a ∧ index a < size (g.perform op).2) (g : Graph) (ops : List Op) :
    (∀ a ∈ (g.run ops).1.filterMap pick, size g ≤ index a) ∧
      ((g.run ops).1.filterMap pick).Pairwise fun a b => index a < index b := by
  induction ops generalizing g with
  | nil => exact ⟨by simp [run], by simp [run]⟩
  | cons op ops ih =>
    obtain ⟨hgrow, hnew⟩ := hstep g op
    obtain ⟨hlow, hpair⟩ := ih (g.perform op).2
    have hlow' : ∀ a ∈ ((g.perform op).2.run ops).1.filterMap pick, size g ≤ index a :=
      fun a ha => Nat.le_trans hgrow (hlow a ha)
    simp only [run]
    cases hp : pick (g.perform op).1 with
    | none =>
      rw [List.filterMap_cons_none hp]
      exact ⟨hlow', hpair⟩
    | some b =>
      rw [List.filterMap_cons_some hp]
      refine ⟨fun a ha => ?_, List.pairwise_cons.2 ⟨fun a ha => ?_, hpair⟩⟩
      · rcases List.mem_cons.1 ha with rfl | ha
        · exact (hnew a hp).1
        · exact hlow' a ha
      · exact Nat.lt_of_lt_of_le (hnew b hp).2 (hlow a ha)

/-! ## What the queries answer -/

/-- All that a graph says about its nodes and edges agrees. -/
structure Consistent (g : Graph) : Prop where
  outgoing : ∀ n e, (g.outgoing n).count e = if (g.edge? e).any (·.source = n) then 1 else 0
  incoming : ∀ n e, (g.incoming n).count e = if (g.edge? e).any (·.target = n) then 1 else 0
  ends : ∀ e d, g.edge? e = some d → g.contains d.source = true ∧ g.contains d.target = true
  live : g.live = g.liveNodes.length
  outDegree : ∀ n, g.outDegree n = (g.successorEdges n).length
  inDegree : ∀ n, g.inDegree n = (g.predecessorEdges n).length
  edgeCount : ((List.range g.nodeCount).map fun i => g.outDegree ⟨i⟩).sum = g.edgeCount

theorem count_of_mem_iff {l : List EdgeId} (hl : l.Nodup) {o : Option Edge}
    {p : Edge → Bool} (h : e ∈ l ↔ ∃ d, o = some d ∧ p d = true) :
    l.count e = if o.any p then 1 else 0 := by
  rw [hl.count]
  refine if_congr (h.trans ?_) rfl rfl
  cases o <;> simp

/-- The handles of the live edges, ascending. -/
def liveHandles (g : Graph) : List EdgeId :=
  ((List.range g.edges.size).map EdgeId.mk).filter fun e => (g.edge? e).isSome

theorem length_liveHandles (g : Graph) : g.liveHandles.length = g.edgeCount := by
  have hlist : g.edges.toList = ((List.range g.edges.size).map EdgeId.mk).map g.edge? := by
    refine List.ext_getElem? fun i => ?_
    simp only [List.map_map, List.getElem?_map, Array.getElem?_toList]
    by_cases hi : i < g.edges.size
    · simp [edge?, hi]
    · simp [hi]
  rw [edgeCount, liveEdges, hlist, List.filterMap_map, List.length_filterMap_eq_countP, liveHandles,
    ← List.countP_eq_length_filter]
  rfl

theorem Upkept.sum_outDegree (hg : g.Upkept) :
    ((List.range g.nodeCount).map fun i => g.outDegree ⟨i⟩).sum = g.edgeCount := by
  let listed := (List.range g.nodeCount).flatMap fun i => g.outgoing ⟨i⟩
  have hnodup : listed.Nodup := by
    refine List.nodup_flatMap.2 ⟨fun i _ => hg.linked.nodupOut _, ?_⟩
    refine List.nodup_range.imp fun {i j} hij e hi hj => ?_
    obtain ⟨d, hd, hs⟩ := hg.linked.outgoing.1 hi
    obtain ⟨d', hd', hs'⟩ := hg.linked.outgoing.1 hj
    rw [hd] at hd'
    cases hd'
    rw [hs] at hs'
    exact hij (NodeId.mk.inj hs')
  have hmem : ∀ e, e ∈ listed ↔ e ∈ g.liveHandles := by
    intro e
    simp only [listed, liveHandles, List.mem_flatMap, List.mem_range, List.mem_filter, List.mem_map,
      Option.isSome_iff_exists, hg.linked.outgoing]
    constructor
    · rintro ⟨i, -, d, hd, -⟩
      exact ⟨⟨e.index, lt_edgesSize hd, rfl⟩, d, hd⟩
    · rintro ⟨-, d, hd⟩
      obtain ⟨x, hx⟩ := Option.isSome_iff_exists.1 (hg.ends hd).1
      exact ⟨d.source.index, lt_nodeCount hx, d, hd, rfl⟩
  have hperm : listed.Perm g.liveHandles := by
    refine (List.perm_ext_iff_of_nodup hnodup ?_).2 hmem
    exact (List.nodup_range.map fun i j h => EdgeId.mk.inj h).filter _
  calc ((List.range g.nodeCount).map fun i => g.outDegree ⟨i⟩).sum
      = listed.length := by simp only [listed, List.length_flatMap, outDegree]
    _ = g.liveHandles.length := hperm.length_eq
    _ = g.edgeCount := g.length_liveHandles

theorem card_places (g : Graph) : g.places.card = g.liveNodes.length := by
  have hidx : g.slots.toList.zipIdx.Pairwise fun a b => a.2 ≠ b.2 := by
    refine List.pairwise_map.1 (?_ : (g.slots.toList.zipIdx.map Prod.snd).Nodup)
    rw [List.zipIdx_map_snd]
    exact List.nodup_range'
  have hnodup : (g.liveNodes.map fun x => x.1.index).Nodup := by
    rw [List.Nodup, List.pairwise_map, liveNodes, List.pairwise_filterMap]
    refine hidx.imp fun {a b} hab x hx y hy => ?_
    obtain ⟨d, -, rfl⟩ := Option.map_eq_some_iff.1 hx
    obtain ⟨d', -, rfl⟩ := Option.map_eq_some_iff.1 hy
    exact hab
  have hplaces : g.places = (g.liveNodes.map fun x => x.1.index).toFinset := by
    ext i
    rw [show i = (NodeId.mk i).index from rfl, mem_places, List.mem_toFinset, List.mem_map]
    constructor
    · intro h
      obtain ⟨d, hd⟩ := Option.isSome_iff_exists.1 h
      exact ⟨(⟨i⟩, d), mem_liveNodes.2 hd, rfl⟩
    · rintro ⟨x, hx, hi⟩
      rw [← NodeId.index_inj.1 hi, contains, mem_liveNodes.1 hx]
      rfl
  rw [hplaces, List.toFinset_card_of_nodup hnodup, List.length_map]

theorem Upkept.consistent (hg : g.Upkept) : g.Consistent where
  outgoing n e := count_of_mem_iff (hg.linked.nodupOut n) (by simp [hg.linked.outgoing])
  incoming n e := count_of_mem_iff (hg.linked.nodupIn n) (by simp [hg.linked.incoming])
  ends _ _ hd := hg.ends hd
  live := hg.counted.trans g.card_places
  outDegree n := by rw [Graph.outDegree, ← hg.linked.map_successorEdges, List.length_map]
  inDegree n := by rw [Graph.inDegree, ← hg.linked.map_predecessorEdges, List.length_map]
  edgeCount := hg.sum_outDegree

theorem Consistent.upkept (hg : g.Consistent) : g.Upkept := by
  have hlist : ∀ {l : List EdgeId} {p : Edge → Bool},
      (∀ e, l.count e = if (g.edge? e).any p then 1 else 0) →
        (∀ e, e ∈ l ↔ ∃ d, g.edge? e = some d ∧ p d = true) ∧ l.Nodup := by
    intro l p hl
    refine ⟨fun e => ?_, List.nodup_iff_count_le_one.2 fun e => ?_⟩
    · rw [← List.count_pos_iff, hl]
      cases g.edge? e with
      | none => simp
      | some d => by_cases hd : p d = true <;> simp [hd]
    · rw [hl]
      split <;> simp
  refine ⟨⟨fun {n e} => ?_, fun {n e} => ?_, fun n => (hlist (hg.outgoing n)).2,
    fun n => (hlist (hg.incoming n)).2⟩, fun {e d} => hg.ends e d, hg.live.trans g.card_places.symm⟩
  · simpa using (hlist (hg.outgoing n)).1 e
  · simpa using (hlist (hg.incoming n)).1 e

theorem nodup_of_ascending {index : α → Nat} {l : List α}
    (h : l.Pairwise fun a b => index a < index b) : l.Nodup := by
  refine h.imp fun {a b} hab heq => ?_
  subst heq
  exact Nat.lt_irrefl _ hab

/-- After every sequence of requests the graph is consistent, no handle has been given out twice, and
the next request is refused exactly when it names something that is not there, and then changes
nothing. -/
theorem run_consistent (ops : List Op) : (run {} ops).2.Consistent ∧
      ((run {} ops).1.filterMap Reply.node?).Nodup ∧ ((run {} ops).1.filterMap Reply.edge?).Nodup ∧
      ∀ op, ((∃ why, ((run {} ops).2.perform op).1 = .refused why) ↔ ¬ (run {} ops).2.Admits op) ∧
        ∀ why, ((run {} ops).2.perform op).1 = .refused why →
          ((run {} ops).2.perform op).2 = (run {} ops).2 := by
  refine ⟨(Upkept.empty.run ops).consistent, ?_, ?_, fun op => ⟨refused_iff _ op, ?_⟩⟩
  · exact nodup_of_ascending (run_ascending (fun g op => (perform_handles g op).1) {} ops).2
  · exact nodup_of_ascending (run_ascending (fun g op => (perform_handles g op).2) {} ops).2
  · exact fun why h => perform_of_refused h

end Graph

end StackLift
