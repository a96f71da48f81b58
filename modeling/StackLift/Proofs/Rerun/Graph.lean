import StackLift.Build.Unit
import StackLift.Proofs.Flows

/-!
# Graphs without their numbers

The only numbers in a graph are the probabilities of its edges and the frequencies of its loops.
`Graph.mapOdds φ` rewrites all of them by `φ` and leaves the rest as it is. No operation on graphs looks
at a number to decide what to do, so all of them commute with `mapOdds`: what two graphs have in common
without their numbers, they still have in common after the same operation on both.

The flow that estimates the loops is all about numbers, but where it goes next depends on none of them
(`flows_mapOdds`): it finishes the loops of two such graphs in the same order.
-/
namespace StackLift

variable {e : EdgeId} {n : NodeId}

def Edge.mapOdds (φ : Float → Float) (d : Edge) : Edge := { d with probability := φ d.probability }

namespace Graph

/-- Rewrites all probabilities and frequencies. -/
def mapOdds (φ : Float → Float) (g : Graph) : Graph :=
  { g with
    edges := g.edges.map (Option.map (Edge.mapOdds φ))
    frequencies := g.frequencies.map (Prod.map id φ) }

section MapOdds

variable {φ : Float → Float} {g h : Graph} {n v a b : NodeId}

theorem mapOdds_id : g.mapOdds id = g := by
  have hedge : Option.map (Edge.mapOdds id) = id := by
    funext o
    cases o <;> rfl
  unfold mapOdds
  rw [hedge, Array.map_id, Prod.map_id, List.map_id]

/-! ## Queries -/

theorem edge?_mapOdds : (g.mapOdds φ).edge? e = (g.edge? e).map (Edge.mapOdds φ) := by
  unfold edge? mapOdds
  rw [Array.getElem?_map]
  cases g.edges[e.index]? with
  | none => rfl
  | some o => cases o <;> rfl

theorem successors_mapOdds : (g.mapOdds φ).successors n = g.successors n := by
  simp only [successors, successorEdges, List.map_filterMap, edge?_mapOdds, Option.map_map]
  rfl

theorem predecessorEdges_mapOdds :
    (g.mapOdds φ).predecessorEdges n = (g.predecessorEdges n).map (Prod.map id (Edge.mapOdds φ)) := by
  simp only [predecessorEdges, List.map_filterMap, edge?_mapOdds, Option.map_map]
  rfl

theorem predecessors_mapOdds : (g.mapOdds φ).predecessors n = g.predecessors n := by
  simp only [predecessors, predecessorEdges_mapOdds, List.map_map]
  rfl

theorem carriers_congr (hs : g.slots = h.slots) (roots : List NodeId) :
    g.carriers roots = h.carriers roots := by
  have hlive : g.liveNodes = h.liveNodes := by simp only [liveNodes, hs]
  have hfrom : ∀ (fuel : Nat) (found work : List NodeId),
      g.carriersFrom fuel found work = h.carriersFrom fuel found work := by
    intro fuel
    induction fuel with
    | zero => exact fun _ _ => rfl
    | succ fuel ih =>
      intro found work
      cases work with
      | nil => rfl
      | cons value work =>
        unfold carriersFrom
        rw [hlive]
        exact congrArg _ (funext fun r => ih r.1 r.2)
  unfold carriers nodeCount
  rw [hs, hfrom]

/-! ## Changes -/

theorem addPhiInput_mapOdds :
    (g.mapOdds φ).addPhiInput n v = (g.addPhiInput n v).map (mapOdds φ) := by
  have hk : (g.mapOdds φ).kind? n = g.kind? n := rfl
  unfold addPhiInput
  rw [hk]
  split <;> rfl

theorem setSnapshot_mapOdds {s : Snapshot} :
    (g.mapOdds φ).setSnapshot n s = (g.setSnapshot n s).map (mapOdds φ) := by
  have hc : (g.mapOdds φ).contains n = g.contains n := rfl
  unfold setSnapshot
  rw [hc]
  split <;> rfl

theorem addEdge_mapOdds {k : EdgeKind} :
    (g.mapOdds φ).addEdge a b k (φ p) = (g.addEdge a b k p).map (Prod.map id (mapOdds φ)) := by
  have hc : ∀ n, (g.mapOdds φ).contains n = g.contains n := fun _ => rfl
  unfold addEdge
  rw [hc, hc]
  split
  · rfl
  · split
    · rfl
    · simp [Except.map, mapOdds, Edge.mapOdds]

theorem retarget_mapOdds : (g.mapOdds φ).retarget e n = (g.retarget e n).map (mapOdds φ) := by
  have hc : (g.mapOdds φ).contains n = g.contains n := rfl
  unfold retarget
  rw [hc, edge?_mapOdds]
  split
  · rfl
  · cases g.edge? e with
    | none => rfl
    | some d => simp [Except.map, mapOdds, Edge.mapOdds, Array.map_setIfInBounds]

theorem dropEdge_mapOdds : (g.mapOdds φ).dropEdge e = (g.dropEdge e).mapOdds φ := by
  unfold dropEdge
  rw [edge?_mapOdds]
  cases g.edge? e with
  | none => rfl
  | some d => simp [mapOdds, Edge.mapOdds, Array.map_setIfInBounds]

theorem removeNode_mapOdds : (g.mapOdds φ).removeNode n = (g.removeNode n).mapOdds φ := by
  have hc : (g.mapOdds φ).contains n = g.contains n := rfl
  unfold removeNode
  rw [hc]
  split
  · rw [← List.foldl_hom (mapOdds φ) fun _ _ => dropEdge_mapOdds]
    simp only [mapOdds, List.filter_map]
    rfl
  · rfl

/-! ## Tidying and checking -/

theorem fold_mapOdds : (g.mapOdds φ).fold n = (g.fold n).map (mapOdds φ) := by
  have hk : ∀ a p, (g.mapOdds φ).kindIs a p = g.kindIs a p := fun _ _ => rfl
  unfold fold
  rw [predecessorEdges_mapOdds, successors_mapOdds]
  rcases g.predecessorEdges n with _ | ⟨x, _ | ⟨y, ys⟩⟩
  · rfl
  · rcases g.successors n with _ | ⟨s, _ | ⟨t, ts⟩⟩
    · rfl
    · simp only [List.map_cons, List.map_nil, Prod.map_fst, Prod.map_snd, id, Edge.mapOdds, hk,
        retarget_mapOdds]
      split
      · rfl
      · cases g.retarget x.1 s with
        | error e => rfl
        | ok g' => exact congrArg Except.ok removeNode_mapOdds
    · rfl
  · rfl

theorem tidy_mapOdds : (g.mapOdds φ).tidy = g.tidy.map (mapOdds φ) := by
  have hfold : ∀ (ns : List NodeId) (g : Graph),
      ns.foldlM fold (g.mapOdds φ) = (ns.foldlM fold g).map (mapOdds φ) := by
    intro ns
    induction ns with
    | nil => exact fun g => rfl
    | cons n ns ih =>
      intro g
      rw [List.foldlM_cons, List.foldlM_cons, fold_mapOdds]
      cases g.fold n with
      | error e => rfl
      | ok g' => exact ih g'
  have horphans : (g.mapOdds φ).orphans = g.orphans := rfl
  unfold tidy
  rw [horphans, List.foldl_hom (mapOdds φ) fun _ _ => removeNode_mapOdds]
  exact hfold _ _

theorem check_mapOdds : (g.mapOdds φ).check = g.check := rfl

end MapOdds

end Graph

/-! ## The flow -/

namespace Graph

variable {φ : Float → Float} {g h : Graph}

theorem forwardDegree_mapOdds : Flow.forwardDegree (g.mapOdds φ) n = Flow.forwardDegree g n := by
  unfold Flow.forwardDegree
  rw [predecessors_mapOdds]
  rfl

theorem flows_mapOdds (hg : g.mapOdds φ = h.mapOdds φ) : Flow.Match Eq False g h where
  start := by
    have hstart : g.start = h.start := congrArg (·.start) hg
    rw [hstart]
    cases h.start with
    | none => exact .none
    | some n => exact .some rfl
  size := by simpa [mapOdds] using congrArg (·.edges.size) hg
  same := by
    rintro n _ n' _ rfl rfl
    exact Iff.rfl
  order := by
    rintro n _ n' _ rfl rfl
    exact Iff.rfl
  kind := by
    rintro n _ rfl
    have hkind : g.kind? n = h.kind? n := congrArg (·.kind? n) hg
    rw [hkind]
    cases h.kind? n with
    | none => exact .none
    | some k =>
      refine .some ⟨rfl, Iff.rfl, fun ho => ?_⟩
      cases ho with
      | none => rfl
      | some hab => rw [hab]
  isHeader := by
    rintro n _ rfl
    change Flow.isHeader (g.mapOdds φ) n = Flow.isHeader (h.mapOdds φ) n
    rw [hg]
  degree := by
    rintro n _ rfl
    rw [← forwardDegree_mapOdds (φ := φ), hg, forwardDegree_mapOdds]
  edges := by
    rintro n _ rfl
    have hsucc : List.Forall₂ Eq (g.successors n) (h.successors n) := by
      rw [← successors_mapOdds (φ := φ), hg, successors_mapOdds]
      exact List.forall₂_refl _
    unfold successors at hsucc
    rw [List.forall₂_map_left_iff, List.forall₂_map_right_iff] at hsucc
    exact hsucc.imp fun _ _ htarget => ⟨htarget, False.elim⟩

theorem loopFrequencies_headers (hg : g.mapOdds φ = h.mapOdds φ) :
    g.loopFrequencies.map (·.header) = h.loopFrequencies.map (·.header) := by
  rw [← List.forall₂_eq_eq_eq, List.forall₂_map_left_iff, List.forall₂_map_right_iff]
  exact (flows_mapOdds hg).loopFrequencies.imp fun _ _ hl => hl.header

end Graph

end StackLift
