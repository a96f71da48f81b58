import StackLift.Proofs.Duo.Twins
import StackLift.Proofs.Flows

/-!
# Loop frequencies of two builds

Twin graphs have the same control edges with the same probabilities, and the order of their nodes is the
same. So both builds expect every loop to go round as often (`Twins.flows`).
-/
namespace StackLift

namespace Pairing

open Flow

variable {P : Pairing} {g h : Graph} {n m : NodeId}

section

variable (ht : P.Twins g h) (hc : P.control n m)
include ht hc

theorem Twins.successorEdges :
    List.Forall₂ (fun a b => a.1 = b.1 ∧ P.SameEdge a.2 b.2) (g.successorEdges n)
    (h.successorEdges m) := by
  unfold Graph.successorEdges
  rw [ht.wires.outgoing hc]
  exact ht.wires.edges _

theorem Twins.successors : List.Forall₂ P.control (g.successors n) (h.successors m) := by
  unfold Graph.successors
  rw [List.forall₂_map_left_iff, List.forall₂_map_right_iff]
  exact (ht.successorEdges hc).imp fun _ _ h => h.2.target

theorem Twins.predecessors : List.Forall₂ P.control (g.predecessors n) (h.predecessors m) := by
  unfold Graph.predecessors
  rw [List.forall₂_map_left_iff, List.forall₂_map_right_iff]
  exact (ht.predecessorEdges hc).imp fun _ _ h => h.2.source

theorem Twins.forwardDegree : forwardDegree g n = forwardDegree h m := by
  have hpred := ht.predecessors hc
  unfold Flow.forwardDegree
  generalize g.predecessors n = l at hpred
  generalize h.predecessors m = l' at hpred
  induction hpred with
  | nil => rfl
  | cons hp _ ih =>
    rw [List.countP_cons, List.countP_cons, ih, ht.kindIs (ht.sane.twin hp) fun hk => by cases hk <;> rfl]

end

theorem Twins.acts (ht : P.Twins g h) {k k' : NodeKind} (hk : k.Twin P.twin k') :
    Acts P.control k k' := by
  refine ⟨hk.isMerge, ?_, fun ho => optionRel_any ho fun a b hab => Bool.eq_iff_iff.2 ?_⟩
  · cases hk with
    | same h => constructor <;> (rintro ⟨b, rfl⟩; cases h)
    | _ => simp
  · rw [beq_iff_eq, beq_iff_eq]
    cases hk with
    | loopExit h =>
      rw [NodeKind.loopExit.injEq, NodeKind.loopExit.injEq, ht.sane.eq_iff h (ht.sane.twin hab)]
    | same h => constructor <;> (rintro rfl; cases h)
    | _ => simp

theorem Twins.flows (ht : P.Twins g h) : Match P.control True g h where
  start := ht.wires.start
  size := ht.wires.size
  same := ht.sane.control_iff
  order := ht.sane.order
  kind hc := optionRel_imp (ht.kind (ht.sane.twin hc)) fun _ _ => ht.acts
  isHeader hc := ht.kindIs (ht.sane.twin hc) fun hk => by cases hk <;> rfl
  degree := ht.forwardDegree
  edges hc := (ht.successorEdges hc).imp fun _ _ h => ⟨h.2.target, fun _ => h.2.probability⟩

end Pairing

end StackLift
