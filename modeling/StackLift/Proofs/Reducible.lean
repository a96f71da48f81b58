import StackLift.Proofs.Chart

/-!
# Which bodies have a block map

`ofBody` looks at one numbering of the block graph, and asks of every edge that goes back in it
whether the dominator table accepts it. The answer is a property of the graph alone: a valid body is
refused exactly when its block graph has a cycle that control can enter at more than one place.
-/
namespace StackLift

namespace BlockMap

/-- The order of the vertices if the search tries the successors as `next` lists them. -/
def orderAlong (t : Partition) (next : Vertex → List Vertex) : List Vertex :=
  (Search.visit next t.searchDepth { seen := [.exit, .unwind] } (.code ⟨0⟩)).done ++
    [.exit, .unwind]

/-- All edges that go back in that order are accepted. -/
def acceptsAlong (t : Partition) (next : Vertex → List Vertex) : Bool :=
  accepts (edgesAlong next (orderAlong t next))

theorem accepts_edgesOf (b : Body) :
    accepts (edgesOf b) = acceptsAlong b.partition b.partition.successors := rfl

theorem acceptsAlong_iff {b : Body} (hb : b.Valid) {next : Vertex → List Vertex}
    (hnext : ∀ v x, x ∈ next v ↔ x ∈ b.partition.successors v) :
    acceptsAlong b.partition next = true ↔ ¬ b.partition.flow.Irreducible := by
  obtain ⟨left, hl, hf, -⟩ := exists_numbering_of_same hb hnext
  rw [acceptsAlong, orderAlong, hl, hf.accepts_iff]
  exact not_congr (FlowGraph.irreducible_congr (g := b.partition.flow) rfl hnext)

/-- **Irreducibility is decided exactly.** A valid body is refused as not supported if and only if its
block graph, tests of handlers included, has a cycle none of whose blocks dominates all of it, and has
a map otherwise. In whatever order the search tries the successors of a block, the outcome is the
same. -/
theorem ofBody_decides_reducibility (b : Body) (hv : b.validate = .ok ()) :
    ((∃ why, ofBody b = .error (.notSupported why)) ↔ b.partition.flow.Irreducible) ∧
      (¬ b.partition.flow.Irreducible → ∃ m, ofBody b = .ok m) ∧
      ∀ next : Vertex → List Vertex, (∀ v x, x ∈ next v ↔ x ∈ b.partition.successors v) →
        (acceptsAlong b.partition next = true ↔ ∃ m, ofBody b = .ok m) := by
  have hb := Body.valid_of_validate hv
  have hiff : accepts (edgesOf b) = true ↔ ¬ b.partition.flow.Irreducible := by
    rw [accepts_edgesOf]
    exact acceptsAlong_iff hb fun _ _ => Iff.rfl
  rcases ofBody_cases hv with ⟨ha, hm⟩ | ⟨ha, a, c, hm⟩
  · have hr := hiff.1 ha
    refine ⟨⟨fun h => ?_, fun h => absurd h hr⟩, fun _ => ⟨_, hm⟩, fun next hnext => ?_⟩
    · obtain ⟨why, hwhy⟩ := h
      rw [hm] at hwhy
      cases hwhy
    · rw [acceptsAlong_iff hb hnext]
      exact ⟨fun _ => ⟨_, hm⟩, fun _ => hr⟩
  · have hi : b.partition.flow.Irreducible := by
      by_contra hr
      rw [hiff.2 hr] at ha
      cases ha
    refine ⟨⟨fun _ => hi, fun _ => ⟨_, hm⟩⟩, fun h => absurd hi h, fun next hnext => ?_⟩
    rw [acceptsAlong_iff hb hnext]
    refine ⟨fun h => absurd hi h, fun h => ?_⟩
    obtain ⟨m, hm'⟩ := h
    rw [hm] at hm'
    cases hm'

/-- Two blocks lead to each other, and control can enter either of them first. -/
def twoEntries : Body where
  code := #[.load 0, .ifZero .eq ⟨4⟩, .nop, .goto ⟨4⟩, .load 0, .ifZero .ne ⟨2⟩, .ret]
  maxLocals := 1
  handlers := []

theorem twoEntries_irreducible : twoEntries.validate = .ok
    () ∧ twoEntries.partition.flow.Irreducible := by
  have hv : twoEntries.validate = .ok () := rfl
  refine ⟨hv, (ofBody_decides_reducibility twoEntries hv).1.1 ?_⟩
  rcases ofBody_cases hv with ⟨ha, -⟩ | ⟨-, a, c, hm⟩
  · have hrefused : accepts (edgesOf twoEntries) = false := by decide +kernel
    rw [hrefused] at ha
    cases ha
  · exact ⟨_, hm⟩

end BlockMap

end StackLift
