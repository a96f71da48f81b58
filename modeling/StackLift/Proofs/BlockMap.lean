import StackLift.Proofs.Numbering
import StackLift.Proofs.Partition

/-!
# The numbers of the blocks

`ofBody` numbers the vertices of a body in the order in which a depth-first search leaves them. Here
is what that gives: every vertex that control can go on at has a number (`Ordered`), the edges by
number are the successors by vertex (`mem_edgesOf`), and each block but the entry has a predecessor
with a smaller number (`numbered_predsOf`).
-/
namespace StackLift

/-- The block graph of a body. -/
def Partition.flow (t : Partition) : FlowGraph Vertex := ⟨t.successors, .code ⟨0⟩⟩

namespace BlockMap

/-! ## Order -/

/-- How the vertices of a valid body are numbered: the entry first, the two ways out last. -/
structure Ordered (b : Body) (left : List Vertex) : Prop
    extends Numbering b.partition.flow [.exit, .unwind] left where
  eq : order b.partition = left ++ [Vertex.exit, Vertex.unwind]
  known : ∀ v ∈ left, v ∈ Partition.vertices b

variable {b : Body} {left : List Vertex}

theorem exists_numbering_of_same (hb : b.Valid) {next : Vertex → List Vertex}
    (hnext : ∀ v x, x ∈ next v ↔ x ∈ b.partition.successors v) :
    ∃ left, (Search.visit next b.partition.searchDepth { seen := [.exit, .unwind] }
        (.code ⟨0⟩)).done = left ∧
      Numbering ⟨next, .code ⟨0⟩⟩ [.exit, .unwind] left ∧ left ⊆ Partition.vertices b := by
  have hlen := Partition.vertices_length b
  have hroot : Vertex.code ⟨0⟩ ∈ Partition.vertices b :=
    Partition.code_mem_vertices.2 (Body.zero_mem_leaders hb.nonempty)
  refine exists_numbering (f := ⟨next, .code ⟨0⟩⟩) hroot ?_ (List.subset_append_right _ _) (by simp)
    (by simp) ?_ b.partition.searchDepth (by omega)
  · exact fun u hu x hx => Partition.successors_vertices hb u hu ((hnext u x).1 hx)
  · intro v hv
    refine List.eq_nil_iff_forall_not_mem.2 fun x hx => ?_
    rw [hnext] at hx
    rcases List.mem_pair.1 hv with rfl | rfl <;> cases hx

theorem exists_ordered (hb : b.Valid) : ∃ left, Ordered b left := by
  have hsame : ∀ v x, x ∈ b.partition.successors v ↔ x ∈ b.partition.successors v :=
    fun _ _ => Iff.rfl
  obtain ⟨left, hl, hf, hk⟩ := exists_numbering_of_same hb hsame
  exact ⟨left, hf, by rw [order, hl], hk⟩

theorem Ordered.nodup_order (ho : Ordered b left) : (order b.partition).Nodup := ho.eq ▸ ho.nodup

/-! ## Edges by number -/

/-- The edges of a body as `ofBody` lists them. -/
def edgesOf (b : Body) : Array (List Nat) := edgeTable b.partition (order b.partition)

/-- The predecessors of a body's blocks as `ofBody` looks them up. -/
def predsOf (b : Body) (n : Nat) : List Nat :=
  ((List.range (edgesOf b).size).map (sources (links (edgesOf b)))).toArray[n]?.getD []

theorem edgesOf_eq (b : Body) :
    edgesOf b = edgesAlong b.partition.flow.next (order b.partition) := rfl

theorem predsOf_eq (b : Body) : predsOf b = predsIn (edgesOf b) := rfl

@[simp] theorem edgesOf_size (b : Body) : (edgesOf b).size = (order b.partition).length :=
  edgesAlong_size _ _

section

variable (ho : Ordered b left) {a c : Nat} {v : Vertex}
include ho

theorem mem_edgesOf : c ∈ (edgesOf b)[a]?.getD [] ↔ ∃ v x, (order b.partition)[a]? = some v ∧
      x ∈ b.partition.successors v ∧ (order b.partition)[c]? = some x :=
  mem_edgesAlong ho.nodup_order

theorem mem_predsOf : a ∈ predsOf b c ↔ c ∈ (edgesOf b)[a]?.getD [] := by
  rw [predsOf_eq, edgesOf_eq]
  exact mem_predsIn ho.nodup_order

theorem Ordered.mem_left {x : Vertex} (hv : (order b.partition)[a]? = some v)
    (hx : x ∈ b.partition.successors v) : v ∈ left := by
  have hm := List.mem_of_getElem? hv
  rw [ho.eq] at hm
  exact ho.toNumbering.mem_left hm hx

theorem Ordered.getElem?_zero : (order b.partition)[0]? = some (.code ⟨0⟩) := by
  rw [ho.eq]
  exact ho.toNumbering.getElem?_zero

theorem Ordered.exists_number (hv : v ∈ left ++ [.exit, .unwind]) :
    ∃ i, i < (order b.partition).length ∧ (order b.partition)[i]? = some v := by
  rw [ho.eq]
  obtain ⟨i, hi⟩ := List.mem_iff_getElem?.1 hv
  exact ⟨i, (List.getElem?_eq_some_iff.1 hi).1, hi⟩

theorem numbered_predsOf : Numbered (predsOf b) (order b.partition).length := by
  rw [predsOf_eq, edgesOf_eq, ho.eq]
  exact ho.numbered

end

end BlockMap

end StackLift
