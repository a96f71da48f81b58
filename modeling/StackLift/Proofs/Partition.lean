import Mathlib.Algebra.Order.BigOperators.Group.List
import Mathlib.Algebra.Order.Ring.Nat
import StackLift.Flow.Vertex
import StackLift.Proofs.BitSet

/-!
# Runs of instructions and the vertices of the block graph

What a body that passes `validate` promises (`Body.Valid`), where its runs start and end, and the
finite list of vertices that its block graph stays in (`Partition.vertices`).
-/
namespace StackLift

namespace Body

variable {b : Body} {i : Instruction Position} {p t : Position} {n : Nat}

theorem mem_lines : (i, p) ∈ b.lines ↔ b.instruction? p = some i := by
  unfold lines instruction?
  simp only [List.mem_map, Prod.exists, Prod.mk.injEq]
  constructor
  · rintro ⟨j, n, hm, rfl, rfl⟩
    simpa using List.mem_zipIdx_iff_getElem?.1 hm
  · intro h
    exact ⟨i, p.index, List.mem_zipIdx_iff_getElem?.2 (by simpa using h), rfl, rfl⟩

theorem instruction?_isSome (h : p.index < b.size) : ∃ i, b.instruction? p = some i := by
  exact ⟨b.code[p.index], Array.getElem?_eq_getElem h⟩

theorem lt_size_of_instruction? (h : b.instruction? p = some i) : p.index < b.size := by
  exact (Array.getElem?_eq_some_iff.1 h).1

/-- What `validate` checks. -/
structure Valid (b : Body) : Prop where
  nonempty : 0 < b.size
  target : ∀ {p i}, b.instruction? p = some i → ∀ t ∈ i.branchTargets, t.index < b.size
  arity : ∀ {p ks ts d}, b.instruction? p = some (.switch ks ts d) → ks.length = ts.length
  ending : ∀ {p i}, b.instruction? p = some i → i.fallsThrough = true → p.index + 1 < b.size
  handler : ∀ h ∈ b.handlers, h.start.index < h.stop.index ∧ h.stop.index ≤ b.size ∧
    h.entry.index < b.size

theorem valid_of_validate (h : b.validate = .ok ()) : b.Valid := by
  have hd : b.defect? = none := by
    unfold validate at h
    split at h
    · cases h
    · assumption
  simp only [defect?, Option.or_eq_none_iff, List.findSome?_eq_none_iff] at hd
  obtain ⟨⟨hlines, hend⟩, hhandlers⟩ := hd
  have hback : ∃ i, b.code.back? = some i ∧ i.fallsThrough = false := by
    unfold endDefect? at hend
    split at hend
    · cases hend
    · next i hi =>
      split at hend
      · cases hend
      · next hf => exact ⟨i, hi, by simpa using hf⟩
  have hline : ∀ {p i}, b.instruction? p = some i → b.instructionDefect? i p = none :=
    fun {p i} hi => hlines (i, p) (mem_lines.2 hi)
  have hfind : ∀ {p i}, b.instruction? p = some i →
      i.branchTargets.find? (fun t => decide (b.size ≤ t.index)) = none := by
    intro p i hi
    have := hline hi
    unfold instructionDefect? at this
    split at this
    · cases this
    · assumption
  refine ⟨?_, ?_, ?_, ?_, ?_⟩
  · obtain ⟨i, hi, -⟩ := hback
    rw [Array.back?_eq_getElem?] at hi
    have := (Array.getElem?_eq_some_iff.1 hi).1
    unfold size
    omega
  · intro p i hi t ht
    have := List.find?_eq_none.1 (hfind hi) t ht
    simpa using this
  · intro p ks ts d hi
    have := hline hi
    unfold instructionDefect? at this
    rw [hfind hi] at this
    simp only at this
    split at this
    · cases this
    · next h => exact Decidable.not_not.1 h
  · intro p i hi hf
    have hp := lt_size_of_instruction? hi
    rcases Nat.lt_or_ge (p.index + 1) b.size with hlt | hge
    · exact hlt
    · obtain ⟨j, hj, hjf⟩ := hback
      rw [Array.back?_eq_getElem?] at hj
      have : b.code.size - 1 = p.index := by
        unfold size at hp hge
        omega
      rw [this] at hj
      unfold instruction? at hi
      rw [hj] at hi
      cases hi
      rw [hjf] at hf
      cases hf
  · intro h hh
    have := hhandlers h hh
    unfold handlerDefect? at this
    split at this
    · cases this
    · next hn =>
      simp only [Bool.or_eq_true, decide_eq_true_eq, not_or, Nat.not_le, Nat.not_lt] at hn
      exact ⟨hn.1.1, hn.1.2, hn.2⟩

/-! ## Leaders -/

theorem mem_leaders : p ∈ b.leaders ↔ p ∈ b.seeds ∧ p.index < b.size := by
  unfold leaders
  rw [← List.foldl_map (f := Position.index) (g := BitSet.insert)]
  simp only [List.mem_map, BitSet.mem_toList, BitSet.contains_insertAll (BitSet.wide_empty _),
    BitSet.contains_empty, BitSet.empty_capacity]
  constructor
  · rintro ⟨n, ⟨⟨q, hq, rfl⟩, hn⟩ | h, rfl⟩
    · exact ⟨hq, hn⟩
    · cases h
  · rintro ⟨hp, hn⟩
    exact ⟨p.index, .inl ⟨⟨p, hp, rfl⟩, hn⟩, rfl⟩

theorem leaders_sorted (b : Body) : b.leaders.Pairwise fun p q => p.index < q.index := by
  unfold leaders
  rw [List.pairwise_map]
  exact List.Pairwise.filter _ List.pairwise_lt_range

theorem zero_mem_leaders (h : 0 < b.size) : (⟨0⟩ : Position) ∈ b.leaders :=
  mem_leaders.2 ⟨by simp [seeds], h⟩

theorem target_mem_leaders (hb : b.Valid)
    (hi : b.instruction? p = some i) (ht : t ∈ i.branchTargets) : t ∈ b.leaders := by
  refine mem_leaders.2 ⟨?_, hb.target hi t ht⟩
  simp only [seeds, List.mem_cons, List.mem_append, List.mem_flatMap, Prod.exists]
  exact .inl (.inr ⟨i, p, mem_lines.2 hi, .inl ht⟩)

theorem next_mem_leaders (hp : b.endsBlockAt p = true)
    (hlt : p.index + 1 < b.size) : p.next ∈ b.leaders := by
  refine mem_leaders.2 ⟨?_, hlt⟩
  obtain ⟨i, hi⟩ := instruction?_isSome (b := b) (p := p) (by omega)
  simp only [seeds, List.mem_cons, List.mem_append, List.mem_flatMap, Prod.exists]
  exact .inl (.inr ⟨i, p, mem_lines.2 hi, .inr (by simp [hp])⟩)

theorem entry_mem_leaders (hb : b.Valid) {h : Handler} (hh : h ∈ b.handlers) :
    h.entry ∈ b.leaders := by
  refine mem_leaders.2 ⟨?_, (hb.handler h hh).2.2⟩
  simp only [seeds, List.mem_cons, List.mem_append, List.mem_flatMap]
  exact .inr ⟨h, hh, by simp⟩

/-! ## Handlers of a position -/

theorem coveringIn_length (p : Position) (hs : List (Handler × Nat)) :
    (coveringIn p hs).length ≤ hs.length := by
  induction hs with
  | nil => simp [coveringIn]
  | cons h hs ih =>
    obtain ⟨h, n⟩ := h
    unfold coveringIn
    split
    · split
      · simp
      · simpa using ih
    · simp only [List.length_cons]
      omega

theorem mem_coveringIn {hs : List (Handler × Nat)}
    (h : n ∈ coveringIn p hs) : ∃ a, (a, n) ∈ hs := by
  induction hs with
  | nil => cases h
  | cons x hs ih =>
    obtain ⟨a, k⟩ := x
    unfold coveringIn at h
    split at h
    · split at h
      · obtain rfl : n = k := by simpa using h
        exact ⟨a, by simp⟩
      · rcases List.mem_cons.1 h with rfl | h
        · exact ⟨a, by simp⟩
        · obtain ⟨c, hc⟩ := ih h
          exact ⟨c, by simp [hc]⟩
    · obtain ⟨c, hc⟩ := ih h
      exact ⟨c, by simp [hc]⟩

theorem handlersAt_length (b : Body) (p : Position) : (b.handlersAt p).length ≤ b.handlers.length := by
  have := coveringIn_length p b.handlers.zipIdx
  simpa [handlersAt] using this

theorem getElem?_of_mem_handlersAt (h : n ∈ b.handlersAt p) :
    ∃ a ∈ b.handlers, b.handlers[n]? = some a := by
  obtain ⟨a, ha⟩ := mem_coveringIn h
  have := List.mem_zipIdx_iff_getElem?.1 ha
  exact ⟨a, List.mem_of_getElem? this, this⟩

end Body

theorem mem_squeeze {α : Type} [DecidableEq α] {x : α} (l : List α) : x ∈ squeeze l ↔ x ∈ l := by
  fun_induction squeeze l with
  | case1 => simp
  | case2 => simp
  | case3 b rest ih =>
    rw [ih]
    simp
  | case4 a b rest _ ih => simp [ih]

namespace Partition

/-! ## The end of a run -/

variable {b : Body} {hs rest : List Nat} {p q : Position} {h : Nat}

theorem stop_spec (hp : p.index < b.size) :
    p.index < (b.partition.stop p).index ∧ (b.partition.stop p).index ≤ b.size ∧
      (∀ l ∈ b.leaders, p.index < l.index → (b.partition.stop p).index ≤ l.index) ∧
      ((b.partition.stop p).index < b.size → b.partition.stop p ∈ b.leaders) := by
  unfold stop Body.partition
  simp only
  cases hf : b.leaders.find? (fun l => decide (p.index < l.index)) with
  | none =>
    have hnone := List.find?_eq_none.1 hf
    refine ⟨hp, Nat.le_refl _, ?_, fun h => absurd h (Nat.lt_irrefl _)⟩
    intro l hl hpl
    have := hnone l hl
    simp [hpl] at this
  | some s =>
    obtain ⟨hs, as, bs, hab, has⟩ := List.find?_eq_some_iff_append.1 hf
    have hmem : s ∈ b.leaders := by simp [hab]
    simp only [Option.getD_some]
    refine ⟨by simpa using hs, Nat.le_of_lt (Body.mem_leaders.1 hmem).2, ?_, fun _ => hmem⟩
    intro l hl hpl
    have hsorted := b.leaders_sorted
    rw [hab] at hl hsorted
    rcases List.mem_append.1 hl with hl | hl
    · have := has l hl
      simp [hpl] at this
    · rcases List.mem_cons.1 hl with rfl | hl
      · exact Nat.le_refl _
      · have := (List.pairwise_cons.1 (List.pairwise_append.1 hsorted).2.1).1 l hl
        omega

theorem endsBlockAt_inside (hp : p.index < b.size)
    (hpq : p.index ≤ q.index) (hq : q.index + 1 < (b.partition.stop p).index) :
    b.endsBlockAt q = false := by
  obtain ⟨-, hle, hmin, -⟩ := stop_spec hp
  cases hend : b.endsBlockAt q with
  | false => rfl
  | true =>
  have := hmin q.next (Body.next_mem_leaders hend (by omega)) (by simp [Position.next]; omega)
  simp only [Position.next] at this
  omega

/-! ## The vertices -/

/-- The tests of an exception that the handlers in `hs` are left for. -/
def tests : List Nat → List Vertex
  | [] => []
  | h :: rest => .dispatch h rest :: tests rest

/-- Everything that the block graph of a valid body can meet. -/
def vertices (b : Body) : List Vertex :=
  b.leaders.map .code ++
    (List.range b.size).flatMap (fun n => tests (b.handlersAt ⟨n⟩)) ++ [.exit, .unwind]

theorem tests_length (hs : List Nat) : (tests hs).length = hs.length := by
  induction hs with
  | nil => rfl
  | cons h hs ih => simp [tests, ih]

theorem mem_tests : Vertex.dispatch h rest ∈ tests hs ↔ (h :: rest) <:+ hs := by
  induction hs with
  | nil => simp [tests]
  | cons k hs ih =>
    simp only [tests, List.mem_cons, Vertex.dispatch.injEq, ih, List.suffix_cons_iff, List.cons.injEq]

theorem dispatch_of_mem_tests {v : Vertex} (h : v ∈ tests hs) : ∃ k rest, v = .dispatch k rest := by
  induction hs with
  | nil => cases h
  | cons k hs ih =>
    rcases List.mem_cons.1 h with rfl | h
    · exact ⟨k, hs, rfl⟩
    · exact ih h

theorem vertices_length (b : Body) : (vertices b).length < b.partition.searchDepth := by
  have hsum : ((List.range b.size).flatMap fun n => tests (b.handlersAt ⟨n⟩)).length ≤
      b.size * b.handlers.length := by
    rw [List.length_flatMap]
    have : ∀ n ∈ List.range b.size, (tests (b.handlersAt ⟨n⟩)).length ≤ b.handlers.length :=
      fun n _ => tests_length _ ▸ b.handlersAt_length _
    have := List.sum_le_card_nsmul ((List.range b.size).map fun n => (tests (b.handlersAt ⟨n⟩)).length)
      b.handlers.length (by simpa using this)
    simpa using this
  unfold vertices searchDepth
  simp only [List.length_append, List.length_map, List.length_cons, List.length_nil, Body.partition]
  omega

theorem code_mem_vertices : Vertex.code p ∈ vertices b ↔ p ∈ b.leaders := by
  unfold vertices
  simp only [List.mem_append, List.mem_map, Vertex.code.injEq, exists_eq_right, List.mem_flatMap,
    List.mem_cons, reduceCtorEq, List.not_mem_nil, or_false, or_iff_left_iff_imp]
  rintro ⟨n, -, hn⟩
  obtain ⟨k, rest, h⟩ := dispatch_of_mem_tests hn
  cases h

theorem dispatch_mem_vertices : Vertex.dispatch h rest ∈ vertices b ↔ ∃ p :
    Position, p.index < b.size ∧ (h :: rest) <:+ b.handlersAt p := by
  unfold vertices
  simp only [List.mem_append, List.mem_map, reduceCtorEq, and_false, exists_false, false_or,
    List.mem_flatMap, List.mem_range, mem_tests, List.mem_cons, List.not_mem_nil, or_false]
  constructor
  · rintro ⟨n, hn, hs⟩
    exact ⟨⟨n⟩, hn, hs⟩
  · rintro ⟨p, hp, hs⟩
    exact ⟨p.index, hp, hs⟩

theorem chain_mem_vertices (hp : p.index < b.size)
    (h : hs <:+ b.handlersAt p) : chain hs ∈ vertices b := by
  cases hs with
  | nil => simp [chain, vertices]
  | cons k rest => exact dispatch_mem_vertices.2 ⟨p, hp, h⟩

theorem successors_vertices (hb : b.Valid) (v : Vertex) (hv : v ∈ vertices b) :
    b.partition.successors v ⊆ vertices b := by
  cases v with
  | exit => simp [successors]
  | unwind => simp [successors]
  | code p =>
    have hp := (Body.mem_leaders.1 (code_mem_vertices.1 hv)).2
    obtain ⟨hlt, hle, -, hstop⟩ := stop_spec hp
    intro x hx
    unfold successors at hx
    simp only at hx
    split at hx
    · next i hi =>
      have hbody : b.partition.body = b := rfl
      rw [hbody] at hi
      rw [mem_squeeze] at hx
      simp only [afterLast, hbody, List.mem_append, List.mem_map] at hx
      rcases hx with ((⟨t, ht, rfl⟩ | hx) | hx) | hx
      · exact code_mem_vertices.2 (Body.target_mem_leaders hb hi ht)
      · split at hx
        · next hc =>
          obtain rfl : x = _ := by simpa using hx
          simp only [Bool.and_eq_true, decide_eq_true_eq] at hc
          have : (⟨(b.partition.stop p).index - 1⟩ : Position).next = b.partition.stop p := by
            have : (b.partition.stop p).index - 1 + 1 = (b.partition.stop p).index := by omega
            simp only [Position.next, this]
          rw [this]
          exact code_mem_vertices.2 (hstop (by omega))
        · cases hx
      · split at hx
        · obtain rfl : x = _ := by simpa using hx
          simp [vertices]
        · cases hx
      · split at hx
        · obtain rfl : x = _ := by simpa using hx
          exact chain_mem_vertices (Body.lt_size_of_instruction? hi) List.suffix_rfl
        · cases hx
    · cases hx
  | dispatch h rest =>
    obtain ⟨p, hp, hs⟩ := dispatch_mem_vertices.1 hv
    obtain ⟨a, ha, hget⟩ := Body.getElem?_of_mem_handlersAt (hs.subset (by simp : h ∈ h :: rest))
    intro x hx
    unfold successors at hx
    rw [mem_squeeze] at hx
    rcases List.mem_cons.1 hx with rfl | hx
    · refine code_mem_vertices.2 ?_
      simp only [Body.partition, Body.entryOf, hget, Option.map_some, Option.getD_some]
      exact Body.entry_mem_leaders hb ha
    · split at hx
      · cases hx
      · obtain rfl : x = _ := by simpa using hx
        exact chain_mem_vertices hp ((List.suffix_cons h rest).trans hs)

end Partition

end StackLift
