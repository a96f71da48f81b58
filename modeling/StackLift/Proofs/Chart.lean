import StackLift.Proofs.BlockMap

/-!
# What a block map promises

`BlockMap.Charts` collects what the builder relies on when it walks the blocks of a body: the blocks
follow the instructions, every place that control can go on at is the number of a block, an edge that
does not go forward leads to a loop header, and a header is on every path to its back edges and to
the blocks of its loop.

`charts_of_ofBody` proves all of it for the map that `ofBody` answers. The numbering comes from the
depth-first search, the headers from the dominator table.
-/
namespace StackLift

namespace BlockMap

/-- Control reaches `b` from the entry without meeting `h`. -/
inductive Bypass (m : BlockMap) (h : BlockId) : BlockId → Prop where
  | root (hne : h ≠ ⟨0⟩) : Bypass m h ⟨0⟩
  | step {a b : BlockId} (ha : Bypass m h a) (he : b ∈ (m.block a).successors) (hne : h ≠ b) :
      Bypass m h b

def flow (m : BlockMap) : FlowGraph BlockId := ⟨fun a => (m.block a).successors, ⟨0⟩⟩

variable {m : BlockMap} {b : Body}

theorem bypass_iff_skirts {h a : BlockId} : m.Bypass h a ↔ m.flow.Skirts h m.flow.root a := by
  constructor
  · intro hb
    induction hb with
    | root hne => exact .refl (Ne.symm hne)
    | step _ he hne ih => exact ih.step he (Ne.symm hne)
  · intro hs
    induction hs with
    | refl hne => exact .root (Ne.symm hne)
    | step _ he hne ih => exact .step ih he (Ne.symm hne)

/-- The block tests a handler. -/
def isDispatch (m : BlockMap) (a : BlockId) : Prop := ∃ h n, (m.block a).kind = .dispatch h n

/-- Where control may go on after the last instruction `i` of block `a`, at position `last`. -/
structure Leads (m : BlockMap) (a : BlockId) (last : Position) (i : Instruction Position) :
    Prop where
  target : ∀ t ∈ i.branchTargets, ∃ c, m.blockAt? t = some c ∧ c ∈ (m.block a).successors
  next : i.fallsThrough = true →
    ∃ c, m.blockAt? last.next = some c ∧ c ∈ (m.block a).successors
  exit : i.isReturn = true → m.exitBlock ∈ (m.block a).successors
  thrown : ∀ c, m.dispatchAt? last = some c → c ∈ (m.block a).successors

structure Charts (m : BlockMap) (b : Body) : Prop where
  valid : b.Valid
  size : 3 ≤ m.size
  id : ∀ {a : BlockId}, a.index < m.size → (m.block a).id = a
  entry : (m.block ⟨0⟩).kind = .instructions ∧ (m.block ⟨0⟩).start = ⟨0⟩
  exit : ∀ {a : BlockId}, a.index < m.size → ((m.block a).kind = .exit ↔ a = m.exitBlock)
  unwind : ∀ {a : BlockId}, a.index < m.size → ((m.block a).kind = .unwind ↔ a = m.unwindBlock)
  wayOut : ∀ {a c}, c ∈ (m.block a).successors → a ≠ m.exitBlock ∧ a ≠ m.unwindBlock
  successor : ∀ {a c}, c ∈ (m.block a).successors → c.index < m.size
  run : ∀ {a}, a.index < m.size → (m.block a).kind = .instructions →
    (m.block a).start.index < (m.block a).stop.index ∧ (m.block a).stop.index ≤ b.size
  inside : ∀ {a}, a.index < m.size → (m.block a).kind = .instructions → ∀ p : Position,
    (m.block a).start.index ≤ p.index → p.index + 1 < (m.block a).stop.index →
    ∃ i, b.instruction? p = some i ∧ i.isBlockEnd = false ∧ m.dispatchAt? p = none
  last : ∀ {a}, a.index < m.size → (m.block a).kind = .instructions → ∀ p : Position,
    p.index + 1 = (m.block a).stop.index → ∃ i, b.instruction? p = some i ∧ m.Leads a p i
  blockAt : ∀ {p c}, m.blockAt? p = some c →
    c.index < m.size ∧ (m.block c).kind = .instructions ∧ (m.block c).start = p
  dispatchAt : ∀ {p c}, m.dispatchAt? p = some c → c.index < m.size ∧ m.isDispatch c
  dispatch : ∀ {a h next}, a.index < m.size → (m.block a).kind = .dispatch h next →
    ∃ info c, b.handlers[h]? = some info ∧ m.blockAt? info.entry = some c ∧
      c ∈ (m.block a).successors ∧ (info.catchType = none ∨
        ∃ d, next = some d ∧ d ∈ (m.block a).successors ∧ (m.isDispatch d ∨ d = m.unwindBlock))
  back : ∀ {a c}, a.index < m.size → c ∈ (m.block a).successors → c.index ≤ a.index →
    (m.block c).isLoopHeader = true ∧ ¬ m.Bypass c a
  header : ∀ {c : BlockId} {l : Nat}, c.index < m.size →
    ((m.block c).loopHeader = some l ↔ m.loopHeaders[l]? = some c)
  headerOf : ∀ {c : BlockId} {l : Nat}, m.loopHeaders[l]? = some c →
    c.index < m.size ∧ ∃ a, c.index ≤ a.index ∧ c ∈ (m.block a).successors
  loopCapacity : ∀ {a}, a.index < m.size → (m.block a).loops.capacity = m.loopCount
  loops : ∀ {a l}, a.index < m.size → (m.block a).loops.contains l = true →
    ∃ h, m.loopHeaders[l]? = some h ∧ ¬ m.Bypass h a

/-! ## Taking `ofBody` apart -/

/-- The map of a body whose loops are proper. -/
def mapOf (b : Body) : BlockMap :=
  assemble b.partition (order b.partition) (edgesOf b) (backEdges (links (edgesOf b))) (predsOf b)

/-- The headers of a body's loops, by number. -/
def headsOf (b : Body) : List Nat := headers (edgesOf b).size (backEdges (links (edgesOf b)))

theorem ofBody_cases (hv : b.validate = .ok ()) :
    (accepts (edgesOf b) = true ∧ ofBody b = .ok (mapOf b)) ∨
      (accepts (edgesOf b) = false ∧ ∃ a c, ofBody b = .error (.notSupported (.irreducible a c))) := by
  have hpreds : (fun n => ((List.range (edgesOf b).size).map
      (sources (links (edgesOf b)))).toArray[n]?.getD []) = predsOf b := rfl
  unfold ofBody
  change (accepts (edgesOf b) = true ∧ (b.validate >>= fun _ => _) = _) ∨
    (accepts (edgesOf b) = false ∧ ∃ a c, (b.validate >>= fun _ => _) = _)
  simp only [← edgesOf.eq_1, hpreds, hv, bind, Except.bind]
  split
  · next a c hf =>
    obtain ⟨hd, hm⟩ := List.find?_eq_some_iff_append.1 hf
    refine .inr ⟨?_, ⟨a⟩, ⟨c⟩, rfl⟩
    obtain ⟨l1, l2, hl, -⟩ := hm
    rw [accepts, ← predsOf_eq, hl, List.all_eq_false]
    exact ⟨(a, c), by simp, by simpa using hd⟩
  · next hf =>
    refine .inl ⟨?_, rfl⟩
    rw [accepts, ← predsOf_eq, List.all_eq_true]
    intro e he
    simpa using List.find?_eq_none.1 hf e he

theorem ofBody_inv (h : ofBody b = .ok m) :
    b.validate = .ok () ∧ accepts (edgesOf b) = true ∧ m = mapOf b := by
  cases hv : b.validate with
  | error e =>
    unfold ofBody at h
    change (b.validate >>= fun _ => _) = _ at h
    rw [hv] at h
    cases h
  | ok u =>
    rcases ofBody_cases hv with ⟨ha, hm⟩ | ⟨-, a, c, he⟩
    · rw [hm] at h
      cases h
      exact ⟨rfl, ha, rfl⟩
    · rw [he] at h
      cases h

/-! ## Looking blocks up -/

section Lookup

variable {b : Body} {left : List Vertex}
variable {a c : BlockId} {p : Position}

theorem mapOf_size (b : Body) : (mapOf b).size = (order b.partition).length := by
  simp [mapOf, assemble, size]

theorem block_mapOf {v : Vertex} (h : (order b.partition)[a.index]? = some v) : (mapOf b).block a =
      { id := a
        kind := kindOf b.partition (order b.partition) v
        start := (spanOf b.partition v).1
        stop := (spanOf b.partition v).2
        successors := ((edgesOf b)[a.index]?.getD []).map BlockId.mk
        predecessors := (predsOf b a.index).map BlockId.mk
        loops := loopsAround ((headsOf b).map
          (loopBody (edgesOf b).size (backEdges (links (edgesOf b))) (predsOf b))) a.index
        loopHeader := (headsOf b).idxOf? a.index } := by
  have hz : (order b.partition).zipIdx[a.index]? = some (v, a.index) := by
    simp [List.getElem?_zipIdx, h]
  simp only [mapOf, assemble, block, List.getElem?_toArray, List.getElem?_map, hz, Option.map_some,
    Option.getD_some, headsOf]

theorem exists_vertex (h : a.index < (mapOf b).size) :
    ∃ v, (order b.partition)[a.index]? = some v :=
  ⟨_, List.getElem?_eq_getElem (mapOf_size b ▸ h)⟩

theorem mem_successors_mapOf (ho : Ordered b left) :
    c ∈ ((mapOf b).block a).successors ↔ ∃ v x, (order b.partition)[a.index]? = some v ∧
      x ∈ b.partition.successors v ∧ (order b.partition)[c.index]? = some x := by
  obtain ⟨a⟩ := a
  obtain ⟨c⟩ := c
  cases hv : (order b.partition)[a]? with
  | none =>
    have : (mapOf b).block ⟨a⟩ = default := by
      have := List.getElem?_eq_none_iff.1 hv
      rw [← mapOf_size] at this
      simp only [block, Array.getElem?_eq_none this, Option.getD_none]
    simp only [this, reduceCtorEq, false_and, exists_false, iff_false]
    exact List.not_mem_nil
  | some v =>
    rw [block_mapOf hv]
    simp only [List.mem_map, BlockId.mk.injEq, exists_eq_right, mem_edgesOf ho, hv]

theorem lookup_eq_some_iff_mem {α β : Type} [DecidableEq α] {l : List (α × β)} {a : α} {x : β}
    (hl : ∀ y, (a, y) ∈ l → y = x) : l.lookup a = some x ↔ (a, x) ∈ l := by
  constructor
  · intro h
    obtain ⟨l1, l2, rfl, -⟩ := List.lookup_eq_some_iff.1 h
    simp
  · intro h
    cases hc : l.lookup a with
    | none =>
      have := List.lookup_eq_none_iff.1 hc _ h
      simp at this
    | some y =>
      obtain ⟨l1, l2, rfl, -⟩ := List.lookup_eq_some_iff.1 hc
      rw [hl y (by simp)]

theorem blockAt?_mapOf (ho : Ordered b left) :
    (mapOf b).blockAt? p = some c ↔ (order b.partition)[c.index]? = some (.code p) := by
  have hnd : (order b.partition).Nodup := ho.eq ▸ ho.nodup
  have hmem : ∀ d : BlockId, (p, d) ∈ (mapOf b).starts ↔
      (order b.partition)[d.index]? = some (.code p) := by
    intro d
    simp only [mapOf, assemble, List.mem_filterMap, Prod.exists, List.mem_zipIdx_iff_getElem?]
    constructor
    · rintro ⟨v, i, hv, h⟩
      split at h
      · next q j heq =>
        obtain ⟨rfl, rfl⟩ := Prod.mk.inj heq
        obtain ⟨rfl, rfl⟩ := Prod.mk.inj (Option.some.inj h)
        exact hv
      · cases h
    · intro h
      exact ⟨_, _, h, rfl⟩
  unfold blockAt?
  by_cases hc : (order b.partition)[c.index]? = some (.code p)
  · rw [lookup_eq_some_iff_mem, hmem]
    intro d hd
    have := getElem?_inj_of_nodup hnd ((hmem d).1 hd) hc
    cases d; cases c
    exact congrArg BlockId.mk this
  · simp only [hc, iff_false]
    intro h
    obtain ⟨l1, l2, heq, -⟩ := List.lookup_eq_some_iff.1 h
    exact hc ((hmem c).1 (by simp [heq]))

theorem dispatchAt?_mapOf (hc : (mapOf b).dispatchAt? p = some c) :
    ∃ h rest, b.thrownTo p = h :: rest ∧
      (order b.partition)[c.index]? = some (.dispatch h rest) := by
  obtain ⟨l1, l2, heq, -⟩ := List.lookup_eq_some_iff.1 hc
  have hmem : (p, c) ∈ (mapOf b).dispatches := by simp [heq]
  simp only [mapOf, assemble, List.mem_filterMap, List.mem_map] at hmem
  obtain ⟨q, -, hq⟩ := hmem
  split at hq
  · cases hq
  · next h rest hth =>
    simp only [number?, Option.map_map, Option.map_eq_some_iff, Function.comp, Prod.mk.injEq] at hq
    obtain ⟨i, hi, rfl, rfl⟩ := hq
    exact ⟨h, rest, hth, getElem?_of_idxOf? hi⟩

end Lookup

/-! ## Loops -/

section Loops

variable {b : Body} {left : List Vertex}
variable {a h c : BlockId}

theorem mem_headsOf {c : Nat} :
    c ∈ headsOf b ↔ c < (edgesOf b).size ∧ ∃ a, c ≤ a ∧ c ∈ (edgesOf b)[a]?.getD [] := by
  simp only [headsOf, headers, backEdges, List.mem_filter, List.mem_range, List.any_eq_true,
    Prod.exists, mem_links, decide_eq_true_eq]
  constructor
  · rintro ⟨hc, a, d, ⟨hd, hle⟩, rfl⟩
    exact ⟨hc, a, hle, hd⟩
  · rintro ⟨hc, a, hle, hd⟩
    exact ⟨hc, a, c, ⟨hd, hle⟩, rfl⟩

theorem headsOf_nodup (b : Body) : (headsOf b).Nodup := List.nodup_range.filter _

theorem loopsAround_spec (bodies : List BitSet) (c : Nat) :
    (loopsAround bodies c).Snug ∧ (loopsAround bodies c).capacity = bodies.length ∧
      ∀ l, (loopsAround bodies c).contains l = true ↔
        ∃ body, bodies[l]? = some body ∧ body.contains c = true := by
  suffices h : ∀ (xs : List (BitSet × Nat)) (s : BitSet), s.Snug →
      (xs.foldl (fun s x => if x.1.contains c then s.insert x.2 else s) s).Snug ∧
      (xs.foldl (fun s x => if x.1.contains c then s.insert x.2 else s) s).capacity = s.capacity ∧
      ∀ l, (xs.foldl (fun s x => if x.1.contains c then s.insert x.2 else s) s).contains l = true ↔
        s.contains l = true ∨ (∃ body, (body, l) ∈ xs ∧ body.contains c = true) ∧ l < s.capacity by
    obtain ⟨hsnug, hcap, hc⟩ := h bodies.zipIdx (BitSet.empty bodies.length) (BitSet.snug_empty _)
    refine ⟨hsnug, hcap, fun l => (hc l).trans ?_⟩
    simp only [BitSet.contains_empty, Bool.false_eq_true, false_or, List.mem_zipIdx_iff_getElem?,
      BitSet.empty_capacity, and_iff_left_iff_imp, forall_exists_index, and_imp]
    exact fun body hb _ => (List.getElem?_eq_some_iff.1 hb).1
  intro xs
  induction xs with
  | nil => exact fun s hs => ⟨hs, rfl, fun l => by simp⟩
  | cons x xs ih =>
    intro s hs
    obtain ⟨body, k⟩ := x
    rw [List.foldl_cons]
    by_cases hb : body.contains c = true
    · simp only [hb, if_true]
      obtain ⟨hsnug, hcap, hc⟩ := ih (s.insert k) (hs.insert k)
      refine ⟨hsnug, hcap.trans (BitSet.insert_capacity _ _), fun l => ?_⟩
      rw [hc, BitSet.contains_insert hs.wide, BitSet.insert_capacity]
      constructor
      · rintro ((⟨rfl, hl⟩ | h) | ⟨⟨d, hm, hd⟩, hl⟩)
        · exact .inr ⟨⟨body, by simp, hb⟩, hl⟩
        · exact .inl h
        · exact .inr ⟨⟨d, by simp [hm], hd⟩, hl⟩
      · rintro (h | ⟨⟨d, hm, hd⟩, hl⟩)
        · exact .inl (.inr h)
        · rcases List.mem_cons.1 hm with heq | hm
          · exact .inl (.inl ⟨(Prod.mk.inj heq).2.symm, hl⟩)
          · exact .inr ⟨⟨d, hm, hd⟩, hl⟩
    · simp only [hb]
      obtain ⟨hsnug, hcap, hc⟩ := ih s hs
      refine ⟨hsnug, hcap, fun l => (hc l).trans (or_congr_right (and_congr_left fun _ => ?_))⟩
      constructor
      · rintro ⟨d, hm, hd⟩
        exact ⟨d, by simp [hm], hd⟩
      · rintro ⟨d, hm, hd⟩
        rcases List.mem_cons.1 hm with heq | hm
        · exact absurd ((Prod.mk.inj heq).1 ▸ hd) hb
        · exact ⟨d, hm, hd⟩

theorem mem_predsOf_iff (ho : Ordered b left) :
    a.index ∈ predsOf b c.index ↔ c ∈ ((mapOf b).block a).successors := by
  rw [mem_predsOf ho, mem_edgesOf ho, mem_successors_mapOf ho]

theorem bypasses_iff_bypass (ho : Ordered b left) :
    Bypasses (predsOf b) h.index a.index ↔ (mapOf b).Bypass h a := by
  constructor
  · intro hb
    generalize hi : a.index = i at hb
    induction hb generalizing a with
    | root h0 =>
      obtain rfl : a = ⟨0⟩ := by
        cases a
        exact congrArg BlockId.mk hi
      exact .root fun he => h0 (he ▸ rfl)
    | @step p c _ he hn ih =>
      subst hi
      exact .step (ih (a := ⟨p⟩) rfl) ((mem_predsOf_iff ho (a := ⟨p⟩)).1 he) fun h' => hn (h' ▸ rfl)
  · have hne : ∀ {x y : BlockId}, x ≠ y → x.index ≠ y.index := by
      rintro ⟨x⟩ ⟨y⟩ hxy rfl
      exact hxy rfl
    intro hb
    induction hb with
    | root h0 => exact .root (hne h0)
    | step _ he hn ih => exact .step ih ((mem_predsOf_iff ho).2 he) (hne hn)

/-- An edge from `u` to `h` that does not go forward. -/
def BackTo (m : BlockMap) (h u : BlockId) : Prop :=
  h ∈ (m.block u).successors ∧ h.index ≤ u.index

/-- The search for the loop of `h`: it goes backwards from the edges that lead back to `h`. -/
def loopSearch (b : Body) (h : Nat) : Search Nat :=
  (sources (backEdges (links (edgesOf b))) h).foldl (Search.visit (predsOf b) ((edgesOf b).size + 1))
    { seen := [h] }

section

variable (ho : Ordered b left)
include ho

theorem mem_sources_backEdges {u : BlockId} :
    u.index ∈ sources (backEdges (links (edgesOf b))) h.index ↔ (mapOf b).BackTo h u := by
  simp only [mem_sources, backEdges, List.mem_filter, mem_links, decide_eq_true_eq, BackTo,
    ← mem_predsOf ho, mem_predsOf_iff ho]

theorem predsOf_subset (n : Nat) : predsOf b n ⊆ List.range (edgesOf b).size := by
  intro p hp
  obtain ⟨v, x, hv, -, -⟩ := (mem_edgesOf ho).1 ((mem_predsOf ho).1 hp)
  rw [List.mem_range, edgesOf_size]
  exact (List.getElem?_eq_some_iff.1 hv).1

theorem loopSearch_closes : Search.Closes (predsOf b) { seen := [h.index] } (loopSearch b h.index) ∧
      sources (backEdges (links (edgesOf b))) h.index ⊆ (loopSearch b h.index).seen := by
  have hsources : sources (backEdges (links (edgesOf b))) h.index ⊆ List.range (edgesOf b).size := by
    intro u hu
    have hu' := (mem_sources_backEdges ho (u := ⟨u⟩)).1 hu
    exact predsOf_subset ho _ ((mem_predsOf_iff ho (a := ⟨u⟩)).2 hu'.1)
  have hvisit := Search.visit_closed (fun u (_ : u ∈ List.range (edgesOf b).size) => predsOf_subset ho u)
    (fun _ => .inl) ((edgesOf b).size + 1)
  refine Search.Closes.foldl hvisit _ { seen := [h.index] } hsources ?_
  exact Nat.lt_succ_of_le (Search.room_le_length.trans (by rw [List.length_range]))

theorem inLoop_of_mem_loopSearch (ha : a.index ∈ (loopSearch b h.index).seen) :
    (mapOf b).flow.InLoop ((mapOf b).BackTo h) h a := by
  have key := Search.foldl_keeps
    (P := fun x => (mapOf b).flow.InLoop ((mapOf b).BackTo h) h ⟨x⟩)
    (Q := fun s : Search Nat => [h.index] ⊆ s.seen ∧
      ∀ x ∈ s.seen, (mapOf b).flow.InLoop ((mapOf b).BackTo h) h ⟨x⟩)
    (f := Search.visit (predsOf b) ((edgesOf b).size + 1))
    (fun s v hv hs => Search.visit_seen_of [h.index] ?_ _ s v hv hs)
    (sources (backEdges (links (edgesOf b))) h.index) ?_ { seen := [h.index] }
    ⟨by simp, by simp [FlowGraph.InLoop]⟩
  · exact key.2 a.index ha
  · -- From a block that is not the header to its predecessors.
    intro u hu hin p hp
    have he := (mem_predsOf_iff ho (a := ⟨p⟩) (c := ⟨u⟩)).1 hp
    have hne : (⟨u⟩ : BlockId) ≠ h := fun h' => hu (by simp [← h'])
    by_cases hph : (⟨p⟩ : BlockId) = h
    · exact .inl hph
    · obtain ⟨w, hw, hs⟩ := hin.resolve_left hne
      exact Or.inr ⟨w, hw, ((FlowGraph.Skirts.refl hph).step he hne).trans hs⟩
  · intro u hu
    have hu' := (mem_sources_backEdges ho (u := ⟨u⟩)).1 hu
    by_cases huh : (⟨u⟩ : BlockId) = h
    · exact .inl huh
    · exact .inr ⟨⟨u⟩, hu', .refl huh⟩

theorem mem_loopSearch_of_inLoop (hin : (mapOf b).flow.InLoop ((mapOf b).BackTo h) h a) :
    a.index ∈ (loopSearch b h.index).seen := by
  obtain ⟨hcloses, hsub⟩ := loopSearch_closes ho (h := h)
  rcases hin with rfl | ⟨u, hu, hs⟩
  · exact hcloses.grows (by simp)
  -- Backwards along the path, whose end is the source of a back edge.
  · have hend := hsub ((mem_sources_backEdges ho).2 hu)
    clear hu
    induction hs with
    | refl _ => exact hend
    | @step y z _ he hz ih =>
      refine ih (hcloses.closed z.index hend ?_ y.index ((mem_predsOf_iff ho).2 he))
      intro hz'
      refine hz ?_
      cases z
      cases h
      simpa using hz'

theorem contains_loopBody (hh : h.index < (edgesOf b).size) :
    (loopBody (edgesOf b).size (backEdges (links (edgesOf b))) (predsOf b) h.index).contains a.index =
      true ↔ (mapOf b).flow.InLoop ((mapOf b).BackTo h) h a := by
  rw [loopBody, ← loopSearch, BitSet.contains_insertAll (BitSet.wide_empty _)]
  simp only [BitSet.contains_empty, Bool.false_eq_true, or_false, BitSet.empty_capacity]
  refine ⟨fun hm => inLoop_of_mem_loopSearch ho hm.1, fun hin => ?_⟩
  refine ⟨mem_loopSearch_of_inLoop ho hin, ?_⟩
  rcases hin with rfl | ⟨u, hu, hs⟩
  · exact hh
  · obtain ⟨c, hc⟩ : ∃ c, c ∈ ((mapOf b).block a).successors := by
      have hfirst : a = u ∨ ∃ c, c ∈ ((mapOf b).block a).successors := by
        clear hu
        induction hs with
        | refl _ => exact .inl rfl
        | step _ he _ ih =>
          rcases ih with rfl | hc
          · exact .inr ⟨_, he⟩
          · exact .inr hc
      rcases hfirst with rfl | hc
      · exact ⟨h, hu.1⟩
      · exact hc
    exact List.mem_range.1 (predsOf_subset ho _ ((mem_predsOf_iff ho).2 hc))

theorem contains_loops_mapOf {l : Nat} (hl : (mapOf b).loopHeaders[l]? = some h)
    (ha : a.index < (mapOf b).size) :
    ((mapOf b).block a).loops.contains l = true ↔ (mapOf b).flow.InLoop ((mapOf b).BackTo h) h a := by
  obtain ⟨v, hv⟩ := exists_vertex ha
  have hhead : (headsOf b)[l]? = some h.index := by
    simp only [mapOf, assemble, List.getElem?_map, Option.map_eq_some_iff] at hl
    obtain ⟨i, hi, rfl⟩ := hl
    exact hi
  have hh := (mem_headsOf.1 (List.mem_of_getElem? hhead)).1
  rw [block_mapOf hv]
  simp only [(loopsAround_spec _ _).2.2, List.getElem?_map, hhead, Option.map_some, Option.some.injEq,
    exists_eq_left']
  exact contains_loopBody ho hh

end

end Loops

/-! ## The chart -/

section Chart

variable {b : Body} {left : List Vertex}
variable {a c : BlockId} {h : Nat} {rest : List Nat}

section

variable (ho : Ordered b left) {v : Vertex}
include ho

theorem Ordered.length : (order b.partition).length = left.length + 2 := by
  simp [ho.eq]

theorem Ordered.getElem?_exit : (order b.partition)[(mapOf b).exitBlock.index]? = some .exit := by
  simp [exitBlock, mapOf_size, ho.eq]

theorem Ordered.getElem?_unwind : (order b.partition)[(mapOf b).unwindBlock.index]? = some .unwind := by
  simp [unwindBlock, mapOf_size, ho.eq]

theorem Ordered.exists_successor {x : Vertex} (hv : (order b.partition)[a.index]? = some v)
    (hx : x ∈ b.partition.successors v) :
    ∃ c : BlockId, (order b.partition)[c.index]? = some x ∧ c ∈ ((mapOf b).block a).successors := by
  obtain ⟨i, -, hi⟩ := ho.exists_number (ho.closed v (ho.mem_left hv hx) x hx)
  exact ⟨⟨i⟩, hi, (mem_successors_mapOf ho).2 ⟨v, x, hv, hx, hi⟩⟩

theorem Ordered.eq_of_getElem? {c d : BlockId} (hc : (order b.partition)[c.index]? = some v)
    (hd : (order b.partition)[d.index]? = some v) : c = d := by
  have := getElem?_inj_of_nodup ho.nodup_order hc hd
  cases c; cases d
  exact congrArg BlockId.mk this

theorem Ordered.code_leader {i : Nat} {p : Position} (hv : (order b.partition)[i]? = some (.code p)) :
    p ∈ b.leaders := by
  have hm := List.mem_of_getElem? hv
  rw [ho.eq] at hm
  refine Partition.code_mem_vertices.1 (ho.known _ ?_)
  simpa using hm

end

theorem isDispatch_mapOf
    (hc : (order b.partition)[c.index]? = some (.dispatch h rest)) : (mapOf b).isDispatch c := by
  rw [isDispatch, block_mapOf hc]
  exact ⟨_, _, rfl⟩

/-- What the last instruction of a run leads to. -/
theorem leads_mapOf (ho : Ordered b left) (hb : b.Valid) {p last : Position}
    (ha : (order b.partition)[a.index]? = some (.code p))
    (hl : last.index + 1 = (b.partition.stop p).index) :
    ∃ i, b.instruction? last = some i ∧ (mapOf b).Leads a last i := by
  have hp := (Body.mem_leaders.1 (ho.code_leader ha)).2
  obtain ⟨hlt, hle, -, -⟩ := Partition.stop_spec hp
  obtain ⟨i, hi⟩ := Body.instruction?_isSome (b := b) (p := last) (by omega)
  have hsucc : ∀ x, x ∈ b.partition.afterLast last i → x ∈ b.partition.successors (.code p) := by
    intro x hx
    have hlast : (⟨(b.partition.stop p).index - 1⟩ : Position) = last := by
      have : (b.partition.stop p).index - 1 = last.index := by omega
      rw [this]
    have hbody : b.partition.body = b := rfl
    simp only [Partition.successors, hlast, hbody, hi]
    exact (mem_squeeze _).2 hx
  have hgo : ∀ x, x ∈ b.partition.afterLast last i →
      ∃ c : BlockId, (order b.partition)[c.index]? = some x ∧ c ∈ ((mapOf b).block a).successors :=
    fun x hx => ho.exists_successor ha (hsucc x hx)
  refine ⟨i, hi, ?_, ?_, ?_, ?_⟩
  · intro t ht
    obtain ⟨c, hc, hm⟩ := hgo (.code t) (by simp [Partition.afterLast, ht])
    exact ⟨c, (blockAt?_mapOf ho).2 hc, hm⟩
  · intro hf
    have hend := hb.ending hi hf
    obtain ⟨c, hc, hm⟩ := hgo (.code last.next) (by
      have : last.index + 1 < b.partition.body.size := hend
      simp [Partition.afterLast, hf, this])
    exact ⟨c, (blockAt?_mapOf ho).2 hc, hm⟩
  · intro hr
    obtain ⟨c, hc, hm⟩ := hgo .exit (by simp [Partition.afterLast, hr])
    rw [ho.eq_of_getElem? ho.getElem?_exit hc]
    exact hm
  · intro d hd
    obtain ⟨h, rest, hth, hd'⟩ := dispatchAt?_mapOf hd
    have hcan : i.canThrow = true ∧ b.handlersAt last = h :: rest := by
      unfold Body.thrownTo at hth
      rw [hi] at hth
      simp only at hth
      split at hth
      · next hc => exact ⟨hc, hth⟩
      · cases hth
    obtain ⟨c, hc, hm⟩ := hgo (.dispatch h rest) (by
      have hbody : b.partition.body = b := rfl
      simp [Partition.afterLast, hbody, hcan.1, hcan.2, Partition.chain])
    rw [ho.eq_of_getElem? hd' hc]
    exact hm

theorem dispatch_mapOf (ho : Ordered b left)
    (ha : (order b.partition)[a.index]? = some (.dispatch h rest)) :
    ∃ info c, b.handlers[h]? = some info ∧ (mapOf b).blockAt? info.entry = some c ∧
      c ∈ ((mapOf b).block a).successors ∧ (info.catchType = none ∨
        ∃ d, kindOf b.partition (order b.partition) (.dispatch h rest) = .dispatch h (some d) ∧
          d ∈ ((mapOf b).block a).successors ∧
          ((mapOf b).isDispatch d ∨ d = (mapOf b).unwindBlock)) := by
  have hbody : b.partition.body = b := rfl
  have hm : Vertex.dispatch h rest ∈ Partition.vertices b := by
    have := List.mem_of_getElem? ha
    rw [ho.eq] at this
    exact ho.known _ (by simpa using this)
  obtain ⟨p, -, hsuf⟩ := Partition.dispatch_mem_vertices.1 hm
  obtain ⟨info, -, hget⟩ := Body.getElem?_of_mem_handlersAt (hsuf.subset (by simp : h ∈ h :: rest))
  obtain ⟨c, hc, hmem⟩ := ho.exists_successor ha (x := .code info.entry) (by
    simp [Partition.successors, mem_squeeze, hbody, Body.entryOf, hget])
  refine ⟨info, c, hget, (blockAt?_mapOf ho).2 hc, hmem, ?_⟩
  cases hty : info.catchType with
  | none => exact .inl rfl
  | some ty =>
    right
    have hall : b.catchesAllAt h = false := by
      simp [Body.catchesAllAt, hget, Handler.catchesAll, hty]
    obtain ⟨d, hd, hdm⟩ := ho.exists_successor ha (x := Partition.chain rest) (by
      simp [Partition.successors, mem_squeeze, hbody, hall])
    refine ⟨d, ?_, hdm, ?_⟩
    · have hnum : number? (order b.partition) (Partition.chain rest) = some d := by
        simp [number?, idxOf?_of_getElem? ho.nodup_order hd]
      simp [kindOf, hbody, hall, hnum]
    · cases rest with
      | nil => exact .inr (ho.eq_of_getElem? hd ho.getElem?_unwind)
      | cons k rest => exact .inl (isDispatch_mapOf hd)

end Chart

section Fields

variable {b : Body} {left : List Vertex} {a : BlockId} {l : Nat}

theorem exists_run (ha : a.index < (mapOf b).size) (hk : ((mapOf b).block a).kind = .instructions) :
    ∃ p, (order b.partition)[a.index]? = some (.code p) ∧ ((mapOf b).block a).start = p ∧
      ((mapOf b).block a).stop = b.partition.stop p := by
  obtain ⟨v, hv⟩ := exists_vertex ha
  have heq := block_mapOf hv
  rw [heq] at hk ⊢
  cases v with
  | code p => exact ⟨p, hv, rfl, rfl⟩
  | dispatch => cases hk
  | exit => cases hk
  | unwind => cases hk

theorem header_mapOf {c : BlockId} (hc : c.index < (mapOf b).size) :
    ((mapOf b).block c).loopHeader = some l ↔ (mapOf b).loopHeaders[l]? = some c := by
  obtain ⟨v, hv⟩ := exists_vertex hc
  have hheads : (mapOf b).loopHeaders[l]? = (headsOf b)[l]?.map BlockId.mk := by
    simp [mapOf, assemble, headsOf]
  rw [block_mapOf hv, hheads, Option.map_eq_some_iff]
  constructor
  · intro h
    exact ⟨c.index, getElem?_of_idxOf? h, rfl⟩
  · rintro ⟨i, hi, rfl⟩
    exact idxOf?_of_getElem? (headsOf_nodup b) hi

theorem exists_header_mapOf (ha : a.index < (mapOf b).size)
    (hl : ((mapOf b).block a).loops.contains l = true) : ∃ h, (mapOf b).loopHeaders[l]? = some h := by
  obtain ⟨v, hv⟩ := exists_vertex ha
  rw [block_mapOf hv] at hl
  obtain ⟨body, hbody, -⟩ := ((loopsAround_spec _ _).2.2 l).1 hl
  rw [List.getElem?_map, Option.map_eq_some_iff] at hbody
  obtain ⟨h, hh, -⟩ := hbody
  exact ⟨⟨h⟩, by simpa [mapOf, assemble, headsOf] using hh⟩

variable (ho : Ordered b left) {a c : BlockId}
include ho

theorem Ordered.kind_iff {v : Vertex} (ha : a.index < (mapOf b).size)
    (hc : (order b.partition)[c.index]? = some v)
    (hv : ∀ x, kindOf b.partition (order b.partition) x = kindOf b.partition (order b.partition) v →
      x = v) :
    ((mapOf b).block a).kind = kindOf b.partition (order b.partition) v ↔ a = c := by
  obtain ⟨x, hx⟩ := exists_vertex ha
  constructor
  · intro hk
    rw [block_mapOf hx] at hk
    exact ho.eq_of_getElem? (hv x hk ▸ hx) hc
  · rintro rfl
    rw [block_mapOf hc]

theorem Ordered.inside {q : Position} (ha : a.index < (mapOf b).size)
    (hk : ((mapOf b).block a).kind = .instructions)
    (hle : ((mapOf b).block a).start.index ≤ q.index)
    (hlt : q.index + 1 < ((mapOf b).block a).stop.index) :
    ∃ i, b.instruction? q = some i ∧ i.isBlockEnd = false ∧ (mapOf b).dispatchAt? q = none := by
  obtain ⟨p, hp, hstart, hstop⟩ := exists_run ha hk
  rw [hstart] at hle
  rw [hstop] at hlt
  have hlp := (Body.mem_leaders.1 (ho.code_leader hp)).2
  obtain ⟨-, h2, -, -⟩ := Partition.stop_spec hlp
  have hend := Partition.endsBlockAt_inside hlp hle hlt
  obtain ⟨i, hi⟩ := Body.instruction?_isSome (b := b) (p := q) (by omega)
  unfold Body.endsBlockAt at hend
  simp only [hi, Bool.or_eq_false_iff, Bool.not_eq_false', List.isEmpty_iff] at hend
  refine ⟨i, hi, hend.1, ?_⟩
  cases hd : (mapOf b).dispatchAt? q with
  | none => rfl
  | some c =>
    obtain ⟨k, rest, hth, -⟩ := dispatchAt?_mapOf hd
    rw [hend.2] at hth
    cases hth

theorem Ordered.wayOut (hc : c ∈ ((mapOf b).block a).successors) :
    a ≠ (mapOf b).exitBlock ∧ a ≠ (mapOf b).unwindBlock := by
  obtain ⟨v, x, hv, hx, -⟩ := (mem_successors_mapOf ho).1 hc
  constructor
  · rintro rfl
    rw [ho.getElem?_exit] at hv
    cases hv
    cases hx
  · rintro rfl
    rw [ho.getElem?_unwind] at hv
    cases hv
    cases hx

theorem Ordered.test {k : Nat} {next : Option BlockId} (ha : a.index < (mapOf b).size)
    (hk : ((mapOf b).block a).kind = .dispatch k next) :
    ∃ info c, b.handlers[k]? = some info ∧ (mapOf b).blockAt? info.entry = some c ∧
      c ∈ ((mapOf b).block a).successors ∧ (info.catchType = none ∨
        ∃ d, next = some d ∧ d ∈ ((mapOf b).block a).successors ∧
          ((mapOf b).isDispatch d ∨ d = (mapOf b).unwindBlock)) := by
  obtain ⟨v, hv⟩ := exists_vertex ha
  rw [block_mapOf hv] at hk
  cases v with
  | dispatch k' rest =>
    obtain rfl : k' = k := by
      simp only [kindOf, BlockKind.dispatch.injEq] at hk
      exact hk.1
    obtain ⟨info, c, h1, h2, h3, h4⟩ := dispatch_mapOf ho hv
    refine ⟨info, c, h1, h2, h3, h4.imp_right ?_⟩
    rintro ⟨d, hd, h5⟩
    simp only at hk
    rw [hd] at hk
    exact ⟨d, by cases hk; rfl, h5⟩
  | _ => cases hk

theorem Ordered.isLoopHeader (hc : c ∈ ((mapOf b).block a).successors)
    (hle : c.index ≤ a.index) : ((mapOf b).block c).isLoopHeader = true := by
  obtain ⟨v, x, -, -, hx⟩ := (mem_successors_mapOf ho).1 hc
  have hmem : c.index ∈ headsOf b := mem_headsOf.2
    ⟨by rw [edgesOf_size]; exact (List.getElem?_eq_some_iff.1 hx).1, a.index, hle,
      (mem_edgesOf ho).2 ((mem_successors_mapOf ho).1 hc)⟩
  rw [block_mapOf hx]
  simpa [Block.isLoopHeader] using hmem

theorem Ordered.exists_back {l : Nat} (hc : (mapOf b).loopHeaders[l]? = some c) :
    c.index < (mapOf b).size ∧ ∃ a, c.index ≤ a.index ∧ c ∈ ((mapOf b).block a).successors := by
  have hmem : c.index ∈ headsOf b := by
    have := List.mem_of_getElem? hc
    simp only [mapOf, assemble, List.mem_map] at this
    obtain ⟨i, hi, rfl⟩ := this
    exact hi
  obtain ⟨hlt, a, hle, he⟩ := mem_headsOf.1 hmem
  rw [edgesOf_size] at hlt
  exact ⟨mapOf_size b ▸ hlt, ⟨a⟩, hle, (mem_successors_mapOf ho).2 ((mem_edgesOf ho).1 he)⟩

theorem Ordered.not_bypass (hacc : accepts (edgesOf b) = true)
    (hc : c ∈ ((mapOf b).block a).successors) (hle : c.index ≤ a.index) : ¬ (mapOf b).Bypass c a := by
  have hsound : ∀ a c, c ∈ (edgesOf b)[a]?.getD [] → c ≤ a → ¬ Bypasses (predsOf b) c a := by
    intro a c
    rw [edgesOf_eq, ho.eq] at hacc
    rw [predsOf_eq, edgesOf_eq, ho.eq]
    exact ho.accepts_iff_not_bypasses.1 hacc a c
  exact fun hby => hsound _ _ ((mem_edgesOf ho).2 ((mem_successors_mapOf ho).1 hc)) hle
    ((bypasses_iff_bypass ho).2 hby)

end Fields

theorem charts_of_ofBody (h : ofBody b = .ok m) : m.Charts b := by
  obtain ⟨hv, hacc, rfl⟩ := ofBody_inv h
  have hb := Body.valid_of_validate hv
  obtain ⟨left, ho⟩ := exists_ordered hb
  have hlen := ho.length
  have hsize := mapOf_size b
  have hleft : 0 < left.length := by
    have := ho.head
    cases left with
    | nil => cases this
    | cons v vs => simp
  refine
    { valid := hb
      size := by omega
      id := ?_, entry := ?_, successor := ?_, run := ?_, last := ?_, blockAt := ?_, dispatchAt := ?_
      loopCapacity := ?_, loops := ?_
      exit := fun ha => ho.kind_iff ha ho.getElem?_exit fun x hx => by cases x <;> first | rfl | cases hx
      unwind := fun ha => ho.kind_iff ha ho.getElem?_unwind fun x hx => by
        cases x <;> first | rfl | cases hx
      wayOut := ho.wayOut
      inside := fun ha hk _ hle hlt => ho.inside ha hk hle hlt
      dispatch := ho.test
      back := fun _ hc hle => ⟨ho.isLoopHeader hc hle, ho.not_bypass hacc hc hle⟩
      header := header_mapOf
      headerOf := ho.exists_back }
  · intro a ha
    obtain ⟨v, hv⟩ := exists_vertex ha
    rw [block_mapOf hv]
  · rw [block_mapOf (a := ⟨0⟩) ho.getElem?_zero]
    exact ⟨rfl, rfl⟩
  · intro a c hc
    obtain ⟨v, x, -, -, hx⟩ := (mem_successors_mapOf ho).1 hc
    rw [hsize]
    exact (List.getElem?_eq_some_iff.1 hx).1
  · intro a ha hk
    obtain ⟨p, hp, hstart, hstop⟩ := exists_run ha hk
    obtain ⟨h1, h2, -, -⟩ := Partition.stop_spec (Body.mem_leaders.1 (ho.code_leader hp)).2
    rw [hstart, hstop]
    exact ⟨h1, h2⟩
  · intro a ha hk q hq
    obtain ⟨p, hp, hstart, hstop⟩ := exists_run ha hk
    rw [hstop] at hq
    exact leads_mapOf ho hb hp hq
  · intro p c hc
    have hc' := (blockAt?_mapOf ho).1 hc
    rw [block_mapOf hc', hsize]
    exact ⟨(List.getElem?_eq_some_iff.1 hc').1, rfl, rfl⟩
  · intro p c hc
    obtain ⟨k, rest, -, hc'⟩ := dispatchAt?_mapOf hc
    rw [hsize]
    exact ⟨(List.getElem?_eq_some_iff.1 hc').1, isDispatch_mapOf hc'⟩
  · intro a ha
    obtain ⟨v, hv⟩ := exists_vertex ha
    rw [block_mapOf hv]
    simp only [(loopsAround_spec _ _).2.1]
    simp [loopCount, mapOf, assemble, headsOf]
  · intro a l ha hl
    obtain ⟨h, hh⟩ := exists_header_mapOf ha hl
    refine ⟨h, hh, ?_⟩
    rw [bypass_iff_skirts]
    refine FlowGraph.BackEdges.dominates ⟨fun u hu => hu.1, fun u hu => ?_⟩
      ((contains_loops_mapOf ho hh ha).1 hl)
    exact fun hs => ho.not_bypass hacc hu.1 hu.2 (bypass_iff_skirts.2 hs)

end BlockMap

end StackLift
