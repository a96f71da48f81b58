import StackLift.Build.Loop
import StackLift.Proofs.Chart

/-!
# Loops are natural and properly nested

The loop of a header is found by a search that goes backwards from the edges that lead back to it.
Nothing in the search keeps it inside the loop: it stays there because the header dominates the sources
of these edges. From dominance also comes how two loops lie to each other, and that an inner loop has
the header with the larger number. The order in which a jump leaves loops rests on it.
-/
namespace StackLift

variable {a c h s t : BlockId}

namespace BlockMap

/-- The block is in the loop with number `l`. -/
def Inside (m : BlockMap) (l : Nat) (a : BlockId) : Prop :=
  a.index < m.size ∧ (m.block a).loops.contains l = true

/-- Loop `l` is a part of loop `k`, and not all of it. -/
def StrictlyWithin (m : BlockMap) (l k : Nat) : Prop :=
  (∀ a, m.Inside l a → m.Inside k a) ∧ ∃ a, m.Inside k a ∧ ¬ m.Inside l a

/-- The loops around `source` and not around `target`, in the order in which a jump leaves them. -/
def exited (m : BlockMap) (source target : BlockId) : List Nat :=
  ((m.block source).loops.difference (m.block target).loops).toList.reverse

structure ProperLoops (m : BlockMap) : Prop where
  edge : ∀ {u v}, v ∈ (m.block u).successors →
    u.index < v.index ∨ (m.block v).isLoopHeader = true ∧ m.flow.Dominates v u
  header : ∀ {h : BlockId}, h.index < m.size →
    ((m.block h).isLoopHeader = true ↔ ∃ u, h ∈ (m.block u).successors ∧ h.index ≤ u.index)
  one : ∀ {h : BlockId}, h.index < m.size →
    ((m.block h).isLoopHeader = true ↔ ∃! l : Nat, m.loopHeaders[l]? = some h)
  known : ∀ {l a}, m.Inside l a → ∃ h, m.loopHeaders[l]? = some h
  member : ∀ {l h a}, m.loopHeaders[l]? = some h → (m.Inside l a ↔
    a = h ∨ ∃ u, (h ∈ (m.block u).successors ∧ h.index ≤ u.index) ∧ m.flow.Skirts h a u)
  dominated : ∀ {l h a}, m.loopHeaders[l]? = some h → m.Inside l a → m.flow.Dominates h a
  nested : ∀ {l k g h}, m.loopHeaders[l]? = some g → m.loopHeaders[k]? = some h → g ≠ h →
    (∀ a, ¬ (m.Inside l a ∧ m.Inside k a)) ∨ (∀ a, m.Inside l a → m.Inside k a) ∨
      ∀ a, m.Inside k a → m.Inside l a
  inner : ∀ {l k g h}, m.loopHeaders[l]? = some g → m.loopHeaders[k]? = some h →
    m.StrictlyWithin l k → h.index < g.index
  exits : ∀ {s t : BlockId}, s.index < m.size → t.index < m.size →
    ∀ l, l ∈ m.exited s t ↔ m.Inside l s ∧ ¬ m.Inside l t
  innermostFirst : ∀ {s t : BlockId}, s.index < m.size → t.index < m.size →
    (m.exited s t).Pairwise fun l k => ¬ m.StrictlyWithin k l ∧
      ∃ g h, m.loopHeaders[l]? = some g ∧ m.loopHeaders[k]? = some h ∧ h.index < g.index

/-! ## Blocks that control reaches -/

section Reached

variable {b : Body} {left : List Vertex}

theorem lt_size_of_successor (ho : Ordered b left) (hc : c ∈ ((mapOf b).block a).successors) :
    a.index < (mapOf b).size := by
  obtain ⟨v, x, hv, -, -⟩ := (mem_successors_mapOf ho).1 hc
  rw [mapOf_size]
  exact (List.getElem?_eq_some_iff.1 hv).1

theorem reaches_of_preds (ho : Ordered b left) (ha : a.index = 0 ∨ predsOf b a.index ≠ []) :
    (mapOf b).flow.Reaches ⟨0⟩ a := by
  obtain ⟨n⟩ := a
  induction n using Nat.strong_induction_on with
  | _ n ih =>
    by_cases h0 : n = 0
    · exact h0 ▸ .refl
    · obtain ⟨p, hp⟩ := List.exists_mem_of_ne_nil _ (ha.resolve_left h0)
      obtain ⟨q, hq, hlt⟩ := (numbered_predsOf ho).forward h0 hp
      exact (ih q hlt ((numbered_predsOf ho).source hq)).step ((mem_predsOf_iff ho (a := ⟨q⟩)).1 hq)

theorem reaches_of_successor (ho : Ordered b left) (hc : c ∈ ((mapOf b).block a).successors) :
    (mapOf b).flow.Reaches ⟨0⟩ a :=
  reaches_of_preds ho ((numbered_predsOf ho).source ((mem_predsOf_iff ho).2 hc))

theorem le_of_dominates (ho : Ordered b left) (ha : (mapOf b).flow.Reaches ⟨0⟩ a)
    (hd : (mapOf b).flow.Dominates h a) : h.index ≤ a.index := by
  by_contra hlt
  refine hd (bypass_iff_skirts.1 ((bypasses_iff_bypass ho).1 ?_))
  refine (numbered_predsOf ho).bypasses_of_lt ?_ (by omega)
  cases ha with
  | refl => exact .inl rfl
  | step _ he => exact .inr (List.ne_nil_of_mem ((mem_predsOf_iff ho).2 he))

end Reached

/-! ## Loops by number -/

section Numbers

variable {b : Body}

theorem loopHeaders_mapOf (b : Body) : (mapOf b).loopHeaders = (headsOf b).map BlockId.mk := rfl

theorem index_lt_of_loop_lt {l k : Nat} {g : BlockId} (hg : (mapOf b).loopHeaders[l]? = some g)
    (hh : (mapOf b).loopHeaders[k]? = some h) (hkl : k < l) : h.index < g.index := by
  have hsorted : (headsOf b).Pairwise (· < ·) := List.pairwise_lt_range.filter _
  rw [loopHeaders_mapOf, List.getElem?_map, Option.map_eq_some_iff] at hg hh
  obtain ⟨i, hi, rfl⟩ := hg
  obtain ⟨j, hj, rfl⟩ := hh
  obtain ⟨hl, rfl⟩ := List.getElem?_eq_some_iff.1 hi
  obtain ⟨hk, rfl⟩ := List.getElem?_eq_some_iff.1 hj
  exact List.pairwise_iff_getElem.1 hsorted k l hk hl hkl

theorem loops_mapOf_snug (ha : a.index < (mapOf b).size) : ((mapOf b).block a).loops.Snug := by
  obtain ⟨v, hv⟩ := exists_vertex ha
  rw [block_mapOf hv]
  exact (loopsAround_spec _ _).1

theorem pairwise_exited (m : BlockMap) (s t : BlockId) : (m.exited s t).Pairwise (· > ·) :=
  List.pairwise_reverse.2 (List.pairwise_lt_range.filter _)

theorem mem_exited (hc : (mapOf b).Charts b) (hs : s.index < (mapOf b).size)
    (ht : t.index < (mapOf b).size)
    (l : Nat) : l ∈ (mapOf b).exited s t ↔ (mapOf b).Inside l s ∧ ¬ (mapOf b).Inside l t := by
  have hcap : ((mapOf b).block t).loops.capacity = ((mapOf b).block s).loops.capacity :=
    (hc.loopCapacity ht).trans (hc.loopCapacity hs).symm
  rw [exited, List.mem_reverse, BitSet.mem_toList,
    BitSet.contains_difference (loops_mapOf_snug hs) (loops_mapOf_snug ht) hcap]
  simp [Inside, hs, ht]

end Numbers

/-! ## The loops of a block map -/

section Loops

variable {b : Body} {left : List Vertex} {l k : Nat} {g h a : BlockId}

theorem backEdges_mapOf (ho : Ordered b left) (hc : (mapOf b).Charts b) (h : BlockId) :
    (mapOf b).flow.BackEdges ((mapOf b).BackTo h) h where
  edge _ hu := hu.1
  dominated _ hu hs :=
    (hc.back (lt_size_of_successor ho hu.1) hu.1 hu.2).2 (bypass_iff_skirts.2 hs)

section

variable (ho : Ordered b left) (hc : (mapOf b).Charts b) (hl : (mapOf b).loopHeaders[l]? = some h)
include ho hc hl

theorem inside_mapOf : (mapOf b).Inside l a ↔ (mapOf b).flow.InLoop ((mapOf b).BackTo h) h a := by
  constructor
  · rintro ⟨ha, hin⟩
    exact (contains_loops_mapOf ho hl ha).1 hin
  · intro hin
    have ha : a.index < (mapOf b).size := by
      rcases (backEdges_mapOf ho hc h).leaves hin with rfl | ⟨z, hz⟩
      · exact (hc.headerOf hl).1
      · exact lt_size_of_successor ho hz
    exact ⟨ha, (contains_loops_mapOf ho hl ha).2 hin⟩

theorem reaches_inside (hin : (mapOf b).Inside l a) : (mapOf b).flow.Reaches ⟨0⟩ a := by
  rcases (backEdges_mapOf ho hc h).leaves ((inside_mapOf ho hc hl).1 hin) with rfl | ⟨z, hz⟩
  · obtain ⟨-, u, -, hu⟩ := hc.headerOf hl
    exact (reaches_of_successor ho hu).step hu
  · exact reaches_of_successor ho hz

theorem header_inside : (mapOf b).Inside l h :=
  (inside_mapOf ho hc hl).2 (.inl rfl)

theorem dominates_inside (hin : (mapOf b).Inside l a) : (mapOf b).flow.Dominates h a :=
  (backEdges_mapOf ho hc h).dominates ((inside_mapOf ho hc hl).1 hin)

end

theorem loops_nested (ho : Ordered b left) (hc : (mapOf b).Charts b)
    (hg : (mapOf b).loopHeaders[l]? = some g) (hh : (mapOf b).loopHeaders[k]? = some h) (hne : g ≠ h) :
    (∀ a, ¬ ((mapOf b).Inside l a ∧ (mapOf b).Inside k a)) ∨
      (∀ a, (mapOf b).Inside l a → (mapOf b).Inside k a) ∨
        ∀ a, (mapOf b).Inside k a → (mapOf b).Inside l a := by
  by_cases hshare : ∃ c, (mapOf b).Inside l c ∧ (mapOf b).Inside k c
  · obtain ⟨c, hcl, hck⟩ := hshare
    have hnested := (backEdges_mapOf ho hc g).nested (backEdges_mapOf ho hc h) hne
      (reaches_inside ho hc hg (header_inside ho hc hg)) (reaches_inside ho hc hg hcl)
      ((inside_mapOf ho hc hg).1 hcl) ((inside_mapOf ho hc hh).1 hck)
    simp only [← inside_mapOf ho hc hg, ← inside_mapOf ho hc hh] at hnested
    exact .inr hnested
  · exact .inl fun a ha => hshare ⟨a, ha⟩

theorem StrictlyWithin.index_lt (hw : (mapOf b).StrictlyWithin l k) (ho : Ordered b left)
    (hc : (mapOf b).Charts b) (hg : (mapOf b).loopHeaders[l]? = some g)
    (hh : (mapOf b).loopHeaders[k]? = some h) : h.index < g.index := by
  obtain ⟨hsub, a, hak, hal⟩ := hw
  have hself := header_inside ho hc hg
  have hdom := dominates_inside ho hc hh (hsub g hself)
  refine lt_of_le_of_ne (le_of_dominates ho (reaches_inside ho hc hg hself) hdom) fun heq => ?_
  obtain rfl : h = g := by
    cases h
    cases g
    exact congrArg BlockId.mk heq
  exact hal ((inside_mapOf ho hc hg).2 ((inside_mapOf ho hc hh).1 hak))

theorem exists_header (hc : (mapOf b).Charts b) (hin : (mapOf b).Inside l a) :
    ∃ h, (mapOf b).loopHeaders[l]? = some h := by
  obtain ⟨h, hh, -⟩ := hc.loops hin.1 hin.2
  exact ⟨h, hh⟩

theorem exited_innermostFirst (ho : Ordered b left) (hc : (mapOf b).Charts b)
    (hs : s.index < (mapOf b).size) (ht : t.index < (mapOf b).size) :
    ((mapOf b).exited s t).Pairwise fun l k => ¬ (mapOf b).StrictlyWithin k l ∧
      ∃ g h, (mapOf b).loopHeaders[l]? = some g ∧ (mapOf b).loopHeaders[k]? = some h ∧
        h.index < g.index := by
  refine (pairwise_exited _ s t).imp_of_mem fun {l k} hl hk hlk => ?_
  obtain ⟨g, hg⟩ := exists_header hc ((mem_exited hc hs ht l).1 hl).1
  obtain ⟨h, hh⟩ := exists_header hc ((mem_exited hc hs ht k).1 hk).1
  have hlt := index_lt_of_loop_lt hg hh hlk
  exact ⟨fun hw => absurd (hw.index_lt ho hc hh hg) (by omega), g, h, hg, hh, hlt⟩

end Loops

/-- **Loops are natural and properly nested.** In the map of a body, an edge that does not go forward
leads to the header of a loop, which dominates its source. Each header has one loop: the blocks that
reach such an edge without going through the header, which dominates them all. Two loops are disjoint
or one contains the other, and the inner one has the header with the larger number. A jump leaves the
loops around its source that are not around its target by decreasing header, so none before a loop
inside it. -/
theorem ofBody_properLoops {b : Body} {m : BlockMap} (hm : ofBody b = .ok m) :
    m.ProperLoops ∧ ∀ source target f p, BuildM.exitLoops source target f p = (do
      let scope ← read
      (scope.blocks.exited source target).foldlM (BuildM.exitLoop p) (f, none)) := by
  have hc := charts_of_ofBody hm
  obtain ⟨hv, -, rfl⟩ := ofBody_inv hm
  obtain ⟨left, ho⟩ := exists_ordered hc.valid
  refine ⟨?_, fun _ _ _ _ => rfl⟩
  refine
    { edge := ?_, header := ?_, one := ?_
      known := exists_header hc
      member := inside_mapOf ho hc
      dominated := dominates_inside ho hc
      nested := loops_nested ho hc
      inner := fun hg hh hw => hw.index_lt ho hc hg hh
      exits := mem_exited hc
      innermostFirst := exited_innermostFirst ho hc }
  · intro u v huv
    rcases Nat.lt_or_ge u.index v.index with hlt | hle
    · exact Or.inl hlt
    · obtain ⟨hhead, hby⟩ := hc.back (lt_size_of_successor ho huv) huv hle
      exact Or.inr ⟨hhead, fun hs => hby (bypass_iff_skirts.2 hs)⟩
  · intro h hh
    constructor
    · intro hhead
      obtain ⟨l, hl⟩ := Option.isSome_iff_exists.1 hhead
      obtain ⟨-, u, hle, hu⟩ := hc.headerOf ((hc.header hh).1 hl)
      exact ⟨u, hu, hle⟩
    · rintro ⟨u, hu, hle⟩
      exact (hc.back (lt_size_of_successor ho hu) hu hle).1
  · intro h hh
    rw [Block.isLoopHeader, Option.isSome_iff_exists]
    constructor
    · rintro ⟨l, hl⟩
      refine ⟨l, (hc.header hh).1 hl, fun k hk => ?_⟩
      exact Option.some.inj (((hc.header hh).2 hk).symm.trans hl)
    · rintro ⟨l, hl, -⟩
      exact ⟨l, (hc.header hh).2 hl⟩

/-- One loop inside another, and a jump out of both. -/
def twoLoops : Body where
  code := #[.load 0, .ifZero .eq ⟨8⟩, .load 0, .ifZero .eq ⟨0⟩, .load 0, .ifZero .ne ⟨2⟩,
    .load 0, .ifZero .eq ⟨2⟩, .ret]
  maxLocals := 1
  handlers := []

theorem twoLoops_properLoops : ∃ m, ofBody twoLoops = .ok m ∧ m.ProperLoops ∧
    (⟨4⟩ : BlockId) ∈ (m.block ⟨3⟩).successors ∧ m.exited ⟨3⟩ ⟨4⟩ = [1, 0] := by
  have hacc : accepts (edgesOf twoLoops) = true := by decide +kernel
  have hm : ofBody twoLoops = .ok (mapOf twoLoops) := by
    rcases ofBody_cases (b := twoLoops) rfl with ⟨-, hm⟩ | ⟨hno, -⟩
    · exact hm
    · exact absurd (hacc.symm.trans hno) (by decide)
  exact ⟨_, hm, (ofBody_properLoops hm).1, by decide +kernel, by decide +kernel⟩

end BlockMap

end StackLift
