import Mathlib.Data.Finset.Max
import StackLift.Flow.BlockMap
import StackLift.Proofs.Dominance
import StackLift.Proofs.FlowGraph
import StackLift.Proofs.Search

/-!
# Flow graphs numbered by a search

The vertices of a flow graph are numbered in the order in which a depth-first search leaves them, the
latest first (`Numbering`). Vertices without successors that the search does not enter come last.

**Edges by number.** `edgesAlong` and `predsIn` are the edges between the numbers, and `bypasses_iff`
says that paths by number are paths of the graph.

**Result.** `Numbering.accepts_iff`: the dominator table accepts all edges that go back exactly when
the graph has no improper cycle. An edge that is not accepted closes such a cycle, since its source was
found from its target. The other way round, the smallest vertex of a cycle is entered over an edge that
goes back. The numbering does not occur in the answer.
-/
namespace StackLift

variable {a c i : Nat}

namespace BlockMap

/-! ## Positions in a list -/

variable {α : Type} {l : List α} {x : α} {edges : Array (List Nat)}

theorem getElem?_of_idxOf? [DecidableEq α] (h : l.idxOf? x = some i) : l[i]? = some x := by
  obtain ⟨hi, hx, -⟩ := List.idxOf?_eq_some_iff.1 h
  rw [List.getElem?_eq_getElem hi, hx]

theorem getElem?_inj_of_nodup (hl : l.Nodup) {j : Nat} (hi : l[i]? = some x) (hj : l[j]? = some x) :
    i = j := by
  obtain ⟨hi, hx⟩ := List.getElem?_eq_some_iff.1 hi
  obtain ⟨hj, hy⟩ := List.getElem?_eq_some_iff.1 hj
  exact hl.getElem_inj_iff.1 (hx.trans hy.symm)

theorem idxOf?_of_getElem? [DecidableEq α] (hl : l.Nodup) (h : l[i]? = some x) :
    l.idxOf? x = some i := by
  obtain ⟨hi, hx⟩ := List.getElem?_eq_some_iff.1 h
  refine List.idxOf?_eq_some_iff.2 ⟨hi, hx, ?_⟩
  intro j hj hjx
  have := getElem?_inj_of_nodup hl (List.getElem?_eq_some_iff.2 ⟨_, hjx⟩) h
  omega

/-! ## Edges by number -/

/-- The successors by number of every vertex of `order`. -/
def edgesAlong {α : Type} [DecidableEq α] (next : α → List α) (order : List α) : Array (List Nat) :=
  (order.map fun v => (next v).filterMap order.idxOf?).toArray

/-- The sources of the edges into `n`. -/
def predsIn (edges : Array (List Nat)) (n : Nat) : List Nat :=
  ((List.range edges.size).map (sources (links edges))).toArray[n]?.getD []

/-- All edges that go back lead to a dominator of their source, by the dominator table. -/
def accepts (edges : Array (List Nat)) : Bool :=
  (backEdges (links edges)).all fun e =>
    (DominatorTable.compute edges.size (predsIn edges)).dominates e.2 e.1

theorem mem_links : (a, c) ∈ links edges ↔ c ∈ edges[a]?.getD [] := by
  unfold links
  simp only [List.mem_flatMap, List.mem_map, Prod.mk.injEq, Prod.exists]
  constructor
  · rintro ⟨ts, n, hn, t, ht, rfl, rfl⟩
    have := List.mem_zipIdx_iff_getElem?.1 hn
    simp only [Array.getElem?_toList] at this
    rw [this]
    exact ht
  · intro h
    cases hts : edges[a]? with
    | none => simp [hts] at h
    | some ts =>
      refine ⟨ts, a, List.mem_zipIdx_iff_getElem?.2 (by simpa using hts), c, ?_, rfl, rfl⟩
      simpa [hts] using h

theorem mem_sources {ls : List (Nat × Nat)} : a ∈ sources ls c ↔ (a, c) ∈ ls := by
  unfold sources
  simp

theorem accepts_iff_dominates : accepts edges = true ↔ ∀ a c, c ∈ edges[a]?.getD [] → c ≤ a →
      (DominatorTable.compute edges.size (predsIn edges)).dominates c a = true := by
  simp only [accepts, backEdges, List.all_eq_true, List.mem_filter, Prod.forall, mem_links,
    decide_eq_true_eq, and_imp]

section Edges

variable {α : Type} [DecidableEq α] {next : α → List α} {order : List α}

@[simp] theorem edgesAlong_size (next : α → List α) (order : List α) :
    (edgesAlong next order).size = order.length := by
  simp [edgesAlong]

theorem mem_edgesAlong (hnd : order.Nodup) : c ∈ (edgesAlong next order)[a]?.getD [] ↔
      ∃ v x, order[a]? = some v ∧ x ∈ next v ∧ order[c]? = some x := by
  unfold edgesAlong
  simp only [List.getElem?_toArray, List.getElem?_map]
  cases hv : order[a]? with
  | none => simp
  | some v =>
    simp only [Option.map_some, Option.getD_some, List.mem_filterMap, Option.some.injEq,
      exists_and_left, exists_eq_left']
    constructor
    · rintro ⟨x, hx, hc⟩
      exact ⟨x, hx, getElem?_of_idxOf? hc⟩
    · rintro ⟨x, hx, hc⟩
      exact ⟨x, hx, idxOf?_of_getElem? hnd hc⟩

theorem mem_predsIn (hnd : order.Nodup) :
    a ∈ predsIn (edgesAlong next order) c ↔ c ∈ (edgesAlong next order)[a]?.getD [] := by
  unfold predsIn
  simp only [List.getElem?_toArray, List.getElem?_map]
  by_cases hc : c < (edgesAlong next order).size
  · rw [List.getElem?_range hc]
    simp only [Option.map_some, Option.getD_some, mem_sources, mem_links]
  · rw [List.getElem?_eq_none (by simpa using hc)]
    simp only [Option.map_none, Option.getD_none, List.not_mem_nil, false_iff]
    intro h
    obtain ⟨v, x, -, -, hx⟩ := (mem_edgesAlong hnd).1 h
    have := (List.getElem?_eq_some_iff.1 hx).1
    simp at hc
    omega

end Edges

/-! ## Numberings -/

/-- A search from the root leaves the vertices `left`, the latest first, and never enters `sinks`. -/
structure Numbering {α : Type} (f : FlowGraph α) (sinks left : List α) : Prop where
  head : left.head? = some f.root
  nodup : (left ++ sinks).Nodup
  closed : ∀ v ∈ left, ∀ x ∈ f.next v, x ∈ left ++ sinks
  follows : ∀ u ∈ left, u ≠ f.root → ∃ before after, left = before ++ u :: after ∧
    ∃ w ∈ before, u ∈ f.next w
  retreats : Search.Retreats f.next left
  sink : ∀ v ∈ sinks, f.next v = []

section Searched

variable {α : Type} [DecidableEq α] {f : FlowGraph α} {sinks univ : List α}

theorem exists_numbering (hroot : f.root ∈ univ) (hnext : ∀ u ∈ univ, f.next u ⊆ univ)
    (hsinks : sinks ⊆ univ) (hnd : sinks.Nodup) (hfree : f.root ∉ sinks)
    (hsink : ∀ v ∈ sinks, f.next v = []) (fuel : Nat) (hfuel : univ.length < fuel) :
    ∃ left, (Search.visit f.next fuel { seen := sinks } f.root).done = left ∧
      Numbering f sinks left ∧ left ⊆ univ := by
  have hroom : Search.room univ { seen := sinks } < fuel := Nat.lt_of_le_of_lt Search.room_le_length hfuel
  have hin : ∀ u, u ∈ univ → u ∈ univ ∨ f.next u = [] := fun _ => .inl
  obtain ⟨left, hl, hhead⟩ := Search.visit_order f.next fuel { seen := sinks } f.root
  obtain ⟨hc, hmem⟩ := Search.visit_closed hnext hin fuel { seen := sinks } f.root hroot hroom
  have hleft : f.root ∈ left := ((hl.seen _).1 hmem).resolve_right hfree
  refine ⟨left, by simpa using hl.done, ⟨hhead (List.ne_nil_of_mem hleft), ?_, ?_, ?_, ?_, hsink⟩, ?_⟩
  · exact hl.nodup.append hnd fun x hx hx' => hl.fresh x hx hx'
  · intro v hv x hx
    have := hc.closed v ((hl.seen v).2 (.inl hv)) (hl.fresh v hv) x hx
    simpa using (hl.seen x).1 this
  · intro u hu hne
    exact (hl.follows u hu).resolve_left (by simpa using hne)
  · exact Search.visit_retreats hnext hin fuel { seen := sinks } f.root hroot hroom hl.done
  · intro v hv
    have hknown := Search.visit_seen_of [] (fun u _ => hnext u) fuel { seen := sinks } f.root hroot
      ⟨by simp, hsinks⟩
    exact hknown.2 v ((hl.seen v).2 (.inl hv))

end Searched

namespace Numbering

variable {α : Type} {f : FlowGraph α} {sinks left : List α}
variable {i j : Nat} {x y : α}

section

variable (hf : Numbering f sinks left) {v : α}
include hf

theorem getElem?_zero : (left ++ sinks)[0]? = some f.root := by
  have := hf.head
  cases left with
  | nil => cases this
  | cons v vs => simpa using this

theorem mem_left (hv : v ∈ left ++ sinks) (hx : x ∈ f.next v) : v ∈ left := by
  rcases List.mem_append.1 hv with h | h
  · exact h
  · rw [hf.sink v h] at hx
    cases hx

theorem mem_of_reaches (hv : f.Reaches f.root v) : v ∈ left ++ sinks := by
  induction hv with
  | refl => exact List.mem_of_getElem? hf.getElem?_zero
  | step _ he ih => exact hf.closed _ (hf.mem_left ih he) _ he

theorem reaches (hv : v ∈ left) : f.Reaches f.root v := by
  obtain ⟨before, after, hl⟩ := List.append_of_mem hv
  induction hn : before.length using Nat.strong_induction_on generalizing v before after with
  | _ n ih =>
    by_cases hr : v = f.root
    · exact hr ▸ .refl
    · obtain ⟨b, a, hba, w, hw, he⟩ := hf.follows v hv hr
      obtain ⟨b1, b2, rfl⟩ := List.append_of_mem hw
      have hlen : (b1 ++ w :: b2).length = before.length := by
        have hnd := (List.nodup_append.1 hf.nodup).1
        refine getElem?_inj_of_nodup hnd (x := v) ?_ ?_
        · rw [hba]
          simp
        · rw [hl]
          simp
      refine .step (ih b1.length ?_ (by rw [hba]; simp) b1 (b2 ++ v :: a) (by simp [hba]) rfl) he
      rw [← hn, ← hlen]
      simp

end

variable [DecidableEq α]

/-- Every vertex but the root has a predecessor with a smaller number. -/
theorem numbered (hf : Numbering f sinks left) :
    Numbered (predsIn (edgesAlong f.next (left ++ sinks))) (left ++ sinks).length := by
  have hnd := hf.nodup
  -- The vertex before which `u` was left, and its number.
  have hback : ∀ u ∈ left, u ≠ f.root → ∀ c, (left ++ sinks)[c]? = some u →
      ∃ q, q < c ∧ q ∈ predsIn (edgesAlong f.next (left ++ sinks)) c := by
    intro u hu hne c hc
    obtain ⟨before, after, hl, w, hw, hsucc⟩ := hf.follows u hu hne
    obtain ⟨q, hq⟩ := List.mem_iff_getElem?.1 hw
    have hqlt := (List.getElem?_eq_some_iff.1 hq).1
    have hoq : (left ++ sinks)[q]? = some w := by
      rw [hl, List.append_assoc, List.getElem?_append_left hqlt]
      exact hq
    have hoc : (left ++ sinks)[before.length]? = some u := by
      rw [hl]
      simp
    have : before.length = c := getElem?_inj_of_nodup hnd hoc hc
    exact ⟨q, by omega, (mem_predsIn hnd).2 ((mem_edgesAlong hnd).2 ⟨w, u, hoq, hsucc, hc⟩)⟩
  refine ⟨(List.getElem?_eq_some_iff.1 hf.getElem?_zero).1, ?_, ?_, ?_⟩
  · intro p c hp
    obtain ⟨v, x, -, -, hx⟩ := (mem_edgesAlong hnd).1 ((mem_predsIn hnd).1 hp)
    exact (List.getElem?_eq_some_iff.1 hx).1
  · intro p c hp
    obtain ⟨v, x, hv, hx, -⟩ := (mem_edgesAlong hnd).1 ((mem_predsIn hnd).1 hp)
    by_cases h0 : v = f.root
    · left
      subst h0
      exact getElem?_inj_of_nodup hnd hv hf.getElem?_zero
    · right
      obtain ⟨q, -, hq⟩ := hback v (hf.mem_left (List.mem_of_getElem? hv) hx) h0 p hv
      exact List.ne_nil_of_mem hq
  · intro p c hc hp
    obtain ⟨v, x, hv, hx, hxc⟩ := (mem_edgesAlong hnd).1 ((mem_predsIn hnd).1 hp)
    rcases List.mem_append.1 (List.mem_of_getElem? hxc) with hl | hl
    · refine (hback x hl ?_ c hxc).imp fun q hq => ⟨hq.2, hq.1⟩
      rintro rfl
      exact hc (getElem?_inj_of_nodup hnd hxc hf.getElem?_zero)
    · refine ⟨p, hp, ?_⟩
      -- The sinks come last, and their predecessors are not among them.
      obtain ⟨j, hj⟩ := List.mem_iff_getElem?.1 (hf.mem_left (List.mem_of_getElem? hv) hx)
      have hjl := (List.getElem?_eq_some_iff.1 hj).1
      have hoj : (left ++ sinks)[j]? = some v := by
        rw [List.getElem?_append_left hjl]
        exact hj
      have hpj := getElem?_inj_of_nodup hnd hv hoj
      have hcl : left.length ≤ c := by
        rcases Nat.lt_or_ge c left.length with h | h
        · rw [List.getElem?_append_left h] at hxc
          exact absurd hl fun hl => (List.disjoint_of_nodup_append hnd) (List.mem_of_getElem? hxc) hl
        · exact h
      omega

/-! ## Paths by number -/

section

variable (hf : Numbering f sinks left) (hx : (left ++ sinks)[i]? = some x)
include hf hx

theorem skirts_of_bypasses (h : Bypasses (predsIn (edgesAlong f.next (left ++ sinks))) i j)
    (hy : (left ++ sinks)[j]? = some y) : f.Skirts x f.root y := by
  have hne : ∀ {k : Nat} {z : α}, (left ++ sinks)[k]? = some z → i ≠ k → z ≠ x := by
    rintro k z hz hik rfl
    exact hik (getElem?_inj_of_nodup hf.nodup hx hz)
  induction h generalizing y with
  | root h0 =>
    obtain rfl : f.root = y := Option.some.inj (hf.getElem?_zero.symm.trans hy)
    exact .refl (hne hy h0)
  | @step p b _ he hib ih =>
    obtain ⟨v, z, hv, hz, hzb⟩ := (mem_edgesAlong hf.nodup).1 ((mem_predsIn hf.nodup).1 he)
    obtain rfl : z = y := Option.some.inj (hzb.symm.trans hy)
    exact (ih hv).step hz (hne hy hib)

theorem bypasses_of_skirts (h : f.Skirts x f.root y) (hy : (left ++ sinks)[j]? = some y) :
    Bypasses (predsIn (edgesAlong f.next (left ++ sinks))) i j := by
  have hne : ∀ {k : Nat} {z : α}, (left ++ sinks)[k]? = some z → z ≠ x → i ≠ k := by
    rintro k z hz hzx rfl
    exact hzx (Option.some.inj (hz.symm.trans hx))
  induction h generalizing j with
  | refl h0 =>
    obtain rfl : j = 0 := getElem?_inj_of_nodup hf.nodup hy hf.getElem?_zero
    exact .root (hne hy h0)
  | @step v z hv he hzx ih =>
    obtain ⟨p, hp⟩ := List.mem_iff_getElem?.1 (hf.mem_of_reaches hv.reaches)
    refine .step (ih hp) ?_ (hne hy hzx)
    exact (mem_predsIn hf.nodup).2 ((mem_edgesAlong hf.nodup).2 ⟨v, z, hp, he, hy⟩)

theorem bypasses_iff (hy : (left ++ sinks)[j]? = some y) :
    Bypasses (predsIn (edgesAlong f.next (left ++ sinks))) i j ↔ f.Skirts x f.root y :=
  ⟨fun h => hf.skirts_of_bypasses hx h hy, fun h => hf.bypasses_of_skirts hx h hy⟩

theorem skirts_of_lt (hy : (left ++ sinks)[j]? = some y) (hr : f.Reaches f.root y) (hij : j < i) :
    f.Skirts x f.root y := by
  refine (hf.bypasses_iff hx hy).1 (hf.numbered.bypasses_of_lt ?_ hij)
  cases hr with
  | refl => exact .inl (getElem?_inj_of_nodup hf.nodup hy hf.getElem?_zero)
  | @step v _ hv he =>
    obtain ⟨p, hp⟩ := List.mem_iff_getElem?.1 (hf.mem_of_reaches hv)
    exact .inr (List.ne_nil_of_mem ((mem_predsIn hf.nodup).2
      ((mem_edgesAlong hf.nodup).2 ⟨v, y, hp, he, hy⟩)))

end

/-! ## Edges that go back -/

section

variable (hf : Numbering f sinks left)
include hf

theorem accepts_iff_not_bypasses : accepts (edgesAlong f.next (left ++ sinks)) = true ↔
    ∀ a c, c ∈ (edgesAlong f.next (left ++ sinks))[a]?.getD [] → c ≤ a →
      ¬ Bypasses (predsIn (edgesAlong f.next (left ++ sinks))) c a := by
  rw [accepts_iff_dominates]
  refine forall₃_congr fun a c hac => ?_
  rw [edgesAlong_size, DominatorTable.dominates_iff hf.numbered
    (hf.numbered.source ((mem_predsIn hf.nodup).2 hac))]

theorem exists_skirted (ha : ¬ accepts (edgesAlong f.next (left ++ sinks)) = true) :
    ∃ (a c : Nat) (u x : α), c < a ∧ (left ++ sinks)[a]? = some u ∧ (left ++ sinks)[c]? = some x ∧
      x ∈ f.next u ∧ f.Skirts x f.root u := by
  rw [hf.accepts_iff_not_bypasses] at ha
  push Not at ha
  obtain ⟨a, c, hac, hle, hby⟩ := ha
  obtain ⟨u, x, hu, hxu, hx⟩ := (mem_edgesAlong hf.nodup).1 hac
  have hs := (hf.bypasses_iff hx hu).1 hby
  refine ⟨a, c, u, x, Nat.lt_of_le_of_ne hle ?_, hu, hx, hxu, hs⟩
  rintro rfl
  exact hs.ne (Option.some.inj (hu.symm.trans hx))

theorem irreducible_of_skirted {u : α} (hca : c < a) (hu : (left ++ sinks)[a]? = some u)
    (hx : (left ++ sinks)[c]? = some x) (hxu : x ∈ f.next u) (hs : f.Skirts x f.root u) :
    f.Irreducible := by
  -- Both vertices were entered, `x` first.
  obtain ⟨j, hj⟩ := List.mem_iff_getElem?.1 (hf.mem_left (List.mem_of_getElem? hu) hxu)
  have hjl := (List.getElem?_eq_some_iff.1 hj).1
  obtain rfl : j = a :=
    getElem?_inj_of_nodup hf.nodup (by rw [List.getElem?_append_left hjl]; exact hj) hu
  have hcl : left[c]? = some x := by
    rw [List.getElem?_append_left (by omega)] at hx
    exact hx
  obtain ⟨hc, hxc⟩ := List.getElem?_eq_some_iff.1 hcl
  have hsplit : left = left.take c ++ x :: left.drop (c + 1) := by
    rw [← hxc, ← List.drop_eq_getElem_cons hc, List.take_append_drop]
  have huafter : u ∈ left.drop (c + 1) := by
    refine List.mem_iff_getElem?.2 ⟨j - (c + 1), ?_⟩
    rw [List.getElem?_drop, show c + 1 + (j - (c + 1)) = j by omega]
    exact hj
  obtain ⟨path, hsub, hchain⟩ := hf.retreats _ _ _ hsplit u huafter hxu
  have hcycle : (x :: (path ++ [u])).Sublist left := by
    rw [hsplit]
    exact (hsub.cons_cons x).trans (List.sublist_append_right _ _)
  refine ⟨x :: (path ++ [u]), ?_, ?_, fun v hv => hf.reaches (hcycle.subset hv), ?_⟩
  · have : List.IsChain (fun x y => y ∈ f.next x) ((x :: path) ++ u :: [x]) :=
      List.isChain_split.2 ⟨by simpa using hchain, by simpa using hxu⟩
    simpa [FlowGraph.Closed] using this
  · exact hcycle.nodup (List.nodup_append.1 hf.nodup).1
  · intro d hd
    rcases List.mem_cons.1 hd with rfl | hd
    · exact ⟨u, by simp, fun h => h hs⟩
    · -- The other vertices of the cycle come behind `x`.
      refine ⟨x, by simp, fun h => h ?_⟩
      obtain ⟨k, hk⟩ := List.mem_iff_getElem?.1 (hsub.subset hd)
      rw [List.getElem?_drop] at hk
      have hkl := (List.getElem?_eq_some_iff.1 hk).1
      refine hf.skirts_of_lt (i := c + 1 + k) ?_ hx (hf.reaches (List.mem_of_getElem? hcl)) (by omega)
      rw [List.getElem?_append_left hkl]
      exact hk

theorem not_improperCycle (ha : accepts (edgesAlong f.next (left ++ sinks)) = true) {c : List α} :
    ¬ f.ImproperCycle c := by
  intro hc
  have hne : c.toFinset.Nonempty := by
    cases c with
    | nil => exact hc.closed.elim
    | cons v vs => exact ⟨v, by simp⟩
  have hnum : ∀ v ∈ c, (left ++ sinks)[(left ++ sinks).idxOf v]? = some v := by
    intro v hv
    have := hf.mem_of_reaches (hc.reached v hv)
    rw [List.getElem?_eq_getElem (List.idxOf_lt_length_of_mem this), List.getElem_idxOf]
  obtain ⟨h, hh, hmin⟩ := Finset.exists_min_image c.toFinset (fun v => (left ++ sinks).idxOf v) hne
  simp only [List.mem_toFinset] at hh hmin
  obtain ⟨v, hv, hdom⟩ := hc.improper h hh
  obtain ⟨u, hu, hs, he⟩ := hc.closed.entered hh hv (FlowGraph.skirts_of_not_dominates hdom)
  refine hf.accepts_iff_not_bypasses.1 ha _ _ ?_ (hmin u hu)
    (hf.bypasses_of_skirts (hnum h hh) hs (hnum u hu))
  exact (mem_edgesAlong hf.nodup).2 ⟨u, h, hnum u hu, he, hnum h hh⟩

theorem accepts_iff : accepts (edgesAlong f.next (left ++ sinks)) = true ↔ ¬ f.Irreducible := by
  constructor
  · rintro ha ⟨c, hc⟩
    exact hf.not_improperCycle ha hc
  · intro hi
    by_contra ha
    obtain ⟨a, c, u, x, hca, hu, hx, hxu, hs⟩ := hf.exists_skirted ha
    exact hi (hf.irreducible_of_skirted hca hu hx hxu hs)

end

end Numbering

end BlockMap

end StackLift
