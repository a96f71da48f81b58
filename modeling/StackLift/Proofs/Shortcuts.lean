import StackLift.Build.Tidy
import StackLift.Proofs.RemovalOrder
import StackLift.Proofs.Sound

/-!
# Tidying keeps the ways through a graph

A begin that is not the start is a passage: control comes in over one edge and goes on over another.
Tidying any consistent graph, not only one that lifting leaves, removes begins and loop headers that no
edge leads to and folds passages into their successors. Seen from every other node nothing changes:
its edges stay, and each leads to the same place.

**Steps.** `Smooths` is what one removal or one fold keeps, and what a sequence of them keeps. Folds are
made while the list of passages is walked, so chains of passages are folded one at a time, and a passage
that leads to itself disappears with its edge.

**Results.**
* `tidy_smooths`: tidying succeeds, keeps every way from a node that is neither a passage nor a lost
  header, keeps the order of the edges into a node that no passage leads to, and leaves no passage that
  could be folded.
-/
namespace StackLift

namespace Graph

variable {g g' g'' : Graph} {b m n : NodeId} {e e' x : EdgeId}
  {d d' y : Edge} {l l' : List NodeId}

/-! ## Passages -/

/-- A begin that is not the start. -/
def Passage (g : Graph) (n : NodeId) : Prop := g.kind? n = some .begin ∧ g.start ≠ some n

/-- A loop header that no edge leads to, and that is not the start. -/
def LostHeader (g : Graph) (n : NodeId) : Prop :=
  g.kindIs n (·.toClass = .loopHeader) = true ∧ g.start ≠ some n ∧ g.inDegree n = 0

instance : DecidablePred g.LostHeader := fun _ => inferInstanceAs (Decidable (_ ∧ _ ∧ _))

/-- Control that takes the edge comes to `n`, the first node on its way that is not a passage. -/
inductive Leads (g : Graph) : EdgeId → NodeId → Prop where
  | here {e : EdgeId} {d : Edge} (hd : g.edge? e = some d) (hn : ¬ g.Passage d.target) :
    Leads g e d.target
  | through {e x : EdgeId} {d : Edge} {n : NodeId} (hd : g.edge? e = some d) (hp : g.Passage d.target)
    (hx : x ∈ g.outgoing d.target) (h : Leads g x n) : Leads g e n

/-- Every edge is listed at both ends, which exist, and begins do not join or split control. -/
structure Foldable (g : Graph) : Prop where
  linked : g.Linked
  ends : ∀ {e d}, g.edge? e = some d → g.contains d.source = true ∧ g.contains d.target = true
  narrow : ∀ {n}, g.kind? n = some .begin → g.inDegree n ≤ 1 ∧ g.outDegree n ≤ 1

/-- If `n` is a passage with one edge on either side, it follows a split. -/
def Settled (g : Graph) (n : NodeId) : Prop :=
  g.Passage n → g.inDegree n = 1 → g.outDegree n = 1 →
    ∀ p ∈ g.predecessors n, g.kindIs p NodeKind.isControlSplit = true

/-- What stays when passages are folded and the nodes `l`, which no edge leads to, are removed. -/
structure Smooths (g g' : Graph) (l : List NodeId) : Prop where
  start : g'.start = g.start
  old : ∀ {n x}, g'.node? n = some x → g.node? n = some x
  kept : ∀ {n}, ¬ g.Passage n → n ∉ l → g'.node? n = g.node? n ∧ g'.outgoing n = g.outgoing n
  leads : ∀ {e d}, g.edge? e = some d → ¬ g.Passage d.source → d.source ∉ l →
    (∃ t, g'.edge? e = some { d with target := t }) ∧ ∀ n, g'.Leads e n ↔ g.Leads e n
  entered : ∀ {n}, g'.contains n = true → (∀ p ∈ g.predecessors n, ¬ g.Passage p) →
    g'.predecessorEdges n = (g.predecessorEdges n).filter (·.2.source ∉ l)

namespace Smooths

theorem refl (g : Graph) : Smooths g g [] := by
  refine ⟨rfl, id, fun _ _ => ⟨rfl, rfl⟩, fun hd _ _ => ⟨⟨_, hd⟩, fun _ => Iff.rfl⟩, fun _ _ => ?_⟩
  simp

theorem passage (h : Smooths g g' l) (hn : g'.Passage n) : g.Passage n := by
  obtain ⟨x, hx, hk⟩ := kind?_eq_some.1 hn.1
  exact ⟨kind?_eq_some.2 ⟨x, h.old hx, hk⟩, h.start ▸ hn.2⟩

theorem contains (h : Smooths g g' l) (hn : g'.contains n = true) : g.contains n = true := by
  obtain ⟨x, hx⟩ := Option.isSome_iff_exists.1 hn
  exact Option.isSome_iff_exists.2 ⟨x, h.old hx⟩

theorem trans (h : Smooths g g' l) (h' : Smooths g' g'' l') : Smooths g g'' (l ++ l') := by
  refine ⟨h'.start.trans h.start, fun hx => h.old (h'.old hx), fun {n} hn hl => ?_,
    fun {e d} hd hs hl => ?_, fun {n} hn hp => ?_⟩
  · rw [List.mem_append, not_or] at hl
    obtain ⟨h1, h2⟩ := h.kept hn hl.1
    obtain ⟨h3, h4⟩ := h'.kept (fun hc => hn (h.passage hc)) hl.2
    exact ⟨h3.trans h1, h4.trans h2⟩
  · rw [List.mem_append, not_or] at hl
    obtain ⟨⟨t, ht⟩, hway⟩ := h.leads hd hs hl.1
    obtain ⟨⟨t', ht'⟩, hway'⟩ := h'.leads ht (fun hc => hs (h.passage hc)) hl.2
    exact ⟨⟨t', ht'⟩, fun n => (hway' n).trans (hway n)⟩
  · have hin := h.entered (h'.contains hn) hp
    have hp' : ∀ p ∈ g'.predecessors n, ¬ g'.Passage p := by
      intro p hmem hc
      rw [predecessors, hin] at hmem
      obtain ⟨x, hx, rfl⟩ := List.mem_map.1 hmem
      exact hp _ (List.mem_map_of_mem (List.mem_of_mem_filter hx)) (h.passage hc)
    rw [h'.entered hn hp', hin, List.filter_filter]
    refine List.filter_congr fun x _ => ?_
    simp [Bool.and_comm]

end Smooths

/-! ## Removing what no edge leads to -/

theorem Lacks.smooths (h : Lacks g g' l) (hg : g.Linked) (hl : ∀ n ∈ l, g.incoming n = []) :
    Smooths g g' l := by
  have hnew : ∀ {e d}, g.edge? e = some d → d.target ∉ l := by
    intro e d he hd
    have := hg.incoming.2 ⟨d, he, rfl⟩
    rw [hl _ hd] at this
    cases this
  have hedge : ∀ {e d}, g'.edge? e = some d ↔ g.edge? e = some d ∧ d.source ∉ l := by
    intro e d
    rw [h.edge?, Option.filter_eq_some_iff, decide_eq_true_eq]
    exact ⟨fun h => ⟨h.1, h.2.1⟩, fun h => ⟨h.1, h.2, hnew h.1⟩⟩
  have hout : ∀ {n}, n ∉ l → g'.outgoing n = g.outgoing n := by
    intro n hn
    rw [h.outgoing, List.filter_eq_self]
    intro e he
    obtain ⟨d, hd, rfl⟩ := hg.outgoing.1 he
    rw [hedge.2 ⟨hd, hn⟩]
    rfl
  have hpass : ∀ {n}, n ∉ l → (g'.Passage n ↔ g.Passage n) := by
    intro n hn
    rw [Passage, Passage, h.start, kind?, kind?, h.node?, if_neg hn]
  refine ⟨h.start, fun {n x} hx => ?_, fun {n} _ hn => ⟨by rw [h.node?, if_neg hn], hout hn⟩,
    fun {e d} he _ hs => ⟨⟨d.target, hedge.2 ⟨he, hs⟩⟩, fun n => ?_⟩, fun {n} hn _ => ?_⟩
  · rw [h.node?] at hx
    split at hx
    · cases hx
    · exact hx
  · constructor
    · intro h
      clear he hs
      induction h with
      | here hx hn => exact .here (hedge.1 hx).1 fun hc => hn ((hpass (hnew (hedge.1 hx).1)).2 hc)
      | through hx hp hy _ ih =>
        have ht := hnew (hedge.1 hx).1
        exact .through (hedge.1 hx).1 ((hpass ht).1 hp) (hout ht ▸ hy) ih
    · intro h
      have hs' : ∀ y, g.edge? e = some y → y.source ∉ l := fun y hy =>
        Option.some.inj (he.symm.trans hy) ▸ hs
      clear he hs
      induction h with
      | here hx hn => exact .here (hedge.2 ⟨hx, hs' _ hx⟩) fun hc => hn ((hpass (hnew hx)).1 hc)
      | through hx hp hy _ ih =>
        have ht := hnew hx
        refine .through (hedge.2 ⟨hx, hs' _ hx⟩) ((hpass ht).2 hp) (hout ht ▸ hy) (ih fun z hz => ?_)
        obtain ⟨w, hw, hws⟩ := hg.outgoing.1 hy
        obtain rfl := Option.some.inj (hw.symm.trans hz)
        exact hws ▸ ht
  · rw [predecessorEdges, predecessorEdges, h.incoming, List.filter_filterMap, List.filterMap_filter]
    refine List.filterMap_congr fun x hx => ?_
    obtain ⟨y, hy, -⟩ := hg.incoming.1 hx
    by_cases hs : y.source ∈ l
    · simp [h.edge?, hy, hs, Option.filter_some]
    · simp [hy, hs, hedge.2 ⟨hy, hs⟩, Option.filter_some]

theorem Upkept.foldable_removeAll (hg : g.Upkept) (l : List NodeId)
    (hn : ∀ n, g.kind? n = some .begin → g.inDegree n ≤ 1 ∧ g.outDegree n ≤ 1) :
    (l.foldl Graph.removeNode g).Foldable := by
  have h := hg.lacks_removeAll l
  refine ⟨(hg.removeAll l).linked, (hg.removeAll l).ends, fun {n} hk => ?_⟩
  rw [kind?, h.node?] at hk
  split at hk
  · cases hk
  · rw [inDegree, outDegree, h.incoming, h.outgoing]
    exact ⟨(List.length_filter_le ..).trans (hn n hk).1, (List.length_filter_le ..).trans (hn n hk).2⟩

/-! ## Folding passages -/

section Folds

variable (hf : g.Folds g' b e e' d d')
include hf

theorem Folds.old {x : Node} (hx : g'.node? n = some x) : n ≠ b ∧ g.node? n = some x := by
  rw [hf.node?] at hx
  split at hx
  · cases hx
  · next hn => exact ⟨hn, hx⟩

theorem Folds.kind? (hn : n ≠ b) : g'.kind? n = g.kind? n :=
  kind?_congr (by rw [hf.node?, if_neg hn])

theorem Folds.old_kind {k : NodeKind} (hk : g'.kind? n = some k) : n ≠ b ∧ g.kind? n = some k := by
  obtain ⟨x, hx, rfl⟩ := kind?_eq_some.1 hk
  exact ⟨(hf.old hx).1, kind?_of_node? (hf.old hx).2⟩

theorem Folds.passage (hn : n ≠ b) : g'.Passage n ↔ g.Passage n := by
  rw [Passage, Passage, hf.start, hf.kind? hn]

theorem Folds.other (hy : g.edge? x = some y) (h1 : x ≠ e) (h2 : x ≠ e') : g'.edge? x = some y := by
  rw [hf.edge?, if_neg h2, if_neg h1, hy]

theorem Folds.moved (hne : e ≠ e') : g'.edge? e = some { d with target := d'.target } := by
  rw [hf.edge?, if_neg hne, if_pos rfl]

theorem Folds.old_edge (hy : g'.edge? x = some y) :
    (x = e ∧ e ≠ e' ∧ y = { d with target := d'.target }) ∨ (x ≠ e ∧ x ≠ e' ∧ g.edge? x = some y) := by
  rw [hf.edge?] at hy
  split at hy
  · cases hy
  · next hx' =>
    split at hy
    · next hx => exact .inl ⟨hx, hx ▸ hx', (Option.some.inj hy).symm⟩
    · next hx => exact .inr ⟨hx, hx', hy⟩

variable (hg : g.Foldable) (hs : g.Strung b e e' d d')
include hg hs

theorem Folds.predecessorEdges (hn : n ≠ b) (ht : n ≠ d'.target) :
    g'.predecessorEdges n = g.predecessorEdges n := by
  rw [Graph.predecessorEdges, Graph.predecessorEdges, hf.incoming, if_neg hn, if_neg ht]
  refine List.filterMap_congr fun x hx => ?_
  obtain ⟨y, hy, rfl⟩ := hg.linked.incoming.1 hx
  rw [hy, hf.other hy]
  · rintro rfl
    exact hn (Option.some.inj (hs.edge.symm.trans hy) ▸ hs.target)
  · rintro rfl
    exact ht (Option.some.inj (hs.edge'.symm.trans hy) ▸ rfl)

omit hf in
theorem Strung.entered (hk : g.kind? d'.target = some .begin) : g.incoming d'.target = [e'] := by
  have hmem := hg.linked.incoming.2 ⟨d', hs.edge', rfl⟩
  have hlen := (hg.narrow hk).1
  rw [inDegree] at hlen
  obtain ⟨x, hx⟩ := List.length_eq_one_iff.1 (Nat.le_antisymm hlen (List.length_pos_of_mem hmem))
  rw [hx, List.mem_singleton] at hmem
  rw [hx, hmem]

theorem Folds.foldable : g'.Foldable := by
  have hlive : ∀ {n}, n ≠ b → g.contains n = true → g'.contains n = true := by
    intro n hn hc
    rwa [Graph.contains, hf.node?, if_neg hn]
  refine ⟨hf.linked, fun {x y} hy => ?_, fun {n} hk => ?_⟩
  · rcases hf.old_edge hy with ⟨-, hne, rfl⟩ | ⟨h1, h2, hy⟩
    · exact ⟨hlive (n := d.source) (hs.source_ne hg.linked hne) (hg.ends hs.edge).1,
        hlive (n := d'.target) (hs.target_ne hg.linked hne) (hg.ends hs.edge').2⟩
    · obtain ⟨hsource, htarget⟩ := hs.other hg.linked hy
      exact ⟨hlive (hsource h2) (hg.ends hy).1, hlive (htarget h1) (hg.ends hy).2⟩
  · obtain ⟨hnb, hk⟩ := hf.old_kind hk
    obtain ⟨hin, hout⟩ := hg.narrow hk
    refine ⟨?_, by rwa [outDegree, hf.outgoing, if_neg hnb]⟩
    rw [Graph.inDegree, hf.incoming, if_neg hnb]
    split
    · next ht =>
      subst ht
      simp [hs.entered hg hk]
    · exact hin

variable (hb : g.Passage b)
include hb

theorem Folds.leads_of (h : g.Leads x n) :
    (x = e' → e ≠ e' → g'.Leads e n) ∧ (x ≠ e' → g'.Leads x n) := by
  induction h with
  | @here x y hy hn =>
    have hyb : y.target ≠ b := fun h => hn (h ▸ hb)
    have hn' : ¬ g'.Passage y.target := fun h => hn ((hf.passage hyb).1 h)
    refine ⟨?_, fun hx => .here (hf.other hy ?_ hx) hn'⟩
    · rintro rfl hne
      obtain rfl := Option.some.inj (hs.edge'.symm.trans hy)
      exact .here (d := { d with target := d'.target }) (hf.moved hne) hn'
    · rintro rfl
      exact hyb (Option.some.inj (hs.edge.symm.trans hy) ▸ hs.target)
  | @through x z y n hy hp hz _ ih =>
    -- The edges out of another passage are not the edge out of `b`.
    have hon : y.target ≠ b → g'.Passage y.target ∧ z ∈ g'.outgoing y.target ∧ g'.Leads z n := by
      intro ht
      refine ⟨(hf.passage ht).2 hp, by rwa [hf.outgoing, if_neg ht], ih.2 ?_⟩
      rintro rfl
      obtain ⟨w, hw, hws⟩ := hg.linked.outgoing.1 hz
      exact ht (by rw [← hws, ← Option.some.inj (hs.edge'.symm.trans hw), hs.source])
    refine ⟨?_, fun hx => ?_⟩
    · rintro rfl hne
      obtain rfl := Option.some.inj (hs.edge'.symm.trans hy)
      obtain ⟨h1, h2, h3⟩ := hon (hs.target_ne hg.linked hne)
      exact .through (d := { d with target := d'.target }) (hf.moved hne) h1 h2 h3
    · by_cases hxe : x = e
      · subst hxe
        obtain rfl := Option.some.inj (hs.edge.symm.trans hy)
        rw [hs.target, hs.outgoing, List.mem_singleton] at hz
        exact ih.1 hz hx
      · obtain ⟨h1, h2, h3⟩ := hon ((hs.other hg.linked hy).2 hxe)
        exact .through (hf.other hy hxe hx) h1 h2 h3

theorem Folds.leads_to (h : g'.Leads x n) : g.Leads x n := by
  have hpast : ∀ {n}, g.Leads e' n → g.Leads e n := fun h =>
    .through hs.edge (hs.target ▸ hb) (by rw [hs.target, hs.outgoing]; simp) h
  induction h with
  | here hy hn =>
    rcases hf.old_edge hy with ⟨rfl, hne, rfl⟩ | ⟨hx, -, hy⟩
    · have hyb := hs.target_ne hg.linked hne
      exact hpast (n := d'.target) (.here hs.edge' fun h => hn ((hf.passage hyb).2 h))
    · exact .here hy fun h => hn ((hf.passage ((hs.other hg.linked hy).2 hx)).2 h)
  | through hy hp hz _ ih =>
    rcases hf.old_edge hy with ⟨rfl, hne, rfl⟩ | ⟨hx, -, hy⟩
    · have hyb := hs.target_ne hg.linked hne
      rw [hf.outgoing, if_neg hyb] at hz
      exact hpast (.through hs.edge' ((hf.passage hyb).1 hp) hz ih)
    · have hyb := (hs.other hg.linked hy).2 hx
      rw [hf.outgoing, if_neg hyb] at hz
      exact .through hy ((hf.passage hyb).1 hp) hz ih

theorem Folds.smooths : Smooths g g' [] := by
  refine ⟨hf.start, fun hx => (hf.old hx).2, fun {n} hn _ => ?_, fun {x y} hy hsy _ => ?_,
    fun {n} hn hp => ?_⟩
  · have hnb : n ≠ b := fun h => hn (h ▸ hb)
    exact ⟨by rw [hf.node?, if_neg hnb], by rw [hf.outgoing, if_neg hnb]⟩
  · have hxe : x ≠ e' := by
      rintro rfl
      exact hsy (by rw [← Option.some.inj (hs.edge'.symm.trans hy), hs.source]; exact hb)
    refine ⟨?_, fun n => ⟨hf.leads_to hg hs hb, fun h => (hf.leads_of hg hs hb h).2 hxe⟩⟩
    by_cases h : x = e
    · subst h
      exact ⟨_, Option.some.inj (hs.edge.symm.trans hy) ▸ hf.moved hxe⟩
    · exact ⟨_, hf.other hy h hxe⟩
  · have hnb : n ≠ b := by
      rintro rfl
      rw [Graph.contains, hf.node?, if_pos rfl] at hn
      cases hn
    have hnt : n ≠ d'.target := by
      rintro rfl
      exact hp b (List.mem_map.2 ⟨(e', d'), hg.linked.mem_predecessorEdges.2 ⟨hs.edge', rfl⟩,
        hs.source⟩) hb
    simpa using hf.predecessorEdges hg hs hnb hnt

theorem Folds.settled (hc : g.Settled n) : g'.Settled n := by
  intro hp hin hout p hmem
  obtain ⟨hnb, hk⟩ := hf.old_kind hp.1
  have hpn := (hf.passage hnb).1 hp
  rw [outDegree, hf.outgoing, if_neg hnb] at hout
  have hsplit : ∀ p, g.kindIs p NodeKind.isControlSplit = true → p ≠ b := by
    rintro p hp rfl
    rw [kindIs_of_kind? hb.1] at hp
    cases hp
  have hnt : n ≠ d'.target := by
    rintro rfl
    have hone : g.inDegree d'.target = 1 := by rw [Graph.inDegree, hs.entered hg hk]; rfl
    refine hsplit b (hc hpn hone hout b ?_) rfl
    exact List.mem_map.2 ⟨(e', d'), hg.linked.mem_predecessorEdges.2 ⟨hs.edge', rfl⟩, hs.source⟩
  rw [Graph.inDegree, hf.incoming, if_neg hnb, if_neg hnt] at hin
  rw [predecessors, hf.predecessorEdges hg hs hnb hnt] at hmem
  have := hc hpn hin hout p hmem
  rwa [kindIs, hf.kind? (hsplit p this)]

end Folds

/-! ## Runs -/

theorem Linked.strung (hg : g.Linked) (hin : g.inDegree b = 1) (hout : g.outDegree b = 1) :
    ∃ e e' d d', g.Strung b e e' d d' := by
  obtain ⟨e, he⟩ := List.length_eq_one_iff.1 hin
  obtain ⟨e', he'⟩ := List.length_eq_one_iff.1 hout
  obtain ⟨d, hd, ht⟩ := (hg.incoming (n := b) (e := e)).1 (by simp [he])
  obtain ⟨d', hd', hs⟩ := (hg.outgoing (n := b) (e := e')).1 (by simp [he'])
  exact ⟨e, e', d, d', hd, ht, he, hd', hs, he'⟩

theorem Linked.fold_eq_self (hg : g.Linked) (h : ¬ (g.inDegree b = 1 ∧ g.outDegree b = 1)) :
    g.fold b = .ok g := by
  unfold fold
  split
  · next hp hs =>
    refine absurd ⟨?_, ?_⟩ h
    · rw [Graph.inDegree, ← hg.map_predecessorEdges, hp]
      rfl
    · rw [outDegree, ← hg.map_successorEdges, List.length_map, ← List.length_map, ← successors, hs]
      rfl
  · rfl

theorem Strung.fold_eq (h : g.Strung b e e' d d') : g.fold b =
    if g.kindIs d.source NodeKind.isControlSplit then .ok g
    else (g.retarget e d'.target).map (·.removeNode b) := by
  simp only [fold, predecessorEdges, successors, successorEdges, h.incoming, h.outgoing, h.edge, h.edge',
    List.filterMap_cons, Option.map_some, List.filterMap_nil, List.map_cons, List.map_nil]
  rfl

theorem Foldable.fold (hg : g.Foldable) (b : NodeId) : ∃ g', g.fold b = .ok g' ∧ (g' = g ∧ g.Settled b ∨
    g.contains b = true ∧ ∃ e e' d d', g.Strung b e e' d d' ∧
      g.kindIs d.source NodeKind.isControlSplit = false ∧ g.Folds g' b e e' d d') := by
  by_cases hone : g.inDegree b = 1 ∧ g.outDegree b = 1
  · obtain ⟨e, e', d, d', hs⟩ := hg.linked.strung hone.1 hone.2
    rw [hs.fold_eq]
    split
    · next hsplit =>
      refine ⟨g, rfl, .inl ⟨rfl, fun _ _ _ p hp => ?_⟩⟩
      obtain ⟨⟨x, y⟩, hx, rfl⟩ := List.mem_map.1 hp
      obtain ⟨hy, ht⟩ := hg.linked.mem_predecessorEdges.1 hx
      obtain rfl : x = e := by
        by_contra hxe
        exact (hs.other hg.linked hy).2 hxe ht
      rwa [← Option.some.inj (hs.edge.symm.trans hy)]
    · next hsplit =>
      have hlive := hg.ends hs.edge'
      rw [hs.source] at hlive
      obtain ⟨g', hg', hf⟩ := hs.folds hg.linked hlive.1 hlive.2
      exact ⟨g', hg', .inr ⟨hlive.1, e, e', d, d', hs, by simpa using hsplit, hf⟩⟩
  · exact ⟨g, hg.linked.fold_eq_self hone, .inl ⟨rfl, fun _ hin hout => absurd ⟨hin, hout⟩ hone⟩⟩

theorem fold_smooths (hg : g.Foldable) (hb : g.contains b = true → g.Passage b) :
    ∃ g', g.fold b = .ok g' ∧ g'.Foldable ∧ Smooths g g' [] ∧ ∀ n, n = b ∨ g.Settled n →
    g'.Settled n := by
  obtain ⟨g', hg', ⟨rfl, hset⟩ | ⟨hlive, e, e', d, d', hs, -, hf⟩⟩ := hg.fold b
  · refine ⟨g', hg', hg, .refl g', ?_⟩
    rintro n (rfl | hc)
    · exact hset
    · exact hc
  · refine ⟨g', hg', hf.foldable hg hs, hf.smooths hg hs (hb hlive), ?_⟩
    rintro n (rfl | hc)
    · intro hp
      exact absurd rfl (hf.old_kind hp.1).1
    · exact hf.settled hg hs (hb hlive) hc

theorem foldAll_smooths (I : Graph → Prop)
    (hI : ∀ {g g' b}, I g → (g.contains b = true → g.Passage b) → g.fold b = .ok g' → I g')
    (hg : g.Foldable) (h : I g) (hl : ∀ n ∈ l, g.contains n = true → g.Passage n) :
    ∃ g', l.foldlM fold g = .ok g' ∧ I g' ∧ Smooths g g' [] ∧ ∀ n, n ∈ l ∨ g.Settled n →
      g'.Settled n := by
  induction l generalizing g with
  | nil => exact ⟨g, rfl, h, .refl g, fun n hn => hn.resolve_left (by simp)⟩
  | cons b l ih =>
    obtain ⟨g1, h1, hg1, hs1, hset1⟩ := fold_smooths hg (hl b (by simp))
    obtain ⟨g2, h2, hi2, hs2, hset2⟩ := ih hg1 (hI h (hl b (by simp)) h1) fun n hmem hc => by
      obtain ⟨x, hx⟩ := Option.isSome_iff_exists.1 hc
      have hp := hl n (by simp [hmem]) (hs1.contains hc)
      refine ⟨?_, hs1.start ▸ hp.2⟩
      rw [← hp.1, kind?_of_node? hx, kind?_of_node? (hs1.old hx)]
    refine ⟨g2, by rw [List.foldlM_cons, h1]; exact h2, hi2, hs1.trans hs2, fun n hn => hset2 n ?_⟩
    rw [List.mem_cons, or_assoc, or_left_comm] at hn
    exact hn.imp_right (hset1 n)

theorem mem_nodesWhere {p : NodeId → Node → Bool} :
    n ∈ g.nodesWhere p ↔ ∃ x, g.node? n = some x ∧ p n x = true := by
  simp only [nodesWhere, List.mem_map, List.mem_filter, Prod.exists, mem_liveNodes]
  constructor
  · rintro ⟨m, x, ⟨hx, hp⟩, rfl⟩
    exact ⟨x, hx, hp⟩
  · rintro ⟨x, hx, hp⟩
    exact ⟨n, x, ⟨hx, hp⟩, rfl⟩

theorem mem_begins : n ∈ g.nodesWhere (fun m x => x.kind == .begin && decide (g.start ≠ some m)) ↔
    g.Passage n := by
  simp [Passage, mem_nodesWhere, kind?_eq_some, and_assoc, ← exists_and_right]

theorem mem_orphans : n ∈ g.orphans ↔
    g.kindIs n NodeKind.isPlace = true ∧ g.start ≠ some n ∧ g.inDegree n = 0 := by
  have heq : g.orphans = g.nodesWhere fun m x =>
      x.kind.isPlace && decide (g.start ≠ some m) && (g.inDegree m == 0) := by
    unfold orphans
    congr 1
  simp only [heq, mem_nodesWhere, Bool.and_eq_true, decide_eq_true_eq, beq_iff_eq]
  constructor
  · rintro ⟨x, hx, ⟨hp, hs⟩, hd⟩
    exact ⟨by rw [kindIs_of_kind? (kind?_of_node? hx), hp], hs, hd⟩
  · rintro ⟨hp, hs, hd⟩
    obtain ⟨k, hk, hp⟩ := kindIs_iff.1 hp
    obtain ⟨x, hx, rfl⟩ := kind?_eq_some.1 hk
    exact ⟨x, hx, ⟨hp, hs⟩, hd⟩

theorem mem_orphans_iff (hn : ¬ g.Passage n) : n ∈ g.orphans ↔ g.LostHeader n := by
  have hclass : ∀ k : NodeKind, k ≠ .begin → (k.isPlace = true ↔ k.toClass = .loopHeader) := by
    intro k hk
    cases k <;> simp_all [NodeKind.isPlace, NodeKind.toClass]
  simp only [mem_orphans, LostHeader, kindIs_iff, decide_eq_true_eq]
  constructor
  · rintro ⟨⟨k, hk, hp⟩, hs, hd⟩
    exact ⟨⟨k, hk, (hclass k fun h => hn ⟨h ▸ hk, hs⟩).1 hp⟩, hs, hd⟩
  · rintro ⟨⟨k, hk, hp⟩, hs, hd⟩
    exact ⟨⟨k, hk, (hclass k fun h => hn ⟨h ▸ hk, hs⟩).2 hp⟩, hs, hd⟩

/-- Tidying keeps every way through the graph. -/
theorem tidy_smooths (g : Graph) (hg : g.Consistent)
    (hn : ∀ n, g.kind? n = some .begin → g.inDegree n ≤ 1 ∧ g.outDegree n ≤ 1) :
    ∃ g', g.tidy = .ok g' ∧ (∀ n, g.contains n = true → ¬ g.Passage n → ¬ g.LostHeader n →
        g'.contains n = true ∧ g'.outgoing n = g.outgoing n ∧
          ∀ e ∈ g.outgoing n, ∃ d t, g.edge? e = some d ∧ g'.edge? e = some { d with target := t } ∧
            ∀ x, g'.Leads e x ↔ g.Leads e x) ∧
      (∀ n, g'.contains n = true → (∀ p ∈ g.predecessors n, ¬ g.Passage p) →
        g'.predecessorEdges n = (g.predecessorEdges n).filter (¬ g.LostHeader ·.2.source)) ∧
      ∀ n, g'.Passage n → g'.inDegree n = 1 → g'.outDegree n = 1 →
        ∀ p ∈ g'.predecessors n, g'.kindIs p NodeKind.isControlSplit = true := by
  have hup := hg.upkept
  have hlacks := hup.lacks_removeAll g.orphans
  have hs1 := hlacks.smooths hup.linked fun n hmem => List.length_eq_zero_iff.1 (mem_orphans.1 hmem).2.2
  obtain ⟨g', hg', -, hs2, hset⟩ := foldAll_smooths (fun _ => True) (fun _ _ _ => trivial)
    (hup.foldable_removeAll g.orphans hn) trivial fun n hmem _ => mem_begins.1 hmem
  have hs := hs1.trans hs2
  rw [List.append_nil] at hs
  refine ⟨g', hg', fun n hc hp hl => ?_, fun n hc hp => ?_, fun n hp => ?_⟩
  · have hl : n ∉ g.orphans := fun h => hl ((mem_orphans_iff hp).1 h)
    obtain ⟨hnode, hout⟩ := hs.kept hp hl
    refine ⟨by rwa [contains_congr hnode], hout, fun e he => ?_⟩
    obtain ⟨d, hd, rfl⟩ := hup.linked.outgoing.1 he
    obtain ⟨⟨t, ht⟩, hway⟩ := hs.leads hd hp hl
    exact ⟨d, t, hd, ht, hway⟩
  · rw [hs.entered hc hp]
    refine List.filter_congr fun x hx => ?_
    rw [decide_eq_decide, not_iff_not]
    exact mem_orphans_iff (hp _ (List.mem_map_of_mem hx))
  · exact hset n (Or.inl (mem_begins.2 (hs2.passage hp))) hp

/-- Two passages in a row between the start and a return, and a header that nothing leads to. -/
def detour : Graph :=
  (run {} [.addNode .begin [], .addNode .begin [], .addNode .begin [], .addNode .returnNode [],
    .addNode (.loopHeader 0) [], .addEdge ⟨0⟩ ⟨1⟩ .next 1.0, .addEdge ⟨1⟩ ⟨2⟩ .next 1.0,
    .addEdge ⟨2⟩ ⟨3⟩ .next 1.0, .addEdge ⟨4⟩ ⟨3⟩ .next 1.0, .setStart ⟨0⟩]).2

theorem tidy_detour : detour.Consistent ∧
    (∀ n, detour.kind? n = some .begin → detour.inDegree n ≤ 1 ∧ detour.outDegree n ≤ 1) ∧
    ∃ g', detour.tidy = .ok g' ∧ g'.outgoing ⟨0⟩ = [⟨0⟩] ∧ g'.Leads ⟨0⟩ ⟨3⟩ := by
  have hg : detour.Consistent := (Upkept.empty.run _).consistent
  have hn : ∀ n, detour.kind? n = some .begin → detour.inDegree n ≤ 1 ∧ detour.outDegree n ≤ 1 := by
    have hsmall : ∀ i < 5, detour.kind? ⟨i⟩ = some .begin →
        detour.inDegree ⟨i⟩ ≤ 1 ∧ detour.outDegree ⟨i⟩ ≤ 1 := by decide
    exact fun n hk => hsmall n.index (lt_of_kind? hk) hk
  have hway : detour.Leads ⟨0⟩ ⟨3⟩ :=
    .through (d := ⟨⟨0⟩, ⟨1⟩, .next, 1.0⟩) rfl ⟨rfl, by decide⟩ (x := ⟨1⟩) (by decide)
      (.through (d := ⟨⟨1⟩, ⟨2⟩, .next, 1.0⟩) rfl ⟨rfl, by decide⟩ (x := ⟨2⟩) (by decide)
        (.here (d := ⟨⟨2⟩, ⟨3⟩, .next, 1.0⟩) rfl fun h => by cases h.1))
  obtain ⟨g', hg', hkeep, -⟩ := tidy_smooths detour hg hn
  obtain ⟨-, hout, hedges⟩ := hkeep ⟨0⟩ (by decide) (fun h => h.2 rfl) (by decide)
  obtain ⟨d, t, -, -, hleads⟩ := hedges ⟨0⟩ (by decide)
  exact ⟨hg, hn, g', hg', hout, (hleads _).2 hway⟩

end Graph

end StackLift
