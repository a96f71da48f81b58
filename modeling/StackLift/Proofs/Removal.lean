import Mathlib.Data.Finset.Card
import Mathlib.Data.Finset.Range
import StackLift.Proofs.Arena

/-!
# Live nodes and removed ones

A graph knows how many live nodes it has (`Counted`). Removing a node first empties its place and then
drops its edges one by one, so what is left is described by `vacate` and `dropEdge`, in that order.
-/
namespace StackLift

/-! ## Counting live nodes -/

namespace Graph

variable {g g' : Graph} {n t phi v : NodeId} {e : EdgeId}

/-- The nodes that are not removed. -/
def places (g : Graph) : Finset Nat := (Finset.range g.nodeCount).filter fun i => g.contains ⟨i⟩ = true

/-- The graph knows how many live nodes it has. -/
def Counted (g : Graph) : Prop := g.live = g.places.card

theorem mem_places : n.index ∈ g.places ↔ g.contains n = true := by
  simp only [places, Finset.mem_filter, Finset.mem_range]
  refine ⟨fun h => h.2, fun h => ⟨?_, h⟩⟩
  obtain ⟨d, hd⟩ := Option.isSome_iff_exists.1 h
  exact lt_nodeCount hd

theorem places_congr (hc : g'.nodeCount = g.nodeCount) (h : ∀ n, g'.contains n = g.contains n) :
    g'.places = g.places := by
  simp only [places, hc, h]

theorem Counted.of_same (hg : g.Counted) (hc : g'.nodeCount = g.nodeCount)
    (h : ∀ n, g'.contains n = g.contains n) (hl : g'.live = g.live) : g'.Counted := by
  unfold Counted at *
  rw [hl, hg, places_congr hc h]

theorem Counted.addNode (hg : g.Counted) (k : NodeKind) (I : List NodeId) :
    (g.addNode k I).2.Counted := by
  have hnew : (g.addNode k I).2.contains ⟨g.nodeCount⟩ = true := by
    simp [contains, node?_addNode]
  have hold : ∀ i ∈ Finset.range g.nodeCount, (g.addNode k I).2.contains ⟨i⟩ = g.contains ⟨i⟩ := by
    intro i hi
    have hne : (NodeId.mk i) ≠ ⟨g.nodeCount⟩ := by
      rintro ⟨⟩
      simp at hi
    simp [contains, node?_addNode, hne]
  have hplaces : (g.addNode k I).2.places = insert g.nodeCount g.places := by
    unfold places
    rw [nodeCount_addNode, Finset.range_add_one, Finset.filter_insert, if_pos hnew,
      Finset.filter_congr fun i hi => by rw [hold i hi]]
  have hfresh : g.nodeCount ∉ g.places := by simp [places]
  unfold Counted at *
  rw [hplaces, Finset.card_insert_of_notMem hfresh, ← hg]
  rfl

theorem Counted.remove (hg : g.Counted) (hn : g.contains n = true)
    (hnode : ∀ m, g'.node? m = if m = n then none else g.node? m) (hl : g'.live = g.live - 1) :
    g'.Counted := by
  have hplaces : g'.places = g.places.erase n.index := by
    ext i
    have h : ∀ x : Graph, i ∈ x.places ↔ x.contains ⟨i⟩ = true := fun x => mem_places (n := ⟨i⟩)
    rw [Finset.mem_erase, h, h]
    by_cases hi : NodeId.mk i = n
    · subst hi
      simp [contains, hnode]
    · have : i ≠ n.index := fun he => hi (by cases n; exact congrArg NodeId.mk he)
      simp [contains, hnode, hi, this]
  unfold Counted at *
  rw [hplaces, Finset.card_erase_of_mem (mem_places.2 hn), ← hg, hl]

/-! ## What succeeds -/

theorem addEdge_ok {s : NodeId} {k : EdgeKind} {p : Float}
    (h : g.addEdge s t k p = .ok (e, g')) : g.contains s = true ∧ g.contains t = true ∧
      e = ⟨g.edges.size⟩ ∧ Links g g' s t ⟨s, t, k, p⟩ e ∧ g'.live = g.live ∧
      g'.edges.size = g.edges.size + 1 := by
  have hs : g.contains s = true := by
    by_contra hc
    rw [Bool.not_eq_true] at hc
    simp [addEdge, hc] at h
  have ht : g.contains t = true := by
    by_contra hc
    rw [Bool.not_eq_true] at hc
    simp [addEdge, hs, hc] at h
  obtain ⟨g1, h1, hl⟩ := addEdge_spec hs ht k p
  rw [h] at h1
  cases h1
  refine ⟨hs, ht, rfl, hl, ?_⟩
  simp only [addEdge, hs, ht, Bool.not_true, Bool.false_eq_true, if_false, Except.ok.injEq,
    Prod.mk.injEq] at h
  rw [← h.2]
  exact ⟨rfl, Array.size_push _⟩

theorem retarget_ok (h : g.retarget e t = .ok g') : g.contains t = true ∧
    ∃ d, g.edge? e = some d ∧ Moves g g' e d t ∧ g'.live = g.live ∧ g'.edges.size = g.edges.size := by
  have ht : g.contains t = true := by
    by_contra hc
    rw [Bool.not_eq_true] at hc
    simp [retarget, hc] at h
  cases hd : g.edge? e with
  | none => simp [retarget, ht, hd] at h
  | some d =>
    obtain ⟨g1, h1, hm⟩ := retarget_spec ht hd
    rw [h] at h1
    cases h1
    refine ⟨ht, d, rfl, hm, ?_⟩
    simp only [retarget, ht, hd, Bool.not_true, Bool.false_eq_true, if_false, Except.ok.injEq] at h
    rw [← h]
    exact ⟨rfl, Array.size_setIfInBounds⟩

theorem addPhiInput_ok (h : g.addPhiInput phi v = .ok g') : (∃ x, g.kind? phi = some (.phi x)) ∧
      g' = g.modifyNode phi fun n => { n with inputs := n.inputs ++ [v] } := by
  unfold addPhiInput at h
  split at h
  · cases h
  · next x hk => exact ⟨⟨x, hk⟩, (Except.ok.inj h).symm⟩
  · cases h

theorem setSnapshot_ok {s : Snapshot} (h : g.setSnapshot n s = .ok g') : g.contains n = true ∧
    g' = g.modifyNode n fun d => { d with snapshot := some s } := by
  unfold setSnapshot at h
  split at h
  · next hc => exact ⟨hc, (Except.ok.inj h).symm⟩
  · cases h

theorem Counted.modifyNode (hg : g.Counted) (n : NodeId) (f : Node → Node) :
    (g.modifyNode n f).Counted := by
  refine hg.of_same (nodeCount_modifyNode f) (fun m => ?_) rfl
  unfold contains
  rw [node?_modifyNode]
  split
  · exact Option.isSome_map
  · rfl

/-! ## Removing nodes with their edges -/

section Removal

variable {e x : EdgeId} {d : Edge} {m : NodeId}

theorem dropEdge_of_none (he : g.edge? e = none) : g.dropEdge e = g := by
  unfold dropEdge
  rw [he]

@[simp] theorem nodeCount_dropEdge : (g.dropEdge e).nodeCount = g.nodeCount := by
  unfold dropEdge
  split <;> simp [nodeCount]

@[simp] theorem live_dropEdge : (g.dropEdge e).live = g.live := by
  unfold dropEdge
  split <;> rfl

@[simp] theorem start_dropEdge : (g.dropEdge e).start = g.start := by
  unfold dropEdge
  split <;> rfl

@[simp] theorem size_dropEdge : (g.dropEdge e).edges.size = g.edges.size := by
  unfold dropEdge
  split <;> simp

@[simp] theorem node?_dropEdge : (g.dropEdge e).node? n = g.node? n := by
  unfold dropEdge
  split
  · rfl
  · simp only [node?, getElem?_modify_index]
    split <;> split <;> cases g.slots[n.index]? <;> rfl

theorem edge?_dropEdge : (g.dropEdge e).edge? x = if x = e then none else g.edge? x := by
  cases he : g.edge? e with
  | none =>
    rw [dropEdge_of_none he]
    split
    · next h => rw [h, he]
    · rfl
  | some d =>
    unfold dropEdge
    rw [he]
    exact join_getElem?_set (lt_edgesSize he)

theorem outgoing_dropEdge (he : g.edge? e = some d) : (g.dropEdge e).outgoing n =
    if n = d.source then (g.outgoing n).filter (· ≠ e) else g.outgoing n := by
  unfold dropEdge
  rw [he, outgoing_eq, outgoing_eq]
  simp only [getElem?_modify_index]
  split <;> split <;> cases g.slots[n.index]? <;> rfl

theorem incoming_dropEdge (he : g.edge? e = some d) : (g.dropEdge e).incoming n =
    if n = d.target then (g.incoming n).filter (· ≠ e) else g.incoming n := by
  unfold dropEdge
  rw [he, incoming_eq, incoming_eq]
  simp only [getElem?_modify_index]
  split <;> split <;> cases g.slots[n.index]? <;> rfl

theorem foldl_dropEdge {α : Type} {q : Graph → α} (hq : ∀ g e, q (g.dropEdge e) = q g) (es : List EdgeId)
    (g : Graph) : q (es.foldl dropEdge g) = q g := by
  induction es generalizing g with
  | nil => rfl
  | cons e es ih => rw [List.foldl_cons, ih, hq]

theorem start_removeNode (g : Graph) (n : NodeId) : (g.removeNode n).start = g.start := by
  unfold removeNode
  split
  · exact foldl_dropEdge (fun _ _ => start_dropEdge) _ _
  · rfl

theorem removeNode_spec (g : Graph) (n : NodeId) : (g.removeNode n).nodeCount = g.nodeCount ∧
      ∀ m, (g.removeNode n).node? m = if m = n then none else g.node? m := by
  by_cases hc : g.contains n = true
  · rw [removeNode_eq hc]
    exact ⟨(foldl_dropEdge (fun _ _ => nodeCount_dropEdge) _ _).trans nodeCount_vacate,
      fun m => (foldl_dropEdge (q := (·.node? m)) (fun _ _ => node?_dropEdge) _ _).trans node?_vacate⟩
  · have hsame : g.removeNode n = g := by rw [removeNode, if_neg hc]
    refine ⟨by rw [hsame], fun m => ?_⟩
    rw [hsame]
    split
    · next h =>
      subst h
      simpa [contains] using hc
    · rfl

theorem Counted.removeNode (hg : g.Counted) (n : NodeId) : (g.removeNode n).Counted := by
  by_cases hn : g.contains n = true
  · refine hg.remove hn (g.removeNode_spec n).2 ?_
    rw [removeNode_eq hn, foldl_dropEdge fun _ _ => live_dropEdge]
    rfl
  · rwa [Graph.removeNode, if_neg hn]

theorem node?_removeAll (l : List NodeId) (g : Graph) (m : NodeId) :
    (l.foldl removeNode g).node? m = if m ∈ l then none else g.node? m := by
  induction l generalizing g with
  | nil => simp
  | cons n l ih =>
    rw [List.foldl_cons, ih, (g.removeNode_spec n).2]
    by_cases hl : m ∈ l <;> by_cases hn : m = n <;> simp [hl, hn]

theorem Counted.removeAll (hg : g.Counted) (l : List NodeId) : (l.foldl Graph.removeNode g).Counted := by
  induction l generalizing g with
  | nil => exact hg
  | cons n l ih => exact ih (hg.removeNode n)

end Removal

/-! ## What is left of the edges -/

/-- What is listed is live. While a node is being removed, the converse does not hold: its own lists
are empty before its edges go. -/
structure Listed (g : Graph) : Prop where
  outgoing : ∀ {n e}, e ∈ g.outgoing n → ∃ d, g.edge? e = some d ∧ d.source = n
  incoming : ∀ {n e}, e ∈ g.incoming n → ∃ d, g.edge? e = some d ∧ d.target = n

theorem Linked.vacate (hg : g.Linked) (n : NodeId) : (g.vacate n).Listed := by
  constructor
  · intro m e he
    rw [outgoing_vacate] at he
    split at he
    · cases he
    · exact hg.outgoing.1 he
  · intro m e he
    rw [incoming_vacate] at he
    split at he
    · cases he
    · exact hg.incoming.1 he

namespace Listed

theorem lists_dropEdge (hg : g.Listed) (e : EdgeId) (n : NodeId) :
    (g.dropEdge e).outgoing n = (g.outgoing n).filter (· ≠ e) ∧
      (g.dropEdge e).incoming n = (g.incoming n).filter (· ≠ e) := by
  have hkeep : ∀ l : List EdgeId, e ∉ l → l.filter (· ≠ e) = l := by
    intro l hl
    rw [List.filter_eq_self]
    intro x hx
    have : x ≠ e := fun h => hl (h ▸ hx)
    simp [this]
  cases he : g.edge? e with
  | none =>
    rw [dropEdge_of_none he, hkeep, hkeep]
    · exact ⟨rfl, rfl⟩
    · intro h
      obtain ⟨d, hd, -⟩ := hg.incoming h
      rw [he] at hd
      cases hd
    · intro h
      obtain ⟨d, hd, -⟩ := hg.outgoing h
      rw [he] at hd
      cases hd
  | some d =>
    rw [outgoing_dropEdge he, incoming_dropEdge he]
    constructor
    · split
      · rfl
      · next hn =>
        refine (hkeep _ fun h => hn ?_).symm
        obtain ⟨x, hx, rfl⟩ := hg.outgoing h
        rw [he] at hx
        cases hx
        rfl
    · split
      · rfl
      · next hn =>
        refine (hkeep _ fun h => hn ?_).symm
        obtain ⟨x, hx, rfl⟩ := hg.incoming h
        rw [he] at hx
        cases hx
        rfl

theorem dropEdge (hg : g.Listed) (e : EdgeId) : (g.dropEdge e).Listed := by
  constructor
  · intro n x hx
    rw [(hg.lists_dropEdge e n).1, List.mem_filter, decide_eq_true_eq] at hx
    rw [edge?_dropEdge, if_neg hx.2]
    exact hg.outgoing hx.1
  · intro n x hx
    rw [(hg.lists_dropEdge e n).2, List.mem_filter, decide_eq_true_eq] at hx
    rw [edge?_dropEdge, if_neg hx.2]
    exact hg.incoming hx.1

theorem dropEdges (hg : g.Listed) (es : List EdgeId) (n : NodeId) :
    (es.foldl Graph.dropEdge g).outgoing n = (g.outgoing n).filter (· ∉ es) ∧
      (es.foldl Graph.dropEdge g).incoming n = (g.incoming n).filter (· ∉ es) := by
  induction es generalizing g with
  | nil => simp
  | cons e es ih =>
    obtain ⟨ho, hi⟩ := ih (hg.dropEdge e)
    obtain ⟨ho', hi'⟩ := hg.lists_dropEdge e n
    rw [List.foldl_cons, ho, hi, ho', hi', List.filter_filter, List.filter_filter]
    simp only [List.mem_cons, not_or, Bool.decide_and, Bool.and_comm, and_self]

end Listed

theorem edge?_dropEdges (es : List EdgeId) (g : Graph) (x : EdgeId) :
    (es.foldl dropEdge g).edge? x = if x ∈ es then none else g.edge? x := by
  induction es generalizing g with
  | nil => simp
  | cons e es ih =>
    rw [List.foldl_cons, ih, edge?_dropEdge]
    by_cases hx : x = e <;> by_cases hm : x ∈ es <;> simp [hx, hm]

/-- What the removal of a live node leaves of the edges. -/
structure Detaches (g g' : Graph) (n : NodeId) : Prop where
  edge? : ∀ e, g'.edge? e = (g.edge? e).filter fun d => d.source ≠ n ∧ d.target ≠ n
  outgoing : ∀ m, g'.outgoing m = if m = n then [] else (g.outgoing m).filter (· ∉ g.incoming n)
  incoming : ∀ m, g'.incoming m = if m = n then [] else (g.incoming m).filter (· ∉ g.outgoing n)

theorem Linked.removeNode (hg : g.Linked) (hn : g.contains n = true) :
    Detaches g (g.removeNode n) n := by
  have hlists := (hg.vacate n).dropEdges (g.outgoing n ++ g.incoming n)
  rw [removeNode_eq hn]
  refine ⟨fun e => ?_, fun m => ?_, fun m => ?_⟩
  · have hvac : (g.vacate n).edge? e = g.edge? e := rfl
    rw [edge?_dropEdges, hvac]
    cases he : g.edge? e with
    | none => simp
    | some d =>
      have hmem : e ∈ g.outgoing n ++ g.incoming n ↔ d.source = n ∨ d.target = n := by
        simp [hg.outgoing, hg.incoming, he]
      simp only [hmem, Option.filter_some, ne_eq, decide_eq_true_eq]
      by_cases hs : d.source = n <;> by_cases ht : d.target = n <;> simp [hs, ht]
  · rw [(hlists m).1, outgoing_vacate]
    split
    · rfl
    · next hm =>
      refine List.filter_congr fun e he => ?_
      have : e ∉ g.outgoing n := by
        intro h
        obtain ⟨d, hd, rfl⟩ := hg.outgoing.1 he
        obtain ⟨x, hx, hs⟩ := hg.outgoing.1 h
        rw [hd] at hx
        cases hx
        exact hm hs
      simp [this]
  · rw [(hlists m).2, incoming_vacate]
    split
    · rfl
    · next hm =>
      refine List.filter_congr fun e he => ?_
      have : e ∉ g.incoming n := by
        intro h
        obtain ⟨d, hd, rfl⟩ := hg.incoming.1 he
        obtain ⟨x, hx, hs⟩ := hg.incoming.1 h
        rw [hd] at hx
        cases hx
        exact hm hs
      simp [this]

theorem Linked.detaches (hg : g.Linked) (h : Detaches g g' n) : g'.Linked := by
  have hedge : ∀ {e d}, g'.edge? e = some d ↔ g.edge? e = some d ∧ d.source ≠ n ∧ d.target ≠ n := by
    intro e d
    rw [h.edge?, Option.filter_eq_some_iff, decide_eq_true_eq]
  refine ⟨?_, ?_, ?_, ?_⟩
  · intro m e
    rw [h.outgoing]
    split
    · next hm =>
      subst hm
      simp only [List.not_mem_nil, false_iff, hedge]
      rintro ⟨d, ⟨-, hs, -⟩, rfl⟩
      exact hs rfl
    · next hm =>
      simp only [List.mem_filter, decide_eq_true_eq, hg.outgoing, hg.incoming, hedge]
      constructor
      · rintro ⟨⟨d, hd, rfl⟩, hx⟩
        exact ⟨d, ⟨hd, hm, fun ht => hx ⟨d, hd, ht⟩⟩, rfl⟩
      · rintro ⟨d, ⟨hd, -, ht⟩, rfl⟩
        refine ⟨⟨d, hd, rfl⟩, ?_⟩
        rintro ⟨x, hx, hxt⟩
        rw [hd] at hx
        cases hx
        exact ht hxt
  · intro m e
    rw [h.incoming]
    split
    · next hm =>
      subst hm
      simp only [List.not_mem_nil, false_iff, hedge]
      rintro ⟨d, ⟨-, -, ht⟩, rfl⟩
      exact ht rfl
    · next hm =>
      simp only [List.mem_filter, decide_eq_true_eq, hg.outgoing, hg.incoming, hedge]
      constructor
      · rintro ⟨⟨d, hd, rfl⟩, hx⟩
        exact ⟨d, ⟨hd, fun hs => hx ⟨d, hd, hs⟩, hm⟩, rfl⟩
      · rintro ⟨d, ⟨hd, hs, -⟩, rfl⟩
        refine ⟨⟨d, hd, rfl⟩, ?_⟩
        rintro ⟨x, hx, hxs⟩
        rw [hd] at hx
        cases hx
        exact hs hxs
  · intro m
    rw [h.outgoing]
    split
    · exact List.nodup_nil
    · exact (hg.nodupOut m).filter _
  · intro m
    rw [h.incoming]
    split
    · exact List.nodup_nil
    · exact (hg.nodupIn m).filter _

/-! ## Folding a node away -/

section Folding

variable {b : NodeId} {e e' : EdgeId} {d d' : Edge}

/-- One edge leads to `b`, and one leads away from it. -/
structure Strung (g : Graph) (b : NodeId) (e e' : EdgeId) (d d' : Edge) : Prop where
  edge : g.edge? e = some d
  target : d.target = b
  incoming : g.incoming b = [e]
  edge' : g.edge? e' = some d'
  source : d'.source = b
  outgoing : g.outgoing b = [e']

/-- `b` is gone, and the edge into it leads to its successor. Where that is `b` itself, nothing is left
of the edge. -/
structure Folds (g g' : Graph) (b : NodeId) (e e' : EdgeId) (d d' : Edge) : Prop where
  node? : ∀ n, g'.node? n = if n = b then none else g.node? n
  edge? : ∀ x, g'.edge? x =
    if x = e' then none else if x = e then some { d with target := d'.target } else g.edge? x
  outgoing : ∀ n, g'.outgoing n = if n = b then [] else g.outgoing n
  incoming : ∀ n, g'.incoming n = if n = b then [] else
    if n = d'.target then (g.incoming n).filter (· ≠ e') ++ [e] else g.incoming n
  start : g'.start = g.start
  linked : g'.Linked

namespace Strung

section

variable (hg : g.Linked) (h : g.Strung b e e' d d')
include hg h

theorem other {x : EdgeId} {y : Edge} (hy : g.edge? x = some y) :
    (x ≠ e' → y.source ≠ b) ∧ (x ≠ e → y.target ≠ b) := by
  refine ⟨fun hx hs => hx ?_, fun hx ht => hx ?_⟩
  · have := hg.outgoing.2 ⟨y, hy, hs⟩
    rwa [h.outgoing, List.mem_singleton] at this
  · have := hg.incoming.2 ⟨y, hy, ht⟩
    rwa [h.incoming, List.mem_singleton] at this

theorem source_ne (hne : e ≠ e') : d.source ≠ b :=
  (h.other hg h.edge).1 hne

theorem target_ne (hne : e ≠ e') : d'.target ≠ b :=
  (h.other hg h.edge').2 hne.symm

theorem folds (hb : g.contains b = true) (ht : g.contains d'.target = true) :
    ∃ g', (g.retarget e d'.target).map (·.removeNode b) = .ok g' ∧ g.Folds g' b e e' d d' := by
  obtain ⟨g1, hg1, hm⟩ := retarget_spec ht h.edge
  have hl1 : g1.Linked := hg.moves h.edge hm
  have hb1 : g1.contains b = true := by rwa [contains_congr (hm.node? b)]
  have hd := hl1.removeNode hb1
  obtain ⟨-, hnode⟩ := g1.removeNode_spec b
  have hself : e = e' → d = d' := by
    rintro rfl
    exact Option.some.inj (h.edge.symm.trans h.edge')
  refine ⟨g1.removeNode b, by rw [hg1]; rfl, fun n => by rw [hnode, hm.node?], fun x => ?_, fun n => ?_,
    fun n => ?_, ?_, hl1.detaches hd⟩
  · rw [hd.edge?, hm.edge?]
    by_cases hx' : x = e'
    · subst hx'
      by_cases hx : x = e
      · simp [hx, hself hx.symm, h.source]
      · simp [hx, h.edge', h.source]
    · by_cases hx : x = e
      · have hne : e ≠ e' := hx ▸ hx'
        simp [hx, hne, h.source_ne hg hne, h.target_ne hg hne]
      · rw [if_neg hx, if_neg hx']
        cases hy : g.edge? x with
        | none => rfl
        | some y => simp [(h.other hg hy).1 hx', (h.other hg hy).2 hx]
  · rw [hd.outgoing, hm.outgoing]
    split
    · rfl
    · next hn =>
      refine List.filter_eq_self.2 fun x hx => decide_eq_true fun hin => hn ?_
      obtain ⟨y, hy, hyb⟩ := hl1.incoming.1 hin
      obtain ⟨z, hz, rfl⟩ := hg.outgoing.1 hx
      rw [hm.edge?] at hy
      split at hy
      · next hxe =>
        subst hxe
        obtain rfl := Option.some.inj hy
        obtain rfl := Option.some.inj (h.edge.symm.trans hz)
        by_contra hs
        exact h.target_ne hg (fun he => hs (hself he ▸ h.source)) hyb
      · next hxe => exact absurd hyb ((h.other hg hy).2 hxe)
  · rw [hd.incoming, hm.incoming, hm.outgoing, h.outgoing, h.target]
    by_cases hn : n = b
    · rw [if_pos hn, if_pos hn]
    · rw [if_neg hn, if_neg hn, if_neg hn]
      split
      · next hnt =>
        have hne : e ≠ e' := fun he => hn (by rw [hnt, ← hself he, h.target])
        simp [List.filter_append, hne]
      · next hnt =>
        rw [List.append_nil]
        refine List.filter_eq_self.2 fun x hx => decide_eq_true fun hxe => hnt ?_
        obtain rfl := List.mem_singleton.1 hxe
        obtain ⟨y, hy, rfl⟩ := hg.incoming.1 hx
        rw [Option.some.inj (h.edge'.symm.trans hy)]
  · rw [start_removeNode, hm.start]

end

end Strung

end Folding

end Graph

end StackLift
