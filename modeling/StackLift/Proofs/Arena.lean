import Mathlib.Data.List.Nodup
import StackLift.Graph.Basic

/-!
# What the operations on a graph change

Every operation is described by what the queries answer afterwards: `node?`, `edge?`, `outgoing`,
`incoming`, `nodeCount` and `start`. The proofs about builds use nothing else of a graph.
-/
namespace StackLift

abbrev NodeSet : Type := NodeId → Prop

variable {d : Edge} {s t n m : NodeId} {p : NodeKind → Bool}

@[simp] theorem NodeId.index_inj : n.index = m.index ↔ n = m := by
  cases n
  cases m
  simp

@[simp] theorem EdgeId.index_inj {n m : EdgeId} : n.index = m.index ↔ n = m := by
  cases n
  cases m
  simp

section OptionRel

variable {α β γ δ : Type} {R S : α → β → Prop} {a : Option α} {b : Option β}

theorem optionRel_imp (h : Option.Rel R a b) (hR : ∀ a b, R a b → S a b) : Option.Rel S a b := by
  cases h with
  | some h => exact .some (hR _ _ h)
  | none => exact .none

theorem optionRel_map {S : γ → δ → Prop}
    {f : α → γ} {f' : β → δ} (h : Option.Rel R a b) (hf : ∀ a b, R a b → S (f a) (f' b)) :
    Option.Rel S (a.map f) (b.map f') := by
  cases h with
  | some h => exact .some (hf _ _ h)
  | none => exact .none

theorem optionRel_some_left {x : α} (h : Option.Rel R (some x) b) : ∃ y, b = some y ∧ R x y := by
  cases h with
  | some h => exact ⟨_, rfl, h⟩

theorem optionRel_some_right {y : β} (h : Option.Rel R a (some y)) : ∃ x, a = some x ∧ R x y := by
  cases h with
  | some h => exact ⟨_, rfl, h⟩

theorem optionRel_isSome (h : Option.Rel R a b) : a.isSome = b.isSome := by
  cases h <;> rfl

theorem forall₂_getElem? {l : List α} {l' : List β} (h : List.Forall₂ R l l') (i : Nat) :
    Option.Rel R l[i]? l'[i]? := by
  induction h generalizing i with
  | nil => exact .none
  | cons h _ ih =>
    cases i with
    | zero => exact .some h
    | succ i => exact ih i

end OptionRel

namespace Graph

variable {g : Graph} {n m : NodeId} {e : EdgeId}
variable {g' g₁ : Graph} {k : NodeKind}

theorem outgoing_eq (g : Graph) (n : NodeId) :
    g.outgoing n = ((g.slots[n.index]?).map (·.outgoing)).getD [] := by
  unfold outgoing
  cases g.slots[n.index]? <;> rfl

theorem incoming_eq (g : Graph) (n : NodeId) :
    g.incoming n = ((g.slots[n.index]?).map (·.incoming)).getD [] := by
  unfold incoming
  cases g.slots[n.index]? <;> rfl

theorem getElem?_modify_index {slots : Array Slot} {f : Slot → Slot} :
    (slots.modify n.index f)[m.index]? =
    if m = n then slots[m.index]?.map f else slots[m.index]? := by
  rw [Array.getElem?_modify]
  by_cases h : m = n
  · rw [if_pos h, if_pos (by rw [h])]
  · rw [if_neg h, if_neg fun hn => h (NodeId.index_inj.1 hn.symm)]

theorem exists_slot (h : g.contains n = true) : ∃ x, g.slots[n.index]? = some x := by
  unfold contains node? at h
  cases hx : g.slots[n.index]? with
  | none => simp [hx] at h
  | some x => exact ⟨x, rfl⟩

theorem lt_edgesSize (h : g.edge? e = some d) : e.index < g.edges.size := by
  unfold edge? at h
  cases hx : g.edges[e.index]? with
  | none => simp [hx] at h
  | some x => exact (Array.getElem?_eq_some_iff.1 hx).1

theorem join_getElem?_set {o : Option Edge} {x : EdgeId} (he : e.index < g.edges.size) :
    (g.edges.setIfInBounds e.index o)[x.index]?.join = if x = e then o else g.edge? x := by
  rw [Array.getElem?_setIfInBounds]
  by_cases h : x = e
  · subst h
    simp [he]
  · rw [if_neg h, if_neg fun hx => h (EdgeId.index_inj.1 hx.symm)]
    rfl

theorem lt_nodeCount {d : Node} (h : g.node? n = some d) : n.index < g.nodeCount := by
  unfold node? at h
  cases hs : g.slots[n.index]? with
  | none => simp [hs] at h
  | some s => exact (Array.getElem?_eq_some_iff.1 hs).1

theorem kind?_eq_some : g.kind? n = some k ↔ ∃ d, g.node? n = some d ∧ d.kind = k := by
  unfold kind?
  simp

theorem lt_of_kind? (h : g.kind? n = some k) : n.index < g.nodeCount := by
  obtain ⟨d, hd, -⟩ := kind?_eq_some.1 h
  exact lt_nodeCount hd

theorem kind?_of_node? {d : Node} (h : g.node? n = some d) : g.kind? n = some d.kind := by
  simp [kind?, h]

theorem inputs_of_node? {d : Node} (h : g.node? n = some d) : g.inputs n = d.inputs := by
  simp [inputs, h]

theorem inputs_congr (h : g'.node? n = g.node? n) : g'.inputs n = g.inputs n := by
  simp only [inputs, h]

theorem kind?_congr (h : g'.node? n = g.node? n) : g'.kind? n = g.kind? n := by
  simp only [kind?, h]

theorem contains_congr (h : g'.node? n = g.node? n) : g'.contains n = g.contains n := by
  rw [contains, contains, h]

theorem contains_of_kind? (h : g.kind? n = some k) : g.contains n = true := by
  obtain ⟨d, hd, -⟩ := kind?_eq_some.1 h
  simp [contains, hd]

theorem kindIs_of_kind? (h : g.kind? n = some k) : g.kindIs n p = p k := by
  simp [kindIs, h]

theorem kindIs_iff : g.kindIs n p = true ↔ ∃ k, g.kind? n = some k ∧ p k = true := by
  unfold kindIs
  cases g.kind? n <;> simp

theorem lt_of_kindIs (h : g.kindIs n p = true) : n.index < g.nodeCount := by
  obtain ⟨k, hk, -⟩ := kindIs_iff.1 h
  exact lt_of_kind? hk

theorem contains_of_kindIs (h : g.kindIs n p = true) : g.contains n = true := by
  obtain ⟨k, hk, -⟩ := kindIs_iff.1 h
  exact contains_of_kind? hk

theorem mem_liveNodes {x : Node} : (n, x) ∈ g.liveNodes ↔ g.node? n = some x := by
  obtain ⟨i⟩ := n
  simp only [liveNodes, List.mem_filterMap, node?, Prod.exists, Option.map_eq_some_iff,
    Option.bind_eq_some_iff, List.mem_zipIdx_iff_getElem?, Prod.mk.injEq, NodeId.mk.injEq,
    Array.getElem?_toList]
  constructor
  · rintro ⟨s, j, hs, y, hy, rfl, rfl⟩
    exact ⟨s, hs, hy⟩
  · rintro ⟨s, hs, hy⟩
    exact ⟨s, i, hs, x, hy, rfl, rfl⟩

/-! ## Nodes -/

section AddNode

variable (k : NodeKind) (I : List NodeId)

@[simp] theorem addNode_fst : (g.addNode k I).1 = ⟨g.nodeCount⟩ := rfl

theorem node?_addNode : (g.addNode k I).2.node? n =
    if n = ⟨g.nodeCount⟩ then some { kind := k, inputs := I } else g.node? n := by
  simp only [node?, addNode, Array.getElem?_push, nodeCount]
  by_cases h : n.index = g.slots.size
  · have : n = ⟨g.slots.size⟩ := NodeId.index_inj.1 h
    simp [this]
  · have : n ≠ ⟨g.slots.size⟩ := fun hn => h (by rw [hn])
    simp [h, this]

@[simp] theorem outgoing_addNode : (g.addNode k I).2.outgoing n = g.outgoing n := by
  simp only [outgoing_eq, addNode, Array.getElem?_push]
  split
  · next h => simp [h]
  · rfl

@[simp] theorem incoming_addNode : (g.addNode k I).2.incoming n = g.incoming n := by
  simp only [incoming_eq, addNode, Array.getElem?_push]
  split
  · next h => simp [h]
  · rfl

@[simp] theorem edge?_addNode : (g.addNode k I).2.edge? e = g.edge? e := rfl

@[simp] theorem nodeCount_addNode : (g.addNode k I).2.nodeCount = g.nodeCount + 1 := by
  simp [addNode, nodeCount]

@[simp] theorem start_addNode : (g.addNode k I).2.start = g.start := rfl

end AddNode

section ModifyNode

variable (f : Node → Node)

theorem node?_modifyNode :
    (g.modifyNode n f).node? m = if m = n then (g.node? m).map f else g.node? m := by
  simp only [node?, modifyNode, getElem?_modify_index]
  split
  · cases g.slots[m.index]? <;> rfl
  · rfl

@[simp] theorem outgoing_modifyNode : (g.modifyNode n f).outgoing m = g.outgoing m := by
  simp only [outgoing_eq, modifyNode, Array.getElem?_modify]
  split
  · cases g.slots[m.index]? <;> rfl
  · rfl

@[simp] theorem incoming_modifyNode : (g.modifyNode n f).incoming m = g.incoming m := by
  simp only [incoming_eq, modifyNode, Array.getElem?_modify]
  split
  · cases g.slots[m.index]? <;> rfl
  · rfl

@[simp] theorem edge?_modifyNode : (g.modifyNode n f).edge? e = g.edge? e := rfl

@[simp] theorem nodeCount_modifyNode : (g.modifyNode n f).nodeCount = g.nodeCount := by
  simp [modifyNode, nodeCount]

@[simp] theorem start_modifyNode : (g.modifyNode n f).start = g.start := rfl

end ModifyNode

/-! ## Edges -/

/-- The two graphs have the same edges. -/
structure SameWires (g g' : Graph) : Prop where
  outgoing : ∀ n, g'.outgoing n = g.outgoing n
  incoming : ∀ n, g'.incoming n = g.incoming n
  edge? : ∀ e, g'.edge? e = g.edge? e
  size : g'.edges.size = g.edges.size
  start : g'.start = g.start

namespace SameWires

theorem refl (g : Graph) : SameWires g g := ⟨fun _ => rfl, fun _ => rfl, fun _ => rfl, rfl, rfl⟩

theorem trans (h : SameWires g g₁) (h' : SameWires g₁ g') : SameWires g g' :=
  ⟨fun n => (h'.outgoing n).trans (h.outgoing n), fun n => (h'.incoming n).trans (h.incoming n),
    fun e => (h'.edge? e).trans (h.edge? e), h'.size.trans h.size, h'.start.trans h.start⟩

theorem addNode (g : Graph) (k : NodeKind) (I : List NodeId) : SameWires g (g.addNode k I).2 :=
  ⟨fun _ => outgoing_addNode k I, fun _ => incoming_addNode k I, fun _ => rfl, rfl, rfl⟩

theorem modifyNode (g : Graph) (n : NodeId) (f : Node → Node) : SameWires g (g.modifyNode n f) :=
  ⟨fun _ => outgoing_modifyNode f, fun _ => incoming_modifyNode f, fun _ => rfl, rfl, rfl⟩

end SameWires

/-- What `addEdge` leaves behind. -/
structure Links (g g' : Graph) (source target : NodeId) (d : Edge) (e : EdgeId) : Prop where
  fresh : g.edge? e = none
  node? : ∀ n, g'.node? n = g.node? n
  edge? : ∀ x, g'.edge? x = if x = e then some d else g.edge? x
  outgoing : ∀ n, g'.outgoing n = if n = source then g.outgoing n ++ [e] else g.outgoing n
  incoming : ∀ n, g'.incoming n = if n = target then g.incoming n ++ [e] else g.incoming n
  nodeCount : g'.nodeCount = g.nodeCount
  start : g'.start = g.start

theorem Links.old {x : Edge} {c : EdgeId} (h : Links g g' s t d e) (hc : g.edge? c = some x) :
    g'.edge? c = some x := by
  rw [h.edge?, if_neg, hc]
  rintro rfl
  rw [h.fresh] at hc
  cases hc

theorem addEdge_spec (hs : g.contains s = true) (ht : g.contains t = true) (k : EdgeKind) (p : Float) :
    ∃ g', g.addEdge s t k p = .ok (⟨g.edges.size⟩, g') ∧ Links g g' s t ⟨s, t, k, p⟩ ⟨g.edges.size⟩ := by
  obtain ⟨xs, hxs⟩ := exists_slot hs
  obtain ⟨xt, hxt⟩ := exists_slot ht
  have heq : g.addEdge s t k p = .ok (⟨g.edges.size⟩, { g with
      slots := attach g.slots ⟨g.edges.size⟩ s t
      edges := g.edges.push (some ⟨s, t, k, p⟩) }) := by simp [addEdge, hs, ht]
  refine ⟨_, heq, ?_, ?_, ?_, ?_, ?_, ?_, rfl⟩
  · simp [edge?]
  · intro n
    simp only [node?, attach, getElem?_modify_index]
    split <;> split <;> cases g.slots[n.index]? <;> rfl
  · intro x
    simp only [edge?, Array.getElem?_push]
    by_cases h : x.index = g.edges.size
    · have : x = ⟨g.edges.size⟩ := EdgeId.index_inj.1 h
      simp [this]
    · have : x ≠ ⟨g.edges.size⟩ := fun hx => h (by rw [hx])
      simp [h, this]
  · intro n
    simp only [outgoing_eq, attach, getElem?_modify_index]
    by_cases h : n = s
    · subst h
      split <;> simp [hxs]
    · simp only [h, if_false]
      split <;> cases g.slots[n.index]? <;> rfl
  · intro n
    simp only [incoming_eq, attach, getElem?_modify_index]
    by_cases h : n = t
    · subst h
      simp only [if_true, hxt]
      split <;> rfl
    · simp only [h, if_false]
      split <;> cases g.slots[n.index]? <;> rfl
  · simp [nodeCount, attach]

/-- What `retarget` leaves behind of an edge that led from `d.source` to `d.target`. -/
structure Moves (g g' : Graph) (e : EdgeId) (d : Edge) (target : NodeId) : Prop where
  node? : ∀ n, g'.node? n = g.node? n
  edge? : ∀ x, g'.edge? x = if x = e then some { d with target } else g.edge? x
  outgoing : ∀ n, g'.outgoing n = g.outgoing n
  incoming : ∀ n, g'.incoming n =
    (if n = d.target then (g.incoming n).filter (· ≠ e) else g.incoming n) ++
      (if n = target then [e] else [])
  nodeCount : g'.nodeCount = g.nodeCount
  start : g'.start = g.start

theorem retarget_spec (ht : g.contains t = true) (hd : g.edge? e = some d) :
    ∃ g', g.retarget e t = .ok g' ∧ Moves g g' e d t := by
  obtain ⟨xt, hxt⟩ := exists_slot ht
  have heq : g.retarget e t = .ok { g with
      slots := (g.slots.modify d.target.index fun s =>
          { s with incoming := s.incoming.filter (· ≠ e) }).modify
        t.index fun s => { s with incoming := s.incoming ++ [e] }
      edges := g.edges.setIfInBounds e.index (some { d with target := t }) } := by
    simp [retarget, ht, hd]
  refine ⟨_, heq, ?_, ?_, ?_, ?_, ?_, rfl⟩
  · intro n
    simp only [node?, getElem?_modify_index]
    split <;> split <;> cases g.slots[n.index]? <;> rfl
  · exact fun x => join_getElem?_set (lt_edgesSize hd)
  · intro n
    simp only [outgoing_eq, getElem?_modify_index]
    split <;> split <;> cases g.slots[n.index]? <;> rfl
  · intro n
    simp only [incoming_eq, getElem?_modify_index]
    by_cases h1 : n = t
    · subst h1
      simp only [if_true, hxt]
      split <;> rfl
    · simp only [h1, if_false, List.append_nil]
      split
      · cases g.slots[n.index]? <;> simp
      · rfl
  · simp [nodeCount]

/-! ## Removal -/

/-- The graph without node `n`, whose edges are still there. -/
def vacate (g : Graph) (n : NodeId) : Graph :=
  { g with
    slots := g.slots.modify n.index fun _ => { node := none }
    live := g.live - 1
    frequencies := g.frequencies.filter (·.1 ≠ n) }

theorem removeNode_eq (hn : g.contains n = true) :
    g.removeNode n = (g.outgoing n ++ g.incoming n).foldl dropEdge (g.vacate n) := by
  unfold removeNode
  rw [if_pos hn]
  rfl

@[simp] theorem nodeCount_vacate : (g.vacate n).nodeCount = g.nodeCount := by simp [vacate, nodeCount]

theorem node?_vacate : (g.vacate n).node? m = if m = n then none else g.node? m := by
  simp only [vacate, node?, getElem?_modify_index]
  split
  · cases g.slots[m.index]? <;> rfl
  · rfl

theorem outgoing_vacate : (g.vacate n).outgoing m = if m = n then [] else g.outgoing m := by
  rw [outgoing_eq, outgoing_eq]
  simp only [vacate, getElem?_modify_index]
  split
  · cases g.slots[m.index]? <;> rfl
  · rfl

theorem incoming_vacate : (g.vacate n).incoming m = if m = n then [] else g.incoming m := by
  rw [incoming_eq, incoming_eq]
  simp only [vacate, getElem?_modify_index]
  split
  · cases g.slots[m.index]? <;> rfl
  · rfl

/-- What the removal of a node that no edge touches leaves behind. -/
structure Clears (g g' : Graph) (n : NodeId) : Prop extends SameWires g g' where
  node? : ∀ m, g'.node? m = if m = n then none else g.node? m
  nodeCount : g'.nodeCount = g.nodeCount

theorem removeNode_clears (ho : g.outgoing n = []) (hi : g.incoming n = []) :
    Clears g (g.removeNode n) n := by
  by_cases hc : g.contains n = true
  · rw [removeNode_eq hc, ho, hi, List.append_nil, List.foldl_nil]
    refine ⟨⟨fun m => ?_, fun m => ?_, fun _ => rfl, rfl, rfl⟩, fun _ => node?_vacate, nodeCount_vacate⟩
    · rw [outgoing_vacate]
      split
      · next h => rw [h, ho]
      · rfl
    · rw [incoming_vacate]
      split
      · next h => rw [h, hi]
      · rfl
  · rw [removeNode, if_neg hc]
    refine ⟨.refl g, fun m => ?_, rfl⟩
    split
    · next h =>
      subst h
      simpa [contains] using hc
    · rfl

/-- What is left when the nodes `l`, which no edge touches, are removed. -/
structure ClearsAll (g g' : Graph) (l : List NodeId) : Prop extends SameWires g g' where
  node? : ∀ n, g'.node? n = if n ∈ l then none else g.node? n
  nodeCount : g'.nodeCount = g.nodeCount

theorem removeAll_clears {l : List NodeId} (h : ∀ n ∈ l, g.outgoing n = [] ∧ g.incoming n = []) :
    ClearsAll g (l.foldl removeNode g) l := by
  induction l generalizing g with
  | nil => exact ⟨.refl g, by simp, rfl⟩
  | cons m l ih =>
    obtain ⟨ho, hi⟩ := h m (by simp)
    have hc := removeNode_clears ho hi
    have hr := ih (g := g.removeNode m) fun n hn => by
      rw [hc.outgoing, hc.incoming]
      exact h n (by simp [hn])
    refine ⟨hc.toSameWires.trans hr.toSameWires, fun n => ?_, hr.nodeCount.trans hc.nodeCount⟩
    rw [List.foldl_cons, hr.node?, hc.node?]
    by_cases hnl : n ∈ l
    · simp [hnl]
    · by_cases hnm : n = m <;> simp [hnl, hnm]

/-! ## The lists of the nodes -/

/-- The edges in the lists of the nodes are the live edges, once each. -/
structure Linked (g : Graph) : Prop where
  outgoing : ∀ {n e}, e ∈ g.outgoing n ↔ ∃ d, g.edge? e = some d ∧ d.source = n
  incoming : ∀ {n e}, e ∈ g.incoming n ↔ ∃ d, g.edge? e = some d ∧ d.target = n
  nodupOut : ∀ n, (g.outgoing n).Nodup
  nodupIn : ∀ n, (g.incoming n).Nodup

namespace Linked

variable {g' : Graph}

theorem of_same (hg : g.Linked) (h : SameWires g g') : g'.Linked := by
  refine ⟨?_, ?_, ?_, ?_⟩
  · intro n e
    rw [h.outgoing, hg.outgoing, h.edge?]
  · intro n e
    rw [h.incoming, hg.incoming, h.edge?]
  · intro n
    rw [h.outgoing]
    exact hg.nodupOut n
  · intro n
    rw [h.incoming]
    exact hg.nodupIn n

theorem links (hg : g.Linked) (h : Links g g' s t d e) (hs : d.source = s) (ht : d.target = t) :
    g'.Linked := by
  have hout : ∀ n, e ∉ g.outgoing n := by
    intro n hn
    obtain ⟨x, hx, -⟩ := hg.outgoing.1 hn
    rw [h.fresh] at hx
    cases hx
  have hin : ∀ n, e ∉ g.incoming n := by
    intro n hn
    obtain ⟨x, hx, -⟩ := hg.incoming.1 hn
    rw [h.fresh] at hx
    cases hx
  refine ⟨?_, ?_, ?_, ?_⟩
  · intro n x
    rw [h.outgoing, h.edge?]
    by_cases hx : x = e
    · subst hx
      by_cases hn : n = s
      · subst hn
        simp [hs]
      · have : s ≠ n := fun h => hn h.symm
        simp [hn, hs, this, hout n]
    · by_cases hn : n = s <;> simp [hn, hx, hg.outgoing]
  · intro n x
    rw [h.incoming, h.edge?]
    by_cases hx : x = e
    · subst hx
      by_cases hn : n = t
      · subst hn
        simp [ht]
      · have : t ≠ n := fun h => hn h.symm
        simp [hn, ht, this, hin n]
    · by_cases hn : n = t <;> simp [hn, hx, hg.incoming]
  · intro n
    rw [h.outgoing]
    split
    · exact (hg.nodupOut n).append (by simp) (by simpa using hout n)
    · exact hg.nodupOut n
  · intro n
    rw [h.incoming]
    split
    · exact (hg.nodupIn n).append (by simp) (by simpa using hin n)
    · exact hg.nodupIn n

theorem moves (hg : g.Linked) (hd : g.edge? e = some d) (h : Moves g g' e d t) : g'.Linked := by
  refine ⟨?_, ?_, ?_, ?_⟩
  · intro n x
    rw [h.outgoing, h.edge?, hg.outgoing]
    by_cases hx : x = e
    · subst hx
      simp [hd]
    · simp [hx]
  · intro n x
    rw [h.incoming, h.edge?, List.mem_append]
    by_cases hx : x = e
    · subst hx
      by_cases hn : n = t
      · subst hn
        simp
      · have hnt : t ≠ n := fun h => hn h.symm
        by_cases hnd : n = d.target
        · subst hnd
          simp [hn, hnt]
        · have : x ∉ g.incoming n := by
            intro hm
            obtain ⟨y, hy, rfl⟩ := hg.incoming.1 hm
            rw [hd] at hy
            cases hy
            exact hnd rfl
          simp [hn, hnt, hnd, this]
    · have hxt : x ∉ (if n = t then [e] else []) := by split <;> simp [hx]
      by_cases hnd : n = d.target
      · subst hnd
        simp [hx, hxt, hg.incoming]
      · simp [hx, hxt, hnd, hg.incoming]
  · intro n
    rw [h.outgoing]
    exact hg.nodupOut n
  · intro n
    rw [h.incoming]
    have hmem : e ∈ g.incoming n → n = d.target := by
      intro hm
      obtain ⟨y, hy, rfl⟩ := hg.incoming.1 hm
      rw [hd] at hy
      cases hy
      rfl
    refine List.Nodup.append ?_ (by split <;> simp) ?_
    · split
      · exact (hg.nodupIn n).filter _
      · exact hg.nodupIn n
    · intro x hx hx'
      have hxe : x = e := by
        split at hx'
        · simpa using hx'
        · cases hx'
      subst hxe
      split at hx
      · simp at hx
      · next hnd => exact hnd (hmem hx)

theorem map_lookup {es : List EdgeId} (hes : ∀ x ∈ es, (g.edge? x).isSome = true) :
    (es.filterMap fun x => (g.edge? x).map fun d => (x, d)).map Prod.fst = es := by
  induction es with
  | nil => rfl
  | cons x es ih =>
    obtain ⟨d, hd⟩ := Option.isSome_iff_exists.1 (hes x (by simp))
    rw [List.filterMap_cons_some (by rw [hd]; rfl), List.map_cons,
      ih fun y hy => hes y (by simp [hy])]

theorem map_successorEdges (hg : g.Linked) (n : NodeId) :
    (g.successorEdges n).map Prod.fst = g.outgoing n := by
  refine map_lookup fun x hx => ?_
  obtain ⟨d, hd, -⟩ := hg.outgoing.1 hx
  rw [hd]
  rfl

theorem map_predecessorEdges (hg : g.Linked) (n : NodeId) :
    (g.predecessorEdges n).map Prod.fst = g.incoming n := by
  refine map_lookup fun x hx => ?_
  obtain ⟨d, hd, -⟩ := hg.incoming.1 hx
  rw [hd]
  rfl

theorem mem_predecessorEdges (hg : g.Linked) :
    (e, d) ∈ g.predecessorEdges n ↔ g.edge? e = some d ∧ d.target = n := by
  simp only [predecessorEdges, List.mem_filterMap, Option.map_eq_some_iff, Prod.mk.injEq]
  constructor
  · rintro ⟨e', he', d', hd', rfl, rfl⟩
    obtain ⟨d, hd, ht⟩ := hg.incoming.1 he'
    rw [hd'] at hd
    cases hd
    exact ⟨hd', ht⟩
  · rintro ⟨hd, ht⟩
    exact ⟨e, hg.incoming.2 ⟨d, hd, ht⟩, d, hd, rfl, rfl⟩

end Linked

/-! ## Coherence -/

/-- The edges in the lists of the nodes are the live edges, once each, and lead from control node to
control node. -/
structure Coherent (g : Graph) : Prop where
  outgoing : ∀ {n e}, e ∈ g.outgoing n ↔ ∃ d, g.edge? e = some d ∧ d.source = n
  incoming : ∀ {n e}, e ∈ g.incoming n ↔ ∃ d, g.edge? e = some d ∧ d.target = n
  nodupOut : ∀ n, (g.outgoing n).Nodup
  nodupIn : ∀ n, (g.incoming n).Nodup
  source : ∀ {e d}, g.edge? e = some d → g.kindIs d.source NodeKind.isControl = true
  target : ∀ {e d}, g.edge? e = some d → g.kindIs d.target NodeKind.isControl = true

namespace Coherent

theorem linked (hg : g.Coherent) : g.Linked := ⟨hg.outgoing, hg.incoming, hg.nodupOut, hg.nodupIn⟩

theorem of_linked (hg : g.Linked)
    (hs : ∀ {e d}, g.edge? e = some d → g.kindIs d.source NodeKind.isControl = true)
    (ht : ∀ {e d}, g.edge? e = some d → g.kindIs d.target NodeKind.isControl = true) : g.Coherent :=
  ⟨hg.outgoing, hg.incoming, hg.nodupOut, hg.nodupIn, hs, ht⟩

theorem isolated (hg : g.Coherent) (hn : g.kindIs n NodeKind.isControl = false) :
    g.outgoing n = [] ∧ g.incoming n = [] := by
  constructor
  · refine List.eq_nil_iff_forall_not_mem.2 fun e he => ?_
    obtain ⟨d, hd, rfl⟩ := hg.outgoing.1 he
    rw [hg.source hd] at hn
    cases hn
  · refine List.eq_nil_iff_forall_not_mem.2 fun e he => ?_
    obtain ⟨d, hd, rfl⟩ := hg.incoming.1 he
    rw [hg.target hd] at hn
    cases hn

variable {g' : Graph}

theorem of_same (hg : g.Coherent) (h : SameWires g g')
    (hk : ∀ n, g.incoming n ≠ [] ∨ g.outgoing n ≠ [] →
      g.kindIs n NodeKind.isControl = true → g'.kindIs n NodeKind.isControl = true) :
    g'.Coherent := by
  refine of_linked (hg.linked.of_same h) ?_ ?_
  · intro e d hd
    rw [h.edge?] at hd
    exact hk _ (.inr (List.ne_nil_of_mem (hg.outgoing.2 ⟨d, hd, rfl⟩))) (hg.source hd)
  · intro e d hd
    rw [h.edge?] at hd
    exact hk _ (.inl (List.ne_nil_of_mem (hg.incoming.2 ⟨d, hd, rfl⟩))) (hg.target hd)

theorem links (hg : g.Coherent) (h : Links g g' s t d e) (hs : d.source = s) (ht : d.target = t)
    (hsc : g.kindIs s NodeKind.isControl = true) (htc : g.kindIs t NodeKind.isControl = true) :
    g'.Coherent := by
  have hk : ∀ n p, g'.kindIs n p = g.kindIs n p := by
    intro n p
    simp only [kindIs, kind?, h.node?]
  refine of_linked (hg.linked.links h hs ht) ?_ ?_
  · intro x y hy
    rw [h.edge?] at hy
    rw [hk]
    split at hy
    · cases hy
      rw [hs]
      exact hsc
    · exact hg.source hy
  · intro x y hy
    rw [h.edge?] at hy
    rw [hk]
    split at hy
    · cases hy
      rw [ht]
      exact htc
    · exact hg.target hy

theorem moves (hg : g.Coherent) (hd : g.edge? e = some d) (h : Moves g g' e d t)
    (htc : g.kindIs t NodeKind.isControl = true) : g'.Coherent := by
  have hk : ∀ n p, g'.kindIs n p = g.kindIs n p := by
    intro n p
    simp only [kindIs, kind?, h.node?]
  refine of_linked (hg.linked.moves hd h) ?_ ?_
  · intro x y hy
    rw [h.edge?] at hy
    rw [hk]
    split at hy
    · cases hy
      exact hg.source (d := d) hd
    · exact hg.source hy
  · intro x y hy
    rw [h.edge?] at hy
    rw [hk]
    split at hy
    · cases hy
      exact htc
    · exact hg.target hy

end Coherent

end Graph

end StackLift
