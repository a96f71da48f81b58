import StackLift.Proofs.Upkeep

/-!
# The order of removals

What is left when several nodes are removed can be said without naming an order (`Lacks`): the nodes
are gone, so is every edge that touches one of them, and what is left in the lists stands there in the
old order. A graph is determined by what its queries answer, so every order gives the same graph, and
it does not matter if a node is removed more than once.
-/
namespace StackLift

namespace Graph

variable {g g' g₁ g₂ : Graph} {l l' : List NodeId}

/-- The graph `g` without the nodes `l`, their edges and their frequencies. -/
structure Lacks (g g' : Graph) (l : List NodeId) : Prop where
  nodeCount : g'.nodeCount = g.nodeCount
  size : g'.edges.size = g.edges.size
  start : g'.start = g.start
  node? : ∀ n, g'.node? n = if n ∈ l then none else g.node? n
  edge? : ∀ e, g'.edge? e = (g.edge? e).filter fun d => d.source ∉ l ∧ d.target ∉ l
  outgoing : ∀ n, g'.outgoing n = (g.outgoing n).filter fun e => (g'.edge? e).isSome
  incoming : ∀ n, g'.incoming n = (g.incoming n).filter fun e => (g'.edge? e).isSome
  frequencies : g'.frequencies = g.frequencies.filter fun x => !(decide (x.1 ∈ l) && g.contains x.1)

/-! ## One removal -/

theorem Upkept.lacks_self (hg : g.Upkept) (hl : ∀ n ∈ l, g.contains n = false) : Lacks g g l := by
  have hdead : ∀ {n}, g.contains n = true → n ∉ l := by
    intro n hc hn
    rw [hl n hn] at hc
    cases hc
  have hall : ∀ es : List EdgeId, (∀ e ∈ es, ∃ d, g.edge? e = some d) →
      es = es.filter fun e => (g.edge? e).isSome := by
    intro es hes
    refine (List.filter_eq_self.2 fun e he => ?_).symm
    obtain ⟨d, hd⟩ := hes e he
    rw [hd]
    rfl
  refine ⟨rfl, rfl, rfl, fun n => ?_, fun e => ?_, fun n => hall _ fun e he => ?_,
    fun n => hall _ fun e he => ?_, (List.filter_eq_self.2 fun x _ => ?_).symm⟩
  · split
    · next hn => simpa [contains] using hl n hn
    · rfl
  · cases he : g.edge? e with
    | none => rfl
    | some d =>
      obtain ⟨hs, ht⟩ := hg.ends he
      simp [Option.filter, hdead hs, hdead ht]
  · obtain ⟨d, hd, -⟩ := hg.linked.outgoing.1 he
    exact ⟨d, hd⟩
  · obtain ⟨d, hd, -⟩ := hg.linked.incoming.1 he
    exact ⟨d, hd⟩
  · by_cases hx : x.1 ∈ l
    · simp [hl _ hx]
    · simp [hx]

theorem frequencies_dropEdge (g : Graph) (e : EdgeId) : (g.dropEdge e).frequencies = g.frequencies := by
  unfold dropEdge
  split <;> rfl

theorem Upkept.lacks_removeNode (hg : g.Upkept) (n : NodeId) : Lacks g (g.removeNode n) [n] := by
  by_cases hn : g.contains n = true
  · have hd := hg.linked.removeNode hn
    obtain ⟨hcount, hnode⟩ := g.removeNode_spec n
    refine ⟨hcount, ?_, g.start_removeNode n, fun m => ?_, fun e => ?_, fun m => ?_, fun m => ?_, ?_⟩
    · rw [removeNode_eq hn, foldl_dropEdge (q := fun g => g.edges.size) fun _ _ => size_dropEdge]
      rfl
    · simp only [hnode, List.mem_singleton]
    · simp only [hd.edge?, List.mem_singleton, ne_eq]
    · -- Of the edges from `m`, those go that lead to `n`; all of them go if `m` is `n`.
      have hleft : ∀ e ∈ g.outgoing m, ((g.removeNode n).edge? e).isSome =
          decide (m ≠ n ∧ e ∉ g.incoming n) := by
        intro e he
        obtain ⟨d, hde, rfl⟩ := hg.linked.outgoing.1 he
        have hin : e ∈ g.incoming n ↔ d.target = n := by simp [hg.linked.incoming, hde]
        rw [hd.edge?, hde, Option.filter_some]
        by_cases hs : d.source = n <;> by_cases ht : d.target = n <;> simp [hs, ht, hin]
      rw [List.filter_congr hleft, hd.outgoing]
      by_cases hm : m = n <;> simp [hm]
    · have hleft : ∀ e ∈ g.incoming m, ((g.removeNode n).edge? e).isSome =
          decide (m ≠ n ∧ e ∉ g.outgoing n) := by
        intro e he
        obtain ⟨d, hde, rfl⟩ := hg.linked.incoming.1 he
        have hout : e ∈ g.outgoing n ↔ d.source = n := by simp [hg.linked.outgoing, hde]
        rw [hd.edge?, hde, Option.filter_some]
        by_cases hs : d.source = n <;> by_cases ht : d.target = n <;> simp [hs, ht, hout]
      rw [List.filter_congr hleft, hd.incoming]
      by_cases hm : m = n <;> simp [hm]
    · have hfilter : (g.removeNode n).frequencies = g.frequencies.filter (·.1 ≠ n) := by
        rw [removeNode_eq hn]
        exact foldl_dropEdge frequencies_dropEdge _ _
      rw [hfilter]
      refine List.filter_congr fun x _ => ?_
      by_cases hx : x.1 = n <;> simp [hx, hn]
  · rw [Graph.removeNode, if_neg hn]
    exact hg.lacks_self fun m hm => by rw [List.mem_singleton.1 hm]; simpa using hn

/-! ## Many removals -/

theorem Lacks.trans (h : Lacks g g₁ l) (h' : Lacks g₁ g₂ l') : Lacks g g₂ (l ++ l') := by
  have hedge : ∀ e, (g₂.edge? e).isSome = true → (g₁.edge? e).isSome = true := by
    intro e he
    rw [h'.edge?] at he
    cases h1 : g₁.edge? e with
    | none =>
      rw [h1] at he
      cases he
    | some d => rfl
  have hlist : ∀ es : List EdgeId, (es.filter fun e => (g₁.edge? e).isSome).filter
      (fun e => (g₂.edge? e).isSome) = es.filter fun e => (g₂.edge? e).isSome := by
    intro es
    rw [List.filter_filter]
    refine List.filter_congr fun e _ => ?_
    cases he : (g₂.edge? e).isSome with
    | false => rfl
    | true => rw [hedge e he]; rfl
  refine ⟨h'.nodeCount.trans h.nodeCount, h'.size.trans h.size, h'.start.trans h.start, fun n => ?_,
    fun e => ?_, fun n => ?_, fun n => ?_, ?_⟩
  · rw [h'.node?, h.node?]
    by_cases h1 : n ∈ l <;> by_cases h2 : n ∈ l' <;> simp [h1, h2]
  · rw [h'.edge?, h.edge?, Option.filter_filter]
    congr 1
    funext d
    simp only [List.mem_append, not_or, Bool.decide_and]
    grind
  · rw [h'.outgoing, h.outgoing, hlist]
  · rw [h'.incoming, h.incoming, hlist]
  · rw [h'.frequencies, h.frequencies, List.filter_filter]
    refine List.filter_congr fun x _ => ?_
    have hc : g₁.contains x.1 = (!decide (x.1 ∈ l) && g.contains x.1) := by
      rw [contains, h.node?]
      by_cases hx : x.1 ∈ l <;> simp [hx, contains]
    rw [hc]
    by_cases h1 : x.1 ∈ l <;> by_cases h2 : x.1 ∈ l' <;> simp [h1, h2]

theorem Upkept.removeAll (hg : g.Upkept) (l : List NodeId) : (l.foldl Graph.removeNode g).Upkept := by
  induction l generalizing g with
  | nil => exact hg
  | cons n l ih => exact ih (hg.removeNode n)

theorem Upkept.lacks_removeAll (hg : g.Upkept) (l : List NodeId) :
    Lacks g (l.foldl Graph.removeNode g) l := by
  induction l generalizing g with
  | nil => exact hg.lacks_self (by simp)
  | cons n l ih => exact (hg.lacks_removeNode n).trans (ih (hg.removeNode n))

/-! ## What a graph is determined by -/

theorem slots_ext (hc : g'.nodeCount = g.nodeCount) (hn : ∀ n, g'.node? n = g.node? n)
    (ho : ∀ n, g'.outgoing n = g.outgoing n) (hi : ∀ n, g'.incoming n = g.incoming n) :
    g'.slots = g.slots := by
  refine Array.ext hc fun i h' h => ?_
  have h1 := hn ⟨i⟩
  have h2 := ho ⟨i⟩
  have h3 := hi ⟨i⟩
  rw [outgoing_eq, outgoing_eq, Array.getElem?_eq_getElem h, Array.getElem?_eq_getElem h'] at h2
  rw [incoming_eq, incoming_eq, Array.getElem?_eq_getElem h, Array.getElem?_eq_getElem h'] at h3
  unfold node? at h1
  rw [Array.getElem?_eq_getElem h, Array.getElem?_eq_getElem h'] at h1
  revert h1 h2 h3
  generalize g'.slots[i] = x
  generalize g.slots[i] = y
  intro h1 h2 h3
  cases x
  cases y
  cases h1
  cases h2
  cases h3
  rfl

theorem edges_ext (hs : g'.edges.size = g.edges.size) (he : ∀ e, g'.edge? e = g.edge? e) :
    g'.edges = g.edges := by
  refine Array.ext hs fun i h' h => ?_
  have := he ⟨i⟩
  unfold edge? at this
  rwa [Array.getElem?_eq_getElem h, Array.getElem?_eq_getElem h'] at this

theorem Lacks.unique (h₁ : Lacks g g₁ l) (h₂ : Lacks g g₂ l') (hl : ∀ n, n ∈ l ↔ n ∈ l')
    (hc₁ : g₁.Counted) (hc₂ : g₂.Counted) : g₁ = g₂ := by
  have hcount : g₁.nodeCount = g₂.nodeCount := h₁.nodeCount.trans h₂.nodeCount.symm
  have hnode : ∀ n, g₁.node? n = g₂.node? n := fun n => by simp only [h₁.node?, h₂.node?, hl]
  have hedge : ∀ e, g₁.edge? e = g₂.edge? e := fun e => by simp only [h₁.edge?, h₂.edge?, hl]
  have hslots : g₁.slots = g₂.slots := by
    refine slots_ext hcount hnode (fun n => ?_) fun n => ?_
    · rw [h₁.outgoing, h₂.outgoing]
      simp only [hedge]
    · rw [h₁.incoming, h₂.incoming]
      simp only [hedge]
  have hedges : g₁.edges = g₂.edges := edges_ext (h₁.size.trans h₂.size.symm) hedge
  have hstart : g₁.start = g₂.start := h₁.start.trans h₂.start.symm
  have hfreq : g₁.frequencies = g₂.frequencies := by
    rw [h₁.frequencies, h₂.frequencies]
    simp only [hl]
  have hlive : g₁.live = g₂.live := by
    unfold Counted at hc₁ hc₂
    rw [hc₁, hc₂, places_congr hcount fun n => contains_congr (hnode n)]
  cases g₁
  cases g₂
  cases hslots
  cases hedges
  cases hstart
  cases hfreq
  cases hlive
  rfl

/-- **The order of removals does not matter**, nor how often a node is removed: in a graph that was made
by any requests, the same nodes always leave the same graph behind. -/
theorem removal_orderFree (ops : List Op) :
    (∀ a b, ((run {} ops).2.removeNode a).removeNode b = ((run {} ops).2.removeNode b).removeNode a) ∧
      (∀ a, ((run {} ops).2.removeNode a).removeNode a = (run {} ops).2.removeNode a) ∧
      ∀ l l' : List NodeId, (∀ n, n ∈ l ↔ n ∈ l') →
        l.foldl removeNode (run {} ops).2 = l'.foldl removeNode (run {} ops).2 := by
  have hg : (run {} ops).2.Upkept := Upkept.empty.run ops
  have hsame : ∀ l l' : List NodeId, (∀ n, n ∈ l ↔ n ∈ l') →
      l.foldl removeNode (run {} ops).2 = l'.foldl removeNode (run {} ops).2 := fun l l' hl =>
    (hg.lacks_removeAll l).unique (hg.lacks_removeAll l') hl (hg.removeAll l).counted
      (hg.removeAll l').counted
  exact ⟨fun a b => hsame [a, b] [b, a] fun n => by simp [or_comm],
    fun a => hsame [a, a] [a] fun n => by simp,
    hsame⟩

/-- A loop header with two edges to a switch, which leads to itself, back to the header, and on. -/
def tangle : List Op :=
  [.addNode (.loopHeader 0) [], .addNode (.switch [1, 2]) [], .addNode .endNode [],
    .addEdge ⟨0⟩ ⟨1⟩ .next 1, .addEdge ⟨0⟩ ⟨1⟩ .next 1, .addEdge ⟨1⟩ ⟨1⟩ (.case 0) 1,
    .addEdge ⟨1⟩ ⟨0⟩ (.case 1) 1,
    .addEdge ⟨1⟩ ⟨2⟩ .default 1, .setFrequency ⟨0⟩ 8]

theorem tangle_removals :
    [⟨0⟩, ⟨1⟩, ⟨0⟩].foldl removeNode (run {} tangle).2 = [⟨1⟩, ⟨0⟩].foldl removeNode (run {} tangle).2 :=
  (removal_orderFree tangle).2.2 [⟨0⟩, ⟨1⟩, ⟨0⟩] [⟨1⟩, ⟨0⟩] fun n => by simp [or_comm]

end Graph

end StackLift
