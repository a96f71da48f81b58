import StackLift.Proofs.Arrival
import StackLift.Proofs.Duo.Frames

/-!
# Frames that gather at a join

Edges come into a block one after the other, and every one of them joins its frame with what is
there. `Gathers` is such a run: each delivery asks for the node that leads into the block and links it,
and whatever happens in between stays away from the join (`Apart`).

The outcome is that of joining all frames at once (`Batch`): a slot holds the node that all frames have
there, or a phi with one input for each of them, in order. Which edges come first does not show in it
but in the order of the ends and of the inputs.
-/
namespace StackLift

variable {strict : Bool} {e : EdgeId} {f' : Frame} {row : List (Option Value)} {I : List NodeId}
  {vs : List Value} {a b n : NodeId} {k : NodeKind} {o : Option Value} {w4 : Work}

open BuildM
open StackLift.Graph hiding addEdge addNode addPhiInput kindIs setSnapshot

/-! ## All frames at once -/

/-- `n` stands for all of `vs` at the join `m`: it is their common node, or a phi of them. -/
def Graph.Unites (g : Graph) (m : NodeId) (vs : List Value) (n : NodeId) : Prop :=
  (∀ x ∈ vs, x.node = n) ∨
    ((∃ x ∈ vs, ∃ y ∈ vs, x.node ≠ y.node) ∧ g.kind? n = some (.phi m) ∧
      g.inputs n = vs.map (·.node))

/-- What a slot holds at the join `m` if the frames hold `row` in it: something iff all of them do,
and, where kinds matter, with the kind that the first one has. -/
structure United (strict : Bool) (g : Graph) (m : NodeId) (row : List (Option Value))
    (o : Option Value) : Prop where
  held : ∀ v, o = some v → ∃ x xs, row = (x :: xs).map some ∧
    (strict = true → ∀ y ∈ xs, y.kind = x.kind) ∧ v.kind = x.kind ∧ g.Unites m (x :: xs) v.node
  lost : o = none → ∀ x xs, row = (x :: xs).map some → strict = true ∧ ∃ y ∈ xs, y.kind ≠ x.kind

/-- `f` is the frame at the join `m` of the frames `fs`. -/
structure Batch (g : Graph) (m : NodeId) (fs : List Frame) (f : Frame) : Prop where
  shape : ∀ s ∈ fs, s.isCompatible f = true
  stack : ∀ j : Nat, United true g m (fs.map (·.stack.reverse[j]?)) f.stack.reverse[j]?
  monitors : ∀ j : Nat, United false g m (fs.map (·.monitors.reverse[j]?)) f.monitors.reverse[j]?
  locals : ∀ j, United true g m (fs.map (·.local? j)) (f.local? j)
  others : ∀ n, g.kind? n = some (.phi m) → ∃ v ∈ f.values, v.node = n

theorem Frame.isCompatible_iff {f s : Frame} : f.isCompatible s = true ↔
    f.stack.map (·.kind) = s.stack.map (·.kind) ∧ f.monitors.length = s.monitors.length := by
  simp [Frame.isCompatible, Frame.monitorDepth]

theorem sameKinds_iff {l l' : List Value} : l.map (·.kind) = l'.map (·.kind) ↔
    l.length = l'.length ∧ ∀ p ∈ l.reverse.zip l'.reverse, p.1.kind = p.2.kind := by
  rw [← List.forall₂_eq_eq_eq, List.forall₂_map_left_iff, List.forall₂_map_right_iff,
    ← List.forall₂_reverse_iff, List.forall₂_iff_zip, List.length_reverse, List.length_reverse]
  exact and_congr_right fun _ => ⟨fun h p hp => h hp, fun h a b hp => h (a, b) hp⟩

theorem Frame.clash?_eq_none {f s : Frame} : f.clash? s = none ↔ f.isCompatible s = true := by
  rw [Frame.isCompatible_iff, sameKinds_iff, Frame.clash?]
  split
  · next h => exact ⟨fun hc => (by cases hc), fun hc => absurd hc.1.1 h⟩
  · next h =>
    rw [Option.or_eq_none_iff, Frame.kindClash?, List.findSome?_eq_none_iff]
    constructor
    · rintro ⟨hk, hm⟩
      refine ⟨⟨not_not.1 h, Frame.kindClash?_none (List.findSome?_eq_none_iff.2 hk)⟩, ?_⟩
      by_contra hne
      rw [if_pos (show f.monitorDepth ≠ s.monitorDepth from hne)] at hm
      cases hm
    · rintro ⟨⟨-, hk⟩, hm⟩
      refine ⟨fun x hx => if_pos ?_, if_neg (not_not.2 hm)⟩
      exact hk _ (List.mem_of_getElem? (List.mem_zipIdx_iff_getElem?.1 hx))

/-! ## One more frame -/

section Join

variable {g0 g : Graph} {m : NodeId} {done : List NodeId}

/-- A slot of the join after one more frame has brought `new`. -/
structure JoinedSlot (strict : Bool) (g0 g : Graph) (m : NodeId) (ends : Nat) (o new r : Option Value) :
    Prop where
  held : ∀ v, r = some v → ∃ old x, o = some old ∧ new = some x ∧
    (strict = true → x.kind = old.kind) ∧ Joined g0 g m ends old x v
  lost : r = none → ∀ old x, o = some old → new = some x → strict = true ∧ x.kind ≠ old.kind

theorem Joined.unites {old x v : Value} (hs : Slots g0 g m done []) (hold : g0.Unites m vs old.node)
    (hj : Joined g0 g m vs.length old x v) (hne : vs ≠ [])
    (hfor : ∀ y ∈ vs, g0.kind? y.node ≠ some (.phi m)) : g.Unites m (vs ++ [x]) v.node := by
  obtain ⟨a, ha⟩ := List.exists_mem_of_ne_nil vs hne
  rcases hj.node with ⟨hphi, hv, hin⟩ | ⟨hphi, hv, hx⟩ | ⟨hphi, hk, hin, hx⟩
  · rcases hold with hsame | ⟨⟨b, hb, c, hc, hbc⟩, -, hin0⟩
    · exact absurd (hsame a ha ▸ hphi) (hfor a ha)
    · refine .inr ⟨⟨b, by simp [hb], c, by simp [hc], hbc⟩, ?_, ?_⟩
      · -- The phi has an input, so it is there, and its kind is the one it had.
        cases hk : g.kind? v.node with
        | none =>
          have : g.node? v.node = none := by simpa [kind?] using hk
          simp [inputs, this] at hin
        | some k =>
          rw [hv] at hk
          rw [← hphi, (hs.old (lt_of_kind? hphi) hk).1]
      · rw [hin, hin0, List.map_append]
        rfl
  · rcases hold with hsame | ⟨-, hk, -⟩
    · refine .inl fun y hy => ?_
      rcases List.mem_append.1 hy with hy | hy
      · rw [hsame y hy, hv]
      · rw [List.mem_singleton.1 hy, hv, hx]
    · exact absurd hk hphi
  · rcases hold with hsame | ⟨-, hk', -⟩
    · refine .inr ⟨⟨a, by simp [ha], x, by simp, hsame a ha ▸ hx⟩, hk, ?_⟩
      have : vs.map (·.node) = List.replicate vs.length old.node := by
        rw [List.eq_replicate_iff]
        refine ⟨by simp, fun n hn => ?_⟩
        obtain ⟨y, hy, rfl⟩ := List.mem_map.1 hn
        exact hsame y hy
      rw [hin, List.map_append, this]
      rfl
    · exact absurd hk' hphi

theorem United.join {new r : Option Value} (h : United strict g0 m row o) (hs : Slots g0 g m done [])
    (hj : JoinedSlot strict g0 g m row.length o new r) (hne : row ≠ [])
    (hfor : ∀ y, some y ∈ row → g0.kind? y.node ≠ some (.phi m)) : United strict g m
      (row ++ [new]) r := by
  refine ⟨fun v hv => ?_, fun hr x xs hrow => ?_⟩
  · obtain ⟨old, y, ho, rfl, hk, hjoined⟩ := hj.held v hv
    obtain ⟨x, xs, rfl, hkinds, hkind, hunites⟩ := h.held old ho
    refine ⟨x, xs ++ [y], by simp, fun hst z hz => ?_, hjoined.kind.trans hkind, ?_⟩
    · rcases List.mem_append.1 hz with hz | hz
      · exact hkinds hst z hz
      · rw [List.mem_singleton.1 hz, hk hst, hkind]
    · rw [← List.cons_append]
      refine Joined.unites hs hunites ?_ (by simp) fun z hz => hfor z (List.mem_map.2 ⟨z, hz, rfl⟩)
      simpa using hjoined
  · obtain ⟨l, l', hl, rfl, hl'⟩ := List.map_eq_append_iff.1 hrow.symm
    cases l with
    | nil => exact absurd rfl hne
    | cons a ys =>
      obtain ⟨rfl, rfl⟩ : x = a ∧ xs = ys ++ l' := by simpa using hl
      obtain ⟨y, rfl, hy⟩ := List.map_eq_singleton_iff.1 hl'
      cases o with
      | none =>
        obtain ⟨hst, z, hz, hk⟩ := h.lost rfl x ys rfl
        exact ⟨hst, z, by simp [hz], hk⟩
      | some old =>
        obtain ⟨a, as, has, -, hkind, -⟩ := h.held old rfl
        obtain ⟨hst, hk⟩ := hj.lost hr old y rfl hy.symm
        obtain ⟨rfl, -⟩ : x = a ∧ ys = as := by
          have := List.map_injective_iff.2 (Option.some_injective Value) has
          simpa using this
        exact ⟨hst, y, by simp, hkind ▸ hk⟩

theorem JoinedSlot.of_zip {ends : Nat} {xs ys : List Value}
    (h : List.Forall₂ (fun p v => Joined g0 g m ends p.1 p.2 v) (xs.zip ys) vs)
    (hk : strict = true → ∀ p ∈ xs.zip ys, p.1.kind = p.2.kind) (j : Nat) :
    JoinedSlot strict g0 g m ends xs[j]? ys[j]? vs[j]? := by
  have hrel := forall₂_getElem? h j
  refine ⟨fun v hv => ?_, fun hv a b ha hb => ?_⟩
  · rw [hv] at hrel
    generalize hz : (xs.zip ys)[j]? = o at hrel
    cases hrel with
    | some hj =>
      obtain ⟨h1, h2⟩ := List.getElem?_zip_eq_some.1 hz
      exact ⟨_, _, h1, h2, fun hst => (hk hst _ (List.mem_of_getElem? hz)).symm, hj⟩
  · rw [hv, List.getElem?_zip_eq_some (z := (a, b)) |>.2 ⟨ha, hb⟩] at hrel
    cases hrel

theorem JoinedSlot.of_local {ends : Nat} {f s : Frame}
    (h : List.Forall₂ (JoinedLocal g0 g m ends) (f.pairLocals s) f'.locals) (j : Nat) :
    JoinedSlot true g0 g m ends (f.local? j) (s.local? j) (f'.local? j) := by
  have hrel := forall₂_getElem? h j
  rw [Frame.getElem?_pairLocals] at hrel
  unfold Frame.local? at hrel ⊢
  cases hf : f.locals[j]? with
  | none =>
    refine ⟨fun v hv => ?_, fun _ _ _ ho => by cases ho⟩
    rw [hf, Option.join_eq_some_iff.1 hv] at hrel
    cases hrel
  | some o =>
    rw [hf] at hrel
    generalize f'.locals[j]? = r at hrel ⊢
    cases hrel with
    | some hj =>
      refine ⟨fun v hv => ?_, fun hn old x h1 h2 => ⟨rfl, hj.lost hn old x (by rw [← h1, ← h2]; rfl)⟩⟩
      obtain ⟨old, new, hp, hk, hjoined⟩ := hj.held v hv
      obtain ⟨h1, h2⟩ := Prod.mk.inj hp
      exact ⟨old, new, h1, h2, fun _ => hk, hjoined⟩

/-- The frame at the join after one more frame has arrived. -/
theorem Batch.join {fs : List Frame} {f s : Frame} (h : Batch g0 m fs f)
    (hs : Slots g0 g m (f'.values.map (·.node)) []) (hmeet : Meets g0 g m fs.length f s f')
    (hfs : f.isCompatible s = true) (hne : fs ≠ [])
    (hfor : ∀ t ∈ fs, ∀ v ∈ t.values, g0.kind? v.node ≠ some (.phi m)) : Batch g m (fs ++ [s]) f' := by
  obtain ⟨hkinds, hmon⟩ := Frame.isCompatible_iff.1 hfs
  have hrow : ∀ {strict o new r} (slot : Frame → Option Value),
      United strict g0 m (fs.map slot) o → JoinedSlot strict g0 g m fs.length o new r →
      (∀ t ∈ fs, ∀ v, slot t = some v → v ∈ t.values) →
      United strict g m (fs.map slot ++ [new]) r := by
    intro strict o new r slot hu hj hmem
    refine hu.join hs (by simpa using hj) (by simpa using hne) fun y hy => ?_
    obtain ⟨t, ht, heq⟩ := List.mem_map.1 hy
    exact hfor t ht y (hmem t ht y heq)
  refine ⟨?_, fun j => ?_, fun j => ?_, fun j => ?_, ?_⟩
  · have hmon' : f'.monitors.length = f.monitors.length := by
      simpa [hmeet.monitorDepth] using hmeet.monitors.length_eq.symm
    have hall : f.isCompatible f' = true ∧ s.isCompatible f' = true := by
      rw [Frame.isCompatible_iff, Frame.isCompatible_iff, hmeet.kinds, hmon']
      exact ⟨⟨rfl, rfl⟩, hkinds.symm, hmon.symm⟩
    intro t ht
    rcases List.mem_append.1 ht with ht | ht
    · obtain ⟨h1, h2⟩ := Frame.isCompatible_iff.1 (h.shape t ht)
      obtain ⟨h3, h4⟩ := Frame.isCompatible_iff.1 hall.1
      exact Frame.isCompatible_iff.2 ⟨h1.trans h3, h2.trans h4⟩
    · rw [List.mem_singleton.1 ht]
      exact hall.2
  · rw [List.map_append]
    refine hrow (·.stack.reverse[j]?) (h.stack j)
      (.of_zip hmeet.stack (fun _ => (sameKinds_iff.1 hkinds).2) j) fun t _ v hv => ?_
    exact Frame.mem_values_stack (List.mem_of_getElem? hv)
  · rw [List.map_append]
    refine hrow (·.monitors.reverse[j]?) (h.monitors j) (.of_zip hmeet.monitors (by simp) j)
      fun t _ v hv => ?_
    exact Frame.mem_values_monitors (List.mem_of_getElem? hv)
  · rw [List.map_append]
    refine hrow (·.local? j) (h.locals j) (.of_local hmeet.locals j) fun t _ v hv => ?_
    exact Frame.mem_values.2 (.inl (List.mem_of_getElem? (Option.join_eq_some_iff.1 hv)))
  · intro n hn
    obtain ⟨v, hv, rfl⟩ := List.mem_map.1 ((hs.all n hn).resolve_right (by simp))
    exact ⟨v, hv, rfl⟩

end Join

/-! ## The run -/

/-- A frame on its way into a block, and the edge that brings it. -/
structure Delivery where
  source : BlockId
  frame : Frame
  position : Position
  node : NodeId
  kind : EdgeKind
  probability : Float

/-- The edges are where their ends say, and every phi is younger than its join. -/
structure Graph.Orderly (g : Graph) : Prop where
  coherent : g.Coherent
  phi : ∀ {n m}, g.kind? n = some (.phi m) → m.index < n.index

namespace Graph.Orderly

variable {g g' : Graph}

theorem addNode (h : g.Orderly) (hk : ∀ m, k ≠ .phi m) : (g.addNode k I).2.Orderly := by
  refine ⟨h.coherent.addNode k I, fun {n m} hn => ?_⟩
  rw [kind?_addNode] at hn
  split at hn
  · exact absurd (Option.some.inj hn) (hk m)
  · exact h.phi hn

theorem links {k : EdgeKind} {p : Float} (h : g.Orderly) (hl : Links g g' a b ⟨a, b, k, p⟩ e)
    (ha : g.kindIs a NodeKind.isControl = true) (hb : g.kindIs b NodeKind.isControl = true) :
    g'.Orderly :=
  ⟨h.coherent.links hl rfl rfl ha hb, fun hn => h.phi (kind?_congr (hl.node? _) ▸ hn)⟩

theorem slots {m : NodeId} {done : List NodeId} (h : g.Orderly) (hs : Slots g g' m done [])
    (hm : m.index < g.nodeCount) : g'.Orderly := by
  refine ⟨h.coherent.of_same hs.toSameWires fun n _ hn => ?_, fun {n c} hn => ?_⟩
  · obtain ⟨k, hk, hc⟩ := kindIs_iff.1 hn
    refine kindIs_iff.2 ⟨k, ?_, hc⟩
    rw [kind?_congr (hs.kept (lt_of_kind? hk) fun heq => ?_), hk]
    rw [hk] at heq
    cases heq
    cases hc
  · rcases Nat.lt_or_ge n.index g.nodeCount with hlt | hge
    · exact h.phi (hs.old hlt hn).1
    · cases hs.young hge hn
      exact Nat.lt_of_lt_of_le hm hge

end Graph.Orderly

/-- The nodes of the join `m`: itself and the ends that lead to it. -/
def Graph.Near (g : Graph) (m n : NodeId) : Prop :=
  n = m ∨ n ∈ g.predecessors m ∧ g.kind? n = some .endNode

/-- The begins in front of the ends that lead to `m`. -/
def Graph.Leading (g : Graph) (m n : NodeId) : Prop :=
  g.kind? n = some .begin ∧ ∃ s ∈ g.predecessors m, g.kind? s = some .endNode ∧ n ∈ g.predecessors s

/-- What happens from `w` to `w'` stays away from the entry of `target`. A begin that leads to it may
get more edges: a branch links its begin to the stub first, and itself to the begin afterwards. -/
structure Apart (target : BlockId) (w w' : Work) : Prop where
  orderly : w.graph.Orderly → w'.graph.Orderly
  count : w.graph.nodeCount ≤ w'.graph.nodeCount
  size : w'.table.entries.size = w.table.entries.size
  slot : w'.table.slot? target = w.table.slot? target
  near : ∀ {e n}, w.table.slot? target = some e → w.graph.Near e.node n →
    w'.graph.kind? n = w.graph.kind? n ∧ w'.graph.predecessorEdges n = w.graph.predecessorEdges n
  leading : ∀ {e n}, w.table.slot? target = some e → w.graph.Leading e.node n →
    w'.graph.kind? n = w.graph.kind? n ∧ w.graph.predecessorEdges n ⊆ w'.graph.predecessorEdges n
  phis : ∀ {e n}, w.table.slot? target = some e → w.graph.kind? n = some (.phi e.node) ∨
    w'.graph.kind? n = some (.phi e.node) → w'.graph.node? n = w.graph.node? n

namespace Delivery

/-- The frame holds known nodes, and no phi of the join it goes to. -/
def Foreign (d : Delivery) (target : BlockId) (w : Work) : Prop :=
  ∀ v ∈ d.frame.values, v.node.index < w.graph.nodeCount ∧
    ∀ e ∈ w.table.slot? target, isPhiOf w.graph v.node e.node = false

instance (d : Delivery) (target : BlockId) (w : Work) : Decidable (d.Foreign target w) :=
  inferInstanceAs (Decidable (∀ v ∈ d.frame.values, _ ∧ ∀ e ∈ w.table.slot? target, _))

/-- The edge leads to `stop`, or to a begin in front of it. -/
def Comes (d : Delivery) (g : Graph) (stop : NodeId) : Prop :=
  ∃ n, (∃ e, (e, ⟨d.node, n, d.kind, d.probability⟩) ∈ g.predecessorEdges n) ∧
    (n = stop ∨ n ∈ g.predecessors stop ∧ g.kind? n = some .begin)

end Delivery

/-- From `w` on, the deliveries `ds` come into `target`, each of them linked before the next. -/
inductive Gathers (sc : Scope) (target : BlockId) (w : Work) : List Delivery → Work → Prop
  | start : Gathers sc target w [] w
  | next {ds d stub w0 w1 w2 w3 w4} : Gathers sc target w ds w0 → Apart target w0 w1 →
    d.Foreign target w1 → createTarget d.source target d.frame d.position sc w1 = .ok stub w2 →
    Apart target w2 w3 → w3.graph.kindIs d.node NodeKind.isControl = true →
    addEdge d.node stub d.kind d.probability sc w3 = .ok () w4 → Gathers sc target w (ds ++ [d]) w4

/-- The frames that have arrived; the first one has lost its dead locals. -/
def arrived (sc : Scope) (target : BlockId) : List Delivery → List Frame
  | [] => []
  | d :: ds => sc.prune d.frame target :: ds.map (·.frame)

/-- The entry of `target` is the join `m`, at which the frames `fs` have arrived. -/
structure Gathered (target : BlockId) (fs : List Frame) (m : NodeId) (f : Frame) (w : Work) :
    Prop where
  slot : w.table.slot? target = some { node := m, frame := some f }
  merge : w.graph.kind? m = some .merge
  batch : Batch w.graph m fs f
  known : ∀ v ∈ f.values, v.node.index < w.graph.nodeCount
  once : ((f.values.map (·.node)).filter (isPhiOf w.graph · m)).Nodup
  foreign : ∀ s ∈ fs, ∀ v ∈ s.values, v.node.index < w.graph.nodeCount ∧
    w.graph.kind? v.node ≠ some (.phi m)

/-- The ends that lead to a join, one for each delivery. -/
def Ends (g : Graph) (ds : List Delivery) (stops : List NodeId) : Prop :=
  List.Forall₂ (fun d s => g.kind? s = some .endNode ∧ d.Comes g s) ds stops

section Stay

variable {target : BlockId} {fs : List Frame} {m : NodeId} {f : Frame} {w w' : Work}
  {g g' : Graph} {ds : List Delivery} {stops : List NodeId}

theorem Graph.Unites.mono (h : g.Unites m vs n)
    (hn : g.kind? n = some (.phi m) → g'.node? n = g.node? n) :
    g'.Unites m vs n := by
  rcases h with h | ⟨hd, hk, hin⟩
  · exact .inl h
  · refine .inr ⟨hd, ?_, ?_⟩
    · rw [kind?_congr (hn hk), hk]
    · rw [inputs_congr (hn hk), hin]

theorem United.mono (h : United strict g m row o)
    (hn : ∀ {n}, g.kind? n = some (.phi m) → g'.node? n = g.node? n) : United strict g' m row o := by
  refine ⟨fun v hv => ?_, h.lost⟩
  obtain ⟨x, xs, h1, h2, h3, h4⟩ := h.held v hv
  exact ⟨x, xs, h1, h2, h3, h4.mono hn⟩

theorem Gathered.mono (h : Gathered target fs m f w)
    (hslot : w'.table.slot? target = w.table.slot? target)
    (hm : w'.graph.kind? m = w.graph.kind? m) (hcount : w.graph.nodeCount ≤ w'.graph.nodeCount)
    (hn : ∀ {n}, w.graph.kind? n = some (.phi m) ∨ w'.graph.kind? n = some (.phi m) →
      w'.graph.node? n = w.graph.node? n) : Gathered target fs m f w' := by
  have hphi : ∀ n, w'.graph.kind? n = some (.phi m) ↔ w.graph.kind? n = some (.phi m) := by
    refine fun n => ⟨fun hk => ?_, fun hk => ?_⟩
    · rw [← kind?_congr (hn (.inr hk)), hk]
    · rw [kind?_congr (hn (.inl hk)), hk]
  have hold := fun {n} (hk : w.graph.kind? n = some (.phi m)) => hn (.inl hk)
  refine ⟨hslot.trans h.slot, hm.trans h.merge, ⟨h.batch.shape, fun j => (h.batch.stack j).mono hold,
    fun j => (h.batch.monitors j).mono hold, fun j => (h.batch.locals j).mono hold,
    fun n hk => h.batch.others n ((hphi n).1 hk)⟩,
    fun v hv => Nat.lt_of_lt_of_le (h.known v hv) hcount, ?_, fun s hs v hv => ?_⟩
  · have : ∀ n, isPhiOf w'.graph n m = isPhiOf w.graph n m := by
      intro n
      rw [Bool.eq_iff_iff, isPhiOf_iff, isPhiOf_iff, hphi]
    simp only [this]
    exact h.once
  · obtain ⟨h1, h2⟩ := h.foreign s hs v hv
    exact ⟨Nat.lt_of_lt_of_le h1 hcount, fun hk => h2 ((hphi _).1 hk)⟩

theorem Gathered.apart (h : Gathered target fs m f w) (ha : Apart target w w') :
    Gathered target fs m f w' :=
  h.mono ha.slot (ha.near h.slot (.inl rfl)).1 ha.count (ha.phis h.slot)

theorem Ends.mono (h : Ends g ds stops)
    (hs : ∀ s ∈ stops, g.kind? s = some .endNode →
      g'.kind? s = g.kind? s ∧ g'.predecessorEdges s = g.predecessorEdges s)
    (hb : ∀ n, g.kind? n = some .begin →
      (∃ s ∈ stops, g.kind? s = some .endNode ∧ n ∈ g.predecessors s) →
      g'.kind? n = g.kind? n ∧ g.predecessorEdges n ⊆ g'.predecessorEdges n) : Ends g' ds stops := by
  unfold Ends at *
  induction h with
  | nil => exact .nil
  | @cons d s ds stops hd _ ih =>
    obtain ⟨hk, n, ⟨e, hin⟩, hto⟩ := hd
    refine .cons ?_ (ih (fun s' hs' => hs s' (List.mem_cons_of_mem _ hs')) fun n' hn' h' => hb n' hn' ?_)
    · obtain ⟨hs1, hs2⟩ := hs s (by simp) hk
      refine ⟨hs1.trans hk, n, ?_⟩
      rcases hto with rfl | ⟨hmem, hn⟩
      · rw [hs2]
        exact ⟨⟨e, hin⟩, .inl rfl⟩
      · obtain ⟨hn1, hn2⟩ := hb n hn ⟨s, by simp, hk, hmem⟩
        rw [predecessors, hs2]
        exact ⟨⟨e, hn2 hin⟩, .inr ⟨hmem, hn1.trans hn⟩⟩
    · obtain ⟨s', hs', h'⟩ := h'
      exact ⟨s', List.mem_cons_of_mem _ hs', h'⟩

theorem Ends.edges {s : NodeId} (h : Ends g ds stops) (hs : s ∈ stops) : g.predecessorEdges s ≠ [] := by
  obtain ⟨d, -, -, n, ⟨e, he⟩, hn⟩ := Frame.forall₂_mem_left h.flip hs
  rcases hn with rfl | ⟨hn, -⟩
  · exact List.ne_nil_of_mem he
  · exact fun hnil => absurd hn (by simp [predecessors, hnil])

theorem Ends.apart (h : Ends w.graph ds stops) (hg : Gathered target fs m f w)
    (hs : ∀ s ∈ stops, s ∈ w.graph.predecessors m) (ha : Apart target w w') :
    Ends w'.graph ds stops := by
  refine h.mono (fun s hmem hk => ha.near hg.slot (.inr ⟨hs s hmem, hk⟩)) fun n hn h' => ?_
  obtain ⟨s, hmem, h'⟩ := h'
  exact ha.leading hg.slot ⟨hn, s, hs s hmem, h'⟩

end Stay

/-! ## Edges -/

theorem Graph.Links.predecessorEdges {g g' : Graph} {d : Edge} (h : Links g g' a b d e) (hg : g.Coherent)
    (n : NodeId) : g'.predecessorEdges n = g.predecessorEdges n ++ if n = b then [(e, d)] else [] := by
  have hold : (g.incoming n).filterMap (fun x => (g'.edge? x).map fun d => (x, d)) =
      g.predecessorEdges n := by
    refine List.filterMap_congr fun x hx => ?_
    obtain ⟨y, hy, -⟩ := hg.incoming.1 hx
    rw [h.old hy, hy]
  rw [Graph.predecessorEdges, h.incoming]
  split
  · rw [List.filterMap_append, hold]
    simp [h.edge?]
  · rw [hold, List.append_nil]

theorem Graph.Moves.predecessorEdges {g g' : Graph} {t : NodeId} {d : Edge}
    (h : Moves g g' e d t) (hg : g.Coherent) (hd : g.edge? e = some d)
    (hn : n ≠ d.target) : g'.predecessorEdges n =
      g.predecessorEdges n ++ if n = t then [(e, { d with target := t })] else [] := by
  have hold : (g.incoming n).filterMap (fun x => (g'.edge? x).map fun d => (x, d)) =
      g.predecessorEdges n := by
    refine List.filterMap_congr fun x hx => ?_
    obtain ⟨y, hy, hyn⟩ := hg.incoming.1 hx
    rw [h.edge?, if_neg]
    rintro rfl
    rw [hd] at hy
    cases hy
    exact hn hyn.symm
  rw [Graph.predecessorEdges, h.incoming, if_neg hn, List.filterMap_append, hold]
  split
  · simp [h.edge?]
  · rfl

theorem Slots.predecessorEdges {g0 g : Graph} {m : NodeId} {done rest : List NodeId}
    (h : Slots g0 g m done rest) (n : NodeId) : g.predecessorEdges n = g0.predecessorEdges n := by
  simp only [Graph.predecessorEdges, h.incoming, h.edge?]

theorem Graph.predecessorEdges_new {g : Graph} (hn : g.nodeCount ≤ n.index) :
    g.predecessorEdges n = [] := by
  rw [predecessorEdges, incoming_of_le hn]
  rfl

theorem Graph.predecessorEdges_addNode {g : Graph} :
    (g.addNode k I).2.predecessorEdges n = g.predecessorEdges n := by
  simp [predecessorEdges]

section Meet

variable {E : Error → Prop} {sc : Scope} {target : BlockId} {fs : List Frame} {m : NodeId}
  {f s : Frame} {w : Work} {p : Position}

theorem Slots.joining {g0 : Graph} {ends : Nat} (hg : g0.Coherent) :
    Joining g0 m ends (fun _ => True) (fun _ => True) (Slots g0 · m) where
  slots h := h
  isolated h hx := by
    rw [h.outgoing, h.incoming]
    exact hg.isolated (kindIs_of_kind? hx)
  keep h _ _ := h.keep
  skip h hx := h.skip hx
  fill h hx _ := h.fill hx
  grow h hx _ _ := h.grow hx
  drop {g done rest x} h hx := by
    obtain ⟨ho, hi⟩ := hg.isolated (n := x) (kindIs_of_kind? hx)
    exact h.drop hx (removeNode_clears ((h.outgoing x).trans ho) ((h.incoming x).trans hi))

theorem Frame.checkCompatible_clash {e : Error} (h : f.checkCompatible p s = .error e) :
    f.isCompatible s = false ∧ ∃ fault, e = .verification p fault := by
  unfold Frame.checkCompatible at h
  split at h
  · next hc =>
    cases h
    refine ⟨Bool.eq_false_iff.2 fun hs => ?_, _, rfl⟩
    rw [Frame.clash?_eq_none.2 hs] at hc
    cases hc
  · cases h

theorem mergeFrames_compatible {Q : Frame → Work → Prop}
    (h : f.isCompatible s = true → Ensures E (mergeFrames m f s p) sc w Q)
    (hE : f.isCompatible s = false → ∀ fault, E (.verification p fault)) :
    Ensures E (mergeFrames m f s p) sc w Q := by
  cases hc : f.isCompatible s with
  | true => exact h hc
  | false =>
    unfold mergeFrames
    refine (ensures_liftExcept (Q := fun _ _ => False) (fun _ hok => ?_) fun e he => ?_).bind
      fun _ _ hf => hf.elim
    · unfold Frame.checkCompatible at hok
      split at hok
      · cases hok
      · next hn =>
        rw [Frame.clash?_eq_none.1 hn] at hc
        cases hc
    · obtain ⟨-, fault, rfl⟩ := Frame.checkCompatible_clash he
      exact hE hc fault

/-- One more frame arrives at a join. -/
theorem Gathered.meet (h : Gathered target fs m f w) (hne : fs ≠ []) (hg : w.graph.Orderly)
    (hdeg : (w.graph.predecessors m).length = fs.length)
    (hs : ∀ v ∈ s.values, v.node.index < w.graph.nodeCount ∧ w.graph.kind? v.node ≠ some (.phi m))
    (hE : f.isCompatible s = false → ∀ fault, E (.verification p fault)) :
    Ensures E (joinTarget target m s p) sc w fun stop w' => f.isCompatible s = true ∧ w'.graph.Orderly ∧
        (∃ f', Gathered target (fs ++ [s]) m f' w') ∧ w'.graph.kind? stop = some .endNode ∧
        w'.graph.predecessorEdges stop = [] ∧
        w'.graph.predecessors m = w.graph.predecessors m ++ [stop] ∧
        ∀ n, n ≠ m → w.graph.kindIs n NodeKind.isControl = true →
          w'.graph.kind? n = w.graph.kind? n ∧
            w'.graph.predecessorEdges n = w.graph.predecessorEdges n := by
  refine (ensures_addNode (Q := fun n w' => n = ⟨w.graph.nodeCount⟩ ∧
    w' = { w with graph := (w.graph.addNode .endNode []).2 }) ⟨rfl, rfl⟩).bind fun stop w1 h1 => ?_
  obtain ⟨hstop, rfl⟩ := h1
  have hks : (w.graph.addNode .endNode []).2.kind? stop = some .endNode := by
    rw [kind?_addNode, if_pos hstop]
  have hkm := kind?_addNode_of (k := .endNode) (I := []) h.merge
  refine (ensures_addEdge (w := { w with graph := (w.graph.addNode .endNode []).2 })
    (Q := fun _ w' => ∃ g1 x, Links _ g1 stop m _ x ∧ w' = { w with graph := g1 })
    (contains_of_kind? hks) (contains_of_kind? hkm)
    fun g' x hl => ⟨g', x, hl, rfl⟩).bind fun _ w1 h1 => ?_
  obtain ⟨g1, x, hl, rfl⟩ := h1
  have hcount : g1.nodeCount = w.graph.nodeCount + 1 := by
    rw [hl.nodeCount]
    simp
  have hnode : ∀ {n}, n ≠ stop → g1.node? n = w.graph.node? n := by
    intro n hn
    rw [hl.node?, node?_addNode, if_neg (hstop ▸ hn)]
  have hlt : ∀ {n : NodeId}, n.index < w.graph.nodeCount → n ≠ stop := by
    rintro n hn rfl
    rw [hstop] at hn
    exact Nat.lt_irrefl _ hn
  have hk1 : g1.kind? stop = some .endNode := (kind?_congr (hl.node? stop)).trans hks
  have hmlt := lt_of_kind? h.merge
  have hg0 : (w.graph.addNode .endNode []).2.Orderly := hg.addNode (by simp)
  have hg1 : g1.Orderly := by
    refine hg0.links hl ?_ ?_
    · exact kindIs_of_kind? hks
    · exact kindIs_of_kind? hkm
  have hpred : ∀ n, g1.predecessorEdges n = w.graph.predecessorEdges n ++
      if n = m then [(x, ⟨stop, m, .next, 1.0⟩)] else [] := by
    intro n
    rw [hl.predecessorEdges hg0.coherent, predecessorEdges_addNode]
  have h1 : Gathered target fs m f { w with graph := g1 } := by
    refine h.mono rfl (kind?_congr (hnode (hlt hmlt))) (by simp [hcount]) fun {n} hn => hnode ?_
    rintro rfl
    rcases hn with hn | hn
    · exact hlt (lt_of_kind? hn) rfl
    · rw [hk1] at hn
      cases hn
  have hdeg1 : g1.inDegree m - 1 = fs.length := by
    rw [inDegree, ← hg1.coherent.linked.map_predecessorEdges, hpred, ← hdeg, predecessors]
    simp
  unfold mergeInto
  refine Ensures.bind (Q := fun _ w' => f.isCompatible s = true ∧ ∃ f', w'.table =
    w.table.put target { node := m, frame := some f' } ∧ Slots g1 w'.graph m (f'.values.map (·.node)) [] ∧
    Meets g1 w'.graph m fs.length f s f') ?_ fun _ w' hw' => ensures_pure ?_
  · refine .chain (ensures_entry h1.slot ?_)
    refine .chain (ensures_demand rfl ?_)
    refine (mergeFrames_compatible (Q := fun f' w' => f.isCompatible s = true ∧ w'.table = w.table ∧
      Slots g1 w'.graph m (f'.values.map (·.node)) [] ∧ Meets g1 w'.graph m fs.length f s f')
      (fun hc => ?_) hE).bind fun f' w2 h2 => ?_
    · refine (mergeFrames_spec (fun e he => ?_) (Slots.joining hg1.coherent) (.init ?_ h1.once ?_)
        (fun _ _ => .inr trivial) fun _ _ => trivial).mono fun f' w2 h2 => ?_
      · rw [(Frame.checkCompatible_clash he).1] at hc
        cases hc
      · intro n hn
        obtain ⟨v, hv, rfl⟩ := List.mem_map.1 hn
        exact h1.known v hv
      · intro n hn
        obtain ⟨v, hv, rfl⟩ := h1.batch.others n hn
        exact List.mem_map.2 ⟨v, hv, rfl⟩
      · obtain ⟨ht, hslots, hmeet⟩ := h2
        rw [show inDegree (Work.graph { w with graph := g1 }) m - 1 = fs.length from hdeg1] at hmeet
        exact ⟨hc, ht, hslots, hmeet⟩
    · exact ensures_setEntry ⟨h2.1, f', by rw [h2.2.1], h2.2.2⟩
  · obtain ⟨hc, f', ht, hslots, hmeet⟩ := hw'
    have hkeep : ∀ {n}, g1.kind? n ≠ some (.phi m) → n.index < g1.nodeCount →
        w'.graph.kind? n = g1.kind? n := fun hn hlt => kind?_congr (hslots.kept hlt hn)
    have hmem : ∀ t ∈ fs ++ [s], ∀ v ∈ t.values, v.node.index < g1.nodeCount ∧
        g1.kind? v.node ≠ some (.phi m) := by
      intro t ht v hv
      rcases List.mem_append.1 ht with ht | ht
      · exact h1.foreign t ht v hv
      · obtain ⟨h2, h3⟩ := hs v (List.mem_singleton.1 ht ▸ hv)
        exact ⟨by omega, by rwa [kind?_congr (hnode (hlt h2))]⟩
    have hpred' : ∀ n, w'.graph.predecessorEdges n = _ := fun n =>
      (hslots.predecessorEdges n).trans (hpred n)
    refine ⟨hc, hg1.slots hslots (lt_of_kind? h1.merge), ⟨f', ⟨?_, ?_, ?_, ?_, ?_, ?_⟩⟩, ?_, ?_,
      ?_, ?_⟩
    · rw [ht, Table.slot?_put (Table.lt_of_slot? h.slot), if_pos rfl]
    · rw [hkeep (by rw [h1.merge]; simp) (lt_of_kind? h1.merge), h1.merge]
    · exact h1.batch.join hslots hmeet hc hne fun t ht v hv => (h1.foreign t ht v hv).2
    · exact fun v hv => hslots.done_lt (List.mem_map.2 ⟨v, hv, rfl⟩)
    · simpa using hslots.once
    · intro t ht v hv
      obtain ⟨h2, h3⟩ := hmem t ht v hv
      exact ⟨Nat.lt_of_lt_of_le h2 hslots.count, by rwa [hkeep h3 h2]⟩
    · rw [hkeep (by rw [hk1]; simp) (lt_of_kind? hk1), hk1]
    · rw [hpred', if_neg (hlt hmlt).symm, List.append_nil]
      exact predecessorEdges_new (by rw [hstop])
    · rw [predecessors, hpred', if_pos rfl, List.map_append]
      rfl
    · intro n hn hctrl
      obtain ⟨k, hk, hc⟩ := kindIs_iff.1 hctrl
      have hnlt := lt_of_kind? hk
      have hkn : g1.kind? n = some k := (kind?_congr (hnode (hlt hnlt))).trans hk
      rw [hpred', if_neg hn, List.append_nil, hkeep _ (by omega), hkn, hk]
      · exact ⟨rfl, rfl⟩
      · rw [hkn]
        rintro heq
        cases heq
        cases hc

end Meet

/-! ## From a begin to a merge -/

/-- One delivery has arrived, and the edges `es` lead to the begin of the block. -/
structure Alone (sc : Scope) (target : BlockId) (d : Delivery) (es : List (EdgeId × Edge))
    (start : NodeId) (w : Work) : Prop where
  slot : w.table.slot? target = some { node := start, frame := some (sc.prune d.frame target) }
  begin : w.graph.kind? start = some .begin
  edges : w.graph.predecessorEdges start = es
  known : ∀ v ∈ d.frame.values, v.node.index < w.graph.nodeCount

section Promote

variable {sc : Scope} {target : BlockId} {d : Delivery} {start stop merge : NodeId} {w w' : Work}
  {es : List (EdgeId × Edge)}

theorem Alone.apart (h : Alone sc target d es start w) (ha : Apart target w w') :
    Alone sc target d es start w' := by
  obtain ⟨hk, he⟩ := ha.near h.slot (.inl rfl)
  exact ⟨ha.slot.trans h.slot, hk.trans h.begin, he.trans h.edges,
    fun v hv => Nat.lt_of_lt_of_le (h.known v hv) ha.count⟩

theorem Alone.gathered (h : Alone sc target d es start w) (hg : w.graph.Orderly)
    (hp : Promotes w.graph w'.graph start stop merge)
    (ht : w'.table = w.table.put target { node := merge, frame := some (sc.prune d.frame target) }) :
    Gathered target [sc.prune d.frame target] merge (sc.prune d.frame target) w' := by
  have hnone : ∀ n, w'.graph.kind? n ≠ some (.phi merge) := by
    intro n hn
    have hn := hp.phi_iff.1 hn
    have h1 := hg.phi hn
    have h2 := lt_of_kind? hn
    rw [hp.mergeId] at h1
    exact absurd (Nat.lt_trans h1 h2) (Nat.lt_irrefl _)
  have hone : ∀ {strict} {o : Option Value}, United strict w'.graph merge [o] o := by
    intro strict o
    refine ⟨fun v hv => ⟨v, [], by simp [hv], by simp, rfl, .inl (by simp)⟩, fun ho x xs hx => ?_⟩
    rw [ho] at hx
    cases hx
  have hknown : ∀ v ∈ (sc.prune d.frame target).values, v.node.index < w'.graph.nodeCount := by
    intro v hv
    rw [hp.nodeCount]
    exact Nat.lt_add_right _ (h.known v (Scope.mem_values_prune hv))
  refine ⟨?_, ?_, ⟨?_, fun _ => hone, fun _ => hone, fun _ => hone, fun n hn => absurd hn (hnone n)⟩,
    hknown, ?_, ?_⟩
  · rw [ht, Table.slot?_put (Table.lt_of_slot? h.slot), if_pos rfl]
  · rw [kind?, hp.node?, if_pos rfl]
    rfl
  · intro s hs
    rw [List.mem_singleton.1 hs, Frame.isCompatible_iff]
    exact ⟨rfl, rfl⟩
  · rw [List.filter_eq_nil_iff.2 fun n _ hn => hnone n (isPhiOf_iff.1 hn)]
    exact List.nodup_nil
  · intro s hs v hv
    rw [List.mem_singleton.1 hs] at hv
    exact ⟨hknown v hv, hnone _⟩

/-- The edge of the only delivery leads to the end in front of the new merge. -/
theorem Alone.ends (h : Alone sc target d [(e, ⟨d.node, start, d.kind, d.probability⟩)] start w)
    (hg : w.graph.Orderly) (hp : Promotes w.graph w'.graph start stop merge) :
    w'.graph.Orderly ∧ w'.graph.predecessors merge = [stop] ∧ Ends w'.graph [d] [stop] := by
  have hkstart : w'.graph.kind? start = some .begin := hp.kind? h.begin
  have hlt := lt_of_kind? h.begin
  have hms := hp.merge_ne_stop
  have hne := hp.fresh hlt
  have hks : w'.graph.kind? stop = some .endNode := by
    rw [kind?, hp.node?, if_neg hms.symm, if_pos rfl]
    rfl
  have hkm : w'.graph.kind? merge = some .merge := by
    rw [kind?, hp.node?, if_pos rfl]
    rfl
  have hphi : ∀ {n m}, w'.graph.kind? n = some (.phi m) → m.index < n.index :=
    fun hn => hg.phi (hp.phi_iff.1 hn)
  obtain ⟨hm, hs, g2, x, hl, hlast⟩ := hp
  have hnode : ∀ n, w'.graph.node? n = g2.node? n := by
    rcases hlast with ⟨e0, d0, -, -, -, -, hmove⟩ | ⟨y, hlink⟩
    · exact hmove.node?
    · exact hlink.node?
  have hkind : ∀ n, w'.graph.kind? n = g2.kind? n := fun n => kind?_congr (hnode n)
  have hcontrol : ∀ {n k}, w'.graph.kind? n = some k → k.isControl = true →
      g2.kindIs n NodeKind.isControl = true :=
    fun hk hc => kindIs_iff.2 ⟨_, (hkind _).symm.trans hk, hc⟩
  have hco1 := (hg.coherent.addNode .merge []).addNode .endNode []
  have hco2 : g2.Coherent := by
    refine hco1.links hl rfl rfl ?_ ?_
    · rw [Graph.kindIs, ← kind?_congr (hl.node? _)]
      exact hcontrol hks rfl
    · rw [Graph.kindIs, ← kind?_congr (hl.node? _)]
      exact hcontrol hkm rfl
  have hpred : ∀ n, g2.predecessorEdges n = w.graph.predecessorEdges n ++
      if n = merge then [(x, ⟨stop, merge, .next, 1.0⟩)] else [] := by
    intro n
    rw [hl.predecessorEdges hco1, predecessorEdges_addNode, predecessorEdges_addNode]
  have hpm : g2.predecessorEdges merge = [(x, ⟨stop, merge, .next, 1.0⟩)] := by
    rw [hpred, if_pos rfl, predecessorEdges_new (by rw [hm]), List.nil_append]
  have hps : g2.predecessorEdges stop = [] := by
    rw [hpred, if_neg hms.symm, predecessorEdges_new (by rw [hs]; simp), List.append_nil]
  have hpb : g2.predecessorEdges start = [(e, ⟨d.node, start, d.kind, d.probability⟩)] := by
    rw [hpred, if_neg hne.1, h.edges, List.append_nil]
  rcases hlast with ⟨e0, d0, he0, ht, hin, -, hmove⟩ | ⟨y, hlink⟩
  · obtain ⟨rfl, rfl⟩ : e = e0 ∧ ⟨d.node, start, d.kind, d.probability⟩ = d0 := by
      have hmem := hco2.linked.mem_predecessorEdges.2 ⟨he0, ht⟩
      rw [hpb, List.mem_singleton] at hmem
      cases hmem
      exact ⟨rfl, rfl⟩
    refine ⟨⟨hco2.moves he0 hmove (hcontrol hks rfl), hphi⟩, ?_,
      .cons ⟨hks, stop, ⟨e, ?_⟩, .inl rfl⟩ .nil⟩
    · rw [predecessors, hmove.predecessorEdges hco2 he0 hne.1.symm, if_neg hms, hpm]
      rfl
    · rw [hmove.predecessorEdges hco2 he0 hne.2.symm, if_pos rfl]
      simp
  · refine ⟨⟨hco2.links hlink rfl rfl (hcontrol hkstart rfl) (hcontrol hks rfl), hphi⟩, ?_,
      .cons ⟨hks, start, ⟨e, ?_⟩, .inr ⟨?_, hkstart⟩⟩ .nil⟩
    · rw [predecessors, hlink.predecessorEdges hco2, if_neg hms, hpm]
      rfl
    · rw [hlink.predecessorEdges hco2, if_neg hne.2, hpb]
      simp
    · rw [predecessors, hlink.predecessorEdges hco2, if_pos rfl, hps]
      simp

end Promote

/-! ## Step by step -/

/-- Where a run stands after the deliveries. -/
inductive Stage (sc : Scope) (target : BlockId) : List Delivery → Work → Prop
  | fresh {w} : w.table.slot? target = none → target.index < w.table.entries.size → Stage sc target [] w
  | alone {d e start w} : Alone sc target d [(e, ⟨d.node, start, d.kind, d.probability⟩)] start w →
    Stage sc target [d] w
  | joined {ds m f w} : 2 ≤ ds.length → Gathered target (arrived sc target ds) m f w →
    Ends w.graph ds (w.graph.predecessors m) → Stage sc target ds w

/-- The delivery `d` has been let in through `stub`, which nothing leads to yet. -/
inductive Admitted (sc : Scope) (target : BlockId) : List Delivery → Delivery → NodeId → Work → Prop
  | first {d start w} : Alone sc target d [] start w → Admitted sc target [] d start w
  | later {ds d m f stops stub w} : ds ≠ [] → Gathered target (arrived sc target (ds ++ [d])) m f w →
    Ends w.graph ds stops → w.graph.predecessors m = stops ++ [stub] →
    w.graph.kind? stub = some .endNode → w.graph.predecessorEdges stub = [] →
    Admitted sc target ds d stub w

section Steps

variable {E : Error → Prop} {sc : Scope} {target : BlockId} {ds : List Delivery} {d : Delivery}
  {stub : NodeId} {w w' : Work}

theorem arrived_append (hds : ds ≠ []) :
    arrived sc target (ds ++ [d]) = arrived sc target ds ++ [d.frame] := by
  cases ds with
  | nil => exact absurd rfl hds
  | cons c ds => simp [arrived]

theorem length_arrived : (arrived sc target ds).length = ds.length := by
  cases ds <;> simp [arrived]

theorem compatible_arrived {f s : Frame} (h : ∀ t ∈ arrived sc target ds, t.isCompatible f = true) :
    ∀ c ∈ ds, c.frame.isCompatible s = f.isCompatible s := by
  have hsame : ∀ {t : Frame}, t.isCompatible f = true → t.isCompatible s = f.isCompatible s := by
    intro t ht
    obtain ⟨h1, h2⟩ := Frame.isCompatible_iff.1 ht
    simp only [Frame.isCompatible, Frame.monitorDepth, h1, h2]
  intro c hc
  cases ds with
  | nil => cases hc
  | cons c0 ds =>
    rcases List.mem_cons.1 hc with rfl | hc
    · have hp : (sc.prune c.frame target).isCompatible s = c.frame.isCompatible s := by
        unfold Scope.prune
        cases sc.liveness <;> rfl
      rw [← hp]
      exact hsame (h _ (by simp [arrived]))
    · exact hsame (h _ (by simp only [arrived, List.mem_cons, List.mem_map]; exact .inr ⟨c, hc, rfl⟩))

theorem Stage.apart (h : Stage sc target ds w) (ha : Apart target w w') : Stage sc target ds w' := by
  cases h with
  | fresh h1 h2 => exact .fresh (ha.slot.trans h1) (ha.size ▸ h2)
  | alone h => exact .alone (h.apart ha)
  | joined h1 h2 h3 =>
    refine .joined h1 (h2.apart ha) ?_
    rw [predecessors, (ha.near h2.slot (.inl rfl)).2]
    exact h3.apart h2 (fun _ hs => hs) ha

theorem Admitted.apart (h : Admitted sc target ds d stub w) (ha : Apart target w w') :
    Admitted sc target ds d stub w' := by
  cases h with
  | first h => exact .first (h.apart ha)
  | later h1 h2 h3 h4 h5 h6 =>
    have hpred := (ha.near h2.slot (.inl rfl)).2
    obtain ⟨hk, he⟩ := ha.near (n := stub) h2.slot (.inr ⟨by simp [h4], h5⟩)
    refine .later h1 (h2.apart ha) (h3.apart h2 (fun s hs => ?_) ha) ?_ (hk.trans h5) (he.trans h6)
    · rw [h4]
      exact List.mem_append_left _ hs
    · rw [predecessors, hpred]
      exact h4

/-- The edge that brings the delivery. -/
theorem Admitted.link (h : Admitted sc target ds d stub w) (hg : w.graph.Orderly)
    (hd : w.graph.kindIs d.node NodeKind.isControl = true)
    (hadd : addEdge d.node stub d.kind d.probability sc w = .ok () w4) :
    Stage sc target (ds ++ [d]) w4 ∧ w4.graph.Orderly := by
  have hctrl : w.graph.kindIs stub NodeKind.isControl = true := by
    cases h with
    | first h => exact kindIs_iff.2 ⟨_, h.begin, rfl⟩
    | later _ _ _ _ hk _ => exact kindIs_iff.2 ⟨_, hk, rfl⟩
  obtain ⟨g', e, hl, rfl⟩ := (ensures_addEdge (E := fun _ => False) (Q := fun _ w' => ∃ g' e,
    Links w.graph g' d.node stub ⟨d.node, stub, d.kind, d.probability⟩ e ∧
      w' = { w with graph := g' }) (contains_of_kindIs hd) (contains_of_kindIs hctrl)
    fun g' e hl => ⟨g', e, hl, rfl⟩).ok hadd
  refine ⟨?_, hg.links hl hd hctrl⟩
  have hkind : ∀ n, g'.kind? n = w.graph.kind? n := fun n => kind?_congr (hl.node? n)
  have hpred := hl.predecessorEdges hg.coherent
  have hother : ∀ {n}, n ≠ stub → g'.predecessorEdges n = w.graph.predecessorEdges n := by
    intro n hn
    rw [hpred, if_neg hn, List.append_nil]
  cases h with
  | first h =>
    refine .alone (e := e) ⟨h.slot, (hkind _).trans h.begin, ?_, ?_⟩
    · show g'.predecessorEdges stub = [(e, ⟨d.node, stub, d.kind, d.probability⟩)]
      rw [hpred, h.edges, if_pos rfl, List.nil_append]
    · intro v hv
      show _ < g'.nodeCount
      rw [hl.nodeCount]
      exact h.known v hv
  | @later _ _ m f stops _ _ hds h2 h3 h4 h5 h6 =>
    have hm : m ≠ stub := by
      rintro rfl
      rw [h2.merge] at h5
      cases h5
    have h2' : Gathered target (arrived sc target (ds ++ [d])) m f { w with graph := g' } :=
      h2.mono rfl (hkind m) (Nat.le_of_eq hl.nodeCount.symm) fun _ => hl.node? _
    refine .joined ?_ h2' ?_
    · have := List.length_pos_iff.2 hds
      simp only [List.length_append, List.length_singleton]
      omega
    · show Ends g' (ds ++ [d]) (g'.predecessors m)
      rw [predecessors, hother hm]
      rw [predecessors] at h4
      rw [h4]
      refine List.rel_append (h3.mono (fun s hs _ => ⟨hkind s, hother ?_⟩) fun n _ _ => ⟨hkind n, ?_⟩)
        (.cons ⟨?_, stub, ⟨e, ?_⟩, .inl rfl⟩ .nil)
      · rintro rfl
        exact h3.edges hs h6
      · rw [hpred]
        exact List.subset_append_left _ _
      · rw [hkind, h5]
      · rw [hpred, if_pos rfl]
        simp

/-- A delivery is let in iff its frame is compatible with those before it. -/
theorem Stage.receive (h : Stage sc target ds w) (hg : w.graph.Orderly) (hd : d.Foreign target w)
    (hhead : (sc.blocks.block target).isLoopHeader = false)
    (hE : (∃ c ∈ ds, c.frame.isCompatible d.frame = false) →
      ∀ fault, E (.verification d.position fault)) :
    Ensures E (createTarget d.source target d.frame d.position) sc w fun stub w' =>
      (∀ c ∈ ds, c.frame.isCompatible d.frame = true) ∧ w'.graph.Orderly ∧
        Admitted sc target ds d stub w' := by
  unfold createTarget
  refine ensures_read_bind ?_
  rw [if_neg (by simp [hhead])]
  refine ensures_get_bind (ensures_pure_bind ?_)
  -- At a merge, the frames meet behind a new end.
  have hmeet : ∀ {w1 m f}, ds ≠ [] → Gathered target (arrived sc target ds) m f w1 →
      w1.graph.Orderly → Ends w1.graph ds (w1.graph.predecessors m) →
      (∀ v ∈ d.frame.values, v.node.index < w1.graph.nodeCount ∧
        w1.graph.kind? v.node ≠ some (.phi m)) →
      Ensures E (joinTarget target m d.frame d.position) sc w1 fun stub w' =>
        (∀ c ∈ ds, c.frame.isCompatible d.frame = true) ∧ w'.graph.Orderly ∧
          Admitted sc target ds d stub w' := by
    intro w1 m f hds h1 hg1 hends hfor
    have hall := compatible_arrived (s := d.frame) h1.batch.shape
    obtain ⟨c0, hc0⟩ := List.exists_mem_of_ne_nil ds hds
    refine (h1.meet (s := d.frame) ?_ hg1 ?_ hfor fun hf => hE ⟨c0, hc0, (hall c0 hc0).trans hf⟩).mono
      fun stop w' h' => ?_
    · exact List.length_pos_iff.1 (length_arrived ▸ List.length_pos_iff.2 hds)
    · rw [length_arrived, hends.length_eq]
    · obtain ⟨hc, hg', ⟨f', hg2⟩, hk, hp, hm, hsame⟩ := h'
      refine ⟨fun c hcs => (hall c hcs).trans hc, hg', .later hds (arrived_append hds ▸ hg2) ?_ hm hk hp⟩
      have hkept : ∀ {n k}, w1.graph.kind? n = some k → k ≠ .merge → k.isControl = true →
          w'.graph.kind? n = w1.graph.kind? n ∧
            w'.graph.predecessorEdges n = w1.graph.predecessorEdges n := by
        intro n k hn hne hctrl
        refine hsame n ?_ (kindIs_iff.2 ⟨k, hn, hctrl⟩)
        rintro rfl
        exact hne (Option.some.inj (hn.symm.trans h1.merge))
      refine hends.mono (fun s _ hs => hkept hs (by simp) rfl) fun n hn _ => ?_
      obtain ⟨hk, he⟩ := hkept hn (by simp) rfl
      exact ⟨hk, he ▸ List.Subset.refl _⟩
  cases h with
  | fresh hs hlt =>
    rw [show (w.table.entries[target.index]?).join = none from hs]
    refine (ensures_addNode (Q := fun n w' => n = ⟨w.graph.nodeCount⟩ ∧
      w' = { w with graph := (w.graph.addNode .begin []).2 }) ⟨rfl, rfl⟩).bind fun n w1 h1 => ?_
    obtain ⟨rfl, rfl⟩ := h1
    refine .chain (ensures_setEntry (ensures_pure ?_))
    refine ⟨by simp, hg.addNode (by simp), .first ⟨?_, ?_, ?_, ?_⟩⟩
    · exact (Table.slot?_put hlt).trans (if_pos rfl)
    · exact (kind?_addNode).trans (if_pos rfl)
    · exact predecessorEdges_addNode.trans (predecessorEdges_new (Nat.le_refl _))
    · intro v hv
      show _ < (w.graph.addNode .begin []).2.nodeCount
      rw [nodeCount_addNode]
      exact Nat.lt_succ_of_lt (hd v hv).1
  | @alone c e start _ h =>
    rw [show (w.table.entries[target.index]?).join = some _ from h.slot]
    dsimp only
    rw [if_neg (by simp)]
    unfold kindIs
    refine ensures_get_bind ?_
    rw [kindIs_of_kind? h.begin, if_pos (by rfl)]
    refine (promote_promotes hg.coherent h.slot h.begin).bind fun merge w1 h1 => ?_
    obtain ⟨ht, stop, hp⟩ := h1
    obtain ⟨hg1, hpred, hends⟩ := h.ends hg hp
    have hgath := h.gathered hg hp ht
    refine hmeet (by simp) hgath hg1 (hpred ▸ hends) fun v hv => ⟨?_, fun hk => ?_⟩
    · rw [hp.nodeCount]
      exact Nat.lt_add_right _ (hd v hv).1
    · obtain ⟨u, hu, hnode⟩ := hgath.batch.others _ hk
      exact (hgath.foreign _ (by simp) u hu).2 (hnode ▸ hk)
  | joined hlen h hends =>
    rw [show (w.table.entries[target.index]?).join = some _ from h.slot]
    dsimp only
    rw [if_neg (by simp)]
    unfold kindIs
    refine ensures_get_bind ?_
    rw [kindIs_of_kind? h.merge, if_neg (by decide)]
    refine ensures_pure_bind (hmeet ?_ h hg hends fun v hv => ⟨(hd v hv).1, fun hk => ?_⟩)
    · rintro rfl
      simp at hlen
    · have := (hd v hv).2 _ h.slot
      rw [isPhiOf_iff.2 hk] at this
      cases this

end Steps

theorem Gathers.stage {sc : Scope} {target : BlockId} {ds : List Delivery} {w w' : Work}
    (h : Gathers sc target w ds w') (hhead : (sc.blocks.block target).isLoopHeader = false)
    (hlt : target.index < w.table.entries.size) (hslot : w.table.slot? target = none)
    (hg : w.graph.Orderly) : Stage sc target ds w' ∧ w'.graph.Orderly := by
  induction h with
  | start => exact ⟨.fresh hslot hlt, hg⟩
  | next _ ha hd hin ha' hctrl hadd ih =>
    obtain ⟨hstage, hg0⟩ := ih
    obtain ⟨-, hg2, hrec⟩ := ((hstage.apart ha).receive (E := fun _ => True) (ha.orderly hg0) hd hhead
      fun _ _ => trivial).ok hin
    exact (hrec.apart ha').link (ha'.orderly hg2) hctrl hadd

/-- Frames that come into a block one by one are joined as if they came at once; the next one is let
in iff it is compatible with them. -/
theorem gathers_batch {sc : Scope} {target : BlockId} {ds : List Delivery} {w w' : Work}
    (hhead : (sc.blocks.block target).isLoopHeader = false)
    (hlt : target.index < w.table.entries.size) (hslot : w.table.slot? target = none)
    (hg : w.graph.Orderly) (h : Gathers sc target w ds w') :
    (2 ≤ ds.length → ∃ m f, w'.table.slot? target = some { node := m, frame := some f } ∧
      w'.graph.kind? m = some .merge ∧ Ends w'.graph ds (w'.graph.predecessors m) ∧
      Batch w'.graph m (arrived sc target ds) f) ∧
    ∀ (d : Delivery) w1, Apart target w' w1 → d.Foreign target w1 →
      ((∀ c ∈ ds, c.frame.isCompatible d.frame = true) → ∃ stub w2,
        createTarget d.source target d.frame d.position sc w1 = .ok stub w2 ∧
          w2.graph.contains stub = true) ∧
      ((∃ c ∈ ds, c.frame.isCompatible d.frame = false) → ∃ fault w2,
        createTarget d.source target d.frame d.position sc w1 =
          .error (.verification d.position fault) w2) := by
  obtain ⟨hstage, hg'⟩ := h.stage hhead hlt hslot hg
  refine ⟨fun hlen => ?_, fun d w1 ha hd => ?_⟩
  · cases hstage with
    | fresh => simp at hlen
    | alone => simp at hlen
    | joined _ hgath hends => exact ⟨_, _, hgath.slot, hgath.merge, hends, hgath.batch⟩
  · have hrec := (hstage.apart ha).receive (E :=
      fun e => (∃ c ∈ ds, c.frame.isCompatible d.frame = false) ∧
      ∃ fault, e = .verification d.position fault) (ha.orderly hg') hd hhead fun hc fault =>
      ⟨hc, fault, rfl⟩
    cases hin : createTarget d.source target d.frame d.position sc w1 with
    | ok stub w2 =>
      obtain ⟨hall, -, hrec⟩ := hrec.ok hin
      refine ⟨fun _ => ⟨stub, w2, rfl, ?_⟩, ?_⟩
      · cases hrec with
        | first h => exact contains_of_kind? h.begin
        | later _ _ _ _ hk _ => exact contains_of_kind? hk
      · rintro ⟨c, hc, hf⟩
        rw [hall c hc] at hf
        cases hf
    | error e w2 =>
      obtain ⟨⟨c, hc, hf⟩, fault, rfl⟩ := hrec.error hin
      refine ⟨fun hall => ?_, fun _ => ⟨fault, w2, rfl⟩⟩
      rw [hall c hc] at hf
      cases hf

/-- A delivery that nothing comes in between of. -/
def Delivery.send? (sc : Scope) (target : BlockId) (w : Work) (d : Delivery) : Option Work :=
  if d.Foreign target w then
    match createTarget d.source target d.frame d.position sc w with
    | .ok stub w2 =>
      if w2.graph.kindIs d.node NodeKind.isControl then
        match addEdge d.node stub d.kind d.probability sc w2 with
        | .ok _ w4 => some w4
        | .error .. => none
      else none
    | .error .. => none
  else none

theorem Gathers.send {sc : Scope} {target : BlockId} {d : Delivery} {ds : List Delivery} {w w0 : Work}
    (h : Gathers sc target w ds w0) (hd : d.send? sc target w0 = some w4) :
    Gathers sc target w (ds ++ [d]) w4 := by
  have hrefl : ∀ w, Apart target w w := fun w =>
    ⟨id, Nat.le_refl _, rfl, rfl, fun _ _ => ⟨rfl, rfl⟩, fun _ _ => ⟨rfl, fun _ h => h⟩, fun _ _ => rfl⟩
  unfold Delivery.send? at hd
  split at hd
  · next hf =>
    split at hd
    · next stub w2 hin =>
      split at hd
      · next hc =>
        split at hd
        · next hadd =>
          cases hd
          exact h.next (hrefl _) hf hin (hrefl _) hc hadd
        · cases hd
      · cases hd
    · cases hd
  · cases hd

/-- Three begins, and two values to bring along. -/
def threeWays : Work where
  graph := [.begin, .begin, .begin, .constant 1, .constant 2].foldl (fun g k => (g.addNode k []).2) {}
  table := Table.blank 1

def delivery (node value : Nat) : Delivery :=
  ⟨⟨0⟩, { stack := [.int ⟨value⟩] }, ⟨0⟩, ⟨node⟩, .next, 1.0⟩

theorem gathers_batch_threeWays : ∃ w' m f,
    Gathers default ⟨0⟩ threeWays [delivery 0 3, delivery 1 3, delivery 2 4] w' ∧
      w'.table.slot? ⟨0⟩ = some { node := m, frame := some f } ∧
      Batch w'.graph m [{ stack := [.int ⟨3⟩] }, { stack := [.int ⟨3⟩] }, { stack := [.int ⟨4⟩] }] f := by
  have hrun : ([delivery 0 3, delivery 1 3, delivery 2 4].foldlM (Delivery.send? default ⟨0⟩)
    threeWays).isSome = true := by decide +kernel
  obtain ⟨w', hw'⟩ := Option.isSome_iff_exists.1 hrun
  simp only [List.foldlM_cons, List.foldlM_nil, Option.bind_eq_bind, Option.bind_eq_some_iff] at hw'
  obtain ⟨w1, h1, w2, h2, w3, h3, heq⟩ := hw'
  cases heq
  have h0 : ({} : Graph).Orderly := by
    refine ⟨⟨?_, ?_, ?_, ?_, ?_, ?_⟩, ?_⟩ <;>
      simp [outgoing, incoming, edge?, kind?, node?]
  have hg : threeWays.graph.Orderly :=
    ((((h0.addNode (by simp)).addNode (by simp)).addNode (by simp)).addNode (by simp)).addNode (by simp)
  have hall := ((Gathers.start.send h1).send h2).send h3
  obtain ⟨m, f, hslot, -, -, hb⟩ := (gathers_batch (by decide) (by decide) (by decide) hg hall).1
    (by decide)
  exact ⟨w', m, f, hall, hslot, hb⟩

end StackLift
