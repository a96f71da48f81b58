import Mathlib.Data.List.Forall2
import StackLift.Proofs.Removal
import StackLift.Proofs.Sound

/-!
# Two graphs side by side

Two builds of one method that differ in the locals they keep make two graphs. The full graph has
every node of the pruned one, and beside them ghosts: phis and proxies of locals that nobody reads.
`Pairing` is what is known of the two at some moment. It only grows: `P.Le Q` says that everything
known in `P` is known in `Q`, and whatever is said about frames, snapshots or kinds in terms of `P`
can be said in terms of `Q`.

`P.Twins g h` says that a pairing is right about the full graph `g` and the pruned graph `h`. Twins
have the same kind, the same inputs and the same edges, up to the names of the nodes; control nodes
come in the same order; and every node of the pruned graph has a twin. One lemma for each operation
says that twins stay twins: where both graphs do the same, and where the full one deals with a ghost.
-/
namespace StackLift

open Graph

/-! ## Kinds up to names -/

/-- The node that a kind names. -/
def NodeKind.anchor? : NodeKind → Option NodeId
  | .loopEnd n | .loopExit n | .phi n | .proxy n => some n
  | _ => none

/-- Kinds that differ only in the name of a node. -/
inductive NodeKind.Twin (R : NodeId → NodeId → Prop) : NodeKind → NodeKind → Prop where
  | loopEnd {a b : NodeId} (h : R a b) : Twin R (.loopEnd a) (.loopEnd b)
  | loopExit {a b : NodeId} (h : R a b) : Twin R (.loopExit a) (.loopExit b)
  | phi {a b : NodeId} (h : R a b) : Twin R (.phi a) (.phi b)
  | proxy {a b : NodeId} (h : R a b) : Twin R (.proxy a) (.proxy b)
  | same {k : NodeKind} (h : k.anchor? = none) : Twin R k k

namespace NodeKind.Twin

variable {R S : NodeId → NodeId → Prop} {k k' : NodeKind}

section

variable (h : Twin R k k')
include h

theorem mono (hR : ∀ a b, R a b → S a b) : Twin S k k' := by
  cases h with
  | loopEnd h => exact .loopEnd (hR _ _ h)
  | loopExit h => exact .loopExit (hR _ _ h)
  | phi h => exact .phi (hR _ _ h)
  | proxy h => exact .proxy (hR _ _ h)
  | same h => exact .same h

theorem isControl : k.isControl = k'.isControl := by
  cases h <;> rfl

theorem isMerge : k.isMerge = k'.isMerge := by
  cases h <;> rfl

theorem isBeginLike : k.isBeginLike = k'.isBeginLike := by
  cases h <;> rfl

theorem isControlSplit : k.isControlSplit = k'.isControlSplit := by
  cases h <;> rfl

theorem isCarrier : k.isCarrier = k'.isCarrier := by
  cases h <;> rfl

theorem isUniversal : k.isUniversal = k'.isUniversal := by
  cases h <;> rfl

theorem eq_begin : (k == .begin) = (k' == .begin) := by
  cases h with
  | same h => rfl
  | _ => rfl

end

end NodeKind.Twin

variable {α β : Type} {R : α → β → Prop} {a : Option α} {b : Option β} {l : List α} {l' : List β}

theorem optionRel_cases (h : Option.Rel R a b) :
    (a = none ∧ b = none) ∨ ∃ x y, a = some x ∧ b = some y ∧ R x y := by
  cases h with
  | none => exact .inl ⟨rfl, rfl⟩
  | some h => exact .inr ⟨_, _, rfl, rfl, h⟩

theorem optionRel_any {p : α → Bool}
    {q : β → Bool} (h : Option.Rel R a b) (hp : ∀ a b, R a b → p a = q b) : a.any p = b.any q := by
  cases h with
  | some h => exact hp _ _ h
  | none => rfl

theorem exists_of_forall₂_left {a : α}
    (h : List.Forall₂ R l l') (ha : a ∈ l) : ∃ b ∈ l', R a b := by
  induction h with
  | nil => cases ha
  | cons h _ ih =>
    rcases List.mem_cons.1 ha with rfl | ha
    · exact ⟨_, by simp, h⟩
    · obtain ⟨b, hb, hab⟩ := ih ha
      exact ⟨b, by simp [hb], hab⟩

theorem exists_of_forall₂_right {b : β} (h : List.Forall₂ R l l') (hb : b ∈ l') : ∃ a ∈ l, R a b :=
  exists_of_forall₂_left (R := fun b a => R a b) h.flip hb

/-! ## Pairings -/

/-- What is known of a full graph and of a pruned one. -/
structure Pairing where
  twin : NodeId → NodeId → Prop      -- a node of the full graph, a node of the pruned one
  control : NodeId → NodeId → Prop   -- twins that edges may touch
  ghost : NodeId → Prop              -- a phi of the full graph that never gets a twin
  data : NodeId → Prop               -- a node of the full graph that edges never touch
  apart : NodeId → NodeId → Prop     -- in the full graph, the first is not a phi of the second
  reached : NodeId → Prop            -- may have phis in the full graph
  cut : Nat → Nat → Prop             -- the numbers of handles at one moment
  count : Nat                        -- so many handles of the full graph are in use

namespace Pairing

/-- Everything that is known in `P` is known in `Q`. -/
structure Le (P Q : Pairing) : Prop where
  twin : ∀ {n m}, P.twin n m → Q.twin n m
  control : ∀ {n m}, P.control n m → Q.control n m
  ghost : ∀ {n}, P.ghost n → Q.ghost n
  data : ∀ {n}, P.data n → Q.data n
  apart : ∀ {n x}, P.apart n x → Q.apart n x
  reached : ∀ {x}, P.reached x → Q.reached x
  cut : ∀ {a b}, P.cut a b → Q.cut a b
  count : P.count ≤ Q.count

variable {P Q S : Pairing}

theorem Le.refl (P : Pairing) : P.Le P := ⟨id, id, id, id, id, id, id, Nat.le_refl _⟩

theorem Le.trans (h : P.Le Q) (h' : Q.Le S) : P.Le S :=
  ⟨h'.twin ∘ h.twin, h'.control ∘ h.control, h'.ghost ∘ h.ghost, h'.data ∘ h.data, h'.apart ∘ h.apart,
    h'.reached ∘ h.reached, h'.cut ∘ h.cut, Nat.le_trans h.count h'.count⟩

/-! ## Frames and snapshots -/

/-- The same value in both builds. -/
structure SameValue (P : Pairing) (v v' : Value) : Prop where
  node : P.twin v.node v'.node
  kind : v.kind = v'.kind

/-- A local of both builds; the pruned one may have dropped it. -/
inductive SameLocal (P : Pairing) : Option Value → Option Value → Prop where
  | both {v v' : Value} (h : P.SameValue v v') : SameLocal P (some v) (some v')
  | lost {v : Value} (h : v.node.index < P.count) : SameLocal P (some v) none
  | none : SameLocal P none none

/-- The same frame in both builds, up to locals that the pruned one has dropped. -/
structure SameFrame (P : Pairing) (f k : Frame) : Prop where
  locals : List.Forall₂ P.SameLocal f.locals k.locals
  stack : List.Forall₂ P.SameValue f.stack k.stack
  monitors : List.Forall₂ P.SameValue f.monitors k.monitors

structure SameActivation (P : Pairing) (a b : Activation) : Prop where
  method : a.method = b.method
  position : a.position = b.position
  frame : P.SameFrame a.frame b.frame

structure SameSnapshot (P : Pairing) (s t : Snapshot) : Prop where
  inner : P.SameActivation s.inner t.inner
  callers : List.Forall₂ P.SameActivation s.callers t.callers

theorem SameValue.object {n m : NodeId} (h : P.twin n m) : P.SameValue (.object n) (.object m) := ⟨h, rfl⟩

theorem SameValue.mono {v v' : Value} (h : P.SameValue v v') (hle : P.Le Q) : Q.SameValue v v' :=
  ⟨hle.twin h.node, h.kind⟩

theorem SameLocal.mono {v v' : Option Value} (h : P.SameLocal v v') (hle : P.Le Q) :
    Q.SameLocal v v' := by
  cases h with
  | both h => exact .both (h.mono hle)
  | lost h => exact .lost (Nat.lt_of_lt_of_le h hle.count)
  | none => exact .none

theorem SameFrame.mono {f k : Frame} (h : P.SameFrame f k) (hle : P.Le Q) : Q.SameFrame f k :=
  ⟨h.locals.imp fun _ _ h => h.mono hle, h.stack.imp fun _ _ h => h.mono hle,
    h.monitors.imp fun _ _ h => h.mono hle⟩

theorem SameActivation.mono {a b : Activation} (h : P.SameActivation a b) (hle : P.Le Q) :
    Q.SameActivation a b := ⟨h.method, h.position, h.frame.mono hle⟩

theorem SameSnapshot.mono {s t : Snapshot} (h : P.SameSnapshot s t) (hle : P.Le Q) : Q.SameSnapshot s t :=
  ⟨h.inner.mono hle, h.callers.imp fun _ _ h => h.mono hle⟩

/-! ## Nodes and edges -/

/-- The same node in both graphs. -/
structure SameNode (P : Pairing) (x y : Node) : Prop where
  kind : x.kind.Twin P.twin y.kind
  inputs : List.Forall₂ P.twin x.inputs y.inputs
  snapshot : Option.Rel P.SameSnapshot x.snapshot y.snapshot

structure SameEdge (P : Pairing) (d d' : Edge) : Prop where
  source : P.control d.source d'.source
  target : P.control d.target d'.target
  kind : d.kind = d'.kind
  probability : d.probability = d'.probability

theorem SameNode.mono {x y : Node} (h : P.SameNode x y) (hle : P.Le Q) : Q.SameNode x y :=
  ⟨h.kind.mono fun _ _ h => hle.twin h, h.inputs.imp fun _ _ h => hle.twin h,
    optionRel_imp h.snapshot fun _ _ h => h.mono hle⟩

theorem SameEdge.mono {d d' : Edge} (h : P.SameEdge d d') (hle : P.Le Q) : Q.SameEdge d d' :=
  ⟨hle.control h.source, hle.control h.target, h.kind, h.probability⟩

/-! ## Pairings that are right -/

/-- The pairing is about graphs with `c` and `d` handles, and does not contradict itself. -/
structure Sane (P : Pairing) (c d : Nat) : Prop where
  unique : ∀ {n m m'}, P.twin n m → P.twin n m' → m = m'
  same : ∀ {n n' m}, P.twin n m → P.twin n' m → n = n'
  lt : ∀ {n m}, P.twin n m → n.index < c ∧ m.index < d
  total : ∀ {m : NodeId}, m.index < d → ∃ n, P.twin n m
  twin : ∀ {n m}, P.control n m → P.twin n m
  order : ∀ {n m n' m'}, P.control n m → P.control n' m' → (n.index < n'.index ↔ m.index < m'.index)
  ghost : ∀ {n}, P.ghost n → n.index < c ∧ ∀ m, ¬ P.twin n m
  data : ∀ {n}, P.data n → n.index < c ∧ ∀ m, ¬ P.control n m
  apart : ∀ {n x}, P.apart n x → n.index < c
  reached : ∀ {x}, P.reached x → x.index < c
  cut : ∀ {a b}, P.cut a b → a ≤ c ∧ b ≤ d ∧ ∀ {n m}, P.twin n m → (a ≤ n.index ↔ b ≤ m.index)
  count : P.count = c

/-- The pairing is right about the nodes. -/
structure Nodes (P : Pairing) (g h : Graph) : Prop where
  node : ∀ {n m}, P.twin n m → Option.Rel P.SameNode (g.node? n) (h.node? m)
  control : ∀ {n}, g.kindIs n NodeKind.isControl = true → ∃ m, P.control n m
  data : ∀ {n k}, g.kind? n = some k → k.isControl = false → P.data n
  apart : ∀ {n x}, P.apart n x → g.kind? n ≠ some (.phi x)
  reached : ∀ {n x}, g.kind? n = some (.phi x) → P.reached x

/-- The pairing is right about the edges. -/
structure Wires (P : Pairing) (g h : Graph) : Prop where
  outgoing : ∀ {n m}, P.control n m → g.outgoing n = h.outgoing m
  incoming : ∀ {n m}, P.control n m → g.incoming n = h.incoming m
  idle : ∀ {n}, (∀ m, ¬ P.control n m) → g.outgoing n = [] ∧ g.incoming n = []
  idle' : ∀ {m}, (∀ n, ¬ P.control n m) → h.outgoing m = [] ∧ h.incoming m = []
  edge : ∀ e, Option.Rel P.SameEdge (g.edge? e) (h.edge? e)
  size : g.edges.size = h.edges.size
  start : Option.Rel P.control g.start h.start

/-- The pairing is right about the full graph `g` and the pruned graph `h`. -/
structure Twins (P : Pairing) (g h : Graph) : Prop where
  sane : P.Sane g.nodeCount h.nodeCount
  nodes : P.Nodes g h
  wires : P.Wires g h
  counted : g.Counted
  counted' : h.Counted

/-! ## Looking at twins -/

section Looks

variable {g h g' h' : Graph} {n m n' m' : NodeId} {c d : Nat}

theorem Sane.eq_iff (hs : P.Sane c d) (h : P.twin n m) (h' : P.twin n' m') : n = n' ↔ m = m' := by
  constructor
  · rintro rfl
    exact hs.unique h h'
  · rintro rfl
    exact hs.same h h'

theorem Sane.control_iff (hs : P.Sane c d) (h : P.control n m) (h' : P.control n' m') :
    n = n' ↔ m = m' := hs.eq_iff (hs.twin h) (hs.twin h')

theorem Twins.kind (ht : P.Twins g h) (hn : P.twin n m) :
    Option.Rel (NodeKind.Twin P.twin) (g.kind? n) (h.kind? m) :=
  optionRel_map (ht.nodes.node hn) fun _ _ h => h.kind

theorem Twins.contains (ht : P.Twins g h) (hn : P.twin n m) : g.contains n = h.contains m :=
  optionRel_isSome (ht.nodes.node hn)

theorem Twins.kindIs (ht : P.Twins g h) (hn : P.twin n m) {p : NodeKind → Bool}
    (hp : ∀ {k k' : NodeKind}, k.Twin P.twin k' → p k = p k') : g.kindIs n p = h.kindIs m p :=
  optionRel_any (ht.kind hn) fun _ _ h => hp h

theorem Twins.control' (ht : P.Twins g h) (hm : h.kindIs m NodeKind.isControl = true) :
    ∃ n, P.control n m := by
  obtain ⟨n, hn⟩ := ht.sane.total (lt_of_kindIs hm)
  rw [← ht.kindIs hn NodeKind.Twin.isControl] at hm
  obtain ⟨m', hc⟩ := ht.nodes.control hm
  exact ⟨n, ht.sane.unique hn (ht.sane.twin hc) ▸ hc⟩

theorem Wires.edges (hw : P.Wires g h) (es : List EdgeId) :
    List.Forall₂ (fun a b => a.1 = b.1 ∧ P.SameEdge a.2 b.2)
      (es.filterMap fun e => (g.edge? e).map fun d => (e, d))
      (es.filterMap fun e => (h.edge? e).map fun d => (e, d)) := by
  induction es with
  | nil => exact .nil
  | cons e es ih =>
    have hee := hw.edge e
    rw [List.filterMap_cons, List.filterMap_cons]
    generalize g.edge? e = a at hee
    generalize h.edge? e = b at hee
    cases hee with
    | none => exact ih
    | some hd => exact .cons ⟨rfl, hd⟩ ih

theorem Twins.predecessorEdges (ht : P.Twins g h) (hn : P.control n m) :
    List.Forall₂ (fun a b => a.1 = b.1 ∧ P.SameEdge a.2 b.2) (g.predecessorEdges n)
    (h.predecessorEdges m) := by
  unfold Graph.predecessorEdges
  rw [ht.wires.incoming hn]
  exact ht.wires.edges _

theorem Twins.live_le (ht : P.Twins g h) : h.live ≤ g.live := by
  rw [ht.counted, ht.counted']
  have hex : ∀ i ∈ h.places, ∃ n : NodeId, P.twin n ⟨i⟩ ∧ n.index ∈ g.places := by
    intro i hi
    have hi' : h.contains ⟨i⟩ = true := mem_places.1 hi
    obtain ⟨x, hx⟩ := Option.isSome_iff_exists.1 hi'
    obtain ⟨n, hn⟩ := ht.sane.total (m := ⟨i⟩) (lt_nodeCount hx)
    exact ⟨n, hn, mem_places.2 ((ht.contains hn).trans hi')⟩
  choose! f hf using hex
  refine Finset.card_le_card_of_injOn (fun i => (f i).index) (fun i hi => (hf i hi).2) ?_
  intro i hi j hj hij
  have hfij : f i = f j := NodeId.index_inj.1 hij
  exact congrArg NodeId.index (ht.sane.unique (hfij ▸ (hf i hi).1) (hf j hj).1)

theorem Nodes.of_nodes (hn : P.Nodes g h) (hkind : ∀ n k, g'.kind? n = some k → g.kind? n = some k)
    (hnode : ∀ {n m}, P.twin n m → Option.Rel P.SameNode (g'.node? n) (h'.node? m)) : P.Nodes g' h' := by
  refine ⟨hnode, fun {n} hc => hn.control ?_, fun hk => hn.data (hkind _ _ hk),
    fun ha hk => hn.apart ha (hkind _ _ hk), fun hk => hn.reached (hkind _ _ hk)⟩
  obtain ⟨k, hk, hk'⟩ := kindIs_iff.1 hc
  exact kindIs_iff.2 ⟨k, hkind _ _ hk, hk'⟩

theorem Nodes.of_same (hn : P.Nodes g h) (hg : ∀ n, g'.node? n = g.node? n)
    (hh : ∀ n, h'.node? n = h.node? n) : P.Nodes g' h' := by
  refine hn.of_nodes (fun n k hk => ?_) fun {n m} ht => ?_
  · rwa [kind?_congr (hg n)] at hk
  · rw [hg, hh]
    exact hn.node ht

theorem Wires.extend (hw : P.Wires g h) (hg : SameWires g g') (hh : SameWires h h') (hle : P.Le Q)
    (hnew : ∀ {n m}, Q.control n m → P.control n m ∨ ((∀ m, ¬ P.control n m) ∧ ∀ n, ¬ P.control n m)) :
    Q.Wires g' h' := by
  refine ⟨fun {n m} hc => ?_, fun {n m} hc => ?_, fun {n} hn => ?_, fun {m} hm => ?_, fun e => ?_, ?_, ?_⟩
  · rw [hg.outgoing, hh.outgoing]
    rcases hnew hc with hc | ⟨hn, hm⟩
    · exact hw.outgoing hc
    · rw [(hw.idle hn).1, (hw.idle' hm).1]
  · rw [hg.incoming, hh.incoming]
    rcases hnew hc with hc | ⟨hn, hm⟩
    · exact hw.incoming hc
    · rw [(hw.idle hn).2, (hw.idle' hm).2]
  · rw [hg.outgoing, hg.incoming]
    exact hw.idle fun m hc => hn m (hle.control hc)
  · rw [hh.outgoing, hh.incoming]
    exact hw.idle' fun n hc => hm n (hle.control hc)
  · rw [hg.edge?, hh.edge?]
    exact optionRel_imp (hw.edge e) fun _ _ h => h.mono hle
  · rw [hg.size, hh.size, hw.size]
  · rw [hg.start, hh.start]
    exact optionRel_imp hw.start fun _ _ h => hle.control h

theorem Wires.of_same (hw : P.Wires g h) (hg : SameWires g g') (hh : SameWires h h') : P.Wires g' h' :=
  hw.extend hg hh (.refl P) .inl

end Looks

/-! ## New nodes -/

section New

variable {g h : Graph} {n m : NodeId} {k k' : NodeKind} {I I' : List NodeId}
variable {c d c' : Nat}

/-- `n` and `m` are twins from now on. -/
def pair (P : Pairing) (n m : NodeId) (c : Bool) : Pairing :=
  { P with
    twin := fun a b => P.twin a b ∨ (a = n ∧ b = m)
    control := fun a b => P.control a b ∨ (c = true ∧ a = n ∧ b = m)
    data := fun a => P.data a ∨ (c = false ∧ a = n)
    count := max P.count (n.index + 1) }

theorem le_pair (P : Pairing) (n m : NodeId) (c : Bool) : P.Le (P.pair n m c) :=
  ⟨.inl, .inl, id, .inl, id, id, id, Nat.le_max_left _ _⟩

theorem twin_pair (P : Pairing) (n m : NodeId) (c : Bool) : (P.pair n m c).twin n m := .inr ⟨rfl, rfl⟩

theorem control_pair (P : Pairing) (n m : NodeId) : (P.pair n m true).control n m := .inr ⟨rfl, rfl, rfl⟩

/-- The full graph has a node `n` of its own; if `c`, it never gets a twin. -/
def lone (P : Pairing) (n : NodeId) (c : Bool) : Pairing :=
  { P with
    ghost := fun a => P.ghost a ∨ (c = true ∧ a = n)
    data := fun a => P.data a ∨ a = n
    count := max P.count (n.index + 1) }

theorem le_lone (P : Pairing) (n : NodeId) (c : Bool) : P.Le (P.lone n c) :=
  ⟨id, id, .inl, .inl, id, id, id, Nat.le_max_left _ _⟩

/-- The numbers of handles as they are now. -/
def mark (P : Pairing) (c d : Nat) : Pairing :=
  { P with cut := fun a b => P.cut a b ∨ (a = c ∧ b = d) }

theorem le_mark (P : Pairing) (c d : Nat) : P.Le (P.mark c d) :=
  ⟨id, id, id, id, id, id, .inl, Nat.le_refl _⟩

/-- A node of the full graph gets a twin, at once or later on. -/
theorem Sane.pair {b : Bool} (hs : P.Sane c d) (htwin : ∀ m, ¬ P.twin n m) (hghost : ¬ P.ghost n)
    (hcut : ∀ a b, P.cut a b → a ≤ n.index) (hb : b = true → c ≤ n.index)
      (hc : max c (n.index + 1) = c') :
    (P.pair n ⟨d⟩ b).Sane c' (d + 1) := by
  refine ⟨?_, ?_, ?_, ?_, ?_, ?_, ?_, ?_, fun ha => ?_, fun hx => ?_, ?_, ?_⟩
  · rintro a m m' (h | ⟨rfl, rfl⟩) (h' | ⟨he, rfl⟩)
    · exact hs.unique h h'
    · subst he
      exact absurd h (htwin _)
    · exact absurd h' (htwin _)
    · rfl
  · rintro a a' m (h | ⟨rfl, rfl⟩) (h' | ⟨rfl, he⟩)
    · exact hs.same h h'
    · subst he
      exact absurd (hs.lt h).2 (Nat.lt_irrefl _)
    · exact absurd (hs.lt h').2 (Nat.lt_irrefl _)
    · rfl
  · rintro a m (h | ⟨rfl, rfl⟩)
    · have := hs.lt h
      omega
    · exact ⟨by omega, Nat.lt_succ_self _⟩
  · intro m hm
    by_cases h : m.index < d
    · obtain ⟨a, ha⟩ := hs.total h
      exact ⟨a, .inl ha⟩
    · exact ⟨n, .inr ⟨rfl, NodeId.index_inj.1 (show m.index = d by omega)⟩⟩
  · rintro a m (h | ⟨-, rfl, rfl⟩)
    · exact .inl (hs.twin h)
    · exact twin_pair P _ _ _
  · rintro a m a' m' (h | ⟨hb', rfl, rfl⟩) (h' | ⟨hb', rfl, rfl⟩)
    · exact hs.order h h'
    · have := hs.lt (hs.twin h)
      have := hb hb'
      simp only
      omega
    · have := hs.lt (hs.twin h')
      have := hb hb'
      simp only
      omega
    · simp
  · intro a ha
    obtain ⟨h1, h2⟩ := hs.ghost ha
    refine ⟨by omega, ?_⟩
    rintro m (h | ⟨rfl, rfl⟩)
    · exact h2 m h
    · exact hghost ha
  · rintro a (ha | ⟨hb', rfl⟩)
    · obtain ⟨h1, h2⟩ := hs.data ha
      refine ⟨by omega, ?_⟩
      rintro m (h | ⟨hb', rfl, -⟩)
      · exact h2 m h
      · exact absurd (hb hb') (Nat.not_le_of_lt h1)
    · refine ⟨by omega, ?_⟩
      rintro m (h | ⟨hb'', -⟩)
      · exact htwin m (hs.twin h)
      · rw [hb'] at hb''
        cases hb''
  · have := hs.apart ha
    omega
  · have := hs.reached hx
    omega
  · intro a b hab
    obtain ⟨h1, h2, h3⟩ := hs.cut hab
    refine ⟨by omega, by omega, ?_⟩
    rintro x m (h | ⟨rfl, rfl⟩)
    · exact h3 h
    · have := hcut a b hab
      simp only
      omega
  · have := hs.count
    simp only [Pairing.pair]
    omega

theorem Sane.lone (hs : P.Sane c d) (b : Bool) : (P.lone ⟨c⟩ b).Sane (c + 1) d := by
  refine ⟨hs.unique, hs.same, fun h => ?_, hs.total, hs.twin, hs.order, ?_, ?_,
    fun ha => ?_, fun hx => ?_,
    fun hab => ?_, ?_⟩
  · have := hs.lt h
    exact ⟨by omega, this.2⟩
  · rintro n (hn | ⟨-, rfl⟩)
    · obtain ⟨h1, h2⟩ := hs.ghost hn
      exact ⟨by omega, h2⟩
    · exact ⟨Nat.lt_succ_self _, fun m hm => absurd (hs.lt hm).1 (Nat.lt_irrefl _)⟩
  · rintro n (hn | rfl)
    · obtain ⟨h1, h2⟩ := hs.data hn
      exact ⟨by omega, h2⟩
    · exact ⟨Nat.lt_succ_self _, fun m hm => absurd (hs.lt (hs.twin hm)).1 (Nat.lt_irrefl _)⟩
  · have := hs.apart ha
    omega
  · have := hs.reached hx
    omega
  · obtain ⟨h1, h2, h3⟩ := hs.cut hab
    exact ⟨by omega, h2, h3⟩
  · have := hs.count
    simp only [Pairing.lone]
    omega

theorem Sane.mark (hs : P.Sane c d) : (P.mark c d).Sane c d := by
  refine ⟨hs.unique, hs.same, hs.lt, hs.total, hs.twin, hs.order, hs.ghost, hs.data, hs.apart,
    hs.reached, ?_,
    hs.count⟩
  rintro a b (hab | ⟨rfl, rfl⟩)
  · exact hs.cut hab
  · refine ⟨Nat.le_refl _, Nat.le_refl _, fun {n m} h => ?_⟩
    have := hs.lt h
    omega

theorem node?_addNode_ne {a : NodeId} (h : a.index < g.nodeCount) :
    (g.addNode k I).2.node? a = g.node? a := by
  rw [node?_addNode, if_neg]
  rintro rfl
  exact Nat.lt_irrefl _ h

theorem Nodes.grow (hn : P.Nodes g h) (hle : P.Le Q) {h' : Graph}
    (hnode : ∀ {n m}, Q.twin n m → Option.Rel Q.SameNode ((g.addNode k I).2.node? n) (h'.node? m))
    (hcontrol : k.isControl = true → ∃ m, Q.control ⟨g.nodeCount⟩ m)
    (hdata : k.isControl = false → Q.data ⟨g.nodeCount⟩)
    (hapart : ∀ {n x}, Q.apart n x → P.apart n x) (hlt : ∀ {n x}, P.apart n x → n.index < g.nodeCount)
    (hphi : ∀ x, k = .phi x → P.reached x) : Q.Nodes (g.addNode k I).2 h' := by
  have hkind : ∀ a, (g.addNode k I).2.kind? a = if a = ⟨g.nodeCount⟩ then some k else g.kind? a :=
    fun a => kind?_addNode
  refine ⟨hnode, fun {a} hc => ?_, fun {a k'} hk hc => ?_, fun {a x} ha hk => ?_, fun {a x} hk => ?_⟩
  · obtain ⟨k', hk', hc'⟩ := kindIs_iff.1 hc
    rw [hkind] at hk'
    split at hk'
    · next heq =>
      cases hk'
      exact heq ▸ hcontrol hc'
    · obtain ⟨m, hm⟩ := hn.control (kindIs_iff.2 ⟨k', hk', hc'⟩)
      exact ⟨m, hle.control hm⟩
  · rw [hkind] at hk
    split at hk
    · next heq =>
      cases hk
      exact heq ▸ hdata hc
    · exact hle.data (hn.data hk hc)
  · have hne : a ≠ ⟨g.nodeCount⟩ := by
      rintro rfl
      exact Nat.lt_irrefl _ (hlt (hapart ha))
    rw [hkind, if_neg hne] at hk
    exact hn.apart (hapart ha) hk
  · rw [hkind] at hk
    split at hk
    · cases hk
      exact hle.reached (hphi x rfl)
    · exact hle.reached (hn.reached hk)

theorem Twins.addNode (ht : P.Twins g h) (hk : k.Twin P.twin k') (hI : List.Forall₂ P.twin I I')
    (hphi : ∀ x, k = .phi x → P.reached x) :
    (P.pair ⟨g.nodeCount⟩ ⟨h.nodeCount⟩ k.isControl).Twins (g.addNode k I).2 (h.addNode k' I').2 := by
  have hle := P.le_pair ⟨g.nodeCount⟩ ⟨h.nodeCount⟩ k.isControl
  have hfresh : (∀ m, ¬ P.control ⟨g.nodeCount⟩ m) ∧ ∀ n, ¬ P.control n ⟨h.nodeCount⟩ :=
    ⟨fun m hm => Nat.lt_irrefl _ (ht.sane.lt (ht.sane.twin hm)).1,
      fun n hn => Nat.lt_irrefl _ (ht.sane.lt (ht.sane.twin hn)).2⟩
  refine ⟨?_, ?_, ?_, ht.counted.addNode k I, ht.counted'.addNode k' I'⟩
  · rw [nodeCount_addNode, nodeCount_addNode]
    exact ht.sane.pair (fun m hm => Nat.lt_irrefl _ (ht.sane.lt hm).1)
      (fun hg => Nat.lt_irrefl _ (ht.sane.ghost hg).1) (fun a b hab => (ht.sane.cut hab).1)
      (fun _ => Nat.le_refl _) (by simp)
  · refine ht.nodes.grow hle ?_ (fun hc => ⟨_, .inr ⟨hc, rfl, rfl⟩⟩) (fun hc => .inr ⟨hc, rfl⟩) id
      ht.sane.apart hphi
    rintro a b (hab | ⟨rfl, rfl⟩)
    · have hlt := ht.sane.lt hab
      rw [node?_addNode_ne hlt.1, node?_addNode_ne hlt.2]
      exact optionRel_imp (ht.nodes.node hab) fun _ _ h => h.mono hle
    · rw [node?_addNode, node?_addNode, if_pos rfl, if_pos rfl]
      exact .some ⟨hk.mono fun _ _ h => hle.twin h, hI.imp fun _ _ h => hle.twin h, .none⟩
  · refine ht.wires.extend (.addNode g k I) (.addNode h k' I') hle ?_
    rintro a b (hab | ⟨-, rfl, rfl⟩)
    · exact .inl hab
    · exact .inr hfresh

theorem Twins.addLone (ht : P.Twins g h) (hk : k.isControl = false) (hphi : ∀ x, k = .phi x → P.reached x)
    (c : Bool) : (P.lone ⟨g.nodeCount⟩ c).Twins (g.addNode k I).2 h := by
  have hle := P.le_lone ⟨g.nodeCount⟩ c
  refine ⟨?_, ?_, ?_, ht.counted.addNode k I, ht.counted'⟩
  · rw [nodeCount_addNode]
    exact ht.sane.lone c
  · refine ht.nodes.grow hle (fun {a b} hab => ?_) (fun hc => ?_)
      (fun _ => .inr rfl) id ht.sane.apart hphi
    · rw [node?_addNode_ne (ht.sane.lt hab).1]
      exact optionRel_imp (ht.nodes.node hab) fun _ _ h => h.mono hle
    · rw [hk] at hc
      cases hc
  · exact ht.wires.extend (.addNode g k I) (.refl h) hle .inl

theorem Twins.adopt {x : Node} (ht : P.Twins g h) (hx : g.node? n = some x) (htwin : ∀ m, ¬ P.twin n m)
    (hghost : ¬ P.ghost n) (hcut : ∀ a b, P.cut a b → a ≤ n.index) (hk : x.kind.Twin P.twin k')
    (hI : List.Forall₂ P.twin x.inputs I') (hs : x.snapshot = none) :
    (P.pair n ⟨h.nodeCount⟩ false).Twins g (h.addNode k' I').2 := by
  have hle := P.le_pair n ⟨h.nodeCount⟩ false
  refine ⟨?_, ?_, ?_, ht.counted, ht.counted'.addNode k' I'⟩
  · rw [nodeCount_addNode]
    exact ht.sane.pair htwin hghost hcut (by rintro ⟨⟩) (Nat.max_eq_left (lt_nodeCount hx))
  · refine ⟨?_, fun hc => ?_, fun hk hc => hle.data (ht.nodes.data hk hc), fun ha => ht.nodes.apart ha,
      fun hk => ht.nodes.reached hk⟩
    · rintro a b (hab | ⟨rfl, rfl⟩)
      · rw [node?_addNode_ne (ht.sane.lt hab).2]
        exact optionRel_imp (ht.nodes.node hab) fun _ _ h => h.mono hle
      · rw [hx, node?_addNode, if_pos rfl]
        exact .some ⟨hk.mono fun _ _ h => hle.twin h, hI.imp fun _ _ h =>
          hle.twin h, by rw [hs]; exact .none⟩
    · obtain ⟨m, hm⟩ := ht.nodes.control hc
      exact ⟨m, hle.control hm⟩
  · refine ht.wires.extend (.refl g) (.addNode h k' I') hle ?_
    rintro a b (hab | ⟨hf, -⟩)
    · exact .inl hab
    · cases hf

theorem Twins.mark (ht : P.Twins g h) : (P.mark g.nodeCount h.nodeCount).Twins g h := by
  have hle := P.le_mark g.nodeCount h.nodeCount
  exact ⟨ht.sane.mark, ⟨fun hab => optionRel_imp (ht.nodes.node hab) fun _ _ h => h.mono hle,
    ht.nodes.control, ht.nodes.data, ht.nodes.apart, ht.nodes.reached⟩,
    ht.wires.extend (.refl g) (.refl h) hle .inl,
    ht.counted, ht.counted'⟩

/-- `x` may have phis from now on; nothing so far is one of them. -/
def reach (P : Pairing) (x : NodeId) : Pairing :=
  { P with
    apart := fun n y => P.apart n y ∨ (n.index < P.count ∧ y = x)
    reached := fun y => P.reached y ∨ y = x }

theorem le_reach (P : Pairing) (x : NodeId) : P.Le (P.reach x) :=
  ⟨id, id, id, id, .inl, .inl, id, Nat.le_refl _⟩

theorem Twins.reach {x : NodeId} (ht : P.Twins g h) (hx : x.index < g.nodeCount) (hr : ¬ P.reached x) :
    (P.reach x).Twins g h := by
  have hle := P.le_reach x
  refine ⟨?_, ?_, ht.wires.extend (.refl g) (.refl h) hle .inl, ht.counted, ht.counted'⟩
  · have hs := ht.sane
    refine ⟨hs.unique, hs.same, hs.lt, hs.total, hs.twin, hs.order, hs.ghost, hs.data, ?_, ?_,
      hs.cut, hs.count⟩
    · rintro n y (ha | ⟨hn, -⟩)
      · exact hs.apart ha
      · exact hs.count ▸ hn
    · rintro y (hy | rfl)
      · exact hs.reached hy
      · exact hx
  · refine ⟨fun hab => optionRel_imp (ht.nodes.node hab) fun _ _ h => h.mono hle, ht.nodes.control,
      ht.nodes.data,
      ?_, fun hk => .inl (ht.nodes.reached hk)⟩
    rintro n y (ha | ⟨-, rfl⟩) hk
    · exact ht.nodes.apart ha hk
    · exact hr (ht.nodes.reached hk)

end New

/-! ## Changes to nodes -/

section Change

variable {g h g' : Graph} {n m v v' : NodeId} {f : Node → Node}

theorem Twins.modify {f' : Node → Node} (ht : P.Twins g h) (hnm : P.twin n m)
    (hkind : ∀ x, (f x).kind = x.kind) (hf : ∀ x y, P.SameNode x y → P.SameNode (f x) (f' y)) :
    P.Twins (g.modifyNode n f) (h.modifyNode m f') := by
  refine ⟨?_, ?_, ht.wires.of_same (.modifyNode g n f) (.modifyNode h m f'), ht.counted.modifyNode n f,
    ht.counted'.modifyNode m f'⟩
  · rw [nodeCount_modifyNode, nodeCount_modifyNode]
    exact ht.sane
  · refine ht.nodes.of_nodes (fun a k hk => ?_) fun {a b} hab => ?_
    · rwa [kind?_modifyNode hkind] at hk
    · rw [node?_modifyNode, node?_modifyNode]
      have := ht.nodes.node hab
      by_cases ha : a = n
      · rw [if_pos ha, if_pos ((ht.sane.eq_iff hab hnm).1 ha)]
        exact optionRel_map this hf
      · rw [if_neg ha, if_neg fun hb => ha ((ht.sane.eq_iff hab hnm).2 hb)]
        exact this

theorem Twins.modifyLone (ht : P.Twins g h) (hn : ∀ m, ¬ P.twin n m)
    (hkind : ∀ x, (f x).kind = x.kind) : P.Twins (g.modifyNode n f) h := by
  refine ⟨?_, ?_, ht.wires.of_same (.modifyNode g n f) (.refl h), ht.counted.modifyNode n f, ht.counted'⟩
  · rw [nodeCount_modifyNode]
    exact ht.sane
  · refine ht.nodes.of_nodes (fun a k hk => ?_) fun {a b} hab => ?_
    · rwa [kind?_modifyNode hkind] at hk
    · rw [node?_modifyNode, if_neg]
      · exact ht.nodes.node hab
      · rintro rfl
        exact hn b hab

theorem Twins.addPhiInput (ht : P.Twins g h) (hnm : P.twin n m) (hv : P.twin v v')
    (hok : g.addPhiInput n v = .ok g') : ∃ h', h.addPhiInput m v' = .ok h' ∧ P.Twins g' h' := by
  obtain ⟨⟨x, hk⟩, rfl⟩ := addPhiInput_ok hok
  obtain ⟨y, hy⟩ : ∃ y, h.kind? m = some (.phi y) := by
    obtain ⟨k, hm, hkk⟩ := optionRel_some_left (hk ▸ ht.kind hnm)
    cases hkk with
    | phi _ => exact ⟨_, hm⟩
    | same hs => cases hs
  refine ⟨_, by rw [Graph.addPhiInput, hy], ht.modify hnm (fun _ => rfl) fun a b hab => ?_⟩
  exact ⟨hab.kind, List.rel_append hab.inputs (.cons hv .nil), hab.snapshot⟩

theorem Twins.addLoneInput (ht : P.Twins g h) (hn : ∀ m, ¬ P.twin n m)
    (hok : g.addPhiInput n v = .ok g') : P.Twins g' h := by
  obtain ⟨-, rfl⟩ := addPhiInput_ok hok
  exact ht.modifyLone hn fun _ => rfl

theorem Twins.setSnapshot {s t : Snapshot} (ht : P.Twins g h) (hnm : P.twin n m) (hs : P.SameSnapshot s t)
    (hok : g.setSnapshot n s = .ok g') : ∃ h', h.setSnapshot m t = .ok h' ∧ P.Twins g' h' := by
  obtain ⟨hc, rfl⟩ := setSnapshot_ok hok
  rw [ht.contains hnm] at hc
  refine ⟨_, by rw [Graph.setSnapshot, if_pos hc], ht.modify hnm (fun _ => rfl) fun a b hab => ?_⟩
  exact ⟨hab.kind, hab.inputs, .some hs⟩

end Change

/-! ## Changes to edges -/

section Rewire

variable {g h g' : Graph} {s s' t t' n m : NodeId} {e : EdgeId}

theorem Twins.addEdge {k : EdgeKind} {p : Float} (ht : P.Twins g h) (hs : P.control s s')
    (hd : P.control t t') (hok : g.addEdge s t k p = .ok (e, g')) :
    ∃ h', h.addEdge s' t' k p = .ok (e, h') ∧ P.Twins g' h' := by
  obtain ⟨hcs, hct, he, hl, hlive, hsize⟩ := addEdge_ok hok
  rw [ht.contains (ht.sane.twin hs)] at hcs
  rw [ht.contains (ht.sane.twin hd)] at hct
  obtain ⟨h', hok', hl'⟩ := Graph.addEdge_spec hcs hct k p
  obtain ⟨-, -, -, -, hlive', hsize'⟩ := addEdge_ok hok'
  rw [ht.wires.size] at he
  subst he
  refine ⟨h', hok', ?_, ht.nodes.of_same hl.node? hl'.node?, ?_,
    ht.counted.of_same hl.nodeCount (fun n => contains_congr (hl.node? n)) hlive,
    ht.counted'.of_same hl'.nodeCount (fun n => contains_congr (hl'.node? n)) hlive'⟩
  · rw [hl.nodeCount, hl'.nodeCount]
    exact ht.sane
  · have hw := ht.wires
    refine ⟨fun {n m} hc => ?_, fun {n m} hc => ?_, fun {n} hn => ?_, fun {m} hm => ?_,
      fun x => ?_, ?_, ?_⟩
    · rw [hl.outgoing, hl'.outgoing]
      by_cases h : n = s
      · rw [if_pos h, if_pos ((ht.sane.control_iff hc hs).1 h), hw.outgoing hc]
      · rw [if_neg h, if_neg fun h' => h ((ht.sane.control_iff hc hs).2 h'), hw.outgoing hc]
    · rw [hl.incoming, hl'.incoming]
      by_cases h : n = t
      · rw [if_pos h, if_pos ((ht.sane.control_iff hc hd).1 h), hw.incoming hc]
      · rw [if_neg h, if_neg fun h' => h ((ht.sane.control_iff hc hd).2 h'), hw.incoming hc]
    · rw [hl.outgoing, hl.incoming, if_neg, if_neg]
      · exact hw.idle hn
      · rintro rfl
        exact hn _ hd
      · rintro rfl
        exact hn _ hs
    · rw [hl'.outgoing, hl'.incoming, if_neg, if_neg]
      · exact hw.idle' hm
      · rintro rfl
        exact hm _ hd
      · rintro rfl
        exact hm _ hs
    · rw [hl.edge?, hl'.edge?]
      split
      · exact .some ⟨hs, hd, rfl, rfl⟩
      · exact hw.edge x
    · rw [hsize, hsize', hw.size]
    · rw [hl.start, hl'.start]
      exact hw.start

theorem Twins.retarget (ht : P.Twins g h) (hd : P.control t t') (hok : g.retarget e t = .ok g') :
    ∃ h', h.retarget e t' = .ok h' ∧ P.Twins g' h' := by
  obtain ⟨hct, d, hde, hm, hlive, hsize⟩ := retarget_ok hok
  rw [ht.contains (ht.sane.twin hd)] at hct
  have hw := ht.wires
  obtain ⟨d', hde', hdd⟩ := optionRel_some_left (hde ▸ hw.edge e)
  obtain ⟨h', hok', hm'⟩ := retarget_spec hct hde'
  obtain ⟨-, d'', hde'', -, hlive', hsize'⟩ := retarget_ok hok'
  refine ⟨h', hok', ?_, ht.nodes.of_same hm.node? hm'.node?, ?_,
    ht.counted.of_same hm.nodeCount (fun n => contains_congr (hm.node? n)) hlive,
    ht.counted'.of_same hm'.nodeCount (fun n => contains_congr (hm'.node? n)) hlive'⟩
  · rw [hm.nodeCount, hm'.nodeCount]
    exact ht.sane
  · refine ⟨fun {n m} hc => ?_, fun {n m} hc => ?_, fun {n} hn => ?_, fun {m} hm1 => ?_,
      fun x => ?_, ?_, ?_⟩
    · rw [hm.outgoing, hm'.outgoing, hw.outgoing hc]
    · rw [hm.incoming, hm'.incoming, hw.incoming hc]
      simp only [ht.sane.control_iff hc hdd.target, ht.sane.control_iff hc hd]
    · obtain ⟨h1, h2⟩ := hw.idle hn
      have hne : n ≠ t := by
        rintro rfl
        exact hn _ hd
      rw [hm.outgoing, hm.incoming, h1, h2, if_neg hne]
      simp
    · obtain ⟨h1, h2⟩ := hw.idle' hm1
      have hne : m ≠ t' := by
        rintro rfl
        exact hm1 _ hd
      rw [hm'.outgoing, hm'.incoming, h1, h2, if_neg hne]
      simp
    · rw [hm.edge?, hm'.edge?]
      split
      · exact .some ⟨hdd.source, hd, hdd.kind, hdd.probability⟩
      · exact hw.edge x
    · rw [hsize, hsize', hw.size]
    · rw [hm.start, hm'.start]
      exact hw.start

theorem Twins.setStart (ht : P.Twins g h) (hnm : P.control n m) : P.Twins (g.setStart n) (h.setStart m) :=
  ⟨ht.sane, ht.nodes.of_same (fun _ => rfl) fun _ => rfl,
    ⟨ht.wires.outgoing, ht.wires.incoming, ht.wires.idle, ht.wires.idle', ht.wires.edge, ht.wires.size,
      .some hnm⟩, ht.counted, ht.counted'⟩

end Rewire

/-! ## Removal -/

section Remove

variable {g h h' : Graph} {n m : NodeId} {e : EdgeId}

theorem Twins.dropEdge (ht : P.Twins g h) (e : EdgeId) : P.Twins (g.dropEdge e) (h.dropEdge e) := by
  have hw := ht.wires
  refine ⟨?_, ht.nodes.of_same (fun _ => node?_dropEdge) fun _ => node?_dropEdge, ?_,
    ht.counted.of_same nodeCount_dropEdge (fun n => contains_congr node?_dropEdge)
      live_dropEdge,
    ht.counted'.of_same nodeCount_dropEdge (fun n => contains_congr node?_dropEdge)
      live_dropEdge⟩
  · rw [nodeCount_dropEdge, nodeCount_dropEdge]
    exact ht.sane
  · cases hd : g.edge? e with
    | none =>
      have hd' : h.edge? e = none := Option.not_isSome_iff_eq_none.1 fun hs => by
        rw [← optionRel_isSome (hw.edge e), hd] at hs
        cases hs
      rw [dropEdge_of_none hd, dropEdge_of_none hd']
      exact hw
    | some d =>
      obtain ⟨d', hd', hdd⟩ := optionRel_some_left (hd ▸ hw.edge e)
      refine ⟨fun {n m} hc => ?_, fun {n m} hc => ?_, fun {n} hn => ?_, fun {m} hm => ?_,
        fun x => ?_, ?_, ?_⟩
      · rw [outgoing_dropEdge hd, outgoing_dropEdge hd', hw.outgoing hc]
        simp only [ht.sane.control_iff hc hdd.source]
      · rw [incoming_dropEdge hd, incoming_dropEdge hd', hw.incoming hc]
        simp only [ht.sane.control_iff hc hdd.target]
      · obtain ⟨h1, h2⟩ := hw.idle hn
        rw [outgoing_dropEdge hd, incoming_dropEdge hd, h1, h2]
        simp
      · obtain ⟨h1, h2⟩ := hw.idle' hm
        rw [outgoing_dropEdge hd', incoming_dropEdge hd', h1, h2]
        simp
      · rw [edge?_dropEdge, edge?_dropEdge]
        split
        · exact .none
        · exact hw.edge x
      · rw [size_dropEdge, size_dropEdge, hw.size]
      · rw [start_dropEdge, start_dropEdge]
        exact hw.start

theorem Twins.dropEdges (ht : P.Twins g h) (es : List EdgeId) :
    P.Twins (es.foldl Graph.dropEdge g) (es.foldl Graph.dropEdge h) := by
  induction es generalizing g h with
  | nil => exact ht
  | cons e es ih => exact ih (ht.dropEdge e)

theorem Nodes.vacate (hn : P.Nodes g h)
    (hnode : ∀ {a b}, P.twin a b → a ≠ n → Option.Rel P.SameNode (g.node? a) (h'.node? b))
    (hgone : ∀ {b}, P.twin n b → h'.node? b = none) : P.Nodes (g.vacate n) h' := by
  refine hn.of_nodes (fun a k hk => ?_) fun {a b} hab => ?_
  · unfold kind? at hk ⊢
    rw [node?_vacate] at hk
    split at hk
    · cases hk
    · exact hk
  · rw [node?_vacate]
    split
    · next h =>
      subst h
      rw [hgone hab]
      exact .none
    · next h => exact hnode hab h

/-- Both graphs lose the same node, with its edges. -/
theorem Twins.removeNode (ht : P.Twins g h) (hnm : P.twin n m) :
    P.Twins (g.removeNode n) (h.removeNode m) := by
  by_cases hc : g.contains n = true
  · have hc' : h.contains m = true := ht.contains hnm ▸ hc
    have hedges : g.outgoing n ++ g.incoming n = h.outgoing m ++ h.incoming m := by
      by_cases hcn : ∃ m, P.control n m
      · obtain ⟨m', hm'⟩ := hcn
        cases ht.sane.unique hnm (ht.sane.twin hm')
        rw [ht.wires.outgoing hm', ht.wires.incoming hm']
      · have hm : ∀ a, ¬ P.control a m := fun a ha =>
          hcn ⟨m, ht.sane.same hnm (ht.sane.twin ha) ▸ ha⟩
        obtain ⟨h1, h2⟩ := ht.wires.idle fun m' hm' => hcn ⟨m', hm'⟩
        obtain ⟨h3, h4⟩ := ht.wires.idle' hm
        rw [h1, h2, h3, h4]
    rw [removeNode_eq hc, removeNode_eq hc', hedges]
    refine Twins.dropEdges ⟨?_, ?_, ?_, ?_, ?_⟩ _
    · rw [nodeCount_vacate, nodeCount_vacate]
      exact ht.sane
    · refine ht.nodes.vacate (fun {a b} hab hne => ?_) fun {b} hb => ?_
      · rw [node?_vacate, if_neg fun hb => hne ((ht.sane.eq_iff hab hnm).2 hb)]
        exact ht.nodes.node hab
      · rw [node?_vacate, if_pos (ht.sane.unique hb hnm)]
    · have hw := ht.wires
      refine ⟨fun {a b} hab => ?_, fun {a b} hab => ?_, fun {a} ha => ?_, fun {b} hb => ?_,
        hw.edge, hw.size,
        hw.start⟩
      · rw [outgoing_vacate, outgoing_vacate, hw.outgoing hab]
        simp only [ht.sane.eq_iff (ht.sane.twin hab) hnm]
      · rw [incoming_vacate, incoming_vacate, hw.incoming hab]
        simp only [ht.sane.eq_iff (ht.sane.twin hab) hnm]
      · obtain ⟨h1, h2⟩ := hw.idle ha
        rw [outgoing_vacate, incoming_vacate, h1, h2]
        simp
      · obtain ⟨h1, h2⟩ := hw.idle' hb
        rw [outgoing_vacate, incoming_vacate, h1, h2]
        simp
    · exact ht.counted.remove hc (fun _ => node?_vacate) rfl
    · exact ht.counted'.remove hc' (fun _ => node?_vacate) rfl
  · have hc' : ¬ h.contains m = true := ht.contains hnm ▸ hc
    unfold Graph.removeNode
    rw [if_neg hc, if_neg hc']
    exact ht

theorem Twins.removeLone (ht : P.Twins g h) (hn : ∀ m, ¬ P.twin n m) : P.Twins (g.removeNode n) h := by
  have hfree := ht.wires.idle fun m hm => hn m (ht.sane.twin hm)
  have hc := removeNode_clears hfree.1 hfree.2
  refine ⟨hc.nodeCount ▸ ht.sane, ?_, ht.wires.of_same hc.toSameWires (.refl h),
    ht.counted.removeNode n, ht.counted'⟩
  refine ht.nodes.of_nodes (fun a k hk => ?_) fun {a b} hab => ?_
  · obtain ⟨x, hx, rfl⟩ := kind?_eq_some.1 hk
    rw [hc.node?] at hx
    split at hx
    · cases hx
    · exact kind?_of_node? hx
  · have hne : a ≠ n := by
      rintro rfl
      exact hn b hab
    rw [hc.node?, if_neg hne]
    exact ht.nodes.node hab

end Remove

end Pairing

end StackLift
