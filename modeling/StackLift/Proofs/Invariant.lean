import StackLift.Proofs.Chart
import StackLift.Proofs.Ensures
import StackLift.Proofs.Sound

/-!
# The invariant of a build

`Inv S cur d w` is what holds while block number `cur - 1` of a method is lifted. It has three
parts: the graph is sound up to the debts `d`, the table says where the blocks of the method stand in
it, and what was there when the method was entered has not changed.

**Joins.** A block whose entry is not parsed yet is open: edges may still come in. Its frame holds
phis of its own node, each in one place, and otherwise only what can be used. Once the block is
parsed, what its phis carry may be used by everybody. A loop header stays a join after that: its frame
holds nothing but its phis, and back edges add to them.

**Growth.** `Grows` is what every action may do to the nodes that are not its own.
-/
namespace StackLift

variable {b : BlockId} {f f' : Frame} {g g' : Graph} {I : List NodeId} {n m node : NodeId}
  {O O' : NodeSet}
  {k : NodeKind} {sc : Scope}

open Graph hiding addEdge addNode addPhiInput kindIs setSnapshot

/-- A method that is being lifted, and what was there when it was entered: the graph, the open joins of
its callers, and what had been passed on the way. -/
structure Scene extends Scope where
  graph : Graph
  outer : NodeSet
  base : NodeSet

instance : Coe Scene Scope := ⟨Scene.toScope⟩

def Table.slot? (t : Table) (b : BlockId) : Option Entry := (t.entries[b.index]?).join

/-- The node of a block that edges may still come in at. -/
def Table.Opens (t : Table) (n : NodeId) : Prop :=
  ∃ b e, t.slot? b = some e ∧ e.parsed = false ∧ e.node = n

/-- A join of the method or of one of its callers that edges may still come in at. -/
def Scene.Open (S : Scene) (t : Table) (n : NodeId) : Prop := t.Opens n ∨ S.outer n

/-! ## Growth -/

/-- What an action leaves alone: it may drop carriers, give phis more inputs, let edges come in at
loop headers, at the open joins `O` and at the nodes `ss`, and let edges leave the nodes `ss`. Only
the edge into a begin that is still open may be moved. -/
structure Grows (ss : List NodeId) (O O' : NodeSet) (g g' : Graph) : Prop where
  count : g.nodeCount ≤ g'.nodeCount
  opens : ∀ {n}, O' n → O n ∨ g.nodeCount ≤ n.index
  kind : ∀ {n k}, g.kind? n = some k → k.isCarrier = false → g'.kind? n = some k
  old : ∀ {n k}, n.index < g.nodeCount → g'.kind? n = some k → g.kind? n = some k
  inputs : ∀ {n k}, n.index < g.nodeCount → g'.kind? n = some k →
    g.inputs n <+: g'.inputs n ∧ ((∀ m, k ≠ .phi m) → g'.inputs n = g.inputs n)
  incoming : ∀ {n}, n.index < g.nodeCount → (O n → g.kind? n ≠ some .begin) →
    g.incoming n <+: g'.incoming n ∧
      (n ∉ ss → ¬ O n → (∀ i, g.kind? n ≠ some (.loopHeader i)) → g'.incoming n = g.incoming n)
  outgoing : ∀ {n}, n.index < g.nodeCount → n ∉ ss → ¬ O n → g'.outgoing n = g.outgoing n
  edge : ∀ {e x}, g.edge? e = some x → x.target.index < g.nodeCount →
    (O x.target → g.kind? x.target ≠ some .begin) → g'.edge? e = some x
  leaving : ∀ {e x}, g.edge? e = some x →
    ∃ x', g'.edge? e = some x' ∧ x'.source = x.source ∧ x'.kind = x.kind
  start : g'.start = g.start

namespace Grows

variable {ss : List NodeId} {O O' O'' : NodeSet} {g g' g'' : Graph} {n : NodeId}

theorem refl (ss : List NodeId) (O : NodeSet) (g : Graph) : Grows ss O O g g :=
  ⟨Nat.le_refl _, .inl, fun h _ => h, fun _ h => h, fun _ _ => ⟨List.prefix_rfl, fun _ => rfl⟩,
    fun _ _ => ⟨List.prefix_rfl, fun _ _ _ => rfl⟩, fun _ _ _ => rfl, fun h _ _ => h,
    fun h => ⟨_, h, rfl, rfl⟩, rfl⟩

section

variable (h : Grows ss O O' g g')
include h

theorem trans (h' : Grows ss O' O'' g' g'') : Grows ss O O'' g g'' := by
  have hlt : ∀ {n : NodeId}, n.index < g.nodeCount → n.index < g'.nodeCount :=
    fun hn => Nat.lt_of_lt_of_le hn h.count
  have hO : ∀ {n : NodeId}, n.index < g.nodeCount → O' n → O n := by
    intro n hn hO'
    exact (h.opens hO').resolve_right (Nat.not_le_of_lt hn)
  refine ⟨Nat.le_trans h.count h'.count, ?_, ?_, ?_, ?_, ?_, ?_, ?_, ?_, h'.start.trans h.start⟩
  · intro n hn
    rcases h'.opens hn with h1 | h1
    · exact h.opens h1
    · exact .inr (Nat.le_trans h.count h1)
  · exact fun hk hc => h'.kind (h.kind hk hc) hc
  · exact fun hn hk => h.old hn (h'.old (hlt hn) hk)
  · intro n k hn hk
    obtain ⟨h1, h2⟩ := h'.inputs (hlt hn) hk
    obtain ⟨h3, h4⟩ := h.inputs hn (h'.old (hlt hn) hk)
    exact ⟨h3.trans h1, fun hp => (h2 hp).trans (h4 hp)⟩
  · intro n hn hb
    obtain ⟨h1, h2⟩ := h.incoming hn hb
    obtain ⟨h3, h4⟩ := h'.incoming (hlt hn) fun hO' hk => hb (hO hn hO') (h.old hn hk)
    refine ⟨h1.trans h3, fun hs hnO hl => ?_⟩
    rw [h4 hs (fun h => hnO (hO hn h)) (fun i hi => hl i (h.old hn hi)), h2 hs hnO hl]
  · intro n hn hs hnO
    rw [h'.outgoing (hlt hn) hs fun h => hnO (hO hn h), h.outgoing hn hs hnO]
  · intro e x hx hn hb
    exact h'.edge (h.edge hx hn hb) (hlt hn) fun hO' hk => hb (hO hn hO') (h.old hn hk)
  · intro e x hx
    obtain ⟨y, hy, h1, h2⟩ := h.leaving hx
    obtain ⟨z, hz, h3, h4⟩ := h'.leaving hy
    exact ⟨z, hz, h3.trans h1, h4.trans h2⟩

theorem mono {ss' : List NodeId} (hs : ∀ n ∈ ss, n ∈ ss' ∨ O n ∨ g.nodeCount ≤ n.index) :
    Grows ss' O O' g g' := by
  have hmem : ∀ {n : NodeId}, n.index < g.nodeCount → n ∉ ss' → ¬ O n → n ∉ ss := by
    intro n hn hns hO hmem
    rcases hs n hmem with h1 | h1 | h1
    · exact hns h1
    · exact hO h1
    · exact absurd hn (Nat.not_lt_of_le h1)
  refine ⟨h.count, h.opens, h.kind, h.old, h.inputs, ?_, ?_, h.edge, h.leaving, h.start⟩
  · intro n hn hb
    obtain ⟨h1, h2⟩ := h.incoming hn hb
    exact ⟨h1, fun hns hO => h2 (hmem hn hns hO) hO⟩
  · exact fun hn hns hO => h.outgoing hn (hmem hn hns hO) hO

theorem kindIs {p : NodeKind → Bool} (hp : g.kindIs n p = true)
    (hc : ∀ k : NodeKind, p k = true → k.isCarrier = false) : g'.kindIs n p = true := by
  obtain ⟨k, hk, hpk⟩ := kindIs_iff.1 hp
  exact kindIs_iff.2 ⟨k, h.kind hk (hc k hpk), hpk⟩

theorem isControl (hp : g.kindIs n NodeKind.isControl = true) : g'.kindIs n NodeKind.isControl = true :=
  h.kindIs hp fun k hk => by cases k <;> first | rfl | cases hk

theorem outgoing_kinds (hc : g.Coherent) (hn : n.index < g.nodeCount) (hs : n ∉ ss) (hO : ¬ O n) :
    (g'.outgoing n).filterMap (fun e => (g'.edge? e).map (·.kind)) =
      (g.outgoing n).filterMap fun e => (g.edge? e).map (·.kind) := by
  rw [h.outgoing hn hs hO]
  refine List.filterMap_congr fun e he => ?_
  obtain ⟨x, hx, -⟩ := hc.outgoing.1 he
  obtain ⟨y, hy, -, hk⟩ := h.leaving hx
  rw [hx, hy, Option.map_some, Option.map_some, hk]

theorem firm {d d' : Debt} (hf : g.Firm O d n) (hl : n ∈ d.loose → 0 < g'.inDegree n ∨ n ∈ d'.loose) :
    g'.Firm O' d' n := by
  obtain ⟨hc, hO, hr⟩ := hf
  have hn := lt_of_kindIs hc
  refine ⟨h.isControl hc, fun hO' => ?_, ?_⟩
  · exact hO ((h.opens hO').resolve_right (Nat.not_le_of_lt hn))
  · rcases hr with hr | hr | hr
    · have := (h.incoming hn fun h => absurd h hO).1.length_le
      exact .inl (Nat.lt_of_lt_of_le hr this)
    · exact Or.inr (Or.inl (h.start.trans hr))
    · exact (hl hr).imp_right .inr

end

end Grows

/-! ## The table -/

open BuildM in
/-- What the frame of a join holds: phis of its own node, each in one place and none left out, and
as long as it is not parsed also other values. -/
structure Holds (g : Graph) (O : NodeSet) (node : NodeId) (parsed : Bool) (f : Frame) : Prop where
  each : ∀ v ∈ f.values, g.kind? v.node = some (.phi node) ∨ (parsed = false ∧ g.Usable O v.node)
  once : ((f.values.map (·.node)).filter (isPhiOf g · node)).Nodup
  all : ∀ x, g.kind? x = some (.phi node) → x ∈ f.values.map (·.node)

/-- What is on the stack when control arrives at a block that no instruction starts. The root method
does not use its exit block. -/
def Shape (sc : Scope) (b : BlockId) (f : Frame) : Prop :=
  match (sc.blocks.block b).kind with
  | .instructions => True
  | .dispatch .. | .unwind => ∃ v, f.stack = [v] ∧ v.kind = .object
  | .exit => sc.depth ≠ 0 ∧ (sc.method.returns ≠ .void → f.stack ≠ [])

theorem Shape.of_kinds (h : Shape sc b f) (hk : f'.stack.map (·.kind) = f.stack.map (·.kind)) :
    Shape sc b f' := by
  have hpending : (∃ v, f.stack = [v] ∧ v.kind = .object) → ∃ v, f'.stack = [v] ∧ v.kind = .object := by
    rintro ⟨v, hv, hkind⟩
    rw [hv, List.map_singleton, List.map_eq_singleton_iff] at hk
    obtain ⟨v', hv', hk'⟩ := hk
    exact ⟨v', hv', hk'.trans hkind⟩
  unfold Shape at *
  cases hb : (sc.blocks.block b).kind with
  | instructions => trivial
  | dispatch _ _ =>
    rw [hb] at h
    exact hpending h
  | unwind =>
    rw [hb] at h
    exact hpending h
  | exit =>
    rw [hb] at h
    refine ⟨h.1, fun hr hnil => ?_⟩
    rw [hnil, List.map_nil] at hk
    exact h.2 hr (List.map_eq_nil_iff.1 hk.symm)

/-- The kinds of node that an entry of a block may stand at. -/
def EntryKind (isLoopHeader : Bool) (k : NodeKind) : Prop :=
  if isLoopHeader then ∃ i, k = .loopHeader i else k = .begin ∨ k = .merge

/-- Control can get to `b`: it is the entry, exceptions end there, or a parsed block before it leads
to it. -/
def Reached (sc : Scope) (t : Table) (b : BlockId) : Prop :=
  b = ⟨0⟩ ∨ b = sc.blocks.unwindBlock ∨
    ∃ a, a.index < b.index ∧ b ∈ (sc.blocks.block a).successors ∧
      ∃ e', t.slot? a = some e' ∧ e'.parsed = true

theorem Reached.mono {t t' : Table} (h : Reached sc t b)
    (ht : ∀ {a e}, t.slot? a = some e → e.parsed = true →
      ∃ e', t'.slot? a = some e' ∧ e'.parsed = true) : Reached sc t' b := by
  refine h.imp_right (Or.imp_right ?_)
  rintro ⟨a, h1, h2, e', h3, h4⟩
  exact ⟨a, h1, h2, ht h3 h4⟩

/-- How block `b` with entry `e` stands in the graph. -/
structure Stands (S : Scene) (cur : Nat) (d : Debt) (g : Graph) (t : Table) (b : BlockId) (e : Entry) :
    Prop where
  young : S.graph.nodeCount ≤ e.node.index
  kind : ∃ k, g.kind? e.node = some k ∧ EntryKind (S.blocks.block b).isLoopHeader k
  parsed : e.parsed = true ↔ b.index < cur ∧ e.frame.isSome = true
  empty : e.frame = none → (S.blocks.block b).isLoopHeader = true ∧ g.inDegree e.node = 0
  anchored : e.frame.isSome = true →
    0 < g.inDegree e.node ∨ g.start = some e.node ∨ e.node ∈ d.loose
  entered : e.frame.isSome = true → (S.blocks.block b).isLoopHeader = true → 0 < g.inDegree e.node
  silent : e.parsed = false → g.outgoing e.node = []
  holds : ∀ {f}, e.frame = some f →
    e.parsed = false ∨ (S.blocks.block b).isLoopHeader = true →
    Holds g (S.Open t) e.node e.parsed f
  reached : e.frame.isSome = true → Reached S t b
  shape : ∀ {f}, e.frame = some f → Shape S b f

/-- The table says where the blocks stand. -/
structure Placed (S : Scene) (cur : Nat) (d : Debt) (g : Graph) (t : Table) : Prop where
  size : t.entries.size = S.blocks.size
  marks : t.marks.size = S.blocks.loopCount
  headers : ∀ {l : Nat} {h : BlockId}, S.blocks.loopHeaders[l]? = some h →
    ∃ e, t.slot? h = some e ∧ t.headers[l]? = some e.node
  distinct : ∀ {b c e e'}, t.slot? b = some e → t.slot? c = some e' → e.node = e'.node → b = c
  exits : cur ≤ S.blocks.exitBlock.index → t.exits = {}
  stands : ∀ {b e}, t.slot? b = some e → Stands S cur d g t b e

/-- What was there when the method was entered is still there. -/
structure Based (S : Scene) (g : Graph) : Prop where
  count : S.graph.nodeCount ≤ g.nodeCount
  frozen : ∀ {n}, n.index < S.graph.nodeCount → g.kind? n = S.graph.kind? n ∧
    g.inputs n = S.graph.inputs n ∧ g.incoming n = S.graph.incoming n
  phis : ∀ {n m}, g.kind? n = some (.phi m) → S.graph.nodeCount ≤ n.index →
    S.graph.nodeCount ≤ m.index

structure Inv (S : Scene) (cur : Nat) (d : Debt) (w : Work) : Prop where
  sound : w.graph.Sound (S.Open w.table) d
  placed : Placed S cur d w.graph w.table
  based : Based S w.graph

/-- What stays the same while a method is lifted. -/
class Scene.Fit (S : Scene) : Prop where
  charts : S.blocks.Charts S.body
  plain : ∀ b, S.blocks.isDispatch b → (S.blocks.block b).isLoopHeader = false
  outer : ∀ n, S.outer n → n.index < S.graph.nodeCount
  inputs : ∀ n, ∀ i ∈ S.graph.inputs n, i.index < S.graph.nodeCount
  callers : ∀ s, S.callers = some s → S.graph.Recalls S.outer s

theorem Scene.charts (S : Scene) [S.Fit] : S.blocks.Charts S.body := Fit.charts

theorem isPhiOf_iff : BuildM.isPhiOf g n m = true ↔ g.kind? n = some (.phi m) := by
  unfold BuildM.isPhiOf
  split
  · next k hk => rw [hk]; simp
  · next hk =>
    simp only [Bool.false_eq_true, false_iff]
    exact fun h => hk m h

theorem Holds.of_usable (hphi : ∀ n, g.kind? n ≠ some (.phi node))
    (hf : ∀ v ∈ f.values, g.Usable O v.node) : Holds g O node false f := by
  refine ⟨fun v hv => .inr ⟨rfl, hf v hv⟩, ?_, fun x hx => absurd hx (hphi x)⟩
  rw [List.filter_eq_nil_iff.2]
  · exact List.nodup_nil
  · exact fun n _ hn => hphi n (isPhiOf_iff.1 hn)

theorem Holds.mono {parsed : Bool}
    (h : Holds g O node parsed f) (hphi : ∀ x, g'.kind? x = some (.phi node) ↔
      g.kind? x = some (.phi node))
    (hu : ∀ n, g.Usable O n → g'.Usable O' n) : Holds g' O' node parsed f := by
  refine ⟨?_, ?_, ?_⟩
  · intro v hv
    rw [hphi]
    exact (h.each v hv).imp_right fun hp => ⟨hp.1, hu _ hp.2⟩
  · have : ∀ n, BuildM.isPhiOf g' n node = BuildM.isPhiOf g n node := by
      intro n
      rw [Bool.eq_iff_iff, isPhiOf_iff, isPhiOf_iff, hphi]
    simp only [this]
    exact h.once
  · intro x hx
    exact h.all x ((hphi x).1 hx)

theorem EntryKind.plain {l : Bool} (h : EntryKind l k) : k.isCarrier = false ∧ k.isControl = true := by
  unfold EntryKind at h
  split at h
  · obtain ⟨i, rfl⟩ := h
    exact ⟨rfl, rfl⟩
  · rcases h with rfl | rfl <;> exact ⟨rfl, rfl⟩

section Mono

variable {S : Scene} {cur : Nat} {d d' : Debt} {g g' : Graph} {t t' : Table} {e : Entry}

theorem Stands.header (h : Stands S cur d g t b e)
    (hl : (S.blocks.block b).isLoopHeader = true) : ∃ i, g.kind? e.node = some (.loopHeader i) := by
  obtain ⟨k, hk, hek⟩ := h.kind
  rw [EntryKind, if_pos hl] at hek
  obtain ⟨i, rfl⟩ := hek
  exact ⟨i, hk⟩

theorem Stands.lt (h : Stands S cur d g t b e) : e.node.index < g.nodeCount := by
  obtain ⟨k, hk, -⟩ := h.kind
  exact lt_of_kind? hk

theorem Stands.isControl (h : Stands S cur d g t b e) :
    g.kindIs e.node NodeKind.isControl = true := by
  obtain ⟨k, hk, hek⟩ := h.kind
  exact kindIs_iff.2 ⟨k, hk, hek.plain.2⟩

theorem Stands.unparsed (h : Stands S cur d g t b e) (hb : cur ≤ b.index) : e.parsed = false :=
  Bool.eq_false_iff.2 fun hp => absurd (h.parsed.1 hp).1 (Nat.not_lt_of_le hb)

theorem Stands.unlifted (h : Stands S cur d g t b e) (hp : e.parsed = false)
    (hf : e.frame = some f) : cur ≤ b.index := by
  by_contra hlt
  rw [h.parsed.2 ⟨Nat.lt_of_not_le hlt, by rw [hf]; rfl⟩] at hp
  cases hp

theorem Stands.mono (h : Stands S cur d g t b e)
    (hkind : ∀ {n k}, g.kind? n = some k → k.isCarrier = false → g'.kind? n = some k)
    (hdeg : e.frame = none → g'.inDegree e.node = g.inDegree e.node)
    (hpos : 0 < g.inDegree e.node → 0 < g'.inDegree e.node)
    (hanch : g.start = some e.node ∨ e.node ∈ d.loose →
      0 < g'.inDegree e.node ∨ g'.start = some e.node ∨ e.node ∈ d'.loose)
    (hsilent : e.parsed = false → g.outgoing e.node = [] → g'.outgoing e.node = [])
    (hphi : ∀ x, g'.kind? x = some (.phi e.node) ↔ g.kind? x = some (.phi e.node))
    (hu : ∀ n, g.Usable (S.Open t) n → g'.Usable (S.Open t') n)
    (hreach : ∀ {a e'}, t.slot? a = some e' → e'.parsed = true →
      ∃ e'', t'.slot? a = some e'' ∧ e''.parsed = true) : Stands S cur d' g' t' b e := by
  obtain ⟨k, hk, hek⟩ := h.kind
  refine ⟨h.young, ⟨k, hkind hk hek.plain.1, hek⟩, h.parsed, ?_, ?_, ?_, ?_, ?_, ?_, h.shape⟩
  · intro hf
    rw [hdeg hf]
    exact h.empty hf
  · exact fun hf => (h.anchored hf).elim (fun hd => .inl (hpos hd)) hanch
  · exact fun hf hl => hpos (h.entered hf hl)
  · exact fun hp => hsilent hp (h.silent hp)
  · exact fun hf hc => (h.holds hf hc).mono hphi hu
  · exact fun hf => (h.reached hf).mono hreach

theorem Placed.mono (h : Placed S cur d g t)
    (hkind : ∀ {n k}, g.kind? n = some k → k.isCarrier = false → g'.kind? n = some k)
    (hdeg : ∀ {b e}, t.slot? b = some e → e.frame = none → g'.inDegree e.node = g.inDegree e.node)
    (hpos : ∀ n, 0 < g.inDegree n → 0 < g'.inDegree n)
    (hanch : ∀ n, g.start = some n ∨ n ∈ d.loose →
      0 < g'.inDegree n ∨ g'.start = some n ∨ n ∈ d'.loose)
    (hsilent : ∀ n, t.Opens n → g'.outgoing n = g.outgoing n)
    (hphi : ∀ x m, g'.kind? x = some (.phi m) ↔ g.kind? x = some (.phi m))
    (hu : ∀ n, g.Usable (S.Open t) n → g'.Usable (S.Open t) n) : Placed S cur d' g' t := by
  refine ⟨h.size, h.marks, h.headers, h.distinct, h.exits, ?_⟩
  intro b e he
  refine (h.stands he).mono hkind (hdeg he) (hpos _) (hanch _) ?_ (fun x => hphi x _) hu
    fun h1 h2 => ⟨_, h1, h2⟩
  intro hp ho
  rw [hsilent _ ⟨b, e, he, hp, rfl⟩, ho]

end Mono

/-! ## Adding to the graph -/

section Add

variable {S : Scene} {cur : Nat} {d : Debt} {w : Work}
variable {a b : NodeId} {dat : Edge} {e : EdgeId} {g' : Graph}

theorem Grows.addNode (ss : List NodeId) (O : NodeSet) (g : Graph) (k : NodeKind)
    (I : List NodeId) : Grows ss O O g (g.addNode k I).2 := by
  have hold : ∀ {n : NodeId}, n.index < g.nodeCount → (g.addNode k I).2.node? n = g.node? n := by
    intro n hn
    rw [node?_addNode, if_neg]
    rintro rfl
    exact Nat.lt_irrefl _ hn
  refine ⟨by simp, .inl, fun h _ => kind?_addNode_of h, ?_, ?_, ?_, ?_,
    fun h _ _ => h, fun h => ⟨_, h, rfl, rfl⟩, rfl⟩
  · intro n k hn hk
    rwa [kind?, hold hn] at hk
  · intro n k hn _
    rw [inputs_congr (hold hn)]
    exact ⟨List.prefix_rfl, fun _ => rfl⟩
  · intro n _ _
    rw [incoming_addNode]
    exact ⟨List.prefix_rfl, fun _ _ _ => rfl⟩
  · intro n _ _ _
    simp

theorem Based.addNode (h : Based S g) (hk : ∀ m, k = .phi m → S.graph.nodeCount ≤ m.index) :
    Based S (g.addNode k I).2 := by
  have hg := Grows.addNode [] (fun _ => False) g k I
  refine ⟨Nat.le_trans h.count hg.count, ?_, ?_⟩
  · intro n hn
    obtain ⟨h1, h2, h3⟩ := h.frozen hn
    have hne : n ≠ ⟨g.nodeCount⟩ := by
      rintro rfl
      exact Nat.lt_irrefl _ (Nat.lt_of_lt_of_le hn h.count)
    rw [kind?_addNode, if_neg hne, incoming_addNode]
    refine ⟨h1, ?_, h3⟩
    rw [← h2]
    exact inputs_congr (by rw [node?_addNode, if_neg hne])
  · intro n m hm hn
    rw [kind?_addNode] at hm
    split at hm
    · exact hk m (Option.some.inj hm)
    · exact h.phis hm hn

theorem Inv.addNode (h : Inv S cur d w) (hk : ∀ m, k ≠ .phi m)
    (hf : w.graph.Fits (S.Open w.table) d k I) (hl : d.late = []) :
    Inv S cur (d.add k ⟨w.graph.nodeCount⟩) { w with graph := (w.graph.addNode k I).2 } := by
  refine ⟨h.sound.addNode hf (by simp [hl]), ?_, h.based.addNode fun m hm => absurd hm (hk m)⟩
  refine h.placed.mono (fun h _ => kind?_addNode_of h) ?_ ?_ ?_ (fun n _ => by simp) ?_ ?_
  · intro b e _ _
    simp [inDegree]
  · intro n hn
    simpa [inDegree] using hn
  · intro n hn
    refine .inr (hn.imp_right fun hl => ?_)
    simp only [Debt.add]
    split
    · exact List.mem_cons_of_mem _ hl
    · exact hl
  · intro x m
    constructor
    · intro hx
      rw [kind?_addNode] at hx
      split at hx
      · exact absurd (Option.some.inj hx) (hk m)
      · exact hx
    · exact kind?_addNode_of
  · exact fun n hn => hn.of_kind? fun _ => kind?_addNode_of

theorem Grows.links {ss : List NodeId} (h : Links g g' a b dat e) (ha : a ∈ ss)
    (hb : b ∈ ss ∨ O b ∨ ∃ i, g.kind? b = some (.loopHeader i)) : Grows ss O O g g' := by
  have hk : ∀ n, g'.kind? n = g.kind? n := fun n => kind?_congr (h.node? n)
  refine ⟨Nat.le_of_eq h.nodeCount.symm, .inl, fun hn _ => by rw [hk, hn], ?_, ?_, ?_, ?_,
    fun hx _ _ => h.old hx, fun hx => ⟨_, h.old hx, rfl, rfl⟩, h.start⟩
  · intro n k _ hn
    rwa [hk] at hn
  · intro n k _ _
    rw [inputs_congr (h.node? n)]
    exact ⟨List.prefix_rfl, fun _ => rfl⟩
  · intro n _ _
    rw [h.incoming]
    split
    · next hnb =>
      subst hnb
      refine ⟨List.prefix_append _ _, fun hs hO hl => ?_⟩
      rcases hb with hb | hb | ⟨i, hi⟩
      · exact absurd hb hs
      · exact absurd hb hO
      · exact absurd hi (hl i)
    · exact ⟨List.prefix_rfl, fun _ _ _ => rfl⟩
  · intro n _ hns _
    rw [h.outgoing, if_neg]
    rintro rfl
    exact hns ha

theorem Based.links (h : Based S g) (hl : Links g g' a b dat e) (hb : S.graph.nodeCount ≤ b.index) :
    Based S g' := by
  have hk : ∀ n, g'.kind? n = g.kind? n := fun n => kind?_congr (hl.node? n)
  refine ⟨by rw [hl.nodeCount]; exact h.count, ?_, ?_⟩
  · intro n hn
    obtain ⟨h1, h2, h3⟩ := h.frozen hn
    have hne : n ≠ b := by
      rintro rfl
      exact absurd hn (Nat.not_lt_of_le hb)
    rw [hk, hl.incoming, if_neg hne]
    exact ⟨h1, by rw [← h2, inputs_congr (hl.node? n)], h3⟩
  · intro n m hm
    rw [hk] at hm
    exact h.phis hm

theorem Inv.link {loose : List NodeId} (h : Inv S cur d w) (hl : Links w.graph g' a b dat e)
    (hdat : dat.source = a ∧ dat.target = b) (ha : w.graph.Firm (S.Open w.table) d a)
    (hb : w.graph.kindIs b NodeKind.isControl = true)
    (hbm : w.graph.kindIs b NodeKind.isMerge = false) (hby : S.graph.nodeCount ≤ b.index)
    (hloose : ∀ x ∈ d.loose, x = b ∨ x ∈ loose) :
    Inv S cur { d with loose } { w with graph := g' } := by
  have hk : ∀ n, g'.kind? n = w.graph.kind? n := fun n => kind?_congr (hl.node? n)
  have hdeg : ∀ n, w.graph.inDegree n ≤ g'.inDegree n := by
    intro n
    simp only [inDegree, hl.incoming]
    split <;> simp
  refine ⟨?_, ?_, h.based.links hl hby⟩
  · exact h.sound.link hl hdat ha.1 ha.2.2 hb hloose (.inl ⟨hbm, rfl⟩)
  · refine h.placed.mono (fun hn _ => by rw [hk, hn]) ?_
      (fun n hn => Nat.lt_of_lt_of_le hn (hdeg n)) ?_ ?_ (fun x m => by rw [hk]) ?_
    · intro c e he hf
      have hne : e.node ≠ b := by
        rintro rfl
        obtain ⟨i, hkn⟩ := (h.placed.stands he).header ((h.placed.stands he).empty hf).1
        rw [kindIs_of_kind? hkn] at hbm
        cases hbm
      simp only [inDegree, hl.incoming, if_neg hne]
    · intro n hn
      rw [hl.start]
      rcases hn with hn | hn
      · exact .inr (.inl hn)
      · rcases hloose n hn with rfl | hn
        · left
          simp [inDegree, hl.incoming]
        · exact .inr (.inr hn)
    · intro n hO
      rw [hl.outgoing, if_neg]
      rintro rfl
      exact ha.2.1 (.inl hO)
    · exact fun n hn => hn.of_kind? fun k hkn => by rw [hk, hkn]

theorem Inv.setSnapshot {s : Snapshot} {bare : List NodeId} (h : Inv S cur d w)
    (hb : ∀ x ∈ d.bare, x = n ∨ x ∈ bare) (hs : w.graph.Recalls (S.Open w.table) s) :
    Inv S cur { d with bare }
      { w with graph := w.graph.modifyNode n fun x => { x with snapshot := some s } } := by
  have hk : ∀ m, (w.graph.modifyNode n fun x => { x with snapshot := some s }).kind? m =
      w.graph.kind? m := fun m => kind?_modifyNode fun _ => rfl
  refine ⟨h.sound.setSnapshot hb hs, ?_, ⟨?_, ?_, ?_⟩⟩
  · refine h.placed.mono (fun hn _ => by rw [hk, hn]) ?_ ?_ (fun _ => .inr) (fun n _ => by simp)
      (fun x m => by rw [hk]) fun n hn => hn.of_kind? fun k hkn => by rw [hk, hkn]
    · intro b e _ _
      simp [inDegree]
    · intro m hm
      simpa [inDegree] using hm
  · rw [nodeCount_modifyNode]
    exact h.based.count
  · intro m hm
    obtain ⟨h1, h2, h3⟩ := h.based.frozen hm
    rw [hk, incoming_modifyNode]
    exact ⟨h1, (inputs_setSnapshot s).trans h2, h3⟩
  · intro m c hm
    rw [hk] at hm
    exact h.based.phis hm

theorem Grows.setSnapshot (ss : List NodeId) (O : NodeSet) (g : Graph) (n : NodeId)
    (s : Snapshot) : Grows ss O O g (g.modifyNode n fun x => { x with snapshot := some s }) := by
  have hk : ∀ m, (g.modifyNode n fun x => { x with snapshot := some s }).kind? m = g.kind? m :=
    fun m => kind?_modifyNode fun _ => rfl
  refine ⟨by simp, .inl, fun hn _ => by rw [hk, hn], fun _ hn => by rwa [hk] at hn, ?_, ?_, ?_,
    fun h _ _ => h, fun h => ⟨_, h, rfl, rfl⟩, rfl⟩
  · intro m k _ _
    rw [inputs_setSnapshot]
    exact ⟨List.prefix_rfl, fun _ => rfl⟩
  · intro m _ _
    rw [incoming_modifyNode]
    exact ⟨List.prefix_rfl, fun _ _ _ => rfl⟩
  · intro m _ _ _
    simp

end Add

end StackLift
