import StackLift.Proofs.FrameValues
import StackLift.Proofs.Invariant

/-!
# The small actions of a build

Each action that adds to the graph keeps the invariant and takes its debts along: a new control node
is loose until an edge leads to it, and bare until it has its snapshot.
-/
namespace StackLift

variable {f : Frame} {g' g : Graph} {I L ss' : List NodeId} {a b n : NodeId} {k : NodeKind}
  {t t' t'' : Table}
  {w' w : Work}

open Graph hiding addEdge addNode addPhiInput kindIs setSnapshot

/-- Everything that the frame holds can be used. -/
def Graph.Backs (g : Graph) (O : NodeSet) (f : Frame) : Prop :=
  ∀ v ∈ f.values, g.Usable O v.node

/-- The debts of a graph whose phis have all their inputs. -/
def owe (bare loose : List NodeId) : Debt := ⟨bare, loose, [], none⟩

/-- What is parsed stays parsed. -/
def Table.Keeps (t t' : Table) : Prop :=
  ∀ b e, t.slot? b = some e → e.parsed = true →
    ∃ e', t'.slot? b = some e' ∧ e'.parsed = true ∧ e'.node = e.node

/-- What every action may do, seen from the outside. -/
structure Evolves (S : Scene) (ss : List NodeId) (w w' : Work) : Prop where
  grows : Grows ss (S.Open w.table) (S.Open w'.table) w.graph w'.graph
  keeps : w.table.Keeps w'.table

/-- An action that touches none of the values in use. -/
structure Extends (S : Scene) (ss : List NodeId) (w w' : Work) : Prop extends Evolves S ss w w' where
  usable : ∀ n, w.graph.Usable (S.Open w.table) n → w'.graph.Usable (S.Open w'.table) n

theorem Table.Keeps.refl (t : Table) : t.Keeps t := fun _ _ he hp => ⟨_, he, hp, rfl⟩

theorem Table.Keeps.trans (h : t.Keeps t') (h' : t'.Keeps t'') : t.Keeps t'' := by
  intro b e he hp
  obtain ⟨e', he', hp', hn'⟩ := h b e he hp
  obtain ⟨e'', he'', hp'', hn''⟩ := h' b e' he' hp'
  exact ⟨e'', he'', hp'', hn''.trans hn'⟩

theorem Table.Keeps.parsed (h : t.Keeps t') {b : BlockId} {e : Entry} (he : t.slot? b = some e)
    (hp : e.parsed = true) : ∃ e', t'.slot? b = some e' ∧ e'.parsed = true := by
  obtain ⟨e', he', hp', -⟩ := h b e he hp
  exact ⟨e', he', hp'⟩

namespace Evolves

variable {S : Scene} {ss : List NodeId} {w w' w'' : Work}

theorem refl (S : Scene) (ss : List NodeId) (w : Work) : Evolves S ss w w :=
  ⟨.refl _ _ _, .refl _⟩

theorem trans (h : Evolves S ss w w') (h' : Evolves S ss w' w'') : Evolves S ss w w'' :=
  ⟨h.grows.trans h'.grows, h.keeps.trans h'.keeps⟩

theorem mono (h : Evolves S ss w w')
    (hs : ∀ n ∈ ss, n ∈ ss' ∨ S.Open w.table n ∨ w.graph.nodeCount ≤ n.index) :
    Evolves S ss' w w' := ⟨h.grows.mono hs, h.keeps⟩

theorem weaken (h : Evolves S ss w w') (hs : ss ⊆ ss') : Evolves S ss' w w' :=
  h.mono fun _ hn => .inl (hs hn)

end Evolves

namespace Extends

variable {S : Scene} {ss : List NodeId} {w w' w'' : Work}

theorem refl (S : Scene) (ss : List NodeId) (w : Work) : Extends S ss w w :=
  ⟨.refl _ _ _, fun _ h => h⟩

theorem trans (h : Extends S ss w w') (h' : Extends S ss w' w'') : Extends S ss w w'' :=
  ⟨h.toEvolves.trans h'.toEvolves, fun n hn => h'.usable n (h.usable n hn)⟩

theorem mono (h : Extends S ss w w')
    (hs : ∀ n ∈ ss, n ∈ ss' ∨ S.Open w.table n ∨ w.graph.nodeCount ≤ n.index) :
    Extends S ss' w w' := ⟨h.toEvolves.mono hs, h.usable⟩

theorem weaken (h : Extends S ss w w') (hs : ss ⊆ ss') : Extends S ss' w w' :=
  h.mono fun _ hn => .inl (hs hn)

theorem backs (h : Extends S ss w w') (hf : w.graph.Backs (S.Open w.table) f) :
    w'.graph.Backs (S.Open w'.table) f := fun v hv => h.usable _ (hf v hv)

theorem of_table (ht : w'.table = w.table)
    (hg : Grows ss (S.Open w.table) (S.Open w.table) w.graph w'.graph)
    (hu : ∀ n, w.graph.Usable (S.Open w.table) n → w'.graph.Usable (S.Open w.table) n) :
    Extends S ss w w' := by
  refine ⟨⟨?_, ?_⟩, ?_⟩ <;> rw [ht]
  · exact hg
  · exact .refl _
  · exact hu

end Extends

/-- Kinds that name no other node. -/
def NodeKind.refers : NodeKind → Bool
  | .phi _ | .proxy _ | .loopEnd _ | .loopExit _ => true
  | _ => false

theorem Graph.Fits.plain {O : NodeSet} {d : Debt} (hk : k.refers = false)
    (hin : ∀ i ∈ I, g.Usable O i) : g.Fits O d k I := by
  refine ⟨hin, ?_, ?_, ?_⟩
  · rintro m rfl
    cases hk
  · rintro m rfl
    cases hk
  · rintro m (rfl | rfl) <;> cases hk

/-- The outcome of adding node `n` of kind `k`. -/
structure New (w : Work) (k : NodeKind) (I : List NodeId) (n : NodeId) (w' : Work) : Prop where
  graph : w'.graph = (w.graph.addNode k I).2
  fresh : n.index = w.graph.nodeCount
  node : w'.graph.node? n = some { kind := k, inputs := I }
  incoming : w'.graph.incoming n = []
  outgoing : w'.graph.outgoing n = []
  table : w'.table = w.table

theorem New.kind (h : New w k I n w') : w'.graph.kind? n = some k :=
  kind?_of_node? h.node

namespace Graph

variable {g : Graph} {O : NodeSet} {n : NodeId}

theorem incoming_of_le (h : g.nodeCount ≤ n.index) : g.incoming n = [] := by
  rw [incoming_eq, Array.getElem?_eq_none h]
  rfl

theorem outgoing_of_le (h : g.nodeCount ≤ n.index) : g.outgoing n = [] := by
  rw [outgoing_eq, Array.getElem?_eq_none h]
  rfl

end Graph

open BuildM

section Specs

variable {E : Error → Prop} {S : Scene} {cur : Nat} {d : Debt} {w : Work}
variable {I bare loose ss D : List NodeId} {O O' : NodeSet} {g : Graph} {k : NodeKind} {n : NodeId}

/-! ## Nodes -/

theorem addNode_spec (h : Inv S cur d w)
    (hk : ∀ m, k ≠ .phi m) (hf : w.graph.Fits (S.Open w.table) d k I) (hl : d.late = []) :
    Ensures E (addNode k I) S w fun n w' =>
      Inv S cur (d.add k n) w' ∧ Extends S [] w w' ∧ New w k I n w' := by
  refine ensures_addNode ⟨h.addNode hk hf hl,
    .of_table rfl (.addNode _ _ _ _ _) ?_, rfl, rfl, ?_, ?_, ?_, rfl⟩
  · exact fun n hn => hn.of_kind? fun _ => kind?_addNode_of
  · rw [node?_addNode, if_pos rfl]
  · rw [incoming_addNode]
    exact incoming_of_le (Nat.le_refl _)
  · rw [outgoing_addNode]
    exact outgoing_of_le (Nat.le_refl _)

theorem addData_spec
    (h : Inv S cur (owe bare loose) w) (hk : k.refers = false) (hc : k.isControl = false)
    (hin : ∀ i ∈ I, w.graph.Usable (S.Open w.table) i) : Ensures E (addNode k I) S w fun n w' =>
      Inv S cur (owe bare loose) w' ∧ Extends S [] w w' ∧ New w k I n w' := by
  refine (addNode_spec h (by rintro m rfl; cases hk) (.plain hk hin) rfl).mono fun n w' h' => ?_
  have : (owe bare loose).add k n = owe bare loose := by
    cases k <;> first | rfl | cases hc
  rwa [this] at h'

/-! ## Edges -/

/-- A node that an edge can be led to. -/
structure Stub (S : Scene) (g : Graph) (n : NodeId) : Prop where
  young : S.graph.nodeCount ≤ n.index
  control : g.kindIs n NodeKind.isControl = true
  flat : g.kindIs n NodeKind.isMerge = false

theorem Stub.of_kind (hy : S.graph.nodeCount ≤ n.index)
    (hk : g.kind? n = some k) (hc : k.isControl = true) (hm : k.isMerge = false) : Stub S g n :=
  ⟨hy, by rw [kindIs_of_kind? hk, hc], by rw [kindIs_of_kind? hk, hm]⟩

theorem Stub.contains (h : Stub S g n) : g.contains n = true := contains_of_kindIs h.control

theorem Stub.kind? (h : Stub S g n) :
    ∃ k, g.kind? n = some k ∧ k.isControl = true ∧ k.isMerge = false := by
  obtain ⟨k, hk, hc⟩ := kindIs_iff.1 h.control
  refine ⟨k, hk, hc, ?_⟩
  rw [← kindIs_of_kind? hk (p := NodeKind.isMerge)]
  exact h.flat

theorem Stub.mono (h : Stub S g n) (hg : Grows ss O O' g g') : Stub S g' n := by
  obtain ⟨k, hk, hc, hm⟩ := h.kind?
  exact .of_kind h.young (hg.kind hk (by cases k <;> first | rfl | cases hc)) hc hm

theorem Graph.Firm.contains (h : g.Firm O d n) : g.contains n = true := contains_of_kindIs h.1

theorem addEdge_spec {k : EdgeKind} {p : Float} (h : Inv S cur (owe bare loose) w)
    (ha : w.graph.Firm (S.Open w.table) (owe bare loose) a) (hb : Stub S w.graph b)
    (hl : ∀ x ∈ loose, x = b ∨ x ∈ L) : Ensures E (addEdge a b k p) S w fun _ w' =>
      Inv S cur (owe bare L) w' ∧ Extends S [a, b] w w' ∧ w'.table = w.table ∧
        ∃ e, Links w.graph w'.graph a b ⟨a, b, k, p⟩ e := by
  obtain ⟨g', hg', hlinks⟩ := Graph.addEdge_spec (ha.contains) hb.contains k p
  refine ensures_changeGraph (g := g') (a := ()) ?_ ?_
  · simp only [hg', bind, Except.bind, pure, Except.pure]
  · refine ⟨h.link hlinks ⟨rfl, rfl⟩ ha hb.control hb.flat hb.young hl,
      .of_table rfl ?_ ?_, rfl, _, hlinks⟩
    · exact .links hlinks (by simp) (.inl (by simp))
    · exact fun n hn => hn.of_kind? fun k hk => by
        rw [kind?_congr (hlinks.node? n), hk]

theorem Graph.Links.firm {dat : Edge} {e : EdgeId} (h : Links g g' a b dat e)
    (hb : g.kindIs b NodeKind.isControl = true) (hO : ¬ O b) : g'.Firm O d b := by
  obtain ⟨k, hk, hc⟩ := kindIs_iff.1 hb
  refine ⟨kindIs_iff.2 ⟨k, by rw [kind?_congr (h.node? b), hk], hc⟩, hO, .inl ?_⟩
  simp [inDegree, h.incoming]

/-! ## Snapshots -/

theorem Inv.recalls {s : Snapshot} [S.Fit] (h : Inv S cur d w)
    (hs : S.callers = some s) : w.graph.Recalls (S.Open w.table) s := by
  intro a ha v hv
  obtain ⟨k, hk, hp, hO⟩ := Scene.Fit.callers s hs a ha v hv
  have hk' : w.graph.kind? v.node = some k := (h.based.frozen (lt_of_kind? hk)).1.trans hk
  refine ⟨k, hk', hp, ?_⟩
  rintro m rfl (hopen | houter)
  · obtain ⟨b, e, he, -, rfl⟩ := hopen
    have hlt := lt_of_kind? hk
    have h1 := h.sound.phi_lt hk'
    have h2 := (h.placed.stands he).young
    omega
  · exact hO m rfl houter

theorem recalls_snapshot {p : Position} [S.Fit] (h : Inv S cur d w)
    (hf : w.graph.Backs (S.Open w.table) f) : w.graph.Recalls (S.Open w.table) (S.snapshot f p) := by
  intro a ha v hv
  simp only [Scope.snapshot, Frame.snapshot, Snapshot.chain, List.mem_cons] at ha
  rcases ha with rfl | ha
  · exact hf v hv
  · cases hs : S.callers with
    | none => simp [hs] at ha
    | some s =>
      rw [hs] at ha
      exact h.recalls hs a ha v hv

theorem Inv.weaken (h : Inv S cur (owe bare loose) w) (hb : bare ⊆ D) (hl : loose ⊆ L) :
    Inv S cur (owe D L) w := by
  refine ⟨?_, ?_, h.based⟩
  · refine h.sound.adjust (fun m hm _ => hm) ?_ ?_ (fun _ _ => rfl) fun _ hm => .inl (hb hm)
    · exact fun _ _ _ hO => hO.imp_right fun hm => .inl (hb hm)
    · exact fun _ _ hm => .inr (.inl (hl hm))
  · exact h.placed.mono (fun hk _ => hk) (fun _ _ => rfl) (fun _ hn => hn)
      (fun _ hn => .inr (hn.imp_right fun hm => hl hm)) (fun _ _ => rfl)
      (fun _ _ => Iff.rfl) fun _ hn => hn

/-! ## Where control goes on -/

theorem Inv.open_lt [S.Fit] (h : Inv S cur d w)
    (hn : S.Open w.table n) : n.index < w.graph.nodeCount := by
  rcases hn with ⟨b, e, he, -, rfl⟩ | hn
  · exact (h.placed.stands he).lt
  · exact Nat.lt_of_lt_of_le (Scene.Fit.outer n hn) h.based.count

theorem New.firm {d' : Debt} [S.Fit] (h : Inv S cur d w) (hnew : New w k I n w')
    (hk : k.isControl = true) (hl : n ∈ d'.loose) : w'.graph.Firm (S.Open w'.table) d' n := by
  refine ⟨kindIs_iff.2 ⟨k, hnew.kind, hk⟩, fun hO => ?_, .inr (.inr hl)⟩
  rw [hnew.table] at hO
  have := h.open_lt hO
  rw [hnew.fresh] at this
  exact Nat.lt_irrefl _ this

theorem New.stub (h : Inv S cur d w) (hnew : New w k I n w') (hk : k.isControl = true)
    (hm : k.isMerge = false) : Stub S w'.graph n :=
  .of_kind (by rw [hnew.fresh]; exact h.based.count) hnew.kind hk hm

end Specs

end StackLift
