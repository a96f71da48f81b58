import StackLift.Proofs.Preserves
import StackLift.Proofs.Removal
import StackLift.Proofs.Shed

/-!
# What a report says about a graph

A report accounts for some nodes of the graph: the calls, and the deoptimizations that stand for
something that did not resolve or that was not to be lifted. `Graph.reported` lists them. A report also
tells what was inlined where, and so does every snapshot: its `outline` is the method it was taken in, and
the places of the calls that lead there.

`Graph.Ages` is all that the operations of a build have in common: nodes are added or removed, but never
turned into others. `Graph.Drifts` adds that every snapshot that was not there before has the outline of
the method that is being lifted.
-/
namespace StackLift

/-! ## Outlines -/

/-- The method of a frame, and the places of its callers, the nearest first. -/
structure Outline where
  method : MethodId
  callers : List (MethodId × Position) := []
deriving DecidableEq, Repr

namespace Outline

/-- The methods of all frames, the innermost first. -/
def methods (o : Outline) : List MethodId := o.method :: o.callers.map (·.1)

/-- The inlinings that lead to `m`, called from `callers`. -/
def inliningsInto (m : MethodId) : List (MethodId × Position) → List Inlining
  | [] => []
  | (caller, position) :: rest =>
    { method := m, caller, position, depth := rest.length + 1 } :: inliningsInto caller rest

/-- The inlinings that an outline is the result of. -/
def inlinings (o : Outline) : List Inlining := inliningsInto o.method o.callers

end Outline

def Activation.place (a : Activation) : MethodId × Position := (a.method, a.position)

def Snapshot.outline (s : Snapshot) : Outline := ⟨s.method, s.callers.map Activation.place⟩

def Scope.outline (sc : Scope) : Outline :=
  ⟨sc.id, sc.callers.elim [] fun s => s.chain.map Activation.place⟩

theorem Scope.outline_snapshot (sc : Scope) (f : Frame) (p : Position) :
    (sc.snapshot f p).outline = sc.outline := by
  unfold Scope.snapshot Frame.snapshot Scope.outline
  cases sc.callers <;> rfl

theorem Snapshot.outline_withoutLocals? {s s' : Snapshot} {dead : List NodeId}
    (h : s.withoutLocals? dead = some s') : s'.outline = s.outline := by
  have hdrop : ∀ {a a' : Activation}, ((a.frame.withoutLocals? dead).bind fun f =>
      some { a with frame := f }) = some a' → a'.place = a.place := by
    intro a a' ha
    obtain ⟨f, -, ha⟩ := Option.bind_eq_some_iff.1 ha
    cases ha
    rfl
  have hall : ∀ {l l' : List Activation}, l.mapM (fun a => (a.frame.withoutLocals? dead).bind fun f =>
      some { a with frame := f }) = some l' → l'.map Activation.place = l.map Activation.place := by
    intro l
    induction l with
    | nil =>
      intro l' hl
      cases hl
      rfl
    | cons a l ih =>
      intro l' hl
      rw [List.mapM_cons] at hl
      obtain ⟨b, hb, hl⟩ := Option.bind_eq_some_iff.1 hl
      obtain ⟨bs, hbs, hl⟩ := Option.bind_eq_some_iff.1 hl
      cases hl
      rw [List.map_cons, List.map_cons, hdrop hb, ih hbs]
  unfold withoutLocals? at h
  obtain ⟨inner, hinner, h⟩ := Option.bind_eq_some_iff.1 h
  obtain ⟨callers, hcallers, h⟩ := Option.bind_eq_some_iff.1 h
  cases h
  show Outline.mk inner.method (callers.map Activation.place) = ⟨s.inner.method,
    s.callers.map Activation.place⟩
  rw [hall hcallers, show inner.method = s.inner.method from congrArg Prod.fst (hdrop hinner)]

/-! ## Reported nodes -/

namespace Graph

variable {g g' g'' : Graph} {n v a b : NodeId} {o : Outline} {e : EdgeId}

/-- The kinds of the live nodes, oldest first. -/
def kinds (g : Graph) : List NodeKind := g.liveNodes.map (·.2.kind)

/-- The kinds of the live nodes that a report accounts for. -/
def reported (g : Graph) : List NodeKind := g.kinds.filter NodeKind.isReported

theorem kinds_eq (g : Graph) : g.kinds = (List.range g.nodeCount).filterMap fun i => g.kind? ⟨i⟩ := by
  have hzip : g.slots.toList.zipIdx = (List.range g.nodeCount).map fun i => (g.slots[i]!, i) := by
    refine List.ext_getElem (by simp [nodeCount]) fun i h1 h2 => ?_
    have hi : i < g.slots.size := by simpa using h1
    simp [hi]
  unfold kinds liveNodes
  rw [hzip, List.filterMap_map, List.map_filterMap]
  refine List.filterMap_congr fun i hi => ?_
  have hi : i < g.slots.size := by simpa [nodeCount] using hi
  simp [kind?, node?, hi, Function.comp_def, Option.map_map]

theorem reported_eq (g : Graph) : g.reported =
    (List.range g.nodeCount).filterMap fun i => (g.kind? ⟨i⟩).filter NodeKind.isReported := by
  rw [reported, kinds_eq, List.filter_filterMap]

theorem reported_congr (hcount : g'.nodeCount = g.nodeCount)
    (hkind : ∀ n, (g'.kind? n).filter NodeKind.isReported = (g.kind? n).filter NodeKind.isReported) :
    g'.reported = g.reported := by
  rw [reported_eq, reported_eq, hcount]
  exact List.filterMap_congr fun i _ => hkind _

/-- The node is there or was there, and no report accounts for it. -/
structure Unreported (g : Graph) (n : NodeId) : Prop where
  lt : n.index < g.nodeCount
  kind : ∀ {k}, g.kind? n = some k → k.isReported = false

/-! ## Drift -/

/-- A node stays what it is until it is removed. -/
structure Ages (g g' : Graph) : Prop where
  count : g.nodeCount ≤ g'.nodeCount
  kind : ∀ {n k}, n.index < g.nodeCount → g'.kind? n = some k → g.kind? n = some k

theorem Ages.refl (g : Graph) : g.Ages g := ⟨le_refl _, fun _ h => h⟩

theorem Ages.trans (h : g.Ages g') (h' : g'.Ages g'') : g.Ages g'' :=
  ⟨h.count.trans h'.count, fun hn hk => h.kind hn (h'.kind (Nat.lt_of_lt_of_le hn h.count) hk)⟩

theorem Unreported.ages (h : g.Unreported n) (ha : g.Ages g') : g'.Unreported n :=
  ⟨Nat.lt_of_lt_of_le h.lt ha.count, fun hk => h.kind (ha.kind h.lt hk)⟩

/-- What a build in the method of outline `o` does to a graph. -/
structure Drifts (o : Outline) (g g' : Graph) : Prop extends Ages g g' where
  snapshot : ∀ {n s}, g'.snapshot? n = some s →
    s.outline = o ∨ ∃ t, g.snapshot? n = some t ∧ t.outline = s.outline

theorem Drifts.refl (o : Outline) (g : Graph) : g.Drifts o g :=
  ⟨.refl g, fun h => .inr ⟨_, h, rfl⟩⟩

theorem Drifts.trans (h : g.Drifts o g') (h' : g'.Drifts o g'') : g.Drifts o g'' := by
  refine ⟨h.toAges.trans h'.toAges, fun {n s} hs => ?_⟩
  rcases h'.snapshot hs with hs | ⟨t, ht, hts⟩
  · exact .inl hs
  · rcases h.snapshot ht with ht | ⟨u, hu, hut⟩
    · exact .inl (hts ▸ ht)
    · exact Or.inr ⟨u, hu, hut.trans hts⟩

theorem unreported_of_kind? {k : NodeKind} (h : g.kind? n = some k) (hk : k.isReported = false) :
    g.Unreported n := by
  refine ⟨lt_of_kind? h, fun {k'} h' => ?_⟩
  rw [h, Option.some.injEq] at h'
  rwa [← h']

theorem drifts_of_nodes (hcount : g'.nodeCount = g.nodeCount) (hnode : ∀ n, g'.node? n = g.node? n) :
    g.Drifts o g' ∧ g'.reported = g.reported := by
  have hkind : ∀ n, g'.kind? n = g.kind? n := fun n => kind?_congr (hnode n)
  refine ⟨⟨⟨hcount.ge, fun {n k} _ hk => hkind n ▸ hk⟩, fun {n s} hs => .inr ⟨s, ?_, rfl⟩⟩,
    reported_congr hcount fun n => by rw [hkind]⟩
  rw [snapshot?, hnode] at hs
  exact hs

theorem drifts_addNode (k : NodeKind) (I : List NodeId) : g.Drifts o (g.addNode k I).2 ∧
      (g.addNode k I).2.reported = g.reported ++ [k].filter NodeKind.isReported := by
  have hold : ∀ {n : NodeId}, n.index < g.nodeCount → (g.addNode k I).2.node? n = g.node? n := by
    intro n hn
    rw [node?_addNode, if_neg]
    rintro rfl
    exact Nat.lt_irrefl _ hn
  have hnew : (g.addNode k I).2.node? ⟨g.nodeCount⟩ = some { kind := k, inputs := I } := by
    rw [node?_addNode, if_pos rfl]
  refine ⟨⟨⟨by simp, fun hn hk => kind?_congr (hold hn) ▸ hk⟩, fun {n s} hs => .inr ⟨s, ?_, rfl⟩⟩, ?_⟩
  · rw [snapshot?, node?_addNode] at hs
    split at hs
    · cases hs
    · exact hs
  · rw [reported_eq, reported_eq, nodeCount_addNode, List.range_succ, List.filterMap_append]
    congr 1
    · refine List.filterMap_congr fun i hi => ?_
      rw [kind?_congr (hold (List.mem_range.1 hi))]
    · simp only [List.filterMap_cons, List.filterMap_nil, kind?, hnew, Option.map_some, List.filter_cons,
        List.filter_nil, Option.filter]
      cases k.isReported <;> rfl

theorem drifts_modifyNode {f : Node → Node} (hkind : ∀ x, (f x).kind = x.kind)
    (hsnap : ∀ x s, g.node? n = some x → (f x).snapshot = some s →
      s.outline = o ∨ ∃ t, x.snapshot = some t ∧ t.outline = s.outline) :
    g.Drifts o (g.modifyNode n f) ∧ (g.modifyNode n f).reported = g.reported := by
  have hk : ∀ m, (g.modifyNode n f).kind? m = g.kind? m := by
    intro m
    rw [kind?, node?_modifyNode]
    split
    · rw [kind?, Option.map_map]
      exact congrArg (fun φ => Option.map φ _) (funext hkind)
    · rfl
  refine ⟨⟨⟨by simp, fun {m k} _ h => hk m ▸ h⟩, fun {m s} hs => ?_⟩,
    reported_congr (by simp) fun m => by rw [hk]⟩
  rw [snapshot?, node?_modifyNode] at hs
  split at hs
  · next hm =>
    subst hm
    obtain ⟨x, hx, hxs⟩ := Option.bind_eq_some_iff.1 hs
    obtain ⟨y, hy, rfl⟩ := Option.map_eq_some_iff.1 hx
    refine (hsnap y s hy hxs).imp_right fun h => ?_
    obtain ⟨t, ht, hts⟩ := h
    exact ⟨t, by rw [snapshot?, hy]; exact ht, hts⟩
  · exact .inr ⟨s, hs, rfl⟩

/-! ## Operations -/

theorem addPhiInput_drifts (h : g.addPhiInput n v = .ok g') :
    g.Drifts o g' ∧ g'.reported = g.reported := by
  unfold addPhiInput at h
  split at h
  · cases h
  · cases h
    exact drifts_modifyNode (fun _ => rfl) fun x s _ hs => .inr ⟨s, hs, rfl⟩
  · cases h

theorem setSnapshot_drifts {s : Snapshot} (h : g.setSnapshot n s = .ok g')
    (hs : s.outline = o ∨ ∃ t, g.snapshot? n = some t ∧ t.outline = s.outline) :
    g.Drifts o g' ∧ g'.reported = g.reported := by
  unfold setSnapshot at h
  split at h
  · cases h
    refine drifts_modifyNode (fun _ => rfl) fun x s' hx hs' => ?_
    cases hs'
    refine hs.imp_right fun h => ?_
    obtain ⟨t, ht, hts⟩ := h
    rw [snapshot?, hx] at ht
    exact ⟨t, ht, hts⟩
  · cases h

theorem addEdge_drifts {k : EdgeKind} {p : Float}
    (h : g.addEdge a b k p = .ok (e, g')) : g.Drifts o g' ∧ g'.reported = g.reported := by
  cases ha : g.contains a with
  | false => simp [addEdge, ha] at h
  | true =>
    cases hb : g.contains b with
    | false => simp [addEdge, ha, hb] at h
    | true =>
      obtain ⟨h', heq, hl⟩ := addEdge_spec ha hb k p
      rw [heq] at h
      cases h
      exact drifts_of_nodes hl.nodeCount hl.node?

theorem retarget_drifts (h : g.retarget e n = .ok g') :
    g.Drifts o g' ∧ g'.reported = g.reported := by
  cases hn : g.contains n with
  | false => simp [retarget, hn] at h
  | true =>
    cases hd : g.edge? e with
    | none => simp [retarget, hn, hd] at h
    | some d =>
      obtain ⟨h', heq, hm⟩ := retarget_spec hn hd
      rw [heq] at h
      cases h
      exact drifts_of_nodes hm.nodeCount hm.node?

theorem removeNode_drifts (g : Graph) (n : NodeId) : g.Drifts o (g.removeNode n) := by
  obtain ⟨hcount, hnode⟩ := g.removeNode_spec n
  refine ⟨⟨hcount.ge, fun {m k} _ hk => ?_⟩, fun {m s} hs => .inr ⟨s, ?_, rfl⟩⟩
  · rw [kind?, hnode] at hk
    split at hk
    · cases hk
    · exact hk
  · rw [snapshot?, hnode] at hs
    split at hs
    · cases hs
    · exact hs

theorem reported_removeNode (h : g.Unreported n) : (g.removeNode n).reported = g.reported := by
  obtain ⟨hcount, hnode⟩ := g.removeNode_spec n
  refine reported_congr hcount fun m => ?_
  rw [kind?, hnode]
  split
  · next hm =>
    subst hm
    cases hk : g.kind? m with
    | none => rfl
    | some k => simp [Option.filter, h.kind hk]
  · rfl

end Graph

end StackLift
