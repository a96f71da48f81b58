import StackLift.Proofs.Carriers
import StackLift.Proofs.FrameValues
import StackLift.Proofs.Invariant

/-!
# What is left when phis are dropped

`dropPhis` fails only where something that cannot be dropped holds one of the phis or their carriers
(`Droppable`). Otherwise what is left is determined: frames and snapshots lose the locals that hold one
of them (`Frame.trim`, `Snapshot.trim`), and the graph loses the nodes (`Graph.Strips`).
-/
namespace StackLift

/-! ## Frames and snapshots -/

namespace Frame

variable {f f' : Frame} {dead : List NodeId}

/-- The frame without the locals that hold one of `dead`. -/
def trim (f : Frame) (dead : List NodeId) : Frame :=
  { f with locals := f.locals.map fun v => v.filter (·.node ∉ dead) }

/-- Nothing but locals holds one of `dead`. -/
def Loose (f : Frame) (dead : List NodeId) : Prop := ∀ v ∈ f.pinned, v.node ∉ dead

theorem withoutLocals?_eq_some : f.withoutLocals? dead = some f' ↔ f.Loose dead ∧ f' = f.trim dead := by
  constructor
  · intro h
    obtain ⟨h1, h2⟩ := withoutLocals?_spec h
    exact ⟨h2, h1⟩
  · rintro ⟨h, rfl⟩
    unfold withoutLocals?
    rw [if_neg]
    · rfl
    · intro hany
      obtain ⟨v, hv, hd⟩ := List.any_eq_true.1 hany
      exact h v hv (by simpa using hd)

theorem not_loose (h : f.withoutLocals? dead = none) : ¬ f.Loose dead := by
  intro hl
  rw [withoutLocals?_eq_some.2 ⟨hl, rfl⟩] at h
  cases h

theorem trim_eq_self (h : ∀ v ∈ f.values, v.node ∉ dead) : f.trim dead = f := by
  unfold trim
  have hmap : (f.locals.map fun v => v.filter (·.node ∉ dead)) = f.locals := by
    refine (List.map_congr_left fun o ho => ?_).trans (List.map_id _)
    cases o with
    | none => rfl
    | some v => simpa [Option.filter] using h v (mem_values.2 (.inl ho))
  rw [hmap]

theorem trim_trim : (f.trim dead).trim dead = f.trim dead := by
  simp only [trim, List.map_map]
  congr 1
  refine List.map_congr_left fun o _ => ?_
  cases o with
  | none => rfl
  | some v => by_cases hv : v.node ∈ dead <;> simp [Option.filter, hv]

theorem mem_values_of_trim {v : Value} (h : v ∈ (f.trim dead).values) : v ∈ f.values := by
  rw [mem_values] at h ⊢
  refine h.imp (fun h => ?_) id
  obtain ⟨o, ho, hv⟩ := List.mem_map.1 h
  exact Option.eq_some_of_filter_eq_some hv ▸ ho

theorem local?_trim (x : Nat) : (f.trim dead).local? x = (f.local? x).filter (·.node ∉ dead) := by
  unfold trim local?
  rw [List.getElem?_map]
  cases f.locals[x]? <;> rfl

end Frame

/-- The activation without the locals that hold one of `dead`. -/
def Activation.trim (a : Activation) (dead : List NodeId) : Activation :=
  { a with frame := a.frame.trim dead }

namespace Snapshot

variable {s s' : Snapshot} {dead : List NodeId} {l l' : List Activation}

/-- The snapshot without the locals that hold one of `dead`. -/
def trim (s : Snapshot) (dead : List NodeId) : Snapshot :=
  ⟨s.inner.trim dead, s.callers.map (·.trim dead)⟩

def Loose (s : Snapshot) (dead : List NodeId) : Prop := ∀ a ∈ s.chain, a.frame.Loose dead

theorem mapM_trim {drop : Activation → Option Activation}
    (hdrop : ∀ a a', drop a = some a' ↔ a.frame.Loose dead ∧ a' = a.trim dead) :
    l.mapM drop = some l' ↔ (∀ a ∈ l, a.frame.Loose dead) ∧ l' = l.map (·.trim dead) := by
  induction l generalizing l' with
  | nil =>
    show some [] = some l' ↔ _
    simp [eq_comm]
  | cons a l ih =>
    rw [List.mapM_cons]
    constructor
    · intro h
      obtain ⟨b, hb, h⟩ := Option.bind_eq_some_iff.1 h
      obtain ⟨bs, hbs, h⟩ := Option.bind_eq_some_iff.1 h
      cases h
      obtain ⟨h1, rfl⟩ := (hdrop _ _).1 hb
      obtain ⟨h2, rfl⟩ := ih.1 hbs
      exact ⟨List.forall_mem_cons.2 ⟨h1, h2⟩, rfl⟩
    · rintro ⟨h, rfl⟩
      obtain ⟨h1, h2⟩ := List.forall_mem_cons.1 h
      rw [(hdrop a _).2 ⟨h1, rfl⟩, ih.2 ⟨h2, rfl⟩]
      rfl

theorem withoutLocals?_eq_some : s.withoutLocals? dead = some s' ↔ s.Loose dead ∧ s' = s.trim dead := by
  have hdrop : ∀ a a' : Activation, (do
      let f ← a.frame.withoutLocals? dead
      return { a with frame := f } : Option Activation) = some a' ↔ a.frame.Loose dead ∧
        a' = a.trim dead := by
    intro a a'
    constructor
    · intro h
      obtain ⟨f, hf, h⟩ := Option.bind_eq_some_iff.1 h
      cases h
      obtain ⟨h1, rfl⟩ := Frame.withoutLocals?_eq_some.1 hf
      exact ⟨h1, rfl⟩
    · rintro ⟨h, rfl⟩
      rw [Frame.withoutLocals?_eq_some.2 ⟨h, rfl⟩]
      rfl
  unfold withoutLocals?
  constructor
  · intro h
    obtain ⟨inner, hinner, h⟩ := Option.bind_eq_some_iff.1 h
    obtain ⟨callers, hcallers, h⟩ := Option.bind_eq_some_iff.1 h
    cases h
    obtain ⟨h1, rfl⟩ := (hdrop _ _).1 hinner
    obtain ⟨h2, rfl⟩ := (mapM_trim hdrop).1 hcallers
    exact ⟨List.forall_mem_cons.2 ⟨h1, h2⟩, rfl⟩
  · rintro ⟨h, rfl⟩
    obtain ⟨h1, h2⟩ := List.forall_mem_cons.1 h
    refine Option.bind_eq_some_iff.2 ⟨_, (hdrop _ _).2 ⟨h1, rfl⟩, ?_⟩
    exact Option.bind_eq_some_iff.2 ⟨_, (mapM_trim hdrop).2 ⟨h2, rfl⟩, rfl⟩

theorem not_loose (h : s.withoutLocals? dead = none) : ¬ s.Loose dead := by
  intro hl
  rw [withoutLocals?_eq_some.2 ⟨hl, rfl⟩] at h
  cases h

theorem trim_eq_self (h : s.refersTo dead = false) : s.trim dead = s := by
  have hall : ∀ a ∈ s.chain, a.trim dead = a := by
    intro a ha
    unfold Activation.trim
    rw [Frame.trim_eq_self fun v hv hd => ?_]
    have : s.refersTo dead = true :=
      List.any_eq_true.2 ⟨a, ha, List.any_eq_true.2 ⟨v, hv, by simpa using hd⟩⟩
    rw [h] at this
    cases this
  obtain ⟨h1, h2⟩ := List.forall_mem_cons.1 hall
  unfold trim
  rw [h1, List.map_congr_left (g := id) h2, List.map_id]

theorem trim_trim : (s.trim dead).trim dead = s.trim dead := by
  have hact : ∀ a : Activation, (a.trim dead).trim dead = a.trim dead := fun a => by
    simp only [Activation.trim, Frame.trim_trim]
  simp only [trim, hact, List.map_map]
  congr 1
  exact List.map_congr_left fun a _ => hact a

theorem Loose.without (h : s.Loose dead) : s.Without dead (s.trim dead) := by
  intro a' ha' v hv
  obtain ⟨a, ha, rfl⟩ := List.mem_map.1 (show a' ∈ s.chain.map (·.trim dead) from ha')
  obtain ⟨h1, h2⟩ := (Frame.mem_values_withoutLocals? (Frame.withoutLocals?_eq_some.2 ⟨h a ha, rfl⟩)).1 hv
  exact ⟨h2, a, ha, h1⟩

theorem loose_trim : (s.trim dead).Loose dead ↔ s.Loose dead := by
  simp only [Loose, chain, trim, List.mem_cons, List.mem_map, forall_eq_or_imp]
  refine and_congr Iff.rfl ⟨fun h a ha => h (a.trim dead) ⟨a, ha, rfl⟩, ?_⟩
  rintro h _ ⟨a, ha, rfl⟩
  exact h a ha

/-! ## The whole chain -/

/-- Drops locals from an activation, and from its callers only if one of them holds one of `dead`: a
chain of callers that needs no change is shared with the old snapshot. -/
def shareCallers? (dead : List NodeId) : List Activation → Option (List Activation)
  | [] => some []
  | a :: callers => do
    let frame ← a.frame.withoutLocals? dead
    let callers ← (if callers.any fun c => c.frame.values.any
      (·.node ∈ dead) then shareCallers? dead callers
      else some callers)
    return { a with frame } :: callers

/-- Sharing changes nothing, since a chain that holds none of `dead` is its own rewriting. -/
theorem shareCallers?_eq_some :
    shareCallers? dead l = some l' ↔ (∀ a ∈ l, a.frame.Loose dead) ∧ l' = l.map (·.trim dead) := by
  induction l generalizing l' with
  | nil => simp [shareCallers?, eq_comm]
  | cons a l ih =>
    -- What the scan lets through unchanged is what rewriting it would give.
    have hrest : ∀ r, (if l.any fun c => c.frame.values.any (·.node ∈ dead) then shareCallers? dead l
        else some l) = some r ↔ (∀ a ∈ l, a.frame.Loose dead) ∧ r = l.map (·.trim dead) := by
      intro r
      split
      · exact ih
      · next hany =>
        have hfree : ∀ c ∈ l, ∀ v ∈ c.frame.values, v.node ∉ dead := fun c hc v hv hd =>
          hany (List.any_eq_true.2 ⟨c, hc, List.any_eq_true.2 ⟨v, hv, by simpa using hd⟩⟩)
        have htrim : l.map (·.trim dead) = l := by
          refine (List.map_congr_left fun c hc => ?_).trans (List.map_id l)
          rw [Activation.trim, Frame.trim_eq_self (hfree c hc), id]
        rw [htrim, Option.some.injEq, eq_comm]
        refine (and_iff_right fun c hc v hv => hfree c hc v ?_).symm
        exact List.mem_append_right _ hv
    rw [shareCallers?]
    constructor
    · intro h
      obtain ⟨f, hf, h⟩ := Option.bind_eq_some_iff.1 h
      obtain ⟨r, hr, h⟩ := Option.bind_eq_some_iff.1 h
      cases h
      obtain ⟨h1, rfl⟩ := Frame.withoutLocals?_eq_some.1 hf
      obtain ⟨h2, rfl⟩ := (hrest r).1 hr
      exact ⟨List.forall_mem_cons.2 ⟨h1, h2⟩, rfl⟩
    · rintro ⟨h, rfl⟩
      obtain ⟨h1, h2⟩ := List.forall_mem_cons.1 h
      refine Option.bind_eq_some_iff.2 ⟨_, Frame.withoutLocals?_eq_some.2 ⟨h1, rfl⟩, ?_⟩
      exact Option.bind_eq_some_iff.2 ⟨_, (hrest _).2 ⟨h2, rfl⟩, rfl⟩

/-- From `a` to `a'`, exactly the locals that hold one of `dead` have become undefined. -/
structure Loses (dead : List NodeId) (a a' : Activation) : Prop where
  method : a'.method = a.method
  position : a'.position = a.position
  stack : a'.frame.stack = a.frame.stack
  monitors : a'.frame.monitors = a.frame.monitors
  slots : a'.frame.locals.length = a.frame.locals.length
  lost : ∀ {i v}, a.frame.local? i = some v → v.node ∈ dead → a'.frame.local? i = none
  kept : ∀ {i}, (∀ v, a.frame.local? i = some v → v.node ∉ dead) → a'.frame.local? i = a.frame.local? i

theorem loses_trim (a : Activation) (dead : List NodeId) : Loses dead a (a.trim dead) := by
  refine ⟨rfl, rfl, rfl, rfl, List.length_map _, fun {i v} hv hd => ?_, fun {i} h => ?_⟩
  · show (a.frame.trim dead).local? i = none
    rw [Frame.local?_trim, hv]
    simp [Option.filter, hd]
  · show (a.frame.trim dead).local? i = a.frame.local? i
    rw [Frame.local?_trim]
    cases hv : a.frame.local? i with
    | none => rfl
    | some v => simp [Option.filter, h v hv]

/-- **Rewriting is exact.** It fails exactly if the stack or the monitors of some frame hold one of
`dead`. Otherwise every frame of the chain loses its locals that do, and nothing else, and the result
refers to none of `dead`. Sharing the callers that need no change makes no difference. -/
theorem rewriting_exact (s : Snapshot) (dead : List NodeId) :
    (s.withoutLocals? dead = none ↔ ∃ a ∈ s.chain, ∃ v ∈ a.frame.stack ++ a.frame.monitors,
      v.node ∈ dead) ∧
      (∀ s', s.withoutLocals? dead = some s' →
        s'.frameCount = s.frameCount ∧ List.Forall₂ (Loses dead) s.chain s'.chain ∧
        s'.refersTo dead = false) ∧
      (s.withoutLocals? dead).map chain = shareCallers? dead s.chain := by
  have hloose : s.Loose dead ↔ ¬ ∃ a ∈ s.chain, ∃ v ∈ a.frame.stack ++ a.frame.monitors,
    v.node ∈ dead := by
    simp only [Loose, Frame.Loose, Frame.pinned, List.mem_append, List.mem_reverse, not_exists, not_and]
  refine ⟨?_, fun s' hs' => ?_, ?_⟩
  · rw [← not_iff_not, ← hloose, ← ne_eq, Option.ne_none_iff_exists']
    constructor
    · rintro ⟨s', hs'⟩
      exact (withoutLocals?_eq_some.1 hs').1
    · exact fun h => ⟨_, withoutLocals?_eq_some.2 ⟨h, rfl⟩⟩
  · obtain ⟨h, rfl⟩ := withoutLocals?_eq_some.1 hs'
    refine ⟨?_, ?_, ?_⟩
    · show (s.chain.map (·.trim dead)).length = s.chain.length
      exact List.length_map _
    · show List.Forall₂ (Loses dead) s.chain (s.chain.map (·.trim dead))
      rw [List.forall₂_map_right_iff]
      exact List.forall₂_same.2 fun a _ => loses_trim a dead
    · rw [Bool.eq_false_iff]
      intro hr
      obtain ⟨a, ha, hv⟩ := List.any_eq_true.1 hr
      obtain ⟨v, hv, hd⟩ := List.any_eq_true.1 hv
      exact (h.without a ha v hv).1 (by simpa using hd)
  · refine Option.ext fun l => ?_
    rw [shareCallers?_eq_some, Option.map_eq_some_iff]
    constructor
    · rintro ⟨s', hs', rfl⟩
      obtain ⟨h, rfl⟩ := withoutLocals?_eq_some.1 hs'
      exact ⟨h, rfl⟩
    · rintro ⟨h, rfl⟩
      exact ⟨s.trim dead, withoutLocals?_eq_some.2 ⟨h, rfl⟩, rfl⟩

/-- Three activations: the first caller holds node 1 in a local, the second does not. -/
def nested : Snapshot where
  inner := ⟨⟨0⟩, ⟨4⟩, { locals := [some ⟨⟨1⟩, .int⟩, some ⟨⟨2⟩, .int⟩], stack := [⟨⟨3⟩, .int⟩] }⟩
  callers := [⟨⟨1⟩, ⟨2⟩, { locals := [none, some ⟨⟨1⟩, .int⟩], monitors := [⟨⟨2⟩, .object⟩] }⟩,
    ⟨⟨2⟩, ⟨7⟩, { locals := [some ⟨⟨2⟩, .int⟩] }⟩]

theorem nested_rewriting : ∃ s', nested.withoutLocals? [⟨1⟩] = some s' ∧ s'.frameCount = 3 ∧
    List.Forall₂ (Loses [⟨1⟩]) nested.chain s'.chain ∧ s'.refersTo [⟨1⟩] = false :=
  ⟨_, rfl, (rewriting_exact nested [⟨1⟩]).2.1 _ rfl⟩

end Snapshot

/-- The node without the locals of its snapshot that hold one of `dead`. -/
def Node.strip (x : Node) (dead : List NodeId) : Node :=
  { x with snapshot := x.snapshot.map (·.trim dead) }

/-! ## Graphs -/

namespace Graph

variable {g g' g₁ : Graph} {dead rest : List NodeId} {n : NodeId}

/-- The graph `g` without the nodes `dead`, which no edge touches. -/
structure Strips (g g' : Graph) (dead : List NodeId) : Prop where
  node? : ∀ n, g'.node? n = if n ∈ dead then none else (g.node? n).map (·.strip dead)
  wires : SameWires g g'
  nodeCount : g'.nodeCount = g.nodeCount
  counted : g.Counted → g'.Counted

/-- Some snapshots of `g` have been trimmed, and all but those of `rest`. -/
structure Trimmed (g g' : Graph) (dead rest : List NodeId) : Prop where
  node? : ∀ n, (g'.node? n = g.node? n ∧ n ∈ rest) ∨ g'.node? n = (g.node? n).map (·.strip dead)
  wires : SameWires g g'
  nodeCount : g'.nodeCount = g.nodeCount
  counted : g.Counted → g'.Counted

/-- The nodes whose snapshots have to be trimmed. -/
def stale (g : Graph) (dead : List NodeId) : List NodeId :=
  g.nodesWhere fun _ n => n.snapshot.any (·.refersTo dead)

theorem mem_stale :
    n ∈ g.stale dead ↔ ∃ x s, g.node? n = some x ∧ x.snapshot = some s ∧ s.refersTo dead = true := by
  simp only [stale, nodesWhere, List.mem_map, List.mem_filter, Prod.exists, mem_liveNodes,
    Option.any_eq_true]
  constructor
  · rintro ⟨m, x, ⟨hx, s, hs, hr⟩, rfl⟩
    exact ⟨x, s, hx, hs, hr⟩
  · rintro ⟨x, s, hx, hs, hr⟩
    exact ⟨n, x, ⟨hx, s, hs, hr⟩, rfl⟩

theorem Trimmed.init : g.Trimmed g dead (g.stale dead) := by
  refine ⟨fun n => ?_, .refl g, rfl, id⟩
  by_cases hn : n ∈ g.stale dead
  · exact .inl ⟨rfl, hn⟩
  · refine .inr ?_
    cases hx : g.node? n with
    | none => rfl
    | some x =>
      have hstrip : x.strip dead = x := by
        unfold Node.strip
        cases hs : x.snapshot with
        | none =>
          rw [Option.map_none, ← hs]
        | some s =>
          have : s.refersTo dead = false := by
            by_contra hr
            exact hn (mem_stale.2 ⟨x, s, hx, hs, by simpa using hr⟩)
          rw [Option.map_some, Snapshot.trim_eq_self this, ← hs]
      rw [Option.map_some, hstrip]

theorem Trimmed.setSnapshot {x y : Node} {s t : Snapshot} (h : g.Trimmed g₁ dead (n :: rest))
    (hx : g.node? n = some x) (hs : x.snapshot = some s) (hy : g₁.node? n = some y)
    (ht : y.snapshot = some t) :
    g.Trimmed (g₁.modifyNode n fun y => { y with snapshot := some (t.trim dead) }) dead rest := by
  refine ⟨fun m => ?_, ?_, ?_, fun hg => (h.counted hg).modifyNode _ _⟩
  · rw [node?_modifyNode]
    by_cases hm : m = n
    · subst hm
      rw [if_pos rfl, hy, hx]
      refine .inr (congrArg some ?_)
      rcases h.node? m with ⟨hold, -⟩ | hnew
      · rw [hy, hx] at hold
        cases hold
        rw [hs] at ht
        cases ht
        simp only [Node.strip, hs, Option.map_some]
      · rw [hy, hx] at hnew
        cases hnew
        simp only [Node.strip, hs, Option.map_some, Option.some.injEq] at ht
        subst ht
        simp only [Node.strip, hs, Option.map_some, Snapshot.trim_trim]
    · rw [if_neg hm]
      refine (h.node? m).imp (fun hold => ⟨hold.1, ?_⟩) id
      exact (List.mem_cons.1 hold.2).resolve_left hm
  · have := SameWires.modifyNode g₁ n fun y => { y with snapshot := some (t.trim dead) }
    exact h.wires.trans this
  · rw [nodeCount_modifyNode, h.nodeCount]

theorem strips_of_remove (h : g.Trimmed g₁ dead [])
    (hfree : ∀ n ∈ dead, g.outgoing n = [] ∧ g.incoming n = []) :
    g.Strips (dead.foldl removeNode g₁) dead := by
  have hc : ClearsAll g₁ (dead.foldl removeNode g₁) dead := removeAll_clears fun n hn => by
    rw [h.wires.outgoing, h.wires.incoming]
    exact hfree n hn
  refine ⟨fun n => ?_, h.wires.trans hc.toSameWires, hc.nodeCount.trans h.nodeCount,
    fun hg => (h.counted hg).removeAll dead⟩
  rw [hc.node?]
  rcases h.node? n with ⟨-, hn⟩ | hn
  · cases hn
  · rw [hn]

theorem Strips.sheds (h : g.Strips g' dead)
    (hl : ∀ {n x s}, g.node? n = some x → x.snapshot = some s → s.Loose dead) : Sheds g g' dead := by
  refine ⟨h.wires, fun {n} hn => ?_, fun {n x} hx hn => ?_, fun {n x'} hx' => ?_, h.nodeCount⟩
  · rw [h.node?, if_pos hn]
  · refine ⟨x.strip dead, by rw [h.node?, if_neg hn, hx]; rfl, rfl, rfl, fun hs => ?_, fun s hs => ?_⟩
    · simp [Node.strip, hs]
    · exact ⟨s.trim dead, by simp [Node.strip, hs], (hl hx hs).without⟩
  · rw [h.node?] at hx'
    split at hx'
    · cases hx'
    · obtain ⟨x, hx, -⟩ := Option.map_eq_some_iff.1 hx'
      exact ⟨x, hx⟩

end Graph

/-! ## Tables -/

open BuildM

/-- What is left of an entry once the nodes `dead` are gone. -/
structure Entry.Without (dead : List NodeId) (e e' : Entry) : Prop where
  node : e'.node = e.node
  parsed : e'.parsed = e.parsed
  frame : Option.Rel (fun f f' => f.withoutLocals? dead = some f') e.frame e'.frame

/-- What is left of a table once the nodes `dead` are gone. -/
structure Table.Without (dead : List NodeId) (t t' : Table) : Prop where
  size : t'.entries.size = t.entries.size
  entry : ∀ b, Option.Rel (Entry.Without dead) (t.slot? b) (t'.slot? b)
  headers : t'.headers = t.headers
  marks : t'.marks = t.marks
  exits : t'.exits = t.exits

/-- Takes the nodes `dead` out of the frame that waits at an entry. -/
def trimEntry (dead : List NodeId) (p : Position) (stuck : Fault) : Option Entry → BuildM (Option Entry)
  | some e =>
    match e.frame with
    | some f =>
      match f.withoutLocals? dead with
      | some f => pure (some { e with frame := some f })
      | none => verify p stuck
    | none => pure (some e)
  | none => pure none

section Without

variable {b : BlockId} {e e' : Entry} {t t' : Table} {dead : List NodeId}

theorem Table.Without.entry_of (h : t.Without dead t') (he : t.slot? b = some e) :
    ∃ e', t'.slot? b = some e' ∧ e.Without dead e' :=
  optionRel_some_left (he ▸ h.entry b)

theorem Table.Without.entry_inv (h : t.Without dead t') (he : t'.slot? b = some e') :
    ∃ e, t.slot? b = some e ∧ e.Without dead e' :=
  optionRel_some_right (he ▸ h.entry b)

theorem Entry.Without.isSome (h : e.Without dead e') : e'.frame.isSome = e.frame.isSome :=
  (optionRel_isSome h.frame).symm

theorem Entry.Without.exists_frame {f' : Frame} (h : e.Without dead e') (hf : e'.frame = some f') :
    ∃ f, e.frame = some f ∧ f.withoutLocals? dead = some f' := by
  have := h.frame
  rw [hf] at this
  obtain ⟨f, h1, h2⟩ := optionRel_some_right this
  exact ⟨f, h1, h2⟩

end Without

/-! ## Dropping phis -/

section Drop

variable {E : Error → Prop} {w : Work} {sc : Scope} {b : BlockId} {headerFrame incoming : Frame}
  {roots dead d : List NodeId} {p : Position} {stuck : Fault}

theorem ensures_trimEntry {o : Option Entry}
    (hE : ∀ e f, o = some e → e.frame = some f → f.withoutLocals? dead = none →
      E (.verification p stuck)) :
    Ensures E (trimEntry dead p stuck o) sc w fun o' w' => w' = w ∧
      Option.Rel (Entry.Without dead) o o' := by
  cases o with
  | none => exact ensures_pure ⟨rfl, .none⟩
  | some e =>
    unfold trimEntry
    cases hef : e.frame with
    | none =>
      simp only [hef]
      exact ensures_pure ⟨rfl, .some ⟨rfl, rfl, by rw [hef]; exact .none⟩⟩
    | some f =>
      cases hf : f.withoutLocals? dead with
      | none =>
        simp only [hef, hf]
        exact ensures_verify (hE e f rfl hef hf)
      | some f' =>
        simp only [hef, hf]
        exact ensures_pure ⟨rfl, .some ⟨rfl, rfl, by rw [hef]; exact .some hf⟩⟩

theorem ensures_trimEntries {xs : Array (Option Entry)} {f : Option Entry → BuildM (Option Entry)}
    (hf : ∀ o ∈ xs.toList, Ensures E (f o) sc w fun o' w' => w' = w ∧ Option.Rel (Entry.Without d) o o') :
    Ensures E (xs.mapM f) sc w fun ys w' => w' = w ∧ ys.size = xs.size ∧
      ∀ i : Nat, Option.Rel (Option.Rel (Entry.Without d)) xs[i]? ys[i]? := by
  rw [Array.mapM_eq_mapM_toList]
  have hlist : Ensures E (xs.toList.mapM f) sc w fun ys w' => w' = w ∧
      List.Forall₂ (Option.Rel (Entry.Without d)) xs.toList ys := by
    generalize xs.toList = l at hf
    induction l with
    | nil => exact ensures_pure ⟨rfl, .nil⟩
    | cons o l ih =>
      rw [List.mapM_cons]
      refine (hf o (by simp)).bind fun o' w1 h1 => ?_
      obtain ⟨rfl, hR⟩ := h1
      refine (ih fun o ho => hf o (by simp [ho])).bind fun l' w2 h2 => ensures_pure ?_
      obtain ⟨rfl, hR'⟩ := h2
      exact ⟨rfl, .cons hR hR'⟩
  refine hlist.bind (f := fun l => pure l.toArray) fun ys w1 h1 => ensures_pure ?_
  obtain ⟨rfl, hR⟩ := h1
  refine ⟨rfl, by simpa using hR.length_eq.symm, fun i => ?_⟩
  rw [← Array.getElem?_toList, List.getElem?_toArray]
  exact forall₂_getElem? hR i

theorem ensures_trimTable
    (hE : ∀ b e f, w.table.slot? b = some e → e.frame = some f → f.withoutLocals? dead = none →
      E (.verification p stuck)) :
    Ensures E (w.table.entries.mapM (trimEntry dead p stuck)) sc w fun entries w' =>
      w' = w ∧ w.table.Without dead { w.table with entries } := by
  refine (ensures_trimEntries fun o ho => ensures_trimEntry fun e f he hf hd => ?_).mono
    fun entries w' h => ?_
  · subst he
    obtain ⟨i, hi⟩ := List.getElem?_of_mem ho
    rw [Array.getElem?_toList] at hi
    exact hE ⟨i⟩ e f (by rw [Table.slot?, hi]; rfl) hf hd
  obtain ⟨rfl, hsize, hentries⟩ := h
  refine ⟨rfl, hsize, fun b => ?_, rfl, rfl, rfl⟩
  have hb := hentries b.index
  unfold Table.slot?
  revert hb
  generalize w'.table.entries[b.index]? = o
  generalize entries[b.index]? = o'
  intro hb
  cases hb with
  | some hb => exact hb
  | none => exact .none

/-- Only locals hold one of `dead`, so that all of them can be dropped. -/
structure Droppable (w : Work) (headerFrame incoming : Frame) (dead : List NodeId) : Prop where
  incoming : ∀ v ∈ incoming.values, v.node ∉ dead
  header : headerFrame.Loose dead
  entry : ∀ {b e f}, w.table.slot? b = some e → e.frame = some f → f.Loose dead
  snapshot : ∀ {n x s}, w.graph.node? n = some x → x.snapshot = some s → s.Loose dead

/-- What dropping `dead` leaves of a work. -/
structure Dropped (w w' : Work) (dead : List NodeId) : Prop where
  graph : w.graph.Strips w'.graph dead
  table : w.table.Without dead w'.table
  report : w'.report = w.report
  consulted : w'.consulted = w.consulted

theorem ensures_removeEach (dead : List NodeId) (sc : Scope) (w : Work) :
    Ensures E (forIn dead PUnit.unit fun n _ => do
      changeGraph fun g => .ok ((), g.removeNode n)
      pure (ForInStep.yield PUnit.unit)) sc w fun _ w' =>
        w' = { w with graph := dead.foldl Graph.removeNode w.graph } := by
  induction dead generalizing w with
  | nil => exact ensures_pure rfl
  | cons n dead ih =>
    rw [List.forIn_cons]
    exact ih { w with graph := w.graph.removeNode n }

theorem Snapshot.loose_of_not_refersTo {s : Snapshot} (h : s.refersTo dead = false) : s.Loose dead := by
  intro a ha v hv hd
  have : s.refersTo dead = true :=
    List.any_eq_true.2 ⟨a, ha, List.any_eq_true.2 ⟨v, List.mem_append_right _ hv, by simpa using hd⟩⟩
  rw [h] at this
  cases this

/-- **Dropping phis.** It fails only where something that cannot be dropped is in the way, and then
nothing else is left than what `Dropped` says. -/
theorem ensures_dropPhis (hE : ∀ why, (why = .lostLocalOnStack b ∨ ∃ user, why = .lostLocalUsed b user) →
      (¬ ∃ dead, w.graph.carriers roots = .ok dead ∧ Droppable w headerFrame incoming dead) →
        E (.verification p why)) (hfree : ∀ dead, w.graph.carriers roots = .ok dead → ∀ n ∈ dead,
      w.graph.outgoing n = [] ∧ w.graph.incoming n = []) :
    Ensures E (dropPhis b headerFrame incoming roots p) sc w fun f w' => ∃ dead,
      w.graph.carriers roots = .ok dead ∧ Droppable w headerFrame incoming dead ∧
        f = headerFrame.trim dead ∧ Dropped w w' dead := by
  unfold dropPhis
  refine ensures_get_bind ?_
  dsimp only
  cases hc : w.graph.carriers roots with
  | error user =>
    refine ensures_verify (hE _ (.inr ⟨user, rfl⟩) ?_)
    rintro ⟨dead, hd, -⟩
    rw [hc] at hd
    cases hd
  | ok dead =>
    refine ensures_pure_bind ?_
    -- Whatever stands in the way contradicts that the nodes can be dropped.
    have hstuck : ¬ Droppable w headerFrame incoming dead →
      E (.verification p (.lostLocalOnStack b)) := by
      refine fun hnot => hE _ (.inl rfl) ?_
      rintro ⟨d, hd, hdrop⟩
      rw [hc] at hd
      cases hd
      exact hnot hdrop
    split
    · next hin =>
      obtain ⟨v, hv, hd⟩ := List.any_eq_true.1 hin
      exact ensures_verify (hstuck fun h => h.incoming v hv (by simpa using hd))
    · next hin =>
      have hin' : ∀ v ∈ incoming.values, v.node ∉ dead := fun v hv hd =>
        hin (List.any_eq_true.2 ⟨v, hv, by simpa using hd⟩)
      cases hf : headerFrame.withoutLocals? dead with
      | none => exact ensures_verify (hstuck fun h => Frame.not_loose hf h.header)
      | some f =>
        obtain ⟨hheader, rfl⟩ := Frame.withoutLocals?_eq_some.1 hf
        dsimp only
        refine ensures_get_bind ?_
        refine (ensures_trimTable fun b e f he hef hd => hstuck fun h =>
          Frame.not_loose hd (h.entry he hef)).bind fun entries w1 hw1 => ?_
        obtain ⟨rfl, hwithout⟩ := hw1
        have hentry : ∀ {b e f}, w1.table.slot? b = some e → e.frame = some f → f.Loose dead := by
          intro b e f he hef
          obtain ⟨e', -, hw⟩ := hwithout.entry_of he
          have := hw.frame
          rw [hef] at this
          generalize e'.frame = o at this
          cases this with
          | some h => exact (Frame.withoutLocals?_eq_some.1 h).1
        refine .chain (ensures_changeTable ?_)
        refine ensures_get_bind ?_
        refine (ensures_forIn (w := { w1 with table := { w1.table with entries } })
          (fun rest w' => (w1.graph.Trimmed w'.graph dead rest ∧ (∀ n ∈ rest, n ∈ w1.graph.stale dead) ∧
            ∀ n ∈ w1.graph.stale dead, n ∉ rest → ∀ x s, w1.graph.node? n = some x → x.snapshot = some s →
              s.Loose dead) ∧ w'.table = { w1.table with entries } ∧ w'.report = w1.report ∧
            w'.consulted = w1.consulted)
          ?_ ⟨⟨.init, fun _ hn => hn, fun n hn hn' => absurd hn hn'⟩, rfl, rfl, rfl⟩).bind
            fun _ w3 hw3 => ?_
        · rintro n rest w2 ⟨⟨htrim, hsub, hloose⟩, ht, hrep, hcon⟩
          obtain ⟨x, s, hx, hs, -⟩ := Graph.mem_stale.1 (hsub n (by simp))
          -- The snapshot may have been trimmed already.
          obtain ⟨y, t, hy, hyt, hst⟩ : ∃ y t, w2.graph.node? n = some y ∧ y.snapshot = some t ∧
              (t.Loose dead ↔ s.Loose dead) := by
            rcases htrim.node? n with ⟨hold, -⟩ | hnew
            · exact ⟨x, s, hold.trans hx, hs, Iff.rfl⟩
            · refine ⟨x.strip dead, s.trim dead, by rw [hnew, hx]; rfl, ?_, Snapshot.loose_trim⟩
              simp only [Node.strip, hs, Option.map_some]
          have hsnap : w2.graph.snapshot? n = some t := by
            rw [Graph.snapshot?, hy]
            exact hyt
          refine ensures_get_bind ?_
          simp only [hsnap, Option.bind_some]
          cases ht' : t.withoutLocals? dead with
          | none =>
            exact ensures_verify (hstuck fun h => Snapshot.not_loose ht' (hst.2 (h.snapshot hx hs)))
          | some t' =>
            obtain ⟨htl, rfl⟩ := Snapshot.withoutLocals?_eq_some.1 ht'
            have hn : w2.graph.contains n = true := by simp [Graph.contains, hy]
            refine (ensures_setSnapshot hn (Q := fun _ w' => w' = _) rfl).bind
              fun _ w4 hw4 => ensures_pure ⟨rfl, ?_⟩
            subst hw4
            refine ⟨⟨htrim.setSnapshot hx hs hy hyt, fun m hm => hsub m (by simp [hm]), ?_⟩,
              ht, hrep, hcon⟩
            intro m hm hmr z u hz hu
            by_cases hmn : m = n
            · subst hmn
              rw [hx] at hz
              cases hz
              rw [hs] at hu
              cases hu
              exact hst.1 htl
            · exact hloose m hm (by simp [hmn, hmr]) z u hz hu
        · obtain ⟨⟨htrim, -, hloose⟩, ht, hrep, hcon⟩ := hw3
          have hdrop : Droppable w1 headerFrame incoming dead := by
            refine ⟨hin', hheader, hentry, fun {n x s} hx hs => ?_⟩
            by_cases hr : s.refersTo dead = true
            · exact hloose n (Graph.mem_stale.2 ⟨x, s, hx, hs, hr⟩) (by simp) x s hx hs
            · exact Snapshot.loose_of_not_refersTo (by simpa using hr)
          refine (ensures_removeEach dead sc w3).bind fun _ w4 hw4 => ensures_pure ?_
          subst hw4
          refine ⟨dead, rfl, hdrop, rfl, Graph.strips_of_remove htrim (hfree dead hc), ?_, hrep, hcon⟩
          show w1.table.Without dead w3.table
          rw [ht]
          exact hwithout

end Drop

end StackLift
