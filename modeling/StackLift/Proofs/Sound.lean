import StackLift.Proofs.Arena

/-!
# Graphs under construction

`Sound g O d` is what holds of the graph at every moment of a build. `O` are the joins that edges may
still come in at: their phis may change or go away, so nobody but the join itself may refer to them.
What else refers to a node refers to a live one (`Usable`).

A graph under construction owes something to the final check. `Debt` lists what: nodes whose snapshot
is still to come, control nodes that no edge leads to yet, phis that miss the input of the last edge,
and a merge that an edge is about to come in at. A graph without debts passes the check once it is
tidied.
-/
namespace StackLift

/-- The kinds that tidying takes out of a graph. Nothing computes with such a node. -/
def NodeKind.isPlace : NodeKind → Bool
  | .begin | .loopHeader _ => true
  | _ => false

/-- What is still to be done about a graph. -/
structure Debt where
  bare : List NodeId := []        -- nodes whose snapshot is still to come
  loose : List NodeId := []       -- control nodes that no edge leads to yet
  late : List NodeId := []        -- phis that miss the input of the last edge
  due : Option NodeId := none     -- the merge that an edge is about to come in at
deriving DecidableEq, Repr

namespace Debt

/-- The edges that are about to come in at `m`. -/
def expected (d : Debt) (m : NodeId) : Nat := if d.due = some m then 1 else 0

/-- The inputs that `n` misses. -/
def missing (d : Debt) (n : NodeId) : Nat := if n ∈ d.late then 1 else 0

/-- What is owed about a new node. -/
def add (d : Debt) (k : NodeKind) (n : NodeId) : Debt :=
  { d with
    bare := if k.isStateEffecting then n :: d.bare else d.bare
    loose := if k.isControl then n :: d.loose else d.loose }

end Debt

/-- What is left of a snapshot once the nodes `dead` are gone. -/
def Snapshot.Without (dead : List NodeId) (s s' : Snapshot) : Prop :=
  ∀ a' ∈ s'.chain, ∀ v ∈ a'.frame.values, v.node ∉ dead ∧ ∃ a ∈ s.chain, v ∈ a.frame.values

namespace Graph

/-- The node is a live value, and not a phi of one of the joins `O`. -/
def Usable (g : Graph) (O : NodeSet) (n : NodeId) : Prop :=
  ∃ k, g.kind? n = some k ∧ k.isPlace = false ∧ ∀ m, k = .phi m → ¬ O m

/-- Everything that a snapshot holds can be used. -/
def Recalls (g : Graph) (O : NodeSet) (s : Snapshot) : Prop :=
  ∀ a ∈ s.chain, ∀ v ∈ a.frame.values, g.Usable O v.node

/-- What holds of a node of a graph under construction. -/
structure Fine (g : Graph) (O : NodeSet) (d : Debt) (n : NodeId) (x : Node) : Prop where
  inputs : ∀ i ∈ x.inputs, g.Usable O i
  snapshots : ∀ {s}, x.snapshot = some s → g.Recalls O s
  phi : ∀ {m}, x.kind = .phi m →
    g.kindIs m NodeKind.isMerge = true ∧ m.index < n.index ∧ x.inputs ≠ [] ∧
      x.inputs.length + d.missing n = g.inDegree m + d.expected m
  proxy : ∀ {e}, x.kind = .proxy e → ∃ h, g.kind? e = some (.loopExit h)
  header : ∀ {h}, x.kind = .loopEnd h ∨ x.kind = .loopExit h →
    (∃ i, g.kind? h = some (.loopHeader i)) ∧ 0 < g.inDegree h
  captured : x.kind.isStateEffecting = true → x.snapshot = none →
    O n ∨ n ∈ d.bare ∨ (x.kind.isPlace = true ∧ g.inDegree n = 0)
  reached : x.kind.isControl = true → g.inDegree n = 0 →
    g.start = some n ∨ n ∈ d.loose ∨ (x.kind.isPlace = true ∧ g.outgoing n = [])

structure Sound (g : Graph) (O : NodeSet) (d : Debt) : Prop where
  coherent : g.Coherent
  node : ∀ {n x}, g.node? n = some x → g.Fine O d n x
  start : ∀ {s}, g.start = some s →
    ∃ x, g.node? s = some x ∧ x.kind = .begin ∧ (x.snapshot.isSome ∨ s ∈ d.bare)

/-- Control can go on from `n`: it is not a join that is still open, and some edge leads to it, or
will lead to it. -/
def Firm (g : Graph) (O : NodeSet) (d : Debt) (n : NodeId) : Prop :=
  g.kindIs n NodeKind.isControl = true ∧ ¬ O n ∧
    (0 < g.inDegree n ∨ g.start = some n ∨ n ∈ d.loose)

variable {g g' : Graph} {O O' : NodeSet} {d d' : Debt} {n m : NodeId}
variable {I dead bare loose l : List NodeId} {f : Node → Node} {k k' : NodeKind} {s : Snapshot}
  {x y : Node} {b : NodeId} {dat : Edge} {e : EdgeId}

/-! ## Values -/

theorem Usable.of_kind? (h : g.Usable O n) (hk : ∀ k, g.kind? n = some k → g'.kind? n = some k) :
    g'.Usable O n := by
  obtain ⟨k, h1, h2⟩ := h
  exact ⟨k, hk k h1, h2⟩

theorem Usable.of_open (h : g.Usable O n) (hO : ∀ m, O' m → g.kind? n = some (.phi m) → O m) :
    g.Usable O' n := by
  obtain ⟨k, h1, h2, h3⟩ := h
  exact ⟨k, h1, h2, fun m hm hO' => h3 m hm (hO m hO' (hm ▸ h1))⟩

theorem Usable.contains (h : g.Usable O n) : g.contains n = true := by
  obtain ⟨k, hk, -⟩ := h
  exact contains_of_kind? hk

theorem Usable.lt (h : g.Usable O n) : n.index < g.nodeCount := by
  obtain ⟨k, hk, -⟩ := h
  exact lt_of_kind? hk

theorem Sound.phi_lt (h : g.Sound O d) (hk : g.kind? n = some (.phi m)) : m.index < n.index := by
  obtain ⟨x, hx, hkx⟩ := kind?_eq_some.1 hk
  exact ((h.node hx).phi hkx).2.1

theorem Recalls.mono (h : g.Recalls O s)
    (hu : ∀ n, g.Usable O n → g'.Usable O' n) : g'.Recalls O' s :=
  fun a ha v hv => hu _ (h a ha v hv)

/-! ## Nodes -/

theorem kind?_addNode : (g.addNode k I).2.kind? n =
    if n = ⟨g.nodeCount⟩ then some k else g.kind? n := by
  unfold kind?
  rw [node?_addNode]
  split <;> rfl

theorem kind?_addNode_of (h : g.kind? n = some k') : (g.addNode k I).2.kind? n = some k' := by
  rw [kind?_addNode]
  split
  · next heq =>
    have := lt_of_kind? h
    rw [heq] at this
    exact absurd this (Nat.lt_irrefl _)
  · exact h

theorem kindIs_addNode_of {p : NodeKind → Bool}
    (h : g.kindIs n p = true) : (g.addNode k I).2.kindIs n p = true := by
  obtain ⟨k', hk, hp⟩ := kindIs_iff.1 h
  exact kindIs_iff.2 ⟨k', kind?_addNode_of hk, hp⟩

theorem Coherent.addNode (hg : g.Coherent) (k : NodeKind) (I : List NodeId) :
    (g.addNode k I).2.Coherent :=
  hg.of_same (.addNode g _ _) fun _ _ => kindIs_addNode_of

theorem node?_addNode_inv (h : (g.addNode k I).2.node? n = some x) :
    (n = ⟨g.nodeCount⟩ ∧ x = { kind := k, inputs := I }) ∨ g.node? n = some x := by
  rw [node?_addNode] at h
  split at h
  · next hn => exact .inl ⟨hn, (Option.some.inj h).symm⟩
  · exact .inr h

/-- What a new node may refer to. -/
structure Fits (g : Graph) (O : NodeSet) (d : Debt) (k : NodeKind) (I : List NodeId) : Prop where
  inputs : ∀ i ∈ I, g.Usable O i
  phi : ∀ m, k = .phi m → g.kindIs m NodeKind.isMerge = true ∧ I ≠ [] ∧
    I.length = g.inDegree m + d.expected m
  proxy : ∀ e, k = .proxy e → ∃ h, g.kind? e = some (.loopExit h)
  header : ∀ h, k = .loopEnd h ∨ k = .loopExit h →
    (∃ i, g.kind? h = some (.loopHeader i)) ∧ 0 < g.inDegree h

theorem Fine.mono (h : g.Fine O d n x) (hkind : y.kind = x.kind)
    (hk : ∀ {m k}, g.kind? m = some k → k.isCarrier = false → g'.kind? m = some k)
    (hin : ∀ i ∈ y.inputs, g'.Usable O' i) (hsnap : ∀ {s}, y.snapshot = some s → g'.Recalls O' s)
    (hphi : ∀ {m}, x.kind = .phi m → g.kindIs m NodeKind.isMerge = true →
      y.inputs ≠ [] ∧ y.inputs.length + d'.missing n = g'.inDegree m + d'.expected m)
    (hpos : ∀ {m i}, g.kind? m = some (.loopHeader i) → 0 < g.inDegree m → 0 < g'.inDegree m)
    (hcap : x.kind.isStateEffecting = true → y.snapshot = none →
      O' n ∨ n ∈ d'.bare ∨ (x.kind.isPlace = true ∧ g'.inDegree n = 0))
    (hreach : x.kind.isControl = true → g'.inDegree n = 0 →
      g'.start = some n ∨ n ∈ d'.loose ∨ (x.kind.isPlace = true ∧ g'.outgoing n = [])) :
    g'.Fine O' d' n y := by
  refine ⟨hin, hsnap, ?_, ?_, ?_, by rwa [hkind], by rwa [hkind]⟩
  · intro m hm
    obtain ⟨h1, h2, -⟩ := h.phi (hkind ▸ hm)
    obtain ⟨k, hkm, hmerge⟩ := kindIs_iff.1 h1
    exact ⟨kindIs_iff.2 ⟨k, hk hkm (by cases k <;> first | rfl | cases hmerge), hmerge⟩, h2,
      hphi (hkind ▸ hm) h1⟩
  · intro e he
    obtain ⟨i, hi⟩ := h.proxy (hkind ▸ he)
    exact ⟨i, hk hi rfl⟩
  · intro e he
    obtain ⟨⟨i, hi⟩, hd⟩ := h.header (hkind ▸ he)
    exact ⟨⟨i, hk hi rfl⟩, hpos hi hd⟩

theorem Sound.addNode (h : g.Sound O d)
    (hf : g.Fits O d k I) (hlate : ∀ x ∈ d.late, x.index < g.nodeCount) :
    (g.addNode k I).2.Sound O (d.add k ⟨g.nodeCount⟩) := by
  have hu : ∀ {n}, g.Usable O n → (g.addNode k I).2.Usable O n :=
    fun h => h.of_kind? fun _ => kind?_addNode_of
  have hdeg : ∀ n, (g.addNode k I).2.inDegree n = g.inDegree n := by simp [inDegree]
  have hbare : ∀ {n}, n ∈ d.bare → n ∈ (d.add k ⟨g.nodeCount⟩).bare := by
    intro n hn
    simp only [Debt.add]
    split
    · exact List.mem_cons_of_mem _ hn
    · exact hn
  have hloose : ∀ {n}, n ∈ d.loose → n ∈ (d.add k ⟨g.nodeCount⟩).loose := by
    intro n hn
    simp only [Debt.add]
    split
    · exact List.mem_cons_of_mem _ hn
    · exact hn
  refine ⟨h.coherent.addNode k I, fun {n x} hx => ?_, fun {s} hs => ?_⟩
  · rcases node?_addNode_inv hx with ⟨rfl, rfl⟩ | hx
    · refine ⟨fun i hi => hu (hf.inputs i hi), (fun hs => by cases hs), fun {m} hm => ?_, fun he => ?_,
        fun he => ?_, fun hc _ => ?_, fun hc _ => ?_⟩
      · obtain ⟨h1, h2, h3⟩ := hf.phi m hm
        have hnl : d.missing ⟨g.nodeCount⟩ = 0 := if_neg fun hm => Nat.lt_irrefl _ (hlate _ hm)
        refine ⟨kindIs_addNode_of h1, lt_of_kindIs h1, h2, ?_⟩
        show I.length + d.missing ⟨g.nodeCount⟩ = (g.addNode k I).2.inDegree m + d.expected m
        rw [hnl, h3, hdeg, Nat.add_zero]
      · obtain ⟨i, hi⟩ := hf.proxy _ he
        exact ⟨i, kind?_addNode_of hi⟩
      · obtain ⟨⟨i, hi⟩, hd⟩ := hf.header _ he
        exact ⟨⟨i, kind?_addNode_of hi⟩, by rwa [hdeg]⟩
      · exact .inr (.inl (by simp only [Debt.add]; rw [if_pos hc]; simp))
      · exact .inr (.inl (by simp only [Debt.add]; rw [if_pos hc]; simp))
    · have hold := h.node hx
      refine hold.mono rfl (fun hm _ => kind?_addNode_of hm) (fun i hi => hu (hold.inputs i hi))
        (fun hs => (hold.snapshots hs).mono fun _ => hu) (fun hm _ => ?_) (fun _ hd => by rwa [hdeg])
        (fun hc hs => ?_) (fun hc hd => ?_)
      · rw [hdeg]
        exact (hold.phi hm).2.2
      · rw [hdeg]
        exact (hold.captured hc hs).imp_right (Or.imp_left hbare)
      · rw [hdeg] at hd
        exact (hold.reached hc hd).imp_right (Or.imp hloose fun hp => by simpa using hp)
  · obtain ⟨x, hx, hk, hb⟩ := h.start hs
    refine ⟨x, ?_, hk, hb.imp_right hbare⟩
    rw [node?_addNode, if_neg, hx]
    rintro rfl
    exact Nat.lt_irrefl _ (lt_nodeCount hx)

/-- Joins are opened or closed, and debts shifted, without touching the graph. -/
theorem Sound.adjust (h : g.Sound O d) (hopen : ∀ m, O' m → (∃ n, g.kind? n = some (.phi m)) → O m)
    (hbare : ∀ {n x}, g.node? n = some x → x.kind.isStateEffecting = true → x.snapshot = none →
      O n ∨ n ∈ d.bare → O' n ∨ n ∈ d'.bare ∨ (x.kind.isPlace = true ∧ g.inDegree n = 0))
    (hloose : ∀ {n x}, g.node? n = some x → g.inDegree n = 0 → n ∈ d.loose →
      g.start = some n ∨ n ∈ d'.loose ∨ (x.kind.isPlace = true ∧ g.outgoing n = []))
    (hlate : ∀ {n x m}, g.node? n = some x → x.kind = .phi m →
      d'.missing n + d.expected m = d.missing n + d'.expected m)
    (hstart : ∀ {s}, g.start = some s → s ∈ d.bare →
      s ∈ d'.bare ∨ ∃ x, g.node? s = some x ∧ x.snapshot.isSome) : g.Sound O' d' := by
  have hu : ∀ {n}, g.Usable O n → g.Usable O' n :=
    fun h => h.of_open fun m hm hk => hopen m hm ⟨_, hk⟩
  refine ⟨h.coherent, fun {n x} hx => ?_, ?_⟩
  · have hold := h.node hx
    refine hold.mono rfl (fun hk _ => hk) (fun i hi => hu (hold.inputs i hi))
      (fun hs => (hold.snapshots hs).mono fun _ => hu) (fun hk _ => ?_) (fun _ hd => hd)
      (fun hk hs => ?_) (fun hk hd => ?_)
    · obtain ⟨-, -, h3, h4⟩ := hold.phi hk
      have := hlate hx hk
      exact ⟨h3, by omega⟩
    · rcases hold.captured hk hs with hO | hb | hp
      · exact hbare hx hk hs (.inl hO)
      · exact hbare hx hk hs (.inr hb)
      · exact .inr (.inr hp)
    · rcases hold.reached hk hd with hs | hl | hp
      · exact .inl hs
      · exact hloose hx hd hl
      · exact .inr (.inr hp)
  · intro s hs
    obtain ⟨x, hx, hk, hb⟩ := h.start hs
    refine ⟨x, hx, hk, ?_⟩
    rcases hb with hb | hb
    · exact .inl hb
    · refine (hstart hs hb).symm.imp_left ?_
      rintro ⟨y, hy, hsn⟩
      rw [hx] at hy
      cases hy
      exact hsn

/-! ## Snapshots -/

theorem kind?_modifyNode (hf : ∀ x, (f x).kind = x.kind) :
    (g.modifyNode n f).kind? m = g.kind? m := by
  unfold kind?
  rw [node?_modifyNode]
  split
  · cases g.node? m <;> simp [hf]
  · rfl

theorem inputs_modifyNode (hf : ∀ x, (f x).inputs = x.inputs) :
    (g.modifyNode n f).inputs m = g.inputs m := by
  unfold inputs
  rw [node?_modifyNode]
  by_cases h : m = n
  · rw [if_pos h]
    cases g.node? m <;> simp [hf]
  · rw [if_neg h]

theorem kind?_setSnapshot (s : Snapshot) :
    (g.modifyNode n fun x => { x with snapshot := some s }).kind? m = g.kind? m :=
  kind?_modifyNode (f := fun x => { x with snapshot := some s }) fun _ => rfl

theorem inputs_setSnapshot (s : Snapshot) :
    (g.modifyNode n fun x => { x with snapshot := some s }).inputs m = g.inputs m :=
  inputs_modifyNode (f := fun x => { x with snapshot := some s }) fun _ => rfl

theorem node?_modifyNode_inv (h : (g.modifyNode n f).node? m = some y) :
    (m ≠ n ∧ g.node? m = some y) ∨ (m = n ∧ ∃ x, g.node? n = some x ∧ y = f x) := by
  rw [node?_modifyNode] at h
  split at h
  · next hm =>
    subst hm
    right
    simp only [Option.map_eq_some_iff] at h
    obtain ⟨x, hx, rfl⟩ := h
    exact ⟨rfl, x, hx, rfl⟩
  · next hm => exact .inl ⟨hm, h⟩

/-- A node is rewritten in place. Its kind stays; `d'` tells which debts the new inputs and the new
snapshot settle. -/
theorem Sound.modify (h : g.Sound O d) (hf : ∀ x, (f x).kind = x.kind)
    (hin : ∀ x, g.node? n = some x → ∀ i ∈ (f x).inputs, g.Usable O i)
    (hphi : ∀ x m, g.node? n = some x → x.kind = .phi m → (f x).inputs ≠ [] ∧
      (f x).inputs.length + d'.missing n = x.inputs.length + d.missing n)
    (hmissing : ∀ m, m ≠ n → d'.missing m = d.missing m) (hdue : d'.due = d.due)
    (hsnap : ∀ x s, g.node? n = some x → (f x).snapshot = some s → g.Recalls O s)
    (hbare : ∀ m x, g.node? m = some x → m ∈ d.bare → m ∈ d'.bare ∨ m = n ∧ (f x).snapshot.isSome)
    (hnone : ∀ x, g.node? n = some x → (f x).snapshot = none → x.snapshot = none)
    (hloose : d'.loose = d.loose) : (g.modifyNode n f).Sound O d' := by
  have hk : ∀ m, (g.modifyNode n f).kind? m = g.kind? m := fun m => kind?_modifyNode hf
  have hu : ∀ {i}, g.Usable O i → (g.modifyNode n f).Usable O i :=
    fun h => h.of_kind? fun k hk' => by rw [hk, hk']
  have hdeg : ∀ m, (g.modifyNode n f).inDegree m = g.inDegree m := fun m => by simp [inDegree]
  have hexp : ∀ m, d'.expected m = d.expected m := fun m => by simp only [Debt.expected, hdue]
  refine ⟨?_, fun {m y} hy => ?_, ?_⟩
  · refine h.coherent.of_same (.modifyNode g _ _) ?_
    exact fun m _ hm => by rwa [kindIs, hk]
  · rcases node?_modifyNode_inv hy with ⟨hm, hx⟩ | ⟨rfl, x, hx, rfl⟩
    · have hold := h.node hx
      refine hold.mono rfl (fun hm _ => (hk _).trans hm) (fun i hi => hu (hold.inputs i hi))
        (fun hs => (hold.snapshots hs).mono fun _ => hu) (fun hkm _ => ?_) (fun _ hd => by rwa [hdeg])
        (fun hc hs => ?_) (fun hc hd => ?_)
      · rw [hmissing m hm, hdeg, hexp]
        exact (hold.phi hkm).2.2
      · rw [hdeg]
        refine (hold.captured hc hs).imp_right (Or.imp_left fun hmem => ?_)
        exact (hbare m y hx hmem).resolve_right fun h => hm h.1
      · rw [hdeg] at hd
        simpa [hloose] using hold.reached hc hd
    · have hold := h.node hx
      refine hold.mono (hf x) (fun hm _ => (hk _).trans hm) (fun i hi => hu (hin x hx i hi))
        (fun hs => (hsnap x _ hx hs).mono fun _ => hu) (fun hkm _ => ?_) (fun _ hd => by rwa [hdeg])
        (fun hc hs => ?_) (fun hc hd => ?_)
      · obtain ⟨h3, h5⟩ := hphi x _ hx hkm
        rw [hdeg, hexp]
        exact ⟨h3, h5.trans (hold.phi hkm).2.2.2⟩
      · rw [hdeg]
        refine (hold.captured hc (hnone x hx hs)).imp_right (Or.imp_left fun hmem => ?_)
        exact (hbare m x hx hmem).resolve_right fun h => by simp [hs] at h
      · rw [hdeg] at hd
        simpa [hloose] using hold.reached hc hd
  · intro t ht
    obtain ⟨x, hx, hkx, hsn⟩ := h.start ht
    by_cases hm : t = n
    · subst hm
      refine ⟨f x, by simp [node?_modifyNode, hx], (hf x).trans hkx, ?_⟩
      rcases hsn with hsn | hmem
      · refine .inl (Option.isSome_iff_ne_none.2 fun hfx => ?_)
        simp [hnone x hx hfx] at hsn
      · exact (hbare t x hx hmem).symm.imp_left And.right
    · refine ⟨x, by simp [node?_modifyNode, hm, hx], hkx, hsn.imp_right fun hmem => ?_⟩
      exact (hbare t x hx hmem).resolve_right fun h => hm h.1

theorem Sound.setSnapshot (h : g.Sound O d)
    (hb : ∀ x ∈ d.bare, x = n ∨ x ∈ bare) (hs : g.Recalls O s) :
    (g.modifyNode n fun x => { x with snapshot := some s }).Sound O { d with bare } := by
  refine h.modify (fun _ => rfl) (fun _ hx => (h.node hx).inputs)
    (fun x m hx hm => ⟨((h.node hx).phi hm).2.2.1, rfl⟩)
    (fun _ _ => rfl) rfl ?_ (fun m _ _ hm => (hb m hm).symm.imp_right (⟨·, rfl⟩)) (by simp) rfl
  rintro x t - ht
  cases ht
  exact hs

/-! ## Edges -/

/-- An edge from a firm node into one that waits for it: a loose node, or the merge that is due. -/
theorem Sound.link {a : NodeId} {due : Option NodeId}
    (h : g.Sound O d) (hl : Links g g' a b dat e) (hdat : dat.source = a ∧ dat.target = b)
    (ha : g.kindIs a NodeKind.isControl = true)
    (hfirm : 0 < g.inDegree a ∨ g.start = some a ∨ a ∈ d.loose)
    (hb : g.kindIs b NodeKind.isControl = true) (hloose : ∀ x ∈ d.loose, x = b ∨ x ∈ loose)
    (hdue : (g.kindIs b NodeKind.isMerge = false ∧ due = d.due) ∨
      (d.due = some b ∧ due = none ∧ (O b ∨ b ∈ d.bare ∨ 0 < g.inDegree b))) :
    g'.Sound O { d with loose, due } := by
  have hk : ∀ n, g'.kind? n = g.kind? n := fun n => kind?_congr (hl.node? n)
  have hu : ∀ {n}, g.Usable O n → g'.Usable O n := fun h => h.of_kind? fun k hk' => by rw [hk, hk']
  have hdeg : ∀ n, g'.inDegree n = g.inDegree n + if n = b then 1 else 0 := by
    intro n
    simp only [inDegree, hl.incoming]
    split <;> simp
  refine ⟨h.coherent.links hl hdat.1 hdat.2 ha hb, fun {n x} hx => ?_, fun {s} hs => ?_⟩
  · rw [hl.node?] at hx
    have hold := h.node hx
    refine hold.mono rfl (fun hm _ => (hk _).trans hm) (fun i hi => hu (hold.inputs i hi))
      (fun hs => (hold.snapshots hs).mono fun _ => hu) (fun {m} hm h1 => ?_)
      (fun _ hd => by rw [hdeg]; omega) (fun hc hs => ?_) (fun hc hz => ?_)
    · obtain ⟨-, -, h3, h4⟩ := hold.phi hm
      refine ⟨h3, ?_⟩
      show x.inputs.length + d.missing n = g'.inDegree m + Debt.expected { d with loose, due } m
      rw [h4, hdeg]
      rcases hdue with ⟨hnm, rfl⟩ | ⟨hd, rfl, -⟩
      · have : m ≠ b := by
          rintro rfl
          rw [h1] at hnm
          cases hnm
        simp [this, Debt.expected]
      · by_cases hmb : m = b
        · subst hmb
          simp [Debt.expected, hd]
        · have : b ≠ m := fun h => hmb h.symm
          simp [Debt.expected, hd, hmb, this]
    · rcases hold.captured hc hs with hO | hbare | ⟨hp, hz⟩
      · exact .inl hO
      · exact .inr (.inl hbare)
      · by_cases hn : n = b
        · subst hn
          rcases hdue with ⟨hnm, -⟩ | ⟨-, -, hO | hbare | hpos⟩
          · -- the only place that captures a frame is a loop header, which is a merge
            rw [kindIs_of_kind? (kind?_of_node? hx)] at hnm
            cases hkx : x.kind <;> simp_all [NodeKind.isPlace, NodeKind.isMerge,
              NodeKind.isStateEffecting]
          · exact .inl hO
          · exact .inr (.inl hbare)
          · omega
        · exact .inr (.inr ⟨hp, by rw [hdeg, hz, if_neg hn]⟩)
    · rw [hdeg] at hz
      have hn : n ≠ b := by
        rintro rfl
        simp at hz
      rw [hl.start, hl.outgoing]
      rcases hold.reached hc (by omega) with hs | hmem | ⟨hp, ho⟩
      · exact .inl hs
      · exact .inr (.inl ((hloose n hmem).resolve_left hn))
      · by_cases hna : n = a
        · subst hna
          rcases hfirm with hpos | hs | hmem
          · omega
          · exact .inl hs
          · exact .inr (.inl ((hloose n hmem).resolve_left hn))
        · exact .inr (.inr ⟨hp, by rw [if_neg hna]; exact ho⟩)
  · rw [hl.start] at hs
    obtain ⟨x, hx, hkx, hsn⟩ := h.start hs
    exact ⟨x, by rw [hl.node?, hx], hkx, hsn⟩

/-- The edge into a begin that nothing follows is moved to a loose node. -/
theorem Sound.moves {t : NodeId}
    (h : g.Sound O d) (he : g.edge? e = some dat) (hm : Moves g g' e dat t) (hb : dat.target = b)
    (hbk : g.kind? b = some .begin) (hbo : g.outgoing b = [])
    (ht : g.kindIs t NodeKind.isControl = true) (htm : g.kindIs t NodeKind.isMerge = false)
    (htp : g.kindIs t NodeKind.isPlace = false) (hloose : ∀ x ∈ d.loose, x = t ∨ x ∈ loose) :
    g'.Sound O { d with loose } := by
  subst hb
  have hk : ∀ n, g'.kind? n = g.kind? n := fun n => kind?_congr (hm.node? n)
  have hu : ∀ {n}, g.Usable O n → g'.Usable O n := fun h => h.of_kind? fun k hk' => by rw [hk, hk']
  have hbt : dat.target ≠ t := by
    rintro hbt
    rw [← hbt, kindIs_of_kind? hbk] at htp
    cases htp
  have hother : ∀ n, n ≠ dat.target → n ≠ t → g'.inDegree n = g.inDegree n := by
    intro n h1 h2
    simp [inDegree, hm.incoming, h1, h2]
  have hpos : 0 < g'.inDegree t := by simp [inDegree, hm.incoming]
  have hmerge : ∀ {n}, g.kindIs n NodeKind.isMerge = true → g'.inDegree n = g.inDegree n := by
    intro n hn
    refine hother n ?_ ?_
    · rintro rfl
      rw [kindIs_of_kind? hbk] at hn
      cases hn
    · rintro rfl
      rw [hn] at htm
      cases htm
  refine ⟨h.coherent.moves he hm ht, fun {n x} hx => ?_, fun {s} hs => ?_⟩
  · rw [hm.node?] at hx
    have hold := h.node hx
    refine hold.mono rfl (fun hm _ => (hk _).trans hm) (fun i hi => hu (hold.inputs i hi))
      (fun hs => (hold.snapshots hs).mono fun _ => hu) (fun hkm h1 => ?_) (fun hi hd => ?_)
      (fun hc hs => ?_) (fun hc hz => ?_)
    · rw [hmerge h1]
      exact (hold.phi hkm).2.2
    · rwa [hmerge (kindIs_iff.2 ⟨_, hi, rfl⟩)]
    · refine (hold.captured hc hs).imp_right (Or.imp_right ?_)
      rintro ⟨hp, hz⟩
      refine ⟨hp, ?_⟩
      rw [hother, hz]
      · rintro rfl
        rw [kind?_of_node? hx, Option.some.injEq] at hbk
        rw [hbk] at hc
        cases hc
      · rintro rfl
        rw [kindIs_of_kind? (kind?_of_node? hx), hp] at htp
        cases htp
    · rw [hm.start, hm.outgoing]
      have hnt : n ≠ t := by
        rintro rfl
        omega
      by_cases hnb : n = dat.target
      · subst hnb
        rw [kind?_of_node? hx, Option.some.injEq] at hbk
        exact .inr (.inr ⟨by rw [hbk]; rfl, hbo⟩)
      · rw [hother n hnb hnt] at hz
        refine (hold.reached hc hz).imp_right (Or.imp_left fun hmem => ?_)
        exact (hloose n hmem).resolve_left hnt
  · rw [hm.start] at hs
    obtain ⟨x, hx, hkx, hsn⟩ := h.start hs
    exact ⟨x, by rw [hm.node?, hx], hkx, hsn⟩

theorem Sound.setStart (h : g.Sound O d) (hk : g.kind? n = some .begin) (hb : n ∈ d.bare)
    (hs : g.start = none) : (g.setStart n).Sound O d := by
  refine ⟨⟨h.coherent.outgoing, h.coherent.incoming, h.coherent.nodupOut, h.coherent.nodupIn,
    h.coherent.source, h.coherent.target⟩, fun hx => { h.node hx with reached := fun hc hz => ?_ }, ?_⟩
  · refine .inr (((h.node hx).reached hc hz).resolve_left ?_)
    rw [hs]
    exact fun h => nomatch h
  · intro s hs'
    obtain rfl : n = s := Option.some.inj hs'
    obtain ⟨x, hx, hkx⟩ := kind?_eq_some.1 hk
    exact ⟨x, hx, hkx, .inr hb⟩

/-! ## Phis -/

theorem Sound.addPhiInput {v : NodeId} (h : g.Sound O d) (hv : g.Usable O v)
    (hn : n ∈ d.late) (hnl : n ∉ l) (hlate : ∀ x, x ≠ n → (x ∈ d.late ↔ x ∈ l)) :
    (g.modifyNode n fun x => { x with inputs := x.inputs ++ [v] }).Sound O { d with late := l } := by
  refine h.modify (fun _ => rfl) ?_ ?_ ?_ rfl (fun _ _ hx => (h.node hx).snapshots)
    (fun _ _ _ hm => .inl hm) (fun _ _ hs => hs) rfl
  · intro x hx i hi
    rw [List.mem_append, List.mem_singleton] at hi
    rcases hi with hi | rfl
    · exact (h.node hx).inputs i hi
    · exact hv
  · intro x m hx hm
    have e1 : d.missing n = 1 := if_pos hn
    have e2 : Debt.missing { d with late := l } n = 0 := if_neg hnl
    refine ⟨by simp, ?_⟩
    rw [e1, e2, List.length_append, List.length_singleton, Nat.add_zero]
  · intro x hx
    simp only [Debt.missing, hlate x hx]

/-- From `g` to `g'` exactly the nodes `dead` were removed, and dropped from all snapshots. -/
structure Sheds (g g' : Graph) (dead : List NodeId) : Prop extends SameWires g g' where
  gone : ∀ {n}, n ∈ dead → g'.node? n = none
  kept : ∀ {n x}, g.node? n = some x → n ∉ dead → ∃ x', g'.node? n = some x' ∧
    x'.kind = x.kind ∧ x'.inputs = x.inputs ∧
      (x.snapshot = none → x'.snapshot = none) ∧
      ∀ s, x.snapshot = some s → ∃ s', x'.snapshot = some s' ∧ s.Without dead s'
  old : ∀ {n x'}, g'.node? n = some x' → ∃ x, g.node? n = some x
  nodeCount : g'.nodeCount = g.nodeCount

theorem Sheds.inv (h : Sheds g g' dead) (hy : g'.node? n = some y) :
    n ∉ dead ∧ ∃ x, g.node? n = some x ∧ y.kind = x.kind ∧ y.inputs = x.inputs ∧
      (y.snapshot = none → x.snapshot = none) ∧
      ∀ s', y.snapshot = some s' → ∃ s, x.snapshot = some s ∧ s.Without dead s' := by
  have hn : n ∉ dead := by
    intro hn
    rw [h.gone hn] at hy
    cases hy
  obtain ⟨x, hx⟩ := h.old hy
  obtain ⟨y', hy', hk, hin, hnone, hsome⟩ := h.kept hx hn
  rw [hy] at hy'
  cases hy'
  refine ⟨hn, x, hx, hk, hin, ?_, ?_⟩
  · intro hys
    cases hxs : x.snapshot with
    | none => rfl
    | some s =>
      obtain ⟨s', hs', -⟩ := hsome s hxs
      rw [hys] at hs'
      cases hs'
  · intro s' hs'
    cases hxs : x.snapshot with
    | none =>
      rw [hnone hxs] at hs'
      cases hs'
    | some s =>
      obtain ⟨t, ht, hw⟩ := hsome s hxs
      rw [hs'] at ht
      cases ht
      exact ⟨s, rfl, hw⟩

theorem Sheds.kind? (h : Sheds g g' dead) (hn : n ∉ dead) : g'.kind? n = g.kind? n := by
  cases hx : g.node? n with
  | none =>
    cases hy : g'.node? n with
    | none => simp [Graph.kind?, hx, hy]
    | some y =>
      obtain ⟨x, hx'⟩ := h.old hy
      rw [hx] at hx'
      cases hx'
  | some x =>
    obtain ⟨y, hy, hk, -⟩ := h.kept hx hn
    rw [kind?_of_node? hx, kind?_of_node? hy, hk]

/-- Carriers can go if nothing else uses them. -/
theorem Sound.sheds (h : g.Sound O d) (hs : Sheds g g' dead)
    (hcarry : ∀ n ∈ dead, ∀ k, g.kind? n = some k → k.isCarrier = true)
    (hclosed : ∀ {n x}, g.node? n = some x → ∀ i ∈ x.inputs, i ∈ dead → n ∈ dead) :
    g'.Sound O d := by
  have hlive : ∀ {n k}, g.kind? n = some k → k.isCarrier = false → g'.kind? n = some k := by
    intro n k hk hc
    rw [hs.kind? fun hn => ?_, hk]
    rw [hcarry n hn k hk] at hc
    cases hc
  have hu : ∀ {n}, n ∉ dead → g.Usable O n → g'.Usable O n :=
    fun hn h => h.of_kind? fun k hk => by rw [hs.kind? hn, hk]
  have hdeg : ∀ n, g'.inDegree n = g.inDegree n := fun n => by simp only [inDegree, hs.incoming]
  have hcontrol : ∀ {k : NodeKind}, k.isControl = true → k.isCarrier = false := by
    intro k hk
    cases k <;> first | rfl | cases hk
  refine ⟨?_, fun {n y} hy => ?_, ?_⟩
  · refine h.coherent.of_same hs.toSameWires fun n _ hn => ?_
    obtain ⟨k, hk, hc⟩ := kindIs_iff.1 hn
    exact kindIs_iff.2 ⟨k, hlive hk (hcontrol hc), hc⟩
  · obtain ⟨hn, x, hx, hkx, hin, hnone, hsome⟩ := hs.inv hy
    have hold := h.node hx
    refine hold.mono hkx hlive (fun i hi => ?_) (fun {s'} hsn a' ha' v hv => ?_) (fun hk _ => ?_)
      (fun _ hd => by rwa [hdeg]) (fun hc hsn => ?_) (fun hc hd => ?_)
    · rw [hin] at hi
      exact hu (fun hd => hn (hclosed hx i hi hd)) (hold.inputs i hi)
    · obtain ⟨s, hxs, hw⟩ := hsome s' hsn
      obtain ⟨hvd, a, ha, hva⟩ := hw a' ha' v hv
      exact hu hvd (hold.snapshots hxs a ha v hva)
    · rw [hdeg, hin]
      exact (hold.phi hk).2.2
    · rw [hdeg]
      exact hold.captured hc (hnone hsn)
    · rw [hdeg] at hd
      rw [hs.start, hs.outgoing]
      exact hold.reached hc hd
  · intro s hst
    rw [hs.start] at hst
    obtain ⟨x, hx, hkx, hsn⟩ := h.start hst
    have hns : s ∉ dead := by
      intro hmem
      have := hcarry s hmem x.kind (kind?_of_node? hx)
      rw [hkx] at this
      cases this
    obtain ⟨y, hy, hky, -, -, hsome⟩ := hs.kept hx hns
    refine ⟨y, hy, hky.trans hkx, hsn.imp_left fun hsn => ?_⟩
    obtain ⟨t, ht⟩ := Option.isSome_iff_exists.1 hsn
    obtain ⟨s', hs', -⟩ := hsome t ht
    simp [hs']

end Graph

end StackLift
