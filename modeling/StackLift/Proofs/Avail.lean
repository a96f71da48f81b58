import StackLift.Proofs.Shape

/-!
# Where values can be used

A value can be used where control has passed everything that it was made by: `Needs g x l` says that
control has to pass `l` before it can use `x`. A graph under construction comes with a labelling `A` of
its control nodes by nodes that have been passed on every way there (`Cert`). The labels are checked
edge by edge, so a new edge is checked alone; that what a label names lies on every path from the start
follows for the finished graph.
-/
namespace StackLift

/-- A value that is computed where it is used. -/
def NodeKind.isFloating : NodeKind → Bool
  | .arithmetic _ | .compare _ | .instanceOf _ | .pi _ => true
  | _ => false

/-- The nodes that stand for a value. -/
def NodeKind.isValue : NodeKind → Bool
  | .new _ | .checkCast _ | .invoke .. | .invokeWithException .. | .exceptionObject => true
  | k => !k.isControl

/-- For every node, what has been passed on all ways to it. -/
abbrev Labels : Type := NodeId → NodeSet

namespace Graph

/-- Control has to pass `l` before `x` can be used. -/
inductive Needs (g : Graph) : NodeId → NodeId → Prop where
  | fixed {x : NodeId} {k : NodeKind} (hk : g.kind? x = some k) (hc : k.isControl = true) : Needs g x x
  | phi {x m : NodeId} (hk : g.kind? x = some (.phi m)) : Needs g x m
  | proxy {x e : NodeId} (hk : g.kind? x = some (.proxy e)) : Needs g x e
  | floating {x i l : NodeId} {k : NodeKind} (hk : g.kind? x = some k) (hf : k.isFloating = true)
    (hi : i ∈ g.inputs x) (h : Needs g i l) : Needs g x l

/-- The value `x` can be used where the nodes `P` have been passed. -/
structure Avail (g : Graph) (P : NodeSet) (x : NodeId) : Prop where
  value : g.kindIs x NodeKind.isValue = true
  needs : ∀ {l}, g.Needs x l → P l

/-- What node `n` uses can be used where it is used, under the labels `A`. -/
structure Seated (g : Graph) (A : Labels) (n : NodeId) (x : Node) : Prop where
  value : ∀ i ∈ x.inputs, g.kindIs i NodeKind.isValue = true
  idle : x.kind.isPlace = true ∨ x.kind.isMerge = true → x.inputs = []
  input : x.kind.isControl = true → ∀ i ∈ x.inputs, g.Avail (A n) i
  phi : ∀ {m v e d} {j : Nat}, x.kind = .phi m → x.inputs[j]? = some v → (g.incoming m)[j]? = some e →
    g.edge? e = some d → g.Avail (A d.source) v
  proxy : ∀ {e}, x.kind = .proxy e → ∀ i ∈ x.inputs, g.Avail (A e) i
  recalled : ∀ {s}, x.snapshot = some s → x.kind.isControl = true ∧
    ∀ a ∈ s.chain, ∀ v ∈ a.frame.values, g.Avail (A n) v.node

/-- The labels `A` name what has been passed on every way to a node, and everything is used where it
can be used. -/
structure Cert (g : Graph) (A : Labels) : Prop where
  node : ∀ {n x}, g.node? n = some x → g.Seated A n x
  edge : ∀ {e d l}, g.edge? e = some d → A d.target l → l = d.target ∨ A d.source l
  start : ∀ {s l}, g.start = some s → A s l → l = s

variable {g g' : Graph} {O O' S O1 O2 : NodeSet} {A A' : Labels} {P P' : NodeSet}
  {a b n x l i m : NodeId} {dat : Edge} {e : EdgeId} {d d' : Debt} {ss : List NodeId} {k : NodeKind}

theorem Avail.mono (h : g.Avail P x) (hP : ∀ l, P l → P' l) : g.Avail P' x :=
  ⟨h.value, fun hl => hP _ (h.needs hl)⟩

theorem isValue_of_isControl (h : k.isControl = false) : k.isValue = true := by
  cases k <;> first | rfl | cases h

theorem not_merge_of_isValue (h : k.isValue = true) : k.isMerge = false ∧ k.isPlace = false := by
  cases k <;> first | exact ⟨rfl, rfl⟩ | cases h

theorem Needs.old (hS : ∀ n k, S n → g'.kind? n = some k →
      g.kind? n = some k ∧ (k.isFloating = true → g'.inputs n = g.inputs n ∧ ∀ i ∈ g.inputs n, S i))
    (h : g'.Needs x l) (hx : S x) : g.Needs x l := by
  induction h with
  | fixed hk hc => exact .fixed (hS _ _ hx hk).1 hc
  | phi hk => exact .phi (hS _ _ hx hk).1
  | proxy hk => exact .proxy (hS _ _ hx hk).1
  | floating hk hf hi _ ih =>
    obtain ⟨hk', hin⟩ := hS _ _ hx hk
    obtain ⟨heq, hall⟩ := hin hf
    rw [heq] at hi
    exact .floating hk' hf hi (ih (hall _ hi))

theorem inputs_lt (hs : g.Sound O d) (hi : i ∈ g.inputs n) : i.index < g.nodeCount := by
  unfold inputs at hi
  cases hx : g.node? n with
  | none => simp [hx] at hi
  | some y =>
    rw [hx] at hi
    exact ((hs.node hx).inputs i hi).lt

theorem Needs.of_grows (h : g'.Needs x l) (hs : g.Sound O d)
    (hg : Grows ss O1 O2 g g') (hx : x.index < g.nodeCount) : g.Needs x l := by
  refine h.old (S := fun n => n.index < g.nodeCount) ?_ hx
  intro n k hn hk
  refine ⟨hg.old hn hk, fun hf => ⟨(hg.inputs hn hk).2 ?_, fun i hi => inputs_lt hs hi⟩⟩
  rintro m rfl
  cases hf

theorem Avail.of_grows (h : g.Avail P x) (hs : g.Sound O d)
    (hg : Grows ss O1 O2 g g') (hx : g'.contains x = true) : g'.Avail P x := by
  obtain ⟨k, hk, hv⟩ := kindIs_iff.1 h.value
  have hlt := lt_of_kind? hk
  obtain ⟨y, hy⟩ := Option.isSome_iff_exists.1 hx
  have hk' := kind?_of_node? hy
  have heq := hg.old hlt hk'
  rw [hk] at heq
  cases heq
  exact ⟨kindIs_iff.2 ⟨_, hk', hv⟩, fun hl => h.needs (hl.of_grows hs hg hlt)⟩

theorem Needs.ne_open (h : g.Needs x l) (hs : g.Sound O d) (hc : g.Cert A)
    (hx : g.Usable O x) (hv : g.kindIs x NodeKind.isValue = true) (hO : O m)
    (hm : g.kindIs m NodeKind.isMerge = true ∨ g.kindIs m NodeKind.isPlace = true) : l ≠ m := by
  induction h with
  | fixed hk _ =>
    rintro rfl
    rw [kindIs_of_kind? hk] at hv hm
    obtain ⟨h1, h2⟩ := not_merge_of_isValue hv
    rw [kindIs_of_kind? hk, h1, h2] at hm
    simp at hm
  | phi hk =>
    rintro rfl
    obtain ⟨k, hk', -, hn⟩ := hx
    rw [hk] at hk'
    cases hk'
    exact hn _ rfl hO
  | proxy hk =>
    rintro rfl
    obtain ⟨y, hy, hky⟩ := kind?_eq_some.1 hk
    obtain ⟨i, hi⟩ := (hs.node hy).proxy hky
    rw [kindIs_of_kind? hi, kindIs_of_kind? hi] at hm
    simp [NodeKind.isMerge, NodeKind.isPlace] at hm
  | floating hk hf hi _ ih =>
    obtain ⟨y, hy, -⟩ := kind?_eq_some.1 hk
    rw [inputs_of_node? hy] at hi
    exact ih ((hs.node hy).inputs _ hi) ((hc.node hy).value _ hi)

theorem Seated.blank {x : Node} (hi : x.inputs = []) (hs : x.snapshot = none) : g.Seated A n x := by
  refine ⟨by simp [hi], fun _ => hi, by simp [hi], by simp [hi], by simp [hi], ?_⟩
  intro s hsome
  rw [hs] at hsome
  cases hsome

/-! ## Changes of the labels -/

/-- A node that control has not left gets another label. -/
theorem Cert.relabel (h : g.Cert A) (hs : g.Sound O d) (hA : ∀ m, m ≠ b → A' m = A m)
    (hedge : ∀ {e d l}, g.edge? e = some d → d.target = b → A' b l → l = b ∨ A d.source l)
    (hstart : g.start = some b → ∀ l, A' b l → l = b) (hout : g.outgoing b = [])
    (hk : g.kindIs b NodeKind.isPlace = true ∨ g.kindIs b NodeKind.isMerge = true)
    (hsnap : g.snapshot? b = none ∨ ∀ l, A b l → A' b l) : g.Cert A' := by
  have hsrc : ∀ {e d}, g.edge? e = some d → A' d.source = A d.source := by
    intro e d hd
    refine hA _ fun hb => ?_
    have := hs.coherent.outgoing.2 ⟨d, hd, hb⟩
    rw [hout] at this
    cases this
  refine ⟨?_, ?_, ?_⟩
  · intro n x hx
    obtain ⟨h1, h2, h3, h4, h5, h6⟩ := h.node hx
    refine ⟨h1, h2, ?_, ?_, ?_, ?_⟩
    · intro hc i hi
      by_cases hb : n = b
      · subst hb
        rw [kindIs_of_kind? (kind?_of_node? hx), kindIs_of_kind? (kind?_of_node? hx)] at hk
        rw [h2 hk] at hi
        cases hi
      · rw [hA _ hb]
        exact h3 hc i hi
    · intro m v e d j hm hv he hd
      rw [hsrc hd]
      exact h4 hm hv he hd
    · intro e he i hi
      rw [hA]
      · exact h5 he i hi
      · rintro rfl
        obtain ⟨l, hl⟩ := (hs.node hx).proxy he
        rw [kindIs_of_kind? hl, kindIs_of_kind? hl] at hk
        rcases hk with hk | hk <;> cases hk
    · intro s hs'
      refine ⟨(h6 hs').1, fun a ha v hv => ?_⟩
      by_cases hb : n = b
      · subst hb
        rcases hsnap with hsnap | hsnap
        · rw [snapshot?, hx] at hsnap
          exact absurd (hs'.symm.trans hsnap) (by simp)
        · exact ((h6 hs').2 a ha v hv).mono hsnap
      · rw [hA _ hb]
        exact (h6 hs').2 a ha v hv
  · intro e d l hd hl
    rw [hsrc hd]
    by_cases hb : d.target = b
    · rw [hb] at hl ⊢
      exact hedge hd hb hl
    · rw [hA _ hb] at hl
      exact h.edge hd hl
  · intro s l hst hl
    by_cases hb : s = b
    · subst hb
      exact hstart hst l hl
    · rw [hA _ hb] at hl
      exact h.start hst hl

/-- What grows stays certified if the new parts are: nodes, edges, inputs of phis and snapshots. -/
theorem Cert.grown (h : g.Cert A) (hs : g.Sound O d)
    (hs' : g'.Sound O' d') (hg : Grows ss O1 O2 g g') (hA : ∀ n, n.index < g.nodeCount → A' n = A n)
    (hnew : ∀ {n x}, g.nodeCount ≤ n.index → g'.node? n = some x → g'.Seated A' n x)
    (hedge : ∀ {e d}, g'.edge? e = some d →
      g.edge? e = some d ∨ ∀ l, A' d.target l → l = d.target ∨ A' d.source l)
    (hphi : ∀ {n x m}, n.index < g.nodeCount → g'.node? n = some x → x.kind = .phi m →
      (∀ i ∈ x.inputs, i ∈ g.inputs n ∨ g'.kindIs i NodeKind.isValue = true) ∧
      ∀ {v e d} {j : Nat}, x.inputs[j]? = some v → (g'.incoming m)[j]? = some e →
        g'.edge? e = some d →
        ((g.inputs n)[j]? = some v ∧ (g.incoming m)[j]? = some e ∧ g.edge? e = some d) ∨
          g'.Avail (A' d.source) v)
    (hsnap : ∀ {n x s}, n.index < g.nodeCount → g'.node? n = some x → x.snapshot = some s →
      (∃ s0, g.snapshot? n = some s0 ∧ ∀ a ∈ s.chain, ∀ v ∈ a.frame.values,
        ∃ a0 ∈ s0.chain, v ∈ a0.frame.values) ∨
      (x.kind.isControl = true ∧ ∀ a ∈ s.chain, ∀ v ∈ a.frame.values, g'.Avail (A' n) v.node)) :
    g'.Cert A' := by
  have hend : ∀ {e d}, g.edge? e = some d → A' d.target = A d.target ∧ A' d.source = A d.source := by
    intro e d hd
    exact ⟨hA _ (lt_of_kindIs (hs.coherent.target hd)), hA _ (lt_of_kindIs (hs.coherent.source hd))⟩
  refine ⟨?_, ?_, ?_⟩
  · intro n x hx
    by_cases hn : n.index < g.nodeCount
    · have hk := hg.old hn (kind?_of_node? hx)
      obtain ⟨y, hy, hky⟩ := kind?_eq_some.1 hk
      obtain ⟨h1, h2, h3, h4, h5, h6⟩ := h.node hy
      have hlive : ∀ i ∈ x.inputs, g'.contains i = true :=
        fun i hi => ((hs'.node hx).inputs i hi).contains
      have hav : ∀ {P : NodeSet} {i}, i ∈ x.inputs → g.Avail P i → g'.Avail P i :=
        fun hi ha => ha.of_grows hs hg (hlive _ hi)
      have hval : ∀ {i}, i ∈ x.inputs → g.kindIs i NodeKind.isValue = true →
          g'.kindIs i NodeKind.isValue = true := by
        intro i hi hv
        exact (hav hi (P := fun _ => True) ⟨hv, fun _ => trivial⟩).value
      have hin : (∀ m, x.kind ≠ .phi m) → x.inputs = y.inputs := by
        intro hp
        have := (hg.inputs hn (kind?_of_node? hx)).2 hp
        rwa [inputs_of_node? hx, inputs_of_node? hy] at this
      refine ⟨?_, ?_, ?_, ?_, ?_, ?_⟩
      · intro i hi
        by_cases hp : ∃ m, x.kind = .phi m
        · obtain ⟨m, hm⟩ := hp
          refine ((hphi hn hx hm).1 i hi).elim (fun ho => hval hi ?_) id
          rw [inputs_of_node? hy] at ho
          exact h1 i ho
        · push Not at hp
          rw [hin hp] at hi
          exact hval (by rwa [hin hp]) (h1 i hi)
      · intro hm
        rw [hin, h2 (by rwa [hky])]
        rintro c hc
        rw [hc] at hm
        rcases hm with hm | hm <;> cases hm
      · intro hc i hi
        have hp : ∀ m, x.kind ≠ .phi m := by
          intro m hm
          rw [hm] at hc
          cases hc
        rw [hA n hn]
        refine hav hi (h3 (by rwa [hky]) i ?_)
        rwa [← hin hp]
      · intro m v e d' j hm hv he hd
        rcases (hphi hn hx hm).2 hv he hd with ⟨hv0, he0, hd0⟩ | ha
        · rw [(hend hd0).2]
          rw [inputs_of_node? hy] at hv0
          exact hav (List.mem_of_getElem? hv) (h4 (by rw [hky, hm]) hv0 he0 hd0)
        · exact ha
      · intro e he i hi
        obtain ⟨l, hl⟩ := (hs'.node hx).proxy he
        obtain ⟨l', hl'⟩ := (hs.node hy).proxy (hky.trans he)
        rw [hA e (lt_of_kind? hl')]
        refine hav hi (h5 (by rw [hky, he]) i ?_)
        rwa [← hin (by rw [he]; rintro m ⟨⟩)]
      · intro s hsn
        rcases hsnap hn hx hsn with ⟨s0, hs0, hsub⟩ | hav
        · rw [snapshot?, hy] at hs0
          refine ⟨hky ▸ (h6 hs0).1, fun a ha v hv => ?_⟩
          obtain ⟨a0, ha0, hv0⟩ := hsub a ha v hv
          rw [hA n hn]
          exact ((h6 hs0).2 a0 ha0 v hv0).of_grows hs hg ((hs'.node hx).snapshots hsn a ha v hv).contains
        · exact hav
    · exact hnew (Nat.le_of_not_lt hn) hx
  · intro e d l hd hl
    rcases hedge hd with hd0 | hd0
    · rw [(hend hd0).1] at hl
      rw [(hend hd0).2]
      exact h.edge hd0 hl
    · exact hd0 l hl
  · intro s l hst hl
    rw [hg.start] at hst
    obtain ⟨x, hx, -⟩ := hs.start hst
    rw [hA s (lt_nodeCount hx)] at hl
    exact h.start hst hl

end Graph

end StackLift
