import StackLift.Proofs.Actions

/-!
# The phis of one join

A join, a loop header that is opened and a back edge all go through the values of a frame, slot by
slot, and change nothing but the phis of one node. `Slots` is what holds on the way: `done` are the
nodes of the slots that have been gone through, `rest` those of the slots still to come.

`Merging` adds that the graph stays sound. When an edge has just come in, or is about to, the phis in
`rest` still miss its input.
-/
namespace StackLift

open BuildM
open Graph hiding addEdge addNode addPhiInput kindIs setSnapshot

/-- From `g0` to `g` only the phis of `m` have changed. -/
structure Slots (g0 g : Graph) (m : NodeId) (done rest : List NodeId) : Prop extends SameWires g0 g where
  count : g0.nodeCount ≤ g.nodeCount
  kept : ∀ {n}, n.index < g0.nodeCount → g0.kind? n ≠ some (.phi m) → g.node? n = g0.node? n
  waiting : ∀ {n}, n ∈ rest → g.node? n = g0.node? n ∧ n.index < g0.nodeCount
  old : ∀ {n k}, n.index < g0.nodeCount → g.kind? n = some k →
    g0.kind? n = some k ∧ g0.inputs n <+: g.inputs n
  young : ∀ {n k}, g0.nodeCount ≤ n.index → g.kind? n = some k → k = .phi m
  done_lt : ∀ {n}, n ∈ done → n.index < g.nodeCount
  once : (done.filter (isPhiOf g · m) ++ rest.filter (isPhiOf g0 · m)).Nodup
  all : ∀ x, g.kind? x = some (.phi m) → x ∈ done ∨ x ∈ rest
  snapshot : ∀ n, g.snapshot? n = g0.snapshot? n ∨ g.snapshot? n = none

namespace Slots

variable {g0 g : Graph} {m x v : NodeId} {done rest : List NodeId}

theorem isPhiOf_false (h : g.kind? x ≠ some (.phi m)) : isPhiOf g x m = false := by
  rw [Bool.eq_false_iff]
  exact fun hc => h (isPhiOf_iff.1 hc)

theorem inDegree (h : Slots g0 g m done rest) (n : NodeId) : g.inDegree n = g0.inDegree n := by
  simp only [Graph.inDegree, h.incoming]

theorem init (hlive : ∀ x ∈ rest, x.index < g.nodeCount)
    (honce : (rest.filter (isPhiOf g · m)).Nodup)
    (hall : ∀ x, g.kind? x = some (.phi m) → x ∈ rest) : Slots g g m [] rest := by
  refine ⟨.refl g, Nat.le_refl _, fun _ _ => rfl, fun hn => ⟨rfl, hlive _ hn⟩,
    fun _ h => ⟨h, List.prefix_rfl⟩, ?_, by simp, by simpa using honce,
    fun x hx => .inr (hall x hx), fun _ => .inl rfl⟩
  intro n k hn hk
  exact absurd (lt_of_kind? hk) (Nat.not_lt_of_le hn)

theorem kind?_head (h : Slots g0 g m done (x :: rest)) : g.kind? x = g0.kind? x :=
  kind?_congr (h.waiting (by simp)).1

theorem filter_rest (hx : g0.kind? x ≠ some (.phi m)) :
    (x :: rest).filter (isPhiOf g0 · m) = rest.filter (isPhiOf g0 · m) := by
  simp [isPhiOf_false hx]

section

variable (h : Slots g0 g m done (x :: rest))
include h

theorem phi_head (hx : g0.kind? x = some (.phi m)) : g.kind? x = some (.phi m) ∧ x ∉ done ∧ x ∉ rest := by
  have hk := h.kind?_head.trans hx
  have honce := h.once
  simp only [isPhiOf_iff.2 hx, List.filter_cons_of_pos] at honce
  refine ⟨hk, fun hmem => ?_, fun hmem => ?_⟩
  · exact (List.nodup_append.1 honce).2.2 x (List.mem_filter.2 ⟨hmem, isPhiOf_iff.2 hk⟩) x
      (by simp) rfl
  · exact (List.nodup_cons.1 (List.nodup_append.1 honce).2.1).1
      (List.mem_filter.2 ⟨hmem, isPhiOf_iff.2 hx⟩)

theorem all_head {y : NodeId} (hy : g.kind? y = some (.phi m)) : y ∈ done ++ [x] ∨ y ∈ rest := by
  rcases h.all y hy with h' | h'
  · exact .inl (List.mem_append_left _ h')
  · exact (List.mem_cons.1 h').imp_left fun heq => by simp [heq]

theorem skip (hx : g0.kind? x ≠ some (.phi m)) : Slots g0 g m done rest := by
  refine { h with waiting := fun hn => h.waiting (List.mem_cons_of_mem _ hn), once := ?_, all := ?_ }
  · rw [← filter_rest hx]
    exact h.once
  · intro y hy
    refine (h.all y hy).imp_right fun h' => (List.mem_cons.1 h').resolve_left ?_
    rintro rfl
    exact hx (h.kind?_head ▸ hy)

theorem keep : Slots g0 g m (done ++ [x]) rest := by
  refine { h with
    waiting := fun hn => h.waiting (List.mem_cons_of_mem _ hn)
    done_lt := ?_, once := ?_, all := fun y hy => h.all_head hy }
  · intro n hn
    rcases List.mem_append.1 hn with hn | hn
    · exact h.done_lt hn
    · rw [List.mem_singleton.1 hn]
      exact Nat.lt_of_lt_of_le (h.waiting (by simp)).2 h.count
  · have hphi : isPhiOf g x m = isPhiOf g0 x m := by simp only [isPhiOf, h.kind?_head]
    have := h.once
    rw [List.filter_append, List.filter_singleton, hphi]
    cases hx : isPhiOf g0 x m <;> simpa [List.filter_cons, hx] using this

/-- A phi gets the input that it missed. -/
theorem fill (hx : g0.kind? x = some (.phi m)) :
    Slots g0 (g.modifyNode x fun y => { y with inputs := y.inputs ++ [v] }) m (done ++ [x]) rest := by
  obtain ⟨hk, -, hxr⟩ := h.phi_head hx
  have h' := h.keep
  have hkind : ∀ n, (g.modifyNode x fun y => { y with inputs := y.inputs ++ [v] }).kind? n =
      g.kind? n :=
    fun n => kind?_modifyNode (f := fun y => { y with inputs := y.inputs ++ [v] }) fun _ => rfl
  have hother : ∀ {n}, n ≠ x →
      (g.modifyNode x fun y => { y with inputs := y.inputs ++ [v] }).node? n = g.node? n := by
    intro n hn
    rw [node?_modifyNode, if_neg hn]
  refine ⟨h.toSameWires.trans (.modifyNode g x _), by simpa using h.count, ?_, ?_, ?_, ?_, ?_, ?_, ?_, ?_⟩
  · intro n hn hnk
    rw [hother, h.kept hn hnk]
    rintro rfl
    exact hnk hx
  · intro n hn
    rw [hother]
    · exact h'.waiting hn
    · rintro rfl
      exact hxr hn
  · intro n k hn hnk
    rw [hkind] at hnk
    obtain ⟨h1, h2⟩ := h.old hn hnk
    refine ⟨h1, h2.trans ?_⟩
    by_cases hnx : n = x
    · subst hnx
      obtain ⟨y, hy, -⟩ := kind?_eq_some.1 hnk
      have : (g.modifyNode n fun y => { y with inputs := y.inputs ++ [v] }).inputs n =
          y.inputs ++ [v] := by simp [inputs, node?_modifyNode, hy]
      rw [this, inputs_of_node? hy]
      exact List.prefix_append _ _
    · exact ⟨[], by rw [List.append_nil, inputs_congr (hother hnx)]⟩
  · intro n k hn hnk
    rw [hkind] at hnk
    exact h.young hn hnk
  · intro n hn
    simpa using h'.done_lt hn
  · have hphi : ∀ n, isPhiOf (g.modifyNode x fun y => { y with inputs := y.inputs ++ [v] }) n m =
        isPhiOf g n m := by
      intro n
      simp only [isPhiOf, hkind]
    simp only [hphi]
    exact h'.once
  · intro y hy
    rw [hkind] at hy
    exact h.all_head hy
  · intro n
    have : (g.modifyNode x fun y => { y with inputs := y.inputs ++ [v] }).snapshot? n =
        g.snapshot? n := by
      simp only [snapshot?, node?_modifyNode]
      split
      · cases g.node? n <;> rfl
      · rfl
    rw [this]
    exact h.snapshot n

/-- A slot gets a new phi. -/
theorem grow {I : List NodeId} (hx : g0.kind? x ≠ some (.phi m)) :
    Slots g0 (g.addNode (.phi m) I).2 m (done ++ [⟨g.nodeCount⟩]) rest := by
  have h' := h.skip hx
  have hold : ∀ {n : NodeId}, n.index < g.nodeCount →
      (g.addNode (.phi m) I).2.node? n = g.node? n := by
    intro n hn
    rw [node?_addNode, if_neg]
    rintro rfl
    exact Nat.lt_irrefl _ hn
  have hlt : ∀ {n : NodeId}, n.index < g0.nodeCount → n.index < g.nodeCount :=
    fun hn => Nat.lt_of_lt_of_le hn h.count
  have hnew : (g.addNode (.phi m) I).2.kind? ⟨g.nodeCount⟩ = some (.phi m) := by
    rw [kind?_addNode, if_pos rfl]
  refine ⟨h.toSameWires.trans (.addNode g _ I), ?_, ?_, ?_, ?_, ?_, ?_, ?_, ?_, ?_⟩
  · simpa using Nat.le_succ_of_le h.count
  · intro n hn hnk
    rw [hold (hlt hn), h.kept hn hnk]
  · intro n hn
    obtain ⟨h1, h2⟩ := h'.waiting hn
    exact ⟨by rw [hold (hlt h2), h1], h2⟩
  · intro n k hn hnk
    rw [kind?_congr (hold (hlt hn))] at hnk
    rw [inputs_congr (hold (hlt hn))]
    exact h.old hn hnk
  · intro n k hn hnk
    rw [kind?_addNode] at hnk
    split at hnk
    · exact (Option.some.inj hnk).symm
    · exact h.young hn hnk
  · intro n hn
    rw [nodeCount_addNode]
    rcases List.mem_append.1 hn with hn | hn
    · exact Nat.lt_succ_of_lt (h.done_lt hn)
    · rw [List.mem_singleton.1 hn]
      exact Nat.lt_succ_self _
  · have hphi : ∀ n ∈ done, isPhiOf (g.addNode (.phi m) I).2 n m = isPhiOf g n m := by
      intro n hn
      simp only [isPhiOf, kind?_congr (hold (h.done_lt hn))]
    rw [List.filter_append, List.filter_congr hphi]
    simp only [List.filter_cons, isPhiOf_iff.2 hnew, if_true, List.filter_nil, List.append_assoc,
      List.singleton_append]
    refine List.nodup_middle.2 (List.nodup_cons.2 ⟨fun hmem => ?_, h'.once⟩)
    rcases List.mem_append.1 hmem with hmem | hmem
    · exact Nat.lt_irrefl _ (h.done_lt (List.mem_filter.1 hmem).1)
    · exact Nat.lt_irrefl _ (hlt (h'.waiting (List.mem_filter.1 hmem).1).2)
  · intro y hy
    rw [kind?_addNode] at hy
    split at hy
    · next heq => exact .inl (by simp [heq])
    · exact (h'.all y hy).imp_left fun hm => List.mem_append_left _ hm
  · intro n
    rw [snapshot?, node?_addNode]
    split
    · exact .inr rfl
    · exact h.snapshot n

theorem drop (hx : g0.kind? x = some (.phi m)) (hc : Clears g (g.removeNode x) x) :
    Slots g0 (g.removeNode x) m done rest := by
  obtain ⟨hk, hxd, hxr⟩ := h.phi_head hx
  have hother : ∀ {n}, n ≠ x → (g.removeNode x).node? n = g.node? n :=
    fun hn => by rw [hc.node?, if_neg hn]
  have hne : ∀ {n k}, (g.removeNode x).kind? n = some k → n ≠ x := by
    rintro n k hnk rfl
    rw [kind?, hc.node?, if_pos rfl] at hnk
    cases hnk
  refine ⟨h.toSameWires.trans hc.toSameWires, ?_, ?_, ?_, ?_, ?_, ?_, ?_, ?_, ?_⟩
  · rw [hc.nodeCount]
    exact h.count
  · intro n hn hnk
    rw [hother, h.kept hn hnk]
    rintro rfl
    exact hnk hx
  · intro n hn
    rw [hother]
    · exact h.waiting (List.mem_cons_of_mem _ hn)
    · rintro rfl
      exact hxr hn
  · intro n k hn hnk
    rw [inputs_congr (hother (hne hnk))]
    rw [kind?_congr (hother (hne hnk))] at hnk
    exact h.old hn hnk
  · intro n k hn hnk
    rw [kind?_congr (hother (hne hnk))] at hnk
    exact h.young hn hnk
  · intro n hn
    rw [hc.nodeCount]
    exact h.done_lt hn
  · have hphi : ∀ n ∈ done, isPhiOf (g.removeNode x) n m = isPhiOf g n m := by
      intro n hn
      have hnx : n ≠ x := fun heq => hxd (heq ▸ hn)
      simp only [isPhiOf, kind?_congr (hother hnx)]
    have honce := h.once
    simp only [isPhiOf_iff.2 hx, List.filter_cons_of_pos] at honce
    rw [List.filter_congr hphi]
    exact (List.nodup_cons.1 (List.nodup_middle.1 honce)).2
  · intro y hy
    have hyx := hne hy
    rw [kind?_congr (hother hyx)] at hy
    exact (h.all y hy).imp_right fun hm => (List.mem_cons.1 hm).resolve_left hyx
  · intro n
    rw [snapshot?, hc.node?]
    split
    · exact .inr rfl
    · exact h.snapshot n

end

end Slots

/-- The graph stays sound while the slots are gone through. -/
structure Merging (O : NodeSet) (d : Debt) (owing : Bool) (g0 g : Graph) (m : NodeId)
    (done rest : List NodeId) : Prop extends Slots g0 g m done rest where
  sound : g.Sound O { d with late := if owing then rest.filter (isPhiOf g0 · m) else [] }
  each : ∀ n ∈ done, g.kind? n = some (.phi m) ∨ g.Usable O n

namespace Merging

variable {O : NodeSet} {d : Debt} {owing : Bool} {g0 g : Graph} {m x v : NodeId}
  {done rest I : List NodeId}

theorem init (hs : g.Sound O { d with late := if owing then rest.filter (isPhiOf g · m) else [] })
    (hlive : ∀ x ∈ rest, x.index < g.nodeCount) (honce : (rest.filter (isPhiOf g · m)).Nodup)
    (hall : ∀ x, g.kind? x = some (.phi m) → x ∈ rest) :
    Merging O d owing g g m [] rest := ⟨.init hlive honce hall, hs, by simp⟩

theorem each_append (h : Merging O d owing g0 g m done rest)
    (hx : g.kind? x = some (.phi m) ∨ g.Usable O x) :
    ∀ n ∈ done ++ [x], g.kind? n = some (.phi m) ∨ g.Usable O n := by
  intro n hn
  rcases List.mem_append.1 hn with hn | hn
  · exact h.each n hn
  · rw [List.mem_singleton.1 hn]
    exact hx

theorem keep (h : Merging O d owing g0 g m done (x :: rest)) (hx : g0.kind? x ≠ some (.phi m))
    (hu : g.Usable O x) : Merging O d owing g0 g m (done ++ [x]) rest := by
  refine ⟨h.toSlots.keep, ?_, h.each_append (.inr hu)⟩
  rw [← Slots.filter_rest hx]
  exact h.sound

theorem skip (h : Merging O d owing g0 g m done (x :: rest)) (hx : g0.kind? x ≠ some (.phi m)) :
    Merging O d owing g0 g m done rest := by
  refine ⟨h.toSlots.skip hx, ?_, h.each⟩
  rw [← Slots.filter_rest hx]
  exact h.sound

theorem stay (h : Merging O d false g0 g m done (x :: rest)) (hx : g0.kind? x = some (.phi m)) :
    Merging O d false g0 g m (done ++ [x]) rest :=
  ⟨h.toSlots.keep, h.sound, h.each_append (Or.inl (h.kind?_head.trans hx))⟩

theorem fill (h : Merging O d true g0 g m done (x :: rest)) (hx : g0.kind? x = some (.phi m))
    (hv : g.Usable O v) :
    Merging O d true g0 (g.modifyNode x fun y => { y with inputs := y.inputs ++ [v] }) m
      (done ++ [x]) rest := by
  obtain ⟨hk, -, hxr⟩ := h.phi_head hx
  have hkind : ∀ n, (g.modifyNode x fun y => { y with inputs := y.inputs ++ [v] }).kind? n =
      g.kind? n :=
    fun n => kind?_modifyNode (f := fun y => { y with inputs := y.inputs ++ [v] }) fun _ => rfl
  refine ⟨h.toSlots.fill hx, ?_, fun n hn => ?_⟩
  · refine (h.sound.addPhiInput (l := rest.filter (isPhiOf g0 · m)) hv ?_ ?_ ?_)
    · simp [isPhiOf_iff.2 hx]
    · exact fun hm => hxr (List.mem_filter.1 hm).1
    · intro y hy
      simp [List.mem_filter, hy]
  · rw [hkind]
    exact (h.each_append (.inl hk) n hn).imp_right fun hu =>
      hu.of_kind? fun k hk => (hkind n).trans hk

theorem grow (h : Merging O d owing g0 g m done (x :: rest))
    (hx : g0.kind? x ≠ some (.phi m)) (hm : g.kindIs m NodeKind.isMerge = true)
    (hin : ∀ i ∈ I, g.Usable O i) (hne : I ≠ []) (hlen : I.length = g0.inDegree m + d.expected m) :
    Merging O d owing g0 (g.addNode (.phi m) I).2 m (done ++ [⟨g.nodeCount⟩]) rest := by
  have h' := h.skip hx
  refine ⟨h.toSlots.grow hx, ?_, fun n hn => ?_⟩
  · refine h'.sound.addNode ⟨hin, ?_, ?_, ?_⟩ ?_
    · rintro m' heq
      cases heq
      refine ⟨hm, hne, ?_⟩
      rw [h.inDegree]
      exact hlen
    · rintro e heq
      cases heq
    · rintro e (heq | heq) <;> cases heq
    · intro y hy
      cases owing with
      | false => cases hy
      | true =>
        have hy' : y ∈ rest := (List.mem_filter.1 hy).1
        exact Nat.lt_of_lt_of_le (h'.waiting hy').2 h.count
  · rcases List.mem_append.1 hn with hn | hn
    · exact (h.each n hn).imp kind?_addNode_of
        fun hu => hu.of_kind? fun _ => kind?_addNode_of
    · rw [List.mem_singleton.1 hn, kind?_addNode, if_pos rfl]
      exact .inl rfl

/-- A slot of an open join loses its phi, which nobody else knows. -/
theorem drop (h : Merging O d true g0 g m done (x :: rest)) (hx : g0.kind? x = some (.phi m))
    (hO : O m) : Merging O d true g0 (g.removeNode x) m done rest := by
  obtain ⟨hk, hxd, -⟩ := h.phi_head hx
  have hnu : ¬ g.Usable O x := by
    rintro ⟨k, hk', -, hnO⟩
    rw [hk] at hk'
    cases hk'
    exact hnO m rfl hO
  obtain ⟨ho, hi⟩ := h.sound.coherent.isolated (n := x) (kindIs_of_kind? hk)
  have hc := removeNode_clears ho hi
  have hother : ∀ {n}, n ≠ x → (g.removeNode x).node? n = g.node? n :=
    fun hn => by rw [hc.node?, if_neg hn]
  have hgone : (g.removeNode x).node? x = none := by rw [hc.node?, if_pos rfl]
  have hsheds : Sheds g (g.removeNode x) [x] := by
    refine ⟨hc.toSameWires, ?_, ?_, ?_, hc.nodeCount⟩
    · intro n hn
      rw [List.mem_singleton.1 hn, hgone]
    · intro n y hy hn
      refine ⟨y, ?_, rfl, rfl, id, fun s hs => ⟨s, hs, ?_⟩⟩
      · rw [hother (by simpa using hn), hy]
      · intro a ha v hv
        refine ⟨fun hmem => ?_, a, ha, hv⟩
        have := (h.sound.node hy).snapshots hs a ha v hv
        rw [List.mem_singleton.1 hmem] at this
        exact hnu this
    · intro n y hy
      refine ⟨y, ?_⟩
      rwa [hother] at hy
      rintro rfl
      rw [hgone] at hy
      cases hy
  have hsound : (g.removeNode x).Sound O
      { d with late := (x :: rest).filter (isPhiOf g0 · m) } := by
    refine h.sound.sheds hsheds ?_ ?_
    · intro n hn k hk'
      rw [List.mem_singleton.1 hn, hk] at hk'
      cases hk'
      rfl
    · intro n y hy i hi hmem
      have := (h.sound.node hy).inputs i hi
      rw [List.mem_singleton.1 hmem] at this
      exact absurd this hnu
  refine ⟨h.toSlots.drop hx hc, ?_, fun n hn => ?_⟩
  · refine hsound.adjust (fun _ hm _ => hm) (fun _ _ _ hb => hb.imp_right .inl)
      (fun _ _ hl => .inr (.inl hl)) ?_ fun _ hb => .inl hb
    intro n y m' hy _
    have hnx : n ≠ x := by
      rintro rfl
      rw [hgone] at hy
      cases hy
    have : Debt.missing { d with late := rest.filter (isPhiOf g0 · m) } n =
        Debt.missing { d with late := (x :: rest).filter (isPhiOf g0 · m) } n := by
      simp [Debt.missing, List.mem_filter, hnx]
    exact congrArg (· + _) this
  · have hnx : n ≠ x := fun heq => hxd (heq ▸ hn)
    rw [kind?_congr (hother hnx)]
    exact (h.each n hn).imp_right fun hu => hu.of_kind? fun k hk' => by
      rw [kind?_congr (hother hnx), hk']

section

variable (h : Merging O d owing g0 g m done rest)
include h

theorem usable_iff (hO : O m) : g.Usable O x ↔ g0.Usable O x := by
  constructor
  · rintro ⟨k, hk, hp, hn⟩
    have hlt : x.index < g0.nodeCount := by
      rcases Nat.lt_or_ge x.index g0.nodeCount with hlt | hge
      · exact hlt
      · exact absurd hO (hn m (h.young hge hk))
    exact ⟨k, (h.old hlt hk).1, hp, hn⟩
  · rintro ⟨k, hk, hp, hn⟩
    refine ⟨k, ?_, hp, hn⟩
    rw [kind?_congr (h.kept (lt_of_kind? hk) ?_), hk]
    rw [hk]
    exact fun heq => hn m (Option.some.inj heq) hO

theorem kindIs_iff {n : NodeId} {p : NodeKind → Bool}
    (hp : ∀ k : NodeKind, p k = true → k.isCarrier = false) (hn : g0.kindIs n p = true) :
    g.kindIs n p = true := by
  obtain ⟨k, hk, hpk⟩ := Graph.kindIs_iff.1 hn
  refine Graph.kindIs_iff.2 ⟨k, ?_, hpk⟩
  rw [kind?_congr (h.kept (lt_of_kind? hk) ?_), hk]
  rw [hk]
  rintro heq
  cases heq
  cases hp _ hpk

/-! ## When all slots have been gone through -/

theorem grows : Grows [] O O g0 g := by
  refine ⟨h.count, .inl, ?_, fun hn hk => (h.old hn hk).1, ?_, ?_, ?_, ?_, ?_, h.start⟩
  · intro n k hk hc
    rw [kind?_congr (h.kept (lt_of_kind? hk) ?_), hk]
    rw [hk]
    rintro heq
    cases heq
    cases hc
  · intro n k hn hk
    obtain ⟨h1, h2⟩ := h.old hn hk
    refine ⟨h2, fun hp => inputs_congr (h.kept hn ?_)⟩
    rw [h1]
    exact fun heq => hp m (Option.some.inj heq)
  · intro n _ _
    rw [h.incoming]
    exact ⟨List.prefix_rfl, fun _ _ _ => rfl⟩
  · intro n _ _ _
    rw [h.outgoing]
  · intro e y hy _ _
    rw [h.edge?, hy]
  · intro e y hy
    exact ⟨y, by rw [h.edge?, hy], rfl, rfl⟩

theorem phi_iff {c : NodeId} (hc : c ≠ m) :
    g.kind? x = some (.phi c) ↔ g0.kind? x = some (.phi c) := by
  constructor
  · intro hx
    rcases Nat.lt_or_ge x.index g0.nodeCount with hlt | hge
    · exact (h.old hlt hx).1
    · have := h.young hge hx
      cases this
      exact absurd rfl hc
  · intro hx
    rw [kind?_congr (h.kept (lt_of_kind? hx) ?_), hx]
    rw [hx]
    intro heq
    cases heq
    exact hc rfl

end

theorem holds {f : Frame} (h : Merging O d owing g0 g m done [])
    (hf : f.values.map (·.node) = done) : Holds g O m false f := by
  subst hf
  refine ⟨?_, ?_, ?_⟩
  · intro v hv
    exact (h.each v.node (List.mem_map.2 ⟨v, hv, rfl⟩)).imp_right fun hu => ⟨rfl, hu⟩
  · simpa using h.once
  · intro x hx
    simpa using h.all x hx

theorem based {S : Scene} (h : Merging O d owing g0 g m done rest) (hb : Based S g0)
    (hm : S.graph.nodeCount ≤ m.index) (hlt : ∀ x, g0.kind? x = some (.phi m) → m.index < x.index) :
    Based S g := by
  refine ⟨Nat.le_trans hb.count h.count, ?_, ?_⟩
  · intro n hn
    have hnk : g0.kind? n ≠ some (.phi m) := by
      intro hk
      have := hlt n hk
      omega
    have hnode := h.kept (Nat.lt_of_lt_of_le hn hb.count) hnk
    rw [kind?_congr hnode, inputs_congr hnode, h.incoming]
    exact hb.frozen hn
  · intro n c hk hn
    rcases Nat.lt_or_ge n.index g0.nodeCount with hlt | hge
    · exact hb.phis (h.old hlt hk).1 hn
    · have := h.young hge hk
      cases this
      exact hm

end Merging

end StackLift
