import StackLift.Proofs.Arrival
import StackLift.Proofs.Trim

/-!
# Dropping carriers

A back edge that leaves a local undefined drops the phi of the local, with everything that only
carries it on. `Drops` says what is left of the graph and of the table, and `Inv.drops` that the build
can go on with that.
-/
namespace StackLift

variable {stuck : Fault} {f' : Frame} {g g' : Graph} {users : List (NodeId × Node)}
  {dead found' roots work' : List NodeId} {fuel : Nat} {m : NodeId} {s s' : Snapshot}

open BuildM

/-! ## Dropping carriers -/

section Drop

variable {E : Error → Prop} {sc : Scope} {w : Work} {p : Position}

/-- What dropping phis does: `dead` are the phis of `roots` and all that carries them. -/
structure Drops (w w' : Work) (roots dead : List NodeId) : Prop where
  carried : ∀ n, n ∈ dead ↔ w.graph.Carried roots n
  closed : ∀ i ∈ dead, ∀ n x, w.graph.node? n = some x → i ∈ x.inputs → n ∈ dead
  graph : Graph.Sheds w.graph w'.graph dead
  table : w.table.Without dead w'.table

theorem dropPhis_spec {b : BlockId} {headerFrame incoming : Frame}
    (hE : Expects E) (hco : w.graph.Coherent)
    (hroots : ∀ n ∈ roots, w.graph.kindIs n NodeKind.isControl = false) :
    Ensures E (dropPhis b headerFrame incoming roots p) sc w fun f w' => ∃ dead,
      Drops w w' roots dead ∧ (∀ v ∈ incoming.values, v.node ∉ dead) ∧
        headerFrame.withoutLocals? dead = some f := by
  refine (ensures_dropPhis ?_ fun dead hc n hn => hco.isolated ?_).mono ?_
  · rintro _ (rfl | ⟨user, rfl⟩) - <;> exact hE _ rfl
  · cases ((Graph.carriers_spec hc).2 n).1 hn with
    | root hr => exact hroots n hr
    | step _ hx _ hk =>
      rw [Graph.kindIs_of_kind? (Graph.kind?_of_node? hx)]
      revert hk
      generalize Node.kind _ = k
      cases k <;> simp [NodeKind.isCarrier, NodeKind.isControl, NodeKind.toClass, NodeClass.isControl]
  · rintro f w' ⟨dead, hc, hdrop, rfl, hd⟩
    obtain ⟨hclosed, hcarried⟩ := Graph.carriers_spec hc
    exact ⟨dead, ⟨hcarried, hclosed, hd.graph.sheds hdrop.snapshot, hd.table⟩, hdrop.incoming,
      Frame.withoutLocals?_eq_some.2 ⟨hdrop.header, rfl⟩⟩

end Drop

section Shed

variable {S : Scene} {cur : Nat} {w w' : Work} {d : Debt} {roots dead : List NodeId}
variable {b : BlockId} {e e' : Entry} {t t' : Table}

theorem Table.Without.open_eq (h : t.Without dead t') : S.Open t' = S.Open t := by
  funext n
  refine propext (or_congr_left ⟨?_, ?_⟩)
  · rintro ⟨b, e', he', hp, rfl⟩
    obtain ⟨e, he, hw⟩ := h.entry_inv he'
    exact ⟨b, e, he, hw.parsed ▸ hp, hw.node.symm⟩
  · rintro ⟨b, e, he, hp, rfl⟩
    obtain ⟨e', he', hw⟩ := h.entry_of he
    exact ⟨b, e', he', hw.parsed.trans hp, hw.node⟩

theorem Table.Without.keeps (h : t.Without dead t') : t.Keeps t' := by
  intro b e he hp
  obtain ⟨e', he', hw⟩ := h.entry_of he
  exact ⟨e', he', hw.parsed.trans hp, hw.node⟩

theorem Holds.without {O : NodeSet} {parsed : Bool} {f : Frame} (h : Holds g O m parsed f)
    (hf : f.withoutLocals? dead = some f') (hk : ∀ n, n ∉ dead → g'.kind? n = g.kind? n)
    (hdead : ∀ n ∈ dead, g'.kind? n = none) : Holds g' O m parsed f' := by
  refine ⟨?_, ?_, ?_⟩
  · intro v hv
    obtain ⟨hv, hd⟩ := (Frame.mem_values_withoutLocals? hf).1 hv
    rw [hk _ hd]
    exact (h.each v hv).imp_right fun hu => ⟨hu.1, hu.2.of_kind? fun k hkn => by rw [hk _ hd, hkn]⟩
  · have hsub : ((f'.values.map (·.node)).filter (isPhiOf g' · m)).Sublist
        ((f.values.map (·.node)).filter (isPhiOf g · m)) := by
      have heq : (f'.values.map (·.node)).filter (isPhiOf g' · m) =
          (f'.values.map (·.node)).filter (isPhiOf g · m) := by
        refine List.filter_congr fun n hn => ?_
        obtain ⟨v, hv, rfl⟩ := List.mem_map.1 hn
        have hd := ((Frame.mem_values_withoutLocals? hf).1 hv).2
        rw [Bool.eq_iff_iff, isPhiOf_iff, isPhiOf_iff, hk _ hd]
      rw [heq]
      exact ((Frame.values_withoutLocals?_sublist hf).map _).filter _
    exact hsub.nodup h.once
  · intro x hx
    have hd : x ∉ dead := by
      intro hd
      rw [hdead x hd] at hx
      cases hx
    rw [hk x hd] at hx
    obtain ⟨v, hv, rfl⟩ := List.mem_map.1 (h.all x hx)
    exact List.mem_map.2 ⟨v, (Frame.mem_values_withoutLocals? hf).2 ⟨hv, hd⟩, rfl⟩

theorem Stands.without (h : Stands S cur d w.graph w.table b e) (hd : Drops w w' roots dead)
    (hcarry : ∀ n ∈ dead, ∀ k, w.graph.kind? n = some k → k.isCarrier = true)
    (he : e.Without dead e') : Stands S cur d w'.graph w'.table b e' := by
  have hgone : ∀ n ∈ dead, w'.graph.kind? n = none := by
    intro n hn
    rw [Graph.kind?, hd.graph.gone hn]
    rfl
  have hdeg : ∀ n, w'.graph.inDegree n = w.graph.inDegree n := fun n => by
    simp only [Graph.inDegree, hd.graph.incoming]
  obtain ⟨k, hk, hek⟩ := h.kind
  have hnode : e.node ∉ dead := by
    intro hn
    have := hcarry _ hn k hk
    rw [hek.plain.1] at this
    cases this
  refine ⟨he.node ▸ h.young, ⟨k, ?_, hek⟩, ?_, ?_, ?_, ?_, ?_, ?_, ?_, ?_⟩
  · rw [he.node, hd.graph.kind? hnode, hk]
  · rw [he.parsed, he.isSome]
    exact h.parsed
  · intro hf
    have hf' : e.frame = none := by
      have := he.isSome
      rw [hf] at this
      simpa using this
    rw [he.node, hdeg]
    exact h.empty hf'
  · rw [he.isSome, he.node, hdeg, hd.graph.start]
    exact h.anchored
  · rw [he.isSome, he.node, hdeg]
    exact h.entered
  · rw [he.parsed, he.node, hd.graph.outgoing]
    exact h.silent
  · intro f' hf' hc
    obtain ⟨f, hf, hw⟩ := he.exists_frame hf'
    rw [he.parsed] at hc
    rw [he.node, he.parsed, hd.table.open_eq]
    exact (h.holds hf hc).without hw (fun n hn => hd.graph.kind? hn) hgone
  · rw [he.isSome]
    exact fun hf => (h.reached hf).mono hd.table.keeps.parsed
  · intro f' hf'
    obtain ⟨f, hf, hw⟩ := he.exists_frame hf'
    refine (h.shape hf).of_kinds ?_
    rw [(Frame.withoutLocals?_spec hw).1]

/-- Phis of a young join and what carries them can be dropped. -/
theorem Inv.drops [S.Fit] (h : Inv S cur d w) (hd : Drops w w' roots dead)
    (hm : S.graph.nodeCount ≤ m.index) (hroots : ∀ n ∈ roots, w.graph.kind? n = some (.phi m)) :
    Inv S cur d w' ∧ Evolves S [] w w' ∧
      ∀ n, n ∉ dead → w.graph.Usable (S.Open w.table) n → w'.graph.Usable (S.Open w'.table) n := by
  have hcarry : ∀ n ∈ dead, ∀ k, w.graph.kind? n = some k → k.isCarrier = true := by
    intro n hn k hk
    cases (hd.carried n).1 hn with
    | root hr =>
      rw [hroots n hr] at hk
      cases hk
      rfl
    | step _ hx _ hc =>
      rw [Graph.kind?_of_node? hx] at hk
      cases hk
      exact hc
  have hyoung : ∀ n ∈ dead, S.graph.nodeCount ≤ n.index := by
    intro n hn
    have hc := (hd.carried n).1 hn
    clear hn
    induction hc with
    | root hr =>
      have := h.sound.phi_lt (hroots _ hr)
      omega
    | @step i n _ _ hx hin _ ih =>
      by_contra hlt
      rw [Nat.not_le] at hlt
      have hfro := (h.based.frozen hlt).2.1
      rw [Graph.inputs_of_node? hx] at hfro
      have := Scene.Fit.inputs n i (hfro ▸ hin)
      omega
  have hopen : S.Open w'.table = S.Open w.table := hd.table.open_eq
  have hu : ∀ n, n ∉ dead → w.graph.Usable (S.Open w.table) n →
      w'.graph.Usable (S.Open w'.table) n := by
    intro n hn hu
    rw [hopen]
    exact hu.of_kind? fun k hk => by rw [hd.graph.kind? hn, hk]
  have hold : ∀ {n k}, w'.graph.kind? n = some k →
      n ∉ dead ∧ w.graph.kind? n = some k ∧ w'.graph.inputs n = w.graph.inputs n := by
    intro n k hk
    obtain ⟨y, hy, hyk⟩ := Graph.kind?_eq_some.1 hk
    obtain ⟨hn, x, hx, hkx, hin, -⟩ := hd.graph.inv hy
    exact ⟨hn, by rw [Graph.kind?_of_node? hx, ← hkx, hyk],
      by rw [Graph.inputs_of_node? hx, Graph.inputs_of_node? hy, hin]⟩
  refine ⟨⟨?_, ⟨?_, ?_, ?_, ?_, ?_, ?_⟩, ⟨?_, ?_, ?_⟩⟩, ⟨?_, hd.table.keeps⟩, hu⟩
  · rw [hopen]
    exact h.sound.sheds hd.graph hcarry fun hx i hi hdi => hd.closed i hdi _ _ hx hi
  · exact hd.table.size.trans h.placed.size
  · rw [hd.table.marks]
    exact h.placed.marks
  · intro l c hc
    obtain ⟨e, he, hl⟩ := h.placed.headers hc
    obtain ⟨e', he', hw⟩ := hd.table.entry_of he
    exact ⟨e', he', by rw [hd.table.headers, hl, hw.node]⟩
  · intro b c e e' he he' hn
    obtain ⟨x, hx, hwx⟩ := hd.table.entry_inv he
    obtain ⟨y, hy, hwy⟩ := hd.table.entry_inv he'
    exact h.placed.distinct hx hy (by rw [← hwx.node, ← hwy.node, hn])
  · rw [hd.table.exits]
    exact h.placed.exits
  · intro b e' he'
    obtain ⟨e, he, hw⟩ := hd.table.entry_inv he'
    exact (h.placed.stands he).without hd hcarry hw
  · rw [hd.graph.nodeCount]
    exact h.based.count
  · intro n hn
    obtain ⟨h1, h2, h3⟩ := h.based.frozen hn
    have hnd : n ∉ dead := fun hd => absurd hn (Nat.not_lt_of_le (hyoung n hd))
    refine ⟨(hd.graph.kind? hnd).trans h1, ?_, (hd.graph.incoming n).trans h3⟩
    rw [← h2]
    cases hk : w'.graph.kind? n with
    | some k => exact (hold hk).2.2
    | none =>
      have hk' := hk
      rw [hd.graph.kind? hnd] at hk'
      simp only [Graph.kind?, Option.map_eq_none_iff] at hk hk'
      simp only [Graph.inputs, hk, hk']
  · intro n c hk hn
    exact h.based.phis (hold hk).2.1 hn
  · rw [hopen]
    refine ⟨Nat.le_of_eq hd.graph.nodeCount.symm, .inl, ?_, fun _ hk => (hold hk).2.1, ?_, ?_, ?_, ?_, ?_,
      hd.graph.start⟩
    · intro n k hk hc
      rw [hd.graph.kind? fun hn => ?_, hk]
      rw [hcarry n hn k hk] at hc
      cases hc
    · intro n k _ hk
      rw [(hold hk).2.2]
      exact ⟨List.prefix_rfl, fun _ => rfl⟩
    · intro n _ _
      rw [hd.graph.incoming]
      exact ⟨List.prefix_rfl, fun _ _ _ => rfl⟩
    · exact fun _ _ _ => hd.graph.outgoing _
    · exact fun he _ _ => by rw [hd.graph.edge?, he]
    · exact fun he => ⟨_, by rw [hd.graph.edge?, he], rfl, rfl⟩

end Shed

end StackLift
