import StackLift.Proofs.Steps

/-!
# Opening a block

When a block is lifted, no edge but a back edge comes in any more. Its join is closed (`Good.open`):
what its phis carry may be used by everybody from now on. Before that, every value of a loop header
becomes a phi (`Good.begun`), and its label is cut down to what was passed before the method: nothing
in the loop knows over which edge the header was entered.
-/
namespace StackLift

open BuildM
open Graph hiding addEdge addNode addPhiInput kindIs setSnapshot

/-- All values of the frame `f0` of a header became phis. -/
structure Begun (O : NodeSet) (d : Debt) (g0 g : Graph) (node : NodeId) (f0 f : Frame) : Prop where
  merging : Merging O d false g0 g node (f.values.map (·.node)) []
  same : ∀ {n}, n.index < g0.nodeCount → g.node? n = g0.node? n
  young : ∀ {n y}, g0.nodeCount ≤ n.index → g.node? n = some y → ∃ v ∈ f0.values,
    g0.kind? v.node ≠ some (.phi node) ∧
      y = { kind := .phi node, inputs := List.replicate (g0.inDegree node) v.node }
  phis : ∀ v ∈ f.values, g.kind? v.node = some (.phi node)
  kinds : f.stack.map (·.kind) = f0.stack.map (·.kind)

section Opening

variable {E : Error → Prop} {sc : Scope} {S : Scene} {cur : Nat}
  {bare loose part : List NodeId} {A : Labels} {w w' : Work} {b : BlockId} {e : Entry}
  {f f0 : Frame} {node : NodeId} {O : NodeSet} {d : Debt}
variable {exits : Exits} {marks : Array (Option Nat)}

/-- The loop over the values of a header's frame. -/
theorem beginLoop_spec {loopIndex : Nat} (hs : w.graph.Sound O d) (hlate : d.late = [])
    (hdue : d.due = none) (hm : w.graph.kindIs node NodeKind.isMerge = true)
    (hpos : 0 < w.graph.inDegree node) (hh : Holds w.graph O node false f0)
    (hmarks : loopIndex < w.table.marks.size) :
    Ensures E (beginLoop loopIndex node f0) sc w fun f w' =>
      Begun O d w.graph w'.graph node f0 f ∧ w'.table.marks.size = w.table.marks.size ∧
        w'.table = { w.table with marks := w'.table.marks } := by
  have hlt : ∀ v ∈ f0.values, v.node.index < w.graph.nodeCount := by
    intro v hv
    rcases hh.each v hv with hk | ⟨-, hu⟩
    · exact lt_of_kind? hk
    · exact hu.lt
  unfold beginLoop
  refine ensures_get_bind ?_
  dsimp only
  refine (ensures_mapValuesM (fun rest done w' => w'.table = w.table ∧
    Merging O d false w.graph w'.graph node (done.map (·.node)) (rest.map (·.node)) ∧
    (∀ {n}, n.index < w.graph.nodeCount → w'.graph.node? n = w.graph.node? n) ∧
    (∀ {n y}, w.graph.nodeCount ≤ n.index → w'.graph.node? n = some y → ∃ v ∈ f0.values,
      w.graph.kind? v.node ≠ some (.phi node) ∧
        y = { kind := .phi node, inputs := List.replicate (w.graph.inDegree node) v.node }) ∧
    (∀ v ∈ done, w'.graph.kind? v.node = some (.phi node)) ∧
    ∃ pre, f0.values = pre ++ rest ∧ List.Forall₂ (fun v v' : Value => v'.kind = v.kind) pre done)
    ?_ ?_).bind fun f w1 h1 => ?_
  · rintro v rest done w1 ⟨ht, hmerge, hsame, hyoung, hphis, pre, hpre, hkinds⟩
    have hv : v ∈ f0.values := by simp [hpre]
    rw [List.map_cons] at hmerge
    have hsame_kind : w1.graph.kind? v.node = w.graph.kind? v.node :=
      kind?_congr (hsame (hlt v hv))
    refine ensures_get_bind ?_
    split
    · next hphi =>
      rw [isPhiOf_iff, hsame_kind] at hphi
      refine ensures_pure ⟨ht, by simpa using hmerge.stay hphi, hsame, hyoung, fun u hu => ?_,
        pre ++ [v], by simp [hpre], List.rel_append hkinds (.cons rfl .nil)⟩
      rcases List.mem_append.1 hu with hu | hu
      · exact hphis u hu
      · rw [List.mem_singleton.1 hu, hsame_kind, hphi]
    · next hphi =>
      rw [isPhiOf_iff, hsame_kind] at hphi
      have hu : w.graph.Usable O v.node := ((hh.each v hv).resolve_left hphi).2
      have hgrow := hmerge.grow (I := List.replicate (w.graph.inDegree node) v.node) hphi ?_ ?_ ?_ ?_
      · refine (ensures_addNode (Q := fun n w' => n = ⟨w1.graph.nodeCount⟩ ∧ w' =
          { w1 with graph := (w1.graph.addNode (.phi node)
            (List.replicate (w.graph.inDegree node) v.node)).2 }) ⟨rfl, rfl⟩).bind
          fun n w2 h2 => ensures_pure ?_
        obtain ⟨rfl, rfl⟩ := h2
        have hcount := hmerge.count
        refine ⟨ht, by simpa using hgrow, fun hn => ?_, fun hn hy => ?_, fun u hu => ?_, pre ++ [v],
          by simp [hpre], List.rel_append hkinds (.cons rfl .nil)⟩
        · rw [node?_addNode_of_lt (Nat.lt_of_lt_of_le hn hcount), hsame hn]
        · rcases node?_addNode_inv hy with ⟨-, rfl⟩ | hy
          · exact ⟨v, hv, hphi, rfl⟩
          · exact hyoung hn hy
        · rcases List.mem_append.1 hu with hu | hu
          · exact kind?_addNode_of (hphis u hu)
          · rw [List.mem_singleton.1 hu]
            exact by simp [kind?_addNode]
      · obtain ⟨k, hk, hkm⟩ := kindIs_iff.1 hm
        exact kindIs_iff.2 ⟨k, (kind?_congr (hsame (lt_of_kind? hk))).trans hk, hkm⟩
      · intro i hi
        rw [List.eq_of_mem_replicate hi]
        exact hu.of_kind? fun k hk => hsame_kind.trans hk
      · simp only [ne_eq, List.replicate_eq_nil_iff]
        omega
      · simp [Debt.expected, hdue]
  · refine ⟨rfl, ?_, fun _ => rfl, fun hn hy => ?_, by simp, [], by simp, .nil⟩
    · refine .init ?_ ?_ hh.once fun x hx => hh.all x hx
      · have : ({ d with late := [] } : Debt) = d := by rw [← hlate]
        simpa [this] using hs
      · intro x hx
        obtain ⟨v, hv, rfl⟩ := List.mem_map.1 hx
        exact hlt v hv
    · exact absurd (lt_nodeCount hy) (Nat.not_lt_of_le hn)
  · obtain ⟨⟨ht, hmerge, hsame, hyoung, hphis, pre, hpre, hkinds⟩, halike⟩ := h1
    refine ensures_get_bind ?_
    rw [if_neg (by rw [ht]; exact Nat.not_le_of_lt hmarks)]
    refine (ensures_changeTable (Q := fun _ w' => w' = { w1 with table :=
      { w1.table with marks := w1.table.marks.setIfInBounds loopIndex (some w.graph.nodeCount) } })
      rfl).bind fun _ w2 h2 => ensures_pure ?_
    subst h2
    rw [List.append_nil] at hpre
    refine ⟨⟨hmerge, hsame, hyoung, hphis, ?_⟩, by simp [ht], by rw [ht]⟩
    exact (halike.rel (R := fun v v' => v'.kind = v.kind) (by rw [hpre]; exact hkinds)).kinds
      fun v v' hv => hv

theorem Begun.usable (h : Begun O d w.graph w'.graph node f0 f) (n : NodeId)
    (hn : w.graph.Usable O n) : w'.graph.Usable O n :=
  hn.of_kind? fun _ hk => (kind?_congr (h.same (lt_of_kind? hk))).trans hk

/-- Every value of a header that is about to be lifted is a phi; its label names only what was passed
before the method. -/
theorem Good.begun (h : Good S cur bare loose part A w) (he : w.table.slot? b = some e)
    (hp : e.parsed = false) (hf : e.frame = some f0)
    (hmerge : w.graph.kindIs e.node NodeKind.isMerge = true)
    (hbegun : Begun (S.Open w.table) (owe bare loose) w.graph w'.graph e.node f0 f)
    (ht : w'.table = w.table.put b { e with frame := some f }) :
    Good S cur bare loose part (label A e.node S.base) w' ∧ Extends S [] w w' := by
  have hm := hbegun.merging
  have hO : S.Open w.table e.node := .inl ⟨b, e, he, hp, rfl⟩
  have hopen : S.Open w'.table = S.Open w.table := ht ▸ Scene.open_put he rfl rfl
  have hst := h.inv.placed.stands he
  have hsome : e.frame.isSome = true := by rw [hf]; rfl
  have hco := h.inv.sound.coherent
  have hgrows := hm.grows
  have hu := hbegun.usable
  obtain ⟨hinv, hext⟩ : Inv S cur (owe bare loose) w' ∧ Extends S [] w w' := by
    refine h.inv.receive he hp (hst.unlifted hp hf) (hst.reached hsome)
      ((hst.shape hf).of_kinds hbegun.kinds) ht
      hm.sound ?_ hgrows hu (hm.holds rfl) ?_ (fun hl => ?_) (fun y hy => .inr hy)
        (fun n _ => hm.inDegree n)
      (fun n _ => hm.outgoing n) fun x hc => hm.phi_iff hc
    · exact hm.based h.inv.based hst.young fun y hy => h.inv.sound.phi_lt hy
    · rw [hm.inDegree, hm.start]
      exact hst.anchored hsome
    · rw [hm.inDegree]
      exact hst.entered hsome hl
  have hrelabel : w.graph.Cert (label A e.node S.base) := h.relabel_join he hp hmerge fun _ l _ hl =>
    (h.waits.entry he).base hp hsome l (.inl hl)
  refine ⟨⟨hinv, ?_, ?_, ?_⟩, hext⟩
  · rw [hopen]
    exact h.shaped.same hco hm.sameControl
  · refine hrelabel.grown h.inv.sound hinv.sound hext.grows (fun _ _ => rfl) ?_ ?_ ?_ ?_
    · intro n y hn hy
      obtain ⟨v, hv, hnotphi, rfl⟩ := hbegun.young hn hy
      have hvu : w.graph.Usable (S.Open w.table) v.node :=
        (((hst.holds hf (.inl hp)).each v hv).resolve_left hnotphi).2
      have hav := (h.waits.entry he).avail hp hf v hv
      have hgrow : ∀ {P : NodeSet}, w.graph.Avail P v.node → w'.graph.Avail P v.node :=
        fun ha => ha.of_grows h.inv.sound hgrows (hu _ hvu).contains
      refine ⟨?_, ?_, ?_, ?_, ?_, ?_⟩
      · intro i hi
        rw [List.eq_of_mem_replicate hi]
        exact (hgrow hav).value
      · rintro (hc | hc) <;> cases hc
      · rintro ⟨⟩
      · intro m u c dat j hm' hu' hc hd
        cases hm'
        rw [List.eq_of_mem_replicate (List.mem_of_getElem? hu')]
        rw [hm.incoming] at hc
        rw [hm.edge?] at hd
        obtain ⟨d1, hd1, htd⟩ := hco.incoming.1 (List.mem_of_getElem? hc)
        rw [hd] at hd1
        cases hd1
        rw [h.label_source hO hd]
        rw [← htd] at hO hmerge hav
        exact hgrow (h.avail_source hO hmerge hd hvu hav)
      · rintro c ⟨⟩
      · rintro s ⟨⟩
    · intro c dat hd
      rw [hm.edge?] at hd
      exact .inl hd
    · intro n y m hn hy _
      rw [hbegun.same hn] at hy
      rw [inputs_of_node? hy]
      refine ⟨fun i hi => .inl hi, fun hv hc hd => .inl ⟨hv, ?_, ?_⟩⟩
      · rwa [hm.incoming] at hc
      · rwa [hm.edge?] at hd
    · intro n y s hn hy hs
      rw [hbegun.same hn] at hy
      exact .inl ⟨s, by rw [snapshot?, hy]; exact hs, fun a ha v hv => ⟨a, ha, hv⟩⟩
  · refine .join h he hp hinv hext.toEvolves ht ?_ ?_ fun _ hl => hl
    · intro n hn hsn
      rw [snapshot?_congr (hbegun.same hn), hsn]
    · exact fun v hv => .phi (hbegun.phis v hv) (.inl rfl)

/-- A block is lifted from now on: control stands at its node. -/
theorem Good.open [S.Sure] (h : Good S cur bare [] part A w)
    (he : w.table.slot? b = some e) (hb : b.index = cur) (hf : e.frame = some f)
    (hmpart : e.node ∉ part) (hhead : (S.blocks.block b).isLoopHeader = true →
      (∀ v ∈ f.values, w.graph.kind? v.node = some (.phi e.node)) ∧
        ∀ l, A e.node l → l = e.node ∨ S.base l)
    (hg : w'.graph = w.graph) (ht : w'.table = w.table.put b { e with parsed := true }) :
    Here S (cur + 1)
      (if w.graph.kindIs e.node NodeKind.isMerge = true then e.node :: bare else bare) part A w'
      e.node f ∧ Extends S [] w w' := by
  have hst := h.inv.placed.stands he
  have hp := hst.unparsed (by omega)
  have hO : ∀ n, S.Open w'.table n ↔ S.Open w.table n ∧ n ≠ e.node := by
    intro n
    rw [ht]
    exact (h.inv.open_put he (Scene.Fit.outer n)).trans (or_iff_left fun hc => by cases hc.1)
  have hsome : e.frame.isSome = true := by rw [hf]; rfl
  have hkeeps : w.table.Keeps w'.table := ht ▸ .put he rfl fun _ => rfl
  have hev : Evolves S [] w w' := by
    refine ⟨?_, hkeeps⟩
    rw [hg]
    exact { Grows.refl [] (S.Open w.table) w.graph with opens := fun hn => .inl ((hO _).1 hn).1 }
  have hu : ∀ n, w.graph.Usable (S.Open w.table) n → w.graph.Usable (S.Open w'.table) n :=
    fun n hn => hn.of_open fun m hm _ => ((hO m).1 hm).1
  obtain ⟨k, hk, hek⟩ := hst.kind
  have hkc : k.isControl = true ∧ k.exits = [.next] := by
    unfold EntryKind at hek
    split at hek
    · obtain ⟨i, rfl⟩ := hek
      exact ⟨rfl, rfl⟩
    · rcases hek with rfl | rfl <;> exact ⟨rfl, rfl⟩
  have hsub : bare ⊆ if w.graph.kindIs e.node NodeKind.isMerge = true then e.node :: bare else bare := by
    intro n hn
    split
    · exact List.mem_cons_of_mem _ hn
    · exact hn
  have hinv : Inv S (cur + 1)
      (owe (if w.graph.kindIs e.node NodeKind.isMerge = true then e.node :: bare else bare) []) w' := by
    refine ⟨?_, ?_, ?_⟩
    · rw [hg]
      refine h.inv.sound.adjust (fun m hm _ => ((hO m).1 hm).1) ?_ (fun _ _ hl => by simp [owe] at hl)
        (fun _ _ => rfl) fun _ hb => .inl (hsub hb)
      intro n x hx heff _ ho
      rcases ho with ho | ho
      · by_cases hn : n = e.node
        · subst hn
          rw [kind?_of_node? hx] at hk
          cases hk
          have hm : w.graph.kindIs e.node NodeKind.isMerge = true := by
            rw [kindIs_of_kind? (kind?_of_node? hx)]
            unfold EntryKind at hek
            split at hek
            · obtain ⟨i, hi⟩ := hek
              rw [hi]
              rfl
            · rcases hek with hi | hi
              · rw [hi] at heff
                cases heff
              · rw [hi]
                rfl
          exact .inr (.inl (by simp [owe, hm]))
        · exact .inl ((hO n).2 ⟨ho, hn⟩)
      · exact .inr (.inl (hsub ho))
    · rw [hg, ht]
      refine h.inv.placed.put (h.inv.placed.size ▸ Table.lt_of_slot? he) ?_ ?_ (fun hc => by omega) ?_ ?_
      · intro l e' _ he'
        rw [he] at he'
        cases he'
        rfl
      · intro c e' hc he' hn
        exact hc (h.inv.placed.distinct he' he hn)
      · refine ⟨hst.young, ⟨k, hk, hek⟩, ?_, fun hc => ?_, fun _ => ?_, fun _ => hst.entered hsome,
          (fun hc => by cases hc), ?_, fun _ => ?_, hst.shape⟩
        · refine ⟨fun _ => ⟨by omega, hsome⟩, fun _ => rfl⟩
        · exact absurd hsome (by rw [hc]; simp)
        · exact (hst.anchored hsome).imp_right (Or.imp_right fun hl => by simp [owe] at hl)
        · intro f' hf' hor
          have hhd := hor.resolve_left (fun hc => by cases hc)
          have hfe : f' = f := Option.some.inj (hf'.symm.trans hf)
          subst hfe
          have hold := hst.holds hf (.inl hp)
          exact ⟨fun v hv => .inl ((hhead hhd).1 v hv), hold.once, hold.all⟩
        · rw [← ht]
          exact (hst.reached hsome).mono hkeeps.parsed
      · intro c e' hc he'
        have hst' := h.inv.placed.stands he'
        have hcb : c.index ≠ cur := fun hcc => hc (BlockId.index_inj.1 (hcc.trans hb.symm))
        have hmono : Stands S cur (owe (if w.graph.kindIs e.node NodeKind.isMerge = true then
            e.node :: bare else bare) []) w.graph (w.table.put b { e with parsed := true }) c e' := by
          refine hst'.mono (fun hk _ => hk) (fun _ => rfl) id ?_ (fun _ ho => ho) (fun _ => Iff.rfl) ?_ ?_
          · rintro (h0 | h0)
            · exact .inr (.inl h0)
            · simp [owe] at h0
          · rw [← ht]
            exact hu
          · rw [← ht]
            exact hkeeps.parsed
        refine { hmono with parsed := ?_ }
        rw [hst'.parsed]
        refine and_congr_left fun _ => ?_
        omega
    · rw [hg]
      exact h.inv.based
  have hwait : Waits S A w'.graph w'.table := by
    rw [hg, ht]
    refine h.waits.put (Table.lt_of_slot? he) ⟨?_, ?_, fun _ hh => (hhead hh).2, ?_,
      (h.waits.entry he).first⟩
    · rintro ⟨⟩
    · rintro ⟨⟩
    · rintro ⟨⟩
  have hgood : Good S (cur + 1)
      (if w.graph.kindIs e.node NodeKind.isMerge = true then e.node :: bare else bare) []
      (e.node :: part) A w' := by
    refine ⟨hinv, ?_, ?_, hwait⟩
    · rw [hg]
      refine h.shaped.adjust (fun hm => .inl ((hO _).1 hm).1) ?_ (fun _ hm => .inl (by simp [hm]))
        h.inv.sound.coherent fun _ hx => hx
      rintro n k' - - (ho | ho)
      · by_cases hn : n = e.node
        · exact .inr (.inl (by simp [hn]))
        · exact .inl ((hO n).2 ⟨ho, hn⟩)
      · exact .inr (.inl (by simp [ho]))
    · rw [hg]
      exact h.cert
  refine ⟨⟨hgood, ⟨⟨?_, fun hO' => ((hO _).1 hO').2 rfl, ?_⟩, ?_, (h.waits.entry he).base hp hsome,
    ?_⟩, ?_,
    ⟨k, ?_, hkc.2⟩, ⟨fun v hv => ?_, ?_⟩⟩, ⟨hev, by rw [hg]; exact hu⟩⟩
  · rw [hg]
    exact kindIs_iff.2 ⟨k, hk, hkc.1⟩
  · rw [hg]
    exact (hst.anchored hsome).imp_right (Or.imp_right fun hl => by simp [owe] at hl)
  · rw [hg]
    exact h.rooted_entry he hsome
  · rw [hg]
    intro hkm
    obtain ⟨i, j, hs, -, h2⟩ := h.shaped.joins hkm rfl
    have hi := (h2 rfl).resolve_right hmpart
    have hlen : (w.graph.sourceKinds e.node).length ≤ w.graph.inDegree e.node :=
      List.length_filterMap_le _ _
    rw [hs, List.length_append, List.length_replicate, List.length_replicate] at hlen
    omega
  · rw [hg]
    exact hst.silent hp
  · rw [hg]
    exact hk
  · rw [hg]
    rcases (hst.holds hf (.inl hp)).each v hv with hkv | ⟨-, hv⟩
    · refine ⟨_, hkv, rfl, fun m hm hO' => ?_⟩
      cases hm
      exact ((hO _).1 hO').2 rfl
    · exact hu _ hv
  · rw [hg]
    exact (h.waits.entry he).avail hp hf

theorem Good.remark (h : Good S cur bare loose part A w) (hg : w'.graph = w.graph)
    (ht : w'.table = { w.table with marks, exits }) (hm : marks.size = w.table.marks.size)
    (hx : cur ≤ S.blocks.exitBlock.index → exits = {}) : Good S cur bare loose part A w' := by
  have hp := h.inv.placed
  have hs : ∀ {b e}, w'.table.slot? b = some e →
      Stands S cur (owe bare loose) w'.graph w'.table b e := by
    intro b e he
    rw [hg, ht]
    rw [ht] at he
    obtain ⟨h1, h2, h3, h4, h5, h6, h7, h8, h9, h10⟩ := hp.stands (b := b) he
    exact ⟨h1, h2, h3, h4, h5, h6, h7, h8, h9, h10⟩
  refine ⟨⟨?_, ⟨?_, ?_, ?_, ?_, ?_, hs⟩, ?_⟩, ?_, ?_, ?_⟩
  · rw [hg, ht]
    exact h.inv.sound
  · rw [ht]
    exact hp.size
  · rw [ht]
    exact hm.trans hp.marks
  · rw [ht]
    exact hp.headers
  · rw [ht]
    exact hp.distinct
  · rw [ht]
    exact hx
  · rw [hg]
    exact h.inv.based
  · rw [hg, ht]
    exact h.shaped
  · rw [hg]
    exact h.cert
  · rw [hg, ht]
    exact ⟨h.waits.entry, h.waits.outer⟩

theorem Evolves.remark (hg : w'.graph = w.graph)
    (ht : w'.table = { w.table with marks, exits }) : Extends S [] w w' := by
  refine ⟨⟨?_, ?_⟩, ?_⟩ <;> rw [ht]
  · rw [hg]
    exact .refl _ _ _
  · exact Table.Keeps.refl w.table
  · rw [hg]
    exact fun _ hn => hn

theorem Here.remark {a : NodeId} (h : Here S cur bare part A w a f) (hg : w'.graph = w.graph)
    (ht : w'.table = { w.table with marks, exits }) (hm : marks.size = w.table.marks.size)
    (hx : cur ≤ S.blocks.exitBlock.index → exits = {}) : Here S cur bare part A w' a f :=
  h.extend (h.good.remark hg ht hm hx) (Evolves.remark hg ht) (.refl _ _ _) (by simp)

theorem Good.skip (h : Good S cur bare loose part A w)
    (hnone : ∀ {b e}, w.table.slot? b = some e → b.index = cur → e.frame = none) :
    Good S (cur + 1) bare loose part A w := by
  refine ⟨⟨h.inv.sound, ⟨h.inv.placed.size, h.inv.placed.marks, h.inv.placed.headers,
    h.inv.placed.distinct, fun hc => h.inv.placed.exits (by omega), ?_⟩, h.inv.based⟩, h.shaped, h.cert,
    h.waits⟩
  intro b e he
  refine { h.inv.placed.stands he with parsed := ?_ }
  rw [(h.inv.placed.stands he).parsed]
  refine and_congr_left fun hf => ?_
  have : b.index ≠ cur := fun hb => by
    rw [hnone he hb] at hf
    cases hf
  omega

end Opening

end StackLift
