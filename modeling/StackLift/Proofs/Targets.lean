import StackLift.Proofs.Joins

/-!
# Ways into blocks

The node that an edge into a block has to lead to: a new begin, or an end in front of the join, or
the end of a loop. What the chart says about the blocks decides which: an edge that does not go
forward leads to a header that is parsed, because no path avoids the header.
-/
namespace StackLift

open BuildM
open Graph hiding addEdge addNode addPhiInput kindIs setSnapshot

/-- Block `source` is the one that is being lifted. -/
structure Lifting (sc : Scope) (cur : Nat) (t : Table) (source : BlockId) : Prop where
  now : source.index + 1 = cur
  lt : source.index < sc.blocks.size
  kind : (sc.blocks.block source).kind = .instructions ∨ sc.blocks.isDispatch source
  parsed : ∃ e, t.slot? source = some e ∧ e.parsed = true

/-- Control may go from `source` to `target`. -/
def Way (sc : Scope) (source target : BlockId) : Prop :=
  target ∈ (sc.blocks.block source).successors ∨ target = sc.blocks.unwindBlock

theorem Lifting.mono {sc : Scope} {cur : Nat} {t t' : Table} {source : BlockId}
    (h : Lifting sc cur t source) (hk : t.Keeps t') : Lifting sc cur t' source := by
  obtain ⟨e, he, hp⟩ := h.parsed
  exact ⟨h.now, h.lt, h.kind, hk.parsed he hp⟩

section Ways

variable {sc : Scope} {S : Scene} {cur : Nat} {d : Debt} {w : Work} {source target hd : BlockId}

theorem unwindBlock_lt [S.Fit] : S.blocks.unwindBlock.index < S.blocks.size := by
  have := S.charts.size
  simp only [BlockMap.unwindBlock]
  omega

theorem exitBlock_lt [S.Fit] : S.blocks.exitBlock.index < S.blocks.size := by
  have := S.charts.size
  simp only [BlockMap.exitBlock]
  omega

theorem Way.lt [S.Fit] (h : Way S source target) : target.index < S.blocks.size := by
  rcases h with h | rfl
  · exact S.charts.successor h
  · exact unwindBlock_lt

theorem Lifting.lt_unwind [S.Fit] (h : Lifting S cur w.table source) :
    source.index < S.blocks.unwindBlock.index := by
  have hne : source ≠ S.blocks.unwindBlock := by
    intro heq
    have := (S.charts.unwind h.lt).2 heq
    rcases h.kind with hk | ⟨i, n, hk⟩ <;> rw [hk] at this <;> cases this
  have hlt := h.lt
  have : source.index ≠ S.blocks.unwindBlock.index := fun heq => hne (BlockId.index_inj.1 heq)
  simp only [BlockMap.unwindBlock] at this ⊢
  omega

theorem Way.back [S.Fit] (hl : Lifting S cur w.table source) (h : Way S source target)
    (hle : target.index ≤ source.index) :
    (S.blocks.block target).isLoopHeader = true ∧ ¬ S.blocks.Bypass target source := by
  rcases h with h | rfl
  · exact S.charts.back hl.lt h hle
  · exact absurd hle (Nat.not_le_of_lt (hl.lt_unwind))

theorem Way.reached (hl : Lifting sc cur w.table source) (h : Way sc source target)
    (hlt : source.index < target.index) : Reached sc w.table target := by
  rcases h with h | rfl
  · exact .inr (.inr ⟨source, hlt, h, hl.parsed⟩)
  · exact .inr (.inl rfl)

theorem Inv.passed (h : Inv S cur d w) (hd : BlockId) (b : BlockId) (e : Entry)
    (he : w.table.slot? b = some e) (hf : e.frame.isSome = true)
    (hb : b.index < S.blocks.unwindBlock.index) :
    S.blocks.Bypass hd b ∨ ∃ e', w.table.slot? hd = some e' ∧ e'.frame.isSome = true ∧
      (hd = b ∨ e'.parsed = true) := by
  induction hn : b.index using Nat.strong_induction_on generalizing b e with
  | _ n ih =>
    by_cases hbd : hd = b
    · subst hbd
      exact .inr ⟨e, he, hf, .inl rfl⟩
    rcases (h.placed.stands he).reached hf with rfl | rfl | ⟨a, hab, hsucc, e', he', hp'⟩
    · exact .inl (.root hbd)
    · exact absurd hb (Nat.lt_irrefl _)
    · have hf' := ((h.placed.stands he').parsed.1 hp').2
      rcases ih a.index (by omega) a e' he' hf' (by omega) rfl with hby | ⟨e2, he2, hf2, hor⟩
      · exact .inl (.step hby hsucc hbd)
      · refine .inr ⟨e2, he2, hf2, .inr ?_⟩
        rcases hor with rfl | hp2
        · rw [he'] at he2
          cases he2
          exact hp'
        · exact hp2

theorem Lifting.header [S.Fit] (h : Inv S cur d w)
    (hl : Lifting S cur w.table source) (hby : ¬ S.blocks.Bypass hd source) :
    ∃ e, w.table.slot? hd = some e ∧ e.frame.isSome = true ∧ e.parsed = true := by
  obtain ⟨e, he, hp⟩ := hl.parsed
  have hf := ((h.placed.stands he).parsed.1 hp).2
  obtain ⟨e', he', hf', hor⟩ :=
    (h.passed hd source e he hf (hl.lt_unwind)).resolve_left hby
  refine ⟨e', he', hf', ?_⟩
  rcases hor with rfl | hp'
  · rw [he] at he'
    cases he'
    exact hp
  · exact hp'

end Ways

section Create

variable {E : Error → Prop} {S : Scene} {P Q : NodeSet} {cur : Nat}
  {bare loose part ss : List NodeId} {A A' : Labels} {w w' w1 : Work}
  {b source target : BlockId} {e : Entry} {f f0 : Frame} {stop : NodeId} {p : Position}
    {g : Graph} {x : EdgeId}

/-- What a way into a block leaves behind: `stop` waits for the edge, and the frame that goes along
is still there. -/
structure Led (S : Scene) (P : NodeSet) (cur : Nat)
    (bare loose part : List NodeId) (A : Labels) (f : Frame) (w : Work) (stop : NodeId)
    (w' : Work) (A' : Labels) (dead : List NodeId) : Prop where
  good : Good S cur bare (stop :: loose) part A' w'
  evolves : Evolves S [] w w'
  agree : Agree S w A A'
  ready : Ready S part A' P w' stop
  fresh : w.graph.nodeCount ≤ stop.index
  spares : Spares S w w' dead
  spared : ∀ v ∈ f.values, v.node ∉ dead

/-- The end in front of a join: it is linked to the join, and nothing has arrived yet. -/
structure EndAt (S : Scene) (P : NodeSet) (cur : Nat)
    (bare loose part : List NodeId) (A : Labels) (w : Work) (e : Entry) (stop : NodeId)
    (w1 : Work) (g : Graph) (x : EdgeId) : Prop where
  good : Good S cur bare (stop :: loose) (stop :: part) (label A stop P) w1
  extends_ : Extends S [] w w1
  new : New w .endNode [] stop w1
  link : Links w1.graph g stop e.node ⟨stop, e.node, .next, 1.0⟩ x

theorem endAt_good (h : Good S cur bare loose part A w) (he : w.table.slot? b = some e)
    (P : NodeSet) {α : Type} {k : NodeId → BuildM α} {Q : α → Work → Prop}
    (hk : ∀ stop w1 g x, EndAt S P cur bare loose part A w e stop w1 g x →
      Ensures E (k stop) S { w1 with graph := g } Q) :
    Ensures E (do
      let stop ← addNode .endNode []
      follow stop e.node
      k stop) S w Q := by
  refine (addControl_good h P rfl (.plain rfl (by simp)) (by simp) (fun _ => rfl)).bind
    fun stop w1 h1 => ?_
  obtain ⟨hgood, hext, hnew⟩ := h1
  obtain ⟨k', hk', -⟩ := (h.inv.placed.stands he).kind
  refine (ensures_addEdge (Q := fun _ w' => ∃ g' x, Links w1.graph g' stop e.node
    ⟨stop, e.node, .next, 1.0⟩ x ∧ w' = { w1 with graph := g' }) (contains_of_kind? hnew.kind)
    ?_ fun g' x hl => ⟨g', x, hl, rfl⟩).bind fun _ w2 h2 => ?_
  · refine contains_of_kind? (k := k') ?_
    rw [hnew.graph]
    exact kind?_addNode_of hk'
  · obtain ⟨g, x, hl, rfl⟩ := h2
    exact hk stop w1 g x ⟨hgood, hext, hnew, hl⟩

theorem EndAt.led
    (h : Good S cur bare loose part A w) (hp : e.parsed = false) (he : w.table.slot? b = some e)
    (hend : EndAt S P cur bare loose part A w e stop w1 g x)
    (hgood : Good S cur bare (stop :: loose) (stop :: part)
      (label (label A stop P) e.node Q) w')
    (hext : Extends S [stop] w1 w') (hin : w'.graph.incoming stop = [])
    (hout : w'.graph.outKinds stop = [.next]) :
    Led S P cur bare loose part A f w stop w' (label (label A stop P) e.node Q) [] := by
  have hfresh : w.graph.nodeCount ≤ stop.index := Nat.le_of_eq hend.new.fresh.symm
  have hkind := hext.grows.kind hend.new.kind rfl
  have hext' : Extends S [] w w' := by
    refine ((hend.extends_.weaken (by simp)).trans hext).mono fun m hm => ?_
    rw [List.mem_singleton.1 hm]
    exact .inr (.inr hfresh)
  have hlt : e.node.index < w.graph.nodeCount := by
    exact (h.inv.placed.stands he).lt
  have hne : stop ≠ e.node := by
    rintro rfl
    exact absurd hlt (Nat.not_lt_of_le hfresh)
  refine ⟨hgood.finish hkind hout (by simp), hext'.toEvolves, ?_, ⟨?_, hin, ?_, ?_⟩, hfresh,
    hext'.spares, by simp⟩
  · refine Agree.trans (show Agree S w A (label A stop P) from ?_) hend.extends_.toEvolves
      (hend.good.agree_join (hend.new.table ▸ he) hp)
    exact .of_old fun n hn => label_of_lt (Nat.lt_of_lt_of_le hn hfresh)
  · exact (hend.new.stub h.inv rfl rfl).mono hext.grows
  · rintro ⟨hpl, -⟩
    rw [kindIs_of_kind? hkind] at hpl
    cases hpl
  · intro l hl
    rw [label_of_ne hne] at hl
    exact (label_self _ _ _ _).1 hl

theorem EndAt.firm {d : Debt} [S.Sure] (h : Good S cur bare loose part A w)
    (hend : EndAt S P cur bare loose part A w e stop w1 g x) (hd : stop ∈ d.loose) :
    w1.graph.Firm (S.Open w1.table) d stop := hend.new.firm h.inv rfl hd

/-- A frame arrives at a join through its end. -/
theorem mergeInto_good [S.Sure] (hE : Expects E) (h : Good S cur bare loose part A w)
    (he : w.table.slot? b = some e) (hp : e.parsed = false) (hf0 : e.frame = some f0)
    (hmerge : w.graph.kindIs e.node NodeKind.isMerge = true)
    (hend : EndAt S P cur bare loose part A w e stop w1 g x) (hP : ∀ l, S.base l → P l)
    (hf : Carries S P w f) :
    Ensures E (mergeInto b e.node f p) S { w1 with graph := g } fun _ w' => ∃ A',
      Led S P cur bare loose part A f w stop w' A' [] ∧
        w'.graph.inDegree e.node = w.graph.inDegree e.node + 1 ∧
        S.Open w'.table = S.Open w.table := by
  have he1 : w1.table.slot? b = some e := hend.new.table ▸ he
  have hlt : e.node.index < w.graph.nodeCount := by
    exact (h.inv.placed.stands he).lt
  have hmerge1 : w1.graph.kindIs e.node NodeKind.isMerge = true :=
    hend.extends_.grows.kindIs hmerge fun k hk => by cases k <;> first | rfl | cases hk
  have hne : stop ≠ e.node := by
    rintro rfl
    rw [hend.new.fresh] at hlt
    exact Nat.lt_irrefl _ hlt
  have hfirm := hend.firm (d := owe bare (stop :: loose)) h (by simp [owe])
  have hself : ∀ l, label A stop P stop l ↔ l = stop ∨ P l := label_self A stop P
  refine (mergeInto_spec hE hend.good.inv he1 hp hf0 hmerge1 hfirm hend.link
    (fun _ hy => .inr hy) (hend.extends_.backs hf.backs)).mono fun _ w' h' => ?_
  obtain ⟨hinv, hext, f', harr⟩ := h'
  have hcarry : Carries S (label A stop P stop) w1 f :=
    (hf.extend h hend.extends_).mono fun l hl => (hself l).2 (.inr hl)
  have hgood := hend.good.arrive he1 hp hf0 hmerge1 hend.new.kind (by simp) hfirm.2.1
    (L := stop :: loose) (.inr ⟨stop, by simp, .refl⟩) (fun _ hy => .inr hy)
    (fun l hl => (hself l).2 (.inr (hP l hl))) hcarry harr hinv hext
  obtain ⟨ht, g1, x1, O, d, hl1, hm, -⟩ := harr
  refine ⟨_, hend.led h hp he hgood hext ?_ ?_, ?_, ?_⟩
  · rw [hm.incoming, hl1.incoming, if_neg hne, hend.new.incoming]
  · rw [hm.sameControl.outKinds, hl1.outKinds hend.good.inv.sound.coherent, if_pos rfl,
      outKinds, hend.new.outgoing]
    rfl
  · rw [inDegree, hm.incoming, hl1.incoming, if_pos rfl, hend.new.graph,
      incoming_addNode, List.length_append]
    rfl
  · rw [ht, ← hend.new.table]
    exact Scene.open_put he1 rfl rfl

/-- A forward edge into a loop header. -/
theorem addLoopEntry_good [S.Sure] (hE : Expects E)
    (h : Good S cur bare loose part A w) (hb : b.index < S.blocks.size)
    (hhead : (S.blocks.block b).isLoopHeader = true) (hcur : cur ≤ b.index)
    (hP : ∀ l, S.base l → P l) (hf : Carries S P w f) (hreach : Reached S w.table b)
    (hshape : Shape S b f) : Ensures E (addLoopEntry b f p) S w fun stop w' => ∃ A',
      Led S P cur bare loose part A f w stop w' A' [] := by
  obtain ⟨l, hl⟩ := Option.isSome_iff_exists.1 hhead
  obtain ⟨e, he, -⟩ := h.inv.placed.headers ((S.charts.header hb).1 hl)
  have hst := h.inv.placed.stands he
  have hp := hst.unparsed hcur
  obtain ⟨i, hk⟩ := hst.header hhead
  unfold addLoopEntry
  refine ensures_get_bind ?_
  refine .chain (ensures_demand he ?_)
  dsimp only
  rw [if_neg (by simp [hp])]
  refine endAt_good h he P fun stop w1 g x hend => ?_
  have hfirm := hend.firm (d := owe bare (stop :: loose)) h (by simp [owe])
  have he1 : w1.table.slot? b = some e := hend.new.table ▸ he
  cases hf0 : e.frame with
  | some f0 =>
    dsimp only
    refine (mergeInto_good hE h he hp hf0 (kindIs_iff.2 ⟨_, hk, rfl⟩) hend hP hf).bind
      fun _ w2 h2 => ensures_pure ?_
    obtain ⟨A', hled, -⟩ := h2
    exact ⟨A', hled⟩
  | none =>
    dsimp only
    refine ensures_read_bind ?_
    refine (ensures_setEntry (w := { w1 with graph := g }) (Q := fun _ w' => w'.graph = g ∧
      w'.table = w1.table.put b { e with frame := some (S.prune f b) }) ⟨rfl, rfl⟩).bind
      fun _ w2 h2 => ensures_pure ?_
    obtain ⟨rfl, ht⟩ := h2
    have hself : ∀ l, label A stop P stop l ↔ l = stop ∨ P l := label_self A stop P
    have hcarry : Carries S (label A stop P stop) w1 (S.prune f b) :=
      ((hf.extend h hend.extends_).mono fun l hl => (hself l).2 (.inr hl)).sub
        fun v hv => Scope.mem_values_prune hv
    obtain ⟨hinv, hext⟩ := hend.good.inv.enter he1 hp hf0 hcur hfirm hend.link ⟨rfl, rfl⟩ ht
      (L := stop :: loose) (fun _ hy => .inr hy) hcarry.backs (hend.new.table ▸ hreach)
      (hshape.of_kinds (by rw [Scope.prune_stack]))
    have hgood := hend.good.enter he1 hp hf0 hend.new.kind (by simp) hfirm.2.1
      (L := stop :: loose) (.inr ⟨stop, by simp, .refl⟩) (fun _ hy => .inr hy)
      (fun l hl => (hself l).2 (.inr (hP l hl))) hcarry hend.link ⟨rfl, rfl⟩ ht hinv hext
    have hne : stop ≠ e.node := by
      rintro rfl
      have := lt_of_kind? hk
      rw [hend.new.fresh] at this
      exact Nat.lt_irrefl _ this
    refine ⟨_, hend.led h hp he hgood hext ?_ ?_⟩
    · rw [hend.link.incoming, if_neg hne, hend.new.incoming]
    · rw [hend.link.outKinds hend.good.inv.sound.coherent, if_pos rfl, outKinds,
        hend.new.outgoing]
      rfl

/-- The first edge into a block that is no loop header. -/
theorem placeBlock_good (h : Good S cur bare loose part A w)
    (hb : b.index < S.blocks.size) (hnone : w.table.slot? b = none) (hcur : cur ≤ b.index)
    (hhead : (S.blocks.block b).isLoopHeader = false) (hP : ∀ l, S.base l → P l)
    (hf : Carries S P w f) (hreach : Reached S w.table b) (hshape : Shape S b f) :
    Ensures E (placeTarget S b f) S w fun stop w' =>
      ∃ A', Led S P cur bare loose part A f w stop w' A' [] := by
  refine (addControl_good h P rfl (.plain rfl (by simp)) (by simp) (fun _ => rfl)).bind
    fun n w1 h1 => ?_
  obtain ⟨hgood, hext, hnew⟩ := h1
  refine (ensures_setEntry (Q := fun _ w' => w'.graph = w1.graph ∧
    w'.table = w1.table.put b { node := n, frame := some (S.prune f b) }) ⟨rfl, rfl⟩).bind
    fun _ w2 h2 => ensures_pure ?_
  obtain ⟨hg, ht⟩ := h2
  have hself : ∀ l, label A n P n l ↔ l = n ∨ P l := label_self A n P
  have hfresh : w.graph.nodeCount ≤ n.index := Nat.le_of_eq hnew.fresh.symm
  have hcarry : Carries S (label A n P n) w1 (S.prune f b) :=
    ((hf.extend h hext).mono fun l hl => (hself l).2 (.inr hl)).sub
      fun v hv => Scope.mem_values_prune hv
  have hnone1 : w1.table.slot? b = none := hnew.table ▸ hnone
  have hstub := hnew.stub h.inv rfl rfl
  obtain ⟨hinv, hplace⟩ := hgood.inv.place hb hnone1 hcur hnew.kind hhead hstub.young
    hnew.outgoing (.inr (.inr (by simp [owe])))
    (by
      intro c e he heq
      rw [hnew.table] at he
      have := (h.inv.placed.stands he).lt
      rw [heq] at this
      exact absurd this (Nat.not_lt_of_le hfresh))
    hcarry.backs (hnew.table ▸ hreach) (hshape.of_kinds (by rw [Scope.prune_stack])) hg ht
  have hext' := hplace hext hfresh
  have hsize : b.index < w1.table.entries.size := by
    rw [hgood.inv.placed.size]
    exact hb
  have hstart : w1.graph.start ≠ some n := fun hs => by
    obtain ⟨x, hx, -⟩ := h.inv.sound.start (hext.grows.start ▸ hs)
    exact absurd (lt_nodeCount hx) (Nat.not_lt_of_le hfresh)
  have hgood' := hgood.place hsize hnone1 hnew.kind hnew.outgoing hg ht hinv
    hcarry.avail (fun l hl => (hself l).2 (hl.symm.imp_right (hP l))) (absurd · hstart)
  refine ⟨_, hgood', hext'.toEvolves, .of_old fun m hm => label_of_lt (Nat.lt_of_lt_of_le hm hfresh),
    ⟨hstub.mono (show Grows [] (S.Open w1.table) (S.Open w1.table) _ _ by rw [hg]; exact .refl ..),
      ?_, ?_, ?_⟩, hfresh, hext'.spares, by simp⟩
  · rw [hg, hnew.incoming]
  · intro _
    refine .inl ?_
    rw [ht]
    exact (Scene.open_put_new hsize hnone1 rfl n).2 (.inr rfl)
  · exact fun l hl => (hself l).1 hl

/-- A join that edges come in at already, or a begin that turns into one. -/
theorem joinBlock_good [S.Sure] (hE : Expects E)
    (h : Good S cur bare loose part A w) (he : w.table.slot? b = some e)
    (hp : e.parsed = false) (hhead : (S.blocks.block b).isLoopHeader = false)
    (hb : b.index ≠ 0) (hP : ∀ l, S.base l → P l) (hf : Carries S P w f) :
    Ensures E (do
      let merge ← if ← kindIs e.node (· == .begin) then promote b e.node else pure e.node
      joinTarget b merge f p) S w fun stop w' =>
        ∃ A', Led S P cur bare loose part A f w stop w' A' [] := by
  have hst := h.inv.placed.stands he
  obtain ⟨k, hk, hek⟩ := hst.kind
  have hek' : k = .begin ∨ k = .merge := by simpa [EntryKind, hhead] using hek
  obtain ⟨f0, hf0⟩ : ∃ f0, e.frame = some f0 := by
    cases hfr : e.frame with
    | some f0 => exact ⟨f0, rfl⟩
    | none =>
      rw [(hst.empty hfr).1] at hhead
      cases hhead
  unfold kindIs
  refine ensures_get_bind ?_
  rw [kindIs_of_kind? hk]
  rcases hek' with rfl | rfl
  · rw [if_pos (by rfl)]
    refine (promote_spec h.inv he hp hf0 hk).bind fun merge w1 h1 => ?_
    obtain ⟨hinv1, hext1, ht1, stop0, hpr⟩ := h1
    have hgood1 := h.promote he hp hk hpr hf0 hb ht1 hinv1 hext1
    have hlt := lt_of_kind? hk
    have he1 : w1.table.slot? b = some { e with node := merge } := by
      rw [ht1, Table.slot?_put (Table.lt_of_slot? he), if_pos rfl]
    have hkm : w1.graph.kind? merge = some .merge := by
      rw [kind?, hpr.node?, if_pos rfl]
      rfl
    have hagree1 : Agree S w A (promotedLabel A e.node stop0 merge) :=
      .of_old fun n hn => hpr.label_old hn
    refine endAt_good (e := { e with node := merge }) hgood1 he1 P fun stop w2 g x hend => ?_
    refine (mergeInto_good hE hgood1 he1 hp hf0
      (kindIs_of_kind? hkm) hend hP (hf.extend h hext1)).bind
      fun _ w3 h3 => ensures_pure ?_
    obtain ⟨A', hled, hdeg, hopen⟩ := h3
    have hO : S.Open w3.table merge := by
      rw [hopen]
      exact .inl ⟨b, _, he1, hp, rfl⟩
    -- two edges come in at the merge now
    have htwo : 2 ≤ w3.graph.inDegree merge := by
      rw [hdeg, hpr.inDegree_merge hlt]
    have hgood3 : Good S cur bare (stop :: loose) part A' w3 := by
      refine ⟨hled.good.inv, ?_, hled.good.cert, hled.good.waits⟩
      refine hled.good.shaped.adjust .inl ?_ ?_ hled.good.inv.sound.coherent fun _ hx => hx
      · intro n k' _ _ ho
        rcases ho with ho | ho
        · exact .inl ho
        · rcases List.mem_cons.1 ho with rfl | ho
          · exact .inl hO
          · exact .inr (.inl ho)
      · intro m _ ho
        rcases List.mem_cons.1 ho with rfl | ho
        · exact .inr htwo
        · exact .inl ho
    refine ⟨A', hgood3, hext1.toEvolves.trans hled.evolves, hagree1.trans hext1.toEvolves hled.agree,
      ⟨hled.ready.stub, hled.ready.incoming, ?_, hled.ready.label⟩,
      Nat.le_trans hext1.grows.count hled.fresh, ⟨by simp, ?_⟩, hled.spared⟩
    · intro hv
      refine (hled.ready.vacant hv).imp_right fun hm => (List.mem_cons.1 hm).resolve_left ?_
      rintro rfl
      exact absurd (lt_of_kind? hkm) (Nat.not_lt_of_le hled.fresh)
    · exact fun n _ hn => hled.spares.usable n (by simp) (hext1.usable n hn)
  · rw [if_neg (by decide)]
    refine ensures_pure_bind ?_
    refine endAt_good h he P fun stop w1 g x hend => ?_
    refine (mergeInto_good hE h he hp hf0 (kindIs_of_kind? hk) hend hP
      hf).bind fun _ w2 h2 => ensures_pure ?_
    obtain ⟨A', hled, -⟩ := h2
    exact ⟨A', hled⟩

/-- The node that an edge from the block that is being lifted has to lead to. Only a back edge drops
anything. -/
theorem createTarget_good [S.Sure] (hE : Expects E)
    (h : Good S cur bare loose part A w) (hl : Lifting S cur w.table source)
    (hway : Way S source target) (hP : ∀ l, S.base l → P l) (hf : Carries S P w f)
    (hshape : Shape S target f) :
    Ensures E (createTarget source target f p) S w fun stop w' => ∃ A' dead,
      Led S P cur bare loose part A f w stop w' A' dead ∧
        ((S.blocks.block target).isLoopHeader = false → dead = []) := by
  have hlt := hway.lt
  have hnow := hl.now
  unfold createTarget
  refine ensures_read_bind ?_
  split
  · next hhead =>
    split
    · next hle =>
      obtain ⟨e, he, hfr, hp⟩ := hl.header h.inv (hway.back hl hle).2
      obtain ⟨f0, hf0⟩ := Option.isSome_iff_exists.1 hfr
      refine (addLoopEnd_spec hE h.inv he hp hf0 hhead hf.backs).mono fun stop w' h' => ?_
      obtain ⟨hinv, hev, hstub, hfresh, f1, dead, hsp, hspared, hbe⟩ := h'
      have hgood := h.backEdge hp hhead hP hf hbe hinv hev
      obtain ⟨-, -, ⟨w1, g, x, O, d, hsh, hfill, hstop, hlk, ht⟩, -⟩ := hbe
      have hk : w'.graph.kind? stop = some (.loopEnd e.node) := by
        rw [kind?_congr (hlk.node? _), kind?_addNode, if_pos hstop]
      have hne : stop ≠ e.node := by
        rintro rfl
        exact absurd (h.inv.placed.stands he).lt (Nat.not_lt_of_le hfresh)
      refine ⟨_, dead, ⟨hgood, hev, .of_old fun n hn => label_of_lt (Nat.lt_of_lt_of_le hn hfresh),
        ⟨hstub, ?_, ?_, fun l hl' => (label_self _ _ _ _).1 hl'⟩, hfresh, hsp, hspared⟩, ?_⟩
      · rw [hlk.incoming, if_neg hne, incoming_addNode, incoming_of_le (by rw [hstop])]
      · rintro ⟨hpl, -⟩
        rw [kindIs_of_kind? hk] at hpl
        cases hpl
      · rw [hhead]
        rintro ⟨⟩
    · next hle =>
      refine (addLoopEntry_good hE h hlt hhead (by omega) hP hf (hway.reached hl (by omega))
        hshape).mono fun stop w' h' => ?_
      obtain ⟨A', hled⟩ := h'
      exact ⟨A', [], hled, fun _ => rfl⟩
  · next hhead =>
    have hhead' : (S.blocks.block target).isLoopHeader = false := Bool.eq_false_iff.2 hhead
    have hgt : source.index < target.index := by
      by_contra hle
      exact hhead (hway.back hl (Nat.le_of_not_lt hle)).1
    refine ensures_get_bind (ensures_pure_bind ?_)
    cases he : w.table.slot? target with
    | none =>
      rw [show (w.table.entries[target.index]?).join = none from he]
      refine (placeBlock_good h hlt he (by omega) hhead' hP hf (hway.reached hl hgt)
        hshape).mono fun stop w' h' => ?_
      obtain ⟨A', hled⟩ := h'
      exact ⟨A', [], hled, fun _ => rfl⟩
    | some e =>
      have hp := (h.inv.placed.stands he).unparsed (by omega)
      rw [show (w.table.entries[target.index]?).join = some e from he]
      dsimp only
      rw [if_neg (by simp [hp])]
      refine (joinBlock_good (p := p) hE h he hp hhead' (by omega) hP hf).mono fun stop w' h' => ?_
      obtain ⟨A', hled⟩ := h'
      exact ⟨A', [], hled, fun _ => rfl⟩

end Create

end StackLift
