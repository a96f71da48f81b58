import StackLift.Proofs.Blocks

/-!
# Following a method

A method is followed in three steps: its loop headers are made, control is led into its first block,
and its blocks are lifted one after the other. `parse_good` proves, by induction on the depth of
inlining, that a method that is entered in good order is left in good order.
-/
namespace StackLift

open BuildM

section Methods

variable {E : Error → Prop} {sc sc' : Scope} {S : Scene} {cur : Nat}
  {bare loose part I : List NodeId} {A A' A0 : Labels} {w w' w'' w0 : Work} {b : BlockId}
  {e : Entry} {f : Frame} {a n m : NodeId} {p : Position} {env : Env}
  {nested : Option Parser} {d : Debt} {ss : List NodeId}

/-! ## Loop headers -/

/-- The scope while only the headers of the first `k` loops are made. -/
def Scene.heads (S : Scene) (k : Nat) : Scene :=
  { S with blocks := { S.blocks with loopHeaders := S.blocks.loopHeaders.take k } }

theorem Scene.heads_all {k : Nat} (h : S.blocks.loopCount ≤ k) : S.heads k = S := by
  rw [Scene.heads, List.take_of_length_le h]

theorem Graph.Reach.silent {g : Graph} (hg : g.Coherent) (hout : g.outgoing n = [])
    (h : g.Reach n m) : m = n := by
  rcases Relation.ReflTransGen.cases_head h with rfl | ⟨y, ⟨e, x, he, rfl, -⟩, -⟩
  · rfl
  · have := (hg.outgoing (n := x.source) (e := e)).2 ⟨x, he, rfl⟩
    rw [hout] at this
    exact absurd this List.not_mem_nil

/-- The header `n` of loop `k`, at the block `b`, has just been made. -/
structure NewHeader (S : Scene) (k : Nat) (b : BlockId) (n : NodeId) (w w' : Work) : Prop where
  block : S.blocks.loopHeaders[k]? = some b
  node : w.graph.node? n = some { kind := .loopHeader k, inputs := [] }
  incoming : w.graph.incoming n = []
  outgoing : w.graph.outgoing n = []
  young : S.graph.nodeCount ≤ n.index
  count : w.table.headers.size = k
  empty : w.table.slot? b = none
  distinct : ∀ c e, w.table.slot? c = some e → e.node ≠ n
  graph : w'.graph = w.graph
  table : w'.table = { w.table.put b { node := n } with
    headers := w.table.headers.push n, marks := w.table.marks.push none }

section Head

variable {k l : Nat} (hn : NewHeader S k b n w w')
  (h : Good (S.heads k) 0 [n] [n] (n :: part) A w) (hsc : S.blocks.Charts S.body) {c : BlockId}

include hn in
theorem NewHeader.kind : w.graph.kind? n = some (.loopHeader k) := Graph.kind?_of_node? hn.node

include hn in
theorem NewHeader.isLoopHeader (hsc : S.blocks.Charts S.body) :
    (S.blocks.block b).isLoopHeader = true := by
  rw [Block.isLoopHeader, (hsc.header (hsc.headerOf hn.block).1).2 hn.block]
  rfl

include h hn

omit hsc in
theorem NewHeader.not_start : w.graph.start ≠ some n := by
  intro hs
  obtain ⟨x, hx, hxk, -⟩ := h.inv.sound.start hs
  rw [hn.node] at hx
  cases hx
  cases hxk

include hsc

theorem NewHeader.lt : b.index < w.table.entries.size :=
  h.inv.placed.size ▸ (hsc.headerOf hn.block).1

theorem NewHeader.keeps : w.table.Keeps w'.table :=
  hn.table ▸ Table.Keeps.put_new (hn.lt h hsc) hn.empty

theorem NewHeader.slot (c : BlockId) :
    w'.table.slot? c = if c = b then some { node := n } else w.table.slot? c := by
  rw [hn.table]
  exact Table.slot?_put (hn.lt h hsc)

theorem NewHeader.open_iff (m : NodeId) : S.Open w'.table m ↔ S.Open w.table m ∨ m = n := by
  rw [hn.table]
  exact Scene.open_put_new (hn.lt h hsc) hn.empty rfl m

theorem NewHeader.usable {m : NodeId} (hm : w.graph.Usable (S.Open w.table) m) :
    w.graph.Usable (S.Open w'.table) m := by
  refine hm.of_open fun c hc hkm => ((hn.open_iff h hsc c).1 hc).resolve_right ?_
  rintro rfl
  exact h.inv.no_phi (by rw [Graph.inDegree, hn.incoming]; rfl) rfl m hkm

theorem NewHeader.sound : w.graph.Sound (S.Open w'.table) (owe [] []) := by
  have hO := hn.open_iff h hsc
  refine h.inv.sound.adjust ?_ ?_ ?_ (fun _ _ => rfl) ?_
  · rintro m hm ⟨y, hym⟩
    refine ((hO m).1 hm).resolve_right ?_
    rintro rfl
    exact h.inv.no_phi (by rw [Graph.inDegree, hn.incoming]; rfl) rfl y hym
  · intro m x _ _ _ ho
    refine .inl ((hO m).2 (ho.imp_right fun hm => ?_))
    simpa [owe] using hm
  · intro m x hx _ hm
    obtain rfl : m = n := by simpa [owe] using hm
    rw [hn.node] at hx
    cases hx
    exact .inr (.inr ⟨rfl, hn.outgoing⟩)
  · intro s hs hm
    obtain rfl : s = n := by simpa [owe] using hm
    exact absurd hs (hn.not_start h)

theorem NewHeader.headers (hc : (S.heads (k + 1)).blocks.loopHeaders[l]? = some c) :
    ∃ e, w'.table.slot? c = some e ∧ w'.table.headers[l]? = some e.node := by
  change (S.blocks.loopHeaders.take (k + 1))[l]? = some c at hc
  rw [List.getElem?_take] at hc
  split at hc
  · next hl =>
    rcases Nat.lt_succ_iff_lt_or_eq.1 hl with hl | rfl
    · obtain ⟨e, he, hnode⟩ := h.inv.placed.headers (l := l) (h := c) (by
        change (S.blocks.loopHeaders.take k)[l]? = some c
        rw [List.getElem?_take, if_pos hl, hc])
      have hcb : c ≠ b := by
        rintro rfl
        rw [hn.empty] at he
        cases he
      refine ⟨e, by rw [hn.slot h hsc, if_neg hcb, he], ?_⟩
      rw [hn.table]
      change (w.table.headers.push n)[l]? = some e.node
      rw [Array.getElem?_push, if_neg (by have := hn.count; omega), hnode]
    · obtain rfl : b = c := Option.some.inj (hn.block.symm.trans hc)
      refine ⟨_, by rw [hn.slot h hsc, if_pos rfl], ?_⟩
      rw [hn.table]
      change (w.table.headers.push n)[l]? = some n
      rw [Array.getElem?_push, if_pos hn.count.symm]
  · cases hc

theorem NewHeader.stands (he : w'.table.slot? c = some e) :
    Stands (S.heads (k + 1)) 0 (owe [] []) w'.graph w'.table c e := by
  rw [hn.slot h hsc] at he
  rw [hn.graph]
  split at he
  · next hcb =>
    subst hcb
    cases he
    have hhead := hn.isLoopHeader hsc
    refine ⟨hn.young, ⟨_, hn.kind, ?_⟩, ?_, fun _ => ⟨hhead, by rw [Graph.inDegree, hn.incoming]; rfl⟩,
      (fun hc => by cases hc), (fun hc => by cases hc), fun _ => hn.outgoing, (fun hc => by cases hc),
      (fun hc => by cases hc), (fun hc => by cases hc)⟩
    · rw [EntryKind, if_pos (show ((S.heads (k + 1)).blocks.block c).isLoopHeader = true from hhead)]
      exact ⟨k, rfl⟩
    · exact ⟨(fun hc => by cases hc), fun hc => absurd hc.1 (Nat.not_lt_zero _)⟩
  · have hst : Stands (S.heads k) 0 (owe [] []) w.graph w'.table c e := by
      refine (h.inv.placed.stands he).mono (fun hk _ => hk) (fun _ => rfl) (fun hd => hd) ?_
        (fun _ ho => ho) (fun _ => Iff.rfl) (fun _ => hn.usable h hsc)
        (hn.keeps h hsc).parsed
      rintro (hs | hs)
      · exact .inr (.inl hs)
      · exact absurd (by simpa [owe] using hs) (hn.distinct c e he)
    exact ⟨hst.young, hst.kind, hst.parsed, hst.empty, hst.anchored, hst.entered, hst.silent, hst.holds,
      hst.reached, hst.shape⟩

theorem NewHeader.placed : Placed (S.heads (k + 1)) 0 (owe [] []) w'.graph w'.table := by
  refine ⟨?_, ?_, hn.headers h hsc, ?_, fun _ => ?_, hn.stands h hsc⟩
  · rw [hn.table]
    exact (Array.size_setIfInBounds ..).trans h.inv.placed.size
  · have hm : w.table.marks.size = min k S.blocks.loopHeaders.length :=
      h.inv.placed.marks.trans (List.length_take ..)
    have hlt := (List.getElem?_eq_some_iff.1 hn.block).1
    rw [hn.table]
    change (w.table.marks.push none).size = (S.blocks.loopHeaders.take (k + 1)).length
    rw [Array.size_push, hm, List.length_take]
    omega
  · intro c c' e e' he he' hnode
    rw [hn.slot h hsc] at he he'
    split at he <;> split at he'
    · next h1 h2 => rw [h1, h2]
    · cases he
      exact absurd hnode.symm (hn.distinct c' e' he')
    · cases he'
      exact absurd hnode (hn.distinct c e he)
    · exact h.inv.placed.distinct he he' hnode
  · rw [hn.table]
    exact h.inv.placed.exits (Nat.zero_le _)

theorem NewHeader.shaped : w.graph.Shaped (S.Open w'.table) part [] := by
  have hO := hn.open_iff h hsc
  have hsh : Graph.Shaped _ (S.Open w'.table) part [n] := h.shaped.adjust
    (fun {m} hm => ((hO m).1 hm).imp_right (by rintro rfl; exact ⟨hn.outgoing, hn.incoming⟩))
    (fun {m k'} _ _ ho => by
      rcases ho with ho | ho
      · exact .inl ((hO m).2 (.inl ho))
      · rcases List.mem_cons.1 ho with rfl | ho
        · exact .inl ((hO m).2 (.inr rfl))
        · exact .inr (.inl ho))
    (fun {m} hkm ho => by
      rcases List.mem_cons.1 ho with rfl | ho
      · rw [hn.kind] at hkm
        cases hkm
      · exact .inl ho)
    h.inv.sound.coherent fun _ hx => hx
  refine ⟨hsh.exits, hsh.silent, hsh.behind, hsh.single, hsh.joins, fun {m k'} hm hc => ?_⟩
  rcases hsh.rooted hm hc with hv | hs | ⟨l, hl, hr⟩
  · exact .inl hv
  · exact .inr (.inl hs)
  · obtain rfl := List.mem_singleton.1 hl
    obtain rfl := hr.silent h.inv.sound.coherent hn.outgoing
    exact .inl ⟨Graph.kindIs_of_kind? hn.kind, hn.incoming, hn.outgoing⟩

theorem NewHeader.waits : Waits (S.heads (k + 1)) A w'.graph w'.table := by
  have hhosts : Hosts (S.heads (k + 1)) A w.graph b { node := n } := by
    refine ⟨?_, ?_, ?_, fun _ _ => ?_, fun hs => absurd hs (hn.not_start h)⟩
    · rintro - f ⟨⟩
    · rintro - ⟨⟩
    · rintro ⟨⟩
    · rw [Graph.snapshot?, hn.node]
      rfl
  have hold : Waits (S.heads (k + 1)) A w.graph w.table :=
    ⟨fun he => { h.waits.entry he with }, h.waits.outer⟩
  rw [hn.graph, hn.table]
  exact ⟨(hold.put (hn.lt h hsc) hhosts).entry, h.waits.outer⟩

theorem Good.head {w0 : Work} (hext : Extends S ss w0 w) (hfresh : w0.graph.nodeCount ≤ n.index) :
    Good (S.heads (k + 1)) 0 [] [] part A w' ∧ Extends S ss w0 w' := by
  have hg := hn.graph
  refine ⟨⟨⟨hg ▸ hn.sound h hsc, hn.placed h hsc,
    hg ▸ { h.inv.based with }⟩, hg ▸ hn.shaped h hsc, hg ▸ h.cert,
    hn.waits h hsc⟩, ⟨?_, hext.keeps.trans (hn.keeps h hsc)⟩, ?_⟩
  · rw [hg]
    refine { hext.grows with opens := fun {m} hm => ?_ }
    rcases (hn.open_iff h hsc m).1 hm with hm | rfl
    · exact hext.grows.opens hm
    · exact .inr hfresh
  · rw [hg]
    exact fun m hm => hn.usable h hsc (hext.usable m hm)

end Head

theorem addNode_any_scope {k : NodeKind} {Q : NodeId → Work → Prop}
    (h : Ensures E (addNode k I) sc' w Q) : Ensures E (addNode k I) sc w Q := h

theorem createLoopHeaders_good (hsc : S.blocks.Charts S.body)
    (h : Good (S.heads 0) 0 [] [] part A w) (hblank : w.table = Table.blank S.blocks.size) :
    Ensures E createLoopHeaders S w fun _ w' => ∃ A', Good S 0 [] [] part A' w' ∧
      Extends S [] w w' ∧ Agree S w A A' ∧
        ∀ c e, w'.table.slot? c = some e → (S.blocks.block c).isLoopHeader = true := by
  let J : Nat → Work → Prop := fun k w' => ∃ A', Good (S.heads k) 0 [] [] part A' w' ∧
    Extends S [] w w' ∧ Agree S w A A' ∧ w'.table.headers.size = k ∧
      ∀ c e, w'.table.slot? c = some e → ∃ l, l < k ∧ S.blocks.loopHeaders[l]? = some c
  unfold createLoopHeaders
  refine ensures_read_bind (Ensures.bind (ensures_forIn_index J ?_ ?_) fun _ w' hI => ensures_pure ?_)
  rotate_left 2
  · obtain ⟨A', hgood, hext, hA, -, hent⟩ := hI
    rw [List.length_range, Scene.heads_all (Nat.le_refl _)] at hgood
    refine ⟨A', hgood, hext, hA, fun c e he => ?_⟩
    obtain ⟨l, -, hl⟩ := hent c e he
    rw [Block.isLoopHeader, (hsc.header (hsc.headerOf hl).1).2 hl]
    rfl
  · rintro x _ w1 hx ⟨A1, hgood, hext, hA, hsize, hent⟩
    obtain ⟨hk, rfl⟩ := List.getElem?_eq_some_iff.1 hx
    rw [List.length_range] at hk
    rw [List.getElem_range]
    have hb : S.blocks.loopHeader? x = some (S.blocks.loopHeaders.get ⟨x, hk⟩) :=
      List.getElem?_eq_getElem hk
    refine .chain (ensures_demand hb ?_)
    refine (addNode_any_scope (addControl_good (k := .loopHeader x) (I := []) hgood (fun _ => False) rfl
      (.plain rfl (by simp)) (by simp) fun _ => rfl)).bind fun n w3 h3 => ?_
    obtain ⟨hgood3, hext3, hnew3⟩ := h3
    have hfresh : w1.graph.nodeCount ≤ n.index := Nat.le_of_eq hnew3.fresh.symm
    refine .chain (ensures_setEntry ?_)
    let t : Table := w3.table.put (S.blocks.loopHeaders.get ⟨x, hk⟩) { node := n }
    refine (ensures_changeTable (w := { w3 with table := t }) (Q := fun _ w' => w'.graph = w3.graph ∧
      w'.table = { t with headers := t.headers.push n, marks := t.marks.push none }) ⟨rfl, rfl⟩).bind
      fun _ w5 h5 => ensures_pure ⟨rfl, ?_⟩
    obtain ⟨hg5, ht5⟩ := h5
    have hnone : w3.table.slot? (S.blocks.loopHeaders.get ⟨x, hk⟩) = none := by
      rw [hnew3.table]
      refine Option.eq_none_iff_forall_ne_some.2 fun e he => ?_
      obtain ⟨l, hl, hc⟩ := hent _ e he
      have h1 := (hsc.header (hsc.headerOf hb).1).2 hb
      rw [(hsc.header (hsc.headerOf hb).1).2 hc] at h1
      exact absurd (Option.some.inj h1) (Nat.ne_of_lt hl)
    have hn : NewHeader S x (S.blocks.loopHeaders.get ⟨x, hk⟩) n w3 w5 := by
      refine ⟨hb, hnew3.node, hnew3.incoming, hnew3.outgoing, Nat.le_trans hgood.inv.based.count hfresh,
        by rw [hnew3.table, hsize], hnone, fun c e he heq => ?_, hg5, ht5⟩
      rw [hnew3.table] at he
      exact absurd (heq ▸ (hgood.inv.placed.stands he).lt) (Nat.not_lt_of_le hfresh)
    have hhead := Good.head hn hgood3 hsc (hext.trans { hext3 with })
      (Nat.le_trans hext.grows.count hfresh)
    refine ⟨_, hhead.1, hhead.2, hA.trans hext.toEvolves (.of_old fun m hm =>
      label_of_lt (Nat.lt_of_lt_of_le hm hfresh)), ?_, fun c e he => ?_⟩
    · rw [ht5]
      change (w3.table.headers.push n).size = x + 1
      rw [Array.size_push, hnew3.table, hsize]
    · rw [ht5] at he
      change (w3.table.put _ _).slot? c = some e at he
      rw [Table.slot?_put (by rw [hgood3.inv.placed.size]; exact (hsc.headerOf hb).1)] at he
      split at he
      · next hc => exact ⟨x, Nat.lt_succ_self x, hc ▸ hb⟩
      · rw [hnew3.table] at he
        obtain ⟨l, hl, hc⟩ := hent c e he
        exact ⟨l, Nat.lt_succ_of_lt hl, hc⟩
  · refine ⟨A, h, .refl .., .refl _ _ _, ?_, fun c e he => ?_⟩
    · rw [hblank]
      rfl
    · rw [hblank, Table.slot?_blank] at he
      cases he

/-! ## The first block -/

/-- A begin is put after the control point. -/
theorem Here.begins {α : Type} {rest : NodeId → BuildM α} {Q : α → Work → Prop}
    [S.Sure] (h : Here S cur bare part A w a f)
    (hrest : ∀ n w' A', Here S cur bare part A' w' n f → w'.graph.kind? n = some .begin →
      0 < w'.graph.inDegree n → Extends S [a] w w' → Agree S w A A' → w'.table = w.table →
      w.graph.nodeCount ≤ n.index → Ensures E (rest n) S w' Q) :
    Ensures E (do
      let n ← addNode .begin []
      follow a n
      rest n) S w Q := by
  obtain ⟨ka, hka, hxa⟩ := h.plain
  refine (addAwaiting_good (k := .begin) (I := []) h.good (A a) rfl rfl rfl (by simp)
    fun _ => rfl).bind fun n w1 h1 => ?_
  obtain ⟨haw, hext1, ht1, hA1, hfresh⟩ := h1
  have hne : n ≠ a := by
    rintro rfl
    exact absurd h.foot.firm.lt (Nat.not_lt_of_le hfresh)
  have hfoot1 := h.foot.mono h.good hext1.toEvolves hA1
  have hperm : n :: a :: part ⊆ a :: n :: part := by
    intro x hx
    simp only [List.mem_cons] at hx ⊢
    tauto
  have hgood1 : Good S cur bare [n] (a :: n :: part) (label A n (A a)) w1 :=
    haw.good.mono (fun _ hx => hx) (fun _ hx => hx) hperm
  have hready : Ready S (a :: n :: part) (label A n (A a)) (A a) w1 n :=
    { haw.ready with vacant := fun hv => (haw.ready.vacant hv).imp_right fun hm => hperm hm }
  refine (follow_good hgood1 hfoot1 (h.foot.kind hka hext1.toEvolves) hxa ?_ hready ?_).bind
    fun _ w2 h2 => ?_
  · rw [hext1.grows.outgoing h.foot.firm.lt List.not_mem_nil h.foot.firm.2.1, h.outgoing]
  · rw [h.foot.agree hA1]
    exact fun l hl => hl
  · obtain ⟨hgood2, hext2, ht2, e, hl2⟩ := h2
    have hk2 : w2.graph.kind? n = some .begin := by
      rw [Graph.kind?_congr (hl2.node? _), haw.kind]
    have hlabel : ∀ l, label A n (A a) n l ↔ l = n ∨ A a l := haw.label
    have hext : Extends S [a] w w2 := by
      exact ((hext1.weaken (List.nil_subset [a, n])).trans hext2).mono (changes_old hfresh)
    refine hrest n w2 (label A n (A a)) ⟨hgood2, ⟨?_, ?_, fun l hl => ?_, ?_⟩, ?_, ⟨_, hk2, rfl⟩, ?_⟩ hk2
      ?_ hext hA1 (ht2.trans ht1) hfresh
    · rw [ht2]
      exact hl2.firm (Graph.kindIs_iff.2 ⟨_, haw.kind, rfl⟩) haw.closed
    · exact (hl2.rooted hfoot1.rooted).reach (.single (hl2.step ⟨rfl, rfl⟩))
    · rcases hl with hl | hl
      · exact (hlabel l).2 (.inr (h.foot.base l (.inl hl)))
      · exact (hlabel l).2 (.inl hl)
    · intro hkm
      rw [hk2] at hkm
      cases hkm
    · rw [hl2.outgoing, if_neg hne, haw.outgoing]
    · exact (h.carries.extend h.good hext).mono fun l hl => (hlabel l).2 (.inr hl)
    · rw [Graph.inDegree, hl2.incoming, if_pos rfl]
      simp

theorem enterFirst_good [S.Sure] (hE : Expects E)
    (h : Here S 0 [] [] A w n f) (hk : w.graph.kind? n = some .begin)
    (hy : S.graph.nodeCount ≤ n.index) (hanch : 0 < w.graph.inDegree n ∨ w.graph.start = some n)
    (hheads : ∀ c e, w.table.slot? c = some e → (S.blocks.block c).isLoopHeader = true)
    (hdist : ∀ c e, w.table.slot? c = some e → e.node ≠ n) :
    Ensures E (enterFirst S f n) S w fun _ w' => ∃ A', Good S 0 [] [] [] A' w' ∧
      w'.graph.start = w.graph.start ∧ ∀ w0 A0 ss, w0.graph.nodeCount ≤ n.index →
      Extends S ss w0 w → Agree S w0 A0 A →
        Evolves S ss w0 w' ∧ Agree S w0 A0 A' := by
  have hsize : (0 : Nat) < S.blocks.size := by have := S.charts.size; omega
  have hshape : ∀ f', Shape S ⟨0⟩ f' := by
    intro f'
    rw [Shape, S.charts.entry.1]
    trivial
  unfold enterFirst
  split
  · next hhead =>
    refine (addLoopEntry_good (b := ⟨0⟩) hE h.good hsize hhead (Nat.le_refl _)
      (fun l hl => h.foot.base l (.inl hl)) h.carries (.inl rfl) (hshape f)).bind
      fun stop w1 h1 => ?_
    obtain ⟨A1, hled⟩ := h1
    have hsent : Sent S (A n) 0 [] [] [n] A f w stop w1 A1 := ⟨hled.good, hled.evolves, hled.agree,
      hled.ready, hled.fresh, hled.spares.backs hled.spared h.carries.backs⟩
    refine (h.goto hsent fun l hl => hl).mono fun _ w2 h2 => ?_
    obtain ⟨hgood2, hev2, -⟩ := h2
    refine ⟨A1, hgood2, hev2.grows.start, fun w0 A0 ss hfresh hext hA => ⟨hext.toEvolves.then hev2 ?_,
      hA.trans hext.toEvolves hled.agree⟩⟩
    intro m hm
    rw [List.mem_singleton.1 hm]
    exact .inr hfresh
  · next hhead =>
    have hhead : (S.blocks.block ⟨0⟩).isLoopHeader = false := by simpa using hhead
    have hnone : w.table.slot? ⟨0⟩ = none := by
      refine Option.eq_none_iff_forall_ne_some.2 fun e he => ?_
      rw [hheads _ e he] at hhead
      cases hhead
    have hcarry : Carries S (A n) w (S.prune f ⟨0⟩) := h.carries.sub fun v hv => Scope.mem_values_prune hv
    let e : Entry := { node := n, frame := some (S.prune f ⟨0⟩) }
    refine ensures_setEntry ?_
    let w1 : Work := { w with table := w.table.put ⟨0⟩ e }
    obtain ⟨hinv, hext⟩ := h.good.inv.place hsize hnone (Nat.le_refl _) hk hhead hy h.outgoing
      (hanch.imp_right .inl) hdist hcarry.backs (.inl rfl) (hshape _) (show w1.graph = _ from rfl) rfl
    refine ⟨A, h.good.place (h.good.inv.placed.size ▸ hsize) hnone hk h.outgoing rfl rfl hinv hcarry.avail
      h.foot.base (fun _ => rfl), rfl, fun w0 A0 ss hfresh hext0 hA =>
      ⟨(hext hext0 hfresh).toEvolves, hA⟩⟩

/-! ## The blocks, one after the other -/

theorem liftBlocks_good (hn : Nests E S nested) [S.Sure] (h : Lifted S 0 A w) :
    Ensures E (forIn S.blocks.blocks PUnit.unit fun b _ => do
      liftBlock nested b
      pure (ForInStep.yield PUnit.unit)) S w fun _ w' => ∃ A',
        Lifted S S.blocks.size A' w' ∧ Evolves S [] w w' ∧ Agree S w A A' := by
  refine ensures_forBlocks (fun k w' => ∃ A', Lifted S k A' w' ∧ Evolves S [] w w' ∧ Agree S w A A')
    (fun k w1 hk h1 => ?_) ⟨A, h, .refl .., .refl _ _ _⟩
  obtain ⟨A1, hl, hev, hA⟩ := h1
  refine (liftBlock_good (b := ⟨k⟩) hn hl hk).mono fun _ w2 h2 => ?_
  obtain ⟨A2, hl2, hev2, hA2⟩ := h2
  exact ⟨A2, hl2, hev.trans hev2, hA.trans hev hA2⟩

theorem Lifted.left (h : Lifted S S.blocks.size A w)
    (hsize : 3 ≤ S.blocks.size) (hev : Evolves S [a] w0 w) (hA : Agree S w0 A0 A) :
    Left S A0 w0 a w.table.exits w A := by
  obtain ⟨bare, hgood, hbare⟩ := h.good
  refine ⟨⟨bare, hgood, hbare⟩, hev, hA, fun y hy => ?_, fun y hy => ?_, fun y z hy hz hn => ?_⟩
  · obtain ⟨h1, h2, -⟩ := h.returned y hy
    exact ⟨h1, h2⟩
  · obtain ⟨h1, h2, -⟩ := h.unwound y hy
    exact ⟨h1, h2⟩
  · obtain ⟨e, he, -, hey⟩ := (h.returned y hy).2.2.1
    obtain ⟨e', he', -, hez⟩ := (h.unwound z hz).2.2.1
    have := hgood.inv.placed.distinct he he' (by rw [hey, hez, hn])
    simp only [BlockMap.exitBlock, BlockMap.unwindBlock, BlockId.mk.injEq] at this
    omega

/-! ## Methods -/

theorem Good.blank (hg : S.graph = w.graph) (ht : w.table = Table.blank S.blocks.size)
    (hs : w.graph.Sound (S.Open w.table) (owe [] [])) (hsh : w.graph.Shaped (S.Open w.table) part [])
    (hc : w.graph.Cert A) (ho : ∀ {n}, S.outer n → w.graph.kindIs n NodeKind.isMerge = true →
      w.graph.snapshot? n = none) : Good (S.heads 0) 0 [] [] part A w := by
  change (S.heads 0).graph = w.graph at hg
  have hnone : ∀ {b e}, w.table.slot? b ≠ some e := by
    intro b e he
    rw [ht, Table.slot?_blank] at he
    cases he
  refine ⟨⟨hs, ⟨?_, ?_, ?_, fun he => absurd he hnone, fun _ => by rw [ht]; rfl,
    fun he => absurd he hnone⟩, ⟨hg ▸ Nat.le_refl _, fun _ => by
    rw [hg]; exact ⟨rfl, rfl, rfl⟩, ?_⟩⟩, hsh,
    hc, ⟨fun he => absurd he hnone, fun hn _ => ho hn⟩⟩
  · rw [ht]
    exact Array.size_replicate
  · rw [ht]
    rfl
  · intro l c hl
    cases hl
  · intro n m hn hle
    exact absurd (Graph.lt_of_kind? hn) (Nat.not_lt_of_le (hg ▸ hle))

theorem ensures_enterBody {Q : Unit → Work → Prop}
    (h : Q () { w with parsed := sc.body :: w.parsed }) : Ensures E enterBody sc w Q := h

theorem parseWith_good (hn : Nests E S nested) (h : Enters S A w a f) :
    Ensures E (parseWith nested f (some a)) S w fun x w' => ∃ A', Left S A w a x w' A' := by
  have hE := hn.allows.ordinary
  have := h.sure
  have hgood : Good (S.heads 0) 0 [] [] [a] A w :=
    .blank h.graph h.table h.sound h.shaped h.cert h.outer
  unfold parseWith followBlocks
  refine (ensures_enterBody (Q := fun _ w' => w'.graph = w.graph ∧ w'.table = w.table) ⟨rfl, rfl⟩).bind
    fun _ w0 h0 => ?_
  have hext0 : Extends S [] w w0 := .of_eq h0.1 h0.2
  refine (createLoopHeaders_good S.charts (hgood.of_eq h0.1 h0.2) (h0.2.trans h.table)).bind
    fun _ w1 h1 => ?_
  obtain ⟨A1, hgood1, hext1, hA1, hheads⟩ := h1
  replace hext1 : Extends S [] w w1 := hext0.trans hext1
  replace hA1 : Agree S w A A1 := (Agree.refl _ _ _).trans hext0.toEvolves hA1
  have hfoot1 : Foot (S.heads 0) A1 w1 a :=
    .mono { h.foot with } hgood { hext1.toEvolves with } hA1
  have here1 : Here S 0 [] [] A1 w1 a f := by
    obtain ⟨k, hk, hx⟩ := h.plain
    refine ⟨hgood1, { hfoot1 with }, ?_,
      ⟨k, h.foot.kind hk hext1.toEvolves, hx⟩, ?_⟩
    · rw [hext1.grows.outgoing h.foot.firm.lt List.not_mem_nil h.foot.firm.2.1, h.outgoing]
    · rw [h.foot.agree hA1]
      exact h.carries.extend hgood hext1
  have hconnect : Ensures E (connectEntry f (some a)) S w1 fun _ w' => ∃ A',
      Good S 0 [] [] [] A' w' ∧ Evolves S [a] w w' ∧ Agree S w A A' := by
    unfold connectEntry
    refine ensures_read_bind (here1.begins fun n w2 A2 here2 hk hin hext2 hA2 ht2 hfresh => ?_)
    have hcount : w.graph.nodeCount ≤ n.index := Nat.le_trans hext1.grows.count hfresh
    refine (enterFirst_good hE here2 hk (h.graph ▸ hcount) (.inl hin) (ht2 ▸ hheads) ?_).mono
      fun _ w3 h3 => ?_
    · intro c e he heq
      rw [ht2] at he
      exact absurd (heq ▸ (hgood1.inv.placed.stands he).lt) (Nat.not_lt_of_le hfresh)
    · obtain ⟨A3, hgood3, -, hthen⟩ := h3
      have := hthen w A [a] hcount ((hext1.weaken (List.nil_subset _)).trans hext2)
        (hA1.trans hext1.toEvolves hA2)
      exact ⟨A3, hgood3, this.1, this.2⟩
  refine hconnect.bind fun _ w2 h2 => ?_
  obtain ⟨A2, hgood2, hev2, hA2⟩ := h2
  refine ensures_read_bind ((liftBlocks_good hn
    (.of_good hgood2 (hgood2.inv.placed.exits (Nat.zero_le _)))).bind fun _ w3 h3 => ?_)
  obtain ⟨A3, hl3, hev3, hA3⟩ := h3
  exact ensures_get_bind (ensures_pure ⟨A3, hl3.left S.charts.size (hev2.then hev3 (by simp))
    (hA2.trans hev2 hA3)⟩)

theorem parseTame_good (h : Allows E env) (levels : Nat) : ParserGood E env (parseTame levels) := by
  induction levels with
  | zero =>
    rintro S A w a f rfl hchain henter
    exact ensures_ifTame h.ordinary fun htame => parseWith_good ⟨h, hchain, nofun⟩ (henter htame)
  | succ levels ih =>
    rintro S A w a f rfl hchain henter
    refine ensures_ifTame h.ordinary fun htame => parseWith_good ⟨h, hchain, fun parse' hp => ?_⟩
      (henter htame)
    obtain rfl := Option.some.inj hp
    exact ih

end Methods

end StackLift
