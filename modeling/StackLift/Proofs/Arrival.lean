import StackLift.Proofs.Entries
import StackLift.Proofs.Join

/-!
# Edges that meet

What happens at the entry of a block when an edge comes in. The first edge gives the block its frame,
the second turns its begin into a merge (`Promotes`), and every later one meets the frame that is
there (`Arrival`). All of them keep the table in step with the graph.
-/
namespace StackLift

variable {d dat : Edge} {e : EdgeId} {f f0 : Frame} {g : Graph} {m n : NodeId} {k : NodeKind} {t : Table}
  {w' : Work}

open BuildM
open Graph hiding addEdge addNode addPhiInput kindIs setSnapshot

/-! ## One more edge -/

section Arrive

variable {E : Error → Prop} {sc : Scope} {S : Scene} {cur : Nat} {w : Work} {bare loose : List NodeId}
  {b : BlockId} {e : Entry}
variable {L l ss : List NodeId} {f0 current incoming : Frame} {g1 g0 : Graph}
  {stop a c n : NodeId} {x : EdgeId}

theorem Meets.kinds {ends : Nat}
    (h : Meets g0 g m ends current incoming f) : f.stack.map (·.kind) = current.stack.map (·.kind) := by
  have key : ∀ {l l' vs : List Value}, l.length = l'.length →
      List.Forall₂ (fun p v => Joined g0 g m ends p.1 p.2 v) (l.zip l') vs →
      vs.map (·.kind) = l.map (·.kind) := by
    intro l
    induction l with
    | nil =>
      intro l' vs _ h
      cases h
      rfl
    | cons a l ih =>
      intro l' vs hlen h
      cases l' with
      | nil => cases hlen
      | cons b l' =>
        cases h with
        | cons hab h =>
          rw [List.map_cons, List.map_cons, hab.kind, ih (Nat.succ.inj hlen) h]
  have := key (by simpa using h.depth) h.stack
  simpa using this

theorem ensures_addEdge {k : EdgeKind} {p : Float} {Q : Unit → Work → Prop}
    (ha : w.graph.contains a = true) (hc : w.graph.contains c = true)
    (h : ∀ g' x, Links w.graph g' a c ⟨a, c, k, p⟩ x → Q () { w with graph := g' }) :
    Ensures E (addEdge a c k p) sc w Q := by
  obtain ⟨g', hg', hlinks⟩ := Graph.addEdge_spec ha hc k p
  refine ensures_changeGraph (g := g') (a := ()) ?_ (h g' _ hlinks)
  simp only [hg', bind, Except.bind, pure, Except.pure]

theorem Inv.late (h : Inv S cur (owe bare loose) w)
    (hall : ∀ n, w.graph.kind? n = some (.phi m) → n ∈ l) : w.graph.Sound (S.Open w.table)
      { bare, loose, late := l.filter (isPhiOf w.graph · m), due := some m } := by
  refine h.sound.adjust (fun m hm _ => hm) (fun _ _ _ hb => hb.imp_right .inl)
    (fun _ _ hm => .inr (.inl hm)) ?_ fun _ hm => .inl hm
  intro n y c hn hyc
  have hkn : w.graph.kind? n = some (.phi c) := hyc ▸ kind?_of_node? hn
  show (if n ∈ l.filter (isPhiOf w.graph · m) then 1 else 0) + 0 =
    0 + (if some m = some c then 1 else 0)
  by_cases hm : m = c
  · subst hm
    have hmem : n ∈ l.filter (isPhiOf w.graph · m) :=
      List.mem_filter.2 ⟨hall n hkn, isPhiOf_iff.2 hkn⟩
    rw [if_pos hmem, if_pos rfl]
  · have hmem : n ∉ l.filter (isPhiOf w.graph · m) := by
      intro hc
      have := isPhiOf_iff.1 (List.mem_filter.1 hc).2
      rw [hkn] at this
      exact hm (by simpa using this.symm)
    rw [if_neg hmem, if_neg fun hc => hm (Option.some.inj hc)]

theorem Inv.open_put {d : Debt} {e' : Entry} (h : Inv S cur d w) (he : w.table.slot? b = some e)
    (hout : S.outer n → n.index < S.graph.nodeCount) : S.Open (w.table.put b e') n ↔
      (S.Open w.table n ∧ n ≠ e.node) ∨ (e'.parsed = false ∧ n = e'.node) := by
  have hput := fun c => Table.slot?_put (c := c) (e := e') (Table.lt_of_slot? he)
  constructor
  · rintro (⟨c, x, hx, hxp, rfl⟩ | hn)
    · rw [hput] at hx
      split at hx
      · cases hx
        exact .inr ⟨hxp, rfl⟩
      · next hc => exact .inl ⟨.inl ⟨c, x, hx, hxp, rfl⟩, fun hn => hc (h.placed.distinct hx he hn)⟩
    · refine .inl ⟨.inr hn, ?_⟩
      rintro rfl
      exact absurd (hout hn) (Nat.not_lt_of_le (h.placed.stands he).young)
  · rintro (⟨⟨c, x, hx, hxp, rfl⟩ | hn, hne⟩ | ⟨hp, rfl⟩)
    · refine .inl ⟨c, x, ?_, hxp, rfl⟩
      rw [hput, if_neg, hx]
      rintro rfl
      rw [he] at hx
      cases hx
      exact hne rfl
    · exact .inr hn
    · exact .inl ⟨b, e', by rw [hput, if_pos rfl], hp, rfl⟩

/-- Block `b` gets a frame, and what stands elsewhere is left alone. -/
theorem Inv.receive (h : Inv S cur (owe bare loose) w) (he : w.table.slot? b = some e)
    (hp : e.parsed = false) (hcur : cur ≤ b.index) (hreach : Reached S w.table b) (hshape : Shape S b f)
    (ht : w'.table = w.table.put b { e with frame := some f })
    (hs : w'.graph.Sound (S.Open w.table) (owe bare L)) (hbased : Based S w'.graph)
    (hgrows : Grows ss (S.Open w.table) (S.Open w.table) w.graph w'.graph)
    (hu : ∀ n, w.graph.Usable (S.Open w.table) n → w'.graph.Usable (S.Open w.table) n)
    (hholds : Holds w'.graph (S.Open w.table) e.node false f)
    (hanch : 0 < w'.graph.inDegree e.node ∨ w'.graph.start = some e.node ∨ e.node ∈ L)
    (hent : (S.blocks.block b).isLoopHeader = true → 0 < w'.graph.inDegree e.node)
    (hloose : ∀ y ∈ loose, y = e.node ∨ y ∈ L)
    (hin : ∀ n, n ≠ e.node → w'.graph.inDegree n = w.graph.inDegree n)
    (hout : ∀ n, S.Open w.table n → w'.graph.outgoing n = w.graph.outgoing n)
    (hphi : ∀ {c} x, c ≠ e.node → (w'.graph.kind? x = some (.phi c) ↔ w.graph.kind? x = some (.phi c))) :
    Inv S cur (owe bare L) w' ∧ Extends S ss w w' := by
  have hopen : S.Open w'.table = S.Open w.table := ht ▸ Scene.open_put he rfl rfl
  have hkeeps : w.table.Keeps w'.table := ht ▸ .put he rfl fun h => h
  have hst := h.placed.stands he
  refine ⟨⟨hopen ▸ hs, ?_, hbased⟩, ⟨hopen ▸ hgrows, hkeeps⟩, hopen ▸ hu⟩
  rw [ht]
  refine h.placed.put (h.placed.size ▸ Table.lt_of_slot? he) (fun l e' _ he' => ?_)
    (fun c e' hc he' hn => hc (h.placed.distinct he' he hn)) id ?_ fun {c e'} hc he' => ?_
  · rw [Option.some.inj (he.symm.trans he')]
  · rw [← ht]
    obtain ⟨k, hkn, hek⟩ := hst.kind
    refine ⟨hst.young, ⟨k, hgrows.kind hkn hek.plain.1, hek⟩, ?_, (fun hc => by cases hc), fun _ => hanch,
      fun _ => hent, fun _ => ?_, ?_, fun _ => hreach.mono hkeeps.parsed, ?_⟩
    · rw [hp]
      exact ⟨(fun hc => by cases hc), fun hc => absurd hc.1 (Nat.not_lt_of_le hcur)⟩
    · rw [hout _ (.inl ⟨b, e, he, hp, rfl⟩)]
      exact hst.silent hp
    · rintro f' ⟨⟩ -
      rw [hopen, hp]
      exact hholds
    · rintro f' ⟨⟩
      exact hshape
  · have hne : e'.node ≠ e.node := fun hn => hc (h.placed.distinct he' he hn)
    rw [← ht]
    refine (h.placed.stands he').mono hgrows.kind (fun _ => hin _ hne) (fun hd => hin _ hne ▸ hd)
      (fun ha => ?_)
      (fun hp' ho => ?_) (fun x => hphi x hne) (hopen ▸ hu) hkeeps.parsed
    · rw [hgrows.start]
      exact .inr (ha.imp_right fun ha => (hloose _ ha).resolve_left hne)
    · rw [hout _ (.inl ⟨c, e', he', hp', rfl⟩), ho]

section

variable (h : Inv S cur (owe bare loose) w) (he : w.table.slot? b = some e) (hp : e.parsed = false)
  (hf : e.frame = some f0) (hstop : w.graph.Firm (S.Open w.table) (owe bare loose) stop)
include h he hp hf hstop

theorem Inv.merging (hl : Links w.graph g1 stop e.node ⟨stop, e.node, .next, 1.0⟩ x)
    (hloose : ∀ y ∈ loose, y = e.node ∨ y ∈ L) :
    Merging (S.Open w.table) (owe bare L) true g1 g1 e.node [] (f0.values.map (·.node)) := by
  have hO : S.Open w.table e.node := .inl ⟨b, e, he, hp, rfl⟩
  have hst := h.placed.stands he
  have hh := hst.holds hf (.inl hp)
  have hk : ∀ n, g1.kind? n = w.graph.kind? n := fun n => kind?_congr (hl.node? n)
  have hphi : ∀ n, isPhiOf g1 n e.node = isPhiOf w.graph n e.node := by
    intro n
    rw [Bool.eq_iff_iff, isPhiOf_iff, isPhiOf_iff, hk]
  refine .init ?_ ?_ ?_ ?_
  · have hadj := h.late hh.all
    have := hadj.link hl ⟨rfl, rfl⟩ hstop.1 hstop.2.2 hst.isControl hloose (.inr ⟨rfl, rfl, .inl hO⟩)
    simp only [hphi]
    exact this
  · intro n hn
    obtain ⟨v, hv, rfl⟩ := List.mem_map.1 hn
    rw [hl.nodeCount]
    rcases hh.each v hv with hv | ⟨-, hv⟩
    · exact lt_of_kind? hv
    · exact hv.lt
  · simp only [hphi]
    exact hh.once
  · intro n hn
    rw [hk] at hn
    exact hh.all n hn

theorem Inv.join (hl : Links w.graph g1 stop e.node dat x)
    (hloose : ∀ y ∈ loose, y = e.node ∨ y ∈ L)
    (hm : Merging (S.Open w.table) (owe bare L) true g1 w'.graph e.node (f.values.map (·.node)) [])
    (ht : w'.table = w.table.put b { e with frame := some f }) (hshape : Shape S b f) :
    Inv S cur (owe bare L) w' ∧ Extends S [stop] w w' := by
  have hO : S.Open w.table e.node := .inl ⟨b, e, he, hp, rfl⟩
  have hst := h.placed.stands he
  have hk : ∀ n, g1.kind? n = w.graph.kind? n := fun n => kind?_congr (hl.node? n)
  have hin : ∀ n, w'.graph.incoming n = if n = e.node then w.graph.incoming n ++ [x]
      else w.graph.incoming n := fun n => (hm.incoming n).trans (hl.incoming n)
  have hpos : 0 < w'.graph.inDegree e.node := by simp [inDegree, hin]
  refine h.receive he hp (hst.unlifted hp hf) (hst.reached (by rw [hf]; rfl)) hshape ht hm.sound ?_
    ((Grows.links hl (by simp) (Or.inr (Or.inl hO))).trans (hm.grows.mono (by simp))) (fun n hn => ?_)
    (hm.holds rfl) (Or.inl hpos) (fun _ => hpos) hloose (fun n hn => ?_) (fun n hn => ?_) fun y hc => ?_
  · exact hm.based (h.based.links hl hst.young) hst.young fun y hy => h.sound.phi_lt (hk y ▸ hy)
  · exact (hm.usable_iff hO).2 (hn.of_kind? fun k hkn => by rw [hk, hkn])
  · simp only [inDegree, hin, if_neg hn]
  · rw [hm.outgoing, hl.outgoing, if_neg]
    rintro rfl
    exact hstop.2.1 hn
  · rw [hm.phi_iff hc, hk]

end

/-- `f` is what block `b` holds after an edge from `stop` brought `incoming` to it. -/
structure Arrival (w w' : Work) (stop : NodeId) (b : BlockId) (e : Entry) (f0 incoming f : Frame) :
    Prop where
  table : w'.table = w.table.put b { e with frame := some f }
  met : ∃ g1 x O d, Links w.graph g1 stop e.node ⟨stop, e.node, .next, 1.0⟩ x ∧
    Merging O d true g1 w'.graph e.node (f.values.map (·.node)) [] ∧
    Meets g1 w'.graph e.node (w.graph.inDegree e.node) f0 incoming f

/-- A frame arrives at a join whose edge is there already. -/
theorem mergeInto_spec {p : Position} (hE : Expects E)
    (h : Inv S cur (owe bare loose) w) (he : w.table.slot? b = some e)
    (hp : e.parsed = false) (hf : e.frame = some f0)
    (hm : w.graph.kindIs e.node NodeKind.isMerge = true)
    (hstop : w.graph.Firm (S.Open w.table) (owe bare loose) stop)
    (hl : Links w.graph g1 stop e.node ⟨stop, e.node, .next, 1.0⟩ x)
    (hloose : ∀ y ∈ loose, y = e.node ∨ y ∈ L) (hinc : w.graph.Backs (S.Open w.table) incoming) :
    Ensures E (mergeInto b e.node incoming p) S { w with graph := g1 } fun _ w' =>
      Inv S cur (owe bare L) w' ∧ Extends S [stop] w w' ∧
        ∃ f, Arrival w w' stop b e f0 incoming f := by
  have hk : ∀ n, g1.kind? n = w.graph.kind? n := fun n => kind?_congr (hl.node? n)
  have hu : ∀ n, w.graph.Usable (S.Open w.table) n → g1.Usable (S.Open w.table) n :=
    fun n hn => hn.of_kind? fun k hkn => by rw [hk, hkn]
  have hdeg : g1.inDegree e.node = w.graph.inDegree e.node + 1 := by
    simp [inDegree, hl.incoming]
  unfold mergeInto
  refine .chain (ensures_entry he (w := { w with graph := g1 }) ?_)
  refine .chain (ensures_demand hf ?_)
  refine (mergeFrames_spec (fun e he => hE e (Frame.checkCompatible_error he))
    (Merging.joining (.inl ⟨b, e, he, hp, rfl⟩) ?_ rfl ?_) (h.merging he hp hf hstop hl hloose) ?_
    fun v hv => hu _ (hinc v hv)).bind fun f' w2 h2 => ?_
  · simpa only [Graph.kindIs, hk] using hm
  · show g1.inDegree e.node - 1 + 1 = g1.inDegree e.node
    omega
  · intro v hv
    show g1.kind? _ = _ ∨ _
    rw [hk]
    exact (((h.placed.stands he).holds hf (.inl hp)).each v hv).imp_right fun hv => hu _ hv.2
  · obtain ⟨ht2, hm2, hmeet⟩ := h2
    have ht : w2.table.put b { e with frame := some f' } =
        w.table.put b { e with frame := some f' } := by rw [ht2]
    refine ensures_setEntry ?_
    obtain ⟨h3, h4⟩ := h.join he hp hf hstop hl hloose
      (show Merging _ _ _ _
        (Work.graph { w2 with table := w2.table.put b { e with frame := some f' } }) _ _ _
        from hm2) ht (((h.placed.stands he).shape hf).of_kinds hmeet.kinds)
    refine ⟨h3, h4, f', ht, g1, x, _, _, hl, hm2, ?_⟩
    have : w.graph.inDegree e.node = g1.inDegree e.node - 1 := by omega
    rw [this]
    exact hmeet

end Arrive

theorem Graph.Sound.no_phi {d : Debt} {O : NodeSet} (h : g.Sound O d)
    (hk : g.kindIs n NodeKind.isMerge = false) (m : NodeId) : g.kind? m ≠ some (.phi n) := by
  intro hm
  obtain ⟨y, hy, hyk⟩ := kind?_eq_some.1 hm
  rw [((h.node hy).phi hyk).1] at hk
  cases hk

/-! ## A second edge -/

/-- A begin that turns into a merge: `stop` leads to `merge`, and the edge into the begin moves to
`stop`, or the begin is followed by `stop`. -/
structure Promotes (g g' : Graph) (start stop merge : NodeId) : Prop where
  mergeId : merge = ⟨g.nodeCount⟩
  stopId : stop = ⟨g.nodeCount + 1⟩
  steps : ∃ g2 x, Links ((g.addNode .merge []).2.addNode .endNode []).2 g2 stop merge
      ⟨stop, merge, .next, 1.0⟩ x ∧
    ((∃ e0 d0, g2.edge? e0 = some d0 ∧ d0.target = start ∧ g2.incoming start = [e0] ∧
        g2.kindIs d0.source NodeKind.isControlSplit = false ∧ Moves g2 g' e0 d0 stop) ∨
      ∃ y, Links g2 g' start stop ⟨start, stop, .next, 1.0⟩ y)

section Promote

variable {g g' : Graph} {O O' : NodeSet} {start stop merge n : NodeId}

section

variable (h : Promotes g g' start stop merge)
include h

theorem Promotes.node? : g'.node? n =
    if n = merge then some { kind := .merge } else if n = stop then some { kind := .endNode }
      else g.node? n := by
  obtain ⟨hm, hs, g2, x, hl, hlast⟩ := h
  have h1 : g'.node? n = g2.node? n := by
    rcases hlast with ⟨e0, d0, -, -, -, -, hlast⟩ | ⟨y, hlast⟩
    · exact hlast.node? n
    · exact hlast.node? n
  have hcount : (g.addNode .merge []).2.nodeCount = g.nodeCount + 1 := by simp
  rw [h1, hl.node?, node?_addNode, node?_addNode, hcount, hm, hs]
  by_cases hn : n = ⟨g.nodeCount⟩
  · rw [if_pos hn, if_pos hn, if_neg]
    rw [hn]
    simp
  · rw [if_neg hn, if_neg hn]

theorem Promotes.fresh (hn : n.index < g.nodeCount) : n ≠ merge ∧ n ≠ stop := by
  constructor <;> rintro rfl
  · rw [h.mergeId] at hn
    exact Nat.lt_irrefl _ hn
  · rw [h.stopId] at hn
    exact absurd hn (by simp)

theorem Promotes.merge_ne_stop : merge ≠ stop := by
  rw [h.mergeId, h.stopId]
  simp

theorem Promotes.same (hn : n.index < g.nodeCount) : g'.node? n = g.node? n := by
  rw [h.node?, if_neg (h.fresh hn).1, if_neg (h.fresh hn).2]

end

theorem kinds_promoting (hm : merge = ⟨g.nodeCount⟩) (hs : stop = ⟨g.nodeCount + 1⟩) :
    ((g.addNode .merge []).2.addNode .endNode []).2.kind? merge = some .merge ∧
      ((g.addNode .merge []).2.addNode .endNode []).2.kind? stop = some .endNode := by
  constructor
  · rw [kind?_addNode, if_neg (by simp [hm]), kind?_addNode, if_pos hm]
  · rw [kind?_addNode, if_pos (by simp [hs])]

section

variable (h : Promotes g g' start stop merge)
include h

theorem Promotes.nodeCount : g'.nodeCount = g.nodeCount + 2 := by
  obtain ⟨hm, hs, g2, x, hl, hlast⟩ := h
  have h1 : g'.nodeCount = g2.nodeCount := by
    rcases hlast with ⟨e0, d0, -, -, -, -, hlast⟩ | ⟨y, hlast⟩
    · exact hlast.nodeCount
    · exact hlast.nodeCount
  rw [h1, hl.nodeCount]
  simp

theorem Promotes.start_eq : g'.start = g.start := by
  obtain ⟨hm, hs, g2, x, hl, hlast⟩ := h
  have h1 : g'.start = g2.start := by
    rcases hlast with ⟨e0, d0, -, -, -, -, hlast⟩ | ⟨y, hlast⟩
    · exact hlast.start
    · exact hlast.start
  rw [h1, hl.start]
  rfl

theorem Promotes.incoming (h1 : n ≠ start) (h2 : n ≠ stop) (h3 : n ≠ merge) :
    g'.incoming n = g.incoming n := by
  obtain ⟨hm, hs, g2, x, hl, hlast⟩ := h
  have h0 : g2.incoming n = g.incoming n := by
    rw [hl.incoming, if_neg h3]
    simp
  rw [← h0]
  rcases hlast with ⟨e0, d0, -, rfl, -, -, hlast⟩ | ⟨y, hlast⟩
  · rw [hlast.incoming, if_neg h1, if_neg h2, List.append_nil]
  · rw [hlast.incoming, if_neg h2]

theorem Promotes.outgoing (h1 : n ≠ start) (h2 : n ≠ stop) : g'.outgoing n = g.outgoing n := by
  obtain ⟨hm, hs, g2, x, hl, hlast⟩ := h
  have h0 : g2.outgoing n = g.outgoing n := by
    rw [hl.outgoing, if_neg h2]
    simp
  rw [← h0]
  rcases hlast with ⟨e0, d0, -, rfl, -, -, hlast⟩ | ⟨y, hlast⟩
  · rw [hlast.outgoing]
  · rw [hlast.outgoing, if_neg h1]

theorem Promotes.edge? (he : g.edge? e = some d) (hd : d.target ≠ start) : g'.edge? e = some d := by
  obtain ⟨hm, hs, g2, x, hl, hlast⟩ := h
  have he2 : g2.edge? e = some d := hl.old he
  rcases hlast with ⟨e0, d0, he0, rfl, -, -, hlast⟩ | ⟨y, hlast⟩
  · rw [hlast.edge?, if_neg, he2]
    rintro rfl
    rw [he0] at he2
    cases he2
    exact hd rfl
  · exact hlast.old he2

theorem Promotes.inDegree_merge (hst : start.index < g.nodeCount) : g'.inDegree merge = 1 := by
  have hne := (h.fresh hst).1.symm
  have hns := h.merge_ne_stop
  obtain ⟨hm, hs, g2, x, hl, hlast⟩ := h
  have h0 : g2.incoming merge = [x] := by
    rw [hl.incoming, if_pos rfl]
    simp only [incoming_addNode]
    rw [incoming_of_le (by rw [hm])]
    rfl
  rcases hlast with ⟨e0, d0, -, rfl, -, -, hlast⟩ | ⟨y, hlast⟩
  · rw [inDegree, hlast.incoming, if_neg hne, if_neg hns, h0]
    rfl
  · rw [inDegree, hlast.incoming, if_neg hns, h0]
    rfl


theorem Promotes.kind? (hk : g.kind? n = some k) : g'.kind? n = some k := by
  rw [kind?_congr (h.same (lt_of_kind? hk)), hk]

theorem Promotes.old (hk : g'.kind? n = some k) :
    (n = merge ∧ k = .merge) ∨ (n = stop ∧ k = .endNode) ∨ g.kind? n = some k := by
  rw [Graph.kind?, h.node?] at hk
  split at hk
  · next hn => exact .inl ⟨hn, (Option.some.inj hk).symm⟩
  · split at hk
    · next hn => exact .inr (.inl ⟨hn, (Option.some.inj hk).symm⟩)
    · exact .inr (.inr hk)

theorem Promotes.phi_iff : g'.kind? n = some (.phi m) ↔ g.kind? n = some (.phi m) := by
  refine ⟨fun hk => ?_, h.kind?⟩
  rcases h.old hk with ⟨-, hk⟩ | ⟨-, hk⟩ | hk
  · cases hk
  · cases hk
  · exact hk

theorem Promotes.leaving (he : g.edge? e = some d) :
    ∃ d', g'.edge? e = some d' ∧ d'.source = d.source ∧ d'.kind = d.kind := by
  obtain ⟨g2, x, hl, hlast⟩ := h.steps
  have he2 : g2.edge? e = some d := hl.old he
  rcases hlast with ⟨e0, d0, he0, -, -, -, hlast⟩ | ⟨y, hlast⟩
  · rw [hlast.edge?]
    split
    · next heq =>
      rw [heq, he0] at he2
      cases he2
      exact ⟨_, rfl, rfl, rfl⟩
    · exact ⟨d, he2, rfl, rfl⟩
  · exact ⟨d, hlast.old he2, rfl, rfl⟩

theorem Promotes.grows (hO : O start) (hk : g.kind? start = some .begin)
    (hO' : ∀ n, O' n → O n ∨ n = merge) : Grows [] O O' g g' := by
  refine ⟨by rw [h.nodeCount]; exact Nat.le_add_right _ _, ?_, fun hk _ => h.kind? hk, ?_, ?_, ?_, ?_, ?_,
    h.leaving, h.start_eq⟩
  · intro n hn
    refine (hO' n hn).imp_right fun hn => ?_
    rw [hn, h.mergeId]
  · intro n k hn hk
    rwa [kind?_congr (h.same hn)] at hk
  · intro n k hn _
    rw [inputs_congr (h.same hn)]
    exact ⟨List.prefix_rfl, fun _ => rfl⟩
  · intro n hn hb
    have hs : n ≠ start := by
      rintro rfl
      exact hb hO hk
    rw [h.incoming hs (h.fresh hn).2 (h.fresh hn).1]
    exact ⟨List.prefix_rfl, fun _ _ _ => rfl⟩
  · intro n hn _ hnO
    refine h.outgoing ?_ (h.fresh hn).2
    rintro rfl
    exact hnO hO
  · intro e x hx _ hb
    refine h.edge? hx ?_
    rintro rfl
    exact hb hO hk

end

theorem Graph.Sound.promote {bare loose : List NodeId} (hs : g.Sound O (owe bare loose))
    (h : Promotes g g' start stop merge) (hO : O start) (hO' : ∀ n, O' n ↔ (O n ∧ n ≠ start) ∨ n = merge)
    (hk : g.kind? start = some .begin) (hout : g.outgoing start = [])
    (hanch : 0 < g.inDegree start ∨ g.start = some start ∨ start ∈ loose) :
    g'.Sound O' (owe bare loose) := by
  have hne := h.fresh (lt_of_kind? hk)
  obtain ⟨hm, hst, g2, x, hl, hlast⟩ := h
  obtain ⟨hnm, hns⟩ := kinds_promoting hm hst
  -- The two new nodes.
  have h1 : ((g.addNode .merge []).2.addNode .endNode []).2.Sound O
      (owe (merge :: bare) (stop :: merge :: loose)) := by
    have ha := hs.addNode (k := .merge) (I := []) (.plain rfl (by simp)) (by simp [owe])
    have hb := ha.addNode (k := .endNode) (I := []) (.plain rfl (by simp)) (by simp [owe, Debt.add])
    have hcount : (g.addNode .merge []).2.nodeCount = g.nodeCount + 1 := by simp
    rw [hcount] at hb
    rw [hm, hst]
    exact hb
  have hphi : ∀ n, ((g.addNode .merge []).2.addNode .endNode []).2.kind? n ≠ some (.phi merge) := by
    intro n hn
    have h2 := h1.phi_lt hn
    have h3 := lt_of_kind? hn
    have hstop : n = stop := by
      rw [hst, ← NodeId.index_inj]
      simp [hm] at h2 h3 ⊢
      omega
    rw [hstop, hns] at hn
    cases hn
  have hkm : g2.kind? merge = some .merge := by rw [kind?_congr (hl.node? _), hnm]
  have hks : g2.kind? stop = some .endNode := by rw [kind?_congr (hl.node? _), hns]
  have hkb : g2.kind? start = some .begin := by
    rw [kind?_congr (hl.node? _)]
    exact kind?_addNode_of (kind?_addNode_of hk)
  have hctrl : ∀ {n k}, g2.kind? n = some k →
      ((g.addNode .merge []).2.addNode .endNode []).2.kindIs n NodeKind.isControl = k.isControl := by
    intro n k hn
    rw [Graph.kindIs, ← kind?_congr (hl.node? n), hn]
    rfl
  -- The edge into the merge.
  have h2 : g2.Sound O (owe (merge :: bare) (stop :: loose)) := by
    have hdue : ((g.addNode .merge []).2.addNode .endNode []).2.Sound O
        { bare := merge :: bare, loose := stop :: merge :: loose, due := some merge } := by
      refine h1.adjust (fun m hm _ => hm) (fun _ _ _ hb => hb.imp_right .inl)
        (fun _ _ hm => .inr (.inl hm)) ?_ fun _ hm => .inl hm
      intro n y m hn hym
      have hmm : merge ≠ m := by
        rintro rfl
        exact hphi n (hym ▸ kind?_of_node? hn)
      show (0 : Nat) + 0 = 0 + if some merge = some m then 1 else 0
      rw [if_neg fun hc => hmm (Option.some.inj hc)]
    have hloose : ∀ y ∈ stop :: merge :: loose, y = merge ∨ y ∈ stop :: loose := by
      simp +contextual
    exact hdue.link hl ⟨rfl, rfl⟩ (hctrl hks) (.inr (.inr (by simp))) (hctrl hkm) hloose
      (.inr ⟨rfl, rfl, .inr (.inl (by simp))⟩)
  -- The way to the end.
  have h3 : g'.Sound O (owe (merge :: bare) loose) := by
    have hloose : ∀ y ∈ stop :: loose, y = stop ∨ y ∈ loose := by simp
    rcases hlast with ⟨e0, d0, he0, htarget, -, -, hmv⟩ | ⟨y, hlk⟩
    · refine h2.moves he0 hmv htarget hkb ?_ ?_ ?_ ?_ hloose
      · rw [hl.outgoing, if_neg hne.2]
        simpa using hout
      all_goals exact kindIs_of_kind? hks
    · refine h2.link hlk ⟨rfl, rfl⟩ ?_ ?_ ?_ hloose (.inl ⟨?_, rfl⟩)
      · exact kindIs_of_kind? hkb
      · rw [hl.start, inDegree, hl.incoming, if_neg hne.1]
        simp only [incoming_addNode]
        exact hanch.imp_right (Or.imp_right fun hs => by simp [owe, hs])
      all_goals exact kindIs_of_kind? hks
  have hkind : ∀ n, g'.kind? n = g2.kind? n := by
    intro n
    rcases hlast with ⟨e0, d0, -, -, -, -, hlast⟩ | ⟨y, hlast⟩
    · exact kind?_congr (hlast.node? n)
    · exact kind?_congr (hlast.node? n)
  refine h3.adjust ?_ ?_ (fun _ _ hm => .inr (.inl hm)) (fun _ _ => rfl) ?_
  · rintro m hm' ⟨n, hn⟩
    rcases (hO' m).1 hm' with hm' | rfl
    · exact hm'.1
    · rw [hkind, kind?_congr (hl.node? n)] at hn
      exact absurd hn (hphi n)
  · intro n y hn heff _ hO
    rcases hO with hO | hb
    · refine .inl ((hO' n).2 (.inl ⟨hO, ?_⟩))
      rintro rfl
      have := kind?_of_node? hn
      rw [hkind, hkb] at this
      rw [← Option.some.inj this] at heff
      cases heff
    · rcases List.mem_cons.1 hb with rfl | hb
      · exact .inl ((hO' _).2 (.inr rfl))
      · exact .inr (.inl hb)
  · intro s hs' hb
    rcases List.mem_cons.1 hb with rfl | hb
    · obtain ⟨y, hy, hyk, -⟩ := h3.start hs'
      have := kind?_of_node? hy
      rw [hkind, hkm, hyk] at this
      cases this
    · exact .inl hb

end Promote

section Second

variable {E : Error → Prop} {sc : Scope} {S : Scene} {cur : Nat} {w : Work} {bare loose : List NodeId}
  {b : BlockId} {e : Entry}

section

variable [S.Fit] (h : Inv S cur (owe bare loose) w) (he : w.table.slot? b = some e)
  (hp : e.parsed = false) {merge : NodeId}
include h he hp

theorem Inv.open_promoted (n : NodeId) : S.Open (w.table.put b { e with node := merge }) n ↔
      (S.Open w.table n ∧ n ≠ e.node) ∨ n = merge :=
  (h.open_put he (Scene.Fit.outer n)).trans (or_congr_right (and_iff_right hp))

theorem Inv.promoted {stop : NodeId} (hf : e.frame = some f0)
    (hk : w.graph.kind? e.node = some .begin) (hpr : Promotes w.graph w'.graph e.node stop merge)
    (ht : w'.table = w.table.put b { e with node := merge }) :
    Inv S cur (owe bare loose) w' ∧ Extends S [] w w' := by
  have hO : S.Open w.table e.node := .inl ⟨b, e, he, hp, rfl⟩
  have hopen : ∀ n, S.Open w'.table n ↔ (S.Open w.table n ∧ n ≠ e.node) ∨ n = merge := by
    rw [ht]
    exact h.open_promoted he hp
  have hst := h.placed.stands he
  have hhead : (S.blocks.block b).isLoopHeader = false := by
    obtain ⟨k, hkn, hek⟩ := hst.kind
    rw [hk] at hkn
    cases hkn
    unfold EntryKind at hek
    split at hek
    · obtain ⟨i, hi⟩ := hek
      cases hi
    · next hb => simpa using hb
  have hsize : b.index < S.blocks.size := h.placed.size ▸ Table.lt_of_slot? he
  have hlt := lt_of_kind? hk
  have hphi : ∀ n, w.graph.kind? n ≠ some (.phi merge) := by
    intro n hn
    have hm := h.sound.phi_lt hn
    rw [hpr.mergeId] at hm
    exact absurd (lt_of_kind? hn) (Nat.not_lt_of_le hm.le)
  have hu : ∀ n, w.graph.Usable (S.Open w.table) n → w'.graph.Usable (S.Open w'.table) n := by
    rintro n ⟨k, hkn, hpl, hno⟩
    refine ⟨k, hpr.kind? hkn, hpl, ?_⟩
    rintro m rfl hm
    rcases (hopen m).1 hm with hm | rfl
    · exact hno m rfl hm.1
    · exact hphi n hkn
  have hother : ∀ {c e'}, c ≠ b → w.table.slot? c = some e' →
      e'.node ≠ e.node ∧ e'.node ≠ merge ∧ e'.node ≠ stop := by
    intro c e' hc he'
    exact ⟨fun hn => hc (h.placed.distinct he' he hn), hpr.fresh (h.placed.stands he').lt⟩
  have hgrows : Grows [] (S.Open w.table) (S.Open w'.table) w.graph w'.graph :=
    hpr.grows hO hk fun n hn => ((hopen n).1 hn).imp_left And.left
  have hkeeps : ∀ {a e'}, w.table.slot? a = some e' → e'.parsed = true →
      w'.table.slot? a = some e' := by
    intro a e' ha hpa
    rw [ht, Table.slot?_put (Table.lt_of_slot? he), if_neg, ha]
    rintro rfl
    rw [he] at ha
    cases ha
    rw [hp] at hpa
    cases hpa
  refine ⟨⟨?_, ?_, ?_⟩, ⟨hgrows, fun a e' ha hpa => ⟨e', hkeeps ha hpa, hpa, rfl⟩⟩, hu⟩
  · exact h.sound.promote hpr hO hopen hk (hst.silent hp) (hst.anchored (by rw [hf]; rfl))
  · rw [ht]
    refine h.placed.put hsize ?_ ?_ id ?_ ?_
    · intro l e' hl _
      have := (S.charts.header hsize).2 hl
      rw [Block.isLoopHeader, this] at hhead
      cases hhead
    · exact fun c e' hc he' => (hother hc he').2.1
    · rw [← ht]
      have hpos : 0 < w'.graph.inDegree merge := by
        rw [hpr.inDegree_merge hlt]
        exact Nat.one_pos
      refine ⟨?_, ⟨.merge, ?_, ?_⟩, ?_, ?_, fun _ => .inl hpos, fun _ _ => hpos, ?_, ?_, ?_,
        hst.shape⟩
      · show S.graph.nodeCount ≤ merge.index
        rw [hpr.mergeId]
        exact h.based.count
      · rw [kind?, hpr.node?, if_pos rfl]
        rfl
      · rw [hhead]
        exact .inr rfl
      · exact hst.parsed
      · intro hc
        rw [hf] at hc
        cases hc
      · intro _
        show w'.graph.outgoing merge = []
        rw [hpr.outgoing (hpr.fresh hlt).1.symm hpr.merge_ne_stop]
        exact outgoing_of_le (by rw [hpr.mergeId])
      · intro f hf' _
        show Holds _ _ _ e.parsed f
        rw [hp]
        refine .of_usable (fun n hn => hphi n (hpr.phi_iff.1 hn)) fun v hv => hu _ ?_
        exact (((hst.holds hf' (.inl hp)).each v hv).resolve_left
          (h.sound.no_phi (kindIs_of_kind? hk) _)).2
      · exact fun hfr => (hst.reached hfr).mono fun ha hpa => ⟨_, hkeeps ha hpa, hpa⟩
    · rw [← ht]
      intro c e' hc he'
      obtain ⟨h1, h2, h3⟩ := hother hc he'
      have hdeg : w'.graph.inDegree e'.node = w.graph.inDegree e'.node := by
        simp only [inDegree, hpr.incoming h1 h3 h2]
      refine (h.placed.stands he').mono (fun hk _ => hpr.kind? hk) (fun _ => hdeg)
        (fun hd => hdeg ▸ hd) ?_ ?_ (fun x => hpr.phi_iff) hu
        fun ha hpa => ⟨_, hkeeps ha hpa, hpa⟩
      · rw [hpr.start_eq]
        exact .inr
      · intro _ ho
        rw [hpr.outgoing h1 h3, ho]
  · refine ⟨Nat.le_trans h.based.count hgrows.count, ?_, ?_⟩
    · intro n hn
      obtain ⟨h1, h2, h3⟩ := h.based.frozen hn
      have hlt' : n.index < w.graph.nodeCount := Nat.lt_of_lt_of_le hn h.based.count
      have hnode := hpr.same hlt'
      have hne : n ≠ e.node := by
        rintro rfl
        exact absurd hn (Nat.not_lt_of_le hst.young)
      rw [kind?_congr hnode, inputs_congr hnode,
        hpr.incoming hne (hpr.fresh hlt').2 (hpr.fresh hlt').1]
      exact ⟨h1, h2, h3⟩
    · intro n m hm
      rw [hpr.phi_iff] at hm
      exact h.based.phis hm

end

/-- The way to the end of a merge that takes the place of a begin. -/
theorem promote_promotes (hco : w.graph.Coherent) (he : w.table.slot? b = some e)
    (hk : w.graph.kind? e.node = some .begin) : Ensures E (promote b e.node) sc w fun merge w' =>
      w'.table = w.table.put b { e with node := merge } ∧
        ∃ stop, Promotes w.graph w'.graph e.node stop merge := by
  unfold promote
  refine (ensures_addNode (Q := fun n w' => n = ⟨w.graph.nodeCount⟩ ∧
    w' = { w with graph := (w.graph.addNode .merge []).2 }) ⟨rfl, rfl⟩).bind fun merge w1 h1 => ?_
  obtain ⟨hmerge, rfl⟩ := h1
  refine (ensures_addNode (Q := fun n w' => n = ⟨w.graph.nodeCount + 1⟩ ∧
    w' = { w with graph := ((w.graph.addNode .merge []).2.addNode .endNode []).2 })
    ⟨by simp, rfl⟩).bind fun stop w1 h1 => ?_
  obtain ⟨hstop, rfl⟩ := h1
  obtain ⟨hkm, hks⟩ := kinds_promoting hmerge hstop
  refine (ensures_addEdge
    (w := { w with graph := ((w.graph.addNode .merge []).2.addNode .endNode []).2 })
    (Q := fun _ w' => ∃ g2 x, Links _ g2 stop merge _ x ∧ w' = { w with graph := g2 })
    (contains_of_kind? hks) (contains_of_kind? hkm)
    fun g' x hl => ⟨g', x, hl, rfl⟩).bind fun _ w1 h1 => ?_
  obtain ⟨g2, x, hl, rfl⟩ := h1
  refine ensures_get_bind ?_
  have hkind : ∀ n, g2.kind? n = _ := fun n => kind?_congr (hl.node? n)
  have hkb : g2.kind? e.node = some .begin := by
    rw [hkind]
    exact kind?_addNode_of (kind?_addNode_of hk)
  -- What is left once the way to the end is there.
  have hrest : ∀ g', Promotes w.graph g' e.node stop merge →
      Ensures E (moveEntry b merge) sc { w with graph := g' } fun merge w' =>
      w'.table = w.table.put b { e with node := merge } ∧
        ∃ stop, Promotes w.graph w'.graph e.node stop merge := by
    intro g' hpr
    refine .chain (ensures_entry (w := { w with graph := g' }) he ?_)
    exact (ensures_setEntry (w := { w with graph := g' }) (Q := fun _ w' => w'.graph = g' ∧
      w'.table = w.table.put b { e with node := merge }) ⟨rfl, rfl⟩).bind
      fun _ w1 h1 => ensures_pure ⟨h1.2, stop, h1.1 ▸ hpr⟩
  have hfollow : Ensures E (do
      follow e.node stop
      moveEntry b merge) sc { w with graph := g2 } fun merge w' =>
      w'.table = w.table.put b { e with node := merge } ∧
        ∃ stop, Promotes w.graph w'.graph e.node stop merge := by
    refine (ensures_addEdge (w := { w with graph := g2 })
      (Q := fun _ w' => ∃ g' y, Links g2 g' e.node stop _ y ∧ w' = { w with graph := g' })
      (contains_of_kind? hkb) (contains_of_kind? ((hkind stop).trans hks))
      fun g' y hl => ⟨g', y, hl, rfl⟩).bind fun _ w1 h1 => ?_
    obtain ⟨g', y, hlast, rfl⟩ := h1
    exact hrest g' ⟨hmerge, hstop, g2, x, hl, .inr ⟨y, hlast⟩⟩
  dsimp only
  split
  · next e0 d0 hpred =>
    split
    · exact hfollow
    · next hsplit =>
      have hco2 : g2.Coherent := by
        refine ((hco.addNode _ _).addNode _ _).links hl rfl rfl ?_ ?_
        · exact kindIs_of_kind? hks
        · exact kindIs_of_kind? hkm
      have hmem : (e0, d0) ∈ g2.predecessorEdges e.node := by
        rw [hpred]
        simp
      obtain ⟨hd0, htarget⟩ := hco2.linked.mem_predecessorEdges.1 hmem
      have hin : g2.incoming e.node = [e0] := by
        rw [← hco2.linked.map_predecessorEdges, hpred]
        rfl
      obtain ⟨g', hg', hmoves⟩ := retarget_spec (t := stop)
        (contains_of_kind? ((hkind stop).trans hks)) hd0
      refine (ensures_changeGraph (w := { w with graph := g2 }) (g := g') (a := ())
        (Q := fun _ w' => w' = { w with graph := g' }) ?_ rfl).bind fun _ w1 h1 => ?_
      · simp only [hg', bind, Except.bind, pure, Except.pure]
      · subst h1
        exact hrest g' ⟨hmerge, hstop, g2, x, hl, .inl
          ⟨e0, d0, hd0, htarget, hin, Bool.eq_false_iff.2 hsplit, hmoves⟩⟩
  · exact hfollow

theorem promote_spec [S.Fit] (h : Inv S cur (owe bare loose) w)
    (he : w.table.slot? b = some e) (hp : e.parsed = false) (hf : e.frame = some f0)
    (hk : w.graph.kind? e.node = some .begin) : Ensures E (promote b e.node) S w fun merge w' =>
      Inv S cur (owe bare loose) w' ∧ Extends S [] w w' ∧
        w'.table = w.table.put b { e with node := merge } ∧
        ∃ stop, Promotes w.graph w'.graph e.node stop merge :=
  (promote_promotes h.sound.coherent he hk).mono fun merge w' h' => by
    obtain ⟨ht, stop, hpr⟩ := h'
    obtain ⟨h2, h3⟩ := h.promoted he hp hf hk hpr ht
    exact ⟨h2, h3, ht, stop, hpr⟩

end Second

/-! ## The first edge -/

theorem Scope.prune_stack (sc : Scope) (f : Frame) (b : BlockId) : (sc.prune f b).stack = f.stack := by
  unfold Scope.prune
  cases sc.liveness <;> rfl

theorem Scope.mem_values_prune {sc : Scope} {b : BlockId} {v : Value} (h : v ∈ (sc.prune f b).values) :
    v ∈ f.values := by
  unfold Scope.prune at h
  cases hl : sc.liveness with
  | none =>
    rw [hl] at h
    exact h
  | some l =>
    rw [hl] at h
    exact Frame.mem_values_keepLive h

section First

variable {E : Error → Prop} {S : Scene} {cur : Nat} {w w' : Work}
  {bare loose L : List NodeId} {b : BlockId} {e : Entry} {f : Frame}

theorem Inv.no_phi {d : Debt} (h : Inv S cur d w) (hd : w.graph.inDegree m = 0) (hdue : d.due = none)
    (n : NodeId) : w.graph.kind? n ≠ some (.phi m) := by
  intro hn
  obtain ⟨y, hy, hyk⟩ := kind?_eq_some.1 hn
  obtain ⟨-, -, hne, hlen⟩ := (h.sound.node hy).phi hyk
  rw [hd, Debt.expected, hdue, if_neg (by simp)] at hlen
  exact hne (List.eq_nil_of_length_eq_zero (by omega))

theorem Inv.enter {stop : NodeId} {x : EdgeId}
    (h : Inv S cur (owe bare loose) w) (he : w.table.slot? b = some e) (hp : e.parsed = false)
    (hf : e.frame = none) (hcur : cur ≤ b.index)
    (hstop : w.graph.Firm (S.Open w.table) (owe bare loose) stop)
    (hl : Links w.graph w'.graph stop e.node dat x) (hdat : dat.source = stop ∧ dat.target = e.node)
    (ht : w'.table = w.table.put b { e with frame := some f })
    (hloose : ∀ y ∈ loose, y = e.node ∨ y ∈ L)
    (hback : w.graph.Backs (S.Open w.table) f) (hreach : Reached S w.table b)
    (hshape : Shape S b f) : Inv S cur (owe bare L) w' ∧ Extends S [stop] w w' := by
  have hst := h.placed.stands he
  obtain ⟨hhead, hdeg⟩ := hst.empty hf
  have hO : S.Open w.table e.node := .inl ⟨b, e, he, hp, rfl⟩
  have hk : ∀ n, w'.graph.kind? n = w.graph.kind? n := fun n => kind?_congr (hl.node? n)
  have hphi := h.no_phi hdeg rfl
  have hu : ∀ n, w.graph.Usable (S.Open w.table) n → w'.graph.Usable (S.Open w.table) n :=
    fun n hn => hn.of_kind? fun k hkn => by rw [hk, hkn]
  have hpos : 0 < w'.graph.inDegree e.node := by simp [inDegree, hl.incoming]
  refine h.receive he hp hcur hreach hshape ht ?_ (h.based.links hl hst.young)
    (.links hl (by simp) (.inr (.inl hO))) hu
    (.of_usable (fun n => hk n ▸ hphi n) fun v hv => hu _ (hback v hv))
    (Or.inl hpos) (fun _ => hpos) hloose (fun n hn => ?_) (fun n hn => ?_) fun y _ => by rw [hk]
  · have hdue := h.late (l := []) fun n hn => absurd hn (hphi n)
    exact hdue.link hl hdat hstop.1 hstop.2.2 hst.isControl hloose (.inr ⟨rfl, rfl, .inl hO⟩)
  · simp only [inDegree, hl.incoming, if_neg hn]
  · rw [hl.outgoing, if_neg]
    rintro rfl
    exact hstop.2.1 hn

end First

section Open

variable {E : Error → Prop} {S : Scene} {cur : Nat} {w w' : Work} {d : Debt}
  {bare loose : List NodeId} {b : BlockId} {f : Frame} {n : NodeId}

theorem Scene.open_put_new {e : Entry} (hb : b.index < t.entries.size) (hnone : t.slot? b = none)
    (hp : e.parsed = false) (m : NodeId) : S.Open (t.put b e) m ↔ S.Open t m ∨ m = e.node := by
  have hput := fun c => Table.slot?_put (c := c) (e := e) hb
  constructor
  · rintro (⟨c, x, hx, hxp, rfl⟩ | hm)
    · rw [hput] at hx
      split at hx
      · cases hx
        exact .inr rfl
      · exact .inl (.inl ⟨c, x, hx, hxp, rfl⟩)
    · exact .inl (.inr hm)
  · rintro ((⟨c, x, hx, hxp, rfl⟩ | hm) | rfl)
    · refine .inl ⟨c, x, ?_, hxp, rfl⟩
      rw [hput, if_neg, hx]
      rintro rfl
      rw [hnone] at hx
      cases hx
    · exact .inr hm
    · exact .inl ⟨b, e, by rw [hput, if_pos rfl], hp, rfl⟩

theorem Table.Keeps.put_new {e : Entry} (hb : b.index < t.entries.size) (hnone : t.slot? b = none) :
    t.Keeps (t.put b e) := by
  intro c x hx hxp
  refine ⟨x, ?_, hxp, rfl⟩
  rw [Table.slot?_put hb, if_neg, hx]
  rintro rfl
  rw [hnone] at hx
  cases hx

/-- A block gets its place, and the frame that its first edge brings. -/
theorem Inv.place (h : Inv S cur d w)
    (hb : b.index < S.blocks.size) (hnone : w.table.slot? b = none) (hcur : cur ≤ b.index)
    (hk : w.graph.kind? n = some .begin) (hhead : (S.blocks.block b).isLoopHeader = false)
    (hy : S.graph.nodeCount ≤ n.index) (hout : w.graph.outgoing n = [])
    (hanch : 0 < w.graph.inDegree n ∨ w.graph.start = some n ∨ n ∈ d.loose)
    (hdist : ∀ c e, w.table.slot? c = some e → e.node ≠ n)
    (hback : w.graph.Backs (S.Open w.table) f) (hreach : Reached S w.table b)
    (hshape : Shape S b f) (hg : w'.graph = w.graph)
    (ht : w'.table = w.table.put b { node := n, frame := some f }) :
    Inv S cur d w' ∧ ∀ {w0 : Work} {ss : List NodeId}, Extends S ss w0 w →
      w0.graph.nodeCount ≤ n.index → Extends S ss w0 w' := by
  have hbt : b.index < w.table.entries.size := h.placed.size ▸ hb
  have hopen : ∀ m, S.Open w'.table m ↔ S.Open w.table m ∨ m = n := by
    intro m
    rw [ht]
    exact Scene.open_put_new hbt hnone rfl m
  have hkeeps : w.table.Keeps w'.table := ht ▸ .put_new hbt hnone
  have hphi := h.sound.no_phi (n := n) (kindIs_of_kind? hk)
  have hu : ∀ m, w.graph.Usable (S.Open w.table) m → w.graph.Usable (S.Open w'.table) m := by
    intro m hm
    refine hm.of_open fun c hc hkm => ((hopen c).1 hc).resolve_right ?_
    rintro rfl
    exact hphi m hkm
  refine ⟨⟨?_, ?_, hg ▸ h.based⟩, fun hext hfresh => ⟨⟨?_, hext.keeps.trans hkeeps⟩, ?_⟩⟩
  · rw [hg]
    refine h.sound.adjust ?_ ?_ (fun _ _ hm => .inr (.inl hm)) (fun _ _ => rfl)
      fun _ hm => .inl hm
    · rintro m hm ⟨y, hym⟩
      refine ((hopen m).1 hm).resolve_right ?_
      rintro rfl
      exact hphi y hym
    · exact fun _ _ _ hO => Or.imp (fun hO => (hopen _).2 (.inl hO)) .inl hO
  · rw [ht, hg]
    refine h.placed.put hb ?_ (fun c e _ he => hdist c e he) id ?_ ?_
    · intro l e _ he
      rw [hnone] at he
      cases he
    · rw [← ht]
      refine ⟨hy, ⟨_, hk, by rw [hhead]; exact .inl rfl⟩, ⟨(fun hc => by cases hc), fun hc => ?_⟩,
        (fun hc => by cases hc), fun _ => hanch, fun _ hc => ?_, fun _ => hout, ?_,
        fun _ => hreach.mono hkeeps.parsed, ?_⟩
      · exact absurd hc.1 (Nat.not_lt_of_le hcur)
      · rw [hhead] at hc
        cases hc
      · rintro f' ⟨⟩ -
        exact .of_usable hphi fun v hv => hu _ (hback v hv)
      · rintro f' ⟨⟩
        exact hshape
    · rw [← ht]
      intro c e hc he
      exact (h.placed.stands he).mono (fun hk _ => hk) (fun _ => rfl) (fun hd => hd) .inr
        (fun _ ho => ho) (fun _ => Iff.rfl) hu hkeeps.parsed
  · rw [hg]
    refine { hext.grows with opens := ?_ }
    intro m hm
    rcases (hopen m).1 hm with hm | rfl
    · exact hext.grows.opens hm
    · exact .inr hfresh
  · intro m hm
    rw [hg]
    exact hu m (hext.usable m hm)

end Open

end StackLift
