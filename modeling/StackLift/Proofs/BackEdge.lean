import StackLift.Proofs.Shed

/-!
# Back edges

A back edge gives every phi of its header one more input, once it has shed the locals that it does not
define. `BackEdge` says what it does to the graph and to the table.
-/
namespace StackLift

variable {e : Entry} {g : Graph} {dead rest : List NodeId} {p : Position}

open BuildM
open Graph hiding addEdge addNode addPhiInput kindIs setSnapshot

/-! ## Filling phis -/

section Fill

variable {E : Error → Prop} {sc : Scope} {S : Scene} {cur : Nat} {w : Work} {O : NodeSet}
  {d : Debt} {g0 : Graph} {m : NodeId} {bare loose : List NodeId}
variable {b : BlockId} {f f0 incoming f' : Frame}

/-- The phis of `pairs` have got their inputs, those of `rest` still wait. -/
structure Filling (O : NodeSet) (d : Debt) (g0 g : Graph) (m : NodeId)
    (pairs : List (NodeId × NodeId)) (rest : List NodeId) : Prop where
  merging : Merging O d true g0 g m (pairs.map Prod.fst) rest
  kind? : ∀ n, g.kind? n = g0.kind? n
  inputs : ∀ q ∈ pairs, g.inputs q.1 = g0.inputs q.1 ++ [q.2]

theorem Filling.fill {x v : NodeId} {pairs : List (NodeId × NodeId)}
    (h : Filling O d g0 g m pairs (x :: rest)) (hx : g0.kind? x = some (.phi m)) (hv : g0.Usable O v) :
    Filling O d g0 (g.modifyNode x fun y => { y with inputs := y.inputs ++ [v] }) m
      (pairs ++ [(x, v)]) rest := by
  have hk : ∀ n, (g.modifyNode x fun y => { y with inputs := y.inputs ++ [v] }).kind? n = g.kind? n :=
    fun n => kind?_modifyNode fun _ => rfl
  have hnode := (h.merging.waiting (n := x) (by simp)).1
  refine ⟨?_, fun n => (hk n).trans (h.kind? n), ?_⟩
  · rw [List.map_append]
    exact h.merging.fill hx (hv.of_kind? fun k hkv => by rw [h.kind?, hkv])
  · intro q hq
    rcases List.mem_append.1 hq with hq | hq
    · rw [← h.inputs q hq]
      refine inputs_congr ?_
      rw [node?_modifyNode, if_neg]
      intro hqx
      exact (h.merging.phi_head hx).2.1 (List.mem_map.2 ⟨q, hq, hqx⟩)
    · rw [List.mem_singleton.1 hq]
      obtain ⟨y, hy, -⟩ := kind?_eq_some.1 hx
      simp [Graph.inputs, node?_modifyNode, hnode, hy]

theorem ensures_fill {α : Type} {xs : List α} {body : α → PUnit → BuildM (ForInStep PUnit)}
    (pair : α → Option (NodeId × NodeId)) (hbody : ∀ x, body x ⟨⟩ = match pair x with
      | some (a, v) => do
        addPhiInput a v
        pure (.yield ⟨⟩)
      | none => pure (.yield ⟨⟩))
    (hpair : ∀ x ∈ xs, ∀ a v, pair x = some (a, v) → g0.kind? a = some (.phi m) ∧ g0.Usable O v)
    {pairs : List (NodeId × NodeId)}
    (h : Filling O d g0 w.graph m pairs ((xs.filterMap pair).map Prod.fst ++ rest)) :
    Ensures E (forIn xs ⟨⟩ body) sc w fun _ w' => w'.table = w.table ∧
      Filling O d g0 w'.graph m (pairs ++ xs.filterMap pair) rest := by
  induction xs generalizing w pairs with
  | nil => exact ensures_pure ⟨rfl, by simpa using h⟩
  | cons x xs ih =>
    rw [List.forIn_cons, hbody]
    have hrest : ∀ y ∈ xs, ∀ a v, pair y = some (a, v) → g0.kind? a = some (.phi m) ∧ g0.Usable O v :=
      fun y hy => hpair y (by simp [hy])
    cases hp : pair x with
    | none =>
      rw [List.filterMap_cons_none hp] at h ⊢
      exact ih hrest h
    | some q =>
      obtain ⟨a, v⟩ := q
      rw [List.filterMap_cons_some hp] at h ⊢
      obtain ⟨ha, hv⟩ := hpair x (by simp) a v hp
      dsimp only
      have hstep : Ensures E (do
          addPhiInput a v
          pure (ForInStep.yield PUnit.unit)) sc w fun r w' => r = ForInStep.yield PUnit.unit ∧ w' =
          { w with graph := w.graph.modifyNode a fun y => { y with inputs := y.inputs ++ [v] } } :=
        (ensures_addPhiInput ((h.kind? a).trans ha) (Q := fun _ w' => w' = _) rfl).bind
          fun _ _ h1 => ensures_pure ⟨rfl, h1⟩
      refine hstep.bind fun r w1 h1 => ?_
      obtain ⟨rfl, rfl⟩ := h1
      refine (ih hrest (h.fill ha hv)).mono fun _ w2 h2 => ?_
      simpa using h2

/-- The inputs that a back edge with frame `incoming` brings. -/
def Frame.pairs (f incoming : Frame) : List (NodeId × NodeId) :=
  (f.pairLocals incoming).filterMap (fun
    | (some phi, some v) => some (phi.node, v.node)
    | _ => none) ++
  (f.stack.reverse.zip incoming.stack.reverse).map (fun (phi, v) => (phi.node, v.node)) ++
  (f.monitors.reverse.zip incoming.monitors.reverse).map fun (phi, v) => (phi.node, v.node)

/-- The locals of the header are all defined at the end of the back edge. -/
def Frame.Covers (incoming f : Frame) : Prop :=
  ∀ p ∈ f.pairLocals incoming, ∀ phi, p.1 = some phi → ∃ v, p.2 = some v ∧ v.kind = phi.kind

theorem mem_values_of_lostPhis {n : NodeId} (h : n ∈ lostPhis f incoming) :
    ∃ v ∈ f.values, v.node = n := by
  obtain ⟨⟨o, o'⟩, hx, hn⟩ := List.mem_filterMap.1 h
  cases o with
  | none => cases hn
  | some phi =>
    refine ⟨phi, (mem_values_of_pairLocals hx).1 rfl, ?_⟩
    cases o' with
    | none => exact Option.some.inj hn
    | some v =>
      dsimp only at hn
      split at hn
      · cases hn
      · exact Option.some.inj hn

theorem defined_of_not_lost {phi : Value} {o : Option Value}
    (hp : (some phi, o) ∈ f.pairLocals incoming) (hl : phi.node ∉ lostPhis f incoming) :
    ∃ v, o = some v ∧ v.kind = phi.kind := by
  cases o with
  | none => exact absurd (show phi.node ∈ lostPhis f incoming from List.mem_filterMap.2 ⟨_, hp, rfl⟩) hl
  | some v =>
    refine ⟨v, rfl, ?_⟩
    by_contra hk
    exact hl (List.mem_filterMap.2 ⟨_, hp, by simp [hk]⟩)

theorem covers_of_not_lost (h : lostPhis f incoming = []) : incoming.Covers f := by
  rintro ⟨o, o'⟩ hp phi rfl
  exact defined_of_not_lost hp (by simp [h])

theorem covers_of_withoutLocals? (h : f.withoutLocals? dead = some f')
    (hl : ∀ n ∈ lostPhis f incoming, n ∈ dead) : incoming.Covers f' := by
  have hpairs : f'.pairLocals incoming =
      (f.pairLocals incoming).map (Prod.map (Option.filter (·.node ∉ dead)) id) := by
    rw [(Frame.withoutLocals?_spec h).1]
    simp only [Frame.pairLocals, List.length_map]
    rw [List.zip_map_left]
  rintro ⟨o, o'⟩ hp phi rfl
  rw [hpairs] at hp
  obtain ⟨⟨x, y⟩, hxy, heq⟩ := List.mem_map.1 hp
  simp only [Prod.map_apply, id, Prod.mk.injEq, Option.filter_eq_some_iff] at heq
  obtain ⟨⟨rfl, hd⟩, rfl⟩ := heq
  exact defined_of_not_lost hxy fun hn => by simp [hl _ hn] at hd

/-- What is left when the back edge has shed the locals that it does not define. -/
structure Shears (S : Scene) (w w' : Work) (b : BlockId) (e : Entry) (f0 incoming f : Frame)
    (dead : List NodeId) : Prop where
  how : (w' = w ∧ f = f0 ∧ dead = []) ∨
    (Drops w w' (lostPhis f0 incoming) dead ∧ f0.withoutLocals? dead = some f)
  spared : ∀ v ∈ incoming.values, v.node ∉ dead
  closed : ∀ i ∈ dead, ∀ n x, w.graph.node? n = some x → i ∈ x.inputs → n ∈ dead
  usable : ∀ n, n ∉ dead → w.graph.Usable (S.Open w.table) n →
    w'.graph.Usable (S.Open w'.table) n
  entry : w'.table.slot? b = some { e with frame := some f }
  covers : incoming.Covers f

theorem shear_spec [S.Fit] (hE : Expects E) (h : Inv S cur d w)
    (he : w.table.slot? b = some e) (hp : e.parsed = true) (hf : e.frame = some f0)
    (hhead : (S.blocks.block b).isLoopHeader = true) :
    Ensures E (shedLocals b f0 incoming p) S w fun f w' =>
      Inv S cur d w' ∧ Evolves S [] w w' ∧ ∃ dead, Shears S w w' b e f0 incoming f dead := by
  have hst := h.placed.stands he
  have hh := hst.holds hf (.inr hhead)
  have hroots : ∀ n ∈ lostPhis f0 incoming, w.graph.kind? n = some (.phi e.node) := by
    intro n hn
    obtain ⟨v, hv, rfl⟩ := mem_values_of_lostPhis hn
    exact (hh.each v hv).resolve_right fun hc => by rw [hp] at hc; cases hc.1
  unfold shedLocals
  split
  · next hl =>
    refine ensures_pure ⟨h, .refl _ _ _, [], .inl ⟨rfl, rfl, rfl⟩, by simp, by simp,
      fun _ _ hu => hu, ?_, covers_of_not_lost (List.isEmpty_iff.1 hl)⟩
    rw [he, ← hf]
  · refine (dropPhis_spec hE h.sound.coherent fun n hn => ?_).mono fun f w' h' => ?_
    · exact kindIs_of_kind? (hroots n hn)
    · obtain ⟨dead, hd, hspared, hwo⟩ := h'
      obtain ⟨h1, h2, h3⟩ := h.drops hd hst.young hroots
      obtain ⟨e', he', hw⟩ := hd.table.entry_of he
      refine ⟨h1, h2, dead, .inr ⟨hd, hwo⟩, hspared, hd.closed, h3, ?_,
        covers_of_withoutLocals? hwo fun n hn => (hd.carried n).2 (.root hn)⟩
      rw [he']
      have hfr := hw.frame
      rw [hf] at hfr
      cases hf' : e'.frame with
      | none =>
        rw [hf'] at hfr
        cases hfr
      | some f' =>
        rw [hf'] at hfr
        cases hfr with
        | some hfr =>
          rw [hwo] at hfr
          cases hfr
          obtain ⟨n', fr', p'⟩ := e'
          obtain ⟨n, fr, p⟩ := e
          obtain ⟨rfl, rfl, -⟩ := hw
          cases hf'
          rfl

theorem Shears.pinned {w' : Work} (h : Shears S w w' b e f0 incoming f dead) :
    f.stack = f0.stack ∧ f.monitors = f0.monitors := by
  rcases h.how with ⟨-, rfl, -⟩ | ⟨-, hw⟩
  · exact ⟨rfl, rfl⟩
  · rw [(Frame.withoutLocals?_spec hw).1]
    exact ⟨rfl, rfl⟩

theorem Frame.map_fst_pairs (hc : incoming.Covers f)
    (hs : f.stack.length = incoming.stack.length) (hm : f.monitors.length = incoming.monitors.length) :
    (f.pairs incoming).map Prod.fst = f.values.map (·.node) := by
  have hzip : ∀ {l l' : List Value}, l.length = l'.length →
      ((l.zip l').map fun (a, b) => (a.node, b.node)).map Prod.fst = l.map (·.node) := by
    intro l l' hlen
    conv_rhs => rw [← List.map_fst_zip (Nat.le_of_eq hlen)]
    simp only [List.map_map]
    rfl
  have hlocals : ∀ l : List (Option Value × Option Value),
      (∀ p ∈ l, ∀ phi, p.1 = some phi → ∃ v, p.2 = some v ∧ v.kind = phi.kind) →
      (l.filterMap (fun
        | (some phi, some v) => some (phi.node, v.node)
        | _ => none)).map Prod.fst = ((l.map Prod.fst).filterMap id).map (·.node) := by
    intro l
    induction l with
    | nil => exact fun _ => rfl
    | cons p l ih =>
      intro hl
      have ih := ih fun q hq => hl q (by simp [hq])
      obtain ⟨_ | phi, o⟩ := p
      · simpa using ih
      · obtain ⟨v, rfl, -⟩ := hl (some phi, o) (by simp) phi rfl
        simpa using ih
  simp only [pairs, values, pinned, List.map_append]
  rw [hlocals _ hc, map_fst_pairLocals, hzip (by simpa using hs), hzip (by simpa using hm),
    List.append_assoc]

theorem fillPhis_spec [S.Fit] (hE : Expects E)
    (h : Inv S cur (owe bare loose) w) (he : w.table.slot? b = some e) (hp : e.parsed = true)
    (hf : e.frame = some f0) (hhead : (S.blocks.block b).isLoopHeader = true)
    (hinc : w.graph.Backs (S.Open w.table) incoming) :
    Ensures E (fillPhis b f0 incoming p) S w fun f w' => ∃ w1 dead,
      Inv S cur (owe bare loose) w1 ∧ Evolves S [] w w1 ∧
        Shears S w w1 b e f0 incoming f dead ∧ w'.table = w1.table ∧
        Filling (S.Open w1.table) { bare, loose, due := some e.node } w1.graph w'.graph e.node
          (f.pairs incoming) [] ∧
        f.stack.length = incoming.stack.length ∧ f.monitors.length = incoming.monitors.length := by
  unfold fillPhis
  refine .chain (ensures_liftExcept (fun _ hx => ?_) fun e he => hE e (Frame.checkCompatible_error he))
  obtain ⟨hdepth, hmon, -⟩ := Frame.checkCompatible_ok hx
  refine (shear_spec hE h he hp hf hhead).bind fun f w1 h1 => ?_
  obtain ⟨hinv, hev, dead, hsh⟩ := h1
  -- Once the locals are shed, every phi of the header is met once.
  have hst := hinv.placed.stands hsh.entry
  have hh : Holds w1.graph (S.Open w1.table) e.node e.parsed f := hst.holds rfl (.inr hhead)
  have hphi : ∀ v ∈ f.values, w1.graph.kind? v.node = some (.phi e.node) := by
    intro v hv
    exact (hh.each v hv).resolve_right fun hc => by rw [hp] at hc; cases hc.1
  have hback : w1.graph.Backs (S.Open w1.table) incoming :=
    fun v hv => hsh.usable _ (hsh.spared v hv) (hinc v hv)
  have hfst := Frame.map_fst_pairs hsh.covers (hsh.pinned.1 ▸ hdepth) (hsh.pinned.2 ▸ hmon)
  have hinit : Filling (S.Open w1.table) { bare, loose, due := some e.node } w1.graph w1.graph
      e.node [] (f.values.map (·.node)) := by
    refine ⟨.init (hinv.late hh.all) ?_ hh.once hh.all, fun _ => rfl, by simp⟩
    intro n hn
    obtain ⟨v, hv, rfl⟩ := List.mem_map.1 hn
    exact lt_of_kind? (hphi v hv)
  have hzip : ∀ {l l' : List Value}, (∀ v ∈ l, v ∈ f.values) → (∀ v ∈ l', v ∈ incoming.values) →
      ∀ x ∈ l.zip l', ∀ a v, some (x.1.node, x.2.node) = some (a, v) →
        w1.graph.kind? a = some (.phi e.node) ∧ w1.graph.Usable (S.Open w1.table) v := by
    intro l l' hl hl' x hx a v heq
    obtain ⟨h1, h2⟩ := List.of_mem_zip (show (x.1, x.2) ∈ l.zip l' from hx)
    cases heq
    exact ⟨hphi _ (hl _ h1), hback _ (hl' _ h2)⟩
  rw [← hfst] at hinit
  have hmap : ∀ l : List (Value × Value), (l.map fun (phi, v) => (phi.node, v.node)) =
      l.filterMap fun x => some (x.1.node, x.2.node) := fun l => by rw [List.filterMap_eq_map']
  simp only [Frame.pairs, hmap, List.map_append, List.append_assoc] at hinit ⊢
  unfold feedPhis
  simp only [bind_assoc]
  refine (ensures_fill _ ?_ ?_ hinit).bind fun _ w2 h2 => ?_
  · rintro ⟨_ | phi, _ | v⟩ <;> rfl
  · rintro ⟨_ | phi, _ | v⟩ hx a v' heq
    · cases heq
    · cases heq
    · cases heq
    · cases heq
      exact ⟨hphi _ ((mem_values_of_pairLocals hx).1 rfl), hback _ ((mem_values_of_pairLocals hx).2 rfl)⟩
  · obtain ⟨ht2, hf2⟩ := h2
    refine (ensures_fill (fun x => some (x.1.node, x.2.node)) (fun _ => rfl) (hzip ?_ ?_) hf2).bind
      fun _ w3 h3 => ?_
    · exact fun v hv => Frame.mem_values_stack hv
    · exact fun v hv => Frame.mem_values_stack hv
    · obtain ⟨ht3, hf3⟩ := h3
      rw [← List.append_nil (List.map Prod.fst _)] at hf3
      refine (ensures_fill (fun x => some (x.1.node, x.2.node)) (fun _ => rfl) (hzip ?_ ?_) hf3).bind
        fun _ w4 h4 => ensures_pure ?_
      · exact fun v hv => Frame.mem_values_monitors hv
      · exact fun v hv => Frame.mem_values_monitors hv
      · obtain ⟨ht4, hf4⟩ := h4
        refine ⟨w1, dead, hinv, hev, hsh, ht4.trans (ht3.trans ht2), ?_, hsh.pinned.1 ▸ hdepth,
          hsh.pinned.2 ▸ hmon⟩
        simpa using hf4

end Fill

/-! ## The edge -/

section Loop

variable {E : Error → Prop} {S : Scene} {cur : Nat} {w w' : Work}
  {bare loose ss : List NodeId} {b : BlockId} {e : Entry}

/-- The phis have their inputs, and the edge comes in. -/
theorem Inv.filled {pairs : List (NodeId × NodeId)} {x : EdgeId}
    (h : Inv S cur (owe bare loose) w) (he : w.table.slot? b = some e)
    (hf : e.frame.isSome = true) (hhead : (S.blocks.block b).isLoopHeader = true)
    (hfill : Filling (S.Open w.table) { bare, loose, due := some e.node } w.graph g e.node pairs [])
    (hl : Links (g.addNode (.loopEnd e.node) []).2 w'.graph ⟨g.nodeCount⟩ e.node
      ⟨⟨g.nodeCount⟩, e.node, .next, 1.0⟩ x) (ht : w'.table = w.table) :
    Inv S cur (owe bare (⟨g.nodeCount⟩ :: loose)) w' ∧ Extends S [] w w' := by
  have hst := h.placed.stands he
  obtain ⟨i, hk⟩ := hst.header hhead
  have hpos := hst.entered hf hhead
  have hm := hfill.merging
  have hkg : g.kind? e.node = some (.loopHeader i) := (hfill.kind? _).trans hk
  have hposg : 0 < g.inDegree e.node := by rw [hm.inDegree]; exact hpos
  have hka := kind?_addNode_of (k := .loopEnd e.node) (I := []) hkg
  have hs : (g.addNode (.loopEnd e.node) []).2.Sound (S.Open w.table)
      { bare, loose := ⟨g.nodeCount⟩ :: loose, due := some e.node } := by
    refine hm.sound.addNode ⟨by simp, by rintro m ⟨⟩, by rintro m ⟨⟩, ?_⟩ (by simp)
    rintro m (hc | hc) <;> cases hc
    exact ⟨⟨i, hkg⟩, hposg⟩
  have hkind : ∀ {n k}, w.graph.kind? n = some k → w'.graph.kind? n = some k := by
    intro n k hn
    rw [kind?_congr (hl.node? n)]
    exact kind?_addNode_of ((hfill.kind? n).trans hn)
  have hphi : ∀ n m, w'.graph.kind? n = some (.phi m) ↔ w.graph.kind? n = some (.phi m) := by
    intro n m
    refine ⟨fun hn => ?_, hkind⟩
    rw [kind?_congr (hl.node? n), kind?_addNode] at hn
    split at hn
    · cases hn
    · rwa [← hfill.kind?]
  have hin : ∀ n, w'.graph.incoming n = if n = e.node then w.graph.incoming n ++ [x]
      else w.graph.incoming n := by
    intro n
    rw [hl.incoming]
    simp only [incoming_addNode, hm.incoming]
  have hmono : ∀ n, w.graph.inDegree n ≤ w'.graph.inDegree n := by
    intro n
    simp only [inDegree, hin]
    split <;> simp
  have hu : ∀ n, w.graph.Usable (S.Open w.table) n → w'.graph.Usable (S.Open w.table) n :=
    fun n hn => hn.of_kind? fun _ => hkind
  have hfresh : w.graph.nodeCount ≤ g.nodeCount := hm.count
  refine ⟨⟨?_, ?_, ?_⟩, .of_table ht ?_ hu⟩
  · rw [ht]
    refine hs.link hl ⟨rfl, rfl⟩ ?_ (.inr (.inr (by simp))) ?_ (fun _ hy => .inr hy)
      (.inr ⟨rfl, rfl, .inr (.inr ?_)⟩)
    · exact kindIs_iff.2 ⟨_, by rw [kind?_addNode, if_pos rfl], rfl⟩
    · exact kindIs_iff.2 ⟨_, hka, rfl⟩
    · simpa [inDegree] using hposg
  · rw [ht]
    refine h.placed.mono (fun hn _ => hkind hn) ?_ (fun n hn => Nat.lt_of_lt_of_le hn (hmono n)) ?_ ?_
      hphi hu
    · intro c e' he' hf'
      have hne : e'.node ≠ e.node := by
        intro hn
        obtain rfl := h.placed.distinct he' he hn
        rw [he] at he'
        cases he'
        rw [hf'] at hf
        cases hf
      simp only [inDegree, hin, if_neg hne]
    · intro n hn
      rw [hl.start]
      refine .inr (Or.imp (fun hn => ?_) (fun hn => List.mem_cons_of_mem _ hn) hn)
      rw [← hn, ← hm.start]
      rfl
    · intro n hO
      rw [hl.outgoing, if_neg]
      · simp only [outgoing_addNode, hm.outgoing]
      · rintro rfl
        obtain ⟨c, e', he', -, hn⟩ := hO
        have := (h.placed.stands he').lt
        rw [hn] at this
        exact absurd this (Nat.not_lt_of_le hfresh)
  · have hb1 : Based S g := by
      exact hm.based h.based hst.young fun y hy => h.sound.phi_lt hy
    exact (hb1.addNode (by rintro m ⟨⟩)).links hl hst.young
  · refine Grows.mono (show Grows [⟨g.nodeCount⟩] _ _ _ _ from ?_) ?_
    · refine ((hm.grows.mono (by simp)).trans (.addNode _ _ _ _ _)).trans (.links hl (by simp) ?_)
      exact .inr (.inr ⟨i, hka⟩)
    · intro n hn
      rw [List.mem_singleton.1 hn]
      exact .inr (.inr hfresh)

/-- Only the nodes `dead` are gone, and with them all that uses them. -/
structure Spares (S : Scene) (w w' : Work) (dead : List NodeId) : Prop where
  closed : ∀ i ∈ dead, ∀ n x, w.graph.node? n = some x → i ∈ x.inputs → n ∈ dead
  usable : ∀ n, n ∉ dead → w.graph.Usable (S.Open w.table) n →
    w'.graph.Usable (S.Open w'.table) n

theorem Extends.spares (h : Extends S ss w w') : Spares S w w' [] :=
  ⟨by simp, fun n _ hn => h.usable n hn⟩

theorem Spares.backs {f : Frame} (h : Spares S w w' dead) (hf : ∀ v ∈ f.values, v.node ∉ dead)
    (hb : w.graph.Backs (S.Open w.table) f) : w'.graph.Backs (S.Open w'.table) f :=
  fun v hv => h.usable _ (hf v hv) (hb v hv)

/-- A back edge from `stop` into block `b` that brings `incoming`. -/
structure BackEdge (S : Scene) (b : BlockId) (incoming : Frame) (w : Work) (stop : NodeId) (w' : Work)
    (e : Entry) (f0 f : Frame) (dead : List NodeId) : Prop where
  entry : w.table.slot? b = some e
  frame : e.frame = some f0
  steps : ∃ w1 g x O d, Shears S w w1 b e f0 incoming f dead ∧
    Filling O d w1.graph g e.node (f.pairs incoming) [] ∧ stop = ⟨g.nodeCount⟩ ∧
    Links (g.addNode (.loopEnd e.node) []).2 w'.graph stop e.node ⟨stop, e.node, .next, 1.0⟩ x ∧
    w'.table = w1.table
  depth : f.stack.length = incoming.stack.length ∧ f.monitors.length = incoming.monitors.length

theorem addLoopEnd_spec {f0 incoming : Frame} [S.Fit] (hE : Expects E)
    (h : Inv S cur (owe bare loose) w) (he : w.table.slot? b = some e) (hp : e.parsed = true)
    (hf : e.frame = some f0) (hhead : (S.blocks.block b).isLoopHeader = true)
    (hinc : w.graph.Backs (S.Open w.table) incoming) :
    Ensures E (addLoopEnd b incoming p) S w fun stop w' =>
      Inv S cur (owe bare (stop :: loose)) w' ∧ Evolves S [] w w' ∧ Stub S w'.graph stop ∧
        w.graph.nodeCount ≤ stop.index ∧ ∃ f dead, Spares S w w' dead ∧
          (∀ v ∈ incoming.values, v.node ∉ dead) ∧ BackEdge S b incoming w stop w' e f0 f dead := by
  unfold addLoopEnd
  refine .chain (ensures_entry he ?_)
  dsimp only
  rw [if_neg (by simp [hp])]
  refine .chain (ensures_demand hf ?_)
  refine (fillPhis_spec hE h he hp hf hhead hinc).bind fun f w2 h2 => ?_
  obtain ⟨wd, dead, hinv, hev, hsh, ht2, hfill, hdepth⟩ := h2
  have hput : w2.table.put b { e with frame := some f } = wd.table := by
    rw [ht2]
    exact Table.put_self hsh.entry
  refine (ensures_setEntry (Q := fun _ w' => w'.graph = w2.graph ∧ w'.table = wd.table)
    ⟨rfl, hput⟩).bind fun _ w3 h3 => ?_
  obtain ⟨hg3, ht3⟩ := h3
  refine (ensures_addNode (Q := fun n w' => n = ⟨w3.graph.nodeCount⟩ ∧
    w' = { w3 with graph := (w3.graph.addNode (.loopEnd e.node) []).2 }) ⟨rfl, rfl⟩).bind
    fun stop w4 h4 => ?_
  obtain ⟨hstop, rfl⟩ := h4
  obtain ⟨k, hk, -⟩ := (hinv.placed.stands hsh.entry).kind
  have hka : (w3.graph.addNode (.loopEnd e.node) []).2.kind? e.node = some k := by
    refine kind?_addNode_of ?_
    rw [hg3, hfill.kind?]
    exact hk
  have hks : (w3.graph.addNode (.loopEnd e.node) []).2.kind? stop = some (.loopEnd e.node) := by
    rw [kind?_addNode, if_pos hstop]
  refine (ensures_addEdge (w := { w3 with graph := (w3.graph.addNode (.loopEnd e.node) []).2 })
    (Q := fun _ w' => ∃ x, Links (w3.graph.addNode (.loopEnd e.node) []).2 w'.graph stop e.node
      ⟨stop, e.node, .next, 1.0⟩ x ∧ w'.table = wd.table) (contains_of_kind? hks)
    (contains_of_kind? hka) fun g' x hl => ⟨x, hl, ht3⟩).bind fun _ w5 h5 => ensures_pure ?_
  obtain ⟨x, hl, ht5⟩ := h5
  rw [hg3] at hl hstop
  subst hstop
  obtain ⟨h6, h7⟩ := hinv.filled hsh.entry rfl hhead hfill hl ht5
  have hfresh : w.graph.nodeCount ≤ w2.graph.nodeCount :=
    Nat.le_trans hev.grows.count hfill.merging.count
  refine ⟨h6, hev.trans h7.toEvolves, ?_, hfresh, f, dead, ?_, hsh.spared, he, hf,
    ⟨wd, w2.graph, x, _, _, hsh, hfill, rfl, hl, ht5⟩, hdepth⟩
  · refine .of_kind (Nat.le_trans h.based.count hfresh) (k := .loopEnd e.node) ?_ rfl rfl
    rw [kind?_congr (hl.node? _), kind?_addNode, if_pos rfl]
  · exact ⟨hsh.closed, fun n hn hu => h7.usable n (hsh.usable n hn hu)⟩

end Loop

end StackLift
