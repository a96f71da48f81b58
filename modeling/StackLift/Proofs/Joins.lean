import StackLift.Proofs.BackEdge
import StackLift.Proofs.Course

/-!
# Joins on course

What arrives at a join, turns a begin into a merge or closes a loop keeps a build on its course. The
label of an open join shrinks with every edge: it names what has been passed on all of them.
-/
namespace StackLift

variable {d : Debt} {dat : Edge} {c x : EdgeId} {g g0 g' : Graph} {dead done rest : List NodeId}
  {m n : NodeId}
  {O Q P : NodeSet} {v : Value}

open BuildM
open Graph hiding addEdge addNode addPhiInput kindIs setSnapshot

/-! ## Control is not concerned -/

theorem Merging.sameControl {owing : Bool}
    (h : Merging O d owing g0 g m done rest) : SameControl g0 g := by
  refine ⟨h.toSameWires, ?_⟩
  intro n k hk
  constructor
  · intro hn
    by_cases hlt : n.index < g0.nodeCount
    · exact (h.old hlt hn).1
    · have := h.young (Nat.le_of_not_lt hlt) hn
      subst this
      cases hk
  · intro hn
    rw [kind?_congr (h.kept (lt_of_kind? hn) ?_), hn]
    rw [hn]
    rintro ⟨⟩
    cases hk

theorem Graph.Sheds.sameControl (h : Sheds g g' dead)
    (hcarry : ∀ n ∈ dead, ∀ k, g.kind? n = some k → k.isCarrier = true) : SameControl g g' := by
  refine ⟨h.toSameWires, ?_⟩
  intro n k hk
  by_cases hn : n ∈ dead
  · constructor
    · intro hd
      rw [Graph.kind?, h.gone hn] at hd
      cases hd
    · intro hd
      have := hcarry n hn k hd
      cases k <;> first | (cases hk; done) | cases this
  · rw [h.kind? hn]

theorem Graph.Avail.phi {x : NodeId} (hk : g.kind? x = some (.phi m)) (hm : P m) : g.Avail P x := by
  refine ⟨kindIs_iff.2 ⟨_, hk, rfl⟩, fun hl => ?_⟩
  cases hl with
  | fixed h hc =>
    rw [hk] at h
    cases h
    cases hc
  | phi h =>
    rw [hk] at h
    cases h
    exact hm
  | proxy h =>
    rw [hk] at h
    cases h
  | floating h hf =>
    rw [hk] at h
    cases h
    cases hf

theorem Meets.exists_joined {ends : Nat} {current incoming f : Frame}
    (h : Meets g0 g m ends current incoming f) (hv : v ∈ f.values) :
    ∃ old ∈ current.values, ∃ new ∈ incoming.values, Joined g0 g m ends old new v := by
  have hzip : ∀ {xs ys vs : List Value},
      List.Forall₂ (fun p v => Joined g0 g m ends p.1 p.2 v) (xs.reverse.zip ys.reverse) vs.reverse →
      v ∈ vs → ∃ old ∈ xs, ∃ new ∈ ys, Joined g0 g m ends old new v := by
    intro xs ys vs hrel hmem
    obtain ⟨p, hp, hj⟩ := Frame.forall₂_mem_left hrel.flip (List.mem_reverse.2 hmem)
    obtain ⟨h1, h2⟩ := List.of_mem_zip hp
    exact ⟨p.1, List.mem_reverse.1 h1, p.2, List.mem_reverse.1 h2, hj⟩
  rcases Frame.mem_values.1 hv with hv | hv | hv
  · obtain ⟨p, hp, hj⟩ := Frame.forall₂_mem_left h.locals.flip hv
    obtain ⟨old, new, rfl, -, hjoined⟩ := hj.held v rfl
    obtain ⟨h1, h2⟩ := mem_values_of_pairLocals (v := old) hp
    obtain ⟨-, h3⟩ := mem_values_of_pairLocals (v := new) hp
    exact ⟨old, h1 rfl, new, h3 rfl, hjoined⟩
  · obtain ⟨old, ho, new, hn, hj⟩ := hzip h.stack hv
    exact ⟨old, Frame.mem_values.2 (.inr (.inl ho)), new,
      Frame.mem_values.2 (.inr (.inl hn)), hj⟩
  · obtain ⟨old, ho, new, hn, hj⟩ := hzip h.monitors hv
    exact ⟨old, Frame.mem_values.2 (.inr (.inr ho)), new,
      Frame.mem_values.2 (.inr (.inr hn)), hj⟩

section Arrive

variable {E : Error → Prop} {S : Scene} {P : NodeSet} {cur : Nat}
  {bare loose L part ss : List NodeId} {A A' : Labels} {w w' w1 : Work}
  {b : BlockId} {e : Entry} {f0 incoming f : Frame} {stop : NodeId}

theorem Inv.contains (h : Inv S cur d w) (he : w.table.slot? b = some e) (hp : e.parsed = false)
    (hf : e.frame = some f) (hv : v ∈ f.values) : w.graph.contains v.node = true := by
  rcases ((h.placed.stands he).holds hf (.inl hp)).each v hv with hk | ⟨-, hu⟩
  · exact contains_of_kind? hk
  · exact hu.contains

section

variable (h : Good S cur bare loose part A w)
include h

theorem Waits.evolve (hinv : Inv S cur d w') (hg : Evolves S ss w w')
    (hsnap : ∀ {n}, n.index < w.graph.nodeCount → w.graph.snapshot? n = none →
      w'.graph.snapshot? n = none)
    (hkeep : ∀ {c e'}, w'.table.slot? c = some e' → (∃ e0, w.table.slot? c = some e0 ∧
        e0.node = e'.node ∧ e0.parsed = e'.parsed ∧ A' e'.node = A e'.node ∧
        (e'.frame.isSome = true → e0.frame.isSome = true) ∧
        ∀ f', e'.frame = some f' → ∃ f0, e0.frame = some f0 ∧ ∀ v ∈ f'.values, v ∈ f0.values) ∨
      Hosts S A' w'.graph c e') : Waits S A' w'.graph w'.table := by
  refine ⟨fun {c e'} he => ?_, ?_⟩
  · rcases hkeep he with ⟨e0, he0, hn, hpe, hA, hs, hsub⟩ | hnew
    · obtain ⟨havail, hbase, hheader, hplain, hfirst⟩ := h.waits.entry he0
      rw [hn, hpe] at havail hbase hheader hplain
      rw [← hA] at havail hbase hheader
      refine ⟨fun hp f' hf v hv => ?_, fun hp hf => hbase hp (hs hf), hheader, fun hp hm => ?_,
        fun hst => hfirst (hn ▸ hg.grows.start ▸ hst)⟩
      · obtain ⟨f0, hf0, hsub⟩ := hsub f' hf
        exact (havail hp hf0 v (hsub v hv)).of_grows h.inv.sound hg.grows (hinv.contains he hp hf hv)
      · obtain ⟨k, hk, hkm⟩ := kindIs_iff.1 hm
        obtain ⟨k0, hk0, -⟩ := (h.inv.placed.stands he0).kind
        have hlt := lt_of_kind? (hn ▸ hk0)
        exact hsnap hlt (hplain hp (kindIs_iff.2 ⟨k, hg.grows.old hlt hk, hkm⟩))
    · exact hnew
  · intro n ho hlt hm
    have hlt' := Nat.lt_of_lt_of_le hlt h.inv.based.count
    obtain ⟨k, hk, hkm⟩ := kindIs_iff.1 hm
    exact hsnap hlt' (h.waits.outer ho hlt (kindIs_iff.2 ⟨k, hg.grows.old hlt' hk, hkm⟩))

theorem Good.label_source (hn : S.Open w.table n) (hd : w.graph.edge? c = some dat) :
    label A n Q dat.source = A dat.source := by
  refine label_of_ne fun heq => ?_
  have := h.inv.sound.coherent.outgoing.2 ⟨dat, hd, heq⟩
  rw [h.shaped.silent hn] at this
  cases this

theorem Good.start_ne (hn : w.graph.kindIs n NodeKind.isMerge = true) : w.graph.start ≠ some n := by
  intro hs
  obtain ⟨y, hy, hky, -⟩ := h.inv.sound.start hs
  rw [kindIs_of_kind? (kind?_of_node? hy), hky] at hn
  cases hn

theorem Good.avail_source {v : NodeId} (hn : S.Open w.table dat.target)
    (hm : w.graph.kindIs dat.target NodeKind.isMerge = true) (hd : w.graph.edge? c = some dat)
    (hu : w.graph.Usable (S.Open w.table) v) (hv : w.graph.Avail (A dat.target) v) :
    w.graph.Avail (A dat.source) v := by
  refine ⟨hv.value, fun hneeds => (h.cert.edge hd (hv.needs hneeds)).resolve_left ?_⟩
  exact hneeds.ne_open h.inv.sound h.cert hu hv.value hn (.inl hm)

theorem Good.rooted_entry (he : w.table.slot? b = some e) (hf : e.frame.isSome = true) :
    w.graph.Rooted loose e.node := by
  have hst := h.inv.placed.stands he
  obtain ⟨k, hk, hc⟩ := kindIs_iff.1 hst.isControl
  rcases hst.anchored hf with hd | hd | hd
  · refine (h.shaped.rooted hk hc).resolve_left ?_
    rintro ⟨-, hnil, -⟩
    rw [inDegree, hnil] at hd
    exact Nat.lt_irrefl _ hd
  · exact .inl ⟨_, hd, .refl⟩
  · exact .inr ⟨_, hd, .refl⟩

theorem Good.relabel_join (he : w.table.slot? b = some e) (hp : e.parsed = false)
    (hm : w.graph.kindIs e.node NodeKind.isMerge = true)
    (hQ : ∀ c l, c ∈ w.graph.incoming e.node → Q l → A e.node l) : w.graph.Cert (label A e.node Q) := by
  refine h.cert.relabel h.inv.sound (fun m hm => label_of_ne hm) (fun {c dat l} hd ht hl => ?_)
    (fun hs => absurd hs (h.start_ne hm)) (h.shaped.silent (.inl ⟨b, e, he, hp, rfl⟩)) (.inr hm)
    (.inl ((h.waits.entry he).plain hp hm))
  rcases (label_self _ _ _ l).1 hl with rfl | hl
  · exact .inl rfl
  · have hin := h.inv.sound.coherent.incoming.2 ⟨dat, hd, ht⟩
    rw [← ht] at hin hQ ⊢
    exact h.cert.edge hd (hQ c l hin hl)

theorem Waits.join (he : w.table.slot? b = some e) (hp : e.parsed = false) (hinv : Inv S cur d w')
    (hg : Evolves S ss w w') (ht : w'.table = w.table.put b { e with frame := some f })
    (hsnap : ∀ {n}, n.index < w.graph.nodeCount → w.graph.snapshot? n = none →
      w'.graph.snapshot? n = none)
    (hav : ∀ v ∈ f.values, w'.graph.Avail (fun l => l = e.node ∨ Q l) v.node)
    (hbase : ∀ l, S.base l → Q l) : Waits S (label A e.node Q) w'.graph w'.table := by
  have hself : label A e.node Q e.node = fun l => l = e.node ∨ Q l := by
    funext l
    exact propext (label_self A e.node Q l)
  refine .evolve h hinv hg hsnap fun {c e'} he' => ?_
  rw [ht, Table.slot?_put (Table.lt_of_slot? he)] at he'
  split at he'
  · next hcb =>
    cases he'
    refine Or.inr ⟨?_, ?_, (fun hc => by cases hp.symm.trans hc), ?_, fun hs => ?_⟩
    · rintro - f' ⟨⟩ v hv
      rw [hself]
      exact hav v hv
    · intro _ _ l hl
      rw [hself]
      exact hl.symm.imp_right (hbase l)
    · intro _ hm
      obtain ⟨k', hk', hkm⟩ := kindIs_iff.1 hm
      have hlt := (h.inv.placed.stands he).lt
      exact hsnap hlt ((h.waits.entry he).plain hp (kindIs_iff.2 ⟨k', hg.grows.old hlt hk', hkm⟩))
    · exact hcb ▸ (h.waits.entry he).first (hg.grows.start ▸ hs)
  · next hcb =>
    refine .inl ⟨e', he', rfl, rfl, label_of_ne fun heq => ?_, id,
      fun f' hf' => ⟨f', hf', fun v hv => hv⟩⟩
    exact hcb (h.inv.placed.distinct he' he heq)

end

theorem Graph.Sound.length_inputs (h : g.Sound O (owe bare loose)) (hk : g.kind? n = some (.phi m)) :
    (g.inputs n).length = g.inDegree m := by
  obtain ⟨z, hz, hkz⟩ := kind?_eq_some.1 hk
  rw [inputs_of_node? hz]
  simpa [owe, Debt.missing, Debt.expected] using ((h.node hz).phi hkz).2.2.2

/-- The inputs of the phis of a join after the frame `incoming` has arrived. -/
theorem Arrival.inputs {y : Node} {g1 : Graph} (h : Inv S cur (owe bare loose) w)
    (he : w.table.slot? b = some e) (hp : e.parsed = false) (hf : e.frame = some f0)
    (hl : Links w.graph g1 stop e.node dat x)
    (hm : Merging O d true g1 w'.graph e.node (f.values.map (·.node)) [])
    (hmeet : Meets g1 w'.graph e.node (w.graph.inDegree e.node) f0 incoming f)
    (hy : w'.graph.node? n = some y) (hk : y.kind = .phi e.node) :
    ∃ old ∈ f0.values, ∃ new ∈ incoming.values, ∃ l, y.inputs = l ++ [new.node] ∧
      l.length = w.graph.inDegree e.node ∧ (w.graph.nodeCount ≤ n.index →
        w.graph.kind? old.node ≠ some (.phi e.node) ∧
          l = List.replicate (w.graph.inDegree e.node) old.node) := by
  have hkn : w'.graph.kind? n = some (.phi e.node) := by rw [kind?_of_node? hy, hk]
  have hkind : ∀ m, g1.kind? m = w.graph.kind? m := fun m => kind?_congr (hl.node? m)
  rcases hm.all n hkn with hmem | hmem
  · obtain ⟨v, hv, rfl⟩ := List.mem_map.1 hmem
    obtain ⟨old, ho, new, hn, hj⟩ := hmeet.exists_joined hv
    refine ⟨old, ho, new, hn, ?_⟩
    rcases hj.node with ⟨hold, hnode, hin⟩ | ⟨hold, hnode, -⟩ | ⟨hold, -, hin, -⟩
    · refine ⟨g1.inputs old.node, ?_, ?_, fun hge => ?_⟩
      · rw [← inputs_of_node? hy, hin]
      · rw [hkind] at hold
        rw [inputs_congr (hl.node? old.node), h.sound.length_inputs hold]
      · rw [hkind] at hold
        rw [hnode] at hge
        exact absurd (lt_of_kind? hold) (Nat.not_lt_of_le hge)
    · refine absurd ?_ hold
      have hlt : old.node.index < g1.nodeCount := by
        rw [hl.nodeCount]
        exact contains_lt (h.contains he hp hf ho)
      rw [hnode] at hkn
      exact (hm.old hlt hkn).1
    · refine ⟨_, ?_, List.length_replicate, fun _ => ⟨by rwa [← hkind], rfl⟩⟩
      rw [← inputs_of_node? hy, hin]
  · cases hmem

section

variable (h : Good S cur bare loose part A w) (he : w.table.slot? b = some e) (hp : e.parsed = false)
include h he hp

section

variable {g1 : Graph} {y : Node} (hf : e.frame = some f0)
  (hmerge : w.graph.kindIs e.node NodeKind.isMerge = true) (hne : stop ≠ e.node)
  (hinc : Carries S (A stop) w incoming) (hext : Extends S [stop] w w')
  (hl : Links w.graph g1 stop e.node ⟨stop, e.node, .next, 1.0⟩ x)
  (hm : Merging O d true g1 w'.graph e.node (f.values.map (·.node)) [])
  (hmeet : Meets g1 w'.graph e.node (w.graph.inDegree e.node) f0 incoming f)

omit he hp in
include hext in
theorem Good.avail_extends {i : NodeId} (hu : w.graph.Usable (S.Open w.table) i)
    (hi : w.graph.Avail P i) : w'.graph.Avail P i :=
  hi.of_grows h.inv.sound hext.grows (hext.usable _ hu).contains

omit h he hp in
include hl hm in
theorem Arrival.gains : Gains w.graph w'.graph x ⟨stop, e.node, .next, 1.0⟩ :=
  ⟨hl.fresh, fun c => (hm.edge? c).trans (hl.edge? c), fun n => (hm.incoming n).trans (hl.incoming n)⟩

include hf hmerge hne hinc hext hl hm hmeet

/-- A new phi has what the join had on the old edges, and what has arrived on the new one. -/
theorem Good.seated_arrive (hn : w.graph.nodeCount ≤ n.index) (hy : w'.graph.node? n = some y) :
    w'.graph.Seated (label A e.node fun l => A e.node l ∧ A stop l) n y := by
  have hco := h.inv.sound.coherent
  have hOb : S.Open w.table e.node := .inl ⟨b, e, he, hp, rfl⟩
  have hst := h.inv.placed.stands he
  have hk : y.kind = .phi e.node := hm.young (by rwa [hl.nodeCount]) (kind?_of_node? hy)
  obtain ⟨old, ho, new, hnewv, l, hin, hlen, hyoung⟩ := Arrival.inputs h.inv he hp hf hl hm hmeet hy hk
  obtain ⟨hnotphi, hrep⟩ := hyoung hn
  have hu : w.graph.Usable (S.Open w.table) old.node :=
    (((hst.holds hf (.inl hp)).each old ho).resolve_left hnotphi).2
  have hoav := (h.waits.entry he).avail hp hf old ho
  have hnew := h.avail_extends hext (hinc.backs new hnewv) (hinc.avail new hnewv)
  refine ⟨?_, ?_, ?_, ?_, ?_, ?_⟩
  · intro i hi
    rw [hin, hrep] at hi
    rcases List.mem_append.1 hi with hi | hi
    · rw [List.eq_of_mem_replicate hi]
      exact (h.avail_extends hext hu hoav).value
    · rw [List.mem_singleton.1 hi]
      exact hnew.value
  · rw [hk]
    rintro (hc | hc) <;> cases hc
  · rw [hk]
    rintro ⟨⟩
  · intro m v c dat j hm' hv hc hd
    rw [hk] at hm'
    cases hm'
    rw [hin] at hv
    rcases (Arrival.gains hl hm).input hco hlen hv hc hd with ⟨hv, hc0, hd0⟩ | ⟨rfl, rfl⟩
    · rw [hrep] at hv
      cases List.eq_of_mem_replicate (List.mem_of_getElem? hv)
      obtain ⟨d1, hd1, htd⟩ := hco.incoming.1 (List.mem_of_getElem? hc0)
      rw [hd0] at hd1
      cases hd1
      rw [h.label_source hOb hd0]
      rw [← show dat.target = e.node from htd] at hOb hmerge hoav
      exact h.avail_extends hext hu (h.avail_source hOb hmerge hd0 hu hoav)
    · rw [label_of_ne hne]
      exact hnew
  · intro c hc
    rw [hk] at hc
    cases hc
  · intro s hs
    have hlt : w.graph.node? n = none := by
      cases hn' : w.graph.node? n with
      | none => rfl
      | some z => exact absurd (lt_nodeCount hn') (Nat.not_lt_of_le hn)
    have := hm.snapshot n
    simp only [snapshot?, hl.node?, hlt, hy, Option.bind_some, Option.bind_none,
      or_self] at this
    rw [hs] at this
    cases this

omit hmerge in
/-- An old phi of the join has got one input, and the others none. -/
theorem Good.phi_arrive (hn : n.index < w.graph.nodeCount) (hy : w'.graph.node? n = some y)
    (hk : y.kind = .phi m) :
    (∀ i ∈ y.inputs, i ∈ w.graph.inputs n ∨ w'.graph.kindIs i NodeKind.isValue = true) ∧
      ∀ {v c dat} {j : Nat}, y.inputs[j]? = some v → (w'.graph.incoming m)[j]? = some c →
        w'.graph.edge? c = some dat → ((w.graph.inputs n)[j]? = some v ∧
          (w.graph.incoming m)[j]? = some c ∧ w.graph.edge? c = some dat) ∨
          w'.graph.Avail (label A e.node (fun l => A e.node l ∧ A stop l) dat.source) v := by
  have hco := h.inv.sound.coherent
  have hgain := Arrival.gains hl hm
  have hky : w'.graph.kind? n = some (.phi m) := by rw [kind?_of_node? hy, hk]
  obtain ⟨hk1, hin1⟩ := hm.old (by rwa [hl.nodeCount]) hky
  by_cases hme : m = e.node
  · subst hme
    obtain ⟨-, -, new, hnewv, l, hin, hlen, -⟩ := Arrival.inputs h.inv he hp hf hl hm hmeet hy hk
    have hnew := h.avail_extends hext (hinc.backs new hnewv) (hinc.avail new hnewv)
    -- it has one input for each of the old edges, so these are the first ones
    have hinit : l = w.graph.inputs n := by
      rw [kind?_congr (hl.node? n)] at hk1
      rw [inputs_congr (hl.node? n), inputs_of_node? hy, hin] at hin1
      have heq := hlen.trans (h.inv.sound.length_inputs hk1).symm
      exact (List.prefix_of_prefix_length_le (List.prefix_append _ _) hin1
        (Nat.le_of_eq heq)).eq_of_length heq
    rw [hin, ← hinit]
    refine ⟨fun i hi => (List.mem_append.1 hi).imp_right fun hi => ?_, fun hv hc hd => ?_⟩
    · rw [List.mem_singleton.1 hi]
      exact hnew.value
    · refine (hgain.input hco hlen hv hc hd).imp_right ?_
      rintro ⟨rfl, rfl⟩
      rw [label_of_ne hne]
      exact hnew
  · have hnode : w.graph.node? n = some y := by
      rw [← hl.node?, ← hm.kept (by rwa [hl.nodeCount]), hy]
      rw [hk1]
      rintro ⟨⟩
      exact hme rfl
    rw [inputs_of_node? hnode]
    exact ⟨fun i hi => .inl hi, fun hv hc hd =>
      .inl ⟨hv, (hgain.arrives hco hc hd).resolve_right fun ha => hme ha.1⟩⟩

theorem Good.cert_arrive (hinv : Inv S cur (owe bare L) w') :
    w'.graph.Cert (label A e.node fun l => A e.node l ∧ A stop l) := by
  refine (h.relabel_join he hp hmerge fun _ _ _ hl => hl.1).grown h.inv.sound hinv.sound hext.grows
    (fun _ _ => rfl) (fun hn hy => h.seated_arrive he hp hf hmerge hne hinc hext hl hm hmeet hn hy) ?_
    (fun hn hy hk => h.phi_arrive he hp hf hne hinc hext hl hm hmeet hn hy hk) ?_
  · intro c dat hd
    rw [(Arrival.gains hl hm).edge?] at hd
    split at hd
    · cases hd
      refine .inr fun l hl' => ((label_self _ _ _ l).1 hl').imp_right fun hl' => ?_
      rw [label_of_ne hne]
      exact hl'.2
    · exact .inl hd
  · intro n y s hn hy hs
    have := hm.snapshot n
    rw [snapshot?_congr (hl.node? n)] at this
    have hsn : w'.graph.snapshot? n = some s := by rw [snapshot?, hy]; exact hs
    rw [hsn] at this
    rcases this with this | this
    · exact .inl ⟨s, this.symm, fun a ha v hv => ⟨a, ha, hv⟩⟩
    · cases this

omit hmerge hne hl in
theorem Good.avail_arrive (hv : v ∈ f.values) :
    w'.graph.Avail (fun l => l = e.node ∨ A e.node l ∧ A stop l) v.node := by
  obtain ⟨old, ho, new, hn, hj⟩ := hmeet.exists_joined hv
  rcases hj.node with ⟨hold, hnode, -⟩ | ⟨hold, hnode, hsame⟩ | ⟨-, hk, -⟩
  · rcases hm.each v.node (List.mem_map.2 ⟨v, hv, rfl⟩) with hk | hu
    · exact .phi hk (.inl rfl)
    · have hlt : v.node.index < g1.nodeCount := by
        rw [hnode]
        exact lt_of_kind? hold
      obtain ⟨k, hk, -⟩ := hu
      have := (hm.old hlt hk).1
      rw [hnode, hold] at this
      cases this
      exact .phi hk (.inl rfl)
  · have hoav := (h.waits.entry he).avail hp hf old ho
    rw [hnode]
    rw [hsame] at hoav ⊢
    refine h.avail_extends hext (hinc.backs new hn)
      ⟨hoav.value, fun hneeds => .inr ⟨hoav.needs hneeds, ?_⟩⟩
    exact (hinc.avail new hn).needs hneeds
  · exact .phi hk (.inl rfl)

end

/-- A frame has arrived at a join: its label names what was passed on the new edge, too. -/
theorem Good.arrive (hf : e.frame = some f0) (hmerge : w.graph.kindIs e.node NodeKind.isMerge = true)
    (hstop : w.graph.kind? stop = some .endNode) (hpart : stop ∈ part) (hopen : ¬ S.Open w.table stop)
    (hroot : w.graph.Rooted L stop) (hloose : ∀ y ∈ loose, y = e.node ∨ y ∈ L)
      (hbase : ∀ l, S.base l → A stop l)
    (hinc : Carries S (A stop) w incoming) (harr : Arrival w w' stop b e f0 incoming f)
    (hinv : Inv S cur (owe bare L) w') (hext : Extends S [stop] w w') :
    Good S cur bare L part (label A e.node fun l => A e.node l ∧ A stop l) w' := by
  obtain ⟨ht, g1, x, O, d, hl, hm, hmeet⟩ := harr
  have hOb : S.Open w.table e.node := .inl ⟨b, e, he, hp, rfl⟩
  have hOeq : S.Open w'.table = S.Open w.table := ht ▸ Scene.open_put he rfl rfl
  have hne : stop ≠ e.node := by
    rintro heq
    rw [heq] at hopen
    exact hopen hOb
  have hco := h.inv.sound.coherent
  refine ⟨hinv, ?_, h.cert_arrive he hp hf hmerge hne hinc hext hl hm hmeet hinv, ?_⟩
  · rw [hOeq]
    have hl' := h.shaped.link hco hl ⟨rfl, rfl⟩ hpart hopen hstop (by rintro ⟨⟩)
      (.inr (.inl ⟨hmerge, hOb, hstop⟩)) (fun _ => .inl hOb) hroot hloose
    refine hl'.same (hco.links hl rfl rfl ?_ ?_) hm.sameControl
    · exact kindIs_of_kind? hstop
    · obtain ⟨k, hk, hkm⟩ := kindIs_iff.1 hmerge
      exact kindIs_iff.2 ⟨k, hk, isControl_of_isMerge hkm⟩
  · refine .join h he hp hinv hext.toEvolves ht ?_
      (fun v hv => h.avail_arrive he hp hf hinc hext hm hmeet hv) fun l hl' => ?_
    · intro n _ hn
      have := hm.snapshot n
      rw [snapshot?_congr (hl.node? n), hn] at this
      exact this.elim id id
    · exact ⟨(h.waits.entry he).base hp (by simp [hf]) l (.inl hl'), hbase l hl'⟩

theorem Good.agree_join : Agree S w A (label A e.node Q) := by
  intro n hn hO
  refine label_of_ne ?_
  rintro rfl
  have h1 := hO (.inl ⟨b, e, he, hp, rfl⟩)
  exact absurd h1 (Nat.not_lt_of_le (h.inv.placed.stands he).young)

/-- The first edge comes in at a loop header. -/
theorem Good.enter (hf : e.frame = none)
    (hstop : w.graph.kind? stop = some .endNode) (hpart : stop ∈ part)
    (hopen : ¬ S.Open w.table stop) (hroot : w.graph.Rooted L stop)
    (hloose : ∀ y ∈ loose, y = e.node ∨ y ∈ L) (hbase : ∀ l, S.base l → A stop l)
    (hinc : Carries S (A stop) w f) (hl : Links w.graph w'.graph stop e.node dat x)
    (hdat : dat.source = stop ∧ dat.target = e.node)
    (ht : w'.table = w.table.put b { e with frame := some f })
    (hinv : Inv S cur (owe bare L) w') (hext : Extends S [stop] w w') :
    Good S cur bare L part (label A e.node (A stop)) w' := by
  have hOb : S.Open w.table e.node := .inl ⟨b, e, he, hp, rfl⟩
  have hst := h.inv.placed.stands he
  obtain ⟨hhead, hdeg⟩ := hst.empty hf
  obtain ⟨i, hk⟩ := hst.header hhead
  have hmerge : w.graph.kindIs e.node NodeKind.isMerge = true := by
    exact kindIs_of_kind? hk
  have hOeq : S.Open w'.table = S.Open w.table := ht ▸ Scene.open_put he rfl rfl
  have hne : stop ≠ e.node := by
    rintro heq
    rw [heq] at hopen
    exact hopen hOb
  have hco := h.inv.sound.coherent
  have hstopA : label A e.node (A stop) stop = A stop := label_of_ne hne
  have hrelabel : w.graph.Cert (label A e.node (A stop)) := h.relabel_join he hp hmerge fun c _ hc => by
    rw [List.length_eq_zero_iff.1 hdeg] at hc
    cases hc
  refine ⟨hinv, ?_, ?_, ?_⟩
  · rw [hOeq]
    exact h.shaped.link hco hl hdat hpart hopen hstop (by rintro ⟨⟩)
      (.inr (.inl ⟨hmerge, hOb, hstop⟩)) (fun _ => .inl hOb) hroot hloose
  · refine hrelabel.link h.inv.sound hinv.sound hl hdat ?_ ?_
    · intro l hl'
      rw [hstopA]
      exact (label_self _ _ _ l).1 hl'
    · intro n y v hy hky
      exact absurd (by rw [kind?_of_node? hy, hky]) (h.inv.no_phi hdeg rfl n)
  · refine .join h he hp hinv hext.toEvolves ht ?_ ?_ hbase
    · intro n _ hn
      rw [snapshot?_congr (hl.node? n), hn]
    · exact fun v hv => ((hinc.has hv).extend h hext).avail.mono fun l hl' => .inr hl'

end

theorem Good.place (h : Good S cur bare loose (n :: part) A w)
    (hb : b.index < w.table.entries.size) (hnone : w.table.slot? b = none)
    (hk : w.graph.kind? n = some .begin) (hout : w.graph.outgoing n = []) (hg : w'.graph = w.graph)
    (ht : w'.table = w.table.put b { node := n, frame := some f })
    (hinv : Inv S cur (owe bare loose) w') (hav : ∀ v ∈ f.values, w.graph.Avail (A n) v.node)
    (hbase : ∀ l, S.base l ∨ l = n → A n l) (hfirst : w.graph.start = some n → b.index = 0) :
    Good S cur bare loose part A w' := by
  have hO : ∀ m, S.Open w'.table m ↔ S.Open w.table m ∨ m = n := by
    intro m
    rw [ht]
    exact Scene.open_put_new hb hnone rfl m
  have hmerge : ∀ {m k}, w.graph.kind? m = some k → k.isMerge = true → m ≠ n := by
    rintro m k hm hkm rfl
    rw [hk] at hm
    cases hm
    cases hkm
  refine ⟨hinv, ?_, by rw [hg]; exact h.cert, ?_⟩
  · rw [hg]
    refine ⟨?_, ?_, h.shaped.behind, h.shaped.single, ?_, h.shaped.rooted⟩
    · intro m k hm hc
      rcases h.shaped.exits hm hc with ho | ho | ho
      · exact .inl ((hO m).2 (.inl ho))
      · rcases List.mem_cons.1 ho with rfl | ho
        · exact .inl ((hO m).2 (.inr rfl))
        · exact .inr (.inl ho)
      · exact .inr (.inr ho)
    · intro m hm
      rcases (hO m).1 hm with hm | rfl
      · exact h.shaped.silent hm
      · exact hout
    · intro m k hm hkm
      obtain ⟨i, j, hs, h1, h2⟩ := h.shaped.joins hm hkm
      have hne := hmerge hm hkm
      exact ⟨i, j, hs, fun ho => h1 (ho.imp_left fun ho => ((hO m).1 ho).resolve_right hne),
        fun he => (h2 he).imp_right fun hp => (List.mem_cons.1 hp).resolve_left hne⟩
  · rw [hg, ht]
    refine h.waits.put hb ⟨?_, fun _ _ => hbase, (fun hc => by cases hc), fun _ hm => ?_, hfirst⟩
    · rintro - f' ⟨⟩
      exact hav
    · rw [kindIs_of_kind? hk] at hm
      cases hm

/-! ## From a begin to a merge

The label of the begin goes to the new merge and to its end, without the begin itself. -/

def promotedLabel (A : Labels) (start stop merge : NodeId) : Labels :=
  label (label A stop fun l => A start l ∧ l ≠ start) merge fun l => A start l ∧ l ≠ start

/-- The graph when the end leads to the merge and nothing leads to the end. -/
structure Graph.Halfway (g g2 : Graph) (start stop merge : NodeId) : Prop where
  coherent : g2.Coherent
  begin : g2.kind? start = some .begin
  ending : g2.kind? stop = some .endNode
  silent : g2.outgoing start = []
  alone : g2.incoming stop = []
  edge? : ∀ {c dat}, g2.edge? c = some dat → dat = ⟨stop, merge, .next, 1.0⟩ ∨ g.edge? c = some dat
  rooted : ∀ {L n}, g.Rooted L n → g2.Rooted L n

section Promote

variable {merge start l : NodeId} {g' : Graph}

theorem Promotes.label_old (hpr : Promotes g g' start stop merge)
    (hn : n.index < g.nodeCount) : promotedLabel A start stop merge n = A n := by
  rw [promotedLabel, label_of_lt (by rw [hpr.mergeId]; exact hn),
    label_of_lt (by rw [hpr.stopId]; exact Nat.lt_succ_of_lt hn)]

theorem Promotes.label_stop (hpr : Promotes g g' start stop merge) :
    promotedLabel A start stop merge stop l ↔ l = stop ∨ A start l ∧ l ≠ start := by
  rw [promotedLabel, label_of_ne hpr.merge_ne_stop.symm, label_self]

theorem promotedLabel_merge :
    promotedLabel A start stop merge merge l ↔ l = merge ∨ A start l ∧ l ≠ start := by
  rw [promotedLabel, label_self]

variable (h : Good S cur bare loose part A w) (he : w.table.slot? b = some e)
  (hp : e.parsed = false) (hk : w.graph.kind? e.node = some .begin)
  (hpr : Promotes w.graph w'.graph e.node stop merge)
include h he hp hk hpr

/-- First the merge and its end are made, and linked. -/
theorem Good.halfway [S.Fit] {g2 : Graph}
    (hl : Links ((w.graph.addNode .merge []).2.addNode .endNode []).2 g2 stop merge
      ⟨stop, merge, .next, 1.0⟩ x) :
    w.graph.Halfway g2 e.node stop merge ∧
      g2.Shaped (fun n => S.Open w.table n ∨ n = merge) (merge :: part) (stop :: loose) := by
  have hmid := hpr.mergeId
  have hsid := hpr.stopId
  have hms := hpr.merge_ne_stop
  obtain ⟨hme, hse⟩ := hpr.fresh (lt_of_kind? hk)
  have hsound1 := h.inv.sound.addNode (k := .merge) (I := []) (.plain rfl (by simp)) (by simp [owe])
  have hsound2 := hsound1.addNode (k := .endNode) (I := []) (.plain rfl (by simp))
    (by simp [owe, Debt.add])
  obtain ⟨hkm, hks⟩ := kinds_promoting hmid hsid
  have hkind2 : ∀ n, g2.kind? n = ((w.graph.addNode .merge []).2.addNode .endNode []).2.kind? n :=
    fun n => kind?_congr (hl.node? n)
  have hblank : ∀ {n : NodeId}, w.graph.nodeCount ≤ n.index →
      ((w.graph.addNode .merge []).2.addNode .endNode []).2.outgoing n = [] ∧
      ((w.graph.addNode .merge []).2.addNode .endNode []).2.incoming n = [] := by
    intro n hn
    simp only [outgoing_addNode, incoming_addNode]
    exact ⟨outgoing_of_le hn, incoming_of_le hn⟩
  have hmge : w.graph.nodeCount ≤ merge.index := by rw [hmid]
  have hsge : w.graph.nodeCount ≤ stop.index := by
    rw [hsid]
    exact Nat.le_succ _
  refine ⟨⟨hsound2.coherent.links hl rfl rfl (kindIs_of_kind? hks) (kindIs_of_kind? hkm), ?_,
    (hkind2 stop).trans hks, ?_, ?_, fun {c dat} hd => ?_, fun hr => hl.rooted hr⟩, ?_⟩
  · rw [hkind2]
    exact kind?_addNode_of (kind?_addNode_of hk)
  · rw [hl.outgoing, if_neg hse]
    simpa using h.shaped.silent (.inl ⟨b, e, he, hp, rfl⟩)
  · rw [hl.incoming, if_neg hms.symm, (hblank hsge).2]
  · rw [hl.edge?] at hd
    split at hd
    · exact .inl (Option.some.inj hd).symm
    · exact .inr hd
  · have hS2 := (h.shaped.addNode h.inv.sound.coherent (k := .merge) (I := [])).addNode (k := .endNode)
      (I := []) hsound1.coherent
    have hid1 : (⟨w.graph.nodeCount⟩ : NodeId) = merge := hmid.symm
    have hid2 : (⟨(w.graph.addNode .merge []).2.nodeCount⟩ : NodeId) = stop := by
      rw [hsid]
      simp
    rw [hid1, hid2] at hS2
    have hS3 : Shaped _ (fun n => S.Open w.table n ∨ n = merge) (stop :: merge :: part)
        (stop :: merge :: loose) := hS2.adjust
      (by
        intro n hn
        refine hn.imp_right ?_
        rintro rfl
        exact hblank hmge)
      (fun _ _ ho => ho.imp .inl .inl) (fun _ ho => .inl ho) hsound2.coherent fun _ hx => hx
    have hS4 := hS3.link (L := stop :: loose) hsound2.coherent hl ⟨rfl, rfl⟩ (by simp)
      (by
        rintro (hO | heq)
        · exact absurd (h.inv.open_lt hO) (Nat.not_lt_of_le hsge)
        · exact hms heq.symm)
      hks (by rintro ⟨⟩)
      (.inr (.inl ⟨kindIs_of_kind? hkm, .inr rfl, hks⟩))
      (fun _ => .inl (.inr rfl)) (.inr ⟨stop, by simp, .refl⟩)
      (by
        intro y hy
        simp only [List.mem_cons] at hy ⊢
        tauto)
    refine hS4.finish ((hkind2 stop).trans hks) ?_ (by simp)
    rw [hl.outKinds hsound2.coherent, if_pos rfl, outKinds, (hblank hsge).1]
    rfl

/-- Then the way to the begin goes on to the end: its only edge is moved there, or the begin is linked
to it. -/
theorem Good.shaped_promote [S.Fit] (hf : e.frame = some f0) (hb : b.index ≠ 0)
    (ht : w'.table = w.table.put b { e with node := merge })
    (hinv : Inv S cur (owe bare loose) w') (hext : Extends S [] w w') :
    w'.graph.Shaped (S.Open w'.table) (merge :: part) loose := by
  obtain ⟨hme, hse⟩ := hpr.fresh (lt_of_kind? hk)
  have hOb : S.Open w.table e.node := .inl ⟨b, e, he, hp, rfl⟩
  have hco := h.inv.sound.coherent
  have hO' : ∀ n, S.Open w'.table n ↔ (S.Open w.table n ∧ n ≠ e.node) ∨ n = merge := by
    intro n
    rw [ht]
    exact h.inv.open_promoted he hp n
  obtain ⟨g2, x, hl, hlast⟩ := hpr.steps
  obtain ⟨hhalf, hS⟩ := h.halfway he hp hk hpr hl
  have hflat : g2.kindIs stop NodeKind.isMerge = false := kindIs_of_kind? hhalf.ending
  have hvacant : ∀ {Z : Prop}, g2.Vacant stop → Z := by
    rintro Z ⟨hpl, -⟩
    rw [kindIs_of_kind? hhalf.ending] at hpl
    cases hpl
  have hloose : ∀ y ∈ stop :: loose, y = stop ∨ y ∈ loose := fun y hy => List.mem_cons.1 hy
  -- What was open is so still, but for the begin.
  have hstill : ∀ {n}, n ≠ e.node → (S.Open w.table n ∨ n = merge) ∨ n ∈ merge :: part →
      S.Open w'.table n ∨ n ∈ merge :: part := by
    intro n hn
    exact Or.imp_left fun ho => (hO' n).2 (ho.imp_left fun ho => ⟨ho, hn⟩)
  have hwas : ∀ {n}, S.Open w'.table n → S.Open w.table n ∨ n = merge :=
    fun hn => ((hO' _).1 hn).imp_left And.left
  rcases hlast with ⟨e0, d0, he0, htarget, hin0, hsplit, hmv⟩ | ⟨y, hlk⟩
  · have hroot : w.graph.Rooted loose d0.source := by
      have he0w := (hhalf.edge? he0).resolve_left (by rintro rfl; exact hme htarget.symm)
      obtain ⟨k, hks, hc⟩ := kindIs_iff.1 (hco.source he0w)
      refine (h.shaped.rooted hks hc).resolve_left ?_
      rintro ⟨-, -, hnil⟩
      have := hco.outgoing.2 ⟨d0, he0w, rfl⟩
      rw [hnil] at this
      cases this
    have hS6 := hS.moves (L := loose) hhalf.coherent he0 hmv (.inl (htarget ▸ hOb))
      (htarget ▸ hhalf.begin) (htarget ▸ hin0) hflat hhalf.alone (htarget ▸ hse.symm) hsplit hvacant
      (hhalf.rooted hroot) hloose
    have hvac : w'.graph.Vacant e.node := by
      refine ⟨?_, ?_, ?_⟩
      · rw [kindIs_congr (hmv.node? _), kindIs_of_kind? hhalf.begin]
        rfl
      · rw [hmv.incoming, if_pos htarget.symm, if_neg hse, hin0]
        simp
      · rw [hmv.outgoing, hhalf.silent]
    refine hS6.adjust (fun hn => .inl (hwas hn)) ?_ (fun _ ho => .inl ho) hinv.sound.coherent
      fun _ hx => hx
    intro n k' _ _ ho
    by_cases hn : n = e.node
    · subst hn
      refine .inr (.inr (.inl ⟨hvac, fun hs => hb ((h.waits.entry he).first ?_)⟩))
      rw [← hext.grows.start, hs]
    · exact (hstill hn ho).imp_right .inl
  · have hS6 : Shaped _ (S.Open w'.table) (e.node :: merge :: part) (stop :: loose) := hS.adjust
      (fun hn => .inl (hwas hn))
      (by
        intro n k' _ _ ho
        by_cases hn : n = e.node
        · exact .inr (.inl (by simp [hn]))
        · exact (hstill hn ho).imp_right fun ho => .inl (List.mem_cons_of_mem _ ho))
      (fun _ ho => .inl (List.mem_cons_of_mem _ ho)) hhalf.coherent fun _ hx => hx
    have hS7 := hS6.link (L := loose) hhalf.coherent hlk ⟨rfl, rfl⟩ (by simp)
      (by
        intro hO
        rcases (hO' _).1 hO with ⟨-, hne⟩ | heq
        · exact hne rfl
        · exact hme heq)
      hhalf.begin (by rintro ⟨⟩) (.inl ⟨hflat, hhalf.alone⟩) hvacant
      (hhalf.rooted (h.rooted_entry he (by simp [hf]))) hloose
    refine hS7.finish (k := .begin) ?_ ?_ (by simp)
    · rw [kind?_congr (hlk.node? _), hhalf.begin]
    · rw [hlk.outKinds hhalf.coherent, if_pos rfl, outKinds, hhalf.silent]
      rfl

theorem Good.edge_promote [S.Fit] (hd : w'.graph.edge? c = some dat) :
    w.graph.edge? c = some dat ∨ ∀ l, promotedLabel A e.node stop merge dat.target l →
      l = dat.target ∨ promotedLabel A e.node stop merge dat.source l := by
  have hlt := lt_of_kind? hk
  obtain ⟨hme, -⟩ := hpr.fresh hlt
  obtain ⟨g2, x, hl, hlast⟩ := hpr.steps
  obtain ⟨hhalf, -⟩ := h.halfway he hp hk hpr hl
  have hnew : g2.edge? c = some dat → w.graph.edge? c = some dat ∨
      ∀ l, promotedLabel A e.node stop merge dat.target l →
        l = dat.target ∨ promotedLabel A e.node stop merge dat.source l := by
    intro hd
    rcases hhalf.edge? hd with rfl | hd
    · exact .inr fun l hl' => (promotedLabel_merge.1 hl').imp_right fun hq => hpr.label_stop.2 (.inr hq)
    · exact .inl hd
  rcases hlast with ⟨e0, d0, he0, htarget, -, -, hmv⟩ | ⟨y, hlk⟩
  · rw [hmv.edge?] at hd
    split at hd
    · cases hd
      refine .inr fun l hl' => (hpr.label_stop.1 hl').imp_right fun hq => ?_
      have he0w := (hhalf.edge? he0).resolve_left (by rintro rfl; exact hme htarget.symm)
      rw [hpr.label_old (lt_of_kindIs (h.inv.sound.coherent.source he0w))]
      refine (h.cert.edge he0w (by rw [htarget]; exact hq.1)).resolve_left ?_
      rw [htarget]
      exact hq.2
    · exact hnew hd
  · rw [hlk.edge?] at hd
    split at hd
    · cases hd
      refine .inr fun l hl' => (hpr.label_stop.1 hl').imp_right fun hq => ?_
      rw [hpr.label_old hlt]
      exact hq.1
    · exact hnew hd

theorem Good.cert_promote [S.Fit] (hinv : Inv S cur (owe bare loose) w')
    (hext : Extends S [] w w') : w'.graph.Cert (promotedLabel A e.node stop merge) := by
  refine h.cert.grown h.inv.sound hinv.sound hext.grows (fun n hn => hpr.label_old hn) ?_
    (fun hd => h.edge_promote he hp hk hpr hd) ?_ ?_
  · intro n y hn hy
    rw [hpr.node?] at hy
    split at hy
    · cases hy
      exact .blank rfl rfl
    · split at hy
      · cases hy
        exact .blank rfl rfl
      · exact absurd (lt_nodeCount hy) (Nat.not_lt_of_le hn)
  · intro n y m hn hy hm
    have hnode : w.graph.node? n = some y := by
      rwa [hpr.same hn] at hy
    obtain ⟨hmk, hmlt, -⟩ := (h.inv.sound.node hnode).phi hm
    have h1 : m ≠ e.node := by
      rintro rfl
      rw [kindIs_of_kind? hk] at hmk
      cases hmk
    have hmn : m.index < w.graph.nodeCount := Nat.lt_trans hmlt hn
    rw [inputs_of_node? hnode]
    refine ⟨fun i hi => .inl hi, fun hv hc hd => .inl ⟨hv, ?_⟩⟩
    rw [hpr.incoming h1 (hpr.fresh hmn).2 (hpr.fresh hmn).1] at hc
    obtain ⟨d0, hd0, ht0⟩ := h.inv.sound.coherent.incoming.1 (List.mem_of_getElem? hc)
    have := hpr.edge? hd0 (by rw [ht0]; exact h1)
    rw [hd] at this
    cases this
    exact ⟨hc, hd0⟩
  · intro n y s hn hy hs
    rw [hpr.same hn] at hy
    exact .inl ⟨s, by rw [snapshot?, hy]; exact hs, fun a ha v hv => ⟨a, ha, hv⟩⟩

theorem Good.hosts_promote [S.Sure] (hf : e.frame = some f0) (hext : Extends S [] w w') :
    Hosts S (promotedLabel A e.node stop merge) w'.graph b { e with node := merge } := by
  have hOb : S.Open w.table e.node := .inl ⟨b, e, he, hp, rfl⟩
  have hst := h.inv.placed.stands he
  refine ⟨?_, ?_, (fun hc => by cases hp.symm.trans hc), ?_, fun hs => ?_⟩
  · intro _ f' hf' v hv
    have hf1 : e.frame = some f' := hf'
    have hav := (h.waits.entry he).avail hp hf1 v hv
    have hu : w.graph.Usable (S.Open w.table) v.node := by
      refine (((hst.holds hf1 (.inl hp)).each v hv).resolve_left ?_).2
      exact h.inv.sound.no_phi (kindIs_of_kind? hk) v.node
    refine Avail.of_grows ⟨hav.value, fun hneeds => promotedLabel_merge.2 (.inr ?_)⟩ h.inv.sound
      hext.grows (hext.usable _ hu).contains
    exact ⟨hav.needs hneeds, hneeds.ne_open h.inv.sound h.cert hu hav.value hOb
      (.inr (kindIs_of_kind? hk))⟩
  · intro _ _ l hl'
    refine promotedLabel_merge.2 (hl'.symm.imp_right fun hB => ⟨?_, ?_⟩)
    · exact (h.waits.entry he).base hp (by simp [hf]) l (.inl hB)
    · rintro rfl
      exact absurd (Scene.Sure.older _ hB) (Nat.not_lt_of_le hst.young)
  · intro _ _
    rw [snapshot?, hpr.node?, if_pos rfl]
    rfl
  · rw [hext.grows.start] at hs
    obtain ⟨x, hx, -⟩ := h.inv.sound.start hs
    have := lt_nodeCount hx
    rw [hpr.mergeId] at this
    exact absurd this (Nat.lt_irrefl _)

theorem Good.promote [S.Sure] (hf : e.frame = some f0) (hb : b.index ≠ 0)
    (ht : w'.table = w.table.put b { e with node := merge })
    (hinv : Inv S cur (owe bare loose) w') (hext : Extends S [] w w') :
    Good S cur bare loose (merge :: part) (promotedLabel A e.node stop merge) w' := by
  refine ⟨hinv, h.shaped_promote he hp hk hpr hf hb ht hinv hext,
    h.cert_promote he hp hk hpr hinv hext, .evolve h hinv hext.toEvolves ?_ ?_⟩
  · intro n _ hn
    rw [snapshot?, hpr.node?]
    split
    · rfl
    · split
      · rfl
      · exact hn
  · intro c e' he'
    rw [ht, Table.slot?_put (Table.lt_of_slot? he)] at he'
    split at he'
    · next hcb =>
      cases he'
      subst hcb
      exact .inr (h.hosts_promote he hp hk hpr hf hext)
    · refine .inl ⟨e', he', rfl, rfl, hpr.label_old ?_, id, fun f' hf' => ⟨f', hf', fun v hv => hv⟩⟩
      exact (h.inv.placed.stands he').lt

end Promote

theorem Inv.parsed_not_open [S.Fit] (h : Inv S cur d w) (he : w.table.slot? b = some e)
    (hp : e.parsed = true) : ¬ S.Open w.table e.node := by
  rintro (⟨c, e', he', hp', hn⟩ | hout)
  · obtain rfl := h.placed.distinct he' he hn
    rw [he] at he'
    cases he'
    rw [hp] at hp'
    cases hp'
  · exact absurd (Scene.Fit.outer _ hout) (Nat.not_lt_of_le (h.placed.stands he).young)

theorem Frame.snd_of_mem_pairs {q : NodeId × NodeId} (h : q ∈ f.pairs incoming) :
    ∃ v ∈ incoming.values, v.node = q.2 := by
  have hzip : ∀ {xs ys : List Value}, (∀ v ∈ ys, v ∈ incoming.values) →
      q ∈ (xs.zip ys).map (fun p => (p.1.node, p.2.node)) →
      ∃ v ∈ incoming.values, v.node = q.2 := by
    intro xs ys hys hq
    obtain ⟨⟨a, v⟩, hav, rfl⟩ := List.mem_map.1 hq
    exact ⟨v, hys v (List.of_mem_zip hav).2, rfl⟩
  unfold Frame.pairs at h
  rcases List.mem_append.1 h with h | h
  · rcases List.mem_append.1 h with h | h
    · obtain ⟨⟨o, o'⟩, hmem, ho⟩ := List.mem_filterMap.1 h
      cases o with
      | none => cases ho
      | some a =>
        cases o' with
        | none => cases ho
        | some v =>
          cases ho
          exact ⟨v, (mem_values_of_pairLocals hmem).2 rfl, rfl⟩
    · exact hzip (fun v hv => Frame.mem_values_stack hv) h
  · exact hzip (fun v hv => Frame.mem_values_monitors hv) h

theorem Shears.sheds (h : Inv S cur d w) (he : w.table.slot? b = some e)
    (hp : e.parsed = true) (hf : e.frame = some f0) (hhead : (S.blocks.block b).isLoopHeader = true)
    (hsh : Shears S w w1 b e f0 incoming f dead) :
    Sheds w.graph w1.graph dead ∧ w.table.Without dead w1.table ∧
      ∀ n ∈ dead, ∀ k, w.graph.kind? n = some k → k.isCarrier = true := by
  rcases hsh.how with ⟨rfl, -, rfl⟩ | ⟨hd, -⟩
  · refine ⟨⟨.refl _, by simp, ?_, fun hx => ⟨_, hx⟩, rfl⟩, ⟨rfl, ?_, rfl, rfl, rfl⟩, by simp⟩
    · intro n x hx _
      exact ⟨x, hx, rfl, rfl, id, fun s hs => ⟨s, hs, fun a ha v hv => ⟨by simp, a, ha, hv⟩⟩⟩
    · intro c
      cases hc : w1.table.slot? c with
      | none => exact .none
      | some e' =>
        refine .some ⟨rfl, rfl, ?_⟩
        cases hf' : e'.frame with
        | none => exact .none
        | some f' =>
          refine .some ?_
          have hall : (fun v : Option Value => v.filter fun _ => true) = id := by
            funext v
            cases v <;> rfl
          simp [Frame.withoutLocals?, hall]
  · refine ⟨hd.graph, hd.table, fun n hn k hk => ?_⟩
    cases (hd.carried n).1 hn with
    | root hn =>
      obtain ⟨phi, hmem, rfl⟩ := mem_values_of_lostPhis hn
      rcases ((h.placed.stands he).holds hf (.inr hhead)).each phi hmem with hk' | ⟨hp', -⟩
      · rw [hk] at hk'
        cases hk'
        rfl
      · rw [hp] at hp'
        cases hp'
    | step _ hx _ hc =>
      rw [kind?_of_node? hx] at hk
      cases hk
      exact hc

/-- The steps of a back edge from `stop` to the header `m`: values are dropped, the phis are filled, and
the end of the loop is linked. -/
structure Closing (g0 g1 g g' : Graph) (m stop : NodeId) (x : EdgeId) (pairs : List (NodeId × NodeId))
    (dead : List NodeId) : Prop where
  sheds : Sheds g0 g1 dead
  carry : ∀ n ∈ dead, ∀ k, g0.kind? n = some k → k.isCarrier = true
  filling : ∃ O d, Filling O d g1 g m pairs []
  stopId : stop = ⟨g.nodeCount⟩
  links : Links (g.addNode (.loopEnd m) []).2 g' stop m ⟨stop, m, .next, 1.0⟩ x

namespace Closing

variable {g0 g1 g g' : Graph} {m n stop k : NodeId} {pairs : List (NodeId × NodeId)} {y : Node}
  {s : Snapshot}
  (hc : Closing g0 g1 g g' m stop x pairs dead)
include hc

theorem same : SameControl g0 g := by
  obtain ⟨O, d, hfill⟩ := hc.filling
  exact (hc.sheds.sameControl hc.carry).trans hfill.merging.sameControl

theorem le_stop : g0.nodeCount ≤ stop.index := by
  obtain ⟨O, d, hfill⟩ := hc.filling
  rw [hc.stopId, ← hc.sheds.nodeCount]
  exact hfill.merging.count

theorem ne_stop (hn : n.index < g0.nodeCount) : n ≠ stop := by
  rintro rfl
  exact absurd hn (Nat.not_lt_of_le hc.le_stop)

theorem node? (hn : n ≠ stop) : g'.node? n = g.node? n := by
  rw [hc.links.node?, node?_addNode, if_neg]
  rwa [← hc.stopId]

theorem gains : Gains g0 g' x ⟨stop, m, .next, 1.0⟩ := by
  refine ⟨?_, fun c => ?_, fun n => ?_⟩
  · rw [← hc.same.edge?, ← edge?_addNode, hc.links.fresh]
  · rw [hc.links.edge?, edge?_addNode, hc.same.edge?]
  · rw [hc.links.incoming, incoming_addNode, hc.same.incoming]

theorem snapshot (hn : n.index < g0.nodeCount) (hs : g'.snapshot? n = some s) :
    ∃ s0, g0.snapshot? n = some s0 ∧ s0.Without dead s := by
  obtain ⟨O, d, hfill⟩ := hc.filling
  rw [snapshot?_congr (hc.node? (hc.ne_stop hn))] at hs
  rcases hfill.merging.snapshot n with h1 | h1
  · rw [h1] at hs
    obtain ⟨y, hy, hys⟩ := Option.bind_eq_some_iff.1 hs
    obtain ⟨-, z, hz, -, -, -, hsome⟩ := hc.sheds.inv hy
    obtain ⟨s0, hs0, hw⟩ := hsome s hys
    exact ⟨s0, by rw [snapshot?, hz]; exact hs0, hw⟩
  · rw [h1] at hs
    cases hs

theorem inputs (hn : n.index < g0.nodeCount) (hy : g'.node? n = some y)
    (hk : y.kind = .phi k) : g0.kind? n = some (.phi k) ∧
      if k = m then ∃ q ∈ pairs, y.inputs = g0.inputs n ++ [q.2] else y.inputs = g0.inputs n := by
  obtain ⟨O, d, hfill⟩ := hc.filling
  rw [hc.node? (hc.ne_stop hn)] at hy
  have hk1 : g1.kind? n = some (.phi k) := by
    rw [← hfill.kind?, kind?_of_node? hy, hk]
  obtain ⟨y1, hy1, hky1⟩ := kind?_eq_some.1 hk1
  obtain ⟨-, z, hz, hkz, hin, -⟩ := hc.sheds.inv hy1
  rw [← inputs_of_node? hz] at hin
  refine ⟨(kind?_of_node? hz).trans (by rw [← hkz, hky1]), ?_⟩
  split
  · next hkm =>
    subst hkm
    obtain ⟨q, hq, hqn⟩ : ∃ q ∈ pairs, q.1 = n := by
      rcases hfill.merging.all n ((hfill.kind? n).trans hk1) with hmem | hmem
      · obtain ⟨q, hq, hqn⟩ := List.mem_map.1 hmem
        exact ⟨q, hq, hqn⟩
      · cases hmem
    refine ⟨q, hq, ?_⟩
    have := hfill.inputs q hq
    rwa [hqn, inputs_of_node? hy, inputs_of_node? hy1, hin] at this
  · next hkm =>
    have hkept : g.node? n = g1.node? n := by
      refine hfill.merging.kept (lt_of_kind? hk1) ?_
      rw [hk1]
      rintro ⟨⟩
      exact hkm rfl
    rw [hkept, hy1] at hy
    cases hy
    exact hin

end Closing

section BackEdge

variable {g1 g2 : Graph} {pairs : List (NodeId × NodeId)} (h : Good S cur bare loose part A w)
  (he : w.table.slot? b = some e) (hp : e.parsed = true)
  (hhead : (S.blocks.block b).isLoopHeader = true)
  (hc : Closing w.graph g1 g2 w'.graph e.node stop x pairs dead)
include h he hp hhead hc

theorem Good.shaped_backEdge [S.Fit] (hf : e.frame = some f0) :
    w'.graph.Shaped (S.Open w.table) part (stop :: loose) := by
  have hst := h.inv.placed.stands he
  obtain ⟨i, hk⟩ := hst.header hhead
  have hcog := hc.same.coherent h.inv.sound.coherent
  have hcoa := hcog.addNode (.loopEnd e.node) []
  have hks : (g2.addNode (.loopEnd e.node) []).2.kind? stop = some (.loopEnd e.node) := by
    rw [kind?_addNode, if_pos hc.stopId]
  have hS2 := (h.shaped.same h.inv.sound.coherent hc.same).addNode hcog (k := .loopEnd e.node) (I := [])
  rw [← hc.stopId] at hS2
  have hS3 := hS2.link (L := stop :: loose) hcoa hc.links ⟨rfl, rfl⟩ (by simp)
    (fun hO => absurd (h.inv.open_lt hO) (Nat.not_lt_of_le hc.le_stop)) hks (by rintro ⟨⟩)
    (.inr (.inr ⟨⟨i, kind?_addNode_of ((hc.same.kind rfl).2 hk)⟩, h.inv.parsed_not_open he hp, hks⟩))
    (by
      rintro ⟨-, hnil, -⟩
      rw [incoming_addNode, hc.same.incoming] at hnil
      have := hst.entered (by simp [hf]) hhead
      rw [inDegree, hnil] at this
      exact absurd this (Nat.lt_irrefl _))
    (.inr ⟨stop, by simp, .refl⟩) fun y hy => .inr hy
  refine hS3.finish (k := .loopEnd e.node) ?_ ?_ (by simp)
  · rw [kind?_congr (hc.links.node? _), hks]
  · rw [hc.links.outKinds hcoa, if_pos rfl, outKinds, outgoing_addNode,
      outgoing_of_le (by rw [hc.stopId])]
    rfl

/-- What comes back can be used at the end of the loop, and the header has passed nothing new. -/
theorem Good.cert_backEdge (hP : ∀ l, S.base l → P l) (hinv : Inv S cur (owe bare (stop :: loose)) w')
    (hev : Evolves S [] w w')
    (hinc : ∀ q ∈ pairs, w.graph.Avail P q.2) : w'.graph.Cert (label A stop P) := by
  have hco := h.inv.sound.coherent
  have hold : ∀ n, n.index < w.graph.nodeCount → label A stop P n = A n :=
    fun n hn => label_of_lt (Nat.lt_of_lt_of_le hn hc.le_stop)
  obtain ⟨i, hk⟩ := (h.inv.placed.stands he).header hhead
  refine h.cert.grown h.inv.sound hinv.sound hev.grows hold ?_ ?_ ?_ ?_
  · intro n y hn hy
    by_cases hns : n = stop
    · subst hns
      rw [hc.links.node?, node?_addNode, if_pos hc.stopId] at hy
      cases hy
      exact .blank rfl rfl
    · obtain ⟨O, d, hfill⟩ := hc.filling
      rw [hc.node? hns] at hy
      have := lt_of_kind? ((hfill.kind? n).symm.trans (kind?_of_node? hy))
      rw [hc.sheds.nodeCount] at this
      exact absurd this (Nat.not_lt_of_le hn)
  · intro c dat hd
    rw [hc.gains.edge?] at hd
    split at hd
    · cases hd
      refine .inr fun l hl' => ?_
      rw [hold _ (lt_of_kind? hk)] at hl'
      refine ((h.waits.entry he).header hp hhead l hl').imp_right fun hB => ?_
      exact (label_self _ _ _ _).2 (.inr (hP l hB))
    · exact .inl hd
  · intro n y m hn hy hym
    obtain ⟨hkn, hin⟩ := hc.inputs hn hy hym
    split at hin
    · next hme =>
      subst hme
      obtain ⟨q, hq, hin⟩ := hin
      have hlive : w'.graph.contains q.2 = true :=
        ((hinv.sound.node hy).inputs q.2 (by rw [hin]; simp)).contains
      have hav : w'.graph.Avail P q.2 := (hinc q hq).of_grows h.inv.sound hev.grows hlive
      rw [hin]
      refine ⟨fun j hj => (List.mem_append.1 hj).imp_right fun hj => ?_, fun hu hc' hd => ?_⟩
      · rw [List.mem_singleton.1 hj]
        exact hav.value
      · refine (hc.gains.input hco (h.inv.sound.length_inputs hkn) hu hc' hd).imp_right ?_
        rintro ⟨rfl, rfl⟩
        exact hav.mono fun l hl' => (label_self _ _ _ _).2 (.inr hl')
    · next hme =>
      rw [hin]
      exact ⟨fun j hj => .inl hj, fun hu hc' hd =>
        .inl ⟨hu, (hc.gains.arrives hco hc' hd).resolve_right fun ha => hme ha.1⟩⟩
  · intro n y s hn hy hs
    obtain ⟨s0, hs0, hw⟩ := hc.snapshot hn (by rw [snapshot?, hy]; exact hs)
    exact .inl ⟨s0, hs0, fun a ha v hv => (hw a ha v hv).2⟩

end BackEdge

theorem Good.backEdge [S.Sure] (h : Good S cur bare loose part A w)
    (hp : e.parsed = true) (hhead : (S.blocks.block b).isLoopHeader = true) (hP : ∀ l, S.base l → P l)
    (hinc : Carries S P w incoming) (hbe : BackEdge S b incoming w stop w' e f0 f dead)
    (hinv : Inv S cur (owe bare (stop :: loose)) w') (hev : Evolves S [] w w') :
    Good S cur bare (stop :: loose) part (label A stop P) w' := by
  obtain ⟨he, hf, ⟨w1, g, x, O, d, hsh, hfill, hstop, hl, ht⟩, -⟩ := hbe
  obtain ⟨hsheds, hwithout, hcarry⟩ := hsh.sheds h.inv he hp hf hhead
  have hc : Closing w.graph w1.graph g w'.graph e.node stop x (f.pairs incoming) dead :=
    ⟨hsheds, hcarry, ⟨O, d, hfill⟩, hstop, hl⟩
  refine ⟨hinv, ?_, h.cert_backEdge he hp hhead hc hP hinv hev fun q hq => ?_, .evolve h hinv hev ?_ ?_⟩
  · rw [ht, hwithout.open_eq]
    exact h.shaped_backEdge he hp hhead hc hf
  · obtain ⟨v, hv, hvq⟩ := Frame.snd_of_mem_pairs hq
    exact hvq ▸ hinc.avail v hv
  · intro n hn hnone
    cases hs : w'.graph.snapshot? n with
    | none => rfl
    | some s =>
      obtain ⟨s0, hs0, -⟩ := hc.snapshot hn hs
      rw [hnone] at hs0
      cases hs0
  · intro c e' he'
    rw [ht] at he'
    obtain ⟨e0, he0, hw⟩ := hwithout.entry_inv he'
    refine .inl ⟨e0, he0, hw.node.symm, hw.parsed.symm, label_of_lt ?_, ?_, ?_⟩
    · rw [hw.node]
      exact Nat.lt_of_lt_of_le (h.inv.placed.stands he0).lt hc.le_stop
    · rw [hw.isSome]
      exact id
    · intro f' hf'
      obtain ⟨f1, hf1, hsub⟩ := hw.exists_frame hf'
      exact ⟨f1, hf1, fun v hv => ((Frame.mem_values_withoutLocals? hsub).1 hv).1⟩

end Arrive

end StackLift
