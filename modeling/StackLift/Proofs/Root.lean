import StackLift.Proofs.Methods

/-!
# Following the root

The graph of a unit starts with the parameters of its root method and nothing else. The begin of the
root is the start of the graph; from there on the root is followed like any other method. Nothing is
left over when all its blocks are lifted: the root has no caller that would go on.
-/
namespace StackLift

/-! ## Parameters -/

/-- The graph holds nothing but parameters. -/
structure Graph.Blank (g : Graph) : Prop where
  node : ∀ {n x}, g.node? n = some x → ∃ i, x = { kind := .parameter i }
  edge? : ∀ e, g.edge? e = none
  outgoing : ∀ n, g.outgoing n = []
  incoming : ∀ n, g.incoming n = []
  start : g.start = none

namespace Graph

variable {g g' : Graph} {O P : NodeSet} {A : Labels} {n x : NodeId}

theorem Blank.empty : Graph.Blank {} :=
  ⟨fun h => by simp [node?] at h, fun _ => rfl, fun _ => rfl, fun _ => rfl, rfl⟩

theorem Blank.addNode {i : Nat} (h : g.Blank) : (g.addNode (.parameter i) []).2.Blank := by
  refine ⟨fun hx => ?_, h.edge?, fun n => ?_, fun n => ?_, h.start⟩
  · rcases node?_addNode_inv hx with ⟨-, rfl⟩ | hx
    · exact ⟨i, rfl⟩
    · exact h.node hx
  · rw [outgoing_addNode, h.outgoing]
  · rw [incoming_addNode, h.incoming]

theorem addParameters_blank (kinds : List ValueKind) : (addParameters {} kinds).2.Blank ∧
      ∀ v ∈ (addParameters {} kinds).1, (addParameters {} kinds).2.contains v.node = true := by
  unfold addParameters
  generalize kinds.zipIdx = l
  suffices key : ∀ (args : List Value) (g : Graph), g.Blank → (∀ v ∈ args, g.contains v.node = true) →
      ∀ r, r = l.foldl (fun s x => (s.1 ++ [⟨(s.2.addNode (.parameter x.2) []).1, x.1⟩],
        (s.2.addNode (.parameter x.2) []).2)) (args, g) →
      r.2.Blank ∧ ∀ v ∈ r.1, r.2.contains v.node = true from
    key [] {} .empty (by simp) _ rfl
  induction l with
  | nil =>
    rintro args g hg ha r rfl
    exact ⟨hg, ha⟩
  | cons p l ih =>
    intro args g hg ha r hr
    refine ih _ _ hg.addNode (fun v hv => ?_) r hr
    rcases List.mem_append.1 hv with hv | hv
    · obtain ⟨y, hy⟩ := Option.isSome_iff_exists.1 (ha v hv)
      exact contains_of_kind? (kind?_addNode_of (kind?_of_node? hy))
    · obtain rfl := List.mem_singleton.1 hv
      exact contains_of_kind? (kind?_addNode.trans (if_pos rfl))

theorem Blank.kind? (h : g.Blank) {k : NodeKind} (hk : g.kind? n = some k) : ∃ i, k = .parameter i := by
  obtain ⟨x, hx, rfl⟩ := kind?_eq_some.1 hk
  obtain ⟨i, rfl⟩ := h.node hx
  exact ⟨i, rfl⟩

theorem Blank.no_edge (h : g.Blank) {e : EdgeId} {d : Edge} : g.edge? e ≠ some d := by
  rw [h.edge?]
  exact nofun

theorem Blank.sound (h : g.Blank) : g.Sound O (owe [] []) := by
  refine ⟨⟨?_, ?_, ?_, ?_, (absurd · h.no_edge), (absurd · h.no_edge)⟩, ?_, ?_⟩
  · simp [h.outgoing, h.edge?]
  · simp [h.incoming, h.edge?]
  · simp [h.outgoing]
  · simp [h.incoming]
  · intro n x hx
    obtain ⟨_, rfl⟩ := h.node hx
    exact ⟨nofun, nofun, nofun, nofun, fun hk => by simp at hk, nofun, nofun⟩
  · intro s hs
    rw [h.start] at hs
    cases hs

theorem Blank.shaped (h : g.Blank) (hO : ∀ n, ¬ O n) : g.Shaped O [] [] := by
  refine ⟨?_, fun hn => absurd hn (hO _), (absurd · h.no_edge), ?_, ?_, ?_⟩
  · intro n k hk hc
    obtain ⟨_, rfl⟩ := h.kind? hk
    cases hc
  · intro n k _ _
    rw [inDegree, h.incoming]
    exact Nat.zero_le _
  · intro m k hk hm
    obtain ⟨_, rfl⟩ := h.kind? hk
    cases hm
  · intro n k hk hc
    obtain ⟨_, rfl⟩ := h.kind? hk
    cases hc

theorem Blank.cert (h : g.Blank) : g.Cert A := by
  refine ⟨fun hx => ?_, (absurd · h.no_edge), fun hs => ?_⟩
  · obtain ⟨_, rfl⟩ := h.node hx
    exact .blank rfl rfl
  · rw [h.start] at hs
    cases hs

theorem Blank.avail (h : g.Blank) (hx : g.contains x = true) : g.Avail P x := by
  obtain ⟨y, hy⟩ := Option.isSome_iff_exists.1 hx
  obtain ⟨i, rfl⟩ := h.node hy
  have hk : g.kind? x = some (.parameter i) := kind?_of_node? hy
  refine ⟨kindIs_of_kind? hk, fun hl => ?_⟩
  cases hl with
  | fixed hk' hc =>
    rw [hk] at hk'
    cases hk'
    cases hc
  | phi hk' =>
    rw [hk] at hk'
    cases hk'
  | proxy hk' =>
    rw [hk] at hk'
    cases hk'
  | floating hk' hf =>
    rw [hk] at hk'
    cases hk'
    cases hf

theorem Blank.usable (h : g.Blank) (hx : g.contains x = true) : g.Usable O x := by
  obtain ⟨y, hy⟩ := Option.isSome_iff_exists.1 hx
  obtain ⟨i, rfl⟩ := h.node hy
  exact ⟨_, kind?_of_node? hy, rfl, nofun⟩

theorem Avail.of_fewer (h : g.Avail P x) (hx : g'.contains x = true)
    (hold : ∀ {n k}, g'.kind? n = some k → g.kind? n = some k ∧ g'.inputs n = g.inputs n) :
    g'.Avail P x := by
  obtain ⟨y, hy⟩ := Option.isSome_iff_exists.1 hx
  have hk := kind?_of_node? hy
  have hv := h.value
  rw [kindIs_of_kind? (hold hk).1] at hv
  refine ⟨by rw [kindIs_of_kind? hk, hv], fun hl => h.needs (hl.old (S := fun _ => True) ?_ trivial)⟩
  exact fun n k _ hn => ⟨(hold hn).1, fun _ => ⟨(hold hn).2, fun _ _ => trivial⟩⟩

end Graph

open BuildM

section Root

variable {E : Error → Prop} {sc : Scope} {S : Scene} {A : Labels}
  {w w' : Work} {n : NodeId} {f : Frame} {g : Graph} {env : Env} {config : Config} {root : MethodId}
  {nested : Option Parser}

/-! ## The start -/

/-- A begin that nothing leads to becomes the start. -/
theorem Good.start (h : Good S 0 [] [n] [n] A w) (hk : w.graph.kind? n = some .begin)
    (hs : w.graph.start = none) (hA : ∀ l, A n l → l = n)
    (hdist : ∀ c e, w.table.slot? c = some e → e.node ≠ n) (hg : w'.graph = w.graph.setStart n)
    (ht : w'.table = w.table) : Good S 0 [n] [] [n] A w' := by
  have hav : ∀ {P : NodeSet} {x}, w.graph.Avail P x → (w.graph.setStart n).Avail P x := by
    intro P x hx
    obtain ⟨k, hkx, -⟩ := Graph.kindIs_iff.1 hx.value
    exact hx.of_fewer (Graph.contains_of_kind? (show w.graph.kind? x = some k from hkx))
      fun hn => ⟨hn, rfl⟩
  refine ⟨⟨?_, ?_, ?_⟩, ?_, ?_, ?_⟩
  · have hsound := (h.inv.weaken (D := [n]) (L := [n]) (by simp) (by simp)).sound.setStart hk
      (by simp [owe])
      hs
    rw [hg, ht]
    refine hsound.adjust (fun _ hm _ => hm) ?_ ?_ (fun _ _ => rfl) (fun _ hm => .inl hm)
    · exact fun _ _ _ ho => ho.imp_right .inl
    · intro m x _ _ hm
      obtain rfl : m = n := by simpa [owe] using hm
      exact .inl rfl
  · rw [hg, ht]
    refine h.inv.placed.mono (fun hm _ => hm) (fun _ _ => rfl) (fun _ hd => hd) ?_ (fun _ _ => rfl)
      (fun _ _ => Iff.rfl) fun _ hm => hm
    rintro m (hm | hm)
    · rw [hs] at hm
      cases hm
    · obtain rfl : m = n := by simpa [owe] using hm
      exact .inr (.inl rfl)
  · rw [hg]
    exact ⟨h.inv.based.count, h.inv.based.frozen, h.inv.based.phis⟩
  · rw [hg, ht]
    refine ⟨?_, h.shaped.silent, h.shaped.behind, h.shaped.single, h.shaped.joins, ?_⟩
    · intro m k hm hc
      by_cases hmn : m = n
      · exact .inr (.inl (by simp [hmn]))
      · refine (h.shaped.exits hm hc).imp_right (Or.imp_right (Or.imp_left fun hi => ⟨hi.1, ?_⟩))
        exact fun heq => hmn (Option.some.inj heq).symm
    · intro m k hm hc
      refine (h.shaped.rooted hm hc).imp_right ?_
      rintro (⟨s, hs', -⟩ | ⟨l, hl, hr⟩)
      · rw [hs] at hs'
        cases hs'
      · obtain rfl := List.mem_singleton.1 hl
        exact .inl ⟨l, rfl, hr⟩
  · rw [hg]
    refine ⟨fun {m x} hx => ?_, h.cert.edge, fun hs' hl => ?_⟩
    · obtain ⟨h1, h2, h3, h4, h5, h6⟩ := h.cert.node hx
      exact ⟨h1, h2, fun hc i hi => hav (h3 hc i hi), fun hm hv he hd => hav (h4 hm hv he hd),
        fun he i hi => hav (h5 he i hi), fun hs' =>
        ⟨(h6 hs').1, fun a ha v hv => hav ((h6 hs').2 a ha v hv)⟩⟩
    · obtain rfl := Option.some.inj hs'
      exact hA _ hl
  · rw [hg, ht]
    refine ⟨fun he => ?_, h.waits.outer⟩
    exact { h.waits.entry he with
      avail := fun hp f hf v hv => hav ((h.waits.entry he).avail hp hf v hv)
      first := fun hs' => absurd (Option.some.inj hs').symm (hdist _ _ he) }

/-- The root's control point is the start. -/
theorem rootEntry_good {p : Position} {α : Type} {rest : NodeId → BuildM α} {Q : α → Work → Prop}
    [S.Sure] (hbase : ∀ l, ¬ S.base l) (h : Good S 0 [] [] [] A w)
    (hs : w.graph.start = none) (hf : ∀ P, Carries S P w f)
    (hrest : ∀ n w' A', Here S 0 [] [] A' w' n f → w'.graph.kind? n = some .begin →
      w'.graph.start = some n → w'.table = w.table → w.graph.nodeCount ≤ n.index →
      Ensures E (rest n) S w' Q) :
    Ensures E (do
      let n ← addNode .begin []
      changeGraph fun g => .ok ((), g.setStart n)
      attachSnapshot n f p
      rest n) S w Q := by
  refine (addControl_good (k := .begin) (I := []) h (fun _ => False) rfl (.plain rfl (by simp)) (by simp)
    fun _ => rfl).bind fun n w1 h1 => ?_
  obtain ⟨hgood1, hext1, hnew1⟩ := h1
  have hk1 := hnew1.kind
  have hfresh : w.graph.nodeCount ≤ n.index := Nat.le_of_eq hnew1.fresh.symm
  have hdist : ∀ c e, w1.table.slot? c = some e → e.node ≠ n := by
    rintro c e he rfl
    rw [hnew1.table] at he
    exact absurd (h.inv.placed.stands he).lt (Nat.not_lt_of_le hfresh)
  have hopen : ¬ S.Open w1.table n := by
    rintro (⟨c, e, he, -, hn⟩ | ho)
    · exact hdist c e he hn
    · exact absurd (Nat.lt_of_lt_of_le (Scene.Fit.outer n ho) h.inv.based.count) (Nat.not_lt_of_le hfresh)
  refine (ensures_changeGraph (Q := fun _ w' => w'.graph = w1.graph.setStart n ∧ w'.table = w1.table) rfl
    ⟨rfl, rfl⟩).bind fun _ w2 h2 => ?_
  obtain ⟨hg2, ht2⟩ := h2
  have hlabel : ∀ l, label A n (fun _ => False) n l ↔ l = n := fun l => by
    rw [label_self, or_false]
  have hgood2 := hgood1.start hk1 (hext1.grows.start.trans hs) (fun l => (hlabel l).1) hdist hg2 ht2
  have hk2 : w2.graph.kind? n = some .begin := by rw [hg2]; exact hk1
  have hf2 : Carries S (label A n (fun _ => False) n) w2 f := by
    have := (hf (label A n (fun _ => False) n)).extend h hext1
    refine ⟨?_, fun v hv => ?_⟩
    · rw [hg2, ht2]
      exact this.backs
    · rw [hg2]
      exact (this.avail v hv).of_fewer (this.backs v hv).contains fun hn => ⟨hn, rfl⟩
  refine (attach_good (D := []) hgood2 (Graph.kindIs_of_kind? hk2) hf2 (fun l hl => absurd hl (hbase l))
    (ht2 ▸ hopen) (fun x hx => .inl (List.mem_singleton.1 hx))).bind fun _ w3 h3 => ?_
  obtain ⟨hgood3, hext3, ht3⟩ := h3
  have hlt : n.index < w2.graph.nodeCount := Graph.lt_of_kind? hk2
  have hk3 : w3.graph.kind? n = some .begin := hext3.grows.kind hk2 rfl
  have hs3 : w3.graph.start = some n := by rw [hext3.grows.start, hg2]; rfl
  refine hrest n w3 _ ⟨hgood3, ⟨⟨Graph.kindIs_of_kind? hk3, ?_, .inr (.inl hs3)⟩,
    .inl ⟨n, hs3, .refl⟩, fun l hl => (hlabel l).2 (hl.resolve_left (hbase l)), ?_⟩, ?_, ⟨_, hk3, rfl⟩,
    hf2.extend hgood2 hext3⟩ hk3 hs3 (ht3.trans (ht2.trans hnew1.table)) hfresh
  · rw [ht3, ht2]
    exact hopen
  · intro hm
    rw [hk3] at hm
    cases hm
  · rw [hext3.grows.outgoing hlt List.not_mem_nil (ht2 ▸ hopen), hg2]
    exact hnew1.outgoing

/-! ## The root -/

/-- What a build starts with. -/
structure Begins (env : Env) (sc : Scope) (f : Frame) (g : Graph) : Prop where
  env : sc.env = env
  chain : sc.chain ≠ []
  charts : sc.blocks.Charts sc.body
  depth : sc.depth = 0
  callers : sc.callers = none
  blank : g.Blank
  frame : ∀ v ∈ f.values, g.contains v.node = true

theorem prepare_begins (h : prepare env config root = .ok (sc, f, g)) : Begins env sc f g := by
  obtain ⟨decl, body, -, hf, hs, rfl⟩ := prepare_ok h
  obtain ⟨hmap, henv, -, -, hbody, hchain, hcallers⟩ := Scope.ofMethod_ok hs
  obtain ⟨hblank, hargs⟩ := Graph.addParameters_blank decl.argKinds
  exact ⟨henv, by simp [hchain], hbody ▸ BlockMap.charts_of_ofBody hmap,
    by rw [Scope.depth, hchain]; rfl, hcallers, hblank,
    fun v hv => hargs v (Frame.mem_values_withArgs hf hv)⟩

/-- A root has no callers. -/
def Scope.atRoot (sc : Scope) (g : Graph) : Scene :=
  { sc with graph := g, outer := fun _ => False, base := fun _ => False }

/-- A tame root is left without debts. -/
theorem parseWith_root (hn : Nests E sc nested) (hb : Begins env sc f g) (htame : sc.blocks.Tame) :
    Ensures E (parseWith nested f none) sc { graph := g, table := Table.blank sc.blocks.size } fun _ w' =>
      ∃ A', Good (sc.atRoot g) sc.blocks.size [] [] [] A' w' ∧ w'.graph.start.isSome = true := by
  have hE := hn.allows.ordinary
  let S : Scene := sc.atRoot g
  let w : Work := { graph := g, table := Table.blank sc.blocks.size }
  have hO : ∀ n, ¬ S.Open w.table n := by
    intro n hn
    rw [show w.table = Table.blank sc.blocks.size from rfl, Scene.open_blank] at hn
    exact hn
  have : S.Sure := by
    refine {
      charts := hb.charts, plain := htame, outer := fun _ => False.elim, inputs := fun n i hi => ?_,
      callers := fun s hs => ?_, handed := fun s hs => ?_, older := fun _ => False.elim }
    · exact Graph.inputs_lt (O := fun _ => False) hb.blank.sound hi
    · cases hb.callers.symm.trans hs
    · cases hb.callers.symm.trans hs
  have hgood : Good (S.heads 0) 0 [] [] [] (fun _ _ => False) w :=
    .blank rfl rfl hb.blank.sound (hb.blank.shaped hO) hb.blank.cert fun ho => absurd ho id
  unfold parseWith followBlocks
  refine (ensures_enterBody (Q := fun _ w' => w'.graph = w.graph ∧ w'.table = w.table) ⟨rfl, rfl⟩).bind
    fun _ w0 h0 => ?_
  refine (createLoopHeaders_good S.charts (hgood.of_eq h0.1 h0.2) h0.2).bind fun _ w1 h1 => ?_
  obtain ⟨A1, hgood1, hext1, -, hheads⟩ := h1
  replace hext1 : Extends S [] w w1 := (Extends.of_eq h0.1 h0.2).trans hext1
  have hf1 : ∀ P, Carries S P w1 f := fun P => Carries.extend
    ⟨fun v hv => hb.blank.usable (hb.frame v hv), fun v hv => hb.blank.avail (hb.frame v hv)⟩ hgood hext1
  have hconnect : Ensures E (connectEntry f none) S w1 fun _ w' => ∃ A',
      Good S 0 [] [] [] A' w' ∧ w'.graph.start.isSome = true := by
    unfold connectEntry
    refine ensures_read_bind (rootEntry_good (fun _ => id) hgood1
      (hext1.grows.start.trans hb.blank.start) hf1
      fun n w2 A2 here2 hk hs ht2 hfresh => ?_)
    refine (enterFirst_good hE here2 hk (Nat.le_trans hgood1.inv.based.count hfresh) (.inr hs)
      (ht2 ▸ hheads) ?_).mono fun _ w3 h3 => ?_
    · intro c e he heq
      rw [ht2] at he
      exact absurd (heq ▸ (hgood1.inv.placed.stands he).lt) (Nat.not_lt_of_le hfresh)
    · obtain ⟨A3, hgood3, hs3, -⟩ := h3
      exact ⟨A3, hgood3, by rw [hs3, hs]; rfl⟩
  refine hconnect.bind fun _ w2 h2 => ?_
  obtain ⟨A2, hgood2, hstart2⟩ := h2
  refine ensures_read_bind ((liftBlocks_good hn
    (.of_good hgood2 (hgood2.inv.placed.exits (Nat.zero_le _)))).bind fun _ w3 h3 => ?_)
  obtain ⟨A3, hl3, hev3, -⟩ := h3
  refine ensures_get_bind (ensures_pure ⟨A3, ?_, by rw [hev3.grows.start, hstart2]⟩)
  have hnone : w3.table.exits.nodes = [] := by
    have h1 : w3.table.exits.returned = none := by
      refine Option.eq_none_iff_forall_ne_some.2 fun y hy => ?_
      exact (hl3.returned y hy).2.2.2 hb.depth
    have h2 : w3.table.exits.unwound = none := by
      refine Option.eq_none_iff_forall_ne_some.2 fun y hy => ?_
      exact (hl3.unwound y hy).2.2.2.2 hb.depth
    rw [Exits.nodes, h1, h2]
    rfl
  obtain ⟨bare, hgood3, hbare⟩ := hl3.good
  rw [hnone] at hgood3 hbare
  exact hgood3.mono (fun x hx => (hbare x hx).1) (fun _ hx => hx) fun _ hx => hx

theorem parseTame_root (h : Allows E env) (levels : Nat) (hp : prepare env config root = .ok (sc, f, g)) :
    Ensures E (parseTame levels f none) sc { graph := g, table := Table.blank sc.blocks.size } fun _ w' =>
      ∃ A', Good (sc.atRoot g) sc.blocks.size [] [] [] A' w' ∧ w'.graph.start.isSome = true := by
  have hb := prepare_begins hp
  obtain rfl := hb.env
  cases levels with
  | zero => exact ensures_ifTame h.ordinary fun htame => parseWith_root ⟨h, hb.chain, nofun⟩ hb htame
  | succ levels =>
    refine ensures_ifTame h.ordinary fun htame => parseWith_root ⟨h, hb.chain,
      fun parse' hp' => ?_⟩ hb htame
    obtain rfl := Option.some.inj hp'
    exact parseTame_good h levels

end Root

end StackLift
