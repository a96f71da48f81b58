import StackLift.Proofs.Root
import StackLift.Proofs.Shortcuts

/-!
# Tidied graphs

What lifting leaves behind is `Neat`: sound, in shape and certified, with places that were given up
still lying about. Tidying takes those away (`Tight`), and folds every begin that follows no split into
its successor. Neither step loses a way through the graph, and neither can fail.

**Labels.** A begin that is folded away is dropped from the labels. Nothing needs it: what a value needs
is a node that makes a value, a join or a loop exit.
-/
namespace StackLift

variable {y : Edge} {x : EdgeId} {k : NodeKind}

namespace Graph

variable {g g' : Graph} {A : Labels} {b n : NodeId} {e e' : EdgeId} {d d' : Edge}
  {l : List NodeId}

/-- A graph without debts. -/
structure Neat (g : Graph) (A : Labels) : Prop where
  sound : g.Sound (fun _ => False) (owe [] [])
  shaped : g.Shaped (fun _ => False) [] []
  cert : g.Cert A

/-- Nothing is left of what was given up. -/
def Tight (g : Graph) : Prop :=
  ∀ n, g.kindIs n NodeKind.isPlace = true → g.inDegree n = 0 → g.start = some n

/-! ## Fewer places -/

/-- What is left without the places `X`. Each of them is a begin with one way through it, or a place that
no edge leads to. -/
structure Thins (g g' : Graph) (X : NodeSet) : Prop where
  coherent : g'.Coherent
  start : g'.start = g.start
  place : ∀ {n}, X n → g.kindIs n NodeKind.isPlace = true ∧ g.start ≠ some n ∧
    (g.kind? n = some .begin ∨ g.inDegree n = 0)
  old : ∀ {n x}, g'.node? n = some x → ¬ X n ∧ g.node? n = some x
  kept : ∀ {n}, ¬ X n → g'.node? n = g.node? n
  outgoing : ∀ {n}, ¬ X n → g'.outgoing n = g.outgoing n
  outKinds : ∀ {n}, ¬ X n → g'.outKinds n = g.outKinds n
  inDegree : ∀ {n}, ¬ X n → g'.inDegree n = g.inDegree n
  join : ∀ {n}, ¬ X n → g.kindIs n NodeKind.isMerge = true →
    g'.incoming n = g.incoming n ∧ ∀ e ∈ g.incoming n, g'.edge? e = g.edge? e
  -- an edge is an old one, or takes the place of two
  edge : ∀ {e d}, g'.edge? e = some d → g.edge? e = some d ∨
    g.kindIs d.source NodeKind.isControlSplit = false ∧ ∃ x y c c', g.edge? x = some c ∧
      g.edge? y = some c' ∧ c.source = d.source ∧ X c.target ∧ c.target = c'.source ∧ c'.target = d.target
  reach : ∀ {s n}, ¬ X s → ¬ X n → g.Reach s n → g'.Reach s n

namespace Thins

variable {X : NodeSet} (ht : Thins g g' X)
include ht

theorem kind? (hn : ¬ X n) : g'.kind? n = g.kind? n := kind?_congr (ht.kept hn)

theorem kindIs {p : NodeKind → Bool} (hn : ¬ X n) : g'.kindIs n p = g.kindIs n p := by
  rw [Graph.kindIs, ht.kind? hn, Graph.kindIs]

theorem old_kind (hk : g'.kind? n = some k) : ¬ X n ∧ g.kind? n = some k := by
  obtain ⟨x, hx, rfl⟩ := kind?_eq_some.1 hk
  exact ⟨(ht.old hx).1, kind?_of_node? (ht.old hx).2⟩

theorem ends (hy : g'.edge? x = some y) : ¬ X y.source ∧ ¬ X y.target := by
  obtain ⟨k, hk, -⟩ := kindIs_iff.1 (ht.coherent.source hy)
  obtain ⟨k', hk', -⟩ := kindIs_iff.1 (ht.coherent.target hy)
  exact ⟨(ht.old_kind hk).1, (ht.old_kind hk').1⟩

theorem stays (hk : g.kind? n = some k) (hn : k.isPlace = false ∨ k.isMerge = true ∧ 0 < g.inDegree n) :
    ¬ X n := by
  intro hx
  obtain ⟨hp, -, hd⟩ := ht.place hx
  rw [kindIs_of_kind? hk] at hp
  rcases hn with hn | ⟨hm, hpos⟩
  · rw [hn] at hp
    cases hp
  · rcases hd with hb | hd
    · rw [hk, Option.some.injEq] at hb
      subst hb
      cases hm
    · omega

theorem tight (h : g.Tight) : g'.Tight := by
  intro n hp hd
  obtain ⟨k, hk, hkp⟩ := kindIs_iff.1 hp
  obtain ⟨hn, hk⟩ := ht.old_kind hk
  rw [ht.inDegree hn] at hd
  rw [ht.start]
  exact h n (kindIs_iff.2 ⟨k, hk, hkp⟩) hd

variable (h : g.Neat A)
include h

theorem stays_merge {m : NodeId} {x : Node} (hx : g.node? n = some x) (hk : x.kind = .phi m) : ¬ X m := by
  obtain ⟨hm, -, hne, hlen⟩ := (h.sound.node hx).phi hk
  obtain ⟨k, hkm, hm⟩ := kindIs_iff.1 hm
  refine ht.stays hkm (.inr ⟨hm, Nat.pos_of_ne_zero fun hz => hne (List.length_eq_zero_iff.1 ?_)⟩)
  simpa [hz, owe, Debt.missing, Debt.expected] using hlen

theorem sound : g'.Sound (fun _ => False) (owe [] []) := by
  have husable : ∀ {n}, g.Usable (fun _ => False) n → g'.Usable (fun _ => False) n := by
    rintro n ⟨k, hk, hp, hn⟩
    exact ⟨k, (ht.kind? (ht.stays hk (Or.inl hp))).trans hk, hp, hn⟩
  refine ⟨ht.coherent, fun {n x} hx => ?_, fun {s} hs => ?_⟩
  · obtain ⟨hn, hx⟩ := ht.old hx
    have hold := h.sound.node hx
    refine ⟨fun i hi => husable (hold.inputs i hi), fun hs => (hold.snapshots hs).mono fun _ => husable,
      fun {m} hk => ?_, fun hk => ?_, fun hk => ?_, ?_, ?_⟩
    · have hm := ht.stays_merge h hx hk
      rw [ht.kindIs hm, ht.inDegree hm]
      exact hold.phi hk
    · obtain ⟨i, hi⟩ := hold.proxy hk
      exact ⟨i, (ht.kind? (ht.stays hi (Or.inl rfl))).trans hi⟩
    · obtain ⟨⟨i, hi⟩, hd⟩ := hold.header hk
      have hm := ht.stays hi (.inr ⟨rfl, hd⟩)
      rw [ht.kind? hm, ht.inDegree hm]
      exact ⟨⟨i, hi⟩, hd⟩
    · rw [ht.inDegree hn]
      exact hold.captured
    · rw [ht.inDegree hn, ht.start, ht.outgoing hn]
      exact hold.reached
  · rw [ht.start] at hs
    obtain ⟨x, hx, hk⟩ := h.sound.start hs
    exact ⟨x, (ht.kept fun hs' => (ht.place hs').2.1 hs).trans hx, hk⟩

theorem shaped : g'.Shaped (fun _ => False) [] [] := by
  have hvac : ∀ {n}, ¬ X n → g.Vacant n → g'.Vacant n := by
    rintro n hn ⟨h1, h2, h3⟩
    refine ⟨by rwa [ht.kindIs hn], List.length_eq_zero_iff.1 ((ht.inDegree hn).trans ?_), ?_⟩
    · rw [Graph.inDegree, h2, List.length_nil]
    · rw [ht.outgoing hn, h3]
  refine ⟨fun {n k} hk hc => ?_, fun ho => ho.elim, fun {x y} hy hs => ?_, fun {n k} hk hm => ?_,
    fun {m k} hk hm => ?_, fun {n k} hk hc => ?_⟩
  · obtain ⟨hn, hk⟩ := ht.old_kind hk
    rw [ht.outKinds hn]
    refine (h.shaped.exits hk hc).imp_right (Or.imp_right (Or.imp_left fun hi => ⟨hvac hn hi.1, ?_⟩))
    rw [ht.start]
    exact hi.2
  · obtain ⟨h1, h2⟩ := ht.ends hy
    rw [ht.kindIs h1] at hs
    rw [ht.kindIs h2]
    rcases ht.edge hy with hy | ⟨hp, -⟩
    · exact h.shaped.behind hy hs
    · rw [hs] at hp
      cases hp
  · obtain ⟨hn, hk⟩ := ht.old_kind hk
    rw [ht.inDegree hn]
    exact h.shaped.single hk hm
  · obtain ⟨hn, hk⟩ := ht.old_kind hk
    obtain ⟨i, j, hs, hij⟩ := h.shaped.joins hk hm
    obtain ⟨hin, hsame⟩ := ht.join hn (by rw [kindIs_of_kind? hk, hm])
    refine ⟨i, j, ?_, hij⟩
    rw [← hs, sourceKinds, sourceKinds, hin]
    refine List.filterMap_congr fun x hx => ?_
    rw [hsame x hx]
    cases hy : g.edge? x with
    | none => rfl
    | some y => exact ht.kind? (ht.ends ((hsame x hx).trans hy)).1
  · obtain ⟨hn, hk⟩ := ht.old_kind hk
    refine (h.shaped.rooted hk hc).imp (hvac hn) ?_
    rintro (⟨s, hs, hr⟩ | ⟨x, hx, -⟩)
    · exact Or.inl ⟨s, ht.start.trans hs, ht.reach (fun hs' => (ht.place hs').2.1 hs) hn hr⟩
    · cases hx

theorem stays_needed {x l : NodeId} (hl : g.Needs x l) (hv : g.kindIs x NodeKind.isValue = true) :
    ¬ X l := by
  induction hl with
  | @fixed x k hk _ =>
    rw [kindIs_of_kind? hk] at hv
    exact ht.stays hk (.inl (by cases k <;> first | rfl | cases hv))
  | phi hk =>
    obtain ⟨y, hy, hky⟩ := kind?_eq_some.1 hk
    exact ht.stays_merge h hy hky
  | proxy hk =>
    obtain ⟨y, hy, hky⟩ := kind?_eq_some.1 hk
    obtain ⟨i, hi⟩ := (h.sound.node hy).proxy hky
    exact ht.stays hi (.inl rfl)
  | floating hk _ hi _ ih =>
    obtain ⟨y, hy, -⟩ := kind?_eq_some.1 hk
    rw [inputs_of_node? hy] at hi
    exact ih ((h.cert.node hy).value _ hi)

theorem cert : g'.Cert fun m l => A m l ∧ ¬ X l := by
  have hsound := ht.sound h
  have hav : ∀ {P : NodeSet} {x}, g.Avail P x → g'.contains x = true →
      g'.Avail (fun l => P l ∧ ¬ X l) x := by
    intro P x hx hlive
    have : g.Avail (fun l => P l ∧ ¬ X l) x :=
      ⟨hx.value, fun {l} hl => ⟨hx.needs hl, ht.stays_needed h hl hx.value⟩⟩
    exact this.of_fewer hlive fun hk =>
      ⟨(ht.old_kind hk).2, inputs_congr (ht.kept (ht.old_kind hk).1)⟩
  refine ⟨fun {n x} hx => ?_, fun {x y l} hy hl => ?_, fun {s l} hs hl => ?_⟩
  · obtain ⟨hn, hx0⟩ := ht.old hx
    obtain ⟨h1, h2, h3, h4, h5, h6⟩ := h.cert.node hx0
    have hlive : ∀ i ∈ x.inputs, g'.contains i = true :=
      fun i hi => ((hsound.node hx).inputs i hi).contains
    refine ⟨fun i hi => ?_, h2, fun hcn i hi => hav (h3 hcn i hi) (hlive i hi), fun hm hv hy hc => ?_,
      fun he i hi => hav (h5 he i hi) (hlive i hi), fun hs => ⟨(h6 hs).1, fun a ha v hv => ?_⟩⟩
    · exact (hav (P := fun _ => True) ⟨h1 i hi, fun _ => trivial⟩ (hlive i hi)).value
    · obtain ⟨hin, hsame⟩ := ht.join (ht.stays_merge h hx0 hm) ((h.sound.node hx0).phi hm).1
      rw [hin] at hy
      rw [hsame _ (List.mem_of_getElem? hy)] at hc
      exact hav (h4 hm hv hy hc) (hlive _ (List.mem_of_getElem? hv))
    · exact hav ((h6 hs).2 a ha v hv) ((hsound.node hx).snapshots hs a ha v hv).contains
  · rcases ht.edge hy with hy | ⟨-, u, v, c, c', hu, hv, hs, hX, hcc, hct⟩
    · exact (h.cert.edge hy hl.1).imp_right fun hA => ⟨hA, hl.2⟩
    · -- a label passes both edges that this one takes the place of
      refine (h.cert.edge hv (hct ▸ hl.1)).imp (·.trans hct) fun hA => ⟨?_, hl.2⟩
      exact hs ▸ (h.cert.edge hu (hcc ▸ hA)).resolve_left fun hlc => hl.2 (hlc ▸ hX)
  · rw [ht.start] at hs
    exact h.cert.start hs hl.1

theorem neat : g'.Neat fun m l => A m l ∧ ¬ X l := ⟨ht.sound h, ht.shaped h, ht.cert h⟩

end Thins

/-! ## Orphans -/

theorem ClearsAll.old {x : Node} (h : ClearsAll g g' l) (hx : g'.node? n = some x) :
    n ∉ l ∧ g.node? n = some x := by
  rw [h.node?] at hx
  split at hx
  · cases hx
  · next hn => exact ⟨hn, hx⟩

theorem ClearsAll.thins (hc : ClearsAll g g' l) (h : g.Coherent) (hl : ∀ n ∈ l, g.Idle n) :
    Thins g g' (· ∈ l) := by
  have hin : ∀ {n}, g.incoming n ≠ [] ∨ g.outgoing n ≠ [] → n ∉ l := by
    intro n hn hm
    obtain ⟨⟨-, hi, ho⟩, -⟩ := hl n hm
    exact hn.elim (absurd hi) (absurd ho)
  refine ⟨h.of_same hc.toSameWires fun n hn hk => ?_, hc.start, fun {n} hn => ?_, hc.old,
    fun hn => by rw [hc.node?, if_neg hn], fun _ => hc.outgoing _,
    fun _ => by simp only [outKinds, hc.outgoing, hc.edge?], fun _ => by
    rw [inDegree, hc.incoming, inDegree],
    fun _ _ => ⟨hc.incoming _, fun _ _ => hc.edge? _⟩, fun hd => Or.inl ((hc.edge? _).symm.trans hd),
    fun _ _ hr => Relation.ReflTransGen.mono ?_ _ _ hr⟩
  · rwa [kindIs, kind?_congr ((hc.node? n).trans (if_neg (hin hn)))]
  · obtain ⟨⟨hp, hi, -⟩, hs⟩ := hl n hn
    exact ⟨hp, hs, .inr (by rw [inDegree, hi]; rfl)⟩
  · rintro u v ⟨e, d, he, hd⟩
    exact ⟨e, d, (hc.edge? e).trans he, hd⟩

theorem Neat.idle_of_orphan (h : g.Neat A) (hn : n ∈ g.orphans) : g.Idle n := by
  obtain ⟨hp, hs, hd⟩ := mem_orphans.1 hn
  obtain ⟨k, hk, hkp⟩ := kindIs_iff.1 hp
  obtain ⟨x, hx, rfl⟩ := kind?_eq_some.1 hk
  have hc : x.kind.isControl = true := by
    revert hkp
    cases x.kind <;> first | exact fun _ => rfl | exact nofun
  rcases (h.sound.node hx).reached hc hd with hst | hm | ⟨-, ho⟩
  · exact absurd hst hs
  · simp [owe] at hm
  · exact ⟨⟨hp, List.length_eq_zero_iff.1 hd, ho⟩, hs⟩

theorem Neat.shake (h : g.Neat A) : (g.orphans.foldl removeNode g).Neat
    (fun m l => A m l ∧ l ∉ g.orphans) ∧
    (g.orphans.foldl removeNode g).Tight ∧ (g.orphans.foldl removeNode g).start = g.start := by
  have hc : ClearsAll g (g.orphans.foldl removeNode g) g.orphans := removeAll_clears fun n hn => by
    obtain ⟨⟨-, hi, ho⟩, -⟩ := h.idle_of_orphan hn
    exact ⟨ho, hi⟩
  refine ⟨(hc.thins h.sound.coherent fun n => h.idle_of_orphan).neat h, fun n hp hd => ?_, hc.start⟩
  by_contra hs
  obtain ⟨k, hk, hkp⟩ := kindIs_iff.1 hp
  obtain ⟨x, hx, rfl⟩ := kind?_eq_some.1 hk
  obtain ⟨hn, hx⟩ := hc.old hx
  refine hn (mem_orphans.2 ⟨by rw [kindIs_of_kind? (kind?_of_node? hx), hkp], hc.start ▸ hs, ?_⟩)
  rwa [inDegree, hc.incoming] at hd

/-! ## Begins -/

/-- The begin `b` stands between two nodes, and separates nothing. -/
structure Between (g : Graph) (b : NodeId) (e e' : EdgeId) (d d' : Edge) : Prop
    extends strung : Strung g b e e' d d' where
  passage : g.Passage b
  plain : g.kindIs d.source NodeKind.isControlSplit = false
  next : g.kindIs d'.target NodeKind.isMerge = false
  entered : g.incoming d'.target = [e']
  ne : e ≠ e'

section

variable (hf : g.Folds g' b e e' d d')
include hf

theorem Folds.enters (hb : g.Between b e e' d d') (n : NodeId) :
    g'.incoming n = if n = b then [] else if n = d'.target then [e] else g.incoming n := by
  rw [hf.incoming]
  split
  · rfl
  · split
    · next h => simp [h, hb.entered]
    · rfl

theorem Folds.inDegree (hb : g.Between b e e' d d') (hn : n ≠ b) : g'.inDegree n = g.inDegree n := by
  simp only [Graph.inDegree, hf.enters hb, if_neg hn]
  split
  · next ht => rw [ht, hb.entered]; rfl
  · rfl

end

section Fold

variable (h : g.Neat A) (hb : g.Between b e e' d d') (hf : g.Folds g' b e e' d d')
include h hb

theorem Between.other (hy : g.edge? x = some y) (h1 : x ≠ e) (h2 : x ≠ e') :
    y.source ≠ b ∧ y.target ≠ b ∧ y.target ≠ d'.target := by
  have hl := h.sound.coherent.linked
  refine ⟨(hb.strung.other hl hy).1 h2, (hb.strung.other hl hy).2 h1, fun ht => h2 ?_⟩
  have := hl.incoming.2 ⟨y, hy, ht⟩
  rwa [hb.entered, List.mem_singleton] at this

theorem Between.before : d.source ≠ b := hb.source_ne h.sound.coherent.linked hb.ne

theorem Between.after : d'.target ≠ b := hb.target_ne h.sound.coherent.linked hb.ne

include hf

theorem Folds.coherent : g'.Coherent := by
  have hc := h.sound.coherent
  have hlive : ∀ {n p}, g.kindIs n p = true → n ≠ b → g'.kindIs n p = true := by
    intro n p hp hn
    rw [← hp, kindIs, hf.kind? hn, kindIs]
  refine .of_linked hf.linked (fun {x y} hy => ?_) fun {x y} hy => ?_
  · rcases hf.old_edge hy with ⟨rfl, -, rfl⟩ | ⟨h1, h2, hy⟩
    · exact hlive (n := d.source) (hc.source hb.edge) (hb.before h)
    · exact hlive (hc.source hy) (hb.other h hy h1 h2).1
  · rcases hf.old_edge hy with ⟨rfl, -, rfl⟩ | ⟨h1, h2, hy⟩
    · exact hlive (n := d'.target) (hc.target hb.edge') (hb.after h)
    · exact hlive (hc.target hy) (hb.other h hy h1 h2).2.1

theorem Folds.reach {s : NodeId} (hs : s ≠ b) (hr : g.Reach s n) :
    g'.Reach s (if n = b then d.source else n) := by
  induction hr with
  | refl =>
    rw [if_neg hs]
    exact .refl
  | @tail y z _ hstep ih =>
    obtain ⟨x, c, hx, rfl, rfl⟩ := hstep
    by_cases hxe : x = e
    · subst hxe
      rw [hb.edge, Option.some.injEq] at hx
      subst hx
      rw [if_pos hb.target]
      rwa [if_neg (hb.before h)] at ih
    by_cases hxe' : x = e'
    · subst hxe'
      rw [hb.edge', Option.some.injEq] at hx
      subst hx
      rw [if_pos hb.source] at ih
      rw [if_neg (hb.after h)]
      exact ih.tail ⟨e, _, hf.moved hb.ne, rfl, rfl⟩
    · obtain ⟨h1, h2, -⟩ := hb.other h hx hxe hxe'
      rw [if_neg h1] at ih
      rw [if_neg h2]
      exact ih.tail ⟨x, c, hf.other hx hxe hxe', rfl, rfl⟩

theorem Folds.thins : Thins g g' (· = b) := by
  have hc := h.sound.coherent
  have hmoved : ∀ {x y}, g.edge? x = some y → y.source ≠ b →
      g'.edge? x = some (if x = e then { d with target := d'.target } else y) := by
    intro x y hy hs
    have hx' : x ≠ e' := by
      rintro rfl
      exact hs (Option.some.inj (hb.edge'.symm.trans hy) ▸ hb.source)
    rw [hf.edge?, if_neg hx', hy]
    split <;> rfl
  refine ⟨hf.coherent h hb, hf.start, ?_, hf.old, fun hn => by rw [hf.node?, if_neg hn],
    fun hn => by rw [hf.outgoing, if_neg hn], fun {n} hn => ?_, hf.inDegree hb, fun {m} hn hm => ?_,
    fun {x y} hy => ?_, fun {s n} hs hn hr => ?_⟩
  · rintro _ rfl
    exact ⟨kindIs_of_kind? hb.passage.1, hb.passage.2, .inl hb.passage.1⟩
  · rw [outKinds, outKinds, hf.outgoing, if_neg hn]
    refine List.filterMap_congr fun x hx => ?_
    obtain ⟨y, hy, rfl⟩ := hc.outgoing.1 hx
    rw [hmoved hy hn, hy]
    split
    · next hxe =>
      rw [hxe, hb.edge, Option.some.injEq] at hy
      subst hy
      rfl
    · rfl
  · -- neither edge of the begin leads to a merge
    have hmt : m ≠ d'.target := by
      rintro rfl
      rw [hb.next] at hm
      cases hm
    refine ⟨by rw [hf.enters hb, if_neg hn, if_neg hmt], fun x hx => ?_⟩
    obtain ⟨y, hy, rfl⟩ := hc.incoming.1 hx
    refine (hf.other hy ?_ ?_).trans hy.symm
    · rintro rfl
      exact hn (Option.some.inj (hb.edge.symm.trans hy) ▸ hb.target)
    · rintro rfl
      exact hmt (Option.some.inj (hb.edge'.symm.trans hy) ▸ rfl)
  · rcases hf.old_edge hy with ⟨rfl, -, rfl⟩ | ⟨-, -, hy⟩
    · exact Or.inr ⟨hb.plain, x, e', d, d', hb.edge, hb.edge', rfl, hb.target,
        hb.target.trans hb.source.symm, rfl⟩
    · exact .inl hy
  · have := hf.reach h hb hs hr
    rwa [if_neg hn] at this

end Fold

theorem map_successorEdges (n : NodeId) : (g.successorEdges n).map (·.2.kind) = g.outKinds n := by
  rw [successorEdges, outKinds, List.map_filterMap]
  refine List.filterMap_congr fun e _ => ?_
  cases g.edge? e <;> rfl

section

variable (h : g.Neat A)
include h

theorem Neat.goesOn (hk : g.kind? b = some .begin) : g.Vacant b ∨ g.outDegree b = 1 := by
  rcases h.shaped.exits hk rfl with ho | ho | ho | ho
  · exact ho.elim
  · cases ho
  · exact .inl ho.1
  · refine .inr ?_
    rw [outDegree, ← h.sound.coherent.linked.map_successorEdges, List.length_map,
      ← List.length_map (·.2.kind), map_successorEdges, ho]
    rfl

theorem Neat.foldable : g.Foldable := by
  have hc := h.sound.coherent
  refine ⟨hc.linked, fun hd => ⟨contains_of_kindIs (hc.source hd), contains_of_kindIs (hc.target hd)⟩,
    fun {n} hk => ⟨h.shaped.single hk rfl, ?_⟩⟩
  rcases h.goesOn hk with ⟨-, -, ho⟩ | ho
  · simp [outDegree, ho]
  · exact ho.le

theorem Neat.not_self (hb : g.Passage b) (hd : g.edge? e = some d)
    (hin : g.incoming b = [e]) : d.source ≠ b := by
  intro hsb
  have hav : ∀ {s n}, s ≠ b → g.Reach s n → n ≠ b := by
    intro s n hsn hr
    induction hr with
    | refl => exact hsn
    | @tail y z _ hstep ih =>
      obtain ⟨x, c, hx, rfl, rfl⟩ := hstep
      intro hz
      have := h.sound.coherent.incoming.2 ⟨c, hx, hz⟩
      rw [hin, List.mem_singleton] at this
      subst this
      rw [hd, Option.some.injEq] at hx
      exact ih (hx ▸ hsb)
  rcases h.shaped.rooted hb.1 rfl with ⟨-, hi, -⟩ | ⟨s, hst, hr⟩ | ⟨x, hx, -⟩
  · rw [hin] at hi
    cases hi
  · exact hav (fun hsb => hb.2 (hsb ▸ hst)) hr rfl
  · cases hx

theorem Neat.between (hb : g.Passage b) (hs : g.Strung b e e' d d')
    (hplain : g.kindIs d.source NodeKind.isControlSplit = false) : g.Between b e e' d d' := by
  have hbefore := h.not_self hb hs.edge hs.incoming
  have hmem : e' ∈ g.incoming d'.target := h.sound.coherent.incoming.2 ⟨d', hs.edge', rfl⟩
  obtain ⟨k, hkt, -⟩ := kindIs_iff.1 (h.sound.coherent.target hs.edge')
  -- Only ends lead to a merge, and `b` is none.
  have hnext : k.isMerge = false := by
    by_contra hm
    obtain ⟨i, j, hsk, -⟩ := h.shaped.joins hkt (by simpa using hm)
    have hmk : NodeKind.begin ∈ g.sourceKinds d'.target :=
      List.mem_filterMap.2 ⟨e', hmem, by rw [hs.edge', Option.bind_some, hs.source, hb.1]⟩
    rw [hsk, List.mem_append, List.mem_replicate, List.mem_replicate] at hmk
    rcases hmk with ⟨-, hmk⟩ | ⟨-, hmk⟩ <;> cases hmk
  have hone : g.incoming d'.target = [e'] := by
    have hle := h.shaped.single hkt hnext
    rw [inDegree] at hle
    rcases hi : g.incoming d'.target with _ | ⟨x, _ | ⟨y, l⟩⟩
    · rw [hi] at hmem
      cases hmem
    · rw [hi, List.mem_singleton] at hmem
      rw [hmem]
    · rw [hi] at hle
      simp at hle
  refine ⟨hs, hb, hplain, by rw [kindIs_of_kind? hkt, hnext], hone, ?_⟩
  rintro rfl
  exact hbefore (Option.some.inj (hs.edge.symm.trans hs.edge') ▸ hs.source)

theorem Neat.fold (ht : g.Tight) (hb : g.contains b = true → g.Passage b)
    (hg' : g.fold b = .ok g') : ∃ A', g'.Neat A' ∧ g'.Tight := by
  obtain ⟨g1, h1, hcase⟩ := h.foldable.fold b
  obtain rfl := Except.ok.inj (h1.symm.trans hg')
  rcases hcase with ⟨rfl, -⟩ | ⟨hlive, e, e', d, d', hs, hplain, hf⟩
  · exact ⟨A, h, ht⟩
  · have hthins := hf.thins h (h.between (hb hlive) hs hplain)
    exact ⟨_, hthins.neat h, hthins.tight ht⟩

theorem tidy_good : ∃ g' A', g.tidy = .ok g' ∧ g'.Neat A' ∧ g'.Tight ∧
    g'.start = g.start ∧ ∀ n, g'.Settled n := by
  obtain ⟨h1, ht1, hs1⟩ := h.shake
  have hkeep : ∀ {g g' : Graph} {b}, (∃ A, g.Neat A ∧ g.Tight) → (g.contains b = true → g.Passage b) →
      g.fold b = .ok g' → ∃ A, g'.Neat A ∧ g'.Tight := by
    rintro g g' b ⟨A, h, ht⟩
    exact h.fold ht
  obtain ⟨g', hg', ⟨A', h', ht'⟩, hs, hset⟩ := foldAll_smooths (fun g => ∃ A, g.Neat A ∧ g.Tight) hkeep
    h1.foldable ⟨_, h1, ht1⟩ fun n hn _ => mem_begins.1 hn
  exact ⟨g', A', hg', h', ht', hs.start.trans hs1,
    fun n hp => hset n (.inl (mem_begins.2 (hs.passage hp))) hp⟩

/-! ## The check -/

/-- A neat and tight graph with a start passes the check. -/
theorem Neat.check (ht : g.Tight) (hs : g.start.isSome = true) : g.check = .ok () := by
  obtain ⟨s, hs⟩ := Option.isSome_iff_exists.1 hs
  obtain ⟨x, hx, hxk, hsnap⟩ := h.sound.start hs
  have hfault : g.fault? = none := by
    have hfilter : g.start.filter g.contains = some s := by
      rw [hs, Option.filter_some, if_pos (contains_of_kind? (kind?_of_node? hx))]
    have hcap : (g.snapshot? s).isNone = false := by
      rw [snapshot?, hx, Option.bind_some]
      rcases hsnap with hsnap | hm
      · simpa using hsnap
      · simp [owe] at hm
    simp only [fault?, hfilter, hcap]
    refine List.findSome?_eq_none_iff.2 ?_
    rintro ⟨n, y⟩ hy
    rw [mem_liveNodes] at hy
    have hplace : y.kind.isPlace = true → g.inDegree n = 0 → n = s := by
      intro hp hd
      have := ht n (by rw [kindIs_of_kind? (kind?_of_node? hy), hp]) hd
      rw [hs, Option.some.injEq] at this
      exact this.symm
    have h1 : snapshotFault? n y = none := by
      refine if_neg fun hc => ?_
      simp only [Bool.and_eq_true, Option.isNone_iff_eq_none] at hc
      rcases (h.sound.node hy).captured hc.1 hc.2 with ho | hm | ⟨hp, hd⟩
      · exact ho
      · simp [owe] at hm
      · obtain rfl := hplace hp hd
        rw [hx, Option.some.injEq] at hy
        rw [← hy, hxk] at hc
        cases hc.1
    have h2 : g.linkFault? n y = none := by
      unfold linkFault?
      split
      · next m hk =>
        obtain ⟨hm, -, -, hlen⟩ := (h.sound.node hy).phi hk
        rw [if_neg (by simp [hm]), if_neg]
        simpa [owe, Debt.missing, Debt.expected] using hlen
      · next m hk =>
        obtain ⟨i, hi⟩ := (h.sound.node hy).proxy hk
        rw [hi]
      · rfl
    have h3 : g.reachFault? s n y = none := by
      refine if_neg fun hc => ?_
      simp only [Bool.and_eq_true, decide_eq_true_eq] at hc
      rcases (h.sound.node hy).reached hc.1.1 hc.2 with hst | hm | ⟨hp, -⟩
      · rw [hs, Option.some.injEq] at hst
        exact hc.1.2 hst.symm
      · simp [owe] at hm
      · exact hc.1.2 (hplace hp hc.2)
    simp only [nodeFault?, h1, h2, h3]
    rfl
  rw [Graph.check, hfault]

end

end Graph

theorem Good.neat {g0 : Graph} {sc : Scope} {A : Labels} {w : Work}
    (h : Good (sc.atRoot g0) sc.blocks.size [] [] [] A w) : w.graph.Neat A := by
  have hidle : ∀ {n}, (sc.atRoot g0).Open w.table n → w.graph.Idle n := by
    rintro n (hn | hn)
    · exact h.inv.open_idle hn
    · exact hn.elim
  refine ⟨h.inv.sound.adjust nofun ?_ (fun _ _ hm => by simp [owe] at hm) (fun _ _ => rfl)
    (fun _ hm => by simp [owe] at hm), h.shaped.adjust nofun ?_ (fun _ hm => by cases hm)
    h.inv.sound.coherent fun _ hx => hx, h.cert⟩
  · rintro n x hx - - (ho | hb)
    · obtain ⟨⟨hp, hi, -⟩, -⟩ := hidle ho
      rw [Graph.kindIs_of_kind? (Graph.kind?_of_node? hx)] at hp
      exact .inr (.inr ⟨hp, by rw [Graph.inDegree, hi]; rfl⟩)
    · simp [owe] at hb
  · rintro n k - - (ho | hm)
    · exact .inr (.inr (.inl (hidle ho)))
    · cases hm

end StackLift
