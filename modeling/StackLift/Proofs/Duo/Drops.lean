import StackLift.Proofs.Depths
import StackLift.Proofs.Duo.Exits
import StackLift.Proofs.Trim

/-!
# Back edges of two builds

A back edge that leaves a local undefined drops its phi. If the local is live, both builds drop it, with
the same carriers (`Pairing.Twins.sameDead`); if not, the full build drops a ghost, and whatever
carries a ghost has no twin. So what can be dropped in the full build can be dropped in the pruned one,
and what is left are twins again (`Joint.dropped`).
-/
namespace StackLift

variable {target : BlockId} {found work : List NodeId} {m n : NodeId} {S : NodeId → Prop} {p : Position}

/-! ## Carriers -/

namespace Graph

variable {g : Graph} {roots dead : List NodeId} {value : NodeId}

/-- `dead` are the roots and all that carries them. -/
structure Carries (g : Graph) (roots dead : List NodeId) : Prop where
  found : ∀ n ∈ roots, n ∈ dead
  closed : ∀ i ∈ dead, ∀ n x, g.node? n = some x → i ∈ x.inputs → n ∈ dead
  least : ∀ P : NodeId → Prop, (∀ n ∈ roots, P n) →
    (∀ {i n x}, i ∈ dead → P i → g.node? n = some x → i ∈ x.inputs → x.kind.isCarrier = true → P n) →
    ∀ n ∈ dead, P n

theorem Carries.nil : g.Carries [] [] := ⟨by simp, by simp, by simp⟩

theorem carries_of_carriers (h : g.carriers roots = .ok dead) : g.Carries roots dead := by
  obtain ⟨hclosed, hmem⟩ := carriers_spec h
  refine ⟨fun n hn => (hmem n).2 (.root hn), hclosed, fun P hr hP n hn => ?_⟩
  rw [hmem] at hn
  induction hn with
  | root hn => exact hr _ hn
  | step hi hx hin hk ih => exact hP ((hmem _).2 hi) ih hx hin hk

theorem carriers_ok (hroots : ∀ n ∈ roots, S n)
    (hS : ∀ {i n x}, S i → g.node? n = some x → i ∈ x.inputs → n ∈ roots ∨
      (x.kind.isCarrier = true ∧ S n)) :
    ∃ dead, g.carriers roots = .ok dead := by
  cases h : g.carriers roots with
  | ok dead => exact ⟨dead, rfl⟩
  | error user =>
    obtain ⟨hnew, i, x, hi, hx, hin, hk⟩ := carriers_error h
    have hin' : S i := by
      clear hx hin
      induction hi with
      | root hr => exact hroots _ hr
      | step _ hy hj _ ih => exact (hS ih hy hj).elim (hroots _) (·.2)
    exact absurd ((hS hin' hx hin).resolve_left hnew).1 (by simp [hk])

end Graph

namespace Pairing

variable {P : Pairing} {g h : Graph} {roots roots' dead dead' : List NodeId}

/-- Phis that go in both builds: what has a twin goes with it. -/
structure SameRoots (P : Pairing) (roots roots' : List NodeId) : Prop where
  twin : ∀ m ∈ roots', ∃ n ∈ roots, P.twin n m
  back : ∀ {n m}, n ∈ roots → P.twin n m → m ∈ roots'
  data : ∀ n ∈ roots, P.data n

/-- The same is dropped in both builds, as far as it has twins. -/
structure SameDead (P : Pairing) (dead dead' : List NodeId) : Prop where
  iff : ∀ {n m}, P.twin n m → (n ∈ dead ↔ m ∈ dead')

section

variable (ht : P.Twins g h)
include ht

theorem Twins.user {i' : NodeId} {y : Node} (hy : h.node? m = some y) (hi : i' ∈ y.inputs) :
    ∃ n x i, P.twin n m ∧ g.node? n = some x ∧ x.kind.isCarrier = y.kind.isCarrier ∧ P.twin i i' ∧
      i ∈ x.inputs := by
  obtain ⟨n, hn⟩ := ht.sane.total (Graph.lt_nodeCount hy)
  obtain ⟨x, hx, hxy⟩ := optionRel_some_right (hy ▸ ht.nodes.node hn)
  obtain ⟨i, hix, hii⟩ := exists_of_forall₂_right hxy.inputs hi
  exact ⟨n, x, i, hn, hx, hxy.kind.isCarrier, hii, hix⟩

theorem Twins.input {i : NodeId} {x : Node} (hn : P.twin n m) (hx : g.node? n = some x)
    (hi : i ∈ x.inputs) : ∃ y i', h.node? m = some y ∧ P.twin i i' ∧ i' ∈ y.inputs := by
  obtain ⟨y, hy, hxy⟩ := optionRel_some_left (hx ▸ ht.nodes.node hn)
  obtain ⟨i', hiy, hii⟩ := exists_of_forall₂_left hxy.inputs hi
  exact ⟨y, i', hy, hii, hiy⟩

section

variable (hr : P.SameRoots roots roots') (hc : g.Carries roots dead)
include hr hc

theorem Twins.exists_dead
    (hc' : h.Carries roots' dead') (hm : m ∈ dead') : ∃ n ∈ dead, P.twin n m := by
  refine hc'.least (fun m => ∃ n ∈ dead, P.twin n m) (fun m hm => ?_) ?_ m hm
  · obtain ⟨n, hn, hnm⟩ := hr.twin m hm
    exact ⟨n, hc.found n hn, hnm⟩
  · rintro i m y - ⟨a, ha, hai⟩ hy hi -
    obtain ⟨n, x, b, hn, hx, -, hbi, hbx⟩ := ht.user hy hi
    obtain rfl := ht.sane.same hai hbi
    exact ⟨n, hc.closed a ha n x hx hbx, hn⟩

theorem Twins.sameDead (hc' : h.Carries roots' dead') : P.SameDead dead dead' := by
  refine ⟨fun {n m} hn => ⟨?_, ?_⟩⟩
  · intro hd
    refine hc.least (fun n => ∀ m, P.twin n m → m ∈ dead') (fun n hn m hnm => ?_) ?_ n hd m hn
    · exact hc'.found m (hr.back hn hnm)
    · intro i n x _ hP hx hi _ m hnm
      obtain ⟨y, i', hy, hii, hiy⟩ := ht.input hnm hx hi
      exact hc'.closed i' (hP i' hii) m y hy hiy
  · intro hd
    obtain ⟨a, ha, ham⟩ := ht.exists_dead hr hc hc' hd
    exact ht.sane.same ham hn ▸ ha

theorem Twins.carriers_ok : ∃ dead', h.carriers roots' = .ok dead' := by
  have hkind : ∀ n ∈ dead, n ∈ roots ∨ ∃ x, g.node? n = some x ∧ x.kind.isCarrier = true :=
    hc.least _ (fun n hn => .inl hn) fun _ _ hx _ hk => .inr ⟨_, hx, hk⟩
  refine Graph.carriers_ok (S := fun m => ∃ n ∈ dead, P.twin n m) (fun m hm => ?_) ?_
  · obtain ⟨n, hn, hnm⟩ := hr.twin m hm
    exact ⟨n, hc.found n hn, hnm⟩
  · rintro i m y ⟨a, ha, hai⟩ hy hi
    obtain ⟨n, x, b, hn, hx, hk, hbi, hbx⟩ := ht.user hy hi
    obtain rfl := ht.sane.same hai hbi
    have hd := hc.closed a ha n x hx hbx
    rcases hkind n hd with hroot | ⟨x', hx', hk'⟩
    · exact .inl (hr.back hroot hn)
    · rw [hx] at hx'
      cases hx'
      exact .inr ⟨hk ▸ hk', n, hd, hn⟩

theorem Twins.free : ∀ n ∈ dead, ∀ m, ¬ P.control n m := by
  have hdata : ∀ n ∈ dead, P.data n := by
    refine hc.least _ hr.data fun _ _ hx _ hk => ht.nodes.data (Graph.kind?_of_node? hx) ?_
    revert hk
    generalize Node.kind _ = k
    cases k <;> simp [NodeKind.isCarrier, NodeKind.isControl, NodeKind.toClass, NodeClass.isControl]
  exact fun n hn => (ht.sane.data (hdata n hn)).2

end

end

/-! ## Trimming -/

section Trim

variable {f k : Frame} {s t : Snapshot} (hd : P.SameDead dead dead')

include hd

theorem SameLocal.filter {o o' : Option Value} (ho : P.SameLocal o o') :
    P.SameLocal (o.filter (·.node ∉ dead)) (o'.filter (·.node ∉ dead')) := by
  cases ho with
  | none => exact .none
  | lost h =>
    rename_i v
    by_cases hv : v.node ∈ dead
    · simpa [Option.filter, hv] using SameLocal.none
    · simpa [Option.filter, hv] using SameLocal.lost h
  | both h =>
    rename_i v v'
    have hiff := hd.iff h.node
    by_cases hv : v.node ∈ dead
    · simpa [Option.filter, hv, hiff.1 hv] using SameLocal.none
    · have hv' : v'.node ∉ dead' := fun h => hv (hiff.2 h)
      simpa [Option.filter, hv, hv'] using SameLocal.both h

theorem SameFrame.trim (h : P.SameFrame f k) : P.SameFrame (f.trim dead) (k.trim dead') :=
  ⟨List.forall₂_map_left_iff.2 (List.forall₂_map_right_iff.2
    (h.locals.imp fun _ _ h => h.filter hd)), h.stack,
    h.monitors⟩

theorem SameSnapshot.trim (h : P.SameSnapshot s t) : P.SameSnapshot (s.trim dead) (t.trim dead') := by
  have hact : ∀ a b, P.SameActivation a b → P.SameActivation (a.trim dead) (b.trim dead') := fun a b h =>
    ⟨h.method, h.position, h.frame.trim hd⟩
  exact ⟨hact _ _ h.inner,
    List.forall₂_map_left_iff.2 (List.forall₂_map_right_iff.2 (h.callers.imp hact))⟩

theorem Waits.trim {live : Nat → Bool} {node : NodeId} {s : Prop} (h : P.Waits live node s f k) :
    P.Waits live node s (f.trim dead) (k.trim dead') := by
  have hslot : ∀ x v, k.local? x = some v → v.node ∈ dead' → ∀ u, f.local? x = some u →
    u.node ∈ dead := by
    intro x v hv hvd u hu
    have := h.same.local? x
    rw [hv, hu] at this
    cases this with
    | both h => exact (hd.iff h.node).2 hvd
  refine ⟨h.same.trim hd, fun x hx hk => ?_, fun x v hv => ?_, fun x v hf hk => ?_, fun hs v hv => ?_⟩
  · rw [Frame.local?_trim] at hk ⊢
    cases hkx : k.local? x with
    | none => rw [h.agree x hx hkx, Option.filter_none]
    | some v =>
      rw [hkx] at hk
      have hvd : v.node ∈ dead' := by simpa [Option.filter] using hk
      cases hfx : f.local? x with
      | none => rfl
      | some u => simp [Option.filter, hslot x v hkx hvd u hfx]
  · rw [Frame.local?_trim] at hv
    exact h.live x v (Option.eq_some_of_filter_eq_some hv)
  · rw [Frame.local?_trim] at hf hk
    have hfx := Option.eq_some_of_filter_eq_some hf
    refine h.shed x v hfx ?_
    cases hkx : k.local? x with
    | none => rfl
    | some u =>
      rw [hkx] at hk
      have hud : u.node ∈ dead' := by simpa [Option.filter] using hk
      have hvd := hslot x u hkx hud v hfx
      rw [hfx] at hf
      simp [Option.filter, hvd] at hf
  · exact h.data hs v (Frame.mem_values_of_trim hv)

end Trim

/-! ## Values of frames -/

section Values

variable {f k : Frame} {v : Value}

theorem SameFrame.pinned (h : P.SameFrame f k) : List.Forall₂ P.SameValue f.pinned k.pinned :=
  List.rel_append (List.rel_reverse h.stack) (List.rel_reverse h.monitors)

theorem SameFrame.exists_value (h : P.SameFrame f k) (hv : v ∈ k.values) :
    ∃ u ∈ f.values, P.SameValue u v := by
  rcases List.mem_append.1 hv with hv | hv
  · obtain ⟨o, ho, hov⟩ := List.mem_filterMap.1 hv
    obtain ⟨o', ho', hoo⟩ := exists_of_forall₂_right h.locals ho
    cases hov
    cases hoo with
    | both h => exact ⟨_, List.mem_append_left _ (List.mem_filterMap.2 ⟨_, ho', rfl⟩), h⟩
  · obtain ⟨u, hu, huv⟩ := exists_of_forall₂_right h.pinned hv
    exact ⟨u, List.mem_append_right _ hu, huv⟩

theorem SameFrame.loose (hd : P.SameDead dead dead') (h : P.SameFrame f k)
    (hf : f.Loose dead) : k.Loose dead' := by
  intro v hv hdv
  obtain ⟨u, hu, huv⟩ := exists_of_forall₂_right h.pinned hv
  exact hf u hu ((hd.iff huv.node).2 hdv)

end Values

end Pairing

namespace Duo

open BuildM

variable {busy : Option BlockId} {D : Duo busy} {P : Pairing} {w v w' v' : Work}
  {dead dead' : List NodeId} {hf hk f k : Frame}

/-! ## What both builds drop -/

theorem Joint.droppable (hj : D.Joint P w v) (hd : P.SameDead dead dead')
    (hh : P.SameFrame hf hk) (hi : P.SameFrame f k) (h : Droppable w hf f dead) :
    Droppable v hk k dead' := by
  refine ⟨fun x hx hdx => ?_, hh.loose hd h.header, fun {b e' k'} he' hk' => ?_, fun {m y t} hy ht => ?_⟩
  · obtain ⟨u, hu, hux⟩ := hi.exists_value hx
    exact h.incoming u hu ((hd.iff hux.node).2 hdx)
  · obtain ⟨e, he, hee⟩ := optionRel_some_right (he' ▸ hj.tables.entry b)
    obtain ⟨f', hf', hw⟩ := optionRel_some_right (hk' ▸ hee.frame)
    exact hw.same.loose hd (h.entry he hf')
  · obtain ⟨n, hn⟩ := hj.twins.sane.total (Graph.lt_nodeCount hy)
    obtain ⟨x, hx, hxy⟩ := optionRel_some_right (hy ▸ hj.twins.nodes.node hn)
    obtain ⟨s, hs, hst⟩ := optionRel_some_right (ht ▸ hxy.snapshot)
    intro a ha
    have hchain : List.Forall₂ P.SameActivation s.chain t.chain := .cons hst.inner hst.callers
    obtain ⟨c, hc, hca⟩ := exists_of_forall₂_right hchain ha
    exact hca.frame.loose hd (h.snapshot hx hs c hc)

theorem twins_dropped {g h g' h' : Graph} (ht : P.Twins g h) (hd : P.SameDead dead dead')
    (hg : g.Strips g' dead) (hh : h.Strips h' dead') : P.Twins g' h' := by
  refine ⟨?_, ?_, ht.wires.of_same hg.wires hh.wires, hg.counted ht.counted, hh.counted ht.counted'⟩
  · rw [hg.nodeCount, hh.nodeCount]
    exact ht.sane
  · refine ht.nodes.of_nodes (fun n k hk => ?_) fun {n m} hn => ?_
    · obtain ⟨x, hx, rfl⟩ := Graph.kind?_eq_some.1 hk
      rw [hg.node?] at hx
      split at hx
      · cases hx
      · obtain ⟨y, hy, rfl⟩ := Option.map_eq_some_iff.1 hx
        show g.kind? n = some y.kind
        exact Graph.kind?_of_node? hy
    · rw [hg.node?, hh.node?]
      by_cases hnd : n ∈ dead
      · rw [if_pos hnd, if_pos ((hd.iff hn).1 hnd)]
        exact .none
      · rw [if_neg hnd, if_neg fun h => hnd ((hd.iff hn).2 h)]
        exact optionRel_map (ht.nodes.node hn) fun x y hxy => ⟨hxy.kind, hxy.inputs,
          optionRel_map hxy.snapshot fun _ _ h => h.trim hd⟩

theorem SameEntry.dropped {b : BlockId} {e e' x x' : Entry} (hd : P.SameDead dead dead')
    (h : D.SameEntry P b e e') (hx : e.Without dead x) (hx' : e'.Without dead' x') :
    D.SameEntry P b x x' := by
  refine ⟨hx.node ▸ hx'.node ▸ h.node, hx.parsed.trans (h.parsed.trans hx'.parsed.symm), fun hs => ?_, ?_⟩
  · rw [hx.node]
    exact h.reached (hx.isSome ▸ hs)
  · rw [hx.node, hx.parsed]
    cases hxf : x.frame with
    | none =>
      have hnone : x'.frame = none := by
        rw [← Option.not_isSome_iff_eq_none, hx'.isSome, ← optionRel_isSome h.frame, ← hx.isSome, hxf]
        simp
      rw [hnone]
      exact .none
    | some f =>
      obtain ⟨f0, hf0, hff⟩ := hx.exists_frame hxf
      obtain ⟨k0, hk0, hw⟩ := optionRel_some_left (hf0 ▸ h.frame)
      obtain ⟨k, hkf, hkk⟩ := optionRel_some_left (hk0 ▸ hx'.frame)
      obtain ⟨-, rfl⟩ := Frame.withoutLocals?_eq_some.1 hff
      obtain ⟨-, rfl⟩ := Frame.withoutLocals?_eq_some.1 hkk
      rw [hkf]
      exact .some (hw.trim hd)

/-- Both builds are at the same place after they have dropped the same. -/
theorem Joint.dropped (hj : D.Joint P w v) (hd : P.SameDead dead dead')
    (h : Dropped w w' dead) (h' : Dropped v v' dead') : D.Joint P w' v' := by
  -- An entry without a frame was one before.
  have hold : ∀ {b e}, w'.table.slot? b = some e → e.frame = none →
      ∃ e0, w.table.slot? b = some e0 ∧ e0.frame = none ∧ e0.node = e.node := by
    intro b e he hn
    obtain ⟨e0, he0, hw⟩ := h.table.entry_inv he
    refine ⟨e0, he0, ?_, hw.node.symm⟩
    rw [← Option.not_isSome_iff_eq_none, ← hw.isSome, hn]
    simp
  refine ⟨twins_dropped hj.twins hd h.graph h'.graph, ?_, hj.callers, hj.hush, hj.hushLt, fun he hn => ?_,
    fun he hn => ?_, fun he hf hn hm heq => ?_, ?_, ?_⟩
  · have ht := hj.tables
    refine ⟨by rw [h.table.size, h'.table.size, ht.size], fun b => ?_, ?_, ?_, ?_, ?_⟩
    · cases he : w'.table.slot? b with
      | none =>
        have hnone : v'.table.slot? b = none := by
          by_contra hne
          obtain ⟨x', hx'⟩ := Option.ne_none_iff_exists'.1 hne
          obtain ⟨e', he', -⟩ := h'.table.entry_inv hx'
          obtain ⟨e0, he0, -⟩ := optionRel_some_right (he' ▸ ht.entry b)
          obtain ⟨x, hx, -⟩ := h.table.entry_of he0
          rw [he] at hx
          cases hx
        rw [hnone]
        exact .none
      | some x =>
        obtain ⟨e0, he0, hw⟩ := h.table.entry_inv he
        obtain ⟨e', he', hee⟩ := optionRel_some_left (he0 ▸ ht.entry b)
        obtain ⟨x', hx', hw'⟩ := h'.table.entry_of he'
        rw [hx']
        exact .some (hee.dropped hd hw hw')
    · rw [h.table.headers, h'.table.headers]
      exact ht.headers
    · rw [h.table.marks, h'.table.marks]
      exact ht.marks
    · rw [h.table.exits, h'.table.exits]
      exact ht.returned
    · rw [h.table.exits, h'.table.exits]
      exact ht.unwound
  · obtain ⟨e0, he0, hn0, hnode⟩ := hold he hn
    exact hnode ▸ hj.await he0 hn0
  · obtain ⟨e0, he0, hn0, -⟩ := hold he hn
    exact hj.header he0 hn0
  · obtain ⟨e0, he0, hn0, hnode⟩ := hold he hn
    obtain ⟨e1, he1, hn1, hnode1⟩ := hold hf hm
    exact hj.distinct he0 he1 hn0 hn1 (by rw [hnode, hnode1, heq])
  · rw [h.report, h'.report, hj.report]
  · rw [h.consulted, h'.consulted, hj.consulted]

theorem dropped_nil (w : Work) : Dropped w w [] := by
  have hsnap : ∀ s : Snapshot, s.trim [] = s :=
    fun s => Snapshot.trim_eq_self (by simp [Snapshot.refersTo])
  have hframe : ∀ f : Frame, f.withoutLocals? [] = some f := fun f =>
    Frame.withoutLocals?_eq_some.2 ⟨by simp [Frame.Loose], (Frame.trim_eq_self (by simp)).symm⟩
  refine ⟨⟨fun n => ?_, .refl _, rfl, id⟩, ⟨rfl, fun b => ?_, rfl, rfl, rfl⟩, rfl, rfl⟩
  · cases w.graph.node? n with
    | none => rfl
    | some x =>
      have hstrip : x.strip [] = x := by
        unfold Node.strip
        cases hs : x.snapshot with
        | none => rw [Option.map_none, ← hs]
        | some s => rw [Option.map_some, hsnap, ← hs]
      simp [hstrip]
  · cases w.table.slot? b with
    | none => exact .none
    | some e =>
      refine .some ⟨rfl, rfl, ?_⟩
      cases e.frame with
      | none => exact .none
      | some f => exact .some (hframe f)

/-! ## Lost locals -/

theorem mem_lostPhis : n ∈ lostPhis hf f ↔
    ∃ x phi, hf.local? x = some phi ∧ phi.node = n ∧ ∀ u, f.local? x = some u → u.kind ≠ phi.kind := by
  unfold lostPhis
  rw [List.mem_filterMap]
  constructor
  · rintro ⟨⟨o, o'⟩, hmem, heq⟩
    obtain ⟨x, hx⟩ := List.getElem?_of_mem hmem
    rw [Frame.getElem?_pairLocals] at hx
    obtain ⟨a, ha, hao⟩ := Option.map_eq_some_iff.1 hx
    cases hao
    cases o with
    | none => cases heq
    | some phi =>
      refine ⟨x, phi, by rw [Frame.local?, ha]; rfl, ?_⟩
      cases hfx : f.local? x with
      | none =>
        rw [hfx] at heq
        exact ⟨Option.some.inj heq, fun u hu => by cases hu⟩
      | some u =>
        rw [hfx] at heq
        simp only at heq
        split at heq
        · cases heq
        · next hk =>
          refine ⟨Option.some.inj heq, ?_⟩
          rintro u' ⟨⟩
          exact hk
  · rintro ⟨x, phi, hphi, rfl, hk⟩
    have hx : hf.locals[x]? = some (some phi) := Option.join_eq_some_iff.1 hphi
    refine ⟨(some phi, f.local? x), List.mem_of_getElem? (i := x) ?_, ?_⟩
    · rw [Frame.getElem?_pairLocals, hx]
      rfl
    · cases hfx : f.local? x with
      | none => rfl
      | some u => simp [hk u hfx]

variable {live : Nat → Bool} {node : NodeId}

theorem sameRoots {c d : Nat} (hs : P.Sane c d) (hh : P.Waits live node True hf hk)
    (hi : P.Matches (live · = true) f k) : P.SameRoots (lostPhis hf f) (lostPhis hk k) := by
  refine ⟨fun m hm => ?_, fun {n m} hn hnm => ?_, fun n hn => ?_⟩
  · obtain ⟨x, phi', hphi', rfl, hk'⟩ := mem_lostPhis.1 hm
    have hx := hh.live x phi' hphi'
    obtain ⟨phi, hphi, hsame⟩ := optionRel_some_right (hphi' ▸ hh.matches.rel hx)
    refine ⟨phi.node, mem_lostPhis.2 ⟨x, phi, hphi, rfl, fun u hu => ?_⟩, hsame.node⟩
    obtain ⟨u', hu', huu⟩ := optionRel_some_left (hu ▸ hi.rel hx)
    rw [huu.kind, hsame.kind]
    exact hk' u' hu'
  · obtain ⟨x, phi, hphi, rfl, hk'⟩ := mem_lostPhis.1 hn
    cases hkx : hk.local? x with
    | none =>
      -- Nobody has a ghost for a twin.
      have := (hh.shed x phi hphi hkx).resolve_right fun h => h.1 trivial
      exact absurd hnm ((hs.ghost this).2 m)
    | some phi' =>
      have hx := hh.live x phi' hkx
      obtain ⟨phi0, hphi0, hsame⟩ := optionRel_some_right (hkx ▸ hh.matches.rel hx)
      rw [hphi] at hphi0
      cases hphi0
      rw [hs.unique hnm hsame.node]
      refine mem_lostPhis.2 ⟨x, phi', hkx, rfl, fun u' hu' => ?_⟩
      obtain ⟨u, hu, huu⟩ := optionRel_some_right (hu' ▸ hi.rel hx)
      rw [← huu.kind, ← hsame.kind]
      exact hk' u hu
  · obtain ⟨x, phi, hphi, rfl, -⟩ := mem_lostPhis.1 hn
    exact hh.data trivial phi (Frame.mem_of_local? hphi)

/-- Locals that the back edge does not define go from both builds. -/
theorem follows_shedLocals (hj : D.Joint P w v) (hh : P.Waits live node True hf hk)
    (hi : P.Matches (live · = true) f k) :
    D.Follows P (shedLocals target hf f p) (shedLocals target hk k p) w v
      fun P' a _ b _ => P' = P ∧ P.Waits live node True a b := by
  unfold shedLocals
  have hr := sameRoots hj.twins.sane hh hi
  by_cases hl : (lostPhis hf f).isEmpty = true
  · have hl' : (lostPhis hk k).isEmpty = true := by
      refine List.isEmpty_iff.2 (List.eq_nil_iff_forall_not_mem.2 fun m hm => ?_)
      obtain ⟨n, hn, -⟩ := hr.twin m hm
      rw [List.isEmpty_iff.1 hl] at hn
      cases hn
    rw [if_pos hl, if_pos hl']
    exact follows_pure hj ⟨rfl, hh⟩
  rw [if_neg hl]
  intro a w' ha
  have hfree : ∀ dead, w.graph.carriers (lostPhis hf f) = .ok dead → ∀ n ∈ dead,
      w.graph.outgoing n = [] ∧ w.graph.incoming n = [] := fun dead hc n hn =>
    hj.twins.wires.idle (hj.twins.free hr (Graph.carries_of_carriers hc) n hn)
  have hfull : Ensures (fun _ => ¬ ∃ dead, w.graph.carriers (lostPhis hf f) = .ok dead ∧
    Droppable w hf f dead)
      (dropPhis target hf f (lostPhis hf f) p) D.full w _ := ensures_dropPhis (fun _ _ h => h) hfree
  unfold Ensures at hfull
  rw [ha] at hfull
  obtain ⟨dead, hc, hdrop, rfl, hdone⟩ := hfull
  have hcarry := Graph.carries_of_carriers hc
  by_cases hl' : (lostPhis hk k).isEmpty = true
  · -- The full build has dropped nothing but ghosts and what carries them.
    rw [if_pos hl']
    rw [List.isEmpty_iff.1 hl'] at hr
    have hiff := hj.twins.sameDead hr hcarry .nil
    refine ⟨hk, v, P, rfl, .refl P, hj.dropped hiff hdone (dropped_nil v), rfl, ?_⟩
    have htrim : hk.trim [] = hk := Frame.trim_eq_self (by simp)
    exact htrim ▸ hh.trim hiff
  · rw [if_neg hl']
    obtain ⟨dead', hc'⟩ := hj.twins.carriers_ok hr hcarry
    have hiff := hj.twins.sameDead hr hcarry (Graph.carries_of_carriers hc')
    have hfree' : ∀ d, v.graph.carriers (lostPhis hk k) = .ok d → ∀ m ∈ d,
        v.graph.outgoing m = [] ∧ v.graph.incoming m = [] := by
      intro d hd m hm
      obtain ⟨n, hn, hnm⟩ := hj.twins.exists_dead hr hcarry (Graph.carries_of_carriers hd) hm
      refine hj.twins.wires.idle' fun n' hn' => hj.twins.free hr hcarry n hn m ?_
      exact hj.twins.sane.same (hj.twins.sane.twin hn') hnm ▸ hn'
    have hpruned : Ensures (fun _ => ¬ ∃ dead, v.graph.carriers (lostPhis hk k) = .ok dead ∧
      Droppable v hk k dead)
        (dropPhis target hk k (lostPhis hk k) p) D.pruned v _ := ensures_dropPhis (fun _ _ h => h) hfree'
    unfold Ensures at hpruned
    cases hb : dropPhis target hk k (lostPhis hk k) p D.pruned v with
    | error e v' =>
      rw [hb] at hpruned
      exact absurd ⟨dead', hc', hj.droppable hiff hh.same hi.same hdrop⟩ hpruned
    | ok b v' =>
      rw [hb] at hpruned
      obtain ⟨d, hd, -, rfl, hdone'⟩ := hpruned
      rw [hc'] at hd
      cases hd
      exact ⟨_, v', P, rfl, .refl P, hj.dropped hiff hdone hdone', rfl, hh.trim hiff⟩

/-! ## Inputs of phis -/

/-- What a back edge brings to one slot. Where the pruned build has no phi, the full one has a ghost. -/
structure Brings (P : Pairing) (x y : Option Value × Option Value) : Prop where
  both : ∀ phi', y.1 = some phi' → (∃ phi, x.1 = some phi ∧ P.SameValue phi phi') ∧
    Option.Rel P.SameValue x.2 y.2
  ghost : y.1 = none → ∀ phi, x.1 = some phi → P.ghost phi.node

theorem Brings.mono {Q : Pairing} {x y : Option Value × Option Value} (h : Brings P x y) (hle : P.Le Q) :
    Brings Q x y := by
  refine ⟨fun phi' hy => ?_, fun hy phi hx => hle.ghost (h.ghost hy phi hx)⟩
  obtain ⟨⟨phi, hx, hs⟩, hr⟩ := h.both phi' hy
  exact ⟨⟨phi, hx, hs.mono hle⟩, optionRel_imp hr fun _ _ h => h.mono hle⟩

theorem brings_of_waits (hh : P.Waits live node True hf hk) (hi : P.Matches (live · = true) f k) :
    Along (fun _ => Brings P) 0 (hf.pairLocals f) (hk.pairLocals k) := by
  refine along_iff.2 ⟨?_, fun i x y hx hy => ?_⟩
  · simp [Frame.pairLocals, hh.same.length, hi.same.length]
  · rw [Frame.getElem?_pairLocals] at hx hy
    obtain ⟨a, ha, rfl⟩ := Option.map_eq_some_iff.1 hx
    obtain ⟨b, hb, rfl⟩ := Option.map_eq_some_iff.1 hy
    have hfi : hf.local? i = a := by rw [Frame.local?, ha]; rfl
    have hki : hk.local? i = b := by rw [Frame.local?, hb]; rfl
    refine ⟨fun phi' hb' => ?_, fun hb' phi ha' => ?_⟩
    · have hlive := hh.live i phi' (hki.trans hb')
      obtain ⟨phi, hphi, hs⟩ := optionRel_some_right ((hki.trans hb') ▸ hh.matches.rel hlive)
      exact ⟨⟨phi, hfi.symm.trans hphi, hs⟩, hi.rel hlive⟩
    · exact (hh.shed i phi (hfi.trans ha') (hki.trans hb')).resolve_right fun h => h.1 trivial

theorem follows_fillPinned {l l' r r' : List Value} (hj : D.Joint P w v)
    (hl : List.Forall₂ P.SameValue l l') (hr : List.Forall₂ P.SameValue r r') :
    D.Follows P (forIn (l.zip r) PUnit.unit fun x _ => do
        addPhiInput x.1.node x.2.node
        pure (ForInStep.yield PUnit.unit))
      (forIn (l'.zip r') PUnit.unit fun x _ => do
        addPhiInput x.1.node x.2.node
        pure (ForInStep.yield PUnit.unit)) w v fun _ _ _ _ _ => True := by
  refine follows_forIn (j := 0) (fun P _ (x y : Value × Value) => P.SameValue x.1 y.1 ∧
    P.SameValue x.2 y.2)
    (fun hle h => ⟨h.1.mono hle, h.2.mono hle⟩) (fun _ hj1 h => ?_) hj
      (along_of_forall₂ (forall₂_zip hl hr))
  refine (follows_addPhiInput hj1 h.1.node h.2.node).bind fun _ _ _ _ _ _ hj2 _ => ?_
  exact follows_pure hj2 ⟨rfl, rfl⟩

theorem follows_feedPhis (hj : D.Joint P w v) (hh : P.Waits live node True hf hk)
    (hi : P.Matches (live · = true) f k) :
    D.Follows P (feedPhis hf f) (feedPhis hk k) w v fun _ _ _ _ _ => True := by
  refine (follows_forIn (j := 0) (fun P _ x y => Brings P x y) (fun hle h => h.mono hle)
    (fun {P2 w2 v2 i x y} _ hj2 h => ?_) hj (brings_of_waits hh hi)).bind
    fun P3 _ w3 _ v3 hle3 hj3 _ => ?_
  · obtain ⟨x1, x2⟩ := x
    obtain ⟨y1, y2⟩ := y
    cases y1 with
    | none =>
      have hghost := h.ghost rfl
      cases x1 with
      | none => exact follows_pure hj2 ⟨rfl, rfl⟩
      | some phi =>
        cases x2 with
        | none => exact follows_pure hj2 ⟨rfl, rfl⟩
        | some u =>
          refine (follows_ghostInput hj2 (hghost phi rfl)).alone fun _ _ _ _ _ _ hj3 _ => ?_
          exact follows_pure hj3 ⟨rfl, rfl⟩
    | some phi' =>
      obtain ⟨⟨phi, hphi, hs⟩, hr⟩ := h.both phi' rfl
      cases hphi
      cases hr with
      | none => exact follows_pure hj2 ⟨rfl, rfl⟩
      | some hu =>
        refine (follows_addPhiInput hj2 hs.node hu.node).bind fun _ _ _ _ _ _ hj3 _ => ?_
        exact follows_pure hj3 ⟨rfl, rfl⟩
  refine (follows_fillPinned hj3 (List.rel_reverse (hh.mono hle3).same.stack)
    (List.rel_reverse (hi.mono hle3).same.stack)).bind fun P4 _ w4 _ v4 hle4 hj4 _ => ?_
  exact (follows_fillPinned hj4 (List.rel_reverse ((hh.mono hle3).mono hle4).same.monitors)
    (List.rel_reverse ((hi.mono hle3).mono hle4).same.monitors)).bind fun _ _ _ _ _ _ hj5 _ =>
    follows_pure hj5 trivial

theorem follows_fillPhis (hj : D.Joint P w v) (hh : P.Waits live node True hf hk)
    (hi : P.Matches (live · = true) f k) :
    D.Follows P (fillPhis target hf f p) (fillPhis target hk k p) w v
      fun P' a _ b _ => P'.Waits live node True a b := by
  have hcheck : hf.checkCompatible p f = hk.checkCompatible p k := hh.same.checkCompatible hi.same
  unfold fillPhis
  rw [hcheck]
  refine .chain (follows_liftExcept hj fun a ha => ⟨a, ha, ?_⟩)
  refine (follows_shedLocals hj hh hi).bind fun P1 a w1 b v1 _ hj1 h1 => ?_
  obtain ⟨rfl, hab⟩ := h1
  refine (follows_feedPhis hj1 hab hi).bind fun P2 _ w2 _ v2 hle2 hj2 _ => ?_
  exact follows_pure hj2 (hab.mono hle2)

theorem follows_addLoopEnd {D : Duo none} (hj : D.Joint P w v)
    (hb : (D.full.blocks.block target).isLoopHeader = true)
    (hi : P.Matches (D.live target · = true) f k) :
    D.Follows P (addLoopEnd target f p) (addLoopEnd target k p) w v fun P' n _ m _ => P'.control n m := by
  refine .chain (follows_entry hj fun e e' hee hslot _ => ?_)
  dsimp only
  rw [← hee.parsed]
  cases hparsed : e.parsed with
  | false => exact follows_throw_bind
  | true =>
    have hset : D.Settled target e.parsed := ⟨hparsed, hb, nofun⟩
    refine .chain (follows_demandRel hj hee.frame fun f0 k0 hw hef _ => ?_)
    have hreached : P.reached e.node := hee.reached (by rw [hef]; rfl)
    refine (follows_fillPhis hj (hw.loosen fun _ => hset) hi).bind fun P3 a w3 b v3 hle3 hj3 h3 => ?_
    have hnew : D.SameEntry P3 target ⟨e.node, some a, true⟩ ⟨e'.node, some b, true⟩ :=
      ⟨hle3.control hee.node, rfl, fun _ => hle3.reached hreached, .some (h3.loosen fun _ => trivial)⟩
    refine (follows_setEntry hj3 hnew rfl).bind fun P4 _ w4 _ v4 hle4 hj4 _ => ?_
    have hnode := hle4.control (hle3.control hee.node)
    refine (follows_addNode hj4 (.loopEnd (hj4.twins.sane.twin hnode)) .nil ?_).bind
      fun P5 n w5 m v5 hle5 hj5 h5 => ?_
    · rintro x ⟨⟩
    refine (follows_follow hj5 (h5.2.1 rfl) (hle5.control hnode)).bind fun P6 _ w6 _ v6 hle6 hj6 _ => ?_
    exact follows_pure hj6 (hle6.control (h5.2.1 rfl))

end Duo

end StackLift
