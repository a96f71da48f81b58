import StackLift.Proofs.BitSet
import StackLift.Proofs.Exits

/-!
# Edges out of a block

`resolveTarget` answers the node that an edge has to lead to, with the loop exits in front, and keeps
the frame that goes along. On it rest the branches of a split, jumps and exceptions.
-/
namespace StackLift

open BuildM
open Graph hiding addEdge addNode addPhiInput kindIs setSnapshot

theorem forall₂_and {α β : Type} {R : α → β → Prop} {S : β → Prop} {l : List α} {l' : List β}
    (h : List.Forall₂ R l l') (hS : ∀ b ∈ l', S b) : List.Forall₂ (fun a b => R a b ∧ S b) l l' := by
  induction h with
  | nil => exact .nil
  | cons hab _ ih =>
    exact .cons ⟨hab, hS _ (by simp)⟩ (ih fun b hb => hS b (List.mem_cons_of_mem _ hb))

theorem Frame.Rel.mem_right {R : Value → Value → Prop} {f f' : Frame} (h : f.Rel R f') :
    f.Rel (fun v v' => R v v' ∧ v' ∈ f'.values) f' := by
  refine ⟨?_, forall₂_and h.stack fun v hv => Frame.mem_values.2 (.inr (.inl hv)),
    forall₂_and h.monitors fun v hv => Frame.mem_values.2 (.inr (.inr hv))⟩
  refine (forall₂_and h.locals (S := fun o => ∀ v, o = some v → v ∈ f'.values) ?_).imp ?_
  · rintro o ho v rfl
    exact Frame.mem_values.2 (.inl ho)
  · rintro o o' ⟨hr, hm⟩
    cases hr with
    | none => exact .none
    | some hv => exact .some ⟨hv, hm _ rfl⟩

/-- The value `v'` stands for `v` after the exits of loops. -/
def CarriedAs (g : Graph) (v v' : Value) : Prop :=
  v'.kind = v.kind ∧ Carried g v.node v'.node

/-- The way to a target is there: `stop` waits for the edge, and the frame that goes along is still
there. -/
structure Sent (S : Scene) (P : NodeSet) (cur : Nat)
    (bare loose part : List NodeId) (A : Labels) (f : Frame) (w : Work) (stop : NodeId)
    (w' : Work) (A' : Labels) : Prop where
  good : Good S cur bare (stop :: loose) part A' w'
  evolves : Evolves S [] w w'
  agree : Agree S w A A'
  ready : Ready S part A' P w' stop
  fresh : w.graph.nodeCount ≤ stop.index
  backs : w'.graph.Backs (S.Open w'.table) f

section Routes

variable {E : Error → Prop} {sc : Scope} {S : Scene} {P : NodeSet} {cur : Nat}
  {bare loose part ss : List NodeId} {A A' : Labels} {w w' : Work}
  {source target : BlockId} {f : Frame} {p : Position} {stop a : NodeId} {k : NodeKind}
variable {I part' : List NodeId} {c : Option ExitChain} {f' g : Frame} {ks : List EdgeKind}
  {probability : Float} {q : Point} {Q : NodeId × Point → Work → Prop} {ek : EdgeKind} {n : NodeId}

/-- The exits of all loops that an edge leaves. -/
theorem exitLoops_good [S.Sure] (h : Good S cur bare loose part A w)
    (hl : Lifting S cur w.table source) (hP : ∀ l, S.base l → P l) (hf : Carries S P w f) :
    Ensures E (exitLoops source target f p) S w fun r w' => ∃ A',
      Good S cur bare (firsts r.2 ++ loose) (lasts r.2 ++ part) A' w' ∧ Extends S [] w w' ∧
        Agree S w A A' ∧ w'.table = w.table ∧ Carries S (past A' P r.2) w' r.1 ∧
        (∀ x ∈ r.2, Chained S part A' P w' x ∧ w.graph.nodeCount ≤ x.first.index ∧
          w.graph.nodeCount ≤ x.last.index) ∧ f.Rel (CarriedAs w'.graph) r.1 := by
  unfold exitLoops
  refine ensures_read_bind ?_
  refine (ensures_foldlM (fun rest r w' =>
    (∀ i ∈ rest, (S.blocks.block source).loops.contains i = true) ∧ ∃ A',
      Good S cur bare (firsts r.2 ++ loose) (lasts r.2 ++ part) A' w' ∧ Extends S [] w w' ∧
        Agree S w A A' ∧ w'.table = w.table ∧ Carries S (past A' P r.2) w' r.1 ∧
        (∀ x ∈ r.2, Chained S part A' P w' x ∧ w.graph.nodeCount ≤ x.first.index ∧
          w.graph.nodeCount ≤ x.last.index) ∧ f.Rel (CarriedAs w'.graph) r.1)
    ?_ ?_).mono fun r w' h' => h'.2
  · rintro i rest ⟨f1, c⟩ w1 ⟨hmem, A1, hgood, hext, hagree, ht, hcar, hch, hrel⟩
    have hcount := hext.grows.count
    obtain ⟨hd, hh, hby⟩ := S.charts.loops hl.lt (hmem i (by simp))
    obtain ⟨e, he, hfr, -⟩ := hl.header h.inv hby
    refine (exitLoop_good hgood hh (ht ▸ he) hfr hP hcar fun x hx => (hch x hx).1).mono
      fun r w2 h2 => ?_
    obtain ⟨A2, exit, hgood2, hext2, hagree2, ht2, hcar2, hch2, hrel2, hnew2, -⟩ := h2
    have hext12 : Extends S [] w w2 := by
      refine ((hext.weaken (by simp)).trans hext2).mono fun m hm => Or.inr (Or.inr ?_)
      obtain ⟨x, hx, rfl⟩ := List.mem_map.1 hm
      exact (hch x (Option.mem_toList.1 hx)).2.2
    refine ⟨fun j hj => hmem j (List.mem_cons_of_mem _ hj), A2, hgood2, hext12,
      hagree.trans hext.toEvolves hagree2, ht2.trans ht, hcar2, fun x hx => ⟨hch2 x hx, ?_, ?_⟩, ?_⟩
    · rcases (hnew2 x hx).2 with hge | ⟨y, hy, heq⟩
      · exact Nat.le_trans hcount hge
      · rw [← heq]
        exact (hch y hy).2.1
    · exact Nat.le_trans hcount (hnew2 x hx).1
    · -- a proxy of the new exit, or the value as it was
      have hboth : f.Rel (fun v v' => CarriedAs w1.graph v v' ∧ v' ∈ f1.values) f1 :=
        hrel.mem_right
      refine hboth.trans hrel2 fun u v v' hu hv => ⟨hv.kind.trans hu.1.1, ?_⟩
      exact (hu.1.2.mono hext2 (fun n x hx => (hgood.inv.sound.node hx).inputs)
        (hcar.backs v hu.2)).proxied hv
  · refine ⟨fun i hi => ?_, A, h, .refl _ _ _, .refl _ _ _, rfl, hf, by simp, ?_⟩
    · exact BitSet.contains_of_difference (BitSet.mem_toList.1 (List.mem_reverse.1 hi))
    · exact .refl (fun v => ⟨rfl, .here⟩) f

theorem prependExits_good (h : Good S cur bare (stop :: (firsts c ++ loose)) (lasts c ++ part) A w)
    (hc : ∀ x ∈ c, Chained S part A P w x)
    (hr : Ready S (lasts c ++ part) A (past A P c) w stop) (hne : ∀ x ∈ c, x.first ≠ stop) :
    Ensures E (prependExits c stop) S w fun n w' =>
      Good S cur bare (n :: loose) part A w' ∧ Extends S (stop :: lasts c) w w' ∧
        w'.table = w.table ∧ Ready S part A P w' n ∧ (c = none ∧ n = stop ∨ ∃ x ∈ c, n = x.first) := by
  cases c with
  | none => exact ensures_pure ⟨h, .refl _ _ _, rfl, hr, .inl ⟨rfl, rfl⟩⟩
  | some x =>
    have hx := hc x rfl
    obtain ⟨hd, hk⟩ := hx.kind
    unfold prependExits
    refine (addEdge_good h hx.firm_owe (by simp [lasts]) (L := firsts (some x) ++ loose)
      (hx.rooted.mono (by simp [firsts])) hk (by rintro ⟨⟩) hr (fun l hl => hl) ?_).bind
      fun _ w1 h1 => ensures_pure ?_
    · intro y hy
      exact List.mem_cons.1 hy
    · obtain ⟨hgood, hext, ht, y, hl⟩ := h1
      refine ⟨hgood.finish (k := .loopExit hd) ?_ ?_ (by simp), hext.weaken ?_, ht,
        hx.ready.link hl ht (hne x rfl), .inr ⟨x, rfl, rfl⟩⟩
      · rw [kind?_congr (hl.node? _), hk]
      · rw [hl.outKinds h.inv.sound.coherent, if_pos rfl, outKinds, hx.outgoing]
        rfl
      · intro y hy
        simp only [lasts, Option.toList_some, List.map_cons, List.map_nil, List.mem_cons] at hy ⊢
        tauto

/-- What waits behind the exits is sent on its way through them. -/
theorem prependExits_sent {w1 w2 : Work} {A1 A2 : Labels}
    (hext1 : Extends S [] w w1) (hagree1 : Agree S w A A1)
    (hgood1 : Good S cur bare (firsts c ++ loose) (lasts c ++ part) A1 w1)
    (hch1 : ∀ x ∈ c, Chained S part A1 P w1 x ∧ w.graph.nodeCount ≤ x.first.index ∧
      w.graph.nodeCount ≤ x.last.index)
    (hgood2 : Good S cur bare (stop :: (firsts c ++ loose)) (lasts c ++ part) A2 w2)
    (hev : Evolves S [] w1 w2) (hagree2 : Agree S w1 A1 A2)
    (hready : Ready S (lasts c ++ part) A2 (past A1 P c) w2 stop)
    (hfresh : w1.graph.nodeCount ≤ stop.index) (hback : w2.graph.Backs (S.Open w2.table) f) :
    Ensures E (prependExits c stop) S w2 fun n w3 =>
      Sent S P cur bare loose part A f w n w3 A2 ∧ Extends S (stop :: lasts c) w2 w3 := by
  have hch2 : ∀ x ∈ c, Chained S part A2 P w2 x := fun x hx =>
    (hch1 x hx).1.mono hgood1 hev hagree2 (by simp) (by simp)
  have hpast : past A2 P c = past A1 P c := by
    cases c with
    | none => rfl
    | some x =>
      have := (hch1 x rfl).1.firm
      exact hagree2 _ this.lt fun hO => absurd hO this.2.1
  refine (prependExits_good hgood2 hch2 (by rw [hpast]; exact hready) ?_).mono fun n w3 h3 => ?_
  · intro x hx heq
    have := contains_lt (hch1 x hx).1.ready.stub.contains
    rw [heq] at this
    exact absurd this (Nat.not_lt_of_le hfresh)
  · obtain ⟨hgood3, hext3, ht3, hready3, hn⟩ := h3
    have hev3 : Evolves S [] w w3 := by
      refine (((hext1.toEvolves.trans hev).weaken (by simp)).trans hext3.toEvolves).mono ?_
      intro m hm
      refine .inr (.inr ?_)
      rcases List.mem_cons.1 hm with rfl | hm
      · exact Nat.le_trans hext1.grows.count hfresh
      · obtain ⟨x, hx, rfl⟩ := List.mem_map.1 hm
        exact (hch1 x (Option.mem_toList.1 hx)).2.2
    refine ⟨⟨hgood3, hev3, hagree1.trans hext1.toEvolves hagree2, hready3, ?_, hext3.backs hback⟩,
      hext3⟩
    rcases hn with ⟨-, rfl⟩ | ⟨x, hx, rfl⟩
    · exact Nat.le_trans hext1.grows.count hfresh
    · exact (hch1 x hx).2.1

theorem past_of (hc : ∀ x ∈ c, Chained S part A P w x) : ∀ l, P l → past A P c l := by
  intro l hl
  cases c with
  | none => exact hl
  | some x => exact (hc x rfl).label l (.inl hl)

theorem addDeopt_good {reason : DeoptReason} [S.Sure]
    (h : Good S cur bare loose part A w) (hP : ∀ l, S.base l → P l) (hf : Carries S P w f) :
    Ensures E (addDeopt reason f p) S w fun n w' => ∃ A',
      Good S cur bare (n :: loose) part A' w' ∧ Extends S [] w w' ∧ w'.table = w.table ∧
        Agree S w A A' ∧ Ready S part A' P w' n ∧ w.graph.nodeCount ≤ n.index := by
  unfold addDeopt
  refine (addControl_good h P rfl (.plain rfl (by simp)) (by simp)
    (by rintro (hc | hc) <;> cases hc)).bind fun n w1 h1 => ?_
  obtain ⟨hgood, hext, hnew⟩ := h1
  have hself : ∀ l, label A n P n l ↔ l = n ∨ P l := label_self A n P
  have hfresh : w.graph.nodeCount ≤ n.index := Nat.le_of_eq hnew.fresh.symm
  have hopen : ¬ S.Open w1.table n := by
    rw [hnew.table]
    exact fun hO => absurd (h.inv.open_lt hO) (Nat.not_lt_of_le hfresh)
  refine (attach_good (D := bare) hgood (kindIs_of_kind? hnew.kind)
    ((hf.extend h hext).mono fun l hl => (hself l).2 (.inr hl))
    (fun l hl => (hself l).2 (.inr (hP l hl))) hopen
    (by simp [NodeKind.isStateEffecting])).bind fun _ w2 h2 => ensures_pure ?_
  obtain ⟨hgood2, hext2, ht2⟩ := h2
  have hlt := lt_of_kind? hnew.kind
  have hk2 := hext2.grows.kind hnew.kind rfl
  refine ⟨_, hgood2.finish hk2 ?_ (by simp), hext.trans hext2, ht2.trans hnew.table,
    .of_old fun m hm => label_of_lt (Nat.lt_of_lt_of_le hm hfresh),
    ⟨(hnew.stub h.inv rfl rfl).mono hext2.grows, ?_, ?_, fun l hl => (hself l).1 hl⟩, hfresh⟩
  · rw [outKinds, hext2.grows.outgoing hlt (by simp) hopen, hnew.outgoing]
    rfl
  · rw [(hext2.grows.incoming hlt fun hO => absurd hO hopen).2 (by simp) hopen, hnew.incoming]
    intro i hi
    rw [hnew.kind] at hi
    cases hi
  · rintro ⟨hpl, -⟩
    rw [kindIs_of_kind? hk2] at hpl
    cases hpl

/-- The way from the block that is being lifted to a target. Unless the target is a loop header, no
value in use is touched. -/
theorem resolveTarget_good [S.Sure] (hE : Expects E) (h : Good S cur bare loose part A w)
    (hl : Lifting S cur w.table source) (hway : Way S source target) (hP : ∀ l, S.base l → P l)
    (hf : Carries S P w f) (hshape : Shape S target f) :
    Ensures E (resolveTarget source target f probability p) S w fun stop w' => ∃ A',
      Sent S P cur bare loose part A f w stop w' A' ∧
        ((S.blocks.block target).isLoopHeader = false →
          ∀ n, w.graph.Usable (S.Open w.table) n → w'.graph.Usable (S.Open w'.table) n) := by
  unfold resolveTarget
  refine ensures_read_bind ?_
  split
  · refine (addDeopt_good h hP hf).mono fun n w' h' => ?_
    obtain ⟨A', hgood, hext, ht, hagree, hready, hfresh⟩ := h'
    exact ⟨A', ⟨hgood, hext.toEvolves, hagree, hready, hfresh, hext.backs hf.backs⟩,
      fun _ => hext.usable⟩
  · refine (exitLoops_good h hl hP hf).bind fun r w1 h1 => ?_
    obtain ⟨f1, c⟩ := r
    obtain ⟨A1, hgood1, hext1, hagree1, ht1, hcar1, hch1, hrel1⟩ := h1
    dsimp only at hgood1 hcar1 hch1 hrel1 ⊢
    have hbase1 : ∀ l, S.base l → past A1 P c l := fun l hB =>
      past_of (fun x hx => (hch1 x hx).1) l (hP l hB)
    refine (createTarget_good hE hgood1 (ht1 ▸ hl) hway hbase1 hcar1
      (hshape.of_kinds (hrel1.kinds fun v v' hv => hv.1))).bind fun stop w2 h2 => ?_
    obtain ⟨A2, dead, hled, hdead⟩ := h2
    have hback2 : w2.graph.Backs (S.Open w2.table) f := by
      intro v hv
      obtain ⟨v', hv', hc⟩ := hrel1.exists_right hv
      exact hled.spares.usable _ (hc.2.spared hled.spares.closed (hled.spared v' hv'))
        (hext1.usable _ (hf.backs v hv))
    refine (prependExits_sent hext1 hagree1 hgood1 hch1 hled.good hled.evolves hled.agree hled.ready
      hled.fresh hback2).mono fun n w3 h3 => ⟨A2, h3.1, fun hh m hm => ?_⟩
    have hd := hdead hh
    subst hd
    exact h3.2.usable _ (hled.spares.usable _ (by simp) (hext1.usable _ hm))

/-- Control stands at `a` with the frame `f`, and goes on in one direction. -/
structure Here (S : Scene) (cur : Nat) (bare part : List NodeId)
    (A : Labels) (w : Work) (a : NodeId) (f : Frame) : Prop where
  good : Good S cur bare [] (a :: part) A w
  foot : Foot S A w a
  outgoing : w.graph.outgoing a = []
  plain : ∃ k, w.graph.kind? a = some k ∧ k.exits = [.next]
  carries : Carries S (A a) w f

theorem not_split_of_exits (h : k.exits = [.next]) : k.isControlSplit = false := by
  cases k with
  | switch keys =>
    have := congrArg List.getLast? h
    simp [NodeKind.exits, caseKinds] at this
  | _ => first | rfl | cases h

section

variable (h : Here S cur bare part A w a f)
include h

theorem Here.base : ∀ l, S.base l → A a l :=
  fun l hl => h.foot.base l (.inl hl)

theorem Here.frame (hf : Carries S (A a) w f') : Here S cur bare part A w a f' := { h with carries := hf }

theorem Here.evolve (hgood : Good S cur bare [] (a :: part) A' w') (hg : Evolves S ss w w')
    (hA : Agree S w A A') (hs : a ∉ ss) (hb : w'.graph.Backs (S.Open w'.table) f) :
    Here S cur bare part A' w' a f := by
  obtain ⟨k, hk, hx⟩ := h.plain
  refine ⟨hgood, h.foot.mono h.good hg hA, ?_, ⟨k, ?_, hx⟩, ?_⟩
  · rw [hg.grows.outgoing h.foot.firm.lt hs h.foot.firm.2.1, h.outgoing]
  · obtain ⟨k', hk', hc⟩ := kindIs_iff.1 h.foot.firm.1
    rw [hk] at hk'
    cases hk'
    exact hg.grows.kind hk (by cases k <;> first | rfl | cases hc)
  · rw [h.foot.agree hA]
    exact h.carries.evolve h.good hg hb

theorem Here.extend (hgood : Good S cur bare [] (a :: part) A' w') (hg : Extends S ss w w')
    (hA : Agree S w A A') (hs : a ∉ ss) : Here S cur bare part A' w' a f :=
  h.evolve hgood hg.toEvolves hA hs (hg.backs h.carries.backs)

end

theorem follow_good (h : Good S cur bare [stop] (a :: part) A w) (hfoot : Foot S A w a)
    (hk : w.graph.kind? a = some k) (hexits : k.exits = [.next]) (hout : w.graph.outgoing a = [])
    (hr : Ready S (a :: part) A P w stop) (hP : ∀ l, P l → A a l) :
    Ensures E (follow a stop) S w fun _ w' => Good S cur bare [] part A w' ∧
      Extends S [a, stop] w w' ∧ w'.table = w.table ∧
      ∃ e, Links w.graph w'.graph a stop ⟨a, stop, .next, 1.0⟩ e := by
  refine (addEdge_good h hfoot.firm' (by simp) (L := []) hfoot.rooted hk
    (fun hs => by rw [not_split_of_exits hexits] at hs; cases hs) hr hP (by simp)).mono
    fun _ w' h' => ?_
  obtain ⟨hgood, hext, ht, e, hl⟩ := h'
  refine ⟨hgood.finish (k := k) ?_ ?_ ?_, hext, ht, e, hl⟩
  · rw [kind?_congr (hl.node? _), hk]
  · rw [hl.outKinds h.inv.sound.coherent, if_pos rfl, outKinds, hout, hexits]
    rfl
  · rintro rfl
    have := hfoot.joined hk
    simp only [inDegree, hl.incoming]
    split
    · simp only [List.length_append]
      exact Nat.le_trans this (Nat.le_add_right _ _)
    · exact this

theorem Here.goto (h : Here S cur bare part A w a f)
    (hsent : Sent S P cur bare [] (a :: part) A f' w stop w' A') (hP : ∀ l, P l → A a l) :
    Ensures E (follow a stop) S w' fun _ w'' => Good S cur bare [] part A' w'' ∧
      Evolves S [a] w w'' ∧ Extends S [a, stop] w' w'' := by
  obtain ⟨k, hk, hx⟩ := h.plain
  have hfoot := h.foot.mono h.good hsent.evolves hsent.agree
  have hk' : w'.graph.kind? a = some k := by
    obtain ⟨k', hk', hc⟩ := kindIs_iff.1 h.foot.firm.1
    rw [hk] at hk'
    cases hk'
    exact hsent.evolves.grows.kind hk (by cases k <;> first | rfl | cases hc)
  refine (follow_good hsent.good hfoot hk' hx ?_ hsent.ready ?_).mono fun _ w'' h'' => ?_
  · rw [hsent.evolves.grows.outgoing h.foot.firm.lt (by simp) h.foot.firm.2.1, h.outgoing]
  · rw [h.foot.agree hsent.agree]
    exact hP
  · obtain ⟨hgood, hext, -, -⟩ := h''
    exact ⟨hgood, ((hsent.evolves.weaken (by simp)).trans hext.toEvolves).mono
      (changes_old hsent.fresh), hext⟩

theorem ensures_takeLast (hlast : q.last = some a)
    (h : Q (a, { q with last := none }) w) : Ensures E q.takeLast sc w Q := by
  unfold Point.takeLast
  refine ensures_read_bind ?_
  exact .chain (ensures_demand hlast h)

theorem jump_good [S.Sure] (hE : Expects E)
    (h : Here S cur bare part A w a q.frame) (hlast : q.last = some a)
    (hl : Lifting S cur w.table q.block) (hway : Way S q.block target)
    (hshape : Shape S target q.frame) :
    Ensures E (q.jump target) S w fun q' w' => q' = { q with last := none } ∧ ∃ A',
      Good S cur bare [] part A' w' ∧ Evolves S [a] w w' ∧ Agree S w A A' := by
  unfold Point.jump
  refine (resolveTarget_good hE h.good hl hway h.base h.carries hshape).bind
    fun stop w1 h1 => ?_
  obtain ⟨A', hsent, -⟩ := h1
  refine .chain (ensures_takeLast hlast ?_)
  refine (h.goto hsent fun l hl => hl).bind fun _ w3 h3 => ensures_pure ?_
  exact ⟨rfl, A', h3.1, h3.2.1, hsent.agree⟩

/-- A begin is put in front of what may not follow a split. -/
theorem beginStub_good [S.Sure] (h : Good S cur bare (stop :: loose) part A w)
    (hr : Ready S part A P w stop) : Ensures E (beginStub stop) S w fun n w' => ∃ A',
      Good S cur bare (n :: loose) part A' w' ∧ Extends S [stop] w w' ∧ w'.table = w.table ∧
        Agree S w A A' ∧ Ready S part A' P w' n ∧ w'.graph.kindIs n NodeKind.isBeginLike = true ∧
        (n = stop ∨ w.graph.nodeCount ≤ n.index) := by
  unfold beginStub kindIs
  refine ensures_get_bind ?_
  split
  · next hb => exact ensures_pure ⟨A, h, .refl _ _ _, rfl, .refl _ _ _, hr, hb, .inl rfl⟩
  · refine (addControl_good h P rfl (.plain rfl (by simp)) (by simp) (fun _ => rfl)).bind
      fun n w1 h1 => ?_
    obtain ⟨hgood, hext, hnew⟩ := h1
    have hself : ∀ l, label A n P n l ↔ l = n ∨ P l := label_self A n P
    have hfresh : w.graph.nodeCount ≤ n.index := Nat.le_of_eq hnew.fresh.symm
    have hagree : Agree S w A (label A n P) :=
      .of_old fun m hm => label_of_lt (Nat.lt_of_lt_of_le hm hfresh)
    have hlt : stop.index < w.graph.nodeCount := contains_lt hr.stub.contains
    have hne : n ≠ stop := by
      rintro rfl
      exact absurd hlt (Nat.not_lt_of_le hfresh)
    have hr1 : Ready S (n :: part) (label A n P) P w1 stop := by
      refine ⟨hr.stub.mono hext.grows, ?_, ?_, ?_⟩
      · rw [hnew.graph, incoming_addNode, hr.incoming]
      · rintro ⟨h1, -, h3⟩
        have hnode : w1.graph.node? stop = w.graph.node? stop := by
          rw [hnew.graph]
          exact node?_addNode_of_lt hlt
        rw [hnew.table]
        refine (hr.vacant ⟨?_, hr.incoming, ?_⟩).imp_right fun hm => List.mem_cons_of_mem _ hm
        · rwa [kindIs_congr hnode] at h1
        · rwa [hnew.graph, outgoing_addNode] at h3
      · intro l hl
        rw [label_of_ne hne.symm] at hl
        exact hr.label l hl
    refine (addEdge_good hgood (hnew.firm h.inv rfl (by simp [owe])) (by simp)
      (L := n :: loose) (.inr ⟨n, by simp, .refl⟩) hnew.kind (by rintro ⟨⟩) hr1
      (fun l hl => (hself l).2 (.inr hl)) ?_).bind fun _ w2 h2 => ensures_pure ?_
    · intro x hx
      simp only [List.mem_cons] at hx ⊢
      tauto
    · obtain ⟨hgood2, hext2, ht2, e, hl2⟩ := h2
      have hk2 : w2.graph.kind? n = some .begin := by
        rw [kind?_congr (hl2.node? _), hnew.kind]
      have hout2 : w2.graph.outgoing n = [e] := by
        rw [hl2.outgoing, if_pos rfl, hnew.outgoing]
        rfl
      refine ⟨_, hgood2.finish hk2 ?_ (by simp), ?_, ht2.trans hnew.table, hagree,
        ⟨(hnew.stub h.inv rfl rfl).mono hext2.grows, ?_, ?_, fun l hl => (hself l).1 hl⟩, ?_,
        .inr hfresh⟩
      · rw [hl2.outKinds hgood.inv.sound.coherent, if_pos rfl, outKinds, hnew.outgoing]
        rfl
      · refine ((hext.weaken (by simp)).trans hext2).mono fun m hm => ?_
        rcases List.mem_cons.1 hm with rfl | hm
        · exact .inr (.inr hfresh)
        · exact .inl hm
      · rw [hl2.incoming, if_neg hne, hnew.incoming]
      · rintro ⟨-, -, hnil⟩
        rw [hout2] at hnil
        cases hnil
      · exact kindIs_of_kind? hk2

/-- Control splits at `a`, which has its edges `ks`. -/
structure Splits (S : Scene) (cur : Nat) (bare part : List NodeId)
    (A : Labels) (w : Work) (a : NodeId) (k : NodeKind) (ks : List EdgeKind) : Prop where
  good : Good S cur bare [] (a :: part) A w
  foot : Foot S A w a
  kind : w.graph.kind? a = some k
  split : k.isControlSplit = true
  edges : w.graph.outKinds a = ks

theorem Foot.kind (h : Foot S A w a) (hk : w.graph.kind? a = some k) (hg : Evolves S ss w w') :
    w'.graph.kind? a = some k := by
  obtain ⟨k', hk', hc⟩ := kindIs_iff.1 h.firm.1
  rw [hk] at hk'
  cases hk'
  exact hg.grows.kind hk (by cases k <;> first | rfl | cases hc)

theorem Splits.evolve (h : Splits S cur bare part' A w a k ks)
    (hgood : Good S cur bare [] (a :: part) A' w') (hg : Evolves S ss w w')
    (hA : Agree S w A A') (hs : a ∉ ss) : Splits S cur bare part A' w' a k ks := by
  refine ⟨hgood, h.foot.mono h.good hg hA, h.foot.kind h.kind hg, h.split, ?_⟩
  rw [← h.edges]
  exact hg.grows.outgoing_kinds h.good.inv.sound.coherent h.foot.firm.lt hs h.foot.firm.2.1

theorem Splits.link {pr : Float} (h : Splits S cur bare part A w a k ks)
    (hgood : Good S cur bare [stop] (a :: part) A' w') (hev : Evolves S ss w w')
    (hA : Agree S w A A') (hs : a ∉ ss) (hr : Ready S (a :: part) A' (A a) w' stop)
    (hb : w'.graph.kindIs stop NodeKind.isBeginLike = true) :
    Ensures E (addEdge a stop ek pr) S w' fun _ w'' =>
      Splits S cur bare part A' w'' a k (ks ++ [ek]) ∧ Extends S [a, stop] w' w'' ∧
        w''.table = w'.table ∧ ∃ e, Links w'.graph w''.graph a stop ⟨a, stop, ek, pr⟩ e := by
  have hfoot := h.foot.mono h.good hev hA
  have hk := h.foot.kind h.kind hev
  refine (addEdge_good hgood hfoot.firm' (by simp) (L := []) hfoot.rooted hk (fun _ => hb) hr
    (fun l hl => by rw [h.foot.agree hA]; exact hl) (by simp)).mono fun _ w'' h'' => ?_
  obtain ⟨hgood2, hext2, ht2, e, hl2⟩ := h''
  refine ⟨⟨hgood2, hfoot.mono hgood hext2.toEvolves (.refl _ _ _), hfoot.kind hk hext2.toEvolves,
    h.split, ?_⟩, hext2, ht2, e, hl2⟩
  rw [hl2.outKinds hgood.inv.sound.coherent, if_pos rfl, ← h.edges]
  congr 1
  exact hev.grows.outgoing_kinds h.good.inv.sound.coherent h.foot.firm.lt hs h.foot.firm.2.1

theorem addBranch_good [S.Sure] (hE : Expects E)
    (h : Splits S cur bare part A w a k ks) (hl : Lifting S cur w.table source)
    (hway : Way S source target) (hf : Carries S (A a) w f) (hshape : Shape S target f) :
    Ensures E (addBranch source a target f probability ek p) S w fun _ w' => ∃ A',
      Splits S cur bare part A' w' a k (ks ++ [ek]) ∧ Evolves S [a] w w' ∧
        Agree S w A A' ∧ Carries S (A' a) w' f := by
  unfold addBranch
  refine (resolveTarget_good hE h.good hl hway (fun l hB => h.foot.base l (.inl hB)) hf
    hshape).bind fun stop w1 h1 => ?_
  obtain ⟨A1, hsent, -⟩ := h1
  refine (beginStub_good hsent.good hsent.ready).bind fun n w2 h2 => ?_
  obtain ⟨A2, hgood2, hext2, ht2, hagree2, hready2, hb2, hn⟩ := h2
  have hnge : w.graph.nodeCount ≤ n.index := by
    rcases hn with rfl | hn
    · exact hsent.fresh
    · exact Nat.le_trans hsent.evolves.grows.count hn
  have hev : Evolves S [] w w2 := by
    refine ((hsent.evolves.weaken (by simp)).trans hext2.toEvolves).mono fun m hm => ?_
    rw [List.mem_singleton.1 hm]
    exact .inr (.inr hsent.fresh)
  have hagree := hsent.agree.trans hsent.evolves hagree2
  refine (h.link hgood2 hev hagree (by simp) hready2 hb2).mono fun _ w3 h3 => ?_
  obtain ⟨hsplit, hext3, -⟩ := h3
  refine ⟨A2, hsplit, ((hev.weaken (by simp)).trans hext3.toEvolves).mono (changes_old hnge), hagree, ?_⟩
  · rw [h.foot.agree hagree]
    exact (hf.evolve h.good hev (hext2.backs hsent.backs)).extend hgood2 hext3

theorem Splits.finish (h : Splits S cur bare part A w a k ks)
    (hks : ks = k.exits) : Good S cur bare [] part A w := by
  refine h.good.finish h.kind (h.edges.trans hks) ?_
  rintro rfl
  cases h.split

/-! ## Nodes after the control point -/

/-- What appending a node after control point `a` leaves behind. -/
structure Appended (S : Scene) (cur : Nat) (bare part : List NodeId)
    (A : Labels) (w : Work) (a : NodeId) (k : NodeKind) (I : List NodeId) (n : NodeId)
    (w' : Work) (A' : Labels) : Prop where
  good : Good S cur (if k.isStateEffecting then n :: bare else bare) [] (n :: part) A' w'
  foot : Foot S A' w' n
  outgoing : w'.graph.outgoing n = []
  kind : w'.graph.kind? n = some k
  extends_ : Extends S [a] w w'
  agree : Agree S w A A'
  table : w'.table = w.table
  label : ∀ l, A a l ∨ l = n → A' n l
  fresh : w.graph.nodeCount ≤ n.index

/-- A node is put after the control point. -/
theorem Here.put {α : Type} {rest : NodeId → BuildM α} {Q : α → Work → Prop}
    [S.Sure] (h : Here S cur bare part A w a f) (hc : k.isControl = true)
    (hr : k.refers = false) (hm : k.isMerge = false) (hp : k.isPlace = false)
    (hin : ∀ i ∈ I, Has S (A a) w i)
    (hrest : ∀ n w' A', Appended S cur bare part A w a k I n w' A' →
      Ensures E (rest n) S w' Q) :
    Ensures E (do
      let n ← addNode k I
      follow a n
      rest n) S w Q := by
  refine (addControl_good h.good (A a) hc (.plain hr fun i hi => (hin i hi).usable)
    (fun i hi => (hin i hi).avail) (by rw [hm, hp]; simp)).bind fun n w1 h1 => ?_
  obtain ⟨hgood, hext, hnew⟩ := h1
  obtain ⟨ka, hka, hx⟩ := h.plain
  have hself : ∀ l, label A n (A a) n l ↔ l = n ∨ A a l := label_self A n (A a)
  have hfresh : w.graph.nodeCount ≤ n.index := Nat.le_of_eq hnew.fresh.symm
  have hagree : Agree S w A (label A n (A a)) :=
    .of_old fun m hm => label_of_lt (Nat.lt_of_lt_of_le hm hfresh)
  have hne : a ≠ n := by
    rintro rfl
    exact absurd h.foot.firm.lt (Nat.not_lt_of_le hfresh)
  have hopen : ¬ S.Open w1.table n := by
    rw [hnew.table]
    exact fun hO => absurd (h.good.inv.open_lt hO) (Nat.not_lt_of_le hfresh)
  have hfoot1 := h.foot.mono h.good hext.toEvolves hagree
  have hka1 := h.foot.kind hka hext.toEvolves
  have hready : Ready S (a :: n :: part) (label A n (A a)) (A a) w1 n := by
    refine ⟨hnew.stub h.good.inv hc hm, hnew.incoming, ?_, fun l hl => (hself l).1 hl⟩
    rintro ⟨hpl, -⟩
    rw [kindIs_of_kind? hnew.kind, hp] at hpl
    cases hpl
  have hgood1 : Good S cur (if k.isStateEffecting then n :: bare else bare) [n]
      (a :: n :: part) (label A n (A a)) w1 :=
    hgood.mono (fun _ hx => hx) (fun _ hx => hx) (by
      intro y hy
      simp only [List.mem_cons] at hy ⊢
      tauto)
  refine (follow_good hgood1 hfoot1 hka1 hx ?_ hready ?_).bind fun _ w2 h2 =>
    hrest n w2 (label A n (A a)) ?_
  · rw [hnew.graph, outgoing_addNode, h.outgoing]
  · rw [h.foot.agree hagree]
    exact fun l hl => hl
  · obtain ⟨hgood2, hext2, ht2, e, hl2⟩ := h2
    refine ⟨hgood2, ⟨?_, ?_, fun l hl => ?_, ?_⟩, ?_, ?_, ?_, hagree, ht2.trans hnew.table,
      fun l hl => (hself l).2 hl.symm, hfresh⟩
    · rw [ht2]
      exact hl2.firm (kindIs_iff.2 ⟨k, hnew.kind, hc⟩) hopen
    · exact (hl2.rooted hfoot1.rooted).reach (.single (hl2.step ⟨rfl, rfl⟩))
    · rcases hl with hl | hl
      · exact (hself l).2 (.inr (h.base l hl))
      · exact (hself l).2 (.inl hl)
    · intro hkm
      rw [kind?_congr (hl2.node? _), hnew.kind] at hkm
      cases hkm
      cases hm
    · rw [hl2.outgoing, if_neg hne.symm, hnew.outgoing]
    · rw [kind?_congr (hl2.node? _), hnew.kind]
    · exact ((hext.weaken (by simp)).trans hext2).mono (changes_old hfresh)

theorem append_good [S.Sure]
    (h : Here S cur bare part A w a f) (hlast : q.last = some a) (hc : k.isControl = true)
    (hr : k.refers = false) (hm : k.isMerge = false) (hp : k.isPlace = false)
    (hin : ∀ i ∈ I, Has S (A a) w i) (hQ : ∀ n w' A', Appended S cur bare part A w a k I n w' A' →
      Q (n, { q with last := some n }) w') :
    Ensures E (q.append k I) S w Q := by
  unfold Point.append
  refine .chain (ensures_takeLast hlast ?_)
  exact h.put hc hr hm hp hin fun n w' A' ha => ensures_pure (hQ n w' A' ha)

theorem Has.made (hk : w.graph.kind? n = some k) (hc : k.isControl = true)
    (hv : k.isValue = true) (hP : P n) : Has S P w n := by
  refine ⟨⟨k, hk, (not_merge_of_isValue hv).2, ?_⟩, kindIs_iff.2 ⟨k, hk, hv⟩, ?_⟩
  · rintro m rfl
    cases hc
  · intro l hl
    cases hl with
    | fixed => exact hP
    | phi h =>
      rw [hk] at h
      cases h
      cases hc
    | proxy h =>
      rw [hk] at h
      cases h
      cases hc
    | floating h hf =>
      rw [hk] at h
      cases h
      cases k <;> first | (cases hc; done) | cases hf

theorem Appended.capture [S.Sure]
    (ha : Appended S cur bare part A w a k I n w' A') (he : k.isStateEffecting = true)
    (hx : k.exits = [.next]) (hs : Carries S (A' n) w' f') (hg : Carries S (A' n) w' g) :
    Ensures E (attachSnapshot n f' p) S w' fun _ w'' =>
      Here S cur bare part A' w'' n g ∧ Extends S [] w' w'' ∧ w''.table = w'.table := by
  have hgood := ha.good
  rw [if_pos he] at hgood
  refine (attach_good (D := bare) hgood ha.foot.firm.1 hs
    (fun l hl => ha.foot.base l (.inl hl)) ha.foot.firm.2.1 (by simp)).mono
    fun _ w'' h'' => ?_
  obtain ⟨hgood2, hext2, ht2⟩ := h''
  refine ⟨⟨hgood2, ha.foot.mono hgood hext2.toEvolves (.refl _ _ _), ?_,
    ⟨k, ha.foot.kind ha.kind hext2.toEvolves, hx⟩, hg.extend hgood hext2⟩, hext2, ht2⟩
  rw [hext2.grows.outgoing ha.foot.firm.lt (by simp) ha.foot.firm.2.1, ha.outgoing]

end Routes

end StackLift
