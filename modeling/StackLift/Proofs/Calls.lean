import StackLift.Proofs.Inline

/-!
# Calls

A call is given up, becomes a node, or is inlined. A call node whose exception may be seen is a split.
After an inlined call, control goes on where the callee returned, and the exceptions that the callee
did not catch go on as if they were raised at the call.
-/
namespace StackLift

variable {args : List Value} {declared : MethodId}

variable {m t : MethodDecl} {id : MethodId} {o : Option Exit} {Q : Unit → Work → Prop} {v : Value}

open BuildM

section Calls

variable {E : Error → Prop} {α : Type} {sc : Scope} {S : Scene} {P : NodeSet} {cur : Nat}
  {bare D part : List NodeId} {A A' : Labels} {w w' : Work} {f g s : Frame}
  {a n : NodeId} {p : Position} {q : Point} {call : Call} {x : Exits} {y z : Exit}

theorem snapshotMerge_good [S.Sure] (h : Here S cur bare part A w n f)
    (hb : ∀ x ∈ bare, x ∈ D ∨ (x = n ∧ w.graph.kindIs n NodeKind.isMerge = true))
    (hs : Carries S (A n) w s) :
    Ensures E (snapshotMerge n s p) S w fun _ w' => Here S cur D part A w' n f ∧
      Extends S [] w w' ∧ w'.table = w.table := by
  unfold snapshotMerge kindIs
  refine ensures_get_bind ?_
  split
  · refine (attach_good (D := D) h.good h.foot.firm.1 hs h.base h.foot.firm.2.1
      fun x hx => (hb x hx).symm.imp_left And.left).mono fun _ w' h' => ?_
    obtain ⟨hgood, hext, ht⟩ := h'
    obtain ⟨k, hk, hx⟩ := h.plain
    refine ⟨⟨hgood, h.foot.mono h.good hext.toEvolves (.refl _ _ _), ?_,
      ⟨k, h.foot.kind hk hext.toEvolves, hx⟩, h.carries.extend h.good hext⟩, hext, ht⟩
    rw [hext.grows.outgoing h.foot.firm.lt (by simp) h.foot.firm.2.1, h.outgoing]
  · next hm =>
    refine ensures_pure ⟨⟨h.good.mono (fun x hx => ?_) (fun _ hx => hx) (fun _ hx => hx), h.foot,
      h.outgoing, h.plain, h.carries⟩, .refl _ _ _, rfl⟩
    exact (hb x hx).resolve_right fun hc => hm hc.2

/-! ## Arguments -/

theorem popArgs_good {kinds : List ValueKind} (hE : Expects E)
    (h : Here S cur bare part A w a q.frame) :
    Ensures E (popArgs q kinds) S w fun r w' => w' = w ∧ (∀ v ∈ r.1, Has S (A a) w v.node) ∧
      ∃ f, Here S cur bare part A w a f ∧ r.2 = { q with frame := f } := by
  unfold popArgs
  refine ensures_foldlM (fun _ (r : List Value × Point) w' => w' = w ∧ (∀ v ∈ r.1, Has S (A a) w v.node) ∧
    ∃ f, Here S cur bare part A w a f ∧ r.2 = { q with frame := f }) ?_
    ⟨rfl, by simp, q.frame, h, rfl⟩
  rintro kind rest ⟨args, q'⟩ w1 ⟨rfl, hargs, f, hf, rfl⟩
  refine hf.popKind (q := { q with frame := f }) hE fun v f' _ hv hf' => ensures_pure ?_
  refine ⟨rfl, fun u hu => ?_, f', hf', rfl⟩
  rcases List.mem_cons.1 hu with rfl | hu
  · exact hv
  · exact hargs u hu

/-! ## Call nodes -/

theorem callNode_good [S.Sure] (hE : Expects E)
    (h : Here S cur bare part A w a q.frame) (hlast : q.last = some a)
    (hl : Lifting S cur w.table q.block) (hway : Way S q.block (S.exceptionTarget q.position))
    (hargs : ∀ v ∈ call.args, Has S (A a) w v.node) :
    Ensures E (callNode call q) S w fun r w' => Gets S cur bare part A w a q.block r.2 w' := by
  have hin : ∀ i ∈ call.args.map (·.node), Has S (A a) w i := by
    intro i hi
    obtain ⟨v, hv, rfl⟩ := List.mem_map.1 hi
    exact hargs v hv
  unfold callNode
  refine ensures_read_bind ?_
  dsimp only
  split
  · -- the exception may be seen
    refine .chain (append_good h hlast (k := .invokeWithException call.kind call.target.id) rfl rfl rfl
      rfl hin fun n w1 A1 ha => ?_)
    have hbefore : Carries S (A1 n) w1 q.frame := ha.carries h.good h.carries
    have hafter : Carries S (A1 n) w1
        (if call.returns = .void then q.frame else q.frame.push ⟨n, call.returns⟩) := by
      split
      · exact hbefore
      · exact hbefore.push (.made ha.kind rfl rfl (ha.foot.base n (.inr rfl)))
    have hgood1 := ha.good
    rw [if_pos (by rfl)] at hgood1
    have hframe : (if call.returns = .void then ({ q with last := some n } : Point)
        else ({ q with last := some n } : Point).push ⟨n, call.returns⟩).frame =
        if call.returns = .void then q.frame else q.frame.push ⟨n, call.returns⟩ := by
      split <;> rfl
    have hblock : (if call.returns = .void then ({ q with last := some n } : Point)
        else ({ q with last := some n } : Point).push ⟨n, call.returns⟩).block = q.block := by
      split <;> rfl
    rw [hframe, hblock]
    refine (attach_good (D := bare) hgood1 ha.foot.firm.1 hafter
      (fun l hl => ha.foot.base l (.inl hl)) ha.foot.firm.2.1 (by simp)).bind fun _ w2 h2 => ?_
    obtain ⟨hgood2, hext2, ht2⟩ := h2
    have hfoot2 := ha.foot.mono hgood1 hext2.toEvolves (.refl _ _ _)
    have hsplit : Splits S cur bare part A1 w2 n (.invokeWithException call.kind call.target.id) [] := by
      refine ⟨hgood2, hfoot2, ha.foot.kind ha.kind hext2.toEvolves, rfl, ?_⟩
      rw [Graph.outKinds, hext2.grows.outgoing ha.foot.firm.lt (by simp) ha.foot.firm.2.1, ha.outgoing,
        List.filterMap_nil]
    refine hsplit.proceed (hafter.extend hgood1 hext2)
      fun normal w3 A3 hs3 here3 hext3 hA3 ht3 hfresh3 hlabel => ?_
    have hev2 : Evolves S [a] w w2 := ha.extends_.toEvolves.then hext2.toEvolves (by simp)
    have hev3 : Evolves S [a] w w3 := hev2.then hext3.toEvolves (by simp [ha.fresh])
    have hbefore3 : Carries S (A3 n) w3 q.frame := by
      rw [hfoot2.agree hA3]
      exact (hbefore.extend hgood1 hext2).extend hgood2 hext3
    refine hs3.raise hE (hl.mono hev3.keeps) hway hbefore3
      fun w4 A4 hs4 hev4 hA4 hlasts => ensures_pure ?_
    have hne : normal ∉ [n] := by
      intro hm
      rw [List.mem_singleton.1 hm] at hfresh3
      exact absurd (hfoot2.firm.lt) (Nat.not_lt_of_le hfresh3)
    have here4 : Here S cur bare part A4 w4 normal
        (if call.returns = .void then q.frame else q.frame.push ⟨n, call.returns⟩) := by
      obtain ⟨k, hk, hx⟩ := here3.plain
      refine ⟨hs4.finish rfl, here3.foot.mono here3.good hev4 hA4, ?_,
        ⟨k, here3.foot.kind hk hev4, hx⟩, ?_⟩
      · rw [hev4.grows.outgoing here3.foot.firm.lt hne here3.foot.firm.2.1, here3.outgoing]
      · rw [here3.foot.agree hA4]
        exact here3.carries.evolve here3.good hev4 (hlasts.backs here3.carries.backs)
    refine ⟨A4, ⟨Here.at (a := normal) ?_ rfl, hev3.then hev4 (by simp [ha.fresh]), ?_, ?_, ?_⟩⟩
    · exact here4
    · exact (ha.agree.trans hev2 hA3).trans hev3 hA4
    · rintro m ⟨⟩
      exact .inr (Nat.le_trans (Nat.le_trans ha.extends_.grows.count hext2.grows.count) hfresh3)
    · rfl
  · refine .chain (append_good h hlast (k := .invoke call.kind call.target.id) rfl rfl rfl rfl hin
      fun n w1 A1 ha => ?_)
    have hbefore : Carries S (A1 n) w1 q.frame := ha.carries h.good h.carries
    have hafter : Carries S (A1 n) w1 (if call.returns = .void then ({ q with last := some n } : Point)
        else ({ q with last := some n } : Point).push ⟨n, call.returns⟩).frame := by
      split
      · exact hbefore
      · exact hbefore.push (.made ha.kind rfl rfl (ha.foot.base n (.inr rfl)))
    refine (ha.effect rfl rfl hafter hafter (b := q.block) ?_ ?_).bind
      fun _ w' h' => ensures_pure h'
    · split <;> rfl
    · split <;> rfl

/-! ## Inlining -/

theorem resumeUnwound_good [S.Sure] (hE : Expects E) (h : Here S cur bare part A w y.node y.frame)
    (hb : ∀ x ∈ bare, x ∈ D ∨ (x = y.node ∧ w.graph.kindIs y.node NodeKind.isMerge = true))
    (hf : Carries S (A y.node) w q.frame) (hl : Lifting S cur w.table q.block)
    (hway : Way S q.block (S.exceptionTarget q.position)) (hv : y.frame.stack = [v])
    (hk : v.kind = .object) : Ensures E (resumeUnwound q id y) S w fun _ w' => ∃ A',
      Good S cur D [] part A' w' ∧ Evolves S [y.node] w w' ∧ Agree S w A A' ∧
        Lasts S w w' := by
  have hhas := (h.carries.has_top hv).2
  unfold resumeUnwound
  refine .chain (ensures_demand (a := v) (by rw [Frame.peek?, hv]; rfl) ?_)
  refine (snapshotMerge_good h hb (hf.raising hhas)).bind fun _ w1 h1 => ?_
  obtain ⟨here1, hext1, ht1⟩ := h1
  refine (dispatchException_good hE here1 (hl.mono hext1.keeps) hway (hf.extend h.good hext1)
    (hhas.extend h.good hext1) hk).mono fun _ w2 h2 => ?_
  obtain ⟨A2, hgood2, hev2, hA2, hlasts2⟩ := h2
  exact ⟨A2, hgood2, (hext1.toEvolves.weaken (by simp)).trans hev2,
    (Agree.refl S _ A).trans hext1.toEvolves hA2, fun z hz => hlasts2 z (hext1.usable z hz)⟩

theorem resumeReturned_good [S.Sure] (h : Here S cur bare [] A w y.node y.frame)
    (hb : ∀ x ∈ bare, x = y.node ∧ w.graph.kindIs y.node NodeKind.isMerge = true)
    (hf : Carries S (A y.node) w q.frame) (hv : call.returns ≠ .void → y.frame.stack ≠ []) :
    Ensures E (resumeReturned q call y) S w fun q' w' =>
      Here S cur [] [] A w' y.node q'.frame ∧ q'.last = some y.node ∧
        q'.block = q.block ∧ Extends S [] w w' := by
  unfold resumeReturned
  have hrest : ∀ {q' : Point}, Carries S (A y.node) w q'.frame → q'.block = q.block →
      Ensures E (goOn y.node q') S w fun q' w' =>
          Here S cur [] [] A w' y.node q'.frame ∧ q'.last = some y.node ∧
            q'.block = q.block ∧ Extends S [] w w' := by
    intro q' hf' hblock
    refine (snapshotMerge_good (D := []) h (fun x hx => .inr (hb x hx)) hf').bind
      fun _ w1 h1 => ensures_pure ?_
    obtain ⟨here1, hext1, -⟩ := h1
    exact ⟨here1.frame (hf'.extend h.good hext1), rfl, hblock, hext1⟩
  dsimp only
  split
  · exact ensures_pure_bind (hrest hf rfl)
  · next hne =>
    obtain ⟨v, rest, hs⟩ := List.exists_cons_of_ne_nil (hv hne)
    refine .chain (ensures_demand (a := v) (by rw [Frame.peek?, hs]; rfl) ?_)
    exact ensures_pure_bind (hrest (hf.push (h.carries.has_top hs).2) rfl)

theorem ensures_checkBudget (hE : Expects E) (h : Q () w) : Ensures E (checkBudget p) sc w Q := by
  unfold checkBudget
  refine ensures_read_bind (ensures_get_bind ?_)
  dsimp only
  split
  · exact (ensures_throw (Q := fun _ _ => False) (hE _ rfl)).bind fun _ _ hf => hf.elim
  · split
    · exact ensures_throw (hE _ rfl)
    · exact ensures_pure h

theorem Frame.withArgs_error {n : Nat} {e : Error} (h : Frame.withArgs n args = .error e) :
    Error.isOrdinary e = true := by
  unfold Frame.withArgs at h
  split at h
  · cases h
    rfl
  · cases h

/-- Back from a callee that was entered from `a` with the frame `f`; control may still go on where it
returned. -/
structure Resumed (S : Scene) (cur : Nat)
    (A : Labels) (w : Work) (a : NodeId) (f : Frame) (o : Option Exit) (w' : Work)
    (A' : Labels) (bare : List NodeId) : Prop where
  good : Good S cur bare [] (o.toList.map (·.node)) A' w'
  bare : ∀ n ∈ bare, n ∈ o.toList.map (·.node) ∧ w'.graph.kindIs n NodeKind.isMerge = true
  evolves : Evolves S [a] w w'
  agree : Agree S w A A'
  backs : w'.graph.Backs (S.Open w'.table) f
  fresh : ∀ y, o = some y → w.graph.nodeCount ≤ y.node.index
  label : ∀ y, o = some y → ∀ l, A a l → A' y.node l
  foot : ∀ y, o = some y → Foot S A' w' y.node
  outgoing : ∀ y, o = some y → w'.graph.outgoing y.node = []
  plain : ∀ y, o = some y → ∃ k, w'.graph.kind? y.node = some k ∧ k.exits = [.next]
  carries : ∀ y, o = some y → Carries S (A' y.node) w' y.frame

theorem Resumed.finish [S.Sure] (h : Here S cur [] [] A w a q.frame)
    (hlast : q.last = none) (hr : Resumed S cur A w a q.frame o w' A' bare)
    (hv : ∀ y, o = some y → call.returns ≠ .void → y.frame.stack ≠ []) :
    Ensures E (match o with
      | some y => resumeReturned q call y
      | none => pure q) S w' (Gets S cur [] [] A w a q.block) := by
  cases o with
  | none =>
    refine ensures_pure ⟨A', .gone ?_ hlast hr.evolves hr.agree rfl⟩
    have hnil : bare = [] := List.eq_nil_iff_forall_not_mem.2 fun n hn => by simpa using (hr.bare n hn).1
    simpa [hnil] using hr.good
  | some y =>
    have here : Here S cur bare [] A' w' y.node y.frame :=
      ⟨by simpa using hr.good, hr.foot y rfl, hr.outgoing y rfl, hr.plain y rfl, hr.carries y rfl⟩
    have hf : Carries S (A' y.node) w' q.frame :=
      (h.carries.evolve h.good hr.evolves hr.backs).mono (hr.label y rfl)
    refine (resumeReturned_good here (fun n hn => ?_) hf (hv y rfl)).mono fun q' w'' h' => ?_
    · obtain ⟨h1, h2⟩ := hr.bare n hn
      obtain rfl : n = y.node := by simpa using h1
      exact ⟨rfl, h2⟩
    · obtain ⟨here', hlast', hblock, hext⟩ := h'
      refine ⟨A', here'.at hlast', hr.evolves.then hext.toEvolves (by simp), hr.agree, fun n hn => ?_,
        hblock⟩
      rw [hlast'] at hn
      cases hn
      exact .inr (hr.fresh y rfl)

/-- What the callee did not catch has gone on its way. -/
theorem Resumed.unwind [S.Sure] (hE : Expects E)
    (h : Here S cur [] [] A w a q.frame) (hgood : Good S cur bare [] part A' w')
    (hpart : ∀ n ∈ part, n = z.node ∨ n ∈ o.toList.map (·.node))
    (hbare : ∀ n ∈ bare, n ∈ part ∧ w'.graph.kindIs n NodeKind.isMerge = true) (hev : Evolves S [a] w w')
    (hA : Agree S w A A') (hback : w'.graph.Backs (S.Open w'.table) q.frame)
    (hl : Lifting S cur w.table q.block) (hway : Way S q.block (S.exceptionTarget q.position))
    (hx : ∀ y, some y = some z ∨ o = some y → w.graph.nodeCount ≤ y.node.index ∧
      (∀ l, A a l → A' y.node l) ∧ Foot S A' w' y.node ∧ w'.graph.outgoing y.node = [] ∧
      (∃ k, w'.graph.kind? y.node = some k ∧ k.exits = [.next]) ∧ Carries S (A' y.node) w' y.frame)
    (hne : ∀ y, o = some y → y.node ≠ z.node) (hv : z.frame.stack = [v]) (hk : v.kind = .object) :
    Ensures E (resumeUnwound q id z) S w' fun _ w'' => ∃ A'' D,
      Resumed S cur A w a q.frame o w'' A'' D := by
  obtain ⟨hfresh, hlabel, hfoot, hout, hplain, hcar⟩ := hx z (.inl rfl)
  have here : Here S cur bare (o.toList.map (·.node)) A' w' z.node z.frame := by
    refine ⟨hgood.mono (fun _ hm => hm) (fun _ hm => hm) fun n hn => ?_, hfoot, hout, hplain, hcar⟩
    exact List.mem_cons.2 (hpart n hn)
  have hf : Carries S (A' z.node) w' q.frame := (h.carries.evolve h.good hev hback).mono hlabel
  refine (resumeUnwound_good (D := bare.filter (· ≠ z.node)) hE here (fun n hn => ?_) hf
    (hl.mono hev.keeps) hway hv hk).mono fun _ w2 h2 => ?_
  · by_cases heq : n = z.node
    · exact .inr ⟨heq, heq ▸ (hbare n hn).2⟩
    · exact .inl (List.mem_filter.2 ⟨hn, by simpa using heq⟩)
  · obtain ⟨A2, hgood2, hev2, hA2, hlasts2⟩ := h2
    have hkeep : ∀ y, o = some y → y.node ∉ [z.node] := by
      intro y hy hm
      exact hne y hy (List.mem_singleton.1 hm)
    refine ⟨A2, _, hgood2, fun n hn => ?_, hev.then hev2 (by simp [hfresh]), hA.trans hev hA2,
      hlasts2.backs hback, fun y hy => (hx y (.inr hy)).1, fun y hy l hl => ?_, fun y hy => ?_,
      fun y hy => ?_, fun y hy => ?_, fun y hy => ?_⟩
    · obtain ⟨h1, h2⟩ := List.mem_filter.1 hn
      obtain ⟨h3, h4⟩ := hbare n h1
      refine ⟨(hpart n h3).resolve_left (by simpa using h2), ?_⟩
      exact hev2.grows.kindIs h4 fun k hk => by cases k <;> first | rfl | cases hk
    · obtain ⟨-, hl', hf', -⟩ := hx y (.inr hy)
      rw [hf'.agree hA2]
      exact hl' l hl
    · exact (hx y (.inr hy)).2.2.1.mono hgood hev2 hA2
    · obtain ⟨-, -, hf', ho, -⟩ := hx y (.inr hy)
      rw [hev2.grows.outgoing hf'.firm.lt (hkeep y hy) hf'.firm.2.1, ho]
    · obtain ⟨-, -, hf', -, ⟨k, hk, hx'⟩, -⟩ := hx y (.inr hy)
      exact ⟨k, hf'.kind hk hev2, hx'⟩
    · obtain ⟨-, -, hf', -, -, hc⟩ := hx y (.inr hy)
      rw [hf'.agree hA2]
      exact hc.evolve hgood hev2 (hlasts2.backs hc.backs)

theorem inlineCall_good {parse : Parser} (hallow : Allows E S.env) (hparse : ParserGood E S.env parse)
    (hchain : S.chain ≠ []) (hbody : call.target.body.isSome = true)
    (hknown : ∃ id, S.env.hierarchy.lookupMethod id = .ok call.target)
    (hreturns : call.returns = call.target.returns) [S.Sure]
    (h : Here S cur [] [] A w a q.frame) (hlast : q.last = some a)
    (hl : Lifting S cur w.table q.block) (hway : Way S q.block (S.exceptionTarget q.position))
    (hargs : ∀ v ∈ call.args, Has S (A a) w v.node) :
    Ensures E (inlineCall parse call q) S w (Gets S cur [] [] A w a q.block) := by
  have hE := hallow.ordinary
  obtain ⟨body, hbody⟩ := Option.isSome_iff_exists.1 hbody
  unfold inlineCall
  refine ensures_read_bind ?_
  dsimp only
  refine .chain (ensures_demand hbody ?_)
  refine .chain (ensures_checkBudget hE ?_)
  refine .chain (ensures_liftExcept (fun f hwith => ?_) fun e he => hE e (Frame.withArgs_error he))
  have hf : Carries S (A a) w f := .of_has fun v hv => hargs v (Frame.mem_values_withArgs hwith hv)
  refine .chain (ensures_liftExcept (fun inner hinner => ?_) fun e he => ?_)
  rotate_left
  · obtain ⟨id, hid⟩ := hknown
    exact hallow.map hid hbody (Scope.ofMethod_error he)
  obtain ⟨hmap, henv, -, hmethod, hbodyeq, hchaineq, hcallers⟩ := Scope.ofMethod_ok hinner
  have hdepth : inner.depth ≠ 0 := by
    have := List.length_pos_iff.2 hchain
    simp only [Scope.depth, hchaineq, List.length_append, List.length_singleton]
    omega
  have henters := fun htame => h.enters
    (h.sure (hbodyeq ▸ BlockMap.charts_of_ofBody hmap) htame hcallers) hdepth hf
  refine .chain (ensures_takeLast hlast ?_)
  dsimp only
  refine (ensures_inside (Q := fun x w' => ∃ w1 A', Left (S.enter w inner (A a)) A
    { w with table := Table.blank inner.blocks.size } a x w1 A' ∧ w' = { w1 with table := w.table })
    ((hparse (S.enter w inner (A a)) _ _ _ _ henv (hchaineq ▸ by simp) henters).mono fun x w' hx =>
      ?_)).bind fun x w5 h5 => ?_
  · obtain ⟨A', hx⟩ := hx
    exact ⟨w', A', hx, rfl⟩
  obtain ⟨w6, A6, hleft, hw5⟩ := h5
  have hg5 : w5.graph = w6.graph := by rw [hw5]
  obtain ⟨⟨bare, hgood5, hbare⟩, hev5, hagree, hlasts5⟩ := hleft.back h
  rw [← hw5] at hgood5 hev5 hlasts5
  rw [← hg5] at hbare
  refine (ensures_changeReport (w := w5) (Q := fun _ w' => w'.graph = w5.graph ∧ w'.table = w5.table)
    ⟨rfl, rfl⟩).bind fun _ w7 h7 => ?_
  have hext7 : Extends S [] w5 w7 := .of_eq h7.1 h7.2
  have hgood7 := hgood5.of_eq h7.1 h7.2
  have hev7 : Evolves S [a] w w7 := hev5.trans (hext7.toEvolves.weaken (by simp))
  have hback7 : w7.graph.Backs (S.Open w7.table) q.frame :=
    hext7.backs (hlasts5.backs h.carries.backs)
  rw [← h7.1] at hbare
  have hexit : ∀ y, Leaves (S.enter w inner (A a)) A6 w6 y → w.graph.nodeCount ≤ y.node.index ∧
      (∀ l, A a l → A6 y.node l) ∧ Foot S A6 w7 y.node ∧ w7.graph.outgoing y.node = [] ∧
      (∃ k, w7.graph.kind? y.node = some k ∧ k.exits = [.next]) ∧
      Carries S (A6 y.node) w7 y.frame := by
    intro y hy
    obtain ⟨hfoot, hcar⟩ := hy.foot' h
    rw [← hw5] at hfoot hcar
    refine ⟨hy.young, fun l hl => hy.foot.base l (.inl hl),
      hfoot.mono hgood5 hext7.toEvolves (.refl _ _ _), ?_, ?_, hcar.extend hgood5 hext7⟩
    · rw [h7.1, hg5]
      exact hy.outgoing
    · rw [h7.1, hg5]
      exact hy.plain
  have hret : ∀ y, x.returned = some y → call.returns ≠ .void → y.frame.stack ≠ [] := by
    intro y hy
    rw [hreturns, ← hmethod]
    exact (hleft.returned y hy).2
  cases hun : x.unwound with
  | none =>
    dsimp only
    have hnodes : x.nodes = x.returned.toList.map (·.node) := by simp [Exits.nodes, hun]
    rw [hnodes] at hgood7 hbare
    refine Resumed.finish (q := { q with last := none }) h rfl
      ⟨hgood7, hbare, hev7, hagree, hback7, ?_, ?_, ?_, ?_, ?_, ?_⟩ hret
    · exact fun y hy => (hexit y (hleft.returned y hy).1).1
    · exact fun y hy => (hexit y (hleft.returned y hy).1).2.1
    · exact fun y hy => (hexit y (hleft.returned y hy).1).2.2.1
    · exact fun y hy => (hexit y (hleft.returned y hy).1).2.2.2.1
    · exact fun y hy => (hexit y (hleft.returned y hy).1).2.2.2.2.1
    · exact fun y hy => (hexit y (hleft.returned y hy).1).2.2.2.2.2
  | some z =>
    dsimp only
    obtain ⟨hz, v, hv, hk⟩ := hleft.unwound z hun
    refine (Resumed.unwind (q := { q with last := none }) (o := x.returned) hE h hgood7 ?_
      hbare hev7 hagree hback7 hl hway ?_ (fun y hy => hleft.distinct y z hy hun) hv hk).bind
      fun _ w8 h8 => ?_
    · intro n hn
      simp only [Exits.nodes, hun, List.map_append, List.mem_append] at hn
      exact hn.symm.imp_left (by simp)
    · rintro y (hy | hy)
      · cases hy
        exact hexit z hz
      · exact hexit y (hleft.returned y hy).1
    · obtain ⟨A8, bare8, hr⟩ := h8
      exact hr.finish (q := { q with last := none }) h rfl hret

/-! ## The whole call -/

theorem ensures_askInlining {plugins : List InlinePlugin} {Q : InlineDecision → Work → Prop}
    (h : ∀ d w', w'.graph = w.graph → w'.table = w.table → (plugins = [] → d = .noDecision) → Q d w') :
    Ensures E (askInlining t plugins) sc w Q := by
  induction plugins generalizing w with
  | nil => exact ensures_pure (h _ w rfl rfl fun _ => rfl)
  | cons plugin rest ih =>
    unfold askInlining consult
    refine ensures_read_bind ?_
    refine Ensures.bind (Q := fun _ w' => w'.graph = w.graph ∧ w'.table = w.table)
      (show Ensures E _ sc w _ from ⟨rfl, rfl⟩) fun _ w1 h1 => ?_
    split
    · exact ih fun d w' hg ht _ => h d w' (hg.trans h1.1) (ht.trans h1.2) nofun
    · exact ensures_pure (h _ w1 h1.1 h1.2 nofun)

theorem body_of_fitsPolicy (h : fitsPolicy sc t = true) : t.body.isSome = true := by
  simp only [fitsPolicy, Bool.and_eq_true, MethodDecl.codeSize?] at h
  obtain ⟨⟨-, hsize⟩, -⟩ := h
  cases hb : t.body with
  | none =>
    rw [hb] at hsize
    cases hsize
  | some b => rfl

theorem ensures_shouldInline {Q : Bool → Work → Prop} (h : ∀ b w', w'.graph = w.graph →
      w'.table = w.table → (b = true → call.target.body.isSome = true ∧
        (sc.env.plugins.inlining = [] → fitsPolicy sc call.target = true)) → Q b w') :
    Ensures E (shouldInline call) sc w Q := by
  unfold shouldInline
  refine ensures_read_bind ?_
  split
  · refine (ensures_askInlining (Q := fun d w' => w'.graph = w.graph ∧ w'.table = w.table ∧
      (sc.env.plugins.inlining = [] → d = .noDecision)) fun _ w' hg ht hd => ⟨hg, ht, hd⟩).bind
      fun d w' hd => ?_
    obtain ⟨hg, ht, hd⟩ := hd
    split
    · exact ensures_pure (h _ _ hg ht fun hb => ⟨hb, fun hno => by cases hd hno⟩)
    · exact ensures_pure (h _ _ hg ht fun hb => by cases hb)
    · exact ensures_pure (h _ _ hg ht fun hb => ⟨body_of_fitsPolicy hb, fun _ => hb⟩)
  · exact ensures_pure (h _ _ rfl rfl fun hb => by cases hb)

section Whole

variable {nested : Option Parser} {kind : CallKind}

/-- The calls of the method that are to be inlined can be. -/
structure Nests (E : Error → Prop) (sc : Scope) (nested : Option Parser) : Prop where
  allows : Allows E sc.env
  chain : sc.chain ≠ []
  parser : ∀ parse, nested = some parse → ParserGood E sc.env parse

theorem lowerCall_good (hn : Nests E S nested)
    (hknown : ∃ id, S.env.hierarchy.lookupMethod id = .ok call.target)
    (hreturns : call.returns = call.target.returns) [S.Sure]
    (h : Here S cur [] [] A w a q.frame) (hlast : q.last = some a)
    (hl : Lifting S cur w.table q.block) (hway : Way S q.block (S.exceptionTarget q.position))
    (hargs : ∀ v ∈ call.args, Has S (A a) w v.node) :
    Ensures E (lowerCall nested call q) S w fun r w' => Gets S cur [] [] A w a q.block r.2 w' := by
  unfold lowerCall
  refine ensures_read_bind ?_
  rw [hn.allows.calls]
  refine ensures_pure_bind ?_
  dsimp only
  refine (ensures_shouldInline (Q := fun b w' => w'.graph = w.graph ∧ w'.table = w.table ∧
    (b = true → call.target.body.isSome = true))
    fun b w' hg ht hb => ⟨hg, ht, fun h => (hb h).1⟩).bind fun b w1 h1 => ?_
  obtain ⟨hg1, ht1, hb⟩ := h1
  have hext1 : Extends S [] w w1 := .of_eq hg1 ht1
  have here1 := h.extend (h.good.of_eq hg1 ht1) hext1 (.refl _ _ _) (by simp)
  have hl1 := hl.mono hext1.keeps
  have hargs1 : ∀ v ∈ call.args, Has S (A a) w1 v.node := fun v hv => (hargs v hv).extend h.good hext1
  split
  · next hin =>
    cases hnested : nested with
    | none =>
      dsimp only
      exact (ensures_throw (Q := fun _ _ => False) (hn.allows.ordinary _ rfl)).bind
        fun _ _ hf => hf.elim
    | some parse =>
      dsimp only
      refine (inlineCall_good hn.allows (hn.parser parse hnested) hn.chain (hb hin) hknown hreturns
        here1 hlast hl1 hway hargs1).bind fun q' w2 h2 => ensures_pure ?_
      obtain ⟨A2, hwent⟩ := h2
      exact ⟨A2, hwent.after hext1.toEvolves (.refl _ _ _)⟩
  · refine (callNode_good hn.allows.ordinary here1 hlast hl1 hway hargs1).bind
      fun r w2 h2 => ensures_pure ?_
    obtain ⟨A2, hwent⟩ := h2
    exact ⟨A2, hwent.after hext1.toEvolves (.refl _ _ _)⟩

theorem ensures_recordCall {d : Devirtualization} {o : Outcome}
    (h : ∀ w', w'.graph = w.graph → w'.table = w.table → Q () w') :
    Ensures E (recordCall p declared d o) sc w Q := by
  unfold recordCall
  exact ensures_read_bind (ensures_changeReport (h _ rfl rfl))

theorem Went.of_eq {b : BlockId} {w'' : Work} (h : Went S cur bare part A w a b q w' A')
    (hg : w''.graph = w'.graph) (ht : w''.table = w'.table) :
    Went S cur bare part A w a b q w'' A' := by
  have hext : Extends S [] w' w'' := .of_eq hg ht
  refine ⟨?_, h.evolves.then hext.toEvolves (by simp), h.agree, h.young, h.block⟩
  have hnow := h.now
  unfold At at hnow ⊢
  split
  · next n hn =>
    rw [hn] at hnow
    exact hnow.extend (hnow.good.of_eq hg ht) hext (.refl _ _ _) (by simp)
  · next hn =>
    rw [hn] at hnow
    exact hnow.of_eq hg ht

theorem devirtualize_known {h : Hierarchy} {g : Graph} {via : Proof}
    (hd : devirtualize h g m args = some (t, via)) : ∃ id, h.lookupMethod id = .ok t := by
  unfold devirtualize at hd
  simp only [bind, Option.bind_eq_some_iff] at hd
  obtain ⟨⟨target, v⟩, -, d, hr, heq⟩ := hd
  cases heq
  refine ⟨target, ?_⟩
  unfold Hierarchy.resolved? at hr
  cases hl : h.lookupMethod target with
  | error e =>
    rw [hl] at hr
    cases hr
  | ok d' =>
    rw [hl] at hr
    cases hr
    rfl

theorem liftResolved_good (hn : Nests E S nested)
    (hm : S.env.hierarchy.lookupMethod declared = .ok m) [S.Sure]
    (h : Here S cur [] [] A w a q.frame) (hlast : q.last = some a)
    (hl : Lifting S cur w.table q.block) (hway : Way S q.block (S.exceptionTarget q.position)) :
    Ensures E (liftResolved nested kind m q) S w (Gets S cur [] [] A w a q.block) := by
  unfold liftResolved
  refine ensures_read_bind ?_
  refine (popArgs_good hn.allows.ordinary h).bind fun r w1 h1 => ?_
  obtain ⟨args, q1⟩ := r
  obtain ⟨rfl, hargs, f, here, rfl⟩ := h1
  dsimp only
  have hrest : ∀ {k t d}, (∃ id, S.env.hierarchy.lookupMethod id = .ok t) →
      Ensures E (lowerBound nested m.id d ⟨k, t, args, t.returns⟩ { q with frame := f }) S w1
        (Gets S cur [] [] A w1 a q.block) := by
    intro k t d hknown
    refine (lowerCall_good (q := { q with frame := f }) hn hknown rfl here hlast hl hway hargs).bind
      fun r w2 h2 => ?_
    obtain ⟨A2, hwent⟩ := h2
    exact (ensures_recordCall (Q := fun _ w' => w'.graph = w2.graph ∧ w'.table = w2.table)
      fun w' hg ht => ⟨hg, ht⟩).bind fun _ w3 h3 => ensures_pure ⟨A2, hwent.of_eq h3.1 h3.2⟩
  split
  · exact ensures_pure_bind (hrest ⟨declared, hm⟩)
  · refine ensures_get_bind ?_
    split
    · next t via hd => exact ensures_pure_bind (hrest (devirtualize_known hd))
    · exact ensures_pure_bind (hrest ⟨declared, hm⟩)

theorem abandonCall_good {reason : DeoptReason} [S.Sure]
    (h : Here S cur [] [] A w a q.frame) (hlast : q.last = some a) :
    Ensures E (abandonCall declared reason q) S w (Gets S cur [] [] A w a q.block) := by
  unfold abandonCall
  refine (deoptimize_good h hlast).bind fun q1 w1 h1 => ?_
  obtain ⟨-, A1, hwent⟩ := h1
  exact (ensures_recordCall (Q := fun _ w' => w'.graph = w1.graph ∧ w'.table = w1.table)
    fun w' hg ht => ⟨hg, ht⟩).bind fun _ w2 h2 => ensures_pure ⟨A1, hwent.of_eq h2.1 h2.2⟩

theorem invoke_good (hn : Nests E S nested) [S.Sure]
    (h : Here S cur [] [] A w a q.frame) (hlast : q.last = some a)
    (hl : Lifting S cur w.table q.block) (hway : Way S q.block (S.exceptionTarget q.position)) :
    Ensures E (invoke nested kind declared q) S w (Gets S cur [] [] A w a q.block) := by
  unfold invoke
  refine ensures_read_bind ?_
  split
  · exact abandonCall_good h hlast
  · split
    · refine (ensures_recordUnresolved (Q := fun _ w' => w'.graph = w.graph ∧ w'.table = w.table)
        fun _ hg ht => ⟨hg, ht⟩).bind fun _ w1 h1 => ?_
      have hext : Extends S [] w w1 := .of_eq h1.1 h1.2
      refine (abandonCall_good (h.extend (h.good.of_eq h1.1 h1.2) hext (.refl _ _ _) (by simp))
        hlast).mono fun q' w' h' => ?_
      obtain ⟨A', hwent⟩ := h'
      exact ⟨A', hwent.after hext.toEvolves (.refl _ _ _)⟩
    · next m hm =>
      split
      · exact ensures_verify_bind (hn.allows.ordinary _ rfl)
      · exact liftResolved_good hn hm h hlast hl hway

end Whole

end Calls

end StackLift
