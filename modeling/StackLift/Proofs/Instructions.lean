import StackLift.Proofs.Points

/-!
# Instructions

What each instruction but a call does: it computes on the frame, puts a node after the control point,
or sends control away. A branch ends with all the edges of its kind, in order.
-/
namespace StackLift

variable {op : ArithOp} {I : List NodeId} {t : Position}

open BuildM

section Instructions

variable {E : Error → Prop} {α β : Type} {sc : Scope} {S : Scene} {P : NodeSet} {cur : Nat}
  {bare part loose : List NodeId} {A A' A2 A1 : Labels} {w w' w2 w1 : Work}
  {source target : BlockId} {f s : Frame} {a n : NodeId} {p p' default : Position} {k : NodeKind}
  {q q' : Point} {b c : BlockId}

theorem ensures_blockAt {Q : BlockId → Work → Prop} (hc : sc.blocks.blockAt? p = some c)
    (h : Q c w) : Ensures E (blockAt p) sc w Q := by
  unfold blockAt
  exact ensures_read_bind (ensures_demand hc h)

theorem ensures_recordUnresolved {reference : Reference} {why : Absence} {Q : Unit → Work → Prop}
    (h : ∀ w', w'.graph = w.graph → w'.table = w.table → Q () w') :
    Ensures E (recordUnresolved p reference why) sc w Q := by
  unfold recordUnresolved
  exact ensures_read_bind (ensures_changeReport (h _ rfl rfl))

theorem Shape.code [S.Fit] (hc : S.blocks.blockAt? p = some c) : Shape S c f := by
  unfold Shape
  rw [(S.charts.blockAt hc).2.1]
  trivial

theorem Here.compute {kind : ValueKind} (h : Here S cur bare part A w a q.frame)
    (hlast : q.last = some a) (hk : k.refers = false) (hc : k.isControl = false)
    (hin : ∀ i ∈ I, Has S (A a) w i) :
    Ensures E (do
      let n ← addNode k I
      return q.push ⟨n, kind⟩) S w (Gets S cur bare part A w a q.block) := by
  refine (h.data hk hc hin).bind fun n w1 h1 => ensures_pure ?_
  obtain ⟨here, hext, -, hhas⟩ := h1
  exact ⟨A, .stay (here.frame (here.carries.push hhas)) hlast hext.toEvolves (.refl _ _ _) rfl⟩

theorem unary_good (hE : Expects E)
    (h : Here S cur bare part A w a q.frame) (hlast : q.last = some a) :
    Ensures E (unary op q) S w (Gets S cur bare part A w a q.block) := by
  unfold unary
  refine h.popKind hE fun v f _ hv here => ?_
  exact here.compute (q := { q with frame := f }) (I := [v.node]) hlast rfl rfl (by simpa using hv)

theorem binary_good [S.Sure] (hE : Expects E)
    (h : Here S cur bare part A w a q.frame) (hlast : q.last = some a)
    (hl : Lifting S cur w.table q.block) (hway : Way S q.block (S.exceptionTarget q.position)) :
    Ensures E (binary op q) S w (Gets S cur bare part A w a q.block) := by
  unfold binary
  refine h.popKind hE fun y f _ hy here => ?_
  refine here.popKind (q := { q with frame := f }) hE fun x f' _ hx here' => ?_
  refine ensures_read_bind ?_
  have hin : ∀ {P : NodeSet} {w : Work}, Has S P w x.node → Has S P w y.node →
      ∀ i ∈ [x.node, y.node], Has S P w i := by
    intro P w h1 h2 i hi
    simp only [List.mem_cons, List.not_mem_nil, or_false] at hi
    rcases hi with rfl | rfl
    · exact h1
    · exact h2
  dsimp only
  split
  · refine (zeroCheck_good (q := { q with frame := f' }) hE here' hlast hl hway hy).bind
      fun q1 w1 h1 => ?_
    obtain ⟨n, A1, rfl, hwent, hhas⟩ := h1
    refine ((hwent.now.here rfl).compute (q := { q with frame := f', last := some n }) rfl
      (k := .arithmetic op) rfl rfl (hin (hhas _ hx) (hhas _ hy))).mono fun q2 w2 h2 => ?_
    obtain ⟨A2, h2⟩ := h2
    exact ⟨A2, hwent.trans rfl h2⟩
  · exact ensures_pure_bind (here'.compute (q := { q with frame := f' }) hlast rfl rfl (hin hx hy))

/-! ## Branches -/

theorem Appended.branched {ks : List EdgeKind}
    (ha : Appended S cur bare part A w a k I n w' A') (hs : Splits S cur bare part A2 w2 n k ks)
    (hks : ks = k.exits) (hev : Evolves S [n] w' w2) (hA : Agree S w' A' A2) (hlast : q.last = none)
    (hb : q.block = b) : Went S cur bare part A w a b q w2 A2 := by
  refine .gone (hs.finish hks) hlast (ha.extends_.toEvolves.then hev ?_)
    (ha.agree.trans ha.extends_.toEvolves hA) hb
  simp [ha.fresh]

section

variable [S.Sure] (hE : Expects E) (h : Here S cur bare part A w a q.frame)
  (hlast : q.last = some a) (hl : Lifting S cur w.table q.block)
  (ht : ∃ c, S.blocks.blockAt? t = some c ∧ Way S q.block c)
  (hnext : ∃ c, S.blocks.blockAt? q.position.next = some c ∧ Way S q.block c)
include hE h hlast hl ht hnext

theorem branch_good {condition : NodeId} (hc : Has S (A a) w condition) :
    Ensures E (branch condition t q) S w fun q' w' => q'.last = none ∧
    Gets S cur bare part A w a q.block q' w' := by
  obtain ⟨c, hct, hwt⟩ := ht
  obtain ⟨d, hdn, hwn⟩ := hnext
  unfold branch
  refine ensures_read_bind ?_
  refine .chain (append_good h hlast (k := .ifNode) (I := [condition]) rfl rfl rfl rfl (by simpa using hc)
    fun split w1 A1 ha => ?_)
  have hl1 : Lifting S cur w1.table q.block := hl.mono ha.extends_.keeps
  refine .chain (ensures_blockAt hct ?_)
  refine .chain (ensures_blockAt hdn ?_)
  refine (addBranch_good hE (ha.splits rfl rfl) hl1 hwt (ha.carries h.good h.carries)
    (.code hct)).bind fun _ w2 h2 => ?_
  obtain ⟨A2, hs2, hev2, hA2, hf2⟩ := h2
  refine (addBranch_good hE hs2 (hl1.mono hev2.keeps) hwn hf2 (.code hdn)).bind
    fun _ w3 h3 => ensures_pure ?_
  obtain ⟨A3, hs3, hev3, hA3, -⟩ := h3
  exact ⟨rfl, A3, ha.branched hs3 rfl (hev2.trans hev3) (hA2.trans hev2 hA3) rfl rfl⟩

theorem nullBranch_good {cond : Condition} :
    Ensures E (nullBranch cond t q) S w fun q' w' => q'.last = none ∧
    Gets S cur bare part A w a q.block q' w' := by
  unfold nullBranch
  refine h.popKind hE fun x f _ hx here => ?_
  refine (here.data rfl rfl (by simp)).bind fun null w1 h1 => ?_
  obtain ⟨here1, hext1, hnew1, hnull⟩ := h1
  refine (here1.data (I := [x.node, null]) rfl rfl ?_).bind fun test w2 h2 => ?_
  · intro i hi
    simp only [List.mem_cons, List.not_mem_nil, or_false] at hi
    rcases hi with rfl | rfl
    · exact hx.extend here.good hext1
    · exact hnull
  obtain ⟨here2, hext2, hnew2, htest⟩ := h2
  have hev := (hext1.trans hext2).toEvolves
  refine (branch_good (q := { q with frame := f }) hE here2 hlast (hl.mono hev.keeps) ht hnext
    htest).mono fun q' w' h' => ?_
  obtain ⟨hnone, A', hwent⟩ := h'
  exact ⟨hnone, A', hwent.after hev (.refl _ _ _)⟩

end

theorem length_switchProbabilities (profile : Profile) (m : MethodId) (p : Position) (count : Nat) :
    (profile.switchProbabilities m p count).length = count := by
  unfold Profile.switchProbabilities
  dsimp only
  split
  · split
    · next ps _ hd =>
      simp only [Profile.isDistribution, Bool.and_eq_true, beq_iff_eq] at hd
      exact hd.1.1
    · exact List.length_replicate
  · exact List.length_replicate

theorem switch_good {keys : List Int64} {targets : List Position} [S.Sure] (hE : Expects E)
    (h : Here S cur bare part A w a q.frame) (hlast : q.last = some a)
    (hl : Lifting S cur w.table q.block) (harity : keys.length = targets.length)
    (ht : ∀ t ∈ targets ++ [default], ∃ c, S.blocks.blockAt? t = some c ∧ Way S q.block c) :
    Ensures E (switch keys targets default q) S w fun q' w' => q'.last = none ∧
      Gets S cur bare part A w a q.block q' w' := by
  unfold switch
  refine h.popKind hE fun key f _ hkey here => ?_
  refine ensures_read_bind ?_
  refine .chain (append_good (q := { q with frame := f }) here hlast (k := .switch keys) (I :=
    [key.node]) rfl rfl rfl rfl (by simpa using hkey) fun split w1 A1 ha => ?_)
  have hl1 : Lifting S cur w1.table q.block := hl.mono ha.extends_.keeps
  dsimp only
  -- the kinds of the edges that are there, and of those that are still to come
  refine (ensures_forIn (fun rest w' => (∀ x ∈ rest, x.1.1 ∈ targets ++ [default]) ∧ ∃ ks A',
    Splits S cur bare part A' w' split (.switch keys) ks ∧
      ks ++ rest.map (·.2) = caseKinds targets.length ∧ Evolves S [split] w1 w' ∧
      Agree S w1 A1 A' ∧ Carries S (A' split) w' f) ?_ ?_).bind fun _ w2 h2 => ensures_pure ?_
  · rintro ⟨⟨t, probability⟩, kind⟩ rest w' ⟨hmem, ks, A', hs, hks, hev, hA, hf⟩
    obtain ⟨c, hct, hwt⟩ := ht t (hmem ((t, probability), kind) (by simp))
    refine .chain (ensures_blockAt hct ?_)
    refine (addBranch_good hE hs (hl1.mono hev.keeps) hwt hf (.code hct)).bind
      fun _ w2 h2 => ensures_pure ?_
    obtain ⟨A2, hs2, hev2, hA2, hf2⟩ := h2
    refine ⟨rfl, fun c hx => hmem c (List.mem_cons_of_mem _ hx), ks ++ [kind], A2, hs2, ?_,
      hev.trans hev2, hA.trans hev hA2, hf2⟩
    simpa using hks
  · refine ⟨?_, [], A1, ha.splits rfl rfl, ?_, .refl _ _ _, .refl _ _ _,
      ha.carries here.good here.carries⟩
    · rintro ⟨⟨t, pr⟩, kind⟩ hx
      exact (List.of_mem_zip (List.of_mem_zip hx).1).1
    · rw [List.nil_append, List.map_snd_zip]
      simp [caseKinds, Scope.switchProbabilities, length_switchProbabilities]
  · obtain ⟨-, ks, A2, hs2, hks, hev2, hA2, -⟩ := h2
    refine ⟨rfl, A2, ha.branched hs2 ?_ hev2 hA2 rfl rfl⟩
    rw [List.map_nil, List.append_nil] at hks
    rw [hks, NodeKind.exits, harity]

/-! ## Effects -/

theorem Appended.effect [S.Sure] (ha : Appended S cur bare part A w a k I n w' A')
    (he : k.isStateEffecting = true) (hx : k.exits = [.next]) (hs : Carries S (A' n) w' s)
    (hf : Carries S (A' n) w' q.frame) (hlast : q.last = some n) (hb : q.block = b) :
    Ensures E (attachSnapshot n s p') S w' fun _ w'' => Gets S cur bare part A w a b q w'' := by
  refine (ha.capture he hx hs hf).mono fun _ w'' h'' => ?_
  obtain ⟨here, hext, ht⟩ := h''
  refine ⟨A', here.at hlast, ha.extends_.toEvolves.then hext.toEvolves (by simp), ha.agree,
    fun m hm => ?_, hb⟩
  rw [hlast] at hm
  cases hm
  exact .inr ha.fresh

theorem withType_good {type : TypeId} {act : BuildM Point} [S.Sure]
    (h : Here S cur bare part A w a q.frame) (hlast : q.last = some a)
    (hact : Ensures E act S w (Gets S cur bare part A w a q.block)) :
    Ensures E (withType type q act) S w (Gets S cur bare part A w a q.block) := by
  unfold withType
  refine ensures_read_bind ?_
  split
  · exact hact
  · refine (ensures_recordUnresolved (Q := fun _ w' => w'.graph = w.graph ∧ w'.table = w.table)
      fun _ hg ht => ⟨hg, ht⟩).bind fun _ w1 h1 => ?_
    have hgood := h.good.of_eq h1.1 h1.2
    have hext : Extends S [] w w1 := .of_eq h1.1 h1.2
    refine (deoptimize_good (h.extend hgood hext (.refl _ _ _) (by simp)) hlast).mono
      fun q' w' h' => ?_
    obtain ⟨-, A', hwent⟩ := h'
    exact ⟨A', hwent.after hext.toEvolves (.refl _ _ _)⟩

/-! ## Ways out -/

theorem Here.settle (h : Here S cur bare part A w a f) (hlast : q.last = some a)
    (hsent : Sent S (A a) cur bare [] (a :: part) A s w n w' A') :
    Ensures E (do
      let x ← q.takeLast
      follow x.1 n
      pure x.2) S w' fun q' w'' => q'.last = none ∧ Gets S cur bare part A w a q.block q' w'' := by
  refine .chain (ensures_takeLast hlast ?_)
  refine (h.goto hsent fun l hl => hl).bind fun _ w3 h3 => ensures_pure ?_
  exact ⟨rfl, A', .gone h3.1 rfl h3.2.1 hsent.agree rfl⟩

theorem addLast_good (h : Good S cur bare loose part A w)
    (hk : k = .returnNode ∨ k = .unwind) (hin : ∀ i ∈ I, Has S P w i) :
    Ensures E (addNode k I) S w fun n w' =>
      Good S cur bare (n :: loose) part (label A n P) w' ∧ Extends S [] w w' ∧
        Agree S w A (label A n P) ∧ Ready S part (label A n P) P w' n ∧
        w.graph.nodeCount ≤ n.index := by
  have hkind : k.isControl = true ∧ k.refers = false ∧ k.isMerge = false ∧ k.isPlace = false ∧
      k.isStateEffecting = false ∧ k.exits = [] ∧ k ≠ .merge := by
    rcases hk with rfl | rfl <;> exact ⟨rfl, rfl, rfl, rfl, rfl, rfl, nofun⟩
  obtain ⟨hc, hr, hm, hpl, he, hx, hne⟩ := hkind
  refine (addControl_good h P hc (.plain hr fun i hi => (hin i hi).usable)
    (fun i hi => (hin i hi).avail) (by rw [hm, hpl]; simp)).mono fun n w1 h1 => ?_
  obtain ⟨hgood, hext, hnew⟩ := h1
  rw [he] at hgood
  have hfresh : w.graph.nodeCount ≤ n.index := Nat.le_of_eq hnew.fresh.symm
  refine ⟨hgood.finish hnew.kind ?_ (fun heq => absurd heq hne), hext,
    .of_old fun m hm => label_of_lt (Nat.lt_of_lt_of_le hm hfresh),
    ⟨hnew.stub h.inv hc hm, hnew.incoming, ?_, fun l hl => (label_self A n P l).1 hl⟩, hfresh⟩
  · rw [Graph.outKinds, hnew.outgoing, hx]
    rfl
  · rintro ⟨hv, -⟩
    rw [Graph.kindIs_of_kind? hnew.kind, hpl] at hv
    cases hv

/-- Behind the exits of all loops, the method returns what is in `results`. -/
theorem leave_good {r : List Value} {c : Option ExitChain} [S.Sure] (hE : Expects E)
    (h : Here S cur bare part A w a f) (hlast : q.last = some a)
    (hl : Lifting S cur w.table q.block) (hexit : Way S q.block S.blocks.exitBlock)
    (hext1 : Extends S [] w w1) (hagree1 : Agree S w A A1)
    (hgood1 : Good S cur bare (firsts c ++ []) (lasts c ++ a :: part) A1 w1)
    (hch1 : ∀ x ∈ c, Chained S (a :: part) A1 (A a) w1 x ∧ w.graph.nodeCount ≤ x.first.index ∧
      w.graph.nodeCount ≤ x.last.index)
    (hres : ∀ v ∈ r, Has S (past A1 (A a) c) w1 v.node)
    (hsome : S.method.returns ≠ .void → r ≠ []) :
    Ensures E (if S.depth = 0 then addNode .returnNode (r.map (·.node)) >>= leave q c
      else createTarget q.block S.blocks.exitBlock { stack := r } p' >>= leave q c) S w1
      fun q' w' => q'.last = none ∧ Gets S cur bare part A w a q.block q' w' := by
  have hblank : w1.graph.Backs (S.Open w1.table) {} := by
    intro v hv
    simp [Frame.mem_values] at hv
  split
  · refine (addLast_good hgood1 (.inl rfl) (I := r.map (·.node)) (P := past A1 (A a) c) ?_).bind
      fun stub w2 h2 => ?_
    · intro i hi
      obtain ⟨v, hv, rfl⟩ := List.mem_map.1 hi
      exact hres v hv
    · obtain ⟨hgood2, hext2, hagree2, hready2, hfresh2⟩ := h2
      refine (prependExits_sent hext1 hagree1 hgood1 hch1 hgood2 hext2.toEvolves hagree2 hready2
        hfresh2 (hext2.backs hblank)).bind fun head w3 h3 => ?_
      exact h.settle hlast h3.1
  · next hdepth =>
    have hcarry : Carries S (past A1 (A a) c) w1 { stack := r } := by
      refine .of_has fun v hv => hres v ?_
      simpa [Frame.mem_values] using hv
    have hshape : Shape S S.blocks.exitBlock { stack := r } := by
      unfold Shape
      rw [(S.charts.exit exitBlock_lt).2 rfl]
      exact ⟨hdepth, hsome⟩
    refine (createTarget_good hE hgood1 (hl.mono hext1.keeps) hexit
      (fun l hB => past_of (fun x hx => (hch1 x hx).1) l (h.base l hB)) hcarry hshape).bind
      fun stub w2 h2 => ?_
    obtain ⟨A2, dead, hled, hdead⟩ := h2
    have hnil := hdead (S.charts.wayOut_not_header (.inl rfl))
    subst hnil
    refine (prependExits_sent hext1 hagree1 hgood1 hch1 hled.good hled.evolves hled.agree hled.ready
      hled.fresh fun v hv => hled.spares.usable _ (by simp) (hblank v hv)).bind fun head w3 h3 => ?_
    exact h.settle hlast h3.1

theorem ensures_verify_bind {fault : Fault} {rest : α → BuildM β} {Q : β → Work → Prop}
    (h : E (.verification p fault)) : Ensures E (verify p fault >>= rest) sc w Q :=
  (ensures_verify (Q := fun _ _ => False) h).bind fun _ _ hf => hf.elim

section

variable [S.Sure] (hE : Expects E) (h : Here S cur bare part A w a q.frame)
  (hlast : q.last = some a) (hl : Lifting S cur w.table q.block)
include hE h hlast hl

theorem emitReturn_good {o : Option Value}
    (hexit : Way S q.block S.blocks.exitBlock) (hv : ∀ v, o = some v → Has S (A a) w v.node) :
    Ensures E (emitReturn o q) S w fun q' w' => q'.last = none ∧
      Gets S cur bare part A w a q.block q' w' := by
  unfold emitReturn
  refine ensures_read_bind ?_
  dsimp only
  cases o with
  | none =>
    dsimp only
    split
    · exact ensures_verify_bind (hE _ rfl)
    next hvoid =>
    split
    · exact ensures_verify_bind (hE _ rfl)
    refine (exitLoops_good h.good hl h.base h.carries).bind fun r w1 h1 => ?_
    obtain ⟨A1, hgood1, hext1, hagree1, ht1, hcar1, hch1, hrel1⟩ := h1
    refine ensures_pure_bind ?_
    exact leave_good hE h hlast hl hexit hext1 hagree1 hgood1 hch1 (by simp)
      fun hne => absurd hne hvoid
  | some v =>
    dsimp only
    split
    · exact ensures_verify_bind (hE _ rfl)
    split
    · exact ensures_verify_bind (hE _ rfl)
    refine (exitLoops_good h.good hl h.base (h.carries.push (hv v rfl))).bind fun r w1 h1 => ?_
    obtain ⟨A1, hgood1, hext1, hagree1, ht1, hcar1, hch1, hrel1⟩ := h1
    obtain ⟨u, rest, hstack⟩ : ∃ u rest, r.1.stack = u :: rest := by
      have := hrel1.stack
      simp only [Frame.push] at this
      cases hs : r.1.stack with
      | nil =>
        rw [hs] at this
        cases this
      | cons u rest => exact ⟨u, rest, rfl⟩
    rw [Frame.run_pop, hstack]
    dsimp only
    refine ensures_pure_bind ?_
    refine leave_good (r := [u]) hE h hlast hl hexit hext1 hagree1 hgood1 hch1 ?_ (by simp)
    intro x hx
    rw [List.mem_singleton.1 hx]
    exact (hcar1.has_top hstack).2

theorem throw_good {x : Value} (hway : Way S q.block (S.exceptionTarget p))
    (hx : Has S (A a) w x.node) (hk : x.kind = .object) :
    Ensures E (do
      let r ← q.takeLast
      dispatchException r.2.block r.1 r.2.frame x p
      pure r.2) S w fun q' w' => q'.last = none ∧ Gets S cur bare part A w a q.block q' w' := by
  refine .chain (ensures_takeLast hlast ?_)
  refine (dispatchException_good hE h hl hway h.carries hx hk).bind fun _ w3 h3 =>
    ensures_pure ?_
  obtain ⟨A3, hgood3, hev3, hA3, -⟩ := h3
  exact ⟨rfl, A3, .gone hgood3 rfl hev3 hA3 rfl⟩

end

end Instructions

end StackLift
