import StackLift.Proofs.Raise

/-!
# Control points

An instruction starts with control at a node, and leaves control at a node or nowhere (`At`). `Went`
says what else holds between the two: everything outside stays as `Evolves` and `Agree` allow.
-/
namespace StackLift

open BuildM

/-- Control is at the point. -/
def At (S : Scene) (cur : Nat) (bare part : List NodeId)
    (A : Labels) (w : Work) (q : Point) : Prop :=
  match q.last with
  | some a => Here S cur bare part A w a q.frame
  | none => Good S cur bare [] part A w

/-- Control went from node `a` to the point `q`. -/
structure Went (S : Scene) (cur : Nat) (bare part : List NodeId)
    (A : Labels) (w : Work) (a : NodeId) (b : BlockId) (q : Point) (w' : Work)
    (A' : Labels) : Prop where
  now : At S cur bare part A' w' q
  evolves : Evolves S [a] w w'
  agree : Agree S w A A'
  young : ∀ n, q.last = some n → n = a ∨ w.graph.nodeCount ≤ n.index
  block : q.block = b

/-- Control may have gone from node `a` to the point `q`. -/
abbrev Gets (S : Scene) (cur : Nat) (bare part : List NodeId)
    (A : Labels) (w : Work) (a : NodeId) (b : BlockId) (q : Point) (w' : Work) : Prop :=
  ∃ A', Went S cur bare part A w a b q w' A'

/-- Where control may go on from instruction `i`, at position `p` of block `b`. -/
structure Ways (sc : Scope) (b : BlockId) (p : Position) (i : Instruction Position) : Prop where
  target : ∀ t ∈ i.branchTargets, ∃ c, sc.blocks.blockAt? t = some c ∧ Way sc b c
  next : i.branchTargets ≠ [] → i.fallsThrough = true →
    ∃ c, sc.blocks.blockAt? p.next = some c ∧ Way sc b c
  exit : i.isReturn = true → Way sc b sc.blocks.exitBlock
  thrown : Way sc b (sc.exceptionTarget p)
  arity : ∀ ks ts d, i = .switch ks ts d → ks.length = ts.length

section Points

variable {E : Error → Prop} {α : Type} {sc : Scope} {S : Scene} {P : NodeSet} {cur slot : Nat}
  {bare part ss ss' I : List NodeId} {A A' A'' : Labels} {w w' w'' : Work}
  {source target : BlockId} {f g : Frame} {a n x : NodeId} {p : Position} {k : NodeKind}
  {q q' : Point} {Q : α → Work → Prop} {b : BlockId} {v : Value} {rest : Value × Point → BuildM α}

theorem Evolves.then (h : Evolves S ss w w') (h' : Evolves S ss' w' w'')
    (hs : ∀ n ∈ ss', n ∈ ss ∨ w.graph.nodeCount ≤ n.index) : Evolves S ss w w'' := by
  refine ((h.weaken (List.subset_append_left ss ss')).trans
    (h'.weaken (List.subset_append_right ss ss'))).mono fun n hn => ?_
  rcases List.mem_append.1 hn with hn | hn
  · exact .inl hn
  · exact (hs n hn).imp_right .inr

theorem Here.at (h : Here S cur bare part A w a q.frame) (hlast : q.last = some a) :
    At S cur bare part A w q := by
  unfold At
  rw [hlast]
  exact h

theorem At.here (h : At S cur bare part A w q) (hlast : q.last = some a) :
    Here S cur bare part A w a q.frame := by
  unfold At at h
  rwa [hlast] at h

theorem At.good (h : At S cur bare part A w q) (hlast : q.last = none) :
    Good S cur bare [] part A w := by
  unfold At at h
  rwa [hlast] at h

theorem Went.gone (h : Good S cur bare [] part A' w') (hlast : q.last = none)
    (hev : Evolves S [a] w w') (hA : Agree S w A A') (hb : q.block = b) :
    Went S cur bare part A w a b q w' A' := by
  refine ⟨?_, hev, hA, fun n hn => ?_, hb⟩
  · unfold At
    rw [hlast]
    exact h
  · rw [hlast] at hn
    cases hn

theorem Went.stay (h : Here S cur bare part A' w' a q.frame) (hlast : q.last = some a)
    (hev : Evolves S [] w w') (hA : Agree S w A A') (hb : q.block = b) :
    Went S cur bare part A w a b q w' A' := by
  refine ⟨h.at hlast, hev.weaken (by simp), hA, fun n hn => ?_, hb⟩
  rw [hlast] at hn
  exact .inl (Option.some.inj hn).symm

theorem Went.trans (h : Went S cur bare part A w a b q w' A') (hlast : q.last = some n)
    (h' : Went S cur bare part A' w' n b q' w'' A'') : Went S cur bare part A w a b q' w'' A'' := by
  have hn := h.young n hlast
  refine ⟨h'.now, h.evolves.then h'.evolves ?_, h.agree.trans h.evolves h'.agree, ?_, h'.block⟩
  · intro m hm
    rw [List.mem_singleton.1 hm, List.mem_singleton]
    exact hn
  · intro m hm
    rcases h'.young m hm with rfl | hge
    · exact hn
    · exact .inr (Nat.le_trans h.evolves.grows.count hge)

theorem Went.after (h : Went S cur bare part A' w' a b q w'' A'') (hev : Evolves S [] w w')
    (hA : Agree S w A A') : Went S cur bare part A w a b q w'' A'' :=
  ⟨h.now, (hev.weaken (by simp)).trans h.evolves, hA.trans hev h.agree,
    fun n hn => (h.young n hn).imp_right (Nat.le_trans hev.grows.count), h.block⟩

/-! ## The frame -/

theorem ensures_onFrame {act : FrameM α} {Q : α × Point → Work → Prop}
    (hok : ∀ x f, act.run q.frame = .ok x f → Q (x, { q with frame := f }) w)
    (herr : ∀ e f, act.run q.frame = .error e f → E e) : Ensures E (q.onFrame act) sc w Q := by
  unfold Point.onFrame
  split
  · next x f hx => exact ensures_pure (hok x f hx)
  · next e f hx => exact ensures_throw (herr e f hx)

theorem Carries.has_top {rest : List Value} (h : Carries S P w f)
    (hs : f.stack = v :: rest) : Carries S P w { f with stack := rest } ∧ Has S P w v.node := by
  refine ⟨h.sub fun x hx => ?_, h.has (Frame.mem_values.2 (.inr (.inl (by simp [hs]))))⟩
  simp only [Frame.mem_values, hs, List.mem_cons] at hx ⊢
  tauto

theorem Here.pops {P : Value → Prop} {act : FrameM Value}
    (hp : Frame.Pops P act) (hE : Expects E) (h : Here S cur bare part A w a q.frame)
    (hrest : ∀ v f, P v → Has S (A a) w v.node → Here S cur bare part A w a f →
      Ensures E (rest (v, { q with frame := f })) S w Q) :
    Ensures E (q.onFrame act >>= rest) S w Q := by
  refine .chain (ensures_onFrame (fun v f hrun => ?_) fun e f hrun => hE e (hp.error hrun))
  obtain ⟨hv, s, hs, rfl⟩ := hp.ok hrun
  obtain ⟨h1, h2⟩ := h.carries.has_top hs
  exact hrest v _ hv h2 (h.frame h1)

theorem Here.popKind {kind : ValueKind} (hE : Expects E) (h : Here S cur bare part A w a q.frame)
    (hrest : ∀ v f, v.kind = kind → Has S (A a) w v.node → Here S cur bare part A w a f →
      Ensures E (rest (v, { q with frame := f })) S w Q) :
    Ensures E (q.popKind kind >>= rest) S w Q := h.pops (Frame.pops_popKind _ _) hE hrest

theorem Here.pop (hE : Expects E) (h : Here S cur bare part A w a q.frame)
    (hrest : ∀ v f, Has S (A a) w v.node → Here S cur bare part A w a f →
      Ensures E (rest (v, { q with frame := f })) S w Q) :
    Ensures E (q.pop >>= rest) S w Q := h.pops (Frame.pops_pop _) hE fun v f _ => hrest v f

theorem Carries.storeLocal (h : Carries S P w f) (hv : Has S P w v.node) :
    Carries S P w { f with locals := f.locals.set slot (some v) } := by
  refine .of_has fun x hx => ?_
  rcases Frame.mem_values.1 hx with hx | hx | hx
  · rcases List.mem_or_eq_of_mem_set hx with hx | hx
    · exact h.has (Frame.mem_values.2 (.inl hx))
    · cases hx
      exact hv
  · exact h.has (Frame.mem_values.2 (.inr (.inl hx)))
  · exact h.has (Frame.mem_values.2 (.inr (.inr hx)))

theorem Carries.enterMonitor (h : Carries S P w f) (hv : Has S P w v.node) :
    Carries S P w (f.enterMonitor v) := by
  refine .of_has fun x hx => ?_
  rcases Frame.mem_values_enterMonitor hx with rfl | hx
  · exact hv
  · exact h.has hx

/-! ## Data -/

theorem Here.data (h : Here S cur bare part A w a f)
    (hk : k.refers = false) (hc : k.isControl = false) (hin : ∀ i ∈ I, Has S (A a) w i) :
    Ensures E (addNode k I) S w fun n w' => Here S cur bare part A w' a f ∧
      Extends S [] w w' ∧ New w k I n w' ∧ Has S (A a) w' n := by
  refine (addData_good h.good hk hc hin).mono fun n w' h' => ?_
  obtain ⟨hgood, hext, hnew, hhas⟩ := h'
  exact ⟨h.extend hgood hext (.refl _ _ _) (by simp), hext, hnew, hhas⟩

theorem Appended.has (h : Good S cur bare [] (a :: part) A w)
    (ha : Appended S cur bare part A w a k I n w' A') (hx : Has S (A a) w x) :
    Has S (A' n) w' x := (hx.extend h ha.extends_).mono fun l hl => ha.label l (.inl hl)

theorem Appended.carries (h : Good S cur bare [] (a :: part) A w)
    (ha : Appended S cur bare part A w a k I n w' A') (hf : Carries S (A a) w f) :
    Carries S (A' n) w' f := (hf.extend h ha.extends_).mono fun l hl => ha.label l (.inl hl)

theorem deoptimize_good {reason : DeoptReason} [S.Sure]
    (h : Here S cur bare part A w a q.frame) (hlast : q.last = some a) :
    Ensures E (q.deoptimize reason) S w fun q' w' => q'.last = none ∧
      Gets S cur bare part A w a q.block q' w' := by
  unfold Point.deoptimize
  refine (addDeopt_good h.good h.base h.carries).bind fun n w1 h1 => ?_
  obtain ⟨A1, hgood1, hext1, ht1, hagree1, hready1, hfresh1⟩ := h1
  refine .chain (ensures_takeLast hlast ?_)
  have hsent : Sent S (A a) cur bare [] (a :: part) A q.frame w n w1 A1 :=
    ⟨hgood1, hext1.toEvolves, hagree1, hready1, hfresh1, hext1.backs h.carries.backs⟩
  refine (h.goto hsent fun l hl => hl).bind fun _ w3 h3 => ensures_pure ?_
  exact ⟨rfl, A1, .gone h3.1 rfl h3.2.1 hagree1 rfl⟩

/-! ## Arithmetic -/

/-- The zero side of a check raises; control goes on behind the other side. -/
theorem zeroCheck_good {divisor : Value} [S.Sure]
    (hE : Expects E) (h : Here S cur bare part A w a q.frame)
    (hlast : q.last = some a) (hl : Lifting S cur w.table q.block)
    (hway : Way S q.block (S.exceptionTarget q.position)) (hd : Has S (A a) w divisor.node) :
    Ensures E (zeroCheck divisor q) S w fun q' w' => ∃ n A', q' = { q with last := some n } ∧
      Went S cur bare part A w a q.block q' w' A' ∧
      ∀ x, Has S (A a) w x → Has S (A' n) w' x := by
  unfold zeroCheck constant
  refine (h.data rfl rfl (by simp)).bind fun zero w1 h1 => ?_
  obtain ⟨here1, hext1, hnew1, hzero⟩ := h1
  refine (here1.data (I := [divisor.node, zero]) rfl rfl ?_).bind fun test w2 h2 => ?_
  · intro i hi
    simp only [List.mem_cons, List.not_mem_nil, or_false] at hi
    rcases hi with rfl | rfl
    · exact hd.extend h.good hext1
    · exact hzero
  obtain ⟨here2, hext2, hnew2, htest⟩ := h2
  refine .chain (append_good here2 hlast (k := .ifNode) (I := [test]) rfl rfl rfl rfl (by simpa using
    htest) fun split w3 A3 ha => ?_)
  have hsplit := ha.splits rfl rfl
  have hext3 := ((hext1.trans hext2).weaken (List.nil_subset [a])).trans ha.extends_
  have hl3 : Lifting S cur w3.table q.block := hl.mono hext3.keeps
  have hf3 : Carries S (A3 split) w3 q.frame := ha.carries here2.good here2.carries
  refine hsplit.raise hE hl3 hway hf3 fun w4 A4 hs4 hev4 hA4 hlasts => ?_
  have hfoot : A4 split = A3 split := ha.foot.agree hA4
  have hf4 : Carries S (A4 split) w4 q.frame := by
    rw [hfoot]
    exact hf3.evolve hsplit.good hev4 (hlasts.backs hf3.backs)
  refine hs4.proceed hf4 fun n w5 A5 hs5 here5 hext5 hA5 ht5 hfresh5 hlabel => ensures_pure ?_
  have hfresh : w.graph.nodeCount ≤ split.index :=
    Nat.le_trans (hext1.trans hext2).grows.count ha.fresh
  have hcount4 : w.graph.nodeCount ≤ w4.graph.nodeCount :=
    Nat.le_trans hext3.grows.count hev4.grows.count
  have hev34 : Evolves S [a] w w4 := hext3.toEvolves.then hev4 (by simp [hfresh])
  refine ⟨n, A5, rfl, ⟨Here.at ⟨hs5.finish rfl, here5.foot, here5.outgoing, here5.plain,
    here5.carries⟩ rfl,
    hev34.then hext5.toEvolves (by simp [hfresh]), ?_, ?_, rfl⟩, fun x hx => ?_⟩
  · refine (Agree.trans (Agree.trans ?_ hext3.toEvolves hA4) hev34 hA5)
    exact (Agree.refl S w A).trans (hext1.trans hext2).toEvolves ha.agree
  · rintro m ⟨⟩
    exact .inr (Nat.le_trans hcount4 hfresh5)
  · have hx3 := ha.has here2.good (hx.extend h.good (hext1.trans hext2))
    have hx4 : Has S (A4 split) w4 x := by
      rw [hfoot]
      exact ⟨hlasts x hx3.usable, hx3.avail.of_grows hsplit.good.inv.sound hev4.grows
        (hlasts x hx3.usable).contains⟩
    exact (hx4.extend hs4.good hext5).mono hlabel

end Points

end StackLift
