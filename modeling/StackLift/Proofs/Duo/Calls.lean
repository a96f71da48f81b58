import StackLift.Proofs.Duo.Steps

/-!
# Calls of two builds

Both builds bind a call to the same target, since they see the same receiver, and ask the plugins the
same questions. A method that is inlined is followed by two builds of its own (`Duo.enter`). They know
nothing of the tables of the callers but the headers that wait there without a frame: nothing may
become a phi of these (`Joint.enter`, `Joint.leave`).
-/
namespace StackLift

variable {c c' : Call} {x y : Exit} {args' : List Value} {m : MethodDecl} {Q : Pairing}

namespace Duo

open BuildM

variable {D : Duo none} {P : Pairing} {w v : Work} {L : Nat → Prop} {b : BlockId}
  {p : Position} {q r : Point}
variable {inner inner' : Scope} {hin : inner.Pruned inner'}

/-! ## Into a method and back -/

/-- An inlined method in two builds. -/
def enter (D : Duo none) (w : Work) (h : inner.Pruned inner') : Duo none where
  full := inner
  pruned := inner'
  fits := h
  hush x := D.hush x ∨ ∃ b e, w.table.slot? b = some e ∧ e.frame = none ∧ e.node = x

theorem tables_blank (n : Nat) : D.Tables P (Table.blank n) (Table.blank n) := by
  refine ⟨rfl, fun b => ?_, .nil, .nil, .none, .none⟩
  rw [Table.slot?_blank]
  exact .none

theorem Joint.enter (hj : D.Joint P w v)
    (hc : Option.Rel P.SameSnapshot inner.callers inner'.callers) (n : Nat) :
    (D.enter w hin).Joint P { w with table := Table.blank n } { v with table := Table.blank n } := by
  have hnone : ∀ {b e}, (Table.blank n).slot? b = some e → False := by
    intro b e he
    rw [Table.slot?_blank] at he
    cases he
  refine ⟨hj.twins, tables_blank n, hc, ?_, ?_, fun he => (hnone he).elim, fun he => (hnone he).elim,
    fun he => (hnone he).elim, hj.report, hj.consulted⟩
  · rintro x (hx | ⟨b, e, he, hf, rfl⟩)
    · exact hj.hush hx
    · exact (hj.await he hf).1
  · rintro x (hx | ⟨b, e, he, hf, rfl⟩)
    · exact hj.hushLt hx
    · exact hj.lt_count he

theorem Joint.leave {w' v' : Work} (hj : D.Joint P w v) (hle : P.Le Q)
    (hj' : (D.enter w hin).Joint Q w' v') : D.Joint Q { w' with table := w.table }
    { v' with table := v.table } :=
  ⟨hj'.twins, hj.tables.mono hle, optionRel_imp hj.callers fun _ _ h => h.mono hle,
    fun hx => hj'.hush (.inl hx), fun hx => Nat.lt_of_lt_of_le (hj.hushLt hx) hle.count,
    fun he hf => ⟨hj'.hush (.inr ⟨_, _, he, hf, rfl⟩), (hj.await he hf).2⟩, hj.header, hj.distinct,
    hj'.report, hj'.consulted⟩

theorem follows_inside {α β : Type} {act : BuildM α} {bct : BuildM β}
    {R : Pairing → α → β → Prop} (hin : inner.Pruned inner') (hj : D.Joint P w v)
    (h : (D.enter w hin).Follows P act bct { w with table := Table.blank inner.blocks.size }
      { v with table := Table.blank inner'.blocks.size } fun P' a _ b _ => R P' a b) :
    D.Follows P (inside inner act) (inside inner' bct) w v fun P' a _ b _ => R P' a b := by
  intro a w' ha
  unfold inside at ha
  split at ha
  · next a1 w1 hw1 =>
    cases ha
    obtain ⟨b, v1, P', hb, hle, hj', hr⟩ := h a w1 hw1
    refine ⟨b, { v1 with table := v.table }, P', ?_, hle, hj.leave hle hj', hr⟩
    unfold inside
    rw [show bct inner' { v with table := Table.blank inner'.blocks.size } = .ok b v1 from hb]
  · cases ha

/-! ## Call nodes -/

/-- The same call in both builds. -/
structure SameCall (P : Pairing) (c c' : Call) : Prop where
  kind : c'.kind = c.kind
  target : c'.target = c.target
  returns : c'.returns = c.returns
  args : List.Forall₂ P.SameValue c.args c'.args

theorem SameCall.mono (h : SameCall P c c') (hle : P.Le Q) : SameCall Q c c' :=
  ⟨h.kind, h.target, h.returns, h.args.imp fun _ _ h => h.mono hle⟩

theorem follows_recordCall {declared : MethodId} {d : Devirtualization} {o : Outcome}
    (hj : D.Joint P w v) : D.Follows P (recordCall p declared d o) (recordCall p declared d o) w v
      fun _ _ _ _ _ => True := by
  refine follows_read_bind ?_
  rw [D.id, D.depth]
  exact follows_changeReport hj

theorem follows_popArgs {kinds : List ValueKind} (hj : D.Joint P w v) (hq : P.SamePoint L b p q r) :
    D.Follows P (popArgs q kinds) (popArgs r kinds) w v fun P' x _ y _ =>
      List.Forall₂ P'.SameValue x.1 y.1 ∧ P'.SamePoint L b p x.2 y.2 := by
  refine follows_foldlM (fun P (x y : List Value × Point) => List.Forall₂ P.SameValue x.1 y.1 ∧
    P.SamePoint L b p x.2 y.2) (fun {P1 w1 v1 s s'} kind _ hle hj1 h1 => ?_) hj ⟨.nil, hq⟩
  obtain ⟨args, pt⟩ := s
  obtain ⟨args', pt'⟩ := s'
  refine (follows_popKind hj1 h1.2).bind fun P2 x w2 y v2 hle2 hj2 h2 => ?_
  exact follows_pure hj2 ⟨.cons h2.1 (h1.1.imp fun _ _ h => h.mono hle2), h2.2⟩

/-- What is live where an exception goes is in `L`. -/
def Catches (D : Duo none) (L : Nat → Prop) (p : Position) : Prop :=
  ∀ s, D.live ((D.full.blocks.dispatchAt? p).getD D.full.blocks.unwindBlock) s = true → L s

theorem follows_callNode (hj : D.Joint P w v)
    (hq : P.SamePoint L b p q r) (hc : SameCall P c c') (hL : D.Catches L p) :
    D.Follows P (callNode c q) (callNode c' r) w v fun P' x _ y _ =>
      x.1 = y.1 ∧ P'.SamePoint L b p x.2 y.2 := by
  have huse : D.pruned.config.useProfileForExceptionEdges =
    D.full.config.useProfileForExceptionEdges := by
    rw [D.fits.config]
    rfl
  refine follows_read_bind ?_
  dsimp only
  rw [hq.position.1, hq.position.2, D.observes, D.mayThrow, huse, hc.kind, hc.target, hc.returns]
  generalize (D.full.observes p &&
    (!D.full.config.useProfileForExceptionEdges || D.full.mayThrow p)) = throws
  have hargs : List.Forall₂ P.twin (c.args.map (·.node)) (c'.args.map (·.node)) := by
    rw [List.forall₂_map_left_iff, List.forall₂_map_right_iff]
    exact hc.args.imp fun _ _ h => h.node
  refine (follows_append hj hq (by split <;> rfl) (by split <;> rfl) hargs).bind
    fun P1 x w1 y v1 hle1 hj1 h1 => ?_
  obtain ⟨n, pt⟩ := x
  obtain ⟨m, pt'⟩ := y
  obtain ⟨hn, hpt⟩ := h1
  dsimp only at hn hpt ⊢
  have htwin := hj1.twins.sane.twin hn
  have hpt1 : P1.SamePoint L b p (if c.returns = .void then pt else pt.push ⟨n, c.returns⟩)
      (if c.returns = .void then pt' else pt'.push ⟨m, c.returns⟩) := by
    split
    · exact hpt
    · exact hpt.push ⟨htwin, rfl⟩
  generalize (if c.returns = .void then pt else pt.push ⟨n, c.returns⟩) = pt1 at hpt1
  generalize (if c.returns = .void then pt' else pt'.push ⟨m, c.returns⟩) = pt1' at hpt1
  refine (follows_attachSnapshot hj1 htwin hpt1.frame.same).bind fun P2 _ w2 _ v2 hle2 hj2 _ => ?_
  cases throws with
  | false => exact follows_pure hj2 ⟨rfl, hpt1.mono hle2⟩
  | true =>
    refine (follows_addControl hj2 rfl rfl .nil).bind fun P3 s w3 t v3 hle3 hj3 h3 => ?_
    have hle23 := hle2.trans hle3
    refine (follows_addEdge hj3 (hle23.control hn) h3.1).bind fun P4 _ w4 _ v4 hle4 hj4 _ => ?_
    have hle24 := hle23.trans hle4
    refine (follows_exceptionObject hj4 (hpt.frame.mono hle24)).bind fun P5 e w5 e' v5 hle5 hj5 h5 => ?_
    have hle25 := hle24.trans hle5
    refine (follows_addEdge hj5 (hle25.control hn) h5).bind fun P6 _ w6 _ v6 hle6 hj6 _ => ?_
    have hle26 := hle25.trans hle6
    have he6 := hle6.control h5
    rw [hpt1.block.1, hpt1.block.2]
    refine (follows_dispatchException hj6 he6 (hpt.frame.mono hle26)
      (.object (hj6.twins.sane.twin he6)) hL).bind fun P7 _ w7 _ v7 hle7 hj7 _ => ?_
    have hle37 := ((hle4.trans hle5).trans hle6).trans hle7
    exact follows_pure hj7 ⟨rfl, ⟨rfl, rfl⟩, hpt1.position, hpt1.frame.mono (hle26.trans hle7),
      .some (hle37.control h3.1)⟩

/-! ## Inlining -/

theorem follows_resumeUnwound {callee : MethodId} (hj : D.Joint P w v)
    (hq : P.SamePoint L b p q r) (hx : P.SameExit x y) (hL : D.Catches L p) :
    D.Follows P (resumeUnwound q callee x) (resumeUnwound r callee y) w v fun _ _ _ _ _ => True := by
  unfold resumeUnwound
  rw [hq.position.1, hq.position.2, hq.block.1, hq.block.2]
  refine .chain (follows_demandRel hj hx.frame.peek? fun e e' he _ _ => ?_)
  refine (follows_snapshotMerge hj (hj.twins.sane.twin hx.node) (hq.frame.raising he).same).bind
    fun P2 _ w2 _ v2 hle2 hj2 _ => ?_
  exact follows_dispatchException hj2 (hle2.control hx.node) (hq.frame.mono hle2) (he.mono hle2) hL

theorem follows_resumeReturned (hj : D.Joint P w v) (hq : P.SamePoint L b p q r)
    (hc : SameCall P c c') (hx : P.SameExit x y) :
    D.Tracks P L b p (resumeReturned q c x) (resumeReturned r c' y) w v := by
  have hrest : ∀ {pt pt'}, P.SamePoint L b p pt pt' →
      D.Tracks P L b p (goOn x.node pt) (goOn y.node pt') w v := by
    intro pt pt' hpt
    unfold goOn
    rw [hpt.position.1, hpt.position.2]
    refine (follows_snapshotMerge hj (hj.twins.sane.twin hx.node) hpt.frame.same).bind
      fun P2 _ w2 _ v2 hle2 hj2 _ => ?_
    exact follows_pure hj2 ⟨hpt.block, ⟨rfl, rfl⟩, hpt.frame.mono hle2, .some (hle2.control hx.node)⟩
  unfold resumeReturned
  rw [hc.returns, hc.target]
  split
  · exact follows_pure_bind (hrest hq)
  · refine .chain (follows_demandRel hj hx.frame.peek? fun e e' he _ _ => ?_)
    exact follows_pure_bind (hrest (hq.push he))

section Nested

variable {nested : Option Parser}
variable {declared : MethodId} {args : List Value} {kind : CallKind}

/-- The pruned build follows the full one through a whole method. The parser finds out on its own whether
the method is tame. -/
def ParserFollows (env : Env) (parse : Parser) : Prop :=
  ∀ {D : Duo none} {P : Pairing} {w v : Work} {f k : Frame} {o o' : Option NodeId}, D.full.env = env →
    D.Joint P w v →
    P.Matches (fun _ => True) f k → Option.Rel P.control o o' →
    D.Follows P (parse f o) (parse k o') w v fun P' x _ y _ =>
      Option.Rel P'.SameExit x.returned y.returned ∧ Option.Rel P'.SameExit x.unwound y.unwound

/-- The calls that are to be inlined can be, in both builds. -/
structure Nests (env : Env) (nested : Option Parser) : Prop where
  calls : env.plugins.calls = []
  parser : ∀ parse, nested = some parse → ParserFollows env parse

theorem ofMethod {callee : MethodDecl} {body : Body} {s : Option Snapshot} (s' : Option Snapshot)
    (h : Scope.ofMethod D.full.env D.full.config callee body (D.full.chain ++ [callee.id]) s
      (D.full.observes p) = .ok inner) :
    ∃ inner', Scope.ofMethod D.pruned.env D.pruned.config callee body (D.pruned.chain ++ [callee.id]) s'
        (D.pruned.observes p) = .ok inner' ∧ inner.callers = s ∧ inner'.callers = s' ∧
      inner.env = D.full.env ∧ inner'.depth = inner.depth ∧ inner.Pruned inner' := by
  unfold Scope.ofMethod at h ⊢
  rw [D.fits.env, D.fits.config, D.fits.chain, D.observes]
  cases hb : BlockMap.ofBody body with
  | error e =>
    rw [hb] at h
    cases h
  | ok m =>
    rw [hb] at h
    cases h
    refine ⟨_, rfl, rfl, rfl, rfl, rfl, rfl, rfl, D.fits.off, rfl, rfl, rfl, rfl, rfl, ?_, rfl, hb⟩
    simp [D.fits.off]

theorem exists_withArgs {n : Nat} {f : Frame} (hlen : args.length = args'.length)
    (h : Frame.withArgs n args = .ok f) : ∃ k, Frame.withArgs n args' = .ok k := by
  unfold Frame.withArgs at h ⊢
  rw [← hlen]
  split at h
  · cases h
  · next hle => exact ⟨_, if_neg hle⟩

theorem follows_inlineCall {parse : Parser} (hn : Nests D.full.env (some parse)) (hj : D.Joint P w v)
    (hq : P.SamePoint L b p q r) (hc : SameCall P c c') (hL : D.Catches L p) :
    D.Tracks P L b p (inlineCall parse c q) (inlineCall parse c' r) w v := by
  refine follows_read_bind ?_
  dsimp only
  rw [hq.position.1, hq.position.2, hc.target]
  refine .chain (follows_demand hj fun body hbody => ⟨body, hbody, ?_⟩)
  refine (follows_checkBudget hj).bind fun P2 _ w2 _ v2 hle2 hj2 h2 => ?_
  obtain ⟨rfl, rfl⟩ := h2
  have hq2 := hq.mono hle2
  have hc2 := hc.mono hle2
  refine .chain (follows_liftExcept hj2 fun f hwith => ?_)
  obtain ⟨k, hk⟩ := exists_withArgs hc2.args.length_eq hwith
  have hf := Pairing.matches_of_args (L := fun _ => True) hc2.args hwith hk
  refine ⟨k, hk, .chain (follows_liftExcept hj2 fun inner hi => ?_)⟩
  obtain ⟨inner', hi', hs, hs', henv, hdepth, hin⟩ :=
    ofMethod (some (D.pruned.snapshot r.frame p)) hi
  have hcallers : Option.Rel P2.SameSnapshot inner.callers inner'.callers := by
    rw [hs, hs']
    exact .some (hj2.snapshot hq2.frame.same)
  refine ⟨inner', hi', ?_⟩
  refine (follows_takeLast hj2 hq2).bind fun P5 x w5 y v5 hle5 hj5 h5 => ?_
  obtain ⟨last, pt⟩ := x
  obtain ⟨last', pt'⟩ := y
  obtain ⟨hlast, hpt, -⟩ := h5
  dsimp only at hlast hpt ⊢
  rw [D.id, hdepth]
  refine (follows_inside (R := fun P' x y => Option.Rel P'.SameExit x.returned y.returned ∧
    Option.Rel P'.SameExit x.unwound y.unwound) hin hj5 ?_).bind fun P6 x w6 y v6 hle6 hj6 h6 => ?_
  · rw [hin.blocks]
    exact hn.parser parse rfl henv
      (hj5.enter (optionRel_imp hcallers fun _ _ h => h.mono hle5) inner.blocks.size) (hf.mono hle5)
      (.some hlast)
  refine (follows_changeReport hj6).bind fun P7 _ w7 _ v7 hle7 hj7 _ => ?_
  have hle57 := hle6.trans hle7
  have hreturned := optionRel_imp h6.1 fun _ _ h => h.mono hle7
  have hunwound := optionRel_imp h6.2 fun _ _ h => h.mono hle7
  have hpt7 := hpt.mono hle57
  have hc7 := hc2.mono (hle5.trans hle57)
  generalize x.returned = o at hreturned
  generalize y.returned = o' at hreturned
  generalize x.unwound = u at hunwound
  generalize y.unwound = u' at hunwound
  cases hunwound with
  | none =>
    cases hreturned with
    | none => exact follows_pure hj7 hpt7
    | some hx => exact follows_resumeReturned hj7 hpt7 hc7 hx
  | some hu =>
    refine (follows_resumeUnwound hj7 hpt7 hu hL).bind fun P8 _ w8 _ v8 hle8 hj8 _ => ?_
    cases hreturned with
    | none => exact follows_pure hj8 (hpt7.mono hle8)
    | some hx => exact follows_resumeReturned hj8 (hpt7.mono hle8) (hc7.mono hle8) (hx.mono hle8)

/-! ## The whole call -/

theorem follows_askInlining {t : MethodDecl} {plugins : List InlinePlugin} (hj : D.Joint P w v) :
    D.Follows P (askInlining t plugins) (askInlining t plugins) w v fun _ a _ b _ => a = b := by
  induction plugins generalizing P w v with
  | nil => exact follows_pure hj rfl
  | cons plugin rest ih =>
    refine follows_read_bind ?_
    rw [D.id, D.depth, D.fits.method]
    refine (follows_consult hj).bind fun P1 _ w1 _ v1 hle1 hj1 _ => ?_
    cases hdec : plugin.decide D.full.method t D.full.depth with
    | noDecision => exact ih hj1
    | inline => exact follows_pure hj1 rfl
    | doNotInline => exact follows_pure hj1 rfl

theorem fitsPolicy (D : Duo none) (t : MethodDecl) :
    BuildM.fitsPolicy D.pruned t = BuildM.fitsPolicy D.full t := by
  unfold BuildM.fitsPolicy
  rw [D.fits.config, D.fits.chain]
  rfl

theorem follows_shouldInline (hj : D.Joint P w v) (hc : SameCall P c c') :
    D.Follows P (shouldInline c) (shouldInline c') w v fun _ a _ b _ => a = b := by
  refine follows_read_bind ?_
  rw [hc.kind, hc.target, D.fits.env, D.fitsPolicy]
  split
  · refine (follows_askInlining hj).bind fun P1 a w1 b v1 hle1 hj1 h1 => ?_
    subst h1
    cases a <;> exact follows_pure hj1 rfl
  · exact follows_pure hj rfl

theorem follows_lowerCall (hn : Nests D.full.env nested) (hj : D.Joint P w v)
    (hq : P.SamePoint L b p q r) (hc : SameCall P c c') (hL : D.Catches L p) :
    D.Follows P (lowerCall nested c q) (lowerCall nested c' r) w v fun P' x _ y _ =>
      x.1 = y.1 ∧ P'.SamePoint L b p x.2 y.2 := by
  refine follows_read_bind ?_
  rw [D.fits.env, hn.calls]
  refine follows_pure_bind ?_
  dsimp only
  refine (follows_shouldInline hj hc).bind fun P1 a w1 a' v1 hle1 hj1 h1 => ?_
  subst h1
  have hq1 := hq.mono hle1
  have hc1 := hc.mono hle1
  cases a with
  | true =>
    cases nested with
    | none => exact follows_throw_bind
    | some parse =>
      refine (follows_inlineCall hn hj1 hq1 hc1 hL).bind fun P2 x w2 y v2 _ hj2 h2 => ?_
      exact follows_pure hj2 ⟨by rw [hc.target], h2⟩
  | false =>
    refine (follows_callNode hj1 hq1 hc1 hL).bind fun P2 x w2 y v2 _ hj2 h2 => ?_
    obtain ⟨throws, pt⟩ := x
    obtain ⟨throws', pt'⟩ := y
    obtain ⟨rfl, h2⟩ := h2
    exact follows_pure hj2 ⟨by rw [hc.kind, hc.target], h2⟩

theorem devirtualize_eq {h : Hierarchy} (hj : D.Joint P w v)
    (ha : List.Forall₂ P.SameValue args args') :
    devirtualize h w.graph m args = devirtualize h v.graph m args' := by
  have hexact : exactTarget? h w.graph m args = exactTarget? h v.graph m args' := by
    unfold exactTarget?
    cases ha with
    | nil => rfl
    | @cons x y _ _ hxy _ =>
      have hk := hj.twins.kind hxy.node
      simp only [List.head?_cons, bind, Option.bind]
      generalize w.graph.kind? x.node = o at hk
      generalize v.graph.kind? y.node = o' at hk
      cases hk with
      | none => rfl
      | some hk => cases hk <;> rfl
  unfold devirtualize
  rw [hexact]

theorem follows_liftResolved (hn : Nests D.full.env nested) (hj : D.Joint P w v)
    (hq : P.SamePoint L b p q r) (hL : D.Catches L p) :
    D.Tracks P L b p (liftResolved nested kind m q) (liftResolved nested kind m r) w v := by
  refine follows_read_bind ?_
  refine (follows_popArgs hj hq).bind fun P1 x w1 y v1 hle1 hj1 h1 => ?_
  obtain ⟨args, pt⟩ := x
  obtain ⟨args', pt'⟩ := y
  obtain ⟨hargs, hpt⟩ := h1
  dsimp only at hargs hpt ⊢
  have hrest : ∀ {k t d}, D.Tracks P1 L b p (lowerBound nested m.id d ⟨k, t, args, t.returns⟩ pt)
      (lowerBound nested m.id d ⟨k, t, args', t.returns⟩ pt') w1 v1 := by
    intro k t d
    have hcall : SameCall P1 ⟨k, t, args, t.returns⟩ ⟨k, t, args', t.returns⟩ := ⟨rfl, rfl, rfl, hargs⟩
    refine (follows_lowerCall hn hj1 hpt hcall hL).bind fun P2 x w2 y v2 hle2 hj2 h2 => ?_
    rw [h2.2.position.1, h2.2.position.2, ← h2.1]
    refine (follows_recordCall hj2).bind fun P3 _ w3 _ v3 hle3 hj3 _ => ?_
    exact follows_pure hj3 (h2.2.mono hle3)
  split
  · exact follows_pure_bind hrest
  · refine follows_get_bind ?_
    rw [D.fits.env, ← devirtualize_eq hj1 hargs]
    split <;> exact follows_pure_bind hrest

theorem follows_abandonCall {reason : DeoptReason} (hj : D.Joint P w v)
    (hq : P.SamePoint L b p q r) : D.Tracks P L b p (abandonCall declared reason q)
    (abandonCall declared reason r)
      w v := by
  refine (follows_deoptimize hj hq).bind fun P1 x w1 y v1 hle1 hj1 h1 => ?_
  rw [h1.position.1, h1.position.2]
  refine (follows_recordCall hj1).bind fun P2 _ w2 _ v2 hle2 hj2 _ => ?_
  exact follows_pure hj2 (h1.mono hle2)

theorem follows_invoke (hn : Nests D.full.env nested) (hj : D.Joint P w v)
    (hq : P.SamePoint L b p q r) (hL : D.Catches L p) :
    D.Tracks P L b p (invoke nested kind declared q) (invoke nested kind declared r) w v := by
  have hdeopt : D.pruned.config.deoptAllInvokes = D.full.config.deoptAllInvokes := by
    rw [D.fits.config]
    rfl
  refine follows_read_bind ?_
  rw [hdeopt]
  split
  · exact follows_abandonCall hj hq
  · rw [D.fits.env]
    split
    · next why _ =>
      rw [hq.position.1, hq.position.2]
      refine (follows_recordUnresolved hj).bind fun P1 _ w1 _ v1 hle1 hj1 _ => ?_
      exact follows_abandonCall hj1 (hq.mono hle1)
    · split
      · exact follows_throw_bind
      · exact follows_liftResolved hn hj hq hL

end Nested

end Duo

end StackLift
