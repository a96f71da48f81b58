import StackLift.Proofs.Ledger.Books

/-!
# Reported calls

Each way to lift a call leaves an account that the record of the call settles (`Settles`): a call node is
one call in the report, and an inlined method is one inlining. The callee has been followed by then, and
all that it needed to be explained was the inlining under way, which is reported now (`Booked.leave`).
-/
namespace StackLift

open BuildM

section Settling

variable {u : Setting} {sc sc' : Scope} {w w' w'' : Work}
  {ks : List NodeKind} {o : Outcome} {p : Position} {pt pt' : Point} {t : MethodDecl} {body : Body}
  {f : Frame} {handles : Bool}

/-- Once the call at `p` is recorded with outcome `o`, the report is kept. -/
def Settles (u : Setting) (sc : Scope) (p : Position) (o : Outcome)
    (w w' : Work) : Prop :=
  ∀ c : CallSite, c.caller = sc.id → c.position = p → c.depth = sc.depth → c.outcome = o →
    Booked u sc w { w' with report := w'.report.addCallSite c }

theorem Settles.after (h : Settles u sc p o w' w'') (hsc : sc.Follows u)
    (hw : Calm sc [] w w') : Settles u sc p o w w'' :=
  fun c h1 h2 h3 h4 => (hw.unbooked hsc).trans (h c h1 h2 h3 h4)

theorem Settles.before (h : Settles u sc p o w w') (hsc : sc.Follows u)
    (hw : Calm sc [] w' w'') : Settles u sc p o w w'' := by
  intro c h1 h2 h3 h4
  have hcalm := hw.with_report (w'.report.addCallSite c)
  rw [← hw.report] at hcalm
  exact (h c h1 h2 h3 h4).trans (hw.report ▸ hcalm.unbooked hsc)

theorem Calm.settles (h : Calm sc ks w w') (hsc : sc.Follows u)
    (ho : ∀ c : CallSite, c.outcome = o → Report.Balances { callSites := #[c] } ks) :
    Settles u sc p o w w' := by
  intro c _ _ _ hc
  refine h.booked hsc (ho c hc) rfl rfl ?_ ?_ rfl ?_ ?_
  all_goals rw [Report.addCallSite, h.report]
  · rfl
  · exact Array.append_empty.symm

/-! ## Into a method and back -/

theorem Scope.Visited.length (h : sc.Visited u) : sc.chain.length = sc.outline.callers.length + 1 := by
  rw [← List.length_reverse, ← h.framed, Outline.methods, List.length_cons, List.length_map]

theorem Scope.outline_inner
    (h : Scope.ofMethod sc.env sc.config t body (sc.chain ++ [t.id]) (some (sc.snapshot f p)) handles =
      .ok sc') : sc'.outline = ⟨t.id, (sc.id, p) :: sc.outline.callers⟩ := by
  obtain ⟨-, -, -, hmethod, -, -, hcallers⟩ := Scope.ofMethod_ok h
  unfold Scope.outline
  rw [hcallers, Scope.id, hmethod]
  unfold Scope.snapshot Frame.snapshot
  cases sc.callers <;> rfl

theorem Scope.Visited.inner (h : sc.Visited u)
    (hs : Scope.ofMethod sc.env sc.config t body (sc.chain ++ [t.id]) (some (sc.snapshot f p)) handles =
      .ok sc') (hfits : sc.env.plugins.inlining = [] → fitsPolicy sc t = true)
    (hdepth : sc.chain.length ≤ u.config.maxInliningDepth) : sc'.Visited u := by
  obtain ⟨-, henv, hconfig, -, -, hchain, -⟩ := Scope.ofMethod_ok hs
  refine ⟨henv.trans h.env, hconfig.trans h.config, ?_, ?_, ?_, fun hno m => ?_⟩
  · rw [hchain, List.head?_append, h.head]
    rfl
  · rw [Scope.outline_inner hs, hchain, List.reverse_append, ← h.framed]
    rfl
  · rw [hchain, List.length_append]
    exact Nat.succ_le_succ hdepth
  · have hfits : sc.chain.count t.id < u.config.maxRecursiveInlining := by
      have := hfits (h.env ▸ hno)
      simp only [fitsPolicy, Bool.and_eq_true, decide_eq_true_eq, h.config] at this
      exact this.2
    rw [hchain, List.count_append]
    by_cases hm : m = t.id
    · subst hm
      rw [List.count_singleton_self]
      exact (Nat.succ_le_of_lt hfits).trans (le_max_right _ _)
    · rw [List.count_singleton, if_neg (by simpa using fun h => hm h.symm), Nat.add_zero]
      exact h.count hno m

theorem Work.headed_blank (sc : Scope) (w : Work) (n : Nat) :
    ({ w with table := Table.blank n } : Work).Headed sc := by
  intro b e f he
  rw [Table.slot?_blank] at he
  cases he

theorem Outline.inlinings_inner (m caller : MethodId) (p : Position)
    (callers : List (MethodId × Position)) : (Outline.mk m ((caller, p) :: callers)).inlinings =
      { method := m, caller, position := p, depth := callers.length + 1 } ::
      (Outline.mk caller callers).inlinings :=
  rfl

/-- Back in the caller, the inlining is reported, and the record of the call settles it. -/
theorem Booked.leave {n : Nat} {i : Inlining} (hsc : sc.Follows u)
    (hinner : sc'.outline = ⟨t.id, (sc.id, p) :: sc.outline.callers⟩)
    (h : Booked u sc' { w with table := Table.blank n } w')
    (hi : i = { method := t.id, caller := sc.id, position := p, depth := sc.chain.length }) :
    Settles u sc p (.inlined t.id) w { w' with table := w.table, report := w'.report.addInlining i } := by
  have hways : sc'.outline.inlinings = i :: sc.outline.inlinings := by
    rw [hinner, Outline.inlinings_inner, hi, hsc.length]
    rfl
  intro c hcaller hpos hdepth hout
  have hc : c.inlining? = some i := by
    have hlen : c.depth + 1 = sc.chain.length := by
      rw [hdepth, Scope.depth, hsc.length]
      rfl
    rw [CallSite.inlining?, hout, hi, ← hlen, hcaller, hpos]
  refine ⟨h.ages, fun ht m s hs => ?_, fun hd => (h.deepest hd).addInlining i, fun ho hw => ?_⟩
  · have hin : ({ w with table := Table.blank n } : Work).Traced u sc' := by
      intro m s hs
      obtain ⟨hsc', hall⟩ := ht m s hs
      refine ⟨hsc', fun j hj => (hall j hj).imp id fun hj => ?_⟩
      rw [hways]
      exact List.mem_cons_of_mem _ hj
    obtain ⟨hsc', hall⟩ := h.traced hin m s hs
    refine ⟨hsc', fun j hj => ?_⟩
    rcases hall j hj with hj | hj
    · exact .inl (Array.mem_push_of_mem _ hj)
    · rw [hways] at hj
      rcases List.mem_cons.1 hj with rfl | hj
      · exact .inl Array.mem_push_self
      · exact .inr hj
  · obtain ⟨-, hb⟩ := h.orderly ho (Work.headed_blank sc' w n)
    refine ⟨hw.of_ages h.ages rfl, fun hbal => ?_⟩
    have ha : Report.Balances { callSites := #[c], inlined := #[i] } [] := by
      refine ⟨?_, rfl, ?_, ?_⟩ <;> simp [hout, hc, Outcome.call?]
    have hsum : ((w'.report.addInlining i).addCallSite c).Balances (w'.graph.reported ++ []) :=
      (hb hbal).add ha rfl rfl Array.append_empty.symm
    rwa [List.append_nil] at hsum

end Settling

namespace BuildM

variable {u : Setting} {sc : Scope} {w : Work} {call : Call}

theorem popKind_kept (pt : Point) (k : ValueKind) :
    Yields (pt.popKind k) sc w fun r w' => Calm sc [] w w' ∧ r.2.position = pt.position := by
  unfold Point.popKind Point.onFrame
  split
  · exact ensures_pure ⟨.refl sc w, rfl⟩
  · trivial

theorem popArgs_kept (pt : Point) (kinds : List ValueKind) :
    Yields (popArgs pt kinds) sc w fun r w' => Calm sc [] w w' ∧ r.2.position = pt.position := by
  unfold popArgs
  generalize kinds.reverse = ks
  generalize ([] : List Value) = args
  induction ks generalizing args pt w with
  | nil => exact ensures_pure ⟨.refl sc w, rfl⟩
  | cons k ks ih =>
    rw [List.foldlM_cons]
    refine Ensures.bind (Q := fun r w' => Calm sc [] w w' ∧ r.2.position = pt.position)
      ((popKind_kept pt k).bind fun _ _ h => ensures_pure h) fun r w1 h1 => ?_
    exact (ih r.2 r.1).mono fun r' w2 h2 => ⟨h1.1.trans h2.1, h2.2.trans h1.2⟩

/-! ## Call nodes -/

/-- The node that a call becomes. -/
def nodeKind (call : Call) (throws : Bool) : NodeKind :=
  if throws then .invokeWithException call.kind call.target.id else .invoke call.kind call.target.id

/-- The outcome that is recorded for it. -/
def nodeOutcome (call : Call) (throws : Bool) : Outcome :=
  (if call.kind.isDirect then Outcome.directCall else Outcome.indirectCall) call.target.id throws

theorem isReported_nodeKind (call : Call) (throws : Bool) : (nodeKind call throws).isReported = true := by
  cases throws <;> rfl

theorem balances_node {c : CallSite} {throws : Bool} (hc : c.outcome = nodeOutcome call throws) :
    Report.Balances { callSites := #[c] } [nodeKind call throws] := by
  unfold nodeOutcome at hc
  cases throws <;> cases hd : call.kind.isDirect <;> rw [hd] at hc <;>
    constructor <;> simp [nodeKind, hc, hd, NodeKind.call?, Outcome.call?, CallSite.inlining?]

theorem appendReported_calm {k : NodeKind} (hk : k.isReported = true) (pt : Point) (I : List NodeId) :
    Yields (pt.append k I) sc w fun r w' => Calm sc [k] w w' ∧ r.2.position = pt.position := by
  refine Ensures.bind (calm.and (takeLast_quiet pt)) fun r w1 h1 => ?_
  refine Ensures.bind (addReported_calm hk I) fun n w2 h2 => ?_
  refine Ensures.bind calm fun _ w3 h3 => ensures_pure ⟨(h1.1.trans h2).trans h3, ?_⟩
  rw [h1.2.2]

theorem callNode_calm (call : Call) (pt : Point) :
    Yields (callNode call pt) sc w fun r w' => Calm sc [nodeKind call r.1] w w' ∧
    r.2.position = pt.position := by
  unfold callNode
  refine ensures_read_bind ?_
  dsimp only
  generalize (sc.observes pt.position && (!sc.config.useProfileForExceptionEdges || sc.mayThrow
    pt.position)) = throws
  refine (appendReported_calm (isReported_nodeKind call throws) pt _).bind fun r w1 h1 => ?_
  have hpos : (if call.returns = .void then r.2 else r.2.push ⟨r.1,
    call.returns⟩).position = pt.position := by
    split <;> exact h1.2
  refine Ensures.bind calm fun _ w2 h2 => ?_
  have h12 := h1.1.trans h2
  cases throws with
  | false => exact ensures_pure ⟨h12, hpos⟩
  | true =>
    refine Ensures.bind calm fun normal w3 h3 => ?_
    refine Ensures.bind calm fun _ w4 h4 => ?_
    refine Ensures.bind calm fun exception w5 h5 => ?_
    refine Ensures.bind calm fun _ w6 h6 => ?_
    refine Ensures.bind calm fun _ w7 h7 => ensures_pure ⟨?_, hpos⟩
    exact (((((h12.trans h3).trans h4).trans h5).trans h6).trans h7)

/-! ## Inlining -/

theorem resumeReturned_calm (pt : Point) (call : Call) (e : Exit) :
    Yields (resumeReturned pt call e) sc w fun pt' w' => Calm sc [] w w' ∧
    pt'.position = pt.position := by
  have hgo : ∀ (q : Point) (w' : Work), q.position = pt.position →
      Yields (goOn e.node q) sc w' fun pt' w'' => Calm sc [] w' w'' ∧ pt'.position = pt.position :=
    fun q w' hpos => Ensures.bind calm fun _ _ h => ensures_pure ⟨h, hpos⟩
  unfold resumeReturned
  split
  · exact ensures_pure_bind (hgo pt w rfl)
  · refine Ensures.bind calm fun v w1 h1 => ensures_pure_bind ?_
    exact (hgo (pt.push v) w1 rfl).mono fun _ _ h => ⟨h1.trans h.1, h.2⟩

section Nested

variable {nested : Option Parser} {parse : Parser} {kind : CallKind}

/-- A parser keeps the report for the methods that are inlined into `sc`. -/
structure Keeps (u : Setting) (sc : Scope) (parse : Parser) : Prop where
  depth : sc.chain.length ≤ u.config.maxInliningDepth
  books : ∀ {sc'}, Scope.Visited u sc' → BlockMap.ofBody sc'.body = .ok sc'.blocks →
    sc'.chain.length = sc.chain.length + 1 →
    ∀ f n w, Books u sc' (parse f n) w

theorem inlineCall_settles (hparse : Keeps u sc parse) (hsc : sc.Follows u)
    (hfits : sc.env.plugins.inlining = [] → fitsPolicy sc call.target = true) (pt : Point) :
    Yields (inlineCall parse call pt) sc w fun pt' w' =>
      Settles u sc pt.position (.inlined call.target.id) w w' ∧ pt'.position = pt.position := by
  unfold inlineCall
  refine ensures_read_bind ?_
  refine .chain (yields_demand fun body hbody => ?_)
  refine Ensures.bind calm fun _ w1 h1 => ?_
  refine Ensures.bind calm fun f w2 h2 => ?_
  refine .chain (yields_liftExcept fun inner hinner => ?_)
  refine Ensures.bind (calm.and (takeLast_quiet pt)) fun r w4 h4 => ?_
  have hpos : r.2.position = pt.position := by rw [h4.2.2]
  have hstart : Calm sc [] w w4 := (h1.trans h2).trans h4.1
  obtain ⟨hblocks, -, -, -, hbodyeq, hchain, -⟩ := Scope.ofMethod_ok hinner
  have hlength : inner.chain.length = sc.chain.length + 1 := by rw [hchain, List.length_append]; rfl
  have hvisited := hsc.inner hinner hfits hparse.depth
  dsimp only
  refine Ensures.bind (Q := fun _ w' => ∀ i : Inlining, i = ⟨call.target.id, sc.id, pt.position,
    inner.depth⟩ →
      Settles u sc pt.position (.inlined call.target.id) w4
        { w' with report := w'.report.addInlining i })
    (ensures_inside ((hparse.books hvisited (hbodyeq ▸ hblocks) hlength f (some r.1) _).mono
      fun _ w' hw' i hi => ?_)) fun exits w5 h5 => ?_
  · have hdepth : inner.depth = sc.chain.length := by rw [Scope.depth, hlength]; rfl
    have hleave := hw'.leave hsc (Scope.outline_inner hinner) (hdepth ▸ hi)
    exact hleave
  refine Ensures.bind (Q := fun _ w' => Settles u sc pt.position (.inlined call.target.id) w4 w')
    (h5 _ rfl) fun _ w6 h6 => ?_
  have h6 := h6.after hsc hstart
  obtain ⟨returned, unwound⟩ := exits
  have hend : ∀ x w', Settles u sc pt.position (.inlined call.target.id) w w' →
      Yields (resumeReturned r.2 call x) sc w' fun pt' w'' =>
        Settles u sc pt.position (.inlined call.target.id) w w'' ∧ pt'.position = pt.position :=
    fun x w' hw' => (resumeReturned_calm r.2 call x).mono fun _ _ h => ⟨hw'.before hsc h.1,
      h.2.trans hpos⟩
  cases unwound with
  | none =>
    cases returned with
    | none => exact ensures_pure ⟨h6, hpos⟩
    | some x => exact hend x w6 h6
  | some y =>
    refine Ensures.bind calm fun _ w7 h7 => ?_
    cases returned with
    | none => exact ensures_pure ⟨h6.before hsc h7, hpos⟩
    | some x => exact hend x w7 (h6.before hsc h7)

/-! ## Whole calls -/

/-- The calls in `sc` are lifted by plugins that keep to their site, and inlined by parsers that keep the
report. -/
structure Serves (u : Setting) (sc : Scope) (nested : Option Parser) : Prop where
  follows : sc.Follows u
  plain : u.env.plugins.Plain
  parser : ∀ parse, nested = some parse → Keeps u sc parse

theorem lowerCall_settles (hn : Serves u sc nested) (call : Call) (pt : Point) :
    Yields (lowerCall nested call pt) sc w fun r w' =>
      Settles u sc pt.position r.1 w w' ∧ r.2.position = pt.position := by
  have hsc := hn.follows
  unfold lowerCall
  refine ensures_read_bind ?_
  refine (tryPlugins_calm (hsc.env ▸ hn.plain) (fun _ hp => hp) call pt).bind fun r w1 h1 => ?_
  obtain ⟨h1, hpos, -⟩ := h1
  obtain ⟨claimed, q⟩ := r
  cases claimed with
  | some plugin =>
    refine ensures_pure ⟨h1.settles hsc fun c hc => ?_, hpos⟩
    constructor <;> simp [hc, Outcome.call?, CallSite.inlining?]
  | none =>
    refine Ensures.bind (calm.and (ensures_shouldInline fun b w' _ _ hb => hb)) fun b w2 h2 => ?_
    obtain ⟨h2, hb⟩ := h2
    have h12 := h1.trans h2
    cases b with
    | true =>
      cases hnested : nested with
      | none => trivial
      | some parse =>
        refine Ensures.bind (inlineCall_settles (hn.parser parse hnested) hsc (hb rfl).2 q)
          fun q' w3 h3 => ensures_pure ?_
        rw [hpos] at h3
        exact ⟨h3.1.after hsc h12, h3.2⟩
    | false =>
      refine Ensures.bind (callNode_calm call q) fun r w3 h3 => ensures_pure ⟨?_, h3.2.trans hpos⟩
      exact (h12.trans h3.1).settles hsc fun c hc => balances_node hc

theorem liftResolved_books {m : MethodDecl} (hn : Serves u sc nested) (pt : Point) :
    Books u sc (liftResolved nested kind m pt) w := by
  have hsc := hn.follows
  unfold liftResolved
  refine ensures_read_bind ?_
  refine (popArgs_kept pt m.argKinds).bind fun r w1 h1 => ?_
  have hrest : ∀ {call : Call} {d : Devirtualization},
      Yields (lowerBound nested m.id d call r.2) sc w1 fun _ w' => Booked u sc w w' := by
    intro call d
    refine (lowerCall_settles hn call r.2).bind fun r' w2 h2 => ?_
    refine Ensures.bind (Q := fun _ w' => Booked u sc w w') ?_ fun _ w3 h3 => ensures_pure h3
    exact (h1.1.unbooked hsc).trans (h2.1 _ rfl h2.2 rfl rfl)
  dsimp only
  split
  · exact ensures_pure_bind hrest
  · refine ensures_get_bind ?_
    split <;> exact ensures_pure_bind hrest

theorem invoke_books {declared : MethodId} (hn : Serves u sc nested) (pt : Point) :
    Books u sc (invoke nested kind declared pt) w := by
  unfold invoke
  refine ensures_read_bind ?_
  split
  · exact abandonCall_books hn.follows declared pt
  · split
    · exact abandonUnresolved_books hn.follows declared _ pt
    · split
      · trivial
      · exact liftResolved_books hn pt

end Nested

end BuildM

end StackLift
