import StackLift.Proofs.Ledger.Plugins

/-!
# Keeping the report

A call is lifted first and reported afterwards, and while an inlined method is followed, its inlining is
not in the report yet. `Booked sc w w'` says what nevertheless holds whenever an instruction is done:

* a snapshot is explained by the inlinings in the report, together with those that are still under way in
  `sc` (`Work.Traced`);
* the report accounts for exactly the nodes of the graph that are to be reported (`Report.Balances`), if
  the unit is orderly;
* the depth that the report gives is that of its deepest inlining.

A method inlines calls through a parser, and what the parser books is a hypothesis here.
-/
namespace StackLift

open BuildM

/-! ## Accounts -/

/-- A call, as its node and its record tell. -/
structure LiftedCall where
  target : MethodId
  direct : Bool
  exceptionEdge : Bool
deriving DecidableEq, Repr

def NodeKind.call? : NodeKind → Option LiftedCall
  | .invoke kind target => some ⟨target, kind.isDirect, false⟩
  | .invokeWithException kind target => some ⟨target, kind.isDirect, true⟩
  | _ => none

def Outcome.call? : Outcome → Option LiftedCall
  | .directCall target exceptionEdge => some ⟨target, true, exceptionEdge⟩
  | .indirectCall target exceptionEdge => some ⟨target, false, exceptionEdge⟩
  | _ => none

/-- The inlining that a call became. -/
def CallSite.inlining? (c : CallSite) : Option Inlining :=
  match c.outcome with
  | .inlined method => some { method, caller := c.caller, position := c.position, depth := c.depth + 1 }
  | _ => none

namespace Report

/-- The report accounts for the nodes `ks`, and tells of each inlining twice. -/
structure Balances (r : Report) (ks : List NodeKind) : Prop where
  calls : (ks.filterMap NodeKind.call?).Perm (r.callSites.toList.filterMap fun c => c.outcome.call?)
  unresolved : ks.count (.deoptimize .unresolved) = r.unresolved.size
  forced : ks.count (.deoptimize .forced) = r.callSites.toList.countP fun c =>
    c.outcome = .deoptimized .forced
  inlined : (r.callSites.toList.filterMap CallSite.inlining?).Perm r.inlined.toList

theorem Balances.add {r r' a : Report} {ks ls : List NodeKind} (h : r.Balances ks) (ha : a.Balances ls)
    (hc : r'.callSites = r.callSites ++ a.callSites) (hi : r'.inlined = r.inlined ++ a.inlined)
    (hu : r'.unresolved = r.unresolved ++ a.unresolved) : r'.Balances (ks ++ ls) := by
  refine ⟨?_, ?_, ?_, ?_⟩
  · rw [hc, Array.toList_append, List.filterMap_append, List.filterMap_append]
    exact h.calls.append ha.calls
  · rw [hu, Array.size_append, List.count_append, h.unresolved, ha.unresolved]
  · rw [hc, Array.toList_append, List.countP_append, List.count_append, h.forced, ha.forced]
  · rw [hc, hi, Array.toList_append, Array.toList_append, List.filterMap_append]
    exact h.inlined.append ha.inlined

/-- The report gives the depth of its deepest inlining. -/
def Deepest (r : Report) : Prop := r.maxInlineDepth = (r.inlined.toList.map (·.depth)).foldl max 0

theorem Deepest.addInlining {r : Report} (h : r.Deepest) (i : Inlining) : (r.addInlining i).Deepest := by
  show max r.maxInlineDepth i.depth = ((r.inlined.push i).toList.map (·.depth)).foldl max 0
  rw [Array.toList_push, List.map_append, List.foldl_append, ← h]
  rfl

end Report

def Work.Balanced (w : Work) : Prop := w.report.Balances w.graph.reported

/-! ## Scopes -/

/-- What a build is about, and whether it is known to follow orderly methods only. -/
structure Setting where
  env : Env
  config : Config
  root : MethodId
  strict : Prop

/-- A scope that a build can come to: its callers are those of the chain, it is not too deep, and where no
plugin decides, no method is inlined into itself too often. -/
structure Scope.Visited (u : Setting) (sc : Scope) : Prop where
  env : sc.env = u.env
  config : sc.config = u.config
  head : sc.chain.head? = some u.root
  framed : sc.outline.methods = sc.chain.reverse
  depth : sc.chain.length ≤ u.config.maxInliningDepth + 1
  count : u.env.plugins.inlining = [] → ∀ m, sc.chain.count m ≤ max 1 u.config.maxRecursiveInlining

/-- A scope that a build follows. -/
structure Scope.Follows (u : Setting) (sc : Scope) : Prop extends sc.Visited u where
  orderly : u.strict → sc.Orderly

/-- Every snapshot belongs to a scope of the build, and is explained by the inlinings that are reported
or under way. -/
def Work.Traced (u : Setting) (sc : Scope) (w : Work) : Prop :=
  ∀ n s, w.graph.snapshot? n = some s →
    (∃ sc' : Scope, sc'.Visited u ∧ s.outline = sc'.outline) ∧
      ∀ i ∈ s.outline.inlinings, i ∈ w.report.inlined ∨ i ∈ sc.outline.inlinings

/-- What holds of the report in `w` holds again in `w'`. -/
structure Booked (u : Setting) (sc : Scope) (w w' : Work) : Prop where
  ages : w.graph.Ages w'.graph
  traced : w.Traced u sc → w'.Traced u sc
  deepest : w.report.Deepest → w'.report.Deepest
  orderly : u.strict → w.Headed sc → w'.Headed sc ∧ (w.Balanced → w'.Balanced)

section Booked

variable {u : Setting} {sc : Scope} {w w' w'' : Work} {ks : List NodeKind}

theorem Booked.refl (u : Setting) (sc : Scope) (w : Work) :
    Booked u sc w w := ⟨.refl _, id, id, fun _ h => ⟨h, id⟩⟩

theorem Booked.trans (h : Booked u sc w w') (h' : Booked u sc w' w'') : Booked u sc w w'' := by
  refine ⟨h.ages.trans h'.ages, fun ht => h'.traced (h.traced ht), fun hd => h'.deepest (h.deepest hd),
    fun ho hw => ?_⟩
  obtain ⟨hw', hb⟩ := h.orderly ho hw
  obtain ⟨hw'', hb'⟩ := h'.orderly ho hw'
  exact ⟨hw'', fun hw => hb' (hb hw)⟩

theorem Calm.booked (h : Calm sc ks w w') (hsc : sc.Follows u) {a : Report} (ha : a.Balances ks)
    (hg : w''.graph = w'.graph) (ht : w''.table = w'.table)
    (hc : w''.report.callSites = w.report.callSites ++ a.callSites)
      (hi : w''.report.inlined = w.report.inlined)
    (hai : a.inlined = #[]) (hu : w''.report.unresolved = w.report.unresolved ++ a.unresolved)
    (hd : w''.report.maxInlineDepth = w.report.maxInlineDepth) : Booked u sc w w'' := by
  refine ⟨hg ▸ h.graph.toAges, fun htr n s hs => ?_, fun hdeep => ?_, fun ho hw => ?_⟩
  · rw [hg] at hs
    rw [hi]
    rcases h.graph.snapshot hs with hs | ⟨t, ht, hts⟩
    · rw [hs]
      exact ⟨⟨sc, hsc.toVisited, rfl⟩, fun _ hi => .inr hi⟩
    · rw [← hts]
      exact htr n t ht
  · rw [Report.Deepest, hd, hi]
    exact hdeep
  · obtain ⟨hw', hr⟩ := h.orderly (hsc.orderly ho) hw
    refine ⟨hw'.of_ages (hg ▸ .refl _) (by rw [ht]), fun hb => ?_⟩
    rw [Work.Balanced, hg, hr]
    exact hb.add ha hc (by rw [hai, hi, Array.append_empty]) hu

theorem Calm.with_report (h : Calm sc ks w w') (r : Report) :
    Calm sc ks { w with report := r } { w' with report := r } := ⟨rfl, h.graph, h.orderly⟩

theorem Calm.unbooked (h : Calm sc [] w w') (hsc : sc.Follows u) : Booked u sc w w' := by
  have hnone : Report.Balances {} [] := ⟨.nil, rfl, rfl, .nil⟩
  refine h.booked hsc hnone rfl rfl ?_ ?_ rfl ?_ ?_
  all_goals rw [h.report]
  all_goals exact Array.append_empty.symm

theorem Calm.bookedType {r : Unresolved} (hsc : sc.Follows u)
    (h : Calm sc [.deoptimize .unresolved] { w with report := w.report.addUnresolved r } w') :
    Booked u sc w w' := by
  have ha : Report.Balances { unresolved := #[r] } [.deoptimize .unresolved] := ⟨.nil, rfl, rfl, .nil⟩
  refine (h.with_report w.report).booked hsc ha rfl rfl ?_ ?_ rfl ?_ ?_
  all_goals rw [h.report]
  · exact Array.append_empty.symm
  · rfl
  · rfl
  · rfl

end Booked

namespace BuildM

/-- `act` keeps the report when it runs on the work `w`. -/
abbrev Books {α : Type} (u : Setting) (sc : Scope) (act : BuildM α) (w : Work) :
    Prop :=
  Yields act sc w fun _ w' => Booked u sc w w'

/-! ## Rules -/

section Rules

variable {α β : Type} {u : Setting} {sc : Scope} {w : Work} {act : BuildM α}

theorem Books.bind {f : α → BuildM β} (h : Books u sc act w)
    (hf : ∀ a w', Books u sc (f a) w') : Books u sc (act >>= f) w :=
  Ensures.bind h fun a w' hw' => (hf a w').mono fun _ _ hw'' => hw'.trans hw''

theorem Calms.books (h : Calms sc [] act w) (hsc : sc.Follows u) :
    Books u sc act w := h.mono fun _ _ hw' => hw'.unbooked hsc

theorem Stays.books [Stays sc act] (hsc : sc.Follows u) : Books u sc act w := Calms.books calm hsc

theorem books_forIn {xs : List α} {body : α → PUnit → BuildM (ForInStep PUnit)}
    (h : ∀ x ∈ xs, ∀ w', Books u sc (body x ⟨⟩) w') : Books u sc (forIn xs ⟨⟩ body) w := by
  induction xs generalizing w with
  | nil => exact .refl ..
  | cons x xs ih =>
    rw [List.forIn_cons]
    refine Books.bind (h x List.mem_cons_self w) fun r w' => ?_
    cases r with
    | done => exact .refl ..
    | yield => exact ih fun y hy => h y (List.mem_cons_of_mem _ hy)

end Rules

/-! ## What is given up -/

section Abandon

variable {u : Setting} {sc : Scope} {w : Work}

theorem deoptimize_calm {r : DeoptReason} (hr : (NodeKind.deoptimize r).isReported = true) (pt : Point) :
    Yields (pt.deoptimize r) sc w fun pt' w' =>
      Calm sc [.deoptimize r] w w' ∧ pt'.position = pt.position := by
  refine Ensures.bind (addReportedDeopt_calm hr _ _) fun n w1 h1 => ?_
  refine Ensures.bind (calm.and (takeLast_quiet pt)) fun q w2 h2 => ?_
  obtain ⟨h2, -, hq⟩ := h2
  refine Ensures.bind calm fun _ w3 h3 => ensures_pure ⟨(h1.trans h2).trans h3, ?_⟩
  rw [hq]

theorem withType_books {act : BuildM Point} (hsc : sc.Follows u) (t : TypeId) (pt : Point)
    (hact : Books u sc act w) : Books u sc (withType t pt act) w := by
  refine ensures_read_bind ?_
  split
  · exact hact
  · exact Ensures.bind (Q := fun _ w' => ∃ u, w' = { w with report := w.report.addUnresolved u }) ⟨_, rfl⟩
      fun _ w1 h1 => by
        obtain ⟨u, rfl⟩ := h1
        exact (deoptimize_calm rfl pt).mono fun _ w2 h2 => h2.1.bookedType hsc

theorem abandonCall_books (hsc : sc.Follows u) (declared : MethodId) (pt : Point) :
    Books u sc (abandonCall declared .forced pt) w := by
  refine (deoptimize_calm rfl pt).bind fun pt' w1 h1 => ?_
  refine Ensures.bind (Q := fun _ w' => ∃ c : CallSite, c.outcome = .deoptimized .forced ∧
    w' = { w1 with report := w1.report.addCallSite c }) ⟨_, rfl, rfl⟩ fun _ w2 h2 => ensures_pure ?_
  obtain ⟨c, hc, rfl⟩ := h2
  have ha : Report.Balances { callSites := #[c] } [.deoptimize .forced] := by
    refine ⟨?_, rfl, ?_, ?_⟩ <;> simp [hc, NodeKind.call?, Outcome.call?, CallSite.inlining?]
  refine h1.1.booked hsc ha rfl rfl ?_ ?_ rfl ?_ ?_
  all_goals rw [Report.addCallSite, h1.1.report]
  · rfl
  · exact Array.append_empty.symm

theorem abandonUnresolved_books (hsc : sc.Follows u) (declared : MethodId) (why : Absence) (pt : Point) :
    Books u sc (do
      recordUnresolved pt.position (.method declared) why
      abandonCall declared .unresolved pt) w := by
  refine Ensures.bind (Q := fun _ w' => ∃ u, w' = { w with report := w.report.addUnresolved u }) ⟨_, rfl⟩
    fun _ w0 h0 => ?_
  obtain ⟨u, rfl⟩ := h0
  refine (deoptimize_calm rfl pt).bind fun pt' w1 h1 => ?_
  refine Ensures.bind (Q := fun _ w' => ∃ c : CallSite, c.outcome = .deoptimized .unresolved ∧
    w' = { w1 with report := w1.report.addCallSite c }) ⟨_, rfl, rfl⟩ fun _ w2 h2 => ensures_pure ?_
  obtain ⟨c, hc, rfl⟩ := h2
  have ha : Report.Balances { callSites := #[c], unresolved := #[u] } [.deoptimize .unresolved] := by
    refine ⟨?_, rfl, ?_, ?_⟩ <;> simp [hc, NodeKind.call?, Outcome.call?, CallSite.inlining?]
  refine (h1.1.with_report w.report).booked hsc ha rfl rfl ?_ ?_ rfl ?_ ?_
  all_goals rw [Report.addCallSite, h1.1.report]
  · rfl
  · rfl
  · rfl
  · rfl

end Abandon

end BuildM

end StackLift
