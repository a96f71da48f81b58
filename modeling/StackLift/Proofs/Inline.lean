import StackLift.Proofs.Instructions

/-!
# Inlining

A method that is inlined is followed in a context of its own: what the graph held before is frozen,
and the open joins of the callers stay open. `Enters` is what holds when the method is entered, `Left`
what holds when it is left; `Left.back` takes the latter back to the caller.

A test of a handler that heads a loop is outside of what is proved about methods. Which bodies a build
comes to is only known once it is done, so the proofs are about `parseTame`, which gives up in front of
other bodies; a build that never parses one does the same.
-/
namespace StackLift

variable {body : Body} {handles : Bool} {config : Config} {env : Env} {m decl : MethodDecl}
  {root : MethodId}
  {l s a : NodeId} {callers : Option Snapshot} {w1 : Work} {chain : List MethodId} {sc : Scope}
    {g : Graph} {n : Nat}

open BuildM
open Graph hiding addEdge addNode addPhiInput kindIs setSnapshot

/-! ## Tame bodies -/

/-- No block tests a handler and heads a loop. -/
def BlockMap.isTame (m : BlockMap) : Bool :=
  m.blocks.toList.all fun b =>
    match b.kind with
    | .dispatch .. => !b.isLoopHeader
    | _ => true

/-- No test of a handler heads a loop. -/
def BlockMap.Tame (m : BlockMap) : Prop :=
  ∀ b, m.isDispatch b → (m.block b).isLoopHeader = false

theorem BlockMap.tame_of_isTame {m : BlockMap} (h : m.isTame = true) : m.Tame := by
  rintro b ⟨i, next, hk⟩
  unfold BlockMap.block at hk ⊢
  cases hb : m.blocks[b.index]? with
  | none => rfl
  | some c =>
    have hc : c ∈ m.blocks.toList := Array.mem_toList_iff.2 (Array.mem_of_getElem? hb)
    have := List.all_eq_true.1 h c hc
    rw [hb, Option.getD_some] at hk
    rw [hk] at this
    simpa using this

/-- No test of a handler heads a loop of the body. -/
def Body.isTame (b : Body) : Bool :=
  match BlockMap.ofBody b with
  | .ok map => map.isTame
  | .error _ => true

namespace BuildM

/-- Gives up in front of a method that is not tame. The error is one that any build may end with. -/
def ifTame {α : Type} (act : BuildM α) : BuildM α := do
  if (← read).blocks.isTame then act else throw (.budgetExceeded ⟨0⟩ .deadline)

/-- Follows a method like `parse`, as long as everything is tame. -/
def parseTame : Nat → Parser
  | 0, f, n => ifTame (parseWith none f n)
  | levels + 1, f, n => ifTame (parseWith (some (parseTame levels)) f n)

end BuildM

/-! ## What a build follows -/

/-- The errors `E` may come up. -/
structure Allows (E : Error → Prop) (env : Env) : Prop where
  ordinary : Expects E
  map : ∀ {id m body e}, env.hierarchy.lookupMethod id = .ok m → m.body = some body →
    BlockMap.ofBody body = .error e → E e
  calls : env.plugins.calls = []

theorem Scope.ofMethod_ok (h : Scope.ofMethod env config m body chain callers handles = .ok sc) :
    BlockMap.ofBody body = .ok sc.blocks ∧ sc.env = env ∧ sc.config = config ∧ sc.method = m ∧
      sc.body = body ∧ sc.chain = chain ∧ sc.callers = callers := by
  obtain ⟨blocks, hb, h⟩ := ok_of_bind h
  cases h
  exact ⟨hb, rfl, rfl, rfl, rfl, rfl, rfl⟩

theorem Scope.ofMethod_error {e : Error}
    (h : Scope.ofMethod env config m body chain callers handles = .error e) :
    BlockMap.ofBody body = .error e := by
  unfold Scope.ofMethod at h
  cases hb : BlockMap.ofBody body with
  | error e' =>
    rw [hb] at h
    cases h
    rfl
  | ok blocks =>
    rw [hb] at h
    cases h

theorem findRoot_ok {h : Hierarchy} (hr : findRoot h root = .ok (decl, body)) :
    h.lookupMethod root = .ok decl ∧ decl.body = some body := by
  unfold findRoot at hr
  split at hr
  · cases hr
  · next d hd =>
    split at hr
    · cases hr
    · next b hb =>
      cases hr
      exact ⟨hd, hb⟩

theorem prepare_ok {f : Frame} (h : prepare env config root = .ok (sc, f, g)) :
    ∃ decl body, findRoot env.hierarchy root = .ok (decl, body) ∧
      Frame.withArgs body.maxLocals (addParameters {} decl.argKinds).1 = .ok f ∧
      Scope.ofMethod env config decl body [root] none false = .ok sc ∧
      (addParameters {} decl.argKinds).2 = g := by
  obtain ⟨⟨decl, body⟩, hr, h⟩ := ok_of_bind h
  obtain ⟨frame, hf, h⟩ := ok_of_bind h
  obtain ⟨scope, hs, h⟩ := ok_of_bind h
  cases h
  exact ⟨decl, body, hr, hf, hs, rfl⟩

/-! ## Into a method and back -/

/-- A method that is entered now, where `P` has been passed. -/
def Scene.enter (S : Scene) (w : Work) (inner : Scope) (P : NodeSet) : Scene :=
  { inner with graph := w.graph, outer := S.Open w.table, base := P }

/-- A method is entered from control point `a` with the frame `f`. -/
structure Enters (S : Scene) (A : Labels) (w : Work) (a : NodeId) (f : Frame) : Prop where
  sure : S.Sure
  depth : S.depth ≠ 0
  graph : S.graph = w.graph
  table : w.table = Table.blank S.blocks.size
  sound : w.graph.Sound (S.Open w.table) (owe [] [])
  shaped : w.graph.Shaped (S.Open w.table) [a] []
  cert : w.graph.Cert A
  outer : ∀ {n}, S.outer n → w.graph.kindIs n NodeKind.isMerge = true → w.graph.snapshot? n = none
  foot : Foot S A w a
  outgoing : w.graph.outgoing a = []
  plain : ∃ k, w.graph.kind? a = some k ∧ k.exits = [.next]
  carries : Carries S (A a) w f

/-- Control leaves a method at `y`. -/
structure Leaves (S : Scene) (A : Labels) (w : Work) (y : Exit) : Prop where
  young : S.graph.nodeCount ≤ y.node.index
  foot : Foot S A w y.node
  outgoing : w.graph.outgoing y.node = []
  plain : ∃ k, w.graph.kind? y.node = some k ∧ k.exits = [.next]
  carries : Carries S (A y.node) w y.frame

def Exits.nodes (x : Exits) : List NodeId := (x.returned.toList ++ x.unwound.toList).map (·.node)

/-- What a method leaves behind that was entered from `a`. -/
structure Left (S : Scene) (A : Labels) (w : Work) (a : NodeId) (x : Exits) (w' : Work) (A' : Labels) :
    Prop where
  good : ∃ bare, Good S S.blocks.size bare [] x.nodes A' w' ∧
    ∀ n ∈ bare, n ∈ x.nodes ∧ w'.graph.kindIs n NodeKind.isMerge = true
  evolves : Evolves S [a] w w'
  agree : Agree S w A A'
  returned : ∀ y, x.returned = some y →
    Leaves S A' w' y ∧ (S.method.returns ≠ .void → y.frame.stack ≠ [])
  unwound : ∀ y, x.unwound = some y →
    Leaves S A' w' y ∧ ∃ v, y.frame.stack = [v] ∧ v.kind = .object
  distinct : ∀ y z, x.returned = some y → x.unwound = some z → y.node ≠ z.node

/-- The parser follows every inlined method. It finds out on its own whether the method is tame. -/
def ParserGood (E : Error → Prop) (env : Env) (parse : Parser) : Prop :=
  ∀ (S : Scene) A w a f, S.env = env → S.chain ≠ [] → (S.blocks.Tame → Enters S A w a f) →
    Ensures E (parse f (some a)) S w fun x w' => ∃ A', Left S A w a x w' A'

theorem Table.not_opens_blank {m : NodeId} : ¬ (Table.blank n).Opens m := by
  rintro ⟨b, e, he, -⟩
  rw [Table.slot?_blank] at he
  cases he

theorem Scene.open_blank {S : Scene} : S.Open (Table.blank n) = S.outer := by
  funext m
  simp [Scene.Open, Table.not_opens_blank]

theorem Graph.Cert.lt_of_reach {A : Labels} (h : g.Cert A)
    (hc : g.Coherent) (hs : g.start = some s) (hlt : s.index < g.nodeCount) (hr : g.Reach s a)
    (hl : A a l) : l.index < g.nodeCount := by
  induction hr with
  | refl =>
    rw [h.start hs hl]
    exact hlt
  | tail _ hstep ih =>
    obtain ⟨e, d, hd, rfl, rfl⟩ := hstep
    rcases h.edge hd hl with rfl | hl
    · exact lt_of_kindIs (hc.target hd)
    · exact ih hl

section Inline

variable {E : Error → Prop} {α : Type} {S : Scene} {inner sc : Scope} {cur : Nat}
  {A A' : Labels} {w w' : Work} {f g : Frame} {a n : NodeId} {p : Position}
  {x : Exits} {y : Exit} {act : BuildM α} {Q : α → Work → Prop}

theorem Foot.label_lt {part bare loose : List NodeId} (hf : Foot S A w a)
    (h : Good S cur bare loose part A w) (hl : A a l) : l.index < w.graph.nodeCount := by
  rcases hf.rooted with ⟨s, hs, hr⟩ | ⟨y, hy, -⟩
  · obtain ⟨z, hz, -⟩ := h.inv.sound.start hs
    exact h.cert.lt_of_reach h.inv.sound.coherent hs (lt_nodeCount hz) hr hl
  · cases hy

theorem Here.sure [S.Sure] (h : Here S cur [] [] A w a g) (hcharts : inner.blocks.Charts inner.body)
    (htame : inner.blocks.Tame) (hcallers : inner.callers = some (S.snapshot g p)) :
    (S.enter w inner (A a)).Sure := by
  refine {
    charts := hcharts, plain := htame
    outer := ?_, inputs := ?_, callers := ?_, handed := ?_, older := ?_ }
  · exact fun n hn => h.good.inv.open_lt hn
  · exact fun n i hi => inputs_lt h.good.inv.sound hi
  · intro s hs
    cases hcallers.symm.trans hs
    exact recalls_snapshot h.good.inv h.carries.backs
  · intro s hs
    cases hcallers.symm.trans hs
    exact h.good.avail_snapshot h.carries h.base
  · exact fun l hl => h.foot.label_lt h.good hl

theorem Here.enters [S.Sure] (h : Here S cur [] [] A w a g)
    (hinner : (S.enter w inner (A a)).Sure) (hdepth : inner.depth ≠ 0) (hf : Carries S (A a) w f) :
    Enters (S.enter w inner (A a)) A { w with table := Table.blank inner.blocks.size } a f := by
  have hO : (S.enter w inner (A a)).Open (Table.blank inner.blocks.size) = S.Open w.table :=
    Scene.open_blank
  refine ⟨hinner, hdepth, rfl, rfl, ?_, ?_, h.good.cert, ?_, ⟨?_, h.foot.rooted, ?_, h.foot.joined⟩,
    h.outgoing, h.plain, ⟨?_, hf.avail⟩⟩
  · rw [hO]
    exact h.good.inv.sound
  · rw [hO]
    exact h.good.shaped
  · intro n hn hm
    rcases hn with ⟨b, e, he, hp, rfl⟩ | hn
    · exact (h.good.waits.entry he).plain hp hm
    · exact h.good.waits.outer hn (Scene.Fit.outer n hn) hm
  · rw [hO]
    exact h.foot.firm
  · rintro l (hl | rfl)
    · exact hl
    · exact h.foot.base _ (.inr rfl)
  · rw [hO]
    exact hf.backs

theorem Inv.open_idle {d : Debt} (h : Inv S S.blocks.size d w) (hn : w.table.Opens n) :
    w.graph.Idle n := by
  obtain ⟨b, e, he, hp, rfl⟩ := hn
  have hst := h.placed.stands he
  have hlt : b.index < S.blocks.size := by
    rw [← h.placed.size]
    simp only [Table.slot?] at he
    rw [Option.join_eq_some_iff] at he
    exact (Array.getElem?_eq_some_iff.1 he).1
  have hnone : e.frame = none := by
    cases hf : e.frame with
    | none => rfl
    | some f =>
      have := hst.parsed.2 ⟨hlt, by simp [hf]⟩
      rw [hp] at this
      cases this
  obtain ⟨hhead, hdeg⟩ := hst.empty hnone
  obtain ⟨i, hk⟩ := hst.header hhead
  refine ⟨⟨kindIs_of_kind? hk, List.length_eq_zero_iff.1 hdeg, hst.silent hp⟩,
    fun hs => ?_⟩
  obtain ⟨x, hx, hxk, -⟩ := h.sound.start hs
  rw [kind?_of_node? hx, hxk] at hk
  cases hk

/-- Back in the caller, everything holds again that held before the call. -/
theorem Left.back (h : Here S cur [] [] A w a g)
    (hleft : Left (S.enter w inner (A a)) A { w with table := Table.blank inner.blocks.size } a x w1 A') :
    (∃ bare, Good S cur bare [] x.nodes A' { w1 with table := w.table } ∧
      ∀ n ∈ bare, n ∈ x.nodes ∧ w1.graph.kindIs n NodeKind.isMerge = true) ∧
    Evolves S [a] w { w1 with table := w.table } ∧ Agree S w A A' ∧
    Lasts S w { w1 with table := w.table } := by
  obtain ⟨bare, hgood, hbare⟩ := hleft.good
  have hO : (S.enter w inner (A a)).Open (Table.blank inner.blocks.size) = S.Open w.table :=
    Scene.open_blank
  have hbase := hgood.inv.based
  have hold : ∀ {m : NodeId}, m.index < w.graph.nodeCount → w1.graph.kind? m = w.graph.kind? m ∧
      w1.graph.inputs m = w.graph.inputs m ∧ w1.graph.incoming m = w.graph.incoming m :=
    fun hm => hbase.frozen hm
  have hgrows : Grows [a] (S.Open w.table) (S.Open w.table) w.graph w1.graph := by
    have := hleft.evolves.grows
    simp only [hO] at this
    exact { this with opens := fun hn => .inl hn }
  have hentry : ∀ {b e}, w.table.slot? b = some e → e.node.index < w.graph.nodeCount := by
    intro b e he
    exact (h.good.inv.placed.stands he).lt
  have hlasts : Lasts S w { w1 with table := w.table } := by
    rintro m ⟨k, hk, h1, h2⟩
    exact ⟨k, (hold (lt_of_kind? hk)).1.trans hk, h1, h2⟩
  have hagree : ∀ m, m.index < w.graph.nodeCount → A' m = A m :=
    fun m hm => hleft.agree m hm fun _ => hm
  have hvac : ∀ {m}, w1.table.Opens m → w1.graph.Idle m := fun hm => hgood.inv.open_idle hm
  refine ⟨⟨bare, ⟨⟨?_, ?_, ?_⟩, ?_, hgood.cert, ?_⟩, hbare⟩, ⟨hgrows, .refl _⟩,
    fun m hm _ => hagree m hm, hlasts⟩
  · -- the callee's headers that were never entered are not open any more
    refine hgood.inv.sound.adjust (fun m hm _ => .inr hm) ?_ (fun _ _ hl => .inr (.inl hl))
      (fun _ _ => rfl) fun _ hb => .inl hb
    rintro m y hy - - ((ho | ho) | ho)
    · obtain ⟨⟨h1, h2, -⟩, -⟩ := hvac ho
      rw [kindIs_of_kind? (kind?_of_node? hy)] at h1
      exact .inr (.inr ⟨h1, by simp [inDegree, h2]⟩)
    · exact .inl ho
    · exact .inr (.inl ho)
  · refine { h.good.inv.placed with stands := fun {b e} he => ?_ }
    have hin : w1.graph.inDegree e.node = w.graph.inDegree e.node := by
      simp only [inDegree, (hold (hentry he)).2.2]
    refine (h.good.inv.placed.stands he).mono hgrows.kind (fun _ => hin) (fun h0 => by rw [hin]; exact h0)
      ?_ ?_ ?_ hlasts fun h1 h2 => ⟨_, h1, h2⟩
    · rintro (h0 | h0)
      · exact Or.inr (Or.inl (hgrows.start.trans h0))
      · simp [owe] at h0
    · intro hp _
      exact hgood.shaped.silent (.inr (.inl ⟨b, e, he, hp, rfl⟩))
    · intro z
      by_cases hz : z.index < w.graph.nodeCount
      · rw [(hold hz).1]
      · constructor <;> intro hk
        · have := hbase.phis hk (Nat.le_of_not_lt hz)
          exact absurd (hentry he) (Nat.not_lt_of_le this)
        · exact absurd (lt_of_kind? hk) hz
  · have hb := h.good.inv.based
    refine ⟨Nat.le_trans hb.count hbase.count, ?_, ?_⟩
    · intro m hm
      obtain ⟨h1, h2, h3⟩ := hold (Nat.lt_of_lt_of_le hm hb.count)
      obtain ⟨h4, h5, h6⟩ := hb.frozen hm
      exact ⟨h1.trans h4, h2.trans h5, h3.trans h6⟩
    · intro m c hm hge
      by_cases hlt : m.index < w.graph.nodeCount
      · exact hb.phis ((hold hlt).1 ▸ hm) hge
      · exact Nat.le_trans hb.count (hbase.phis hm (Nat.le_of_not_lt hlt))
  · refine hgood.shaped.adjust (fun hm => .inl (.inr hm)) ?_ (fun _ hm => .inl hm)
      hgood.inv.sound.coherent fun _ hm => hm
    rintro m k - - ((ho | ho) | ho)
    · exact .inr (.inr (.inl (hvac ho)))
    · exact .inl ho
    · exact .inr (.inl ho)
  · refine ⟨fun {b e} he => ?_, fun ho hm => ?_⟩
    · obtain ⟨havail, hbase, hheader, -, hfirst⟩ := h.good.waits.entry he
      rw [← hagree _ (hentry he)] at havail hbase hheader
      refine ⟨fun hp f hf v hv => ?_, hbase, hheader, fun hp hm => ?_,
        fun hs => hfirst (hgrows.start ▸ hs)⟩
      · have hav := havail hp hf v hv
        obtain ⟨k, hk, -⟩ := kindIs_iff.1 hav.value
        refine hav.of_grows h.good.inv.sound hgrows (contains_of_kind? (k := k) ?_)
        exact (hold (lt_of_kind? hk)).1.trans hk
      · exact hgood.waits.outer (.inl ⟨b, e, he, hp, rfl⟩) (hentry he) hm
    · exact hgood.waits.outer (.inr ho) (Nat.lt_of_lt_of_le hm h.good.inv.based.count)

theorem Leaves.foot' [S.Sure] (h : Here S cur [] [] A w a g)
    (hy : Leaves (S.enter w inner (A a)) A' w1 y) : Foot S A' { w1 with table := w.table } y.node ∧
      Carries S (A' y.node) { w1 with table := w.table } y.frame := by
  obtain ⟨h1, h2, h3⟩ := hy.foot.firm
  refine ⟨⟨⟨h1, fun hO => ?_, h3⟩, hy.foot.rooted, ?_, hy.foot.joined⟩, fun v hv => ?_,
    hy.carries.avail⟩
  · exact absurd (h.good.inv.open_lt hO) (Nat.not_lt_of_le hy.young)
  · rintro l (hl | rfl)
    · exact hy.foot.base l (.inl (h.base l hl))
    · exact hy.foot.base _ (.inr rfl)
  · exact (hy.carries.backs v hv).of_open fun m hm _ => .inr hm

theorem ensures_ifTame (hE : Expects E)
    (h : sc.blocks.Tame → Ensures E act sc w Q) : Ensures E (ifTame act) sc w Q := by
  refine ensures_read_bind ?_
  split
  · next htame => exact h (BlockMap.tame_of_isTame htame)
  · exact ensures_throw (hE _ rfl)

theorem ensures_inside
    (h : Ensures E act inner { w with table := Table.blank inner.blocks.size } fun r w' =>
      Q r { w' with table := w.table }) : Ensures E (inside inner act) sc w Q := by
  unfold Ensures inside at *
  cases hact : act inner { w with table := Table.blank inner.blocks.size } with
  | ok r w' =>
    rw [hact] at h
    exact h
  | error e w' =>
    rw [hact] at h
    exact h

end Inline

end StackLift
