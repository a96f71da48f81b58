import StackLift.Proofs.Avail
import StackLift.Proofs.Entries

/-!
# The course of a build

`Good` puts everything together that holds while a method is lifted: the invariant, the shape of
control, and labels that certify where values can be used. `B` are the nodes that were passed before
the method was entered.

Control stands at a node that is anchored (`Foot`); an edge leads from there to a node that waits for
it (`Ready`), and takes a frame along whose values can be used there (`Carries`).
-/
namespace StackLift

variable {d d' : Debt} {dat : Edge} {e : EdgeId} {g g' : Graph} {D : List NodeId} {m n x : NodeId}
  {A : Labels} {O O' P : NodeSet} {p : Position} {v : Value}

open Graph hiding addEdge addNode addPhiInput kindIs setSnapshot

/-- What the entry `e` of block `b` holds can be used there. -/
structure Hosts (S : Scene) (A : Labels) (g : Graph) (b : BlockId) (e : Entry) : Prop where
  avail : e.parsed = false → ∀ {f}, e.frame = some f → ∀ v ∈ f.values, g.Avail (A e.node) v.node
  base : e.parsed = false → e.frame.isSome = true → ∀ l, S.base l ∨ l = e.node → A e.node l
  header : e.parsed = true → (S.blocks.block b).isLoopHeader = true →
    ∀ l, A e.node l → l = e.node ∨ S.base l
  plain : e.parsed = false → g.kindIs e.node NodeKind.isMerge = true → g.snapshot? e.node = none
  first : g.start = some e.node → b.index = 0

/-- What the joins of a method hold can be used there. -/
structure Waits (S : Scene) (A : Labels) (g : Graph) (t : Table) : Prop where
  entry : ∀ {b e}, t.slot? b = some e → Hosts S A g b e
  outer : ∀ {n}, S.outer n → n.index < S.graph.nodeCount →
    g.kindIs n NodeKind.isMerge = true → g.snapshot? n = none

/-- What stays the same while a method is lifted, and what its callers' frames need. -/
class Scene.Sure (S : Scene) : Prop extends S.Fit where
  handed : ∀ s, S.callers = some s → ∀ a ∈ s.chain, ∀ v ∈ a.frame.values, S.graph.Avail S.base v.node
  older : ∀ l, S.base l → l.index < S.graph.nodeCount

structure Good (S : Scene) (cur : Nat) (bare loose part : List NodeId) (A : Labels) (w : Work) :
    Prop where
  inv : Inv S cur (owe bare loose) w
  shaped : w.graph.Shaped (S.Open w.table) part loose
  cert : w.graph.Cert A
  waits : Waits S A w.graph w.table

/-- The labels of all nodes that were there stay, those of the method's open joins apart. -/
def Agree (S : Scene) (w : Work) (A A' : Labels) : Prop :=
  ∀ n, n.index < w.graph.nodeCount → (S.Open w.table n → n.index < S.graph.nodeCount) →
    A' n = A n

/-- Control stands at `a`, and has come there from the start. -/
structure Foot (S : Scene) (A : Labels) (w : Work) (a : NodeId) : Prop where
  firm : w.graph.Firm (S.Open w.table) (owe [] []) a
  rooted : w.graph.Rooted [] a
  base : ∀ l, S.base l ∨ l = a → A a l
  joined : w.graph.kind? a = some .merge → 2 ≤ w.graph.inDegree a

/-- The node waits for an edge from where `P` has been passed. -/
structure Ready (S : Scene) (part : List NodeId) (A : Labels) (P : NodeSet)
    (w : Work) (n : NodeId) : Prop where
  stub : Stub S w.graph n
  incoming : w.graph.incoming n = []
  vacant : w.graph.Vacant n → S.Open w.table n ∨ n ∈ part
  label : ∀ l, A n l → l = n ∨ P l

/-- The frame can be used where `P` has been passed. -/
structure Carries (S : Scene) (P : NodeSet) (w : Work) (f : Frame) : Prop where
  backs : w.graph.Backs (S.Open w.table) f
  avail : ∀ v ∈ f.values, w.graph.Avail P v.node

section Persist

variable {S S' : Scene} {P P' : NodeSet} {cur : Nat}
  {bare loose part part' ss l : List NodeId} {A A' A'' : Labels} {w w' w'' : Work}
  {a n : NodeId} {f f' : Frame}

theorem Agree.refl (S : Scene) (w : Work) (A : Labels) : Agree S w A A :=
  fun _ _ _ => rfl

theorem Agree.trans (h : Agree S w A A') (hg : Evolves S ss w w') (h' : Agree S w' A' A'') :
    Agree S w A A'' := by
  intro n hn hO
  rw [h' n (Nat.lt_of_lt_of_le hn hg.grows.count), h n hn hO]
  intro hO'
  exact hO ((hg.grows.opens hO').resolve_right (Nat.not_le_of_lt hn))

theorem Agree.of_old (h : ∀ n, n.index < w.graph.nodeCount → A' n = A n) : Agree S w A A' :=
  fun n hn _ => h n hn

theorem Graph.Firm.lt (h : g.Firm O d a) : a.index < g.nodeCount := lt_of_kindIs h.1

theorem Foot.agree (h : Foot S A w a) (hA : Agree S w A A') : A' a = A a :=
  hA a h.firm.lt fun hO => absurd hO h.firm.2.1

theorem Grows.reach (hg : Grows ss O O' g g') (hc : g.Coherent) (hsilent : ∀ {n}, O n → g.outgoing n = [])
    (h : g.Reach x a) (ha : ¬ O a) : g'.Reach x a := by
  induction h with
  | refl => exact .refl
  | @tail y z _ hstep ih =>
    obtain ⟨e, d, he, rfl, rfl⟩ := hstep
    refine .tail (ih fun hO => ?_) ⟨e, d, hg.edge he ?_ fun hO => absurd hO ha, rfl, rfl⟩
    · have := hc.outgoing.2 ⟨d, he, rfl⟩
      rw [hsilent hO] at this
      cases this
    · exact lt_of_kindIs (hc.target he)

theorem Good.rooted (h : Good S cur bare loose part A w)
    (hg : Evolves S ss w w') (hr : w.graph.Rooted l a) (ha : ¬ S.Open w.table a) :
    w'.graph.Rooted l a := by
  have hreach : ∀ {x}, w.graph.Reach x a → w'.graph.Reach x a :=
    fun hx => hg.grows.reach h.inv.sound.coherent h.shaped.silent hx ha
  rcases hr with ⟨s, hs, hr⟩ | ⟨x, hx, hr⟩
  · exact Or.inl ⟨s, hg.grows.start.trans hs, hreach hr⟩
  · exact .inr ⟨x, hx, hreach hr⟩

theorem Foot.mono (hf : Foot S A w a) (h : Good S cur bare loose part A w)
    (hg : Evolves S ss w w') (hA : Agree S w A A') : Foot S A' w' a := by
  refine ⟨hg.grows.firm hf.firm (by simp [owe]), h.rooted hg hf.rooted hf.firm.2.1, ?_, ?_⟩
  · rw [hf.agree hA]
    exact hf.base
  · intro hk
    have := (hg.grows.incoming hf.firm.lt fun hO => absurd hO hf.firm.2.1).1.length_le
    exact Nat.le_trans (hf.joined (hg.grows.old hf.firm.lt hk)) this

theorem Foot.firm' (hf : Foot S A w a) : w.graph.Firm (S.Open w.table) d a := by
  obtain ⟨h1, h2, h3⟩ := hf.firm
  exact ⟨h1, h2, h3.imp_right (Or.imp_right fun hm => (by simp [owe] at hm))⟩

theorem Carries.mono (hf : Carries S P w f) (hP : ∀ l, P l → P' l) : Carries S P' w f :=
  ⟨hf.backs, fun v hv => (hf.avail v hv).mono hP⟩

theorem Carries.evolve (hf : Carries S P w f) (h : Good S' cur bare loose part A w)
    (hg : Evolves S ss w w') (hb : w'.graph.Backs (S.Open w'.table) f) : Carries S P w' f :=
  ⟨hb, fun v hv => (hf.avail v hv).of_grows h.inv.sound hg.grows (hb v hv).contains⟩

theorem Carries.extend (hf : Carries S P w f) (h : Good S' cur bare loose part A w)
    (hg : Extends S ss w w') : Carries S P w' f :=
  hf.evolve h hg.toEvolves (hg.backs hf.backs)

theorem Carries.sub (hf : Carries S P w f) (hsub : ∀ v ∈ f'.values, v ∈ f.values) :
    Carries S P w f' := ⟨fun v hv => hf.backs v (hsub v hv), fun v hv => hf.avail v (hsub v hv)⟩

/-- A value can be used where `P` has been passed. -/
structure Has (S : Scene) (P : NodeSet) (w : Work) (x : NodeId) : Prop where
  usable : w.graph.Usable (S.Open w.table) x
  avail : w.graph.Avail P x

theorem Carries.has (hf : Carries S P w f) (hv : v ∈ f.values) : Has S P w v.node :=
  ⟨hf.backs v hv, hf.avail v hv⟩

theorem Carries.of_has (h : ∀ v ∈ f.values, Has S P w v.node) : Carries S P w f :=
  ⟨fun v hv => (h v hv).usable, fun v hv => (h v hv).avail⟩

theorem Carries.push (hf : Carries S P w f) (hv : Has S P w v.node) : Carries S P w (f.push v) := by
  refine .of_has fun x hx => ?_
  rcases Frame.mem_values_push.1 hx with rfl | hx
  · exact hv
  · exact hf.has hx

theorem Carries.raising (hf : Carries S P w f) (hv : Has S P w v.node) :
    Carries S P w (f.raising v) := by
  refine .of_has fun x hx => ?_
  rcases Frame.mem_values_raising hx with rfl | hx
  · exact hv
  · exact hf.has hx

theorem Has.mono (hx : Has S P w x) (hP : ∀ l, P l → P' l) : Has S P' w x :=
  ⟨hx.usable, hx.avail.mono hP⟩

theorem Has.extend (hx : Has S P w x) (h : Good S cur bare loose part A w) (hg : Extends S ss w w') :
    Has S P w' x :=
  ⟨hg.usable _ hx.usable,
    hx.avail.of_grows h.inv.sound hg.grows (hg.usable _ hx.usable).contains⟩

theorem Ready.mono (hn : Ready S part A P w n) (hg : Evolves S ss w w')
    (hA : Agree S w A A') (hs : n ∉ ss) (hO : ¬ S.Open w.table n) (hpart : part ⊆ part') :
    Ready S part' A' P w' n := by
  obtain ⟨k, hk, hc, hm⟩ := hn.stub.kind?
  have hlt := lt_of_kind? hk
  refine ⟨hn.stub.mono hg.grows, ?_, ?_, ?_⟩
  · rw [(hg.grows.incoming hlt fun h => absurd h hO).2 hs hO, hn.incoming]
    rintro i hi
    rw [hk] at hi
    cases hi
    cases hm
  · rintro ⟨h1, -, h3⟩
    refine ((hn.vacant ⟨?_, hn.incoming, ?_⟩).imp (fun h => absurd h hO) fun hp => hpart hp)
    · have hk' := hg.grows.kind hk (by cases k <;> first | rfl | cases hc)
      rw [kindIs_of_kind? hk'] at h1
      rw [kindIs_of_kind? hk, h1]
    · rw [← hg.grows.outgoing hlt hs hO, h3]
  · rw [hA n hlt fun h => absurd h hO]
    exact hn.label

end Persist

/-! ## The small actions -/

/-- The labels `A`, with `n` reached from where `P` has been passed. -/
def label (A : Labels) (n : NodeId) (P : NodeSet) : Labels :=
  fun m l => if m = n then l = n ∨ P l else A m l

theorem label_self (A : Labels) (n : NodeId) (P : NodeSet) (l : NodeId) :
    label A n P n l ↔ l = n ∨ P l := by simp [label]

theorem label_of_ne (h : m ≠ n) : label A n P m = A m := by
  funext l
  simp [label, h]

theorem label_of_lt (h : m.index < n.index) : label A n P m = A m :=
  label_of_ne (by rintro rfl; exact Nat.lt_irrefl _ h)

open BuildM

section Small

variable {E : Error → Prop} {S : Scene} {P : NodeSet} {cur : Nat}
  {bare loose L part ss part' : List NodeId} {A A' : Labels} {w w' : Work}
  {a b n : NodeId} {f : Frame} {k : NodeKind} {I : List NodeId}

theorem Waits.keep (h : Good S cur bare loose part A w)
    (hg : Grows ss (S.Open w.table) (S.Open w'.table) w.graph w'.graph)
    (hlive : ∀ {n}, w.graph.contains n = true → w'.graph.contains n = true)
    (ht : w'.table = w.table) (hA : ∀ n, n.index < w.graph.nodeCount → A' n = A n)
    (hplain : ∀ n, S.Open w.table n → w.graph.kindIs n NodeKind.isMerge = true →
      w.graph.snapshot? n = none → w'.graph.snapshot? n = none) :
    Waits S A' w'.graph w'.table := by
  have hlt : ∀ {b e}, w.table.slot? b = some e → e.node.index < w.graph.nodeCount := by
    intro b e he
    exact (h.inv.placed.stands he).lt
  have hmerge : ∀ {n}, n.index < w.graph.nodeCount → w'.graph.kindIs n NodeKind.isMerge = true →
      w.graph.kindIs n NodeKind.isMerge = true := by
    intro n hn hm
    obtain ⟨k, hk, hkm⟩ := kindIs_iff.1 hm
    exact kindIs_iff.2 ⟨k, hg.old hn hk, hkm⟩
  rw [ht]
  refine ⟨fun {b e} he => ?_, ?_⟩
  · obtain ⟨havail, hbase, hheader, hpl, hfirst⟩ := h.waits.entry he
    rw [← hA _ (hlt he)] at hbase hheader
    refine ⟨fun hp f hf v hv => ?_, hbase, hheader, fun hp hm => ?_, hg.start ▸ hfirst⟩
    · rw [hA _ (hlt he)]
      have hav := havail hp hf v hv
      refine hav.of_grows h.inv.sound hg (hlive ?_)
      exact contains_of_kindIs hav.value
    · have hm' := hmerge (hlt he) hm
      exact hplain _ (.inl ⟨b, e, he, hp, rfl⟩) hm' (hpl hp hm')
  · intro n ho hn hm
    have hm' := hmerge (Nat.lt_of_lt_of_le hn h.inv.based.count) hm
    exact hplain _ (.inr ho) hm' (h.waits.outer ho hn hm')

theorem Waits.put {t : Table} {b : BlockId} {e : Entry} (h : Waits S A g t)
    (hb : b.index < t.entries.size) (he : Hosts S A g b e) : Waits S A g (t.put b e) := by
  refine ⟨fun {c e'} he' => ?_, h.outer⟩
  rw [Table.slot?_put hb] at he'
  split at he'
  · next hcb =>
    cases he'
    exact hcb ▸ he
  · exact h.entry he'

theorem Graph.snapshot?_congr (h : g'.node? n = g.node? n) : g'.snapshot? n = g.snapshot? n := by
  simp only [snapshot?, h]

theorem Graph.node?_addNode_of_lt (h : n.index < g.nodeCount) :
    (g.addNode k I).2.node? n = g.node? n := by
  rw [node?_addNode, if_neg]
  rintro rfl
  exact Nat.lt_irrefl _ h

theorem Graph.contains_lt (h : g.contains n = true) : n.index < g.nodeCount := by
  obtain ⟨x, hx⟩ := Option.isSome_iff_exists.1 h
  exact lt_nodeCount hx

theorem Waits.addNode (h : Good S cur bare loose part A w)
    (hg : w'.graph = (w.graph.addNode k I).2) (ht : w'.table = w.table)
    (hA : ∀ n, n.index < w.graph.nodeCount → A' n = A n) : Waits S A' w'.graph w'.table := by
  refine .keep h (show Grows [] _ _ _ _ from ?_) ?_ ht hA ?_
  · rw [hg, ht]
    exact .addNode _ _ _ _ _
  · intro n hn
    rw [hg, contains_congr (node?_addNode_of_lt (contains_lt hn)), hn]
  · intro n _ hm hs
    rw [hg, snapshot?_congr (node?_addNode_of_lt (lt_of_kindIs hm)), hs]

theorem Graph.Cert.addNode (h : g.Cert A) (hs : g.Sound O d) (hs' : (g.addNode k I).2.Sound O' d')
    (hA : ∀ n, n.index < g.nodeCount → A' n = A n) (hk : ∀ m, k ≠ .phi m)
    (hin : ∀ i ∈ I, g.kindIs i NodeKind.isValue = true)
    (hidle : k.isPlace = true ∨ k.isMerge = true → I = [])
    (hcontrol : k.isControl = true → ∀ i ∈ I, g.Avail (A' ⟨g.nodeCount⟩) i)
    (hproxy : ∀ e, k = .proxy e → ∀ i ∈ I, g.Avail (A' e) i) : (g.addNode k I).2.Cert A' := by
  have hg : Grows [] O O g (g.addNode k I).2 := .addNode _ _ _ _ _
  have hav : ∀ {P : NodeSet} {i}, g.Avail P i → (g.addNode k I).2.Avail P i := by
    intro P i hi
    obtain ⟨k', hk', -⟩ := kindIs_iff.1 hi.value
    exact hi.of_grows hs hg (contains_of_kind? (kind?_addNode_of hk'))
  refine h.grown hs hs' hg hA ?_ (fun hd => .inl hd) ?_ ?_
  · intro n x hn hx
    rcases node?_addNode_inv hx with ⟨rfl, rfl⟩ | hx
    · refine ⟨fun i hi => kindIs_addNode_of (hin i hi), hidle, ?_, ?_, ?_, ?_⟩
      · exact fun hc i hi => hav (hcontrol hc i hi)
      · exact fun hm => absurd hm (hk _)
      · exact fun he i hi => hav (hproxy _ he i hi)
      · rintro s ⟨⟩
    · exact absurd (lt_nodeCount hx) (Nat.not_lt_of_le hn)
  · intro n x m hn hx hm
    rw [node?_addNode_of_lt hn] at hx
    rw [inputs_of_node? hx]
    refine ⟨fun i hi => .inl hi, fun hv he hd => .inl ⟨hv, ?_, hd⟩⟩
    rwa [incoming_addNode] at he
  · intro n x s hn hx hs
    rw [node?_addNode_of_lt hn] at hx
    exact .inl ⟨s, by rw [snapshot?, hx]; exact hs, fun a ha v hv => ⟨a, ha, hv⟩⟩

theorem addData_good (h : Good S cur bare loose part A w) (hk : k.refers = false)
    (hc : k.isControl = false) (hin : ∀ i ∈ I, Has S P w i) :
    Ensures E (addNode k I) S w fun n w' => Good S cur bare loose part A w' ∧
      Extends S [] w w' ∧ New w k I n w' ∧ Has S P w' n := by
  refine (addData_spec h.inv hk hc fun i hi => (hin i hi).usable).mono fun n w' h' => ?_
  obtain ⟨hinv, hext, hnew⟩ := h'
  have hgood : Good S cur bare loose part A w' := by
    refine ⟨hinv, ?_, ?_, .addNode h hnew.graph hnew.table fun _ _ => rfl⟩
    · rw [hnew.table, hnew.graph]
      exact h.shaped.same h.inv.sound.coherent (.addData hc)
    · have hs' := hinv.sound
      rw [hnew.graph] at hs' ⊢
      refine h.cert.addNode h.inv.sound hs' (fun _ _ => rfl) (by rintro m rfl; cases hk)
        (fun i hi => (hin i hi).avail.value) ?_ (fun hc' => by rw [hc] at hc'; cases hc')
        (by rintro e rfl; cases hk)
      intro hp
      cases k <;> first | (cases hc; done) | (rcases hp with hp | hp <;> cases hp)
  refine ⟨hgood, hext, hnew, ⟨_, hnew.kind, ?_, ?_⟩, ?_, ?_⟩
  · cases k <;> first | rfl | cases hc
  · rintro m rfl
    cases hk
  · exact kindIs_iff.2 ⟨k, hnew.kind, isValue_of_isControl hc⟩
  · intro l hl
    cases hl with
    | fixed hk' hc' =>
      rw [hnew.kind] at hk'
      cases hk'
      rw [hc] at hc'
      cases hc'
    | phi hk' =>
      rw [hnew.kind] at hk'
      cases hk'
      cases hk
    | proxy hk' =>
      rw [hnew.kind] at hk'
      cases hk'
      cases hk
    | floating hk' hf hi hl =>
      rw [inputs_of_node? hnew.node] at hi
      have hx := hin _ hi
      exact (hx.extend h hext).avail.needs hl

theorem Inv.of_eq (h : Inv S cur d w) (hg : w'.graph = w.graph) (ht : w'.table = w.table) :
    Inv S cur d w' := by
  refine ⟨?_, ?_, ?_⟩ <;> simp only [hg, ht]
  · exact h.sound
  · exact h.placed
  · exact h.based

theorem Good.of_eq (h : Good S cur bare loose part A w) (hg : w'.graph = w.graph)
    (ht : w'.table = w.table) : Good S cur bare loose part A w' := by
  refine ⟨h.inv.of_eq hg ht, ?_, ?_, ?_⟩ <;> simp only [hg, ht]
  · exact h.shaped
  · exact h.cert
  · exact h.waits

theorem changes_old (hn : w.graph.nodeCount ≤ n.index) (m : NodeId) (hm : m ∈ [a, n]) :
    m ∈ [a] ∨ S.Open w.table m ∨ w.graph.nodeCount ≤ m.index := by
  simp only [List.mem_cons, List.not_mem_nil, or_false] at hm
  rcases hm with rfl | rfl
  · exact .inl (by simp)
  · exact .inr (.inr hn)

theorem Extends.of_eq (hg : w'.graph = w.graph) (ht : w'.table = w.table) : Extends S ss w w' := by
  refine .of_table ht ?_ ?_ <;> rw [hg]
  · exact .refl _ _ _
  · exact fun _ hn => hn

theorem Good.addControl (h : Good S cur bare loose part A w) (P : NodeSet)
    (hnew : New w k I n w') (hc : k.isControl = true)
    (hfits : w.graph.Fits (S.Open w.table) (owe bare loose) k I)
    (hin : ∀ i ∈ I, w.graph.Avail P i) (hidle : k.isPlace = true ∨ k.isMerge = true → I = []) :
    Good S cur (if k.isStateEffecting then n :: bare else bare) (n :: loose) (n :: part)
      (label A n P) w' ∧ Extends S [] w w' := by
  have hk : ∀ m, k ≠ .phi m := by
    rintro m rfl
    cases hc
  have hext : Extends S [] w w' := by
    refine .of_table hnew.table ?_ ?_ <;> rw [hnew.graph]
    · exact .addNode _ _ _ _ _
    · exact fun m hm => hm.of_kind? fun _ => kind?_addNode_of
  have hinv := (h.inv.addNode hk hfits rfl).of_eq hnew.graph hnew.table
  have hid : n = ⟨w.graph.nodeCount⟩ := NodeId.index_inj.1 hnew.fresh
  rw [← hid] at hinv
  have hA : ∀ m, m.index < w.graph.nodeCount → label A n P m = A m :=
    fun m hm => label_of_lt (by rwa [hnew.fresh])
  refine ⟨⟨?_, ?_, ?_, .addNode h hnew.graph hnew.table hA⟩, hext⟩
  · have : (owe bare loose).add k n =
        owe (if k.isStateEffecting then n :: bare else bare) (n :: loose) := by
      simp only [Debt.add, owe, hc, if_true]
    rwa [this] at hinv
  · rw [hnew.table, hnew.graph, hid]
    exact h.shaped.addNode h.inv.sound.coherent
  · have hs' := hinv.sound
    rw [hnew.graph] at hs' ⊢
    refine h.cert.addNode h.inv.sound hs' hA hk (fun i hi => (hin i hi).value) hidle ?_ ?_
    · intro _ i hi
      rw [← hid]
      exact (hin i hi).mono fun l hl => (label_self A n P l).2 (.inr hl)
    · rintro e rfl
      cases hc

theorem addControl_good (h : Good S cur bare loose part A w) (P : NodeSet)
    (hc : k.isControl = true) (hfits : w.graph.Fits (S.Open w.table) (owe bare loose) k I)
    (hin : ∀ i ∈ I, w.graph.Avail P i) (hidle : k.isPlace = true ∨ k.isMerge = true → I = []) :
    Ensures E (addNode k I) S w fun n w' =>
      Good S cur (if k.isStateEffecting then n :: bare else bare) (n :: loose) (n :: part)
        (label A n P) w' ∧ Extends S [] w w' ∧ New w k I n w' := by
  refine (addNode_spec h.inv (by rintro m rfl; cases hc) hfits rfl).mono fun n w' h' => ?_
  obtain ⟨h1, h2⟩ := h.addControl P h'.2.2 hc hfits hin hidle
  exact ⟨h1, h2, h'.2.2⟩

theorem Good.mono (h : Good S cur bare loose part A w) (hb : bare ⊆ D)
    (hl : loose ⊆ L) (hp : part ⊆ part') : Good S cur D L part' A w :=
  ⟨h.inv.weaken hb hl, h.shaped.weaken h.inv.sound.coherent hp hl, h.cert, h.waits⟩

theorem Good.finish (h : Good S cur bare loose (n :: part) A w) (hk : w.graph.kind? n = some k)
    (he : w.graph.outKinds n = k.exits) (hm : k = .merge → 2 ≤ w.graph.inDegree n) :
    Good S cur bare loose part A w := by
  refine ⟨h.inv, ?_, h.cert, h.waits⟩
  refine h.shaped.adjust .inl ?_ ?_ h.inv.sound.coherent fun _ hx => hx
  · intro m k' hk' _ ho
    rcases ho with ho | ho
    · exact .inl ho
    · rcases List.mem_cons.1 ho with rfl | ho
      · rw [hk] at hk'
        cases hk'
        exact .inr (.inr (.inr he))
      · exact .inr (.inl ho)
  · intro m hkm ho
    rcases List.mem_cons.1 ho with rfl | ho
    · rw [hk] at hkm
      cases hkm
      exact .inr (hm rfl)
    · exact .inl ho

theorem Graph.Cert.link (h : g.Cert A) (hs : g.Sound O d) (hs' : g'.Sound O' d')
    (hl : Links g g' a b dat e)
    (hdat : dat.source = a ∧ dat.target = b) (hA : ∀ l, A b l → l = b ∨ A a l)
    (hphi : ∀ {n x v}, g.node? n = some x → x.kind = .phi b →
      x.inputs[(g.incoming b).length]? = some v → g.Avail (A a) v) : g'.Cert A := by
  have hg : Grows [a, b] O O g g' := .links hl (by simp) (.inl (by simp))
  have hav : ∀ {P : NodeSet} {i}, g.Avail P i → g'.Avail P i := by
    intro P i hi
    refine hi.of_grows hs hg ?_
    rw [contains_congr (hl.node? i)]
    exact contains_of_kindIs hi.value
  refine h.grown hs hs' hg (fun _ _ => rfl) ?_ ?_ ?_ ?_
  · intro n x hn hx
    rw [hl.node?] at hx
    exact absurd (lt_nodeCount hx) (Nat.not_lt_of_le hn)
  · intro c d hd
    rw [hl.edge?] at hd
    split at hd
    · cases hd
      rw [hdat.1, hdat.2]
      exact .inr hA
    · exact .inl hd
  · intro n x m hn hx hm
    rw [hl.node?] at hx
    rw [inputs_of_node? hx]
    refine ⟨fun i hi => .inl hi, ?_⟩
    intro v c d j hv hc hd
    rcases (hl.gains hdat.2).arrives hs.coherent hc hd with hold | ⟨hmb, hj, rfl⟩
    · exact .inl ⟨hv, hold⟩
    · rw [hdat.2] at hmb
      subst hmb hj
      rw [hdat.1]
      exact .inr (hav (hphi hx hm hv))
  · intro n x s hn hx hsn
    rw [hl.node?] at hx
    exact .inl ⟨s, by rw [snapshot?, hx]; exact hsn, fun a ha v hv => ⟨a, ha, hv⟩⟩

theorem Waits.link (h : Good S cur bare loose part A w) (hl : Links w.graph w'.graph a b dat e)
    (ht : w'.table = w.table) : Waits S A w'.graph w'.table := by
  refine .keep h (show Grows [a, b] _ _ _ _ from ?_) ?_ ht (fun _ _ => rfl) ?_
  · rw [ht]
    exact .links hl (by simp) (.inl (by simp))
  · intro n hn
    rw [contains_congr (hl.node? n), hn]
  · intro n _ _ hs
    rw [snapshot?_congr (hl.node? n), hs]

theorem addEdge_good {ek : EdgeKind} {p : Float} (h : Good S cur bare loose part A w)
    (ha : w.graph.Firm (S.Open w.table) (owe bare loose) a) (hpart : a ∈ part)
    (hroot : w.graph.Rooted L a) (hk : w.graph.kind? a = some k)
    (hsplit : k.isControlSplit = true → w.graph.kindIs b NodeKind.isBeginLike = true)
    (hb : Ready S part A P w b) (hP : ∀ l, P l → A a l) (hloose : ∀ x ∈ loose, x = b ∨ x ∈ L) :
    Ensures E (addEdge a b ek p) S w fun _ w' => Good S cur bare L part A w' ∧
      Extends S [a, b] w w' ∧ w'.table = w.table ∧
      ∃ e, Links w.graph w'.graph a b ⟨a, b, ek, p⟩ e := by
  refine (addEdge_spec h.inv ha hb.stub hloose).mono fun _ w' h' => ?_
  obtain ⟨hinv, hext, ht, e, hl⟩ := h'
  refine ⟨⟨hinv, ?_, ?_, .link h hl ht⟩, hext, ht, e, hl⟩
  · rw [ht]
    exact h.shaped.link h.inv.sound.coherent hl ⟨rfl, rfl⟩ hpart ha.2.1 hk hsplit
      (.inl ⟨hb.stub.flat, hb.incoming⟩) hb.vacant hroot hloose
  · refine h.cert.link h.inv.sound hinv.sound hl ⟨rfl, rfl⟩ ?_ ?_
    · exact fun l hl => (hb.label l hl).imp_right (hP l)
    · intro n x v hx hm
      have := ((h.inv.sound.node hx).phi hm).1
      rw [hb.stub.flat] at this
      cases this

theorem Good.avail_snapshot [S.Sure] (h : Good S cur bare loose part A w)
    (hf : Carries S P w f) (hbase : ∀ l, S.base l → P l) :
    ∀ a ∈ (S.snapshot f p).chain, ∀ v ∈ a.frame.values, w.graph.Avail P v.node := by
  intro a ha v hv
  simp only [Scope.snapshot, Frame.snapshot, Snapshot.chain, List.mem_cons] at ha
  rcases ha with rfl | ha
  · exact hf.avail v hv
  · cases hs : S.callers with
    | none => simp [hs] at ha
    | some s =>
      rw [hs] at ha
      obtain ⟨h1, h2⟩ := Scene.Sure.handed s hs a ha v hv
      obtain ⟨k, hkv, hval⟩ := kindIs_iff.1 h1
      have hlt := lt_of_kind? hkv
      refine ⟨kindIs_iff.2 ⟨k, (h.inv.based.frozen hlt).1.trans hkv, hval⟩, fun hl => ?_⟩
      refine hbase _ (h2 (hl.old (S := fun m => m.index < S.graph.nodeCount) ?_ hlt))
      intro m k' hm hk'
      obtain ⟨e1, e2, -⟩ := h.inv.based.frozen hm
      exact ⟨e1 ▸ hk', fun _ => ⟨e2, fun i hi => Scene.Fit.inputs m i hi⟩⟩

/-- A snapshot of a frame that can be used at the node. -/
theorem attach_good [S.Sure] (h : Good S cur bare loose part A w)
    (hn : w.graph.kindIs n NodeKind.isControl = true) (hf : Carries S (A n) w f)
    (hbase : ∀ l, S.base l → A n l) (hopen : ¬ S.Open w.table n) (hb : ∀ x ∈ bare, x = n ∨ x ∈ D) :
    Ensures E (attachSnapshot n f p) S w fun _ w' => Good S cur D loose part A w' ∧
      Extends S [] w w' ∧ w'.table = w.table := by
  have hrec := recalls_snapshot (p := p) h.inv hf.backs
  refine ensures_setSnapshot ?_ ?_
  · exact contains_of_kindIs hn
  have hk : ∀ m, (w.graph.modifyNode n fun x => { x with snapshot := some (S.snapshot f p) }).kind? m =
      w.graph.kind? m := fun m => kind?_setSnapshot _
  have hinv : Inv S cur (owe D loose) _ := h.inv.setSnapshot hb hrec
  have hext : Extends S [] w { w with
      graph := w.graph.modifyNode n fun x => { x with snapshot := some (S.snapshot f p) } } :=
    .of_table rfl (.setSnapshot _ _ _ _ _) fun m hm => hm.of_kind? fun k hkm => (hk m).trans hkm
  have hav := h.avail_snapshot (p := p) hf hbase
  refine ⟨⟨hinv, ?_, ?_, ?_⟩, hext, rfl⟩
  · exact h.shaped.same h.inv.sound.coherent (.setSnapshot n _)
  · have hav' : ∀ {P : NodeSet} {i}, w.graph.Avail P i →
        (w.graph.modifyNode n fun x => { x with snapshot := some (S.snapshot f p) }).Avail P i := by
      intro P i hi
      obtain ⟨k', hk', -⟩ := kindIs_iff.1 hi.value
      exact hi.of_grows h.inv.sound hext.grows (contains_of_kind? ((hk i).trans hk'))
    refine h.cert.grown h.inv.sound hinv.sound hext.grows (fun _ _ => rfl) ?_ (fun hd => .inl hd) ?_ ?_
    · intro m x hm hx
      have := lt_nodeCount hx
      rw [nodeCount_modifyNode] at this
      exact absurd this (Nat.not_lt_of_le hm)
    · intro m x c hm hx hc
      have hin : x.inputs = w.graph.inputs m := by
        rw [← inputs_of_node? hx, inputs_setSnapshot]
      refine ⟨fun i hi => .inl (hin ▸ hi), fun hv he hd => .inl ⟨hin ▸ hv, ?_, hd⟩⟩
      rwa [incoming_modifyNode] at he
    · intro m x s hm hx hs
      rw [node?_modifyNode] at hx
      split at hx
      · next heq =>
        subst heq
        obtain ⟨k, hkm, hc⟩ := kindIs_iff.1 hn
        obtain ⟨y, hy, rfl⟩ := kind?_eq_some.1 hkm
        rw [hy] at hx
        cases hx
        cases hs
        exact .inr ⟨hc, fun c hc v hv => hav' (hav c hc v hv)⟩
      · exact .inl ⟨s, by rw [snapshot?, hx]; exact hs, fun a ha v hv => ⟨a, ha, hv⟩⟩
  · refine .keep h hext.grows ?_ rfl (fun _ _ => rfl) ?_
    · intro m hm
      obtain ⟨x, hx⟩ := Option.isSome_iff_exists.1 hm
      exact contains_of_kind? ((hk m).trans (kind?_of_node? hx))
    · intro m ho hm hs
      have hne : m ≠ n := by
        rintro rfl
        exact hopen ho
      rw [← hs]
      exact snapshot?_congr (by rw [node?_modifyNode, if_neg hne])

end Small

end StackLift
