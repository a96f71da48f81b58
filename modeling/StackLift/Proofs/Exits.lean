import StackLift.Proofs.Targets

/-!
# Leaving loops

An edge out of loops goes through one exit for each of them. Every value is seen after an exit as it
is, or as a proxy of the exit (`Proxied`); a chain of proxies leads from what a frame held before the
exits to what it holds after them (`Carried`), so that nothing of it can be dropped behind its back.
-/
namespace StackLift

variable {g : Graph} {a b n x : NodeId} {v' : Value}

open BuildM
open Graph hiding addEdge addNode addPhiInput kindIs setSnapshot

/-- The value `v'` is `v` as it is seen after `exit`. -/
structure Proxied (g : Graph) (exit : NodeId) (v v' : Value) : Prop where
  kind : v'.kind = v.kind
  node : v'.node = v.node ∨
    (g.kind? v'.node = some (.proxy exit) ∧ g.inputs v'.node = [v.node])

/-- A chain of proxies leads from `a` to `b`. -/
inductive Carried (g : Graph) (a : NodeId) : NodeId → Prop where
  | here : Carried g a a
  | proxy {b c e : NodeId} (h : Carried g a b) (hk : g.kind? c = some (.proxy e))
    (hin : g.inputs c = [b]) : Carried g a c

section Exit

variable {E : Error → Prop} {S : Scene} {P : NodeSet} {cur : Nat} {w w' : Work}
  {bare loose part ss dead : List NodeId} {A A' : Labels} {exit header : NodeId}
  {mark : Option Nat} {v : Value} {s : List (NodeId × NodeId)}

theorem Extends.kept {k : NodeKind} (h : Extends S ss w w') (hu : w.graph.Usable (S.Open w.table) n)
    (hk : w.graph.kind? n = some k) (hp : ∀ m, k ≠ .phi m) :
    w'.graph.kind? n = some k ∧ w'.graph.inputs n = w.graph.inputs n := by
  obtain ⟨k', hk', -⟩ := h.usable n hu
  have hold := h.grows.old hu.lt hk'
  rw [hk] at hold
  cases hold
  exact ⟨hk', (h.grows.inputs hu.lt hk').2 hp⟩

theorem Proxied.mono (hp : Proxied w.graph exit v v') (h : Extends S ss w w')
    (hu : w.graph.Usable (S.Open w.table) v'.node) : Proxied w'.graph exit v v' := by
  refine ⟨hp.kind, hp.node.imp_right ?_⟩
  rintro ⟨hk, hin⟩
  obtain ⟨h1, h2⟩ := h.kept hu hk (by rintro m ⟨⟩)
  exact ⟨h1, h2.trans hin⟩

theorem Carried.mono (hc : Carried w.graph a b) (h : Extends S ss w w')
    (hi : ∀ n x, w.graph.node? n = some x → ∀ i ∈ x.inputs, w.graph.Usable (S.Open w.table) i)
    (hu : w.graph.Usable (S.Open w.table) b) : Carried w'.graph a b := by
  induction hc with
  | here => exact .here
  | proxy hc hk hin ih =>
    obtain ⟨h1, h2⟩ := h.kept hu hk (by rintro m ⟨⟩)
    refine .proxy (ih ?_) h1 (h2.trans hin)
    obtain ⟨x, hx, -⟩ := kind?_eq_some.1 hk
    rw [inputs_of_node? hx] at hin
    exact hi _ x hx _ (by rw [hin]; simp)

theorem Carried.proxied (hc : Carried g a v.node) (hp : Proxied g exit v v') : Carried g a v'.node := by
  rcases hp.node with hn | ⟨hk, hin⟩
  · rw [hn]
    exact hc
  · exact .proxy hc hk hin

theorem Carried.spared (h : Carried g a b)
    (hclosed : ∀ i ∈ dead, ∀ n x, g.node? n = some x → i ∈ x.inputs → n ∈ dead) (hb : b ∉ dead) :
    a ∉ dead := by
  induction h with
  | here => exact hb
  | proxy _ hk hin ih =>
    refine ih fun hd => hb ?_
    obtain ⟨x, hx, -⟩ := kind?_eq_some.1 hk
    rw [inputs_of_node? hx] at hin
    exact hclosed _ hd _ x hx (by rw [hin]; simp)

theorem run_proxyOf : (proxyOf exit header mark v).run s = (do
    let w ← get if definedInLoop w.graph v.node header mark then
      match s.lookup v.node with
      | some proxy => return ({ v with node := proxy }, s)
      | none =>
        let proxy ← addNode (.proxy exit) [v.node]
        return ({ v with node := proxy }, (v.node, proxy) :: s)
    else
      return (v, s) : BuildM (Value × List (NodeId × NodeId))) := by
  unfold proxyOf
  funext S w
  show (if definedInLoop w.graph v.node header mark = true then _ else _ :
    StateT (List (NodeId × NodeId)) BuildM Value).run s S w = (if _ then _ else _ : BuildM _) S w
  by_cases hd : definedInLoop w.graph v.node header mark = true
  · rw [if_pos hd, if_pos hd]
    show (match s.lookup v.node with
      | some _ => _
      | none => _ : StateT (List (NodeId × NodeId)) BuildM Value).run s S w = _
    cases hl : s.lookup v.node <;> rfl
  · rw [if_neg hd, if_neg hd]
    rfl

/-- The proxies made so far. -/
def Proxies (g : Graph) (exit : NodeId) (s : List (NodeId × NodeId)) : Prop :=
  ∀ q ∈ s, g.kind? q.2 = some (.proxy exit) ∧ g.inputs q.2 = [q.1]

theorem Graph.Avail.proxy (hk : g.kind? x = some (.proxy exit)) (he : P exit) : g.Avail P x := by
  refine ⟨kindIs_iff.2 ⟨_, hk, rfl⟩, fun hl => ?_⟩
  cases hl with
  | fixed h hc =>
    rw [hk] at h
    cases h
    cases hc
  | phi h =>
    rw [hk] at h
    cases h
  | proxy h =>
    rw [hk] at h
    cases h
    exact he
  | floating h hf =>
    rw [hk] at h
    cases h
    cases hf

theorem Has.proxy (hk : w.graph.kind? x = some (.proxy exit)) (he : P exit) : Has S P w x :=
  ⟨⟨_, hk, rfl, by rintro m ⟨⟩⟩, .proxy hk he⟩

section

variable (h : Good S cur bare loose part A w)
  (hexit : w.graph.kind? exit = some (.loopExit header)) (hself : A exit exit)
include h hexit hself

/-- A value as it is seen after an exit. -/
theorem proxyOf_good (hv : Has S (A exit) w v.node) (hs : Proxies w.graph exit s) :
    Ensures E ((proxyOf exit header mark v).run s) S w fun r w' =>
      Good S cur bare loose part A w' ∧ Extends S [] w w' ∧ w'.table = w.table ∧
        Proxied w'.graph exit v r.1 ∧ Has S (A exit) w' r.1.node ∧ Proxies w'.graph exit r.2 := by
  rw [run_proxyOf]
  refine ensures_get_bind ?_
  split
  · split
    · next proxy hl =>
      obtain ⟨l1, l2, heq, -⟩ := List.lookup_eq_some_iff.1 hl
      have hq := hs (v.node, proxy) (by rw [heq]; simp)
      exact ensures_pure ⟨h, .refl _ _ _, rfl, ⟨rfl, .inr hq⟩, .proxy hq.1 hself, hs⟩
    · refine (addNode_spec h.inv (by rintro m ⟨⟩) (k := .proxy exit) (I := [v.node])
        ⟨by simpa using hv.usable, by rintro m ⟨⟩, ?_, by rintro m (hc | hc) <;> cases hc⟩ rfl).bind
        fun proxy w1 h1 => ensures_pure ?_
      · rintro m ⟨⟩
        exact ⟨header, hexit⟩
      · obtain ⟨hinv, hext, hnew⟩ := h1
        have hgood : Good S cur bare loose part A w1 := by
          refine ⟨hinv, ?_, ?_, .addNode h hnew.graph hnew.table fun _ _ => rfl⟩
          · rw [hnew.table, hnew.graph]
            exact h.shaped.same h.inv.sound.coherent (.addData rfl)
          · have hs' := hinv.sound
            rw [hnew.graph] at hs' ⊢
            refine h.cert.addNode h.inv.sound hs' (fun _ _ => rfl) (by rintro m ⟨⟩)
              (by simpa using hv.avail.value) (by rintro (hc | hc) <;> cases hc) (by rintro ⟨⟩) ?_
            rintro e ⟨⟩
            simpa using hv.avail
        have hq : w1.graph.kind? proxy = some (.proxy exit) ∧ w1.graph.inputs proxy = [v.node] :=
          ⟨hnew.kind, inputs_of_node? hnew.node⟩
        refine ⟨hgood, hext, hnew.table, ⟨rfl, .inr hq⟩, .proxy hq.1 hself, ?_⟩
        intro q hmem
        rcases List.mem_cons.1 hmem with rfl | hmem
        · exact hq
        · obtain ⟨h1, h2⟩ := hs q hmem
          obtain ⟨h3, h4⟩ := hext.kept (show Has S (fun _ => True) _ _ from .proxy h1 trivial).usable h1
            (by rintro m ⟨⟩)
          exact ⟨h3, h4.trans h2⟩
  · exact ensures_pure ⟨h, .refl _ _ _, rfl, ⟨rfl, .inl rfl⟩, hv, hs⟩

theorem proxyFrame_good {f : Frame} (hf : Carries S (A exit) w f) :
    Ensures E ((f.mapValuesM (proxyOf exit header mark)).run []) S w fun r w' =>
      Good S cur bare loose part A w' ∧ Extends S [] w w' ∧ w'.table = w.table ∧
        f.Rel (Proxied w'.graph exit) r.1 ∧ Carries S (A exit) w' r.1 := by
  -- what is done so far stands beside the values it was made from
  let R (w' : Work) (v v' : Value) : Prop :=
    Proxied w'.graph exit v v' ∧ Has S (A exit) w' v'.node
  refine (ensures_mapValuesM_run (fun rest done s w' => Good S cur bare loose part A w' ∧
    Extends S [] w w' ∧ w'.table = w.table ∧ Proxies w'.graph exit s ∧
    ∃ before, f.values = before ++ rest ∧ List.Forall₂ (R w') before done)
    ?_ ?_).mono fun r w' h' => ?_
  · rintro v rest done s w1 ⟨hgood, hext, ht, hs, before, hsplit, hrel⟩
    have hv : v ∈ f.values := by rw [hsplit]; simp
    refine (proxyOf_good hgood (hext.grows.kind hexit rfl) hself ((hf.has hv).extend h hext) hs).mono
      fun r w2 h2 => ?_
    obtain ⟨hgood2, hext2, ht2, hp, hu, hs2⟩ := h2
    refine ⟨hgood2, hext.trans hext2, ht2.trans ht, hs2, before ++ [v], by simp [hsplit], ?_⟩
    refine List.rel_append (hrel.imp fun a b hab => ?_) (.cons ⟨hp, hu⟩ .nil)
    exact ⟨hab.1.mono hext2 hab.2.usable, hab.2.extend hgood hext2⟩
  · exact ⟨h, .refl _ _ _, rfl, by simp [Proxies], [], rfl, .nil⟩
  · obtain ⟨⟨hgood, hext, ht, -, before, hsplit, hrel⟩, halike⟩ := h'
    rw [List.append_nil] at hsplit
    have hrel' := halike.rel (hsplit ▸ hrel)
    refine ⟨hgood, hext, ht, hrel'.imp fun _ _ h => h.1, .of_has fun v hv => ?_⟩
    obtain ⟨x, -, hx⟩ := hrel'.exists_left hv
    exact hx.2

end

end Exit

/-! ## Chains of exits -/

/-- Control can enter at the first exit, from where `P` has been passed, and leave at the last. -/
structure Chained (S : Scene) (part : List NodeId) (A : Labels) (P : NodeSet)
    (w : Work) (c : ExitChain) : Prop where
  ready : Ready S part A P w c.first
  closed : ¬ S.Open w.table c.first
  firm : w.graph.Firm (S.Open w.table) (owe [] [c.first]) c.last
  rooted : w.graph.Rooted [c.first] c.last
  kind : ∃ h, w.graph.kind? c.last = some (.loopExit h)
  outgoing : w.graph.outgoing c.last = []
  label : ∀ l, P l ∨ l = c.last → A c.last l

/-- What has been passed once the exits are behind. -/
def past (A : Labels) (P : NodeSet) : Option ExitChain → NodeId → Prop
  | none => P
  | some c => A c.last

/-- The nodes that a chain of exits keeps waiting. -/
def firsts (c : Option ExitChain) : List NodeId := c.toList.map (·.first)

def lasts (c : Option ExitChain) : List NodeId := c.toList.map (·.last)

section Chain

variable {E : Error → Prop} {S : Scene} {P : NodeSet} {cur : Nat} {w w' : Work}
  {bare loose part part' ss : List NodeId} {A A' : Labels} {c : ExitChain} {f f' : Frame}
  {p : Position} {l : Nat} {b : BlockId} {e : Entry} {exit : NodeId}

theorem Ready.link {b : NodeId} {dat : Edge} {x : EdgeId} (hn : Ready S part A P w n)
    (hl : Links w.graph w'.graph a b dat x) (ht : w'.table = w.table) (hne : n ≠ b) :
    Ready S part A P w' n := by
  refine ⟨⟨hn.stub.young, ?_, ?_⟩, ?_, ?_, hn.label⟩
  · rw [kindIs_congr (hl.node? n)]
    exact hn.stub.control
  · rw [kindIs_congr (hl.node? n)]
    exact hn.stub.flat
  · rw [hl.incoming, if_neg hne, hn.incoming]
  · rintro ⟨h1, -, h3⟩
    rw [ht]
    refine hn.vacant ⟨by rwa [kindIs_congr (hl.node? n)] at h1, hn.incoming, ?_⟩
    rw [hl.outgoing] at h3
    split at h3
    · exact (List.append_eq_nil_iff.1 h3).1
    · exact h3

theorem Chained.mono (hc : Chained S part A P w c) (h : Good S cur bare loose part' A w)
    (hg : Evolves S ss w w') (hA : Agree S w A A') (hf : c.first ∉ ss) (hl : c.last ∉ ss) :
    Chained S part A' P w' c := by
  have hlt := hc.firm.lt
  have hopen := hc.firm.2.1
  obtain ⟨hd, hk⟩ := hc.kind
  have hfirst : c.first.index < w.graph.nodeCount := contains_lt hc.ready.stub.contains
  refine ⟨hc.ready.mono hg hA hf hc.closed (fun _ hx => hx), fun hO => hc.closed ?_, ?_, ?_, ⟨hd, ?_⟩,
    ?_, ?_⟩
  · exact (hg.grows.opens hO).resolve_right (Nat.not_le_of_lt hfirst)
  · exact hg.grows.firm hc.firm fun hm => .inr hm
  · exact h.rooted hg hc.rooted hopen
  · exact hg.grows.kind hk rfl
  · rw [hg.grows.outgoing hlt hl hopen, hc.outgoing]
  · rw [hA _ hlt fun hO => absurd hO hopen]
    exact hc.label

theorem Chained.firm_owe (hc : Chained S part A P w c) :
    w.graph.Firm (S.Open w.table) (owe bare (n :: c.first :: loose)) c.last := by
  obtain ⟨f1, f2, f3⟩ := hc.firm
  refine ⟨f1, f2, f3.imp_right (Or.imp_right fun hm => ?_)⟩
  have : c.last = c.first := by simpa [owe] using hm
  simp [owe, this]

/-- An exit is made where `P` has been passed, and the frame is seen as it is behind the exit. -/
structure NewExit (S : Scene) (P : NodeSet) (cur : Nat) (bare loose part : List NodeId)
    (A : Labels) (f : Frame) (w : Work) (exit : NodeId) (f' : Frame) (w' : Work) : Prop where
  good : Good S cur bare (exit :: loose) (exit :: part) (label A exit P) w'
  extend : Extends S [] w w'
  table : w'.table = w.table
  fresh : w.graph.nodeCount ≤ exit.index
  kind : ∃ h, w'.graph.kind? exit = some (.loopExit h)
  outgoing : w'.graph.outgoing exit = []
  closed : ¬ S.Open w'.table exit
  ready : ∀ part', Ready S part' (label A exit P) P w' exit
  carries : Carries S (label A exit P exit) w' f'
  rel : f.Rel (Proxied w'.graph exit) f'

theorem NewExit.agree
    (hx : NewExit S P cur bare loose part A f w exit f' w') : Agree S w A (label A exit P) :=
  .of_old fun _ hn => label_of_lt (Nat.lt_of_lt_of_le hn hx.fresh)

theorem Proxied.extend (hv : Proxied w.graph exit v v') (hext : Extends S [] w w') :
    Proxied w'.graph exit v v' := by
  refine ⟨hv.kind, hv.node.imp_right ?_⟩
  rintro ⟨h1, h2⟩
  obtain ⟨h3, h4⟩ := hext.kept (show Has S (fun _ => True) _ _ from .proxy h1 trivial).usable h1
    (by rintro m ⟨⟩)
  exact ⟨h3, h4.trans h2⟩

theorem newExit_good {header : NodeId} {mark : Option Nat} {β : Type} {k : NodeId → Frame → BuildM β}
    {Q : β → Work → Prop} [S.Sure] (h : Good S cur bare loose part A w)
    (hheader : (∃ i, w.graph.kind? header = some (.loopHeader i)) ∧ 0 < w.graph.inDegree header)
    (hP : ∀ l, S.base l → P l) (hf : Carries S P w f)
    (hk : ∀ exit f' w', NewExit S P cur bare loose part A f w exit f' w' →
      Ensures E (k exit f') S w' Q) :
    Ensures E (do
      let exit ← addNode (.loopExit header) []
      let r ← (f.mapValuesM (proxyOf exit header mark)).run []
      attachSnapshot exit r.1 p
      k exit r.1) S w Q := by
  refine (addControl_good h P (k := .loopExit header) (I := []) rfl
    ⟨by simp, by rintro m ⟨⟩, by rintro m ⟨⟩, ?_⟩ (by simp)
    (by rintro (hc | hc) <;> cases hc)).bind fun exit w2 h2 => ?_
  · rintro m (hm | hm) <;> cases hm
    exact hheader
  obtain ⟨hgood2, hext2, hnew⟩ := h2
  have hself : ∀ l, label A exit P exit l ↔ l = exit ∨ P l := label_self A exit _
  have hfresh : w.graph.nodeCount ≤ exit.index := Nat.le_of_eq hnew.fresh.symm
  have hopen2 : ¬ S.Open w2.table exit := by
    rw [hnew.table]
    exact fun hO => absurd (h.inv.open_lt hO) (Nat.not_lt_of_le hfresh)
  refine (proxyFrame_good hgood2 hnew.kind ((hself _).2 (.inl rfl))
    ((hf.extend h hext2).mono fun l hl' => (hself l).2 (.inr hl'))).bind fun r w3 h3 => ?_
  obtain ⟨hgood3, hext3, ht3, hrel, hcar3⟩ := h3
  refine (attach_good (D := bare) hgood3 (kindIs_of_kind? (hext3.grows.kind hnew.kind rfl)) hcar3
    (fun l hl' => (hself l).2 (.inr (hP l hl'))) ?_ (by simp [NodeKind.isStateEffecting])).bind
    fun _ w4 h4 => hk exit r.1 w4 ?_
  · intro hO
    rw [ht3] at hO
    exact hopen2 hO
  obtain ⟨hgood4, hext4, ht4⟩ := h4
  have hext34 := hext3.trans hext4
  have hlt2 : exit.index < w2.graph.nodeCount := lt_of_kind? hnew.kind
  have hkind4 := hext34.grows.kind hnew.kind rfl
  have hin4 : w4.graph.incoming exit = [] := by
    rw [(hext34.grows.incoming hlt2 fun hO => absurd hO hopen2).2 (by simp) hopen2, hnew.incoming]
    intro i hi
    rw [hnew.kind] at hi
    cases hi
  refine ⟨hgood4, hext2.trans hext34, ht4.trans (ht3.trans hnew.table), hfresh, ⟨_, hkind4⟩, ?_, ?_,
    fun part' => ⟨(hnew.stub h.inv rfl rfl).mono hext34.grows, hin4, ?_, fun l hl' => (hself l).1 hl'⟩,
    hcar3.extend hgood3 hext4, hrel.imp fun v v' hv => hv.extend hext4⟩
  · rw [hext34.grows.outgoing hlt2 (by simp) hopen2, hnew.outgoing]
  · rw [ht4, ht3]
    exact hopen2
  · rintro ⟨hpl, -⟩
    rw [kindIs_of_kind? hkind4] at hpl
    cases hpl

/-- What one more exit leaves behind. -/
structure Exited (S : Scene) (P : NodeSet) (cur : Nat) (bare loose part : List NodeId)
    (A : Labels) (f : Frame) (c : Option ExitChain) (w : Work) (f' : Frame)
    (c' : Option ExitChain) (w' : Work) (A' : Labels) (exit : NodeId) : Prop where
  good : Good S cur bare (firsts c' ++ loose) (lasts c' ++ part) A' w'
  extend : Extends S (lasts c) w w'
  agree : Agree S w A A'
  table : w'.table = w.table
  carries : Carries S (past A' P c') w' f'
  chained : ∀ x ∈ c', Chained S part A' P w' x
  rel : f.Rel (Proxied w'.graph exit) f'
  fresh : ∀ x ∈ c', w.graph.nodeCount ≤ x.last.index ∧
    (w.graph.nodeCount ≤ x.first.index ∨ ∃ y ∈ c, y.first = x.first)
  some : c'.isSome = true

section

variable {f' : Frame} {exit : NodeId}

theorem NewExit.first (hx : NewExit S P cur bare loose part A f w exit f' w') :
    Exited S P cur bare loose part A f none w f' (some ⟨exit, exit⟩) w' (label A exit P) exit := by
  obtain ⟨h, hk⟩ := hx.kind
  refine ⟨hx.good, hx.extend, hx.agree, hx.table, hx.carries, ?_, hx.rel, ?_, rfl⟩
  · rintro x ⟨⟩
    refine ⟨hx.ready part, hx.closed, ⟨?_, hx.closed, .inr (.inr (by simp [owe]))⟩,
      .inr ⟨exit, by simp, .refl⟩, hx.kind, hx.outgoing, ?_⟩
    · exact kindIs_of_kind? hk
    · exact fun l hl' => (label_self A exit P l).2 hl'.symm
  · rintro x ⟨⟩
    exact ⟨hx.fresh, .inl hx.fresh⟩

/-- The new exit is linked behind the chain. -/
theorem NewExit.next (hx : NewExit S (A c.last) cur bare (c.first :: loose) (c.last :: part) A f w
      exit f' w')
    (h : Good S cur bare (c.first :: loose) (c.last :: part) A w) (hc : Chained S part A P w c) :
    Ensures E (follow c.last exit) S w' fun _ w'' =>
      Exited S P cur bare loose part A f (some c) w f' (some { c with last := exit }) w''
        (label A exit (A c.last)) exit := by
  have hc4 : Chained S part (label A exit (A c.last)) P w' c :=
    hc.mono h hx.extend.toEvolves hx.agree (by simp) (by simp)
  have hA0 : label A exit (A c.last) c.last = A c.last :=
    label_of_lt (Nat.lt_of_lt_of_le hc.firm.lt hx.fresh)
  obtain ⟨hd0, hk0⟩ := hc4.kind
  obtain ⟨hd, hkind⟩ := hx.kind
  have hne : ∀ {n}, n.index < w.graph.nodeCount → n ≠ exit := by
    rintro n hn rfl
    exact absurd hn (Nat.not_lt_of_le hx.fresh)
  refine (addEdge_good hx.good hc4.firm_owe (by simp) (L := c.first :: loose) ?_ hk0 (by rintro ⟨⟩)
    (hx.ready _) (fun l hl' => by rw [hA0]; exact hl') ?_).mono fun _ w5 h5 => ?_
  · exact hc4.rooted.mono (by simp)
  · intro x hx
    exact List.mem_cons.1 hx
  obtain ⟨hgood5, hext5, ht5, x, hl5⟩ := h5
  have hkind5 : ∀ m, w5.graph.kind? m = w'.graph.kind? m := fun m => kind?_congr (hl5.node? m)
  have hout5 : w5.graph.outKinds c.last = [.next] := by
    rw [hl5.outKinds hx.good.inv.sound.coherent, if_pos rfl, outKinds, hc4.outgoing]
    rfl
  have hperm : Good S cur bare (c.first :: loose) (c.last :: exit :: part) _ w5 :=
    hgood5.mono (fun _ hx => hx) (fun _ hx => hx) (by
      intro y hy
      simp only [List.mem_cons] at hy ⊢
      tauto)
  have hopen5 : ¬ S.Open w5.table exit := by
    rw [ht5]
    exact hx.closed
  refine ⟨hperm.finish ((hkind5 _).trans hk0) hout5 (by simp), ?_, hx.agree, ht5.trans hx.table,
    hx.carries.extend hx.good hext5, ?_, ?_, ?_, rfl⟩
  · refine ((hx.extend.weaken (by simp)).trans hext5).mono fun m hm => ?_
    simp only [List.mem_cons, List.not_mem_nil, or_false] at hm
    rcases hm with rfl | rfl
    · exact .inl (by simp [lasts])
    · exact .inr (.inr hx.fresh)
  · rintro y ⟨⟩
    refine ⟨hc4.ready.link hl5 ht5 (hne (contains_lt hc.ready.stub.contains)),
      by rw [ht5]; exact hc4.closed, ⟨?_, hopen5, .inl ?_⟩, ?_, ⟨hd, (hkind5 _).trans hkind⟩, ?_, ?_⟩
    · exact kindIs_of_kind? ((hkind5 _).trans hkind)
    · simp [inDegree, hl5.incoming]
    · exact (hl5.rooted hc4.rooted).reach (.single (hl5.step ⟨rfl, rfl⟩))
    · rw [hl5.outgoing, if_neg (hne hc.firm.lt).symm, hx.outgoing]
    · exact fun l hl' => (label_self _ _ _ l).2 (hl'.symm.imp_right fun hl' => hc.label l (.inl hl'))
  · refine hx.rel.imp fun v v' hv => ⟨hv.kind, hv.node.imp_right ?_⟩
    rintro ⟨h1, h2⟩
    exact ⟨(hkind5 _).trans h1, by rw [inputs_congr (hl5.node? _), h2]⟩
  · rintro y ⟨⟩
    exact ⟨hx.fresh, .inr ⟨c, rfl, rfl⟩⟩

end

theorem exitLoop_good {c : Option ExitChain} [S.Sure]
    (h : Good S cur bare (firsts c ++ loose) (lasts c ++ part) A w)
    (hl : S.blocks.loopHeaders[l]? = some b) (he : w.table.slot? b = some e)
    (hfr : e.frame.isSome = true) (hP : ∀ l, S.base l → P l) (hf : Carries S (past A P c) w f)
    (hc : ∀ x ∈ c, Chained S part A P w x) :
    Ensures E (exitLoop p (f, c) l) S w fun r w' => ∃ A' exit,
      Exited S P cur bare loose part A f c w r.1 r.2 w' A' exit := by
  obtain ⟨e', he', hlh⟩ := h.inv.placed.headers hl
  rw [he] at he'
  cases he'
  have hlt : l < w.table.marks.size := by
    rw [h.inv.placed.marks]
    exact (List.getElem?_eq_some_iff.1 hl).1
  have hhead : (S.blocks.block b).isLoopHeader = true := by
    rw [Block.isLoopHeader, (S.charts.header (S.charts.headerOf hl).1).2 hl]
    rfl
  have hst := h.inv.placed.stands he
  have hpast : ∀ l, P l → past A P c l := by
    intro l hl'
    cases c with
    | none => exact hl'
    | some x => exact (hc x rfl).label l (.inl hl')
  unfold exitLoop
  refine ensures_get_bind ?_
  dsimp only
  refine .chain (ensures_demand hlh ?_)
  refine .chain (ensures_demand (Array.getElem?_eq_getElem hlt) ?_)
  have hheader := And.intro (hst.header hhead) (hst.entered hfr hhead)
  have hbase : ∀ l, S.base l → past A P c l := fun l hl' => hpast l (hP l hl')
  cases c with
  | none =>
    exact newExit_good (k := fun exit f' => pure (f', some (ExitChain.mk exit exit))) h hheader
      hbase hf fun exit f' w' hx => ensures_pure ⟨_, exit, hx.first⟩
  | some c =>
    have h1 : Good S cur bare (c.first :: loose) (c.last :: part) A w := h
    have hf1 : Carries S (A c.last) w f := hf
    refine newExit_good (p := p) (β := Frame × Option ExitChain) (k := fun exit f' => do
      follow c.last exit
      return (f', some { c with last := exit })) h1 hheader hbase hf1 fun exit f' w' hx => ?_
    exact (hx.next h1 (hc c rfl)).bind fun _ w'' h'' => ensures_pure ⟨_, exit, h''⟩

end Chain

end StackLift
