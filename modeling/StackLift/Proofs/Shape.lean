import Mathlib.Logic.Relation
import StackLift.Proofs.Actions

/-!
# The shape of control

`Shaped g O part loose` is what holds of the control edges of a graph under construction. Every
control node has the edges of its kind, in order, unless it is an open join (`O`), still being
written (`part`), or a place that was given up. A node behind a split is like a begin, only joins have
several predecessors, and control can get from the start, or from a node that an edge is still owed
to (`loose`), to every node.
-/
namespace StackLift

/-- The edges that leave a node of a kind, in order. -/
def NodeKind.exits : NodeKind → List EdgeKind
  | .ifNode => [.taken, .notTaken]
  | .switch keys => BuildM.caseKinds keys.length
  | .invokeWithException .. => [.next, .exception]
  | .returnNode | .unwind | .deoptimize _ => []
  | _ => [.next]

namespace Graph

/-- An edge leads from `a` to `b`. -/
def Step (g : Graph) (a b : NodeId) : Prop :=
  ∃ e d, g.edge? e = some d ∧ d.source = a ∧ d.target = b

/-- Control can get from `a` to `b`. -/
def Reach (g : Graph) : NodeId → NodeId → Prop := Relation.ReflTransGen g.Step

/-- The kinds of the edges that leave `n`, in order. -/
def outKinds (g : Graph) (n : NodeId) : List EdgeKind :=
  (g.outgoing n).filterMap fun e => (g.edge? e).map (·.kind)

/-- The kinds of the nodes before `n`, in the order of the edges. -/
def sourceKinds (g : Graph) (n : NodeId) : List NodeKind :=
  (g.incoming n).filterMap fun e => (g.edge? e).bind fun d => g.kind? d.source

/-- A place that no edge touches. -/
def Vacant (g : Graph) (n : NodeId) : Prop :=
  g.kindIs n NodeKind.isPlace = true ∧ g.incoming n = [] ∧ g.outgoing n = []

/-- A place that no edge touches and that is not the start. -/
def Idle (g : Graph) (n : NodeId) : Prop := g.Vacant n ∧ g.start ≠ some n

/-- Control gets to `n`, from the start or from a node that an edge is still owed to. -/
def Rooted (g : Graph) (loose : List NodeId) (n : NodeId) : Prop :=
  (∃ s, g.start = some s ∧ g.Reach s n) ∨ ∃ l ∈ loose, g.Reach l n

structure Shaped (g : Graph) (O : NodeSet) (part loose : List NodeId) : Prop where
  exits : ∀ {n k}, g.kind? n = some k → k.isControl = true →
    O n ∨ n ∈ part ∨ g.Idle n ∨ g.outKinds n = k.exits
  silent : ∀ {n}, O n → g.outgoing n = []
  behind : ∀ {e d}, g.edge? e = some d → g.kindIs d.source NodeKind.isControlSplit = true →
    g.kindIs d.target NodeKind.isBeginLike = true
  single : ∀ {n k}, g.kind? n = some k → k.isMerge = false → g.inDegree n ≤ 1
  joins : ∀ {m k}, g.kind? m = some k → k.isMerge = true → ∃ i j,
    g.sourceKinds m = List.replicate i .endNode ++ List.replicate j (.loopEnd m) ∧
      (O m ∨ k = .merge → j = 0) ∧ (k = .merge → 2 ≤ i ∨ m ∈ part)
  rooted : ∀ {n k}, g.kind? n = some k → k.isControl = true → g.Vacant n ∨ g.Rooted loose n

variable {g g' : Graph} {O O' : NodeSet} {part part' loose L : List NodeId}
  {a b n : NodeId} {dat : Edge} {e : EdgeId}
variable {k : NodeKind} {I : List NodeId}

theorem kindIs_congr {p : NodeKind → Bool} (h : g'.node? n = g.node? n) :
    g'.kindIs n p = g.kindIs n p := by
  simp only [kindIs, kind?_congr h]

theorem Rooted.mono (h : g.Rooted loose n) (hl : loose ⊆ L) : g.Rooted L n :=
  h.imp_right fun ⟨l, hm, hr⟩ => ⟨l, hl hm, hr⟩

/-! ## What new edges change -/

theorem Links.outKinds (h : Links g g' a b dat e) (hg : g.Coherent) (n : NodeId) :
    g'.outKinds n = if n = a then g.outKinds n ++ [dat.kind] else g.outKinds n := by
  have hold : ∀ x ∈ g.outgoing n, g'.edge? x = g.edge? x := by
    intro x hx
    obtain ⟨d, hd, -⟩ := hg.outgoing.1 hx
    rw [h.old hd, hd]
  have hsame : (g.outgoing n).filterMap (fun x => (g'.edge? x).map (·.kind)) = g.outKinds n := by
    refine List.filterMap_congr fun x hx => ?_
    rw [hold x hx]
  unfold Graph.outKinds at *
  rw [h.outgoing]
  split
  · rw [List.filterMap_append, hsame]
    simp [h.edge?]
  · exact hsame

theorem Links.sourceKinds (h : Links g g' a b dat e) (hg : g.Coherent) (hd : dat.source = a)
    (hk : g.kind? a = some k) (n : NodeId) :
    g'.sourceKinds n = if n = b then g.sourceKinds n ++ [k] else g.sourceKinds n := by
  have hkind : ∀ m, g'.kind? m = g.kind? m := fun m => kind?_congr (h.node? m)
  have hold : ∀ x ∈ g.incoming n, g'.edge? x = g.edge? x := by
    intro x hx
    obtain ⟨d, hd, -⟩ := hg.incoming.1 hx
    rw [h.old hd, hd]
  have hsame : (g.incoming n).filterMap (fun x => (g'.edge? x).bind fun d => g'.kind? d.source) =
      g.sourceKinds n := by
    refine List.filterMap_congr fun x hx => ?_
    rw [hold x hx]
    cases g.edge? x with
    | none => rfl
    | some d => exact hkind d.source
  unfold Graph.sourceKinds at *
  rw [h.incoming]
  split
  · rw [List.filterMap_append, hsame]
    simp [h.edge?, hd, hkind, hk]
  · exact hsame

/-- Of what comes in, `g'` has the edge `e` more than `g`. -/
structure Gains (g g' : Graph) (e : EdgeId) (dat : Edge) : Prop where
  fresh : g.edge? e = none
  edge? : ∀ c, g'.edge? c = if c = e then some dat else g.edge? c
  incoming : ∀ n, g'.incoming n = if n = dat.target then g.incoming n ++ [e] else g.incoming n

section Gains

variable {c : EdgeId} {d : Edge} {u v : NodeId} {i : Nat} {l : List NodeId}

theorem Links.gains (h : Links g g' a b dat e) (hb : dat.target = b) : Gains g g' e dat :=
  ⟨h.fresh, h.edge?, hb ▸ h.incoming⟩

theorem Gains.arrives (h : Gains g g' e dat) (hg : g.Coherent) (hc : (g'.incoming n)[i]? = some c)
    (hd : g'.edge? c = some d) : ((g.incoming n)[i]? = some c ∧ g.edge? c = some d) ∨
      n = dat.target ∧ i = g.inDegree n ∧ d = dat := by
  have hold : (g.incoming n)[i]? = some c → (g.incoming n)[i]? = some c ∧ g.edge? c = some d := by
    intro hc
    obtain ⟨d0, hd0, -⟩ := hg.incoming.1 (List.mem_of_getElem? hc)
    rw [h.edge?, if_neg] at hd
    · exact ⟨hc, hd⟩
    · rintro rfl
      rw [h.fresh] at hd0
      cases hd0
  rw [h.incoming] at hc
  split at hc
  · next hn =>
    rw [List.getElem?_append] at hc
    split at hc
    · exact .inl (hold hc)
    · rw [List.getElem?_singleton] at hc
      split at hc
      · cases hc
        rw [h.edge?, if_pos rfl] at hd
        refine .inr ⟨hn, ?_, (Option.some.inj hd).symm⟩
        rw [inDegree]
        omega
      · cases hc
  · exact .inl (hold hc)

theorem Gains.input (h : Gains g g' e dat) (hg : g.Coherent) (hlen : l.length = g.inDegree dat.target)
    (hu : (l ++ [v])[i]? = some u) (hc : (g'.incoming dat.target)[i]? = some c)
    (hd : g'.edge? c = some d) :
    (l[i]? = some u ∧ (g.incoming dat.target)[i]? = some c ∧ g.edge? c = some d) ∨ u = v ∧ d = dat := by
  rcases h.arrives hg hc hd with ⟨hc, hd⟩ | ⟨-, hi, hd⟩
  · rw [List.getElem?_append_left (by rw [hlen]; exact (List.getElem?_eq_some_iff.1 hc).1)] at hu
    exact .inl ⟨hu, hc, hd⟩
  · rw [hi, ← hlen, List.getElem?_concat_length] at hu
    exact .inr ⟨(Option.some.inj hu).symm, hd⟩

end Gains

theorem Rooted.reach (h : g.Rooted loose a) (hr : g.Reach a n) : g.Rooted loose n := by
  rcases h with ⟨s, hs, h⟩ | ⟨l, hl, h⟩
  · exact Or.inl ⟨s, hs, h.trans hr⟩
  · exact Or.inr ⟨l, hl, h.trans hr⟩

theorem Rooted.settle (h : g.Rooted loose n) (hb : g.Rooted L b) (hl : ∀ x ∈ loose, x = b ∨ x ∈ L) :
    g.Rooted L n := by
  rcases h with h | ⟨l, hm, hr⟩
  · exact .inl h
  · rcases hl l hm with rfl | hm
    · exact hb.reach hr
    · exact .inr ⟨l, hm, hr⟩

theorem Links.step (h : Links g g' a b dat e) (hd : dat.source = a ∧ dat.target = b) :
    g'.Step a b := ⟨e, dat, by rw [h.edge?, if_pos rfl], hd⟩

theorem Links.reach (h : Links g g' a b dat e) {x y : NodeId} (hr : g.Reach x y) : g'.Reach x y := by
  refine Relation.ReflTransGen.mono ?_ _ _ hr
  rintro u v ⟨c, d, hc, hd⟩
  exact ⟨c, d, h.old hc, hd⟩

theorem Links.rooted (h : Links g g' a b dat e) (hr : g.Rooted loose n) : g'.Rooted loose n := by
  rcases hr with ⟨s, hs, hr⟩ | ⟨l, hl, hr⟩
  · exact Or.inl ⟨s, h.start.trans hs, h.reach hr⟩
  · exact .inr ⟨l, hl, h.reach hr⟩

/-- What an edge from `a` may lead to: a node that waits for it, or a join. -/
def Accepts (g : Graph) (O : NodeSet) (a b : NodeId) : Prop :=
  (g.kindIs b NodeKind.isMerge = false ∧ g.incoming b = []) ∨
    (g.kindIs b NodeKind.isMerge = true ∧ O b ∧ g.kind? a = some .endNode) ∨
    ((∃ i, g.kind? b = some (.loopHeader i)) ∧ ¬ O b ∧ g.kind? a = some (.loopEnd b))

theorem Shaped.link (h : g.Shaped O part loose) (hg : g.Coherent) (hl : Links g g' a b dat e)
    (hdat : dat.source = a ∧ dat.target = b) (ha : a ∈ part) (hO : ¬ O a) (hk : g.kind? a = some k)
    (hsplit : k.isControlSplit = true → g.kindIs b NodeKind.isBeginLike = true)
    (hb : g.Accepts O a b) (hv : g.Vacant b → O b ∨ b ∈ part) (hroot : g.Rooted L a)
    (hloose : ∀ x ∈ loose, x = b ∨ x ∈ L) : g'.Shaped O part L := by
  have hkind : ∀ m, g'.kind? m = g.kind? m := fun m => kind?_congr (hl.node? m)
  have hki : ∀ m p, g'.kindIs m p = g.kindIs m p := fun m p => kindIs_congr (hl.node? m)
  have hrootb : g'.Rooted L b := (hl.rooted hroot).reach (.single (hl.step hdat))
  have hvac : ∀ {n}, n ≠ a → n ≠ b → g.Vacant n → g'.Vacant n := by
    rintro n hna hnb ⟨h1, h2, h3⟩
    refine ⟨by rw [hki]; exact h1, ?_, ?_⟩
    · rw [hl.incoming, if_neg hnb, h2]
    · rw [hl.outgoing, if_neg hna, h3]
  refine ⟨?_, ?_, ?_, ?_, ?_, ?_⟩
  · intro n k hn hc
    rw [hkind] at hn
    by_cases hna : n = a
    · exact .inr (.inl (hna ▸ ha))
    rw [hl.outKinds hg, if_neg hna]
    rcases h.exits hn hc with h1 | h1 | h1 | h1
    · exact .inl h1
    · exact .inr (.inl h1)
    · by_cases hnb : n = b
      · subst hnb
        exact (hv h1.1).imp_right .inl
      · exact .inr (.inr (.inl ⟨hvac hna hnb h1.1, hl.start ▸ h1.2⟩))
    · exact .inr (.inr (.inr h1))
  · intro n hn
    rw [hl.outgoing, if_neg, h.silent hn]
    rintro rfl
    exact hO hn
  · intro x d hx hs
    rw [hl.edge?] at hx
    rw [hki] at hs ⊢
    split at hx
    · cases hx
      rw [hdat.1, kindIs_of_kind? hk] at hs
      rw [hdat.2]
      exact hsplit hs
    · exact h.behind hx hs
  · intro n k' hn hm
    rw [hkind] at hn
    simp only [inDegree, hl.incoming]
    split
    · next hnb =>
      subst hnb
      rcases hb with ⟨-, hi⟩ | ⟨hj, -⟩ | ⟨⟨i, hi⟩, -⟩
      · simp [hi]
      · rw [kindIs_of_kind? hn, hm] at hj
        cases hj
      · rw [hi] at hn
        cases hn
        cases hm
    · exact h.single hn hm
  · intro m k' hm hj
    rw [hkind] at hm
    obtain ⟨i, j, hs, h1, h2⟩ := h.joins hm hj
    rw [hl.sourceKinds hg hdat.1 hk]
    split
    · next hmb =>
      subst hmb
      rcases hb with ⟨hf, -⟩ | ⟨-, hOb, hka⟩ | ⟨⟨l, hi⟩, hOb, hka⟩
      · rw [kindIs_of_kind? hm, hj] at hf
        cases hf
      · rw [hk] at hka
        cases hka
        obtain rfl := h1 (.inl hOb)
        refine ⟨i + 1, 0, ?_, fun _ => rfl, fun hkm => (h2 hkm).imp_left (by omega)⟩
        rw [hs, List.replicate_zero, List.append_nil, List.append_nil, List.replicate_succ']
      · rw [hk] at hka
        cases hka
        rw [hi] at hm
        cases hm
        refine ⟨i, j + 1, ?_, ?_, fun hkm => by cases hkm⟩
        · rw [hs, List.append_assoc, List.replicate_succ']
        · rintro (hO' | hkm)
          · exact absurd hO' hOb
          · cases hkm
    · exact ⟨i, j, hs, h1, h2⟩
  · intro n k' hn hc
    rw [hkind] at hn
    by_cases hna : n = a
    · subst hna
      exact .inr (hl.rooted hroot)
    by_cases hnb : n = b
    · exact .inr (hnb ▸ hrootb)
    exact (h.rooted hn hc).imp (hvac hna hnb) fun h1 => (hl.rooted h1).settle hrootb hloose

/-- The edge into an open begin is moved to a node that waits for it. -/
theorem Shaped.moves {t : NodeId} (h : g.Shaped O part loose) (hg : g.Coherent)
    (hd : g.edge? e = some dat) (hm : Moves g g' e dat t) (hO : O dat.target)
    (hk : g.kind? dat.target = some .begin) (hin : g.incoming dat.target = [e])
    (ht : g.kindIs t NodeKind.isMerge = false) (hti : g.incoming t = [])
    (hne : t ≠ dat.target) (hsplit : g.kindIs dat.source NodeKind.isControlSplit = false)
    (hv : g.Vacant t → O t ∨ t ∈ part) (hroot : g.Rooted L dat.source)
    (hloose : ∀ x ∈ loose, x = t ∨ x ∈ L) : g'.Shaped O part L := by
  have hkind : ∀ m, g'.kind? m = g.kind? m := fun m => kind?_congr (hm.node? m)
  have hki : ∀ m p, g'.kindIs m p = g.kindIs m p := fun m p => kindIs_congr (hm.node? m)
  have hincoming : ∀ {n}, n ≠ dat.target → n ≠ t → g'.incoming n = g.incoming n := by
    intro n h1 h2
    rw [hm.incoming, if_neg h1, if_neg h2, List.append_nil]
  have hgone : g'.incoming dat.target = [] := by
    rw [hm.incoming, if_pos rfl, if_neg hne.symm, hin]
    simp
  have hout : ∀ n, g'.outKinds n = g.outKinds n := by
    intro n
    unfold outKinds
    rw [hm.outgoing]
    refine List.filterMap_congr fun x _ => ?_
    rw [hm.edge?]
    split
    · next hx => rw [hx, hd]; rfl
    · rfl
  have hleaves : ∀ {c d}, g.edge? c = some d → d.source ≠ dat.target := by
    intro c d hc heq
    have := hg.outgoing.2 ⟨d, hc, heq⟩
    rw [h.silent hO] at this
    cases this
  -- The begin leads nowhere, so no other path goes over the edge.
  have hreach : ∀ {x n}, n ≠ dat.target → g.Reach x n → g'.Reach x n := by
    intro x n hn hr
    induction hr with
    | refl => exact .refl
    | @tail y z _ hstep ih =>
      obtain ⟨c, d, hc, hds, hdt⟩ := hstep
      refine .tail (ih ?_) ⟨c, d, ?_, hds, hdt⟩
      · exact hds ▸ hleaves hc
      · rw [hm.edge?, if_neg, hc]
        rintro rfl
        rw [hd] at hc
        cases hc
        exact hn hdt.symm
  have hrooted : ∀ {l n}, n ≠ dat.target → g.Rooted l n → g'.Rooted l n := by
    rintro l n hn (⟨s, hs, hr⟩ | ⟨x, hx, hr⟩)
    · exact Or.inl ⟨s, hm.start.trans hs, hreach hn hr⟩
    · exact .inr ⟨x, hx, hreach hn hr⟩
  have hsource : dat.source ≠ dat.target := hleaves hd
  have hst : g'.Reach dat.source t :=
    .single ⟨e, { dat with target := t }, by rw [hm.edge?, if_pos rfl], rfl, rfl⟩
  have hroott : g'.Rooted L t := (hrooted hsource hroot).reach hst
  have hvac : ∀ {n}, n ≠ t → g.Vacant n → g'.Vacant n := by
    rintro n hnt ⟨h1, h2, h3⟩
    refine ⟨by rw [hki]; exact h1, ?_, by rw [hm.outgoing, h3]⟩
    by_cases hnb : n = dat.target
    · rw [hnb, hgone]
    · rw [hincoming hnb hnt, h2]
  have hbegin : g'.Vacant dat.target :=
    ⟨by rw [hki, kindIs_of_kind? hk]; rfl, hgone, by rw [hm.outgoing, h.silent hO]⟩
  refine ⟨?_, ?_, ?_, ?_, ?_, ?_⟩
  · intro n k' hn hc
    rw [hkind] at hn
    rw [hout]
    rcases h.exits hn hc with h1 | h1 | h1 | h1
    · exact .inl h1
    · exact .inr (.inl h1)
    · by_cases hnt : n = t
      · subst hnt
        exact (hv h1.1).imp_right .inl
      · exact .inr (.inr (.inl ⟨hvac hnt h1.1, hm.start ▸ h1.2⟩))
    · exact .inr (.inr (.inr h1))
  · intro n hn
    rw [hm.outgoing, h.silent hn]
  · intro x d hx hs
    rw [hm.edge?] at hx
    rw [hki] at hs ⊢
    split at hx
    · cases hx
      rw [hsplit] at hs
      cases hs
    · exact h.behind hx hs
  · intro n k' hn hmn
    rw [hkind] at hn
    by_cases hnt : n = t
    · subst hnt
      simp [inDegree, hm.incoming, hti, hne]
    · by_cases hnb : n = dat.target
      · subst hnb
        simp [inDegree, hgone]
      · simp only [inDegree, hincoming hnb hnt]
        exact h.single hn hmn
  · intro m k' hmk hj
    rw [hkind] at hmk
    have hmt : m ≠ t := by
      rintro rfl
      rw [kindIs_of_kind? hmk, hj] at ht
      cases ht
    have hmb : m ≠ dat.target := by
      rintro rfl
      rw [hk] at hmk
      cases hmk
      cases hj
    have hs : g'.sourceKinds m = g.sourceKinds m := by
      unfold sourceKinds
      rw [hincoming hmb hmt]
      refine List.filterMap_congr fun x hx => ?_
      rw [hm.edge?, if_neg]
      · cases g.edge? x with
        | none => rfl
        | some d => exact hkind d.source
      · rintro rfl
        obtain ⟨d, hd', hdm⟩ := hg.incoming.1 hx
        rw [hd] at hd'
        cases hd'
        exact hmb hdm.symm
    rw [hs]
    exact h.joins hmk hj
  · intro n k' hn hc
    rw [hkind] at hn
    by_cases hnt : n = t
    · exact .inr (hnt ▸ hroott)
    by_cases hnb : n = dat.target
    · exact .inl (hnb ▸ hbegin)
    exact (h.rooted hn hc).imp (hvac hnt) fun h1 => (hrooted hnb h1).settle hroott hloose

theorem Shaped.finish (h : g.Shaped O (n :: part) loose) (hk : g.kind? n = some k)
    (he : g.outKinds n = k.exits) (hm : k ≠ .merge) : g.Shaped O part loose := by
  refine ⟨?_, h.silent, h.behind, h.single, ?_, h.rooted⟩
  · intro m k' hm' hc
    rcases h.exits hm' hc with h1 | h1 | h1
    · exact .inl h1
    · rcases List.mem_cons.1 h1 with rfl | h1
      · rw [hk] at hm'
        cases hm'
        exact .inr (.inr (.inr he))
      · exact .inr (.inl h1)
    · exact .inr (.inr h1)
  · intro m k' hm' hj
    obtain ⟨i, j, h1, h2, h3⟩ := h.joins hm' hj
    refine ⟨i, j, h1, h2, fun hkm => (h3 hkm).imp_right fun hmem => ?_⟩
    rcases List.mem_cons.1 hmem with rfl | hmem
    · rw [hk] at hm'
      cases hm'
      exact absurd hkm hm
    · exact hmem

/-! ## What does not concern control -/

/-- The graphs have the same edges and the same control nodes. -/
structure SameControl (g g' : Graph) : Prop extends SameWires g g' where
  kind : ∀ {n k}, k.isControl = true → (g'.kind? n = some k ↔ g.kind? n = some k)

namespace SameControl

section

variable (h : SameControl g g')
include h

theorem trans {g'' : Graph} (h' : SameControl g' g'') : SameControl g g'' :=
  ⟨h.toSameWires.trans h'.toSameWires, fun hk => (h'.kind hk).trans (h.kind hk)⟩

theorem coherent (hg : g.Coherent) : g'.Coherent := by
  refine hg.of_same h.toSameWires fun n _ hn => ?_
  obtain ⟨k, hk, hc⟩ := kindIs_iff.1 hn
  exact kindIs_iff.2 ⟨k, (h.kind hc).2 hk, hc⟩

theorem kindIs {p : NodeKind → Bool} (hp : ∀ k : NodeKind, p k = true → k.isControl = true) :
    g'.kindIs n p = g.kindIs n p := by
  rw [Bool.eq_iff_iff, kindIs_iff, kindIs_iff]
  constructor
  · rintro ⟨k, hk, hpk⟩
    exact ⟨k, (h.kind (hp k hpk)).1 hk, hpk⟩
  · rintro ⟨k, hk, hpk⟩
    exact ⟨k, (h.kind (hp k hpk)).2 hk, hpk⟩

theorem step : g'.Step = g.Step := by
  funext x y
  simp only [Step, h.edge?]

theorem outKinds (n : NodeId) : g'.outKinds n = g.outKinds n := by
  simp only [Graph.outKinds, h.edge?, h.outgoing]

theorem sourceKinds (hg : g.Coherent) (n : NodeId) : g'.sourceKinds n = g.sourceKinds n := by
  unfold Graph.sourceKinds
  rw [h.incoming]
  refine List.filterMap_congr fun x hx => ?_
  obtain ⟨d, hd, -⟩ := hg.incoming.1 hx
  obtain ⟨k, hk, hc⟩ := kindIs_iff.1 (hg.source hd)
  rw [h.edge?, hd]
  exact ((h.kind hc).2 hk).trans hk.symm

theorem vacant : g'.Vacant n ↔ g.Vacant n := by
  unfold Vacant
  rw [h.incoming, h.outgoing, h.kindIs]
  intro k hk
  cases k <;> first | rfl | cases hk

theorem idle : g'.Idle n ↔ g.Idle n := by
  unfold Idle
  rw [h.vacant, h.start]

theorem rooted : g'.Rooted loose n ↔ g.Rooted loose n := by
  unfold Rooted Reach
  rw [h.step, h.start]

end

end SameControl

theorem isControl_of_isMerge (h : k.isMerge = true) : k.isControl = true := by
  cases k <;> first | rfl | cases h

theorem Shaped.same (h : g.Shaped O part loose) (hg : g.Coherent) (hs : SameControl g g') :
    g'.Shaped O part loose := by
  have hsplit : ∀ n, g'.kindIs n NodeKind.isControlSplit = g.kindIs n NodeKind.isControlSplit :=
    fun n => hs.kindIs fun k hk => by cases k <;> first | rfl | cases hk
  have hbegin : ∀ n, g'.kindIs n NodeKind.isBeginLike = g.kindIs n NodeKind.isBeginLike :=
    fun n => hs.kindIs fun k hk => by cases k <;> first | rfl | cases hk
  refine ⟨?_, ?_, ?_, ?_, ?_, ?_⟩
  · intro n k hn hc
    rw [hs.idle, hs.outKinds]
    exact h.exits ((hs.kind hc).1 hn) hc
  · intro n hn
    rw [hs.outgoing, h.silent hn]
  · intro x d hx hd
    rw [hs.edge?] at hx
    rw [hsplit] at hd
    rw [hbegin]
    exact h.behind hx hd
  · intro n k hn hm
    by_cases hc : k.isControl = true
    · simp only [inDegree, hs.incoming]
      exact h.single ((hs.kind hc).1 hn) hm
    · -- no edge touches a data node
      have hnc : g.kindIs n NodeKind.isControl = false := by
        rw [Bool.eq_false_iff]
        intro hcn
        obtain ⟨k', hk', hc'⟩ := kindIs_iff.1 hcn
        have := (hs.kind hc').2 hk'
        rw [hn] at this
        cases this
        exact hc hc'
      simp [inDegree, hs.incoming, (hg.isolated hnc).2]
  · intro m k hm hj
    rw [hs.sourceKinds hg]
    exact h.joins ((hs.kind (isControl_of_isMerge hj)).1 hm) hj
  · intro n k hn hc
    rw [hs.vacant, hs.rooted]
    exact h.rooted ((hs.kind hc).1 hn) hc

theorem SameControl.addData (hk : k.isControl = false) : SameControl g (g.addNode k I).2 := by
  refine ⟨.addNode g k I, ?_⟩
  intro n k' hk'
  constructor
  · intro hn
    rw [kind?_addNode] at hn
    split at hn
    · cases hn
      rw [hk] at hk'
      cases hk'
    · exact hn
  · exact kind?_addNode_of

theorem SameControl.setSnapshot (n : NodeId) (s : Snapshot) :
    SameControl g (g.modifyNode n fun x => { x with snapshot := some s }) :=
  ⟨.modifyNode g n _, fun _ => by rw [kind?_setSnapshot]⟩

/-! ## New control nodes -/

theorem Shaped.addNode (h : g.Shaped O part loose) (hg : g.Coherent) :
    (g.addNode k I).2.Shaped O (⟨g.nodeCount⟩ :: part) (⟨g.nodeCount⟩ :: loose) := by
  have hold : ∀ {n k'}, n ≠ (⟨g.nodeCount⟩ : NodeId) → (g.addNode k I).2.kind? n = some k' →
      g.kind? n = some k' := by
    intro n k' hne hn
    rwa [kind?_addNode, if_neg hne] at hn
  have hroot : ∀ {n}, g.Rooted loose n → (g.addNode k I).2.Rooted (⟨g.nodeCount⟩ :: loose) n :=
    fun hn => (show (g.addNode k I).2.Rooted loose _ from hn).mono fun _ hm => List.mem_cons_of_mem _ hm
  have hin : (g.addNode k I).2.incoming ⟨g.nodeCount⟩ = [] := by
    rw [incoming_addNode]
    exact incoming_of_le (Nat.le_refl _)
  have hvac : ∀ {n}, g.Vacant n → (g.addNode k I).2.Vacant n := by
    rintro n ⟨h1, h2, h3⟩
    exact ⟨kindIs_addNode_of h1, by simpa using h2, by simpa using h3⟩
  refine ⟨?_, ?_, ?_, ?_, ?_, ?_⟩
  · intro n k' hn hc
    by_cases hne : n = ⟨g.nodeCount⟩
    · exact .inr (.inl (by simp [hne]))
    · rcases h.exits (hold hne hn) hc with h1 | h1 | h1 | h1
      · exact .inl h1
      · exact .inr (.inl (List.mem_cons_of_mem _ h1))
      · exact .inr (.inr (.inl ⟨hvac h1.1, h1.2⟩))
      · refine .inr (.inr (.inr ?_))
        rw [← h1]
        simp [outKinds]
  · intro n hn
    rw [outgoing_addNode, h.silent hn]
  · intro x d hx hs
    obtain ⟨k1, hk1, hs1⟩ := kindIs_iff.1 (hg.source hx)
    obtain ⟨k2, hk2, hs2⟩ := kindIs_iff.1 hs
    rw [kind?_addNode_of hk1] at hk2
    cases hk2
    exact kindIs_addNode_of (h.behind hx (kindIs_iff.2 ⟨k1, hk1, hs2⟩))
  · intro n k' hn hm
    by_cases hne : n = ⟨g.nodeCount⟩
    · subst hne
      simp [inDegree, hin]
    · simp only [inDegree, incoming_addNode]
      exact h.single (hold hne hn) hm
  · intro m k' hm hj
    by_cases hne : m = ⟨g.nodeCount⟩
    · subst hne
      exact ⟨0, 0, by simp [sourceKinds, hin], fun _ => rfl, fun _ => .inr (by simp)⟩
    · obtain ⟨i, j, h1, h2, h3⟩ := h.joins (hold hne hm) hj
      refine ⟨i, j, ?_, h2, fun hkm => (h3 hkm).imp_right (List.mem_cons_of_mem _)⟩
      rw [← h1]
      unfold sourceKinds
      rw [incoming_addNode]
      refine List.filterMap_congr fun x hx => ?_
      obtain ⟨d, hd, -⟩ := hg.incoming.1 hx
      obtain ⟨k1, hk1, -⟩ := kindIs_iff.1 (hg.source hd)
      rw [edge?_addNode, hd]
      exact (kind?_addNode_of hk1).trans hk1.symm
  · intro n k' hn hc
    by_cases hne : n = ⟨g.nodeCount⟩
    · exact .inr (.inr ⟨n, by simp [hne], .refl⟩)
    · rcases h.rooted (hold hne hn) hc with h1 | h1
      · exact .inl (hvac h1)
      · exact .inr (hroot h1)

theorem Shaped.adjust (h : g.Shaped O part loose)
    (hopen : ∀ {m}, O' m → O m ∨ (g.outgoing m = [] ∧ g.incoming m = []))
    (hpart : ∀ {n k}, g.kind? n = some k → k.isControl = true → O n ∨ n ∈ part →
      O' n ∨ n ∈ part' ∨ g.Idle n ∨ g.outKinds n = k.exits)
    (hmerge : ∀ {m}, g.kind? m = some .merge → m ∈ part → m ∈ part' ∨ 2 ≤ g.inDegree m)
    (hg : g.Coherent) (hloose : loose ⊆ L) : g.Shaped O' part' L := by
  refine ⟨?_, ?_, h.behind, h.single, ?_, ?_⟩
  · intro n k hn hc
    rcases h.exits hn hc with h1 | h1 | h1
    · exact hpart hn hc (.inl h1)
    · exact hpart hn hc (.inr h1)
    · exact .inr (.inr h1)
  · intro n hn
    rcases hopen hn with h1 | h1
    · exact h.silent h1
    · exact h1.1
  · intro m k hm hj
    obtain ⟨i, j, h1, h2, h3⟩ := h.joins hm hj
    have hlen : g.inDegree m = i + j := by
      have : (g.sourceKinds m).length = g.inDegree m := by
        unfold sourceKinds inDegree
        rw [List.length_filterMap_eq_countP, List.countP_eq_length]
        intro x hx
        obtain ⟨d, hd, -⟩ := hg.incoming.1 hx
        obtain ⟨k1, hk1, -⟩ := kindIs_iff.1 (hg.source hd)
        simp [hd, hk1]
      rw [← this, h1]
      simp
    refine ⟨i, j, h1, ?_, ?_⟩
    · rintro (hO' | hkm)
      · rcases hopen hO' with hO | ⟨-, hin⟩
        · exact h2 (.inl hO)
        · simp only [inDegree, hin, List.length_nil] at hlen
          omega
      · exact h2 (.inr hkm)
    · intro hkm
      rcases h3 hkm with h4 | h4
      · exact .inl h4
      · subst hkm
        rcases hmerge hm h4 with h5 | h5
        · exact .inr h5
        · have := h2 (.inr rfl)
          exact .inl (by omega)
  · exact fun hn hc => (h.rooted hn hc).imp_right fun hr => hr.mono hloose

theorem Shaped.weaken (h : g.Shaped O part loose) (hg : g.Coherent) (hp : part ⊆ part')
    (hl : loose ⊆ L) : g.Shaped O part' L :=
  h.adjust .inl (fun _ _ hn => hn.imp_right fun hm => .inl (hp hm)) (fun _ hm => .inl (hp hm))
    hg hl

end Graph

end StackLift
