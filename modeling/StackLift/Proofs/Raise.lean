import StackLift.Proofs.Routes

/-!
# Exceptions

Where an exception is raised, control splits: one edge leads to the exception, and from there on to
the first test of the position or out of the method. Neither is a loop header, so nothing that is in
use is dropped on the way.
-/
namespace StackLift

open BuildM

variable {b a c : BlockId} {sc : Scope} {S : Scene} {m : BlockMap} {f : Frame} {x : Value}

theorem Scene.exceptionTarget_spec (S : Scene) [S.Fit] (p : Position) :
    (S.blocks.isDispatch (S.exceptionTarget p) ∨ S.exceptionTarget p = S.blocks.unwindBlock) ∧
      (S.exceptionTarget p).index < S.blocks.size := by
  unfold Scope.exceptionTarget
  cases hd : S.blocks.dispatchAt? p with
  | none => exact ⟨.inr rfl, unwindBlock_lt⟩
  | some c =>
    obtain ⟨h1, h2⟩ := S.charts.dispatchAt hd
    exact ⟨.inl h2, h1⟩

theorem BlockMap.lt_of_successor (h : c ∈ (m.block a).successors) : a.index < m.size := by
  by_contra hlt
  have : m.block a = default := by
    simp only [BlockMap.block, BlockMap.size, not_lt] at hlt ⊢
    rw [Array.getElem?_eq_none hlt, Option.getD_none]
  rw [this] at h
  cases h

theorem BlockMap.Charts.wayOut_not_header {body : Body} (h : m.Charts body)
    (hb : b = m.exitBlock ∨ b = m.unwindBlock) : (m.block b).isLoopHeader = false := by
  by_contra hh
  have hsize := h.size
  have hlt : b.index < m.size := by
    rcases hb with rfl | rfl <;> simp only [BlockMap.exitBlock, BlockMap.unwindBlock] <;> omega
  obtain ⟨l, hl⟩ := Option.isSome_iff_exists.1 (Bool.not_eq_false _ ▸ hh)
  obtain ⟨-, a, hle, hsucc⟩ := h.headerOf ((h.header hlt).1 hl)
  have ha := BlockMap.lt_of_successor hsucc
  obtain ⟨h1, h2⟩ := h.wayOut hsucc
  have h1' : a.index ≠ m.exitBlock.index := fun h => h1 (BlockId.index_inj.1 h)
  have h2' : a.index ≠ m.unwindBlock.index := fun h => h2 (BlockId.index_inj.1 h)
  simp only [BlockMap.exitBlock, BlockMap.unwindBlock] at *
  rcases hb with rfl | rfl <;> simp only at hle <;> omega

theorem exceptionTarget_not_header [S.Fit] (p : Position) :
    (S.blocks.block (S.exceptionTarget p)).isLoopHeader = false := by
  rcases (S.exceptionTarget_spec p).1 with h | h
  · exact Scene.Fit.plain _ h
  · exact S.charts.wayOut_not_header (.inr h)

theorem Shape.raising (hk : x.kind = .object)
    (hne : (sc.blocks.block b).kind ≠ .exit) : Shape sc b (f.raising x) := by
  unfold Shape
  split
  · trivial
  · exact ⟨x, rfl, hk⟩
  · exact ⟨x, rfl, hk⟩
  · next h => exact absurd h hne

theorem Shape.exception [S.Fit] {p : Position} (hk : x.kind = .object) :
    Shape S (S.exceptionTarget p) (f.raising x) := by
  refine .raising hk ?_
  obtain ⟨h, hlt⟩ := S.exceptionTarget_spec p
  rcases h with ⟨i, n, h⟩ | h
  · rw [h]
    exact nofun
  · rw [h, (S.charts.unwind unwindBlock_lt).2 rfl]
    exact nofun

section Raise

variable {E : Error → Prop} {S : Scene} {P : NodeSet} {cur : Nat}
  {bare part ss I : List NodeId} {A A' : Labels} {w w' : Work}
  {source target : BlockId} {f g : Frame} {a n : NodeId} {p : Position} {k k' : NodeKind}
  {ks : List EdgeKind} {ek : EdgeKind} {pr : Float} {α : Type}

/-- What is in use stays in use. -/
def Lasts (S : Scene) (w w' : Work) : Prop :=
  ∀ x, w.graph.Usable (S.Open w.table) x → w'.graph.Usable (S.Open w'.table) x

theorem Lasts.backs (h : Lasts S w w') (hf : w.graph.Backs (S.Open w.table) f) :
    w'.graph.Backs (S.Open w'.table) f := fun v hv => h _ (hf v hv)

theorem dispatchException_good {x : Value} [S.Sure]
    (hE : Expects E) (h : Here S cur bare part A w a g)
    (hl : Lifting S cur w.table source) (hway : Way S source (S.exceptionTarget p))
    (hf : Carries S (A a) w f) (hx : Has S (A a) w x.node) (hk : x.kind = .object) :
    Ensures E (dispatchException source a f x p) S w fun _ w' => ∃ A',
      Good S cur bare [] part A' w' ∧ Evolves S [a] w w' ∧ Agree S w A A' ∧
        Lasts S w w' := by
  unfold dispatchException
  refine ensures_read_bind ?_
  refine (resolveTarget_good hE h.good hl hway h.base (hf.raising hx)
    (.exception hk)).bind fun stop w1 h1 => ?_
  obtain ⟨A1, hsent, husable⟩ := h1
  refine (h.goto hsent fun l hl => hl).mono fun _ w2 h2 => ?_
  refine ⟨A1, h2.1, h2.2.1, hsent.agree, fun y hy => h2.2.2.usable _ (husable ?_ y hy)⟩
  exact exceptionTarget_not_header p

/-- A node that waits for an edge from a split. -/
structure Awaits (S : Scene) (P : NodeSet) (cur : Nat) (bare part : List NodeId)
    (A : Labels) (w : Work) (k : NodeKind) (n : NodeId) : Prop where
  good : Good S cur bare [n] (n :: part) A w
  ready : Ready S (n :: part) A P w n
  kind : w.graph.kind? n = some k
  outgoing : w.graph.outgoing n = []
  label : ∀ l, A n l ↔ l = n ∨ P l
  closed : ¬ S.Open w.table n

theorem addAwaiting_good [S.Sure]
    (h : Good S cur bare [] part A w) (P : NodeSet) (hc : k.isControl = true)
    (hr : k.refers = false) (hm : k.isMerge = false) (hin : ∀ i ∈ I, Has S P w i)
    (hidle : k.isPlace = true → I = []) :
    Ensures E (addNode k I) S w fun n w' =>
      Awaits S P cur (if k.isStateEffecting then n :: bare else bare) part (label A n P) w' k n ∧
        Extends S [] w w' ∧ w'.table = w.table ∧ Agree S w A (label A n P) ∧
        w.graph.nodeCount ≤ n.index := by
  refine (addControl_good h P hc (.plain hr fun i hi => (hin i hi).usable)
    (fun i hi => (hin i hi).avail) (by rw [hm]; simpa using hidle)).mono fun n w1 h1 => ?_
  obtain ⟨hgood, hext, hnew⟩ := h1
  have hfresh : w.graph.nodeCount ≤ n.index := Nat.le_of_eq hnew.fresh.symm
  refine ⟨⟨hgood, ⟨hnew.stub h.inv hc hm, hnew.incoming, fun _ => .inr (by simp),
    fun l hl => (label_self A n P l).1 hl⟩, hnew.kind, hnew.outgoing, label_self A n P, ?_⟩, hext,
    hnew.table, .of_old fun m hm => label_of_lt (Nat.lt_of_lt_of_le hm hfresh), hfresh⟩
  rw [hnew.table]
  exact fun hO => absurd (h.inv.open_lt hO) (Nat.not_lt_of_le hfresh)

theorem exceptionObject_good [S.Sure] (h : Good S cur bare [] part A w)
    (hf : Carries S P w f) (hP : ∀ l, S.base l → P l) : Ensures E (exceptionObject f p) S w fun n w' =>
      Awaits S P cur bare part (label A n P) w' .exceptionObject n ∧ Extends S [] w w' ∧
        w'.table = w.table ∧ Agree S w A (label A n P) ∧ w.graph.nodeCount ≤ n.index ∧
        Has S (label A n P n) w' n := by
  unfold exceptionObject
  refine (addAwaiting_good (I := []) h P rfl rfl rfl (by simp) (fun _ => rfl)).bind
    fun n w1 h1 => ?_
  obtain ⟨haw, hext, ht, hagree, hfresh⟩ := h1
  have hgood := haw.good
  rw [if_pos (by rfl)] at hgood
  have hhas : Has S (label A n P n) w1 n :=
    .made haw.kind rfl rfl ((haw.label n).2 (.inl rfl))
  have hcarry : Carries S (label A n P n) w1 (f.raising (.object n)) :=
    .raising ((hf.extend h hext).mono fun l hl => (haw.label l).2 (.inr hl)) hhas
  refine (attach_good (D := bare) hgood (Graph.kindIs_iff.2 ⟨_, haw.kind, rfl⟩) hcarry
    (fun l hl => (haw.label l).2 (.inr (hP l hl))) haw.closed (by simp)).bind fun _ w2 h2 =>
    ensures_pure ?_
  obtain ⟨hgood2, hext2, ht2⟩ := h2
  have hlt := Graph.lt_of_kind? haw.kind
  refine ⟨⟨hgood2, haw.ready.mono hext2.toEvolves (.refl _ _ _) (by simp) haw.closed (fun _ hx => hx),
    hext2.grows.kind haw.kind rfl, ?_, haw.label, ?_⟩, hext.trans hext2, ht2.trans ht, hagree, hfresh,
    hhas.extend hgood hext2⟩
  · rw [hext2.grows.outgoing hlt (by simp) haw.closed, haw.outgoing]
  · rw [ht2]
    exact haw.closed

/-- The edge from a split to a node that waits for it; control may go on at both. -/
theorem Splits.enter (h : Splits S cur bare part A w a k ks)
    (haw : Awaits S (A a) cur bare (a :: part) A' w' k' n) (hev : Evolves S [] w w')
    (hA : Agree S w A A') (hb : k'.isBeginLike = true) (hf : Carries S (A' n) w' f) :
    Ensures E (addEdge a n ek pr) S w' fun _ w'' =>
      Splits S cur bare (n :: part) A' w'' a k (ks ++ [ek]) ∧
        Here S cur bare (a :: part) A' w'' n f ∧ Extends S [a, n] w' w'' ∧
        w''.table = w'.table := by
  have hswap : ∀ {x : NodeId}, x ∈ n :: a :: part ↔ x ∈ a :: n :: part := by
    intro x
    simp only [List.mem_cons]
    tauto
  have hc : k'.isControl = true := by cases k' <;> first | rfl | cases hb
  have hx : k'.exits = [.next] := by cases k' <;> first | rfl | cases hb
  have hm : k' ≠ .merge := by
    rintro rfl
    cases hb
  have hna : a ≠ n := by
    rintro rfl
    have hk := h.foot.kind h.kind hev
    rw [haw.kind] at hk
    cases hk
    have hs := h.split
    cases k <;> first | (cases hb; done) | cases hs
  have hgood : Good S cur bare [n] (a :: n :: part) A' w' :=
    haw.good.mono (fun _ hx => hx) (fun _ hx => hx) fun _ hx => hswap.1 hx
  have hsplit : Splits S cur bare (n :: part) A w a k ks :=
    { h with good := h.good.mono (fun _ hx => hx) (fun _ hx => hx) (by
        intro x hx
        simp only [List.mem_cons] at hx ⊢
        tauto) }
  have hready : Ready S (a :: n :: part) A' (A a) w' n :=
    { haw.ready with vacant := fun hv => (haw.ready.vacant hv).imp_right hswap.1 }
  refine (hsplit.link hgood hev hA (by simp) hready (Graph.kindIs_iff.2 ⟨_, haw.kind, hb⟩)).mono
    fun _ w'' h'' => ?_
  obtain ⟨hs, hext, ht, e, hlink⟩ := h''
  refine ⟨hs, ⟨?_, ⟨?_, ?_, ?_, ?_⟩, ?_, ⟨k', ?_, hx⟩, ?_⟩, hext, ht⟩
  · exact hs.good.mono (fun _ hx => hx) (fun _ hx => hx) fun _ hx => hswap.2 hx
  · refine hlink.firm (Graph.kindIs_iff.2 ⟨k', haw.kind, hc⟩) ?_
    rw [ht]
    exact haw.closed
  · exact hs.foot.rooted.reach (.single (hlink.step ⟨rfl, rfl⟩))
  · rintro l (hl | rfl)
    · exact (haw.label l).2 (.inr (h.foot.base l (.inl hl)))
    · exact (haw.label l).2 (.inl rfl)
  · intro hkm
    rw [Graph.kind?_congr (hlink.node? _), haw.kind] at hkm
    exact absurd (Option.some.inj hkm) hm
  · rw [hlink.outgoing, if_neg hna.symm, haw.outgoing]
  · rw [Graph.kind?_congr (hlink.node? _), haw.kind]
  · exact hf.extend haw.good hext

theorem Splits.raise {rest : BuildM α} {Q : α → Work → Prop} [S.Sure]
    (hE : Expects E) (h : Splits S cur bare part A w a k ks)
    (hl : Lifting S cur w.table source) (hway : Way S source (S.exceptionTarget p))
    (hf : Carries S (A a) w f)
    (hrest : ∀ w' A', Splits S cur bare part A' w' a k (ks ++ [ek]) → Evolves S [a] w w' →
      Agree S w A A' → Lasts S w w' → Ensures E rest S w' Q) :
    Ensures E (do
      let x ← exceptionObject f p
      addEdge a x ek pr
      dispatchException source x f (.object x) p
      rest) S w Q := by
  refine (exceptionObject_good h.good hf fun l hl => h.foot.base l (.inl hl)).bind
    fun x w1 h1 => ?_
  obtain ⟨haw, hext1, ht1, hagree1, hfresh, hhas⟩ := h1
  have hcarry : Carries S (label A x (A a) x) w1 f :=
    (hf.extend h.good hext1).mono fun l hl => (haw.label l).2 (.inr hl)
  refine (h.enter haw hext1.toEvolves hagree1 rfl hcarry).bind fun _ w2 h2 => ?_
  obtain ⟨hsplit, hhere, hext2, ht2⟩ := h2
  have hl2 : Lifting S cur w2.table source := by
    rw [ht2, ht1]
    exact hl
  refine (dispatchException_good (x := .object x) hE hhere hl2 hway hhere.carries
    (hhas.extend haw.good hext2) rfl).bind fun _ w3 h3 => ?_
  obtain ⟨A3, hgood3, hev3, hagree3, hlasts⟩ := h3
  have hax : a ∉ [x] := by
    intro hm
    rw [List.mem_singleton.1 hm] at h
    exact absurd h.foot.firm.lt (Nat.not_lt_of_le hfresh)
  have hev2 : Evolves S [a, x] w w2 := (hext1.toEvolves.weaken (by simp)).trans hext2.toEvolves
  refine hrest w3 A3 (hsplit.evolve hgood3 hev3 hagree3 hax) ?_ (hagree1.trans hev2 hagree3) ?_
  · exact (hev2.trans (hev3.weaken (by simp))).mono (changes_old hfresh)
  · exact fun y hy => hlasts y (hext2.usable y (hext1.usable y hy))

theorem Splits.proceed {rest : NodeId → BuildM α} {Q : α → Work → Prop}
    [S.Sure] (h : Splits S cur bare part A w a k ks) (hf : Carries S (A a) w f)
    (hrest : ∀ n w' A', Splits S cur bare (n :: part) A' w' a k (ks ++ [ek]) →
      Here S cur bare (a :: part) A' w' n f → Extends S [a] w w' → Agree S w A A' →
      w'.table = w.table → w.graph.nodeCount ≤ n.index → (∀ l, A a l → A' n l) →
      Ensures E (rest n) S w' Q) :
    Ensures E (do
      let n ← addNode .begin []
      addEdge a n ek pr
      rest n) S w Q := by
  refine (addAwaiting_good (I := []) h.good (A a) rfl rfl rfl (by simp) (fun _ => rfl)).bind
    fun n w1 h1 => ?_
  obtain ⟨haw, hext1, ht1, hagree1, hfresh⟩ := h1
  have hcarry : Carries S (label A n (A a) n) w1 f :=
    (hf.extend h.good hext1).mono fun l hl => (haw.label l).2 (.inr hl)
  refine (h.enter haw hext1.toEvolves hagree1 rfl hcarry).bind fun _ w2 h2 => ?_
  obtain ⟨hsplit, hhere, hext2, ht2⟩ := h2
  refine hrest n w2 _ hsplit hhere ?_ hagree1 (ht2.trans ht1) hfresh
    fun l hl => (haw.label l).2 (.inr hl)
  exact ((hext1.weaken (by simp)).trans hext2).mono (changes_old hfresh)

theorem Appended.splits (ha : Appended S cur bare part A w a k I n w' A')
    (he : k.isStateEffecting = false) (hs : k.isControlSplit = true) :
    Splits S cur bare part A' w' n k [] := by
  refine ⟨by simpa [he] using ha.good, ha.foot, ha.kind, hs, ?_⟩
  rw [Graph.outKinds, ha.outgoing, List.filterMap_nil]

end Raise

end StackLift
