import StackLift.Proofs.Duo.Frames

/-!
# Frames of two builds that meet

Where edges meet, both builds make phis. Slots that are live hold the same before and after; of a slot
that is not live the pruned build has nothing, and the full one goes on with ghosts: it makes phis,
gives them inputs and removes them while the pruned one does nothing (`Holds`).

At a loop header every value becomes a phi. So what only the full build has at an open header is a
ghost, and the header is settled (`follows_beginLoop`).
-/
namespace StackLift

variable {m n merge : NodeId} {n' o o' : Option Value}

namespace Pairing

variable {P Q : Pairing} {f k : Frame} {node : NodeId} {s : Prop} {live : Nat → Bool}

/-- What one slot holds in both builds at a block with entry `node`. -/
structure Holds (P : Pairing) (live : Bool) (node : NodeId) (s : Prop) (o o' : Option Value) : Prop where
  same : live = true → Option.Rel P.SameValue o o'
  gone : live = false → o' = none
  shed : live = false → ∀ v, o = some v →
    v.node.index < P.count ∧ (P.ghost v.node ∨ (¬ s ∧ P.apart v.node node))

theorem Holds.mono {live : Bool} (h : P.Holds live node s o o') (hle : P.Le Q) :
    Q.Holds live node s o o' :=
  ⟨fun hl => optionRel_imp (h.same hl) fun _ _ h => h.mono hle, h.gone, fun hl v hv =>
    ⟨Nat.lt_of_lt_of_le (h.shed hl v hv).1 hle.count,
      (h.shed hl v hv).2.imp hle.ghost fun ha => ⟨ha.1, hle.apart ha.2⟩⟩⟩

theorem Holds.sameLocal {live : Bool} (h : P.Holds live node s o o') : P.SameLocal o o' := by
  cases live with
  | true => exact sameLocal_of_rel (h.same rfl)
  | false =>
    rw [h.gone rfl]
    cases o with
    | none => exact .none
    | some v => exact .lost (h.shed rfl v rfl).1

theorem Waits.holds (h : P.Waits live node s f k) (x : Nat) :
    P.Holds (live x) node s (f.local? x) (k.local? x) := by
  have hgone : live x = false → k.local? x = none := by
    intro hx
    by_contra hne
    obtain ⟨u, hu⟩ := Option.ne_none_iff_exists'.1 hne
    have := h.live x u hu
    rw [hx] at this
    cases this
  refine ⟨fun hx => (h.same.local? x).rel (h.agree x hx), hgone,
    fun hx v hv => ⟨?_, h.shed x v hv (hgone hx)⟩⟩
  have hl := h.same.local? x
  rw [hv, hgone hx] at hl
  cases hl with
  | lost h => exact h

theorem waits_of_holds {l l' : List (Option Value)} {st st' m m' : List Value}
    (h : Duo.Along (fun x => P.Holds (live x) node s) 0 l l') (hs : List.Forall₂ P.SameValue st st')
    (hm : List.Forall₂ P.SameValue m m') (hdata : s → ∀ v ∈ (Frame.mk l st m).values, P.data v.node) :
    P.Waits live node s ⟨l, st, m⟩ ⟨l', st', m'⟩ := by
  obtain ⟨hlen, hall⟩ := Duo.along_iff.1 h
  have hslot : ∀ x, P.Holds (live x) node s (Frame.local? ⟨l, st, m⟩ x)
    (Frame.local? ⟨l', st', m'⟩ x) := by
    intro x
    show P.Holds (live x) node s l[x]?.join l'[x]?.join
    by_cases hx : x < l.length
    · have := hall x _ _ (List.getElem?_eq_getElem hx) (List.getElem?_eq_getElem (hlen ▸ hx))
      rw [List.getElem?_eq_getElem hx, List.getElem?_eq_getElem (hlen ▸ hx)]
      simpa using this
    · rw [List.getElem?_eq_none (Nat.not_lt.1 hx), List.getElem?_eq_none (hlen ▸ Nat.not_lt.1 hx)]
      exact ⟨fun _ => .none, fun _ => rfl, fun _ v hv => by cases hv⟩
  refine ⟨sameFrame_of hlen (fun x => (hslot x).sameLocal) hs hm, fun x hx hk => ?_, fun x v hk => ?_,
    fun x v hf hk => ?_, hdata⟩
  · have := (hslot x).same hx
    rw [hk] at this
    generalize Frame.local? ⟨l, st, m⟩ x = o at this
    cases this
    rfl
  · by_contra hx
    rw [(hslot x).gone (by simpa using hx)] at hk
    cases hk
  · cases hx : live x with
    | true =>
      have := (hslot x).same hx
      rw [hk, hf] at this
      cases this
    | false => exact ((hslot x).shed hx v hf).2

end Pairing

theorem Pairing.Twins.ghost_of_isPhiOf {P : Pairing} {g h : Graph} {s : Prop}
    (ht : P.Twins g h) (hn : P.ghost n ∨ (¬ s ∧ P.apart n merge))
    (hphi : BuildM.isPhiOf g n merge = true) : P.ghost n := by
  refine hn.resolve_right fun h => ht.nodes.apart h.2 ?_
  unfold BuildM.isPhiOf at hphi
  split at hphi
  · next hk => rw [hk, of_decide_eq_true hphi]
  · cases hphi

theorem forall₂_zip {α β γ δ : Type} {R : α → β → Prop} {S : γ → δ → Prop} {l : List α} {l' : List β}
    {m : List γ} {m' : List δ} (h : List.Forall₂ R l l') (h' : List.Forall₂ S m m') :
    List.Forall₂ (fun x y => R x.1 y.1 ∧ S x.2 y.2) (l.zip m) (l'.zip m') := by
  induction h generalizing m m' with
  | nil => exact .nil
  | cons h _ ih =>
    cases h' with
    | nil => exact .nil
    | cons h' hrest => exact .cons ⟨h, h'⟩ (ih hrest)

namespace Duo

open BuildM

variable {busy : Option BlockId} {D : Duo busy} {P : Pairing} {w v : Work} {merge merge' : NodeId}
  {ends : Nat} {old old' new new' : Value}

/-! ## Values that meet -/

section

variable (hj : D.Joint P w v)
include hj

theorem follows_mergeValue (hm : P.twin merge merge') (hr : P.reached merge) (hold : P.SameValue old old')
    (hnew : P.SameValue new new') :
    D.Follows P (mergeValue merge ends old new) (mergeValue merge' ends old' new') w v
      fun P' a _ b _ => P'.SameValue a b := by
  refine follows_get_bind ?_
  rw [hj.twins.isPhiOf hold.node hm]
  by_cases hphi : isPhiOf v.graph old'.node merge' = true
  · rw [if_pos hphi, if_pos hphi]
    refine (follows_addPhiInput hj hold.node hnew.node).bind fun P1 _ w1 _ v1 hle hj1 _ => ?_
    exact follows_pure hj1 (hold.mono hle)
  · rw [if_neg hphi, if_neg hphi]
    by_cases heq : old.node = new.node
    · rw [if_pos heq, if_pos ((hj.twins.sane.eq_iff hold.node hnew.node).1 heq)]
      exact follows_pure hj hold
    · have heq' : ¬ old'.node = new'.node := fun h => heq ((hj.twins.sane.eq_iff hold.node hnew.node).2 h)
      rw [if_neg heq, if_neg heq']
      refine (follows_addNode hj (.phi hm) ?_ ?_).bind fun P1 n w1 m v1 hle hj1 h1 => ?_
      · refine List.rel_append ?_ (.cons hnew.node .nil)
        exact List.forall₂_iff_get.2 ⟨by simp, fun i _ _ => by simpa using hold.node⟩
      · rintro x ⟨⟩
        exact hr
      · exact follows_pure hj1 ⟨h1.1, hold.kind⟩

theorem follows_mergeGhost (hr : P.reached merge)
    (hold : P.ghost old.node ∨ (¬ False ∧ P.apart old.node merge)) :
    D.Follows P (mergeValue merge ends old new) (pure ()) w v fun P' a _ _ _ =>
      a.node.index < P'.count ∧ (P'.ghost a.node ∨ (¬ False ∧ P'.apart a.node merge)) := by
  have hlt : old.node.index < P.count := by
    rw [hj.twins.sane.count]
    rcases hold with h | h
    · exact (hj.twins.sane.ghost h).1
    · exact hj.twins.sane.apart h.2
  refine follows_look_bind ?_
  by_cases hphi : isPhiOf w.graph old.node merge = true
  · rw [if_pos hphi]
    have hg := hj.twins.ghost_of_isPhiOf hold hphi
    refine (follows_ghostInput hj hg).alone fun P1 _ w1 _ v1 hle hj1 _ => ?_
    exact follows_pure hj1 ⟨Nat.lt_of_lt_of_le hlt hle.count, .inl (hle.ghost hg)⟩
  · rw [if_neg hphi]
    by_cases heq : old.node = new.node
    · rw [if_pos heq]
      exact follows_pure hj ⟨hlt, hold⟩
    · rw [if_neg heq]
      refine (follows_addGhost hj hr).alone fun P1 n w1 _ v1 hle hj1 h1 => ?_
      refine follows_pure hj1 ⟨?_, .inl h1.1.1⟩
      rw [hj1.twins.sane.count]
      exact (hj1.twins.sane.ghost h1.1.1).1

theorem follows_removeNode (hn : P.twin n m) :
    D.Follows P (changeGraph fun g => .ok ((), g.removeNode n)) (changeGraph fun g =>
      .ok ((), g.removeNode m)) w v
      fun _ _ w' _ v' => True ∧ Kept w v w' v' := by
  refine follows_changeGraph (R := fun _ _ _ _ => True) hj ?_
  rintro a g ⟨⟩
  exact ⟨(), _, P, rfl, .refl P, hj.twins.removeNode hn, id, trivial⟩

theorem follows_removeGhost (hn : P.ghost n) :
    D.Follows P (changeGraph fun g => .ok ((), g.removeNode n)) (pure ()) w v
      fun _ _ w' _ v' => True ∧ Kept w v w' v' := by
  refine follows_changeLone (R := fun _ _ _ _ => True) hj ?_
  rintro a g ⟨⟩
  exact ⟨P, .refl P, hj.twins.removeLone (hj.twins.sane.ghost hn).2, id, trivial⟩

theorem follows_dropLocal (hm : P.twin merge merge') (hold : P.SameValue old old') :
    D.Follows P (dropLocal merge old) (dropLocal merge' old') w v fun P' a _ b _ =>
      Option.Rel P'.SameValue a b := by
  refine follows_get_bind ?_
  rw [hj.twins.isPhiOf hold.node hm]
  by_cases hphi : isPhiOf v.graph old'.node merge' = true
  · rw [if_pos hphi, if_pos hphi]
    refine (follows_removeNode hj hold.node).bind fun P1 _ w1 _ v1 hle hj1 _ => ?_
    exact follows_pure hj1 .none
  · rw [if_neg hphi, if_neg hphi]
    exact follows_pure hj .none

theorem follows_mergeBoth {n : Option Value} (hm : P.twin merge merge') (hr : P.reached merge)
    (ho : Option.Rel P.SameValue o o') (hn : Option.Rel P.SameValue n n') :
    D.Follows P (mergeLocal merge ends o n) (mergeLocal merge' ends o' n') w v
      fun P' a _ b _ => Option.Rel P'.SameValue a b := by
  cases ho with
  | none => exact follows_pure hj .none
  | some ho =>
    cases hn with
    | none => exact follows_dropLocal hj hm ho
    | @some x y hn =>
      unfold mergeLocal
      dsimp only
      rw [← hn.kind, ← ho.kind]
      split
      · refine (follows_mergeValue hj hm hr ho hn).bind fun P1 a w1 b v1 _ hj1 h1 => ?_
        exact follows_pure hj1 (.some h1)
      · exact follows_dropLocal hj hm ho

theorem follows_mergeShed {n : Option Value} (hr : P.reached merge)
    (ho : ∀ x, o = some x → x.node.index < P.count ∧
      (P.ghost x.node ∨ (¬ False ∧ P.apart x.node merge))) :
    D.Follows P (mergeLocal merge ends o n) (mergeLocal merge' ends none n') w v
      fun P' a _ b _ => b = none ∧ ∀ x, a = some x →
        x.node.index < P'.count ∧ (P'.ghost x.node ∨ (¬ False ∧ P'.apart x.node merge)) := by
  cases o with
  | none => exact follows_pure hj ⟨rfl, fun x hx => by cases hx⟩
  | some old =>
    obtain ⟨-, hold⟩ := ho old rfl
    have hdrop : D.Follows P (dropLocal merge old) (pure (none : Option Value)) w v fun P' a _ b _ =>
          b = none ∧ ∀ x, a = some x → x.node.index < P'.count ∧
            (P'.ghost x.node ∨ (¬ False ∧ P'.apart x.node merge)) := by
      refine follows_look_bind ?_
      by_cases hphi : isPhiOf w.graph old.node merge = true
      · rw [if_pos hphi]
        have hg := hj.twins.ghost_of_isPhiOf hold hphi
        refine (follows_removeGhost hj hg).alone fun P1 _ w1 _ v1 hle hj1 _ => ?_
        exact follows_pure hj1 ⟨rfl, fun x hx => by cases hx⟩
      · rw [if_neg hphi]
        exact follows_pure hj ⟨rfl, fun x hx => by cases hx⟩
    cases n with
    | none => exact hdrop
    | some new =>
      unfold mergeLocal
      dsimp only
      split
      · refine (follows_mergeGhost hj hr hold).alone fun P1 a w1 _ v1 hle hj1 h1 => ?_
        refine follows_pure hj1 ⟨rfl, ?_⟩
        rintro x ⟨⟩
        exact h1
      · exact hdrop

theorem follows_mergeLocal {live : Bool} {n : Option Value} (hm : P.twin merge merge')
    (hr : P.reached merge) (ho : P.Holds live merge False o o')
    (hn : live = true → Option.Rel P.SameValue n n') :
    D.Follows P (mergeLocal merge ends o n) (mergeLocal merge' ends o' n') w v
      fun P' a _ b _ => P'.Holds live merge False a b := by
  cases live with
  | true => exact (follows_mergeBoth hj hm hr (ho.same rfl) (hn rfl)).mono fun _ _ _ _ _ _ _ h =>
      ⟨fun _ => h, fun hf => (by cases hf), fun hf => (by cases hf)⟩
  | false =>
    rw [ho.gone rfl]
    refine (follows_mergeShed hj hr (ho.shed rfl)).mono fun _ _ _ _ _ _ _ h => ?_
    exact ⟨fun hf => (by cases hf), fun _ => h.1, fun _ => h.2⟩

end

/-! ## Frames that meet -/

theorem Joint.inDegree (hj : D.Joint P w v) (hn : P.control n m) :
    w.graph.inDegree n = v.graph.inDegree m := by
  unfold Graph.inDegree
  rw [hj.twins.wires.incoming hn]

theorem follows_mergePinned {l l' r r' : List Value} (hj : D.Joint P w v) (hm : P.twin merge merge')
    (hr : P.reached merge) (hl : List.Forall₂ P.SameValue l l') (hlr : List.Forall₂ P.SameValue r r') :
    D.Follows P ((l.zip r).mapM fun x => mergeValue merge ends x.1 x.2)
      ((l'.zip r').mapM fun x => mergeValue merge' ends x.1 x.2) w v
      fun P' a _ b _ => List.Forall₂ P'.SameValue a b := by
  refine (follows_mapM (j := 0) (fun P _ (x y : Value × Value) => P.SameValue x.1 y.1 ∧
    P.SameValue x.2 y.2)
    (fun P _ a b => P.SameValue a b) (fun hle h => ⟨h.1.mono hle, h.2.mono hle⟩) (fun hle h => h.mono hle)
    (fun hle hj1 h => follows_mergeValue hj1 (hle.twin hm) (hle.reached hr) h.1 h.2) hj
    (along_of_forall₂ (forall₂_zip hl hlr))).mono fun _ _ _ _ _ _ _ h => h.forall₂

variable {target : BlockId} {current current' incoming incoming' : Frame} {p : Position}

theorem follows_mergeFrames {live : Nat → Bool} (hj : D.Joint P w v) (hm : P.control merge merge')
    (hr : P.reached merge) (hc : P.Waits live merge False current current')
    (hi : P.Matches (live · = true) incoming incoming') :
    D.Follows P (mergeFrames merge current incoming p) (mergeFrames merge' current' incoming' p) w v
      fun P' f _ k _ => P'.Waits live merge False f k := by
  have hcheck : current.checkCompatible p incoming = current'.checkCompatible p incoming' :=
    hc.same.checkCompatible hi.same
  have hlen : current.locals.length = current'.locals.length := hc.same.length
  unfold mergeFrames
  rw [hcheck]
  refine .chain (follows_liftExcept hj fun a ha => ⟨a, ha, ?_⟩)
  refine follows_get_bind ?_
  rw [hj.inDegree hm]
  -- The locals, slot by slot.
  refine (follows_mapM (j := 0) (fun P i (x y : Option Value × Option Value) =>
    P.Holds (live i) merge False x.1 y.1 ∧
      (live i = true → Option.Rel P.SameValue x.2 y.2)) (fun P i a b => P.Holds (live i) merge False a b)
    (fun hle h => ⟨h.1.mono hle, fun hl => optionRel_imp (h.2 hl) fun _ _ h => h.mono hle⟩)
    (fun hle h => h.mono hle)
    (fun hle hj1 h => follows_mergeLocal hj1 (hj1.twins.sane.twin (hle.control hm))
      (hle.reached hr) h.1 h.2)
    hj (along_iff.2 ⟨?_, fun i x y hx hy => ?_⟩)).bind fun P1 l w1 l' v1 hle1 hj1 h1 => ?_
  · simp [Frame.pairLocals, hlen, hi.same.length]
  · rw [Frame.getElem?_pairLocals] at hx hy
    obtain ⟨a, ha, rfl⟩ := Option.map_eq_some_iff.1 hx
    obtain ⟨b, hb, rfl⟩ := Option.map_eq_some_iff.1 hy
    have hh := hc.holds i
    unfold Frame.local? at hh
    rw [ha, hb] at hh
    rw [Nat.zero_add]
    exact ⟨hh, fun hl => hi.rel hl⟩
  -- The stack and the monitors, from the bottom.
  have hm1 := hj1.twins.sane.twin (hle1.control hm)
  refine (follows_mergePinned hj1 hm1 (hle1.reached hr)
    (List.rel_reverse (hc.mono hle1).same.stack) (List.rel_reverse (hi.mono hle1).same.stack)).bind
    fun P2 st w2 st' v2 hle2 hj2 h2 => ?_
  refine (follows_mergePinned hj2 (hle2.twin hm1) (hle2.reached (hle1.reached hr))
    (List.rel_reverse ((hc.mono hle1).mono hle2).same.monitors)
    (List.rel_reverse ((hi.mono hle1).mono hle2).same.monitors)).bind
    fun P3 ms w3 ms' v3 hle3 hj3 h3 => ?_
  refine follows_pure hj3 (Pairing.waits_of_holds (h1.imp fun _ _ _ h => (h.mono hle2).mono hle3)
    (List.rel_reverse (h2.imp fun _ _ h => h.mono hle3)) (List.rel_reverse h3) fun hf => hf.elim)

theorem follows_mergeInto (hj : D.Joint P w v) (hm : P.control merge merge') (hr : P.reached merge)
    (hi : P.Matches (D.live target · = true) incoming incoming')
    (hent : ∀ e, w.table.slot? target = some e → e.node = merge ∧ ¬ D.Settled target e.parsed) :
    D.Follows P (mergeInto target merge incoming p) (mergeInto target merge' incoming' p) w v
      fun _ _ _ _ _ => True := by
  refine .chain (follows_entry hj fun e e' hee hslot _ => ?_)
  obtain ⟨hnode, hset⟩ := hent e hslot
  refine .chain (follows_demandRel hj hee.frame fun f k hfk _ _ => ?_)
  refine (follows_mergeFrames hj hm hr (hnode ▸ hfk.loosen fun h => h.elim) hi).bind
    fun P3 f3 w3 k3 v3 hle3 hj3 h3 => ?_
  have hnew : D.SameEntry P3 target { e with frame := some f3 } { e' with frame := some k3 } := by
    refine ⟨hle3.control hee.node, hee.parsed, fun _ => ?_, .some ?_⟩
    · exact hnode ▸ hle3.reached hr
    · exact hnode ▸ h3.unsettled hset
  exact (follows_setEntry hj3 hnew rfl).mono fun _ _ _ _ _ _ _ _ => trivial

/-! ## Edges that meet -/

theorem not_settled (b : BlockId) {parsed : Bool} (hb : (D.full.blocks.block b).isLoopHeader = false) :
    ¬ D.Settled b parsed := by
  rintro ⟨-, h, -⟩
  rw [hb] at h
  cases h

theorem follows_addJoin {k : NodeKind} (hj : D.Joint P w v) (hk : k.anchor? = none)
    (hc : k.isControl = true) : D.Follows P (addNode k []) (addNode k []) w v
      fun P' n w' m v' => P'.control n m ∧ P'.reached n ∧ (∀ x : NodeId, x.index < P'.count →
        P'.apart x n) ∧
        Kept w v w' v' := by
  refine (follows_addControl hj hk hc .nil).enlarge fun P1 n w1 m v1 hle hj1 h1 => ?_
  exact ⟨P1.reach n, P1.le_reach n, hj.unlock hj1 h1.2 (hj1.twins.sane.twin h1.1), h1.1, .inr rfl,
    fun x hx => .inr ⟨hx, rfl⟩, h1.2.kept⟩

theorem follows_retarget {e : EdgeId} (hj : D.Joint P w v) (hn : P.control n m) :
    D.Follows P (changeGraph fun g => return ((), ← g.retarget e n))
      (changeGraph fun g => return ((), ← g.retarget e m)) w v fun _ _ w' _ v' => True ∧ Kept w v w' v' :=
  follows_update hj (hj.twins.retarget hn)

/-- What is known once the begin of a block has become a merge. -/
structure Promoted (D : Duo busy) (P : Pairing) (target : BlockId) (w : Work) (n m : NodeId) : Prop where
  node : P.control n m
  reached : P.reached n
  entry : ∀ e, w.table.slot? target = some e → e.node = n

theorem follows_moveEntry {Q : Pairing} {w' v' : Work} (hj : D.Joint P w v)
    (hb : (D.full.blocks.block target).isLoopHeader = false) (hj' : D.Joint Q w' v') (hle : P.Le Q)
    (hk : Kept w v w' v') (hn : Q.control n m) (hr : Q.reached n)
    (hapart : ∀ x : NodeId, x.index < P.count → Q.apart x n) :
    D.Follows Q (moveEntry target n) (moveEntry target m) w' v' fun P' n w' m _ =>
      D.Promoted P' target w' n m := by
  refine .chain (follows_entry hj' fun e e' hee hslot hslot' => ?_)
  rw [hk.full] at hslot
  rw [hk.pruned] at hslot'
  have hold := hj.tables.entry target
  rw [hslot, hslot'] at hold
  have hsome : e.frame.isSome = true := by
    by_contra hnone
    have := hj.header hslot (by simpa using hnone)
    rw [hb] at this
    cases this
  cases hold with
  | some hold =>
    have hnew : D.SameEntry Q target { e with node := n } { e' with node := m } :=
      ⟨hn, hee.parsed, fun _ => hr, optionRel_imp hold.frame fun _ _ h =>
        h.move hj.twins.sane hle (not_settled target hb) hapart⟩
    refine (follows_setEntry hj' hnew hsome).bind fun P2 _ w2 _ v2 hle2 hj2 h2 => ?_
    refine follows_pure hj2 ⟨hle2.control hn, hle2.reached hr, fun x hx => ?_⟩
    rw [h2, hk.full, Table.slot?_put (Table.lt_of_slot? hslot), if_pos rfl] at hx
    cases hx
    rfl

theorem Kept.trans {w1 v1 w2 v2 : Work} (h : Kept w v w1 v1) (h' : Kept w1 v1 w2 v2) : Kept w v w2 v2 :=
  ⟨h'.full.trans h.full, h'.pruned.trans h.pruned⟩

theorem follows_promote {start start' : NodeId} (hj : D.Joint P w v)
    (hb : (D.full.blocks.block target).isLoopHeader = false) (hs : P.control start start') :
    D.Follows P (promote target start) (promote target start') w v
      fun P' n w' m _ => D.Promoted P' target w' n m := by
  refine (follows_addJoin hj rfl rfl).bind fun P1 n w1 m v1 hle1 hj1 h1 => ?_
  obtain ⟨hn, hr, hapart, hk1⟩ := h1
  refine (follows_addControl hj1 rfl rfl .nil).bind fun P2 stop w2 stop' v2 hle2 hj2 h2 => ?_
  refine (follows_follow hj2 h2.1 (hle2.control hn)).bind fun P3 _ w3 _ v3 hle3 hj3 h3 => ?_
  have hk3 : Kept w v w3 v3 := (hk1.trans h2.2.kept).trans h3.2
  have hle := (hle1.trans hle2).trans hle3
  have hle13 := hle2.trans hle3
  -- Whichever way the edge goes, the table stays as it is.
  have hend : ∀ {P4 w4 v4}, P3.Le P4 → D.Joint P4 w4 v4 → Kept w3 v3 w4 v4 → _ :=
    fun {P4 w4 v4} hle4 hj4 hk4 =>
    follows_moveEntry hj hb hj4 (hle.trans hle4) (hk3.trans hk4) (hle4.control (hle13.control hn))
      (hle4.reached (hle13.reached hr)) fun x hx =>
        hle4.apart (hle13.apart (hapart x (Nat.lt_of_lt_of_le hx hle1.count)))
  refine follows_get_bind ?_
  have hpred := hj3.twins.predecessorEdges (hle.control hs)
  dsimp only
  generalize w3.graph.predecessorEdges start = l at hpred
  generalize v3.graph.predecessorEdges start' = l' at hpred
  have hfollow := follows_follow hj3 (hle.control hs) (hle3.control h2.1)
  cases hpred with
  | nil => exact hfollow.bind fun _ _ _ _ _ hle4 hj4 h4 => hend hle4 hj4 h4.2
  | @cons x y l l' hxy hrest =>
    cases hrest with
    | cons _ _ => exact hfollow.bind fun _ _ _ _ _ hle4 hj4 h4 => hend hle4 hj4 h4.2
    | nil =>
      obtain ⟨e, d⟩ := x
      obtain ⟨e', d'⟩ := y
      obtain ⟨rfl, hd⟩ := hxy
      dsimp only
      rw [hj3.twins.kindIs (hj3.twins.sane.twin hd.source) NodeKind.Twin.isControlSplit]
      split
      · exact hfollow.bind fun _ _ _ _ _ hle4 hj4 h4 => hend hle4 hj4 h4.2
      · exact (follows_retarget hj3 (hle3.control h2.1)).bind fun _ _ _ _ _ hle4 hj4 h4 =>
          hend hle4 hj4 h4.2

theorem prune_full (D : Duo busy) (f : Frame) : D.full.prune f target = f := by
  unfold Scope.prune
  rw [D.fits.keeps]

theorem prune_pruned (D : Duo busy) (k : Frame) : D.pruned.prune k target = k.keepLive
    (D.live target) := by
  unfold Scope.prune
  rw [D.fits.prunes]
  rfl

theorem follows_setFirst {x e e' : Entry} (hj : D.Joint P w v) (hx : w.table.slot? target = some x)
    (hn : x.frame = none) (he : D.SameEntry (P.reach x.node) target e e') (hf : e.frame.isSome = true) :
    D.Follows P (setEntry target e) (setEntry target e') w v fun _ _ _ _ _ => True := by
  rintro a w' ⟨⟩
  exact ⟨(), _, _, rfl, P.le_reach x.node, hj.first hx hn he hf, trivial⟩

/-- A forward edge into a loop header. -/
theorem follows_addLoopEntry (hj : D.Joint P w v)
    (hi : P.Matches (D.live target · = true) incoming incoming') :
    D.Follows P (addLoopEntry target incoming p) (addLoopEntry target incoming' p) w v
      fun P' n _ m _ => P'.control n m := by
  refine .chain (follows_entryAt hj fun o o' hent hslot hslot' => ?_)
  refine .chain (follows_demandRel hj hent fun e e' hee ho ho' => ?_)
  subst ho ho'
  dsimp only
  rw [← hee.parsed]
  cases hparsed : e.parsed with
  | true => exact follows_throw_bind
  | false =>
    have hset : ¬ D.Settled target e.parsed := fun hs => by
      rw [hparsed] at hs
      cases hs.1
    refine (follows_addControl hj rfl rfl .nil).bind fun P3 stop w3 stop' v3 hle3 hj3 h3 => ?_
    refine (follows_follow hj3 h3.1 (hle3.control hee.node)).bind fun P4 _ w4 _ v4 hle4 hj4 h4 => ?_
    have hle := hle3.trans hle4
    have hk : Kept w v w4 v4 := h3.2.kept.trans h4.2
    have hslot4 : w4.table.slot? target = some e := hk.full ▸ hslot
    have hfr := hee.frame
    cases he : e.frame with
    | none =>
      have he' : e'.frame = none := Option.not_isSome_iff_eq_none.1 fun hs => by
        rw [← optionRel_isSome hfr, he] at hs
        cases hs
      rw [he']
      refine follows_read_bind ?_
      rw [D.prune_full, D.prune_pruned]
      have hsane := (hj4.twins.reach (hj4.twins.sane.count ▸ hj4.lt_count hslot4)
        (hj4.await hslot4 he).1).sane
      have hle5 := P4.le_reach e.node
      have hnew : D.SameEntry (P4.reach e.node) target ⟨e.node, some incoming, false⟩
          ⟨e'.node, some (incoming'.keepLive (D.live target)), false⟩ :=
        ⟨hle5.control (hle.control hee.node), rfl, fun _ => .inr rfl,
          .some (((hi.mono hle).mono hle5).waits hsane (hparsed ▸ hset) fun n hn => .inr ⟨hn, rfl⟩)⟩
      refine (follows_setFirst hj4 hslot4 he hnew rfl).bind fun P5 _ w5 _ v5 hle6 hj5 _ => ?_
      exact follows_pure hj5 (hle6.control (hle4.control h3.1))
    | some f =>
      obtain ⟨k, he', -⟩ := optionRel_some_left (he ▸ hfr)
      rw [he']
      refine (follows_mergeInto hj4 (hle.control hee.node) (hle.reached (hee.reached (by rw [he]; rfl)))
        (hi.mono hle) fun x hx => ?_).bind fun P5 _ w5 _ v5 hle5 hj5 _ => ?_
      · rw [hslot4] at hx
        cases hx
        exact ⟨rfl, hset⟩
      · exact follows_pure hj5 (hle5.control (hle4.control h3.1))

end Duo

end StackLift
