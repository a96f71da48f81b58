import StackLift.Proofs.Duo.Joins

/-!
# Loops of two builds

At a loop header every value becomes a phi. So what only the full build has at an open header is a
ghost, and from then on the header is settled (`follows_beginLoop`, `follows_settle`).
-/
namespace StackLift

namespace Duo

open BuildM

variable {busy : Option BlockId} {D : Duo busy} {P Q : Pairing} {w v : Work} {header header' n : NodeId}
  {forward c d i : Nat} {f k : Frame} {x : Value}

/-! ## Headers -/

/-- Both builds replace the values of a frame; where only the full one has a local, it goes alone. -/
theorem follows_mapValuesM {act bct : Value → BuildM Value}
    (I S : Pairing → Nat → Option Value → Option Value → Prop) (R : Pairing → Value → Value → Prop)
    (hI : ∀ {P Q i o o'}, P.Le Q → I P i o o' → I Q i o o')
      (hS : ∀ {P Q i o o'}, P.Le Q → S P i o o' → S Q i o o')
    (hR : ∀ {P Q x y}, P.Le Q → R P x y → R Q x y)
    (hboth : ∀ {P' w v i x y}, P.Le P' → D.Joint P' w v → I P' i (some x) (some y) →
      D.Follows P' (act x) (bct y) w v fun P' a _ b _ => S P' i (some a) (some b))
    (hlone : ∀ {P' w v i x}, P.Le P' → D.Joint P' w v → I P' i (some x) none →
      D.Follows P' (act x) (pure ()) w v fun P' a _ _ _ => S P' i (some a) none)
    (hnone : ∀ {P' i o}, P.Le P' → I P' i none o → o = none ∧ S P' i none none)
    (hpinned : ∀ {P' w v x y}, P.Le P' → D.Joint P' w v → P'.SameValue x y →
      D.Follows P' (act x) (bct y) w v fun P' a _ b _ => R P' a b)
    (hj : D.Joint P w v) (hl : Along (I P) 0 f.locals k.locals)
      (hs : List.Forall₂ P.SameValue f.stack k.stack)
    (hm : List.Forall₂ P.SameValue f.monitors k.monitors) :
    D.Follows P (f.mapValuesM act) (k.mapValuesM bct) w v fun P' a _ b _ =>
      Along (S P') 0 a.locals b.locals ∧ List.Forall₂ (R P') a.stack b.stack ∧
        List.Forall₂ (R P') a.monitors b.monitors := by
  unfold Frame.mapValuesM
  refine (follows_mapM I S hI hS (fun {P1 w1 v1 i o o'} hle hj1 ho => ?_) hj hl).bind
    fun P1 l w1 l' v1 hle1 hj1 h1 => ?_
  · cases o with
    | none =>
      obtain ⟨rfl, h⟩ := hnone hle ho
      exact follows_pure hj1 h
    | some x =>
      cases o' with
      | none =>
        exact (hlone hle hj1 ho).alone fun P2 a w2 _ v2 _ hj2 h2 => follows_pure hj2 h2
      | some y => exact (hboth hle hj1 ho).bind fun P2 a w2 b v2 _ hj2 h2 => follows_pure hj2 h2
  have hpin : ∀ {Q w v} {xs ys : List Value}, P.Le Q → D.Joint Q w v → List.Forall₂ Q.SameValue xs ys →
      D.Follows Q (xs.mapM act) (ys.mapM bct) w v fun P' a _ b _ => List.Forall₂ (R P') a b :=
    fun {Q w v xs ys} hle hj hxy => (follows_mapM (j := 0) (fun P _ x y => P.SameValue x y)
      (fun P _ => R P)
      (fun hle h => h.mono hle) hR (fun hle' hj' h => hpinned (hle.trans hle') hj' h) hj
      (along_of_forall₂ hxy)).mono fun _ _ _ _ _ _ _ h => h.forall₂
  refine (hpin hle1 hj1 (List.rel_reverse (hs.imp fun _ _ h => h.mono hle1))).bind
    fun P2 s w2 s' v2 hle2 hj2 h2 => ?_
  refine (hpin (hle1.trans hle2) hj2 (List.rel_reverse (hm.imp fun _ _ h =>
    (h.mono hle1).mono hle2))).bind
    fun P3 m w3 m' v3 hle3 hj3 h3 => ?_
  exact follows_pure hj3 ⟨h1.imp fun _ _ _ h => hS (hle2.trans hle3) h,
    List.rel_reverse (h2.imp fun _ _ h => hR hle3 h), List.rel_reverse h3⟩

/-- A value that waits at a header becomes a phi of it. -/
def headerPhi (header : NodeId) (forward : Nat) (v : Value) : BuildM Value := do
  if isPhiOf (← get).graph v.node header then
    return v
  else
    let phi ← addNode (.phi header) (List.replicate forward v.node)
    return { v with node := phi }

theorem data_of_isPhiOf (hj : D.Joint P w v) (hn : isPhiOf w.graph n header = true) : P.data n := by
  unfold isPhiOf at hn
  split at hn
  · next hk => exact hj.twins.nodes.data hk rfl
  · cases hn

theorem follows_headerPhi {y : Value} (hj : D.Joint P w v) (hh : P.twin header header')
    (hr : P.reached header) (hxy : P.SameValue x y) :
    D.Follows P (headerPhi header forward x) (headerPhi header' forward y) w v
      fun P' a _ b _ => P'.SameValue a b ∧ P'.data a.node := by
  refine follows_get_bind ?_
  rw [hj.twins.isPhiOf hxy.node hh]
  by_cases hphi : isPhiOf v.graph y.node header' = true
  · rw [if_pos hphi, if_pos hphi]
    exact follows_pure hj ⟨hxy, data_of_isPhiOf hj (hj.twins.isPhiOf hxy.node hh ▸ hphi)⟩
  · rw [if_neg hphi, if_neg hphi]
    refine (follows_addNode hj (.phi hh) ?_ ?_).bind fun P1 n w1 m v1 hle hj1 h1 => ?_
    · exact List.forall₂_iff_get.2 ⟨by simp, fun i _ _ => by simpa using hxy.node⟩
    · rintro z ⟨⟩
      exact hr
    · exact follows_pure hj1 ⟨⟨h1.1, hxy.kind⟩, h1.2.2.1 rfl⟩

theorem follows_headerGhost (hj : D.Joint P w v) (hr : P.reached header)
    (hx : P.ghost x.node ∨ (¬ False ∧ P.apart x.node header)) :
    D.Follows P (headerPhi header forward x) (pure ()) w v fun P' a _ _ _ => P'.ghost a.node ∧
      P'.data a.node := by
  refine follows_look_bind ?_
  by_cases hphi : isPhiOf w.graph x.node header = true
  · rw [if_pos hphi]
    exact follows_pure hj ⟨hj.twins.ghost_of_isPhiOf hx hphi, data_of_isPhiOf hj hphi⟩
  · rw [if_neg hphi]
    refine (follows_addGhost hj hr).alone fun P1 n w1 _ v1 hle hj1 h1 => ?_
    exact follows_pure hj1 h1.1

theorem Follows.of_le {α β : Type} {act : BuildM α} {bct : BuildM β}
    {R : Pairing → α → Work → β → Work → Prop} (hle : P.Le Q) (h : D.Follows Q act bct w v R) :
    D.Follows P act bct w v R := by
  intro a w' ha
  obtain ⟨b, v', P', hb, hle', hj, hr⟩ := h a w' ha
  exact ⟨b, v', P', hb, hle.trans hle', hj, hr⟩

theorem Tables.mark {t t' : Table} (h : D.Tables P t t') (hc : P.cut c d) (i : Nat) :
    D.Tables P { t with marks := t.marks.setIfInBounds i (some c) }
      { t' with marks := t'.marks.setIfInBounds i (some d) } := by
  refine ⟨h.size, h.entry, h.headers, ?_, h.returned, h.unwound⟩
  have hm := h.marks
  simp only [Array.toList_setIfInBounds]
  generalize t.marks.toList = l at hm
  generalize t'.marks.toList = l' at hm
  induction hm generalizing i with
  | nil => exact .nil
  | cons ho hrest ih =>
    cases i with
    | zero => exact .cons (.some hc) hrest
    | succ i => exact .cons ho (ih i)

theorem follows_noteMark {R : Pairing → Frame → Work → Frame → Work → Prop}
    (hj : D.Joint P w v) (hc : P.cut c d) (hR : ∀ w' v', R P f w' k v') :
    D.Follows P (noteMark i c f) (noteMark i d k) w v R := by
  have hsize : w.table.marks.size = v.table.marks.size := by
    simpa using hj.tables.marks.length_eq
  refine follows_get_bind ?_
  rw [hsize]
  split
  · exact follows_throw_bind
  · rintro a w' ⟨⟩
    exact ⟨k, _, P, rfl, .refl P, { hj with tables := hj.tables.mark hc i }, hR _ _⟩

theorem follows_beginLoop {live : Nat → Bool} (hj : D.Joint P w v)
    (hh : P.control header header') (hr : P.reached header) (hf : P.Waits live header False f k) :
    D.Follows P (beginLoop i header f) (beginLoop i header' k) w v
      fun P' a _ b _ => P'.Waits live header True a b := by
  have hle0 := P.le_mark w.graph.nodeCount v.graph.nodeCount
  have hj0 : D.Joint (P.mark w.graph.nodeCount v.graph.nodeCount) w v := hj.graph hle0 hj.twins.mark id
  have hcut : (P.mark w.graph.nodeCount v.graph.nodeCount).cut w.graph.nodeCount v.graph.nodeCount :=
    .inr ⟨rfl, rfl⟩
  replace hh := hle0.control hh
  replace hr := hle0.reached hr
  replace hf := hf.mono hle0
  have hdeg := hj.inDegree hh
  refine .of_le hle0 ?_
  generalize P.mark w.graph.nodeCount v.graph.nodeCount = Q at hh hr hf hj0 hcut
  refine follows_get_bind ?_
  rw [hdeg]
  change D.Follows Q (f.mapValuesM (headerPhi header _) >>= _)
    (k.mapValuesM (headerPhi header' _) >>= _) w v _
  refine (follows_mapValuesM (fun P i o o' => P.Holds (live i) header False o o')
    (fun P i o o' => P.Holds (live i) header True o o' ∧ ∀ x, o = some x → P.data x.node)
    (fun P x y => P.SameValue x y ∧ P.data x.node) (fun hle h => h.mono hle)
    (fun hle h => ⟨h.1.mono hle, fun x hx => hle.data (h.2 x hx)⟩)
    (fun hle h => ⟨h.1.mono hle, hle.data h.2⟩) ?_ ?_ ?_ ?_ hj0 ?_ hf.same.stack hf.same.monitors).bind
    fun P1 a w1 b v1 hle1 hj1 h1 => ?_
  · intro P' w v i x y hle hj ho
    have hlive : live i = true := by
      by_contra hl
      cases ho.gone (by simpa using hl)
    have hxy : P'.SameValue x y := by
      have := ho.same hlive
      cases this with
      | some h => exact h
    refine (follows_headerPhi hj (hj.twins.sane.twin (hle.control hh)) (hle.reached hr) hxy).mono
      fun P2 a w2 b v2 _ _ h => ⟨⟨fun _ => .some h.1, fun hf => ?_, fun hf => ?_⟩, ?_⟩
    · rw [hlive] at hf
      cases hf
    · rw [hlive] at hf
      cases hf
    · rintro z ⟨⟩
      exact h.2
  · intro P' w v i x hle hj ho
    have hlive : live i = false := by
      by_contra hl
      have := ho.same (by simpa using hl)
      cases this
    refine (follows_headerGhost hj (hle.reached hr) (ho.shed hlive x rfl).2).mono
      fun P2 a w2 b v2 _ hj2 h => ⟨⟨fun hf => ?_, fun _ => rfl, ?_⟩, ?_⟩
    · rw [hlive] at hf
      cases hf
    · rintro - z ⟨⟩
      exact ⟨hj2.twins.sane.count ▸ (hj2.twins.sane.ghost h.1).1, .inl h.1⟩
    · rintro z ⟨⟩
      exact h.2
  · intro P' i o _ ho
    have hnone : o = none := by
      cases hlive : live i with
      | true =>
        have := ho.same hlive
        cases this
        rfl
      | false => exact ho.gone hlive
    subst hnone
    exact ⟨rfl, ⟨fun _ => .none, fun _ => rfl, fun _ x hx => (by cases hx)⟩, fun x hx => (by cases hx)⟩
  · exact fun hle hj hxy => follows_headerPhi hj (hj.twins.sane.twin (hle.control hh))
      (hle.reached hr) hxy
  · refine along_iff.2 ⟨hf.same.length, fun i x y hx hy => ?_⟩
    have hh := hf.holds i
    unfold Frame.local? at hh
    rw [hx, hy] at hh
    rwa [Nat.zero_add]
  · obtain ⟨hl, hs, hm⟩ := h1
    refine follows_noteMark hj1 (hle1.cut hcut) fun w' v' => ?_
    refine Pairing.waits_of_holds (hl.imp fun _ _ _ h => h.1) (hs.imp fun _ _ h => h.1)
      (hm.imp fun _ _ h => h.1)
      fun _ x hx => ?_
    simp only [Frame.values, Frame.pinned, List.mem_append, List.mem_filterMap, id,
      List.mem_reverse] at hx
    rcases hx with ⟨o, ho, rfl⟩ | hx | hx
    · exact hl.left (fun _ _ _ h => h.2) _ ho x rfl
    · exact (along_of_forall₂ (j := 0) hs).left (fun _ _ _ h => h.2) _ hx
    · exact (along_of_forall₂ (j := 0) hm).left (fun _ _ _ h => h.2) _ hx

end Duo

end StackLift
