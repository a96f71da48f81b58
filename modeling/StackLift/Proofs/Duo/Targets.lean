import StackLift.Proofs.Duo.Drops

/-!
# Edges of two builds

An edge leads to the same place in both builds if the locals that are live there are needed before it.
So the lemmas on edges ask for a set `L` of slots that the two frames agree on, and for `L` to contain
what is live at the target.
-/
namespace StackLift

namespace Duo

open BuildM

variable {D : Duo none} {P : Pairing} {w v : Work} {L : Nat → Prop} {f k : Frame}
  {source target : BlockId}
  {p : Position}

/-! ## Targets -/

theorem follows_joinTarget {n m : NodeId} (hj : D.Joint P w v) (hn : P.control n m) (hr : P.reached n)
    (hb : (D.full.blocks.block target).isLoopHeader = false)
    (hent : ∀ e, w.table.slot? target = some e → e.node = n)
    (hf : P.Matches (D.live target · = true) f k) :
    D.Follows P (joinTarget target n f p) (joinTarget target m k p) w v fun P' a _ b _ =>
      P'.control a b := by
  refine (follows_addControl hj rfl rfl .nil).bind fun P1 stop w1 stop' v1 hle1 hj1 h1 => ?_
  refine (follows_follow hj1 h1.1 (hle1.control hn)).bind fun P2 _ w2 _ v2 hle2 hj2 h2 => ?_
  have hk : Kept w v w2 v2 := h1.2.kept.trans h2.2
  have hle := hle1.trans hle2
  refine (follows_mergeInto hj2 (hle.control hn) (hle.reached hr) (hf.mono hle) fun e he => ?_).bind
    fun P3 _ w3 _ v3 hle3 hj3 _ => ?_
  · rw [hk.full] at he
    exact ⟨hent e he, not_settled target hb⟩
  · exact follows_pure hj3 (hle3.control (hle2.control h1.1))

theorem follows_firstTarget (hj : D.Joint P w v)
    (hb : (D.full.blocks.block target).isLoopHeader = false)
    (hf : P.Matches (D.live target · = true) f k) :
    D.Follows P (placeTarget D.full target f) (placeTarget D.pruned target k) w v fun P' a _ b _ =>
      P'.control a b := by
  refine (follows_addJoin hj rfl rfl).bind fun P1 n w1 m v1 hle1 hj1 h1 => ?_
  obtain ⟨hn, hr, hapart, -⟩ := h1
  rw [D.prune_full, D.prune_pruned]
  have hnew : D.SameEntry P1 target ⟨n, some f, false⟩ ⟨m, some (k.keepLive (D.live target)), false⟩ :=
    ⟨hn, rfl, fun _ => hr, .some ((hf.mono hle1).waits hj1.twins.sane (not_settled target hb) hapart)⟩
  refine (follows_setEntry hj1 hnew rfl).bind fun P2 _ w2 _ v2 hle2 hj2 _ => ?_
  exact follows_pure hj2 (hle2.control hn)

section

variable (hj : D.Joint P w v) {q : Float}
include hj

theorem follows_createTarget (hf : P.Matches (D.live target · = true) f k) :
    D.Follows P (createTarget source target f p) (createTarget source target k p) w v
      fun P' a _ b _ => P'.control a b := by
  refine follows_read_bind ?_
  dsimp only
  rw [D.fits.blocks]
  by_cases hb : (D.full.blocks.block target).isLoopHeader = true
  · rw [if_pos hb, if_pos hb]
    split
    · exact follows_addLoopEnd hj hb hf
    · exact follows_addLoopEntry hj hf
  · rw [if_neg hb, if_neg hb]
    replace hb : (D.full.blocks.block target).isLoopHeader = false := by simpa using hb
    refine .chain (follows_entryAt hj fun o o' hent hslot _ => ?_)
    cases hent with
    | none => exact follows_firstTarget hj hb hf
    | @some e e' hee =>
      dsimp only
      rw [← hee.parsed]
      split
      · exact follows_throw_bind
      · refine (follows_kindIs hj (hj.twins.sane.twin hee.node) NodeKind.Twin.eq_begin).bind
          fun P2 a w2 b v2 hle2 hj2 h2 => ?_
        obtain ⟨rfl, hk⟩ := h2
        cases a with
        | true =>
          refine (follows_promote hj2 hb (hle2.control hee.node)).bind fun P3 n w3 m v3 hle3 hj3 h3 => ?_
          exact follows_joinTarget hj3 h3.node h3.reached hb h3.entry (hf.mono (hle2.trans hle3))
        | false =>
          refine follows_pure_bind ?_
          refine follows_joinTarget hj2 (hle2.control hee.node) (hle2.reached (hee.reached ?_)) hb
            (fun x hx => ?_) (hf.mono hle2)
          · by_contra hnone
            have := hj.header hslot (by simpa using hnone)
            rw [hb] at this
            cases this
          · rw [hk.full, hslot] at hx
            cases hx
            rfl

theorem follows_resolveTarget (hf : P.Matches L f k) (hL : ∀ x, D.live target x = true → L x) :
    D.Follows P (resolveTarget source target f q p) (resolveTarget source target k q p) w v
      fun P' a _ b _ => P'.control a b := by
  have hconfig : D.pruned.config.deadCodeElimination = D.full.config.deadCodeElimination := by
    rw [D.fits.config]
    rfl
  refine follows_read_bind ?_
  rw [hconfig]
  split
  · exact follows_addDeopt hj hf.same
  · refine (follows_exitLoops hj hf).bind fun P1 a w1 b v1 hle1 hj1 h1 => ?_
    obtain ⟨f1, c⟩ := a
    obtain ⟨k1, c'⟩ := b
    refine (follows_createTarget hj1 (h1.1.weaken hL)).bind fun P2 n w2 m v2 hle2 hj2 h2 => ?_
    exact follows_prependExits hj2 (optionRel_imp h1.2 fun _ _ h => h.mono hle2) h2

theorem follows_addBranch {split split' : NodeId} {kind : EdgeKind}
    (hs : P.control split split') (hf : P.Matches L f k) (hL : ∀ x, D.live target x = true → L x) :
    D.Follows P (addBranch source split target f q kind p) (addBranch source split' target k q kind p) w v
      fun _ _ _ _ _ => True := by
  refine (follows_resolveTarget hj hf hL).bind fun P1 n w1 m v1 hle1 hj1 h1 => ?_
  refine (follows_beginStub hj1 h1).bind fun P2 a w2 b v2 hle2 hj2 h2 => ?_
  exact (follows_addEdge hj2 (hle2.control (hle1.control hs)) h2).mono fun _ _ _ _ _ _ _ _ => trivial

theorem follows_jump {b : BlockId} {q r : Point} (hq : P.SamePoint L b p q r)
    (hL : ∀ x, D.live target x = true → L x) :
    D.Parts P L b p (q.jump target) (r.jump target) w v := by
  unfold Point.jump
  rw [hq.position.1, hq.position.2, hq.block.1, hq.block.2]
  refine (follows_resolveTarget hj hq.frame hL).bind fun P1 n w1 m v1 hle1 hj1 h1 => ?_
  refine (follows_takeLast hj1 (hq.mono hle1)).bind fun P2 x w2 y v2 hle2 hj2 h2 => ?_
  refine (follows_follow hj2 h2.1 (hle2.control h1)).bind fun P3 _ w3 _ v3 hle3 hj3 _ => ?_
  exact follows_pure hj3 ⟨h2.2.1.mono hle3, h2.2.2⟩

end

/-! ## Exceptions -/

variable {block handlerBlock noMatch : BlockId} {n m : NodeId} {x y : Value}

theorem follows_exceptionObject (hj : D.Joint P w v) (hf : P.Matches L f k) :
    D.Follows P (exceptionObject f p) (exceptionObject k p) w v fun P' n _ m _ => P'.control n m := by
  refine (follows_addControl hj rfl rfl .nil).bind fun P1 n w1 m v1 hle1 hj1 h1 => ?_
  have htwin := hj1.twins.sane.twin h1.1
  refine (follows_attachSnapshot hj1 htwin ((hf.mono hle1).raising (.object htwin)).same).bind
    fun P2 _ w2 _ v2 hle2 hj2 _ => ?_
  exact follows_pure hj2 (hle2.control h1.1)

theorem follows_dispatchException (hj : D.Joint P w v)
    (hn : P.control n m) (hf : P.Matches L f k) (hx : P.SameValue x y)
    (hL : ∀ s, D.live ((D.full.blocks.dispatchAt? p).getD D.full.blocks.unwindBlock) s = true → L s) :
    D.Follows P (dispatchException block n f x p) (dispatchException block m k y p) w v
      fun _ _ _ _ _ => True := by
  have htarget : D.pruned.exceptionTarget p = D.full.exceptionTarget p := by
    unfold Scope.exceptionTarget
    rw [D.fits.blocks]
  refine follows_read_bind ?_
  dsimp only
  rw [htarget]
  refine (follows_resolveTarget hj (hf.raising hx) hL).bind fun P1 a w1 b v1 hle1 hj1 h1 => ?_
  exact (follows_follow hj1 (hle1.control hn) h1).mono fun _ _ _ _ _ _ _ _ => trivial

theorem follows_pendingException {R : Pairing → Value → Work → Value → Work → Prop} (hj : D.Joint P w v)
    (hf : P.SameFrame f k) (h : ∀ x y, P.SameValue x y → R P x w y v) :
    D.Follows P (pendingException f p) (pendingException k p) w v R := by
  have hs := hf.stack
  unfold pendingException
  generalize f.stack = l at hs
  generalize k.stack = l' at hs
  cases hs with
  | nil => exact follows_verify
  | cons hxy hrest =>
    cases hrest with
    | cons _ _ => exact follows_verify
    | nil =>
      dsimp only
      rw [← hxy.kind]
      split
      · exact follows_pure hj (h _ _ hxy)
      · exact follows_verify

theorem follows_testHandler {type : TypeId} {skipped : Bool}
    (hj : D.Joint P w v) (hn : P.control n m) (hf : P.Matches L f k)
    (hx : P.SameValue x y) (hL : ∀ s, D.live handlerBlock s = true → L s)
    (hL' : ∀ s, D.live noMatch s = true → L s) :
    D.Follows P (testHandler block n f x type skipped handlerBlock noMatch p)
      (testHandler block m k y type skipped handlerBlock noMatch p) w v fun _ _ _ _ _ => True := by
  refine (follows_addData hj rfl (.cons hx.node .nil)).bind fun P1 t w1 t' v1 hle1 hj1 h1 => ?_
  refine (follows_addControl hj1 rfl rfl (.cons h1.1 .nil)).bind fun P2 s w2 s' v2 hle2 hj2 h2 => ?_
  have hle12 := hle1.trans hle2
  refine (follows_follow hj2 (hle12.control hn) h2.1).bind fun P3 _ w3 _ v3 hle3 hj3 _ => ?_
  have hle13 := hle12.trans hle3
  have hs3 := hle3.control h2.1
  -- Whatever the matching side is, the other side goes on to the next test.
  have hrest : ∀ {P4 w4 v4} (q : Float), P3.Le P4 → D.Joint P4 w4 v4 →
      D.Follows P4 (addBranch block s noMatch (f.raising x) q .notTaken p)
        (addBranch block s' noMatch (k.raising y) q .notTaken p) w4 v4 fun _ _ _ _ _ => True :=
    fun _ hle4 hj4 => follows_addBranch hj4 (hle4.control hs3)
      (((hf.mono hle13).mono hle4).raising ((hx.mono hle13).mono hle4)) hL'
  cases skipped with
  | true =>
    refine (follows_addDeopt hj3 (hf.mono hle13).same).bind fun P4 a w4 b v4 hle4 hj4 h4 => ?_
    refine (follows_beginStub hj4 h4).bind fun P5 c w5 d v5 hle5 hj5 h5 => ?_
    refine (follows_addEdge hj5 (hle5.control (hle4.control hs3)) h5).bind
      fun P6 _ w6 _ v6 hle6 hj6 _ => ?_
    exact hrest _ ((hle4.trans hle5).trans hle6) hj6
  | false =>
    refine (follows_addData hj3 rfl (.cons (hx.mono hle13).node .nil)).bind
      fun P4 a w4 b v4 hle4 hj4 h4 => ?_
    refine (follows_addBranch hj4 (hle4.control hs3)
      (((hf.mono hle13).mono hle4).raising (.object h4.1)) hL).bind fun P5 _ w5 _ v5 hle5 hj5 _ => ?_
    exact hrest _ (hle4.trans hle5) hj5

theorem follows_blockAt {t : Position} {R : Pairing → BlockId → Work → BlockId → Work → Prop}
    (hj : D.Joint P w v) (h : ∀ c, D.full.blocks.blockAt? t = some c → R P c w c v) :
    D.Follows P (blockAt t) (blockAt t) w v R := by
  refine follows_read_bind ?_
  rw [D.fits.blocks]
  exact follows_demand hj fun c hc => ⟨c, hc, h c hc⟩

theorem charts (D : Duo none) : D.full.blocks.Charts D.full.body := BlockMap.charts_of_ofBody D.fits.map

theorem follows_dispatchBlock {handler : Nat} {next : Option BlockId} (htame : D.full.blocks.Tame)
    (hj : D.Joint P w v) (hlt : block.index < D.full.blocks.size)
    (hkind : (D.full.blocks.block block).kind = .dispatch handler next) :
    D.Follows P (dispatchBlock block handler next) (dispatchBlock block handler next) w v
      fun _ _ _ _ _ => True := by
  obtain ⟨info, c, hinfo, hc, hsucc, hcatch⟩ := D.charts.dispatch hlt hkind
  -- What is live at a successor is live here: the block has no code.
  have hback : ∀ t ∈ (D.full.blocks.block block).successors, ∀ x, D.live t x = true →
    D.live block x = true :=
    fun t ht x hx => Liveness.isLive_of_successor D.charts hlt
    (by rw [hkind]; exact BlockKind.noConfusion) ht hx
  have hset : ¬ D.Settled block true := not_settled block (htame block ⟨handler, next, hkind⟩)
  refine follows_read_bind ?_
  refine (follows_openBlock hj hset).bind fun P1 a w1 b v1 hle1 hj1 h1 => ?_
  obtain ⟨n, f⟩ := a
  obtain ⟨m, k⟩ := b
  obtain ⟨hn, -, hw⟩ := h1
  dsimp only at hn hw ⊢
  rw [D.fits.body, D.fits.blocks, D.fits.env, hinfo]
  refine follows_pure_bind ?_
  refine .chain (follows_pendingException hj1 hw.same fun x y hx => ?_)
  refine (follows_snapshotMerge hj1 (hj1.twins.sane.twin hn) hw.same).bind
    fun P3 _ w3 _ v3 hle3 hj3 _ => ?_
  have hn3 := hle3.control hn
  have hf3 := hw.matches.mono hle3
  refine .chain (follows_blockAt hj3 fun c1 hc' => ?_)
  cases hc.symm.trans hc'
  cases hcatchType : info.catchType with
  | none =>
    refine (follows_resolveTarget hj3 hf3 (hback c hsucc)).bind fun P3 s w3 t v3 hle4 hj3 h4 => ?_
    exact (follows_follow hj3 (hle4.control hn3) h4).mono fun _ _ _ _ _ _ _ _ => trivial
  | some type =>
    obtain ⟨d, rfl, hdsucc, -⟩ := hcatch.resolve_left (by simp [hcatchType])
    refine follows_pure_bind ?_
    have hskip : D.pruned.config.skippedExceptionTypes = D.full.config.skippedExceptionTypes := by
      rw [D.fits.config]
      rfl
    rw [hskip]
    split
    · refine (follows_recordUnresolved hj3).bind fun P3 _ w3 _ v3 hle4 hj3 _ => ?_
      refine (follows_addDeopt hj3 (hf3.mono hle4).same).bind fun P5 s w5 t v5 hle5 hj5 h5 => ?_
      exact (follows_follow hj5 (hle5.control (hle4.control hn3)) h5).mono fun _ _ _ _ _ _ _ _ => trivial
    · exact follows_testHandler hj3 hn3 hf3 (hx.mono hle3) (hback c hsucc) (hback d hdsucc)

end Duo

end StackLift
