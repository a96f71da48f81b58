import StackLift.Proofs.Duo.Calls

/-!
# Methods of two builds

The pruned build follows the full one through every instruction (`follows_step`), through the code of
a block (`follows_runCode`), through every block (`follows_liftBlock`), and so through a whole method,
however deep calls are inlined in it (`follows_parse`).

While the phis of a header are made, the frame that waits there is not settled: `D.opening b` is the
pair of builds in that state.
-/
namespace StackLift

namespace Duo

open BuildM

variable {D : Duo none} {P : Pairing} {w v : Work} {L L' : Nat → Prop} {b : BlockId}
  {p : Position} {q r : Point}

/-! ## Instructions -/

section Step

variable {nested : Option Parser} {i : Instruction Position} {a : BlockId}

/-- The pruned build follows the full one through an instruction, if the two agree on the slots that it
and the code behind it need. -/
theorem follows_step (hn : Nests D.full.env nested)
    (hserve : Liveness.Serves (Liveness.compute D.full.body D.full.blocks).isLive D.full.blocks p i L L')
    (hj : D.Joint P w v) (hq : P.SamePoint L b p q r) :
    D.Follows P (step nested i q) (step nested i r) w v fun P' x _ y _ =>
      P'.SamePoint L' b p x y ∧ (i.isBlockEnd = true → x.last = none) := by
  have hreaches : ∀ t ∈ i.branchTargets, D.Reaches L t := fun t ht => ⟨hserve.target t ht⟩
  have hnext : i.branchTargets ≠ [] → i.fallsThrough = true → D.Reaches L p.next :=
    fun ht hf => ⟨hserve.next ht hf⟩
  -- All instructions but one leave the locals alone; some of them end the block.
  have hstay : ∀ {act bct : BuildM Point}, (∀ s, i ≠ .store s) → i.isBlockEnd = false →
      D.Follows P act bct w v (fun P' x _ y _ => P'.SamePoint L b p x y) →
      D.Follows P act bct w v fun P' x _ y _ => P'.SamePoint L' b p x y ∧
      (i.isBlockEnd = true → x.last = none) :=
    fun hs hend h => h.mono fun _ _ _ _ _ _ _ h =>
      ⟨h.weaken fun x hx => (hserve.keep x hx).resolve_right (hs x), fun he => by
        rw [hend] at he; cases he⟩
  have hleave : ∀ {act bct : BuildM Point}, (∀ s, i ≠ .store s) →
      D.Follows P act bct w v (fun P' x _ y _ => P'.SamePoint L b p x y ∧ x.last = none) →
      D.Follows P act bct w v fun P' x _ y _ => P'.SamePoint L' b p x y ∧
      (i.isBlockEnd = true → x.last = none) :=
    fun hs h => h.mono fun _ _ _ _ _ _ _ h =>
      ⟨h.1.weaken fun x hx => (hserve.keep x hx).resolve_right (hs x), fun _ => h.2⟩
  unfold step
  rw [hq.position.1, hq.position.2]
  cases i with
  | nop => exact hstay (by simp) rfl (follows_pure hj hq)
  | const c => exact hstay (by simp) rfl (follows_compute hj hq rfl .nil)
  | constNull => exact hstay (by simp) rfl (follows_compute hj hq rfl .nil)
  | load s =>
    refine hstay (by simp) rfl ((follows_load hj hq (hserve.load s rfl)).bind
      fun P1 x w1 y v1 _ hj1 h1 => ?_)
    exact follows_pure hj1 (h1.2.push h1.1)
  | store s =>
    refine (follows_pop hj hq).bind fun P1 x w1 y v1 _ hj1 h1 => ?_
    have hkeep : ∀ x, L' x → L x ∨ s = x := fun x hx => (hserve.keep x hx).imp_right (by rintro ⟨⟩; rfl)
    refine (follows_store hj1 h1.2 h1.1 hkeep).bind fun P2 x w2 y v2 _ hj2 h2 => ?_
    exact follows_pure hj2 ⟨h2, fun he => by cases he⟩
  | pop =>
    refine hstay (by simp) rfl ((follows_pop hj hq).bind fun P1 x w1 y v1 _ hj1 h1 => ?_)
    exact follows_pure hj1 h1.2
  | dup =>
    refine hstay (by simp) rfl ?_
    have hpeek := hq.frame.same.peek?
    dsimp only
    generalize q.frame.peek? = o at hpeek
    generalize r.frame.peek? = o' at hpeek
    cases hpeek with
    | none => exact follows_verify
    | some h => exact follows_pure hj (hq.push h)
  | swap =>
    refine hstay (by simp) rfl ((follows_pop hj hq).bind fun P1 x w1 y v1 _ hj1 h1 => ?_)
    refine (follows_pop hj1 h1.2).bind fun P2 x2 w2 y2 v2 hle2 hj2 h2 => ?_
    exact follows_pure hj2 ((h2.2.push (h1.1.mono hle2)).push h2.1)
  | arith op =>
    refine hstay (by simp) rfl ?_
    dsimp only
    split
    · exact follows_unary hj hq
    · exact follows_binary hj hq hserve.thrown
  | ifCompare cond t =>
    refine hleave (by simp) ((follows_popKind hj hq).bind fun P1 x w1 y v1 _ hj1 h1 => ?_)
    refine (follows_popKind hj1 h1.2).bind fun P2 x2 w2 y2 v2 hle2 hj2 h2 => ?_
    refine (follows_addData hj2 rfl (.cons h2.1.node (.cons (h1.1.mono hle2).node .nil))).bind
      fun P3 c w3 c' v3 hle3 hj3 h3 => ?_
    exact follows_branch hj3 (h2.2.mono hle3) h3.1 (hreaches t (by simp [Instruction.branchTargets]))
      (hnext (by simp [Instruction.branchTargets]) rfl)
  | ifZero cond t =>
    refine hleave (by simp) ((follows_popKind hj hq).bind fun P1 x w1 y v1 _ hj1 h1 => ?_)
    refine (follows_addData hj1 rfl .nil).bind fun P2 z w2 z' v2 hle2 hj2 h2 => ?_
    refine (follows_addData hj2 rfl (.cons (h1.1.mono hle2).node (.cons h2.1 .nil))).bind
      fun P3 c w3 c' v3 hle3 hj3 h3 => ?_
    exact follows_branch hj3 (h1.2.mono (hle2.trans hle3)) h3.1
      (hreaches t (by simp [Instruction.branchTargets])) (hnext (by simp [Instruction.branchTargets]) rfl)
  | ifNull t =>
    exact hleave (by simp) (follows_nullBranch hj hq
      (hreaches t (by simp [Instruction.branchTargets]))
      (hnext (by simp [Instruction.branchTargets]) rfl))
  | ifNonNull t =>
    exact hleave (by simp) (follows_nullBranch hj hq
      (hreaches t (by simp [Instruction.branchTargets]))
      (hnext (by simp [Instruction.branchTargets]) rfl))
  | goto t =>
    refine hleave (by simp) (.chain (follows_blockAt hj fun c hc => ?_))
    exact follows_jump hj hq ((hreaches t (by simp [Instruction.branchTargets])).live _ hc)
  | switch keys targets default => exact hleave (by simp) (follows_switch hj hq hreaches)
  | invoke kind method =>
    exact hstay (by simp) rfl (follows_invoke hn hj hq (hserve.thrown rfl))
  | new type =>
    refine hstay (by simp) rfl (follows_withType hj hq ((follows_append hj hq rfl rfl .nil).bind
      fun P1 x w1 y v1 hle1 hj1 h1 => ?_))
    have htwin := hj1.twins.sane.twin h1.1
    refine (follows_attachSnapshot hj1 htwin (hq.frame.mono hle1).same).bind
      fun P2 _ w2 _ v2 hle2 hj2 _ => ?_
    exact follows_pure hj2 ((h1.2.mono hle2).push (.object (hle2.twin htwin)))
  | checkCast type =>
    refine hstay (by simp) rfl (follows_withType hj hq ((follows_popKind hj hq).bind
      fun P1 x w1 y v1 hle1 hj1 h1 => ?_))
    refine (follows_append hj1 h1.2 rfl rfl (.cons h1.1.node .nil)).bind
      fun P2 x w2 y v2 hle2 hj2 h2 => ?_
    have htwin := hj2.twins.sane.twin h2.1
    refine (follows_attachSnapshot hj2 htwin (hq.frame.mono (hle1.trans hle2)).same).bind
      fun P3 _ w3 _ v3 hle3 hj3 _ => ?_
    exact follows_pure hj3 ((h2.2.mono hle3).push (.object (hle3.twin htwin)))
  | instanceOf type =>
    refine hstay (by simp) rfl (follows_withType hj hq ((follows_popKind hj hq).bind
      fun P1 x w1 y v1 _ hj1 h1 => ?_))
    exact follows_compute hj1 h1.2 rfl (.cons h1.1.node .nil)
  | throw =>
    refine hleave (by simp) ((follows_popKind hj hq).bind fun P1 x w1 y v1 hle1 hj1 h1 => ?_)
    refine (follows_takeLast hj1 h1.2).bind fun P2 x2 w2 y2 v2 hle2 hj2 h2 => ?_
    obtain ⟨hlast, hpt, hnone⟩ := h2
    dsimp only
    rw [hpt.block.1, hpt.block.2]
    refine (follows_dispatchException hj2 hlast hpt.frame (h1.1.mono hle2) (hserve.thrown rfl)).bind
      fun P3 _ w3 _ v3 hle3 hj3 _ => ?_
    exact follows_pure hj3 ⟨hpt.mono hle3, hnone⟩
  | ret => exact hleave (by simp) (follows_emitReturn hj hq .none)
  | retValue =>
    refine hleave (by simp) ((follows_pop hj hq).bind fun P1 x w1 y v1 _ hj1 h1 => ?_)
    exact follows_emitReturn hj1 h1.2 (.some h1.1)
  | monitorEnter =>
    refine hstay (by simp) rfl ((follows_popKind hj hq).bind fun P1 x w1 y v1 hle1 hj1 h1 => ?_)
    refine (follows_append hj1 h1.2 rfl rfl (.cons h1.1.node .nil)).bind
      fun P2 x2 w2 y2 v2 hle2 hj2 h2 => ?_
    have hpt := h2.2.withFrame (h2.2.frame.enterMonitor (h1.1.mono hle2))
    refine (follows_attachSnapshot hj2 (hj2.twins.sane.twin h2.1) hpt.frame.same).bind
      fun P3 _ w3 _ v3 hle3 hj3 _ => ?_
    exact follows_pure hj3 (hpt.mono hle3)
  | monitorExit =>
    refine hstay (by simp) rfl ((follows_popKind hj hq).bind fun P1 x w1 y v1 hle1 hj1 h1 => ?_)
    refine (follows_exitMonitor hj1 h1.2).bind fun P2 x2 w2 y2 v2 hle2 hj2 h2 => ?_
    refine (follows_append hj2 h2 rfl rfl (.cons (h1.1.mono hle2).node .nil)).bind
      fun P3 x3 w3 y3 v3 hle3 hj3 h3 => ?_
    refine (follows_attachSnapshot hj3 (hj3.twins.sane.twin h3.1) h3.2.frame.same).bind
      fun P4 _ w4 _ v4 hle4 hj4 _ => ?_
    exact follows_pure hj4 (h3.2.mono hle4)

/-! ## The code of a block -/

/-- The slots that the rest of block `a` needs from `p` on. -/
def need (D : Duo none) (a : BlockId) (p : Position) : Nat → Prop :=
  Liveness.From D.full.body D.full.blocks a p

theorem reaches_stop (ha : a.index < D.full.blocks.size)
    (hk : (D.full.blocks.block a).kind = .instructions) (hstop : p.next = (D.full.blocks.block a).stop)
    (hi : D.full.body.instruction? p = some i) (hend : i.isBlockEnd = false) :
    D.Reaches (D.need a p.next) (D.full.blocks.block a).stop := by
  refine ⟨fun c hc x hx => ?_⟩
  obtain ⟨j, hj, hleads⟩ := D.charts.last ha hk p (by rw [← hstop]; rfl)
  cases hi.symm.trans hj
  rw [Instruction.isBlockEnd, Bool.or_eq_false_iff] at hend
  obtain ⟨t, ht, hsucc⟩ := hleads.next (by simpa using hend.2)
  rw [hstop, hc, Option.some.injEq] at ht
  subst ht
  rw [need, hstop, Liveness.From, Liveness.slice_self]
  exact ⟨c, hsucc, hx⟩

/-- Through the code of block `a` from `s` on. If control is in the block at its end, the two frames agree
on what the next block needs. -/
theorem follows_runCode {s n : Nat} (hn : Nests D.full.env nested)
    (ha : a.index < D.full.blocks.size)
    (hk : (D.full.blocks.block a).kind = .instructions) (hstart : (D.full.blocks.block a).start.index ≤ s)
    (hstop : ⟨s + n⟩ = (D.full.blocks.block a).stop) (hj : D.Joint P w v)
    (hq : P.SamePoint (D.need a ⟨s⟩) a p q r)
    (hend : n = 0 → q.last.isSome = true → D.Reaches (D.need a ⟨s⟩) (D.full.blocks.block a).stop) :
    D.Follows P (runCode nested ((List.range' s n).map Position.mk) q)
      (runCode nested ((List.range' s n).map Position.mk) r) w v fun P' x _ y _ =>
        ∃ L p', P'.SamePoint L a p' x y ∧ (x.last.isSome = true →
          D.Reaches L (D.full.blocks.block a).stop) := by
  induction n generalizing s p q r P w v with
  | zero => exact follows_pure hj ⟨_, p, hq, hend rfl⟩
  | succ n ih =>
    have hlt : s < (D.full.blocks.block a).stop.index := by
      rw [← hstop]
      show s < s + (n + 1)
      omega
    rw [List.range'_succ, List.map_cons]
    refine follows_read_bind ?_
    rw [D.fits.body]
    rcases optionRel_cases hq.last with ⟨hl, hl'⟩ | ⟨m, m', hl, hl', hlast⟩
    · rw [hl, hl']
      exact follows_pure hj ⟨_, p, hq, fun h => by rw [hl] at h; cases h⟩
    · rw [hl, hl']
      obtain ⟨i, hi⟩ : ∃ i, D.full.body.instruction? ⟨s⟩ = some i := by
        by_cases hn0 : s + 1 < (D.full.blocks.block a).stop.index
        · obtain ⟨i, hi, -⟩ := D.charts.inside ha hk ⟨s⟩ hstart hn0
          exact ⟨i, hi⟩
        · obtain ⟨i, hi, -⟩ := D.charts.last ha hk ⟨s⟩ (by show s + 1 = _; omega)
          exact ⟨i, hi⟩
      rw [hi]
      dsimp only
      have hq0 : P.SamePoint (D.need a ⟨s⟩) a ⟨s⟩ { q with position := ⟨s⟩, last := some m }
          { r with position := ⟨s⟩, last := some m' } := ⟨hq.block, ⟨rfl, rfl⟩, hq.frame, .some hlast⟩
      have hserve := Liveness.serves_from D.charts ha hk hstart hlt hi
      refine (follows_step hn hserve hj hq0).bind fun P1 x w1 y v1 _ hj1 h1 => ?_
      refine ih (Nat.le_succ_of_le hstart) (by rw [← hstop]; congr 1; omega) hj1 h1.1 fun hn0 hx => ?_
      refine reaches_stop ha hk (by rw [← hstop, hn0]; rfl) hi ?_
      by_contra he
      rw [h1.2 (by simpa using he)] at hx
      cases hx

end Step

/-! ## Opening a header -/

/-- The phis of header `b` are being made. -/
def opening (D : Duo none) (b : BlockId) : Duo (some b) := { D with }

theorem Joint.view {x y : Option BlockId} {C : Duo x} {D : Duo y} (hj : C.Joint P w v)
    (hfull : C.full = D.full) (hpruned : C.pruned = D.pruned) (hhush : C.hush = D.hush)
    (hw : ∀ {c e e' f k}, w.table.slot? c = some e → v.table.slot? c = some e' →
      P.Waits (D.live c) e.node (C.Settled c e.parsed) f k → e.frame = some f → e'.frame = some k →
      P.Waits (D.live c) e.node (D.Settled c e.parsed) f k) : D.Joint P w v := by
  have hlive : C.live = D.live := by
    unfold live
    rw [hfull]
  have ht := hj.tables
  refine ⟨hj.twins, ⟨ht.size, fun c => ?_, ht.headers, ht.marks, ht.returned, ht.unwound⟩, ?_,
    ?_, ?_, ?_, ?_,
    hj.distinct, hj.report, hj.consulted⟩
  · rcases optionRel_cases (ht.entry c) with ⟨he, he'⟩ | ⟨e, e', he, he', hent⟩
    · rw [he, he']
      exact .none
    · rw [he, he']
      refine .some ⟨hent.node, hent.parsed, hent.reached, ?_⟩
      rcases optionRel_cases hent.frame with ⟨hf, hk⟩ | ⟨f, k, hf, hk, h⟩
      · rw [hf, hk]
        exact .none
      · rw [hf, hk]
        exact .some (hw he he' (hlive ▸ h) hf hk)
  · have := hj.callers
    rwa [hfull, hpruned] at this
  · exact fun hx => hj.hush (hhush ▸ hx)
  · exact fun hx => hj.hushLt (hhush ▸ hx)
  · exact fun he hf => ⟨(hj.await he hf).1, hhush ▸ (hj.await he hf).2⟩
  · exact fun he hf => hfull ▸ hj.header he hf

theorem Joint.opening (hj : D.Joint P w v) : (D.opening b).Joint P w v :=
  hj.view rfl rfl rfl fun _ _ h _ _ => h.loosen fun hs => ⟨hs.1, hs.2.1, nofun⟩

theorem follows_settle {e e' : Entry} {f k : Frame} (hj : (D.opening b).Joint P w v)
    (he : w.table.slot? b = some e) (hee : (D.opening b).SameEntry P b e e')
    (hw : P.Waits (D.live b) e.node True f k) :
    D.Follows P (setEntry b { e with frame := some f }) (setEntry b { e' with frame := some k }) w v
      fun _ _ _ _ _ => True := by
  have hlt : b.index < w.table.entries.size := Table.lt_of_slot? he
  -- Whether or not something has come to the header before, its node may have phis.
  obtain ⟨Q, hle, hj'⟩ : ∃ Q, P.Le Q ∧ (D.opening b).Joint Q
      { w with table := w.table.put b { e with frame := some f } }
      { v with table := v.table.put b { e' with frame := some k } } := by
    cases hf : e.frame with
    | none =>
      have hle := P.le_reach e.node
      exact ⟨_, hle, hj.first he hf ⟨hle.control hee.node, hee.parsed, fun _ => .inr rfl,
        .some ((hw.mono hle).loosen fun _ => trivial)⟩ rfl⟩
    | some f0 =>
      exact ⟨P, .refl P, hj.put ⟨hee.node, hee.parsed, fun _ => hee.reached (by rw [hf]; rfl),
        .some (hw.loosen fun _ => trivial)⟩ rfl⟩
  rintro a w' ⟨⟩
  refine ⟨(), _, Q, rfl, hle, hj'.view rfl rfl rfl ?_, trivial⟩
  intro c x y g l hx hy h hg hl
  by_cases hc : c = b
  · subst hc
    rw [Table.slot?_put hlt, if_pos rfl, Option.some.injEq] at hx
    rw [Table.slot?_put (hj.tables.size ▸ hlt), if_pos rfl, Option.some.injEq] at hy
    subst hx hy
    cases hg
    cases hl
    exact (hw.mono hle).loosen fun _ => trivial
  · exact h.loosen fun hs => ⟨hs.1, hs.2.1, fun hb => hc (Option.some.inj hb).symm⟩

section Blocks

variable {env : Env} {nested : Option Parser}
variable {a : BlockId} {m n : NodeId} {f k : Frame} {o o' : Option NodeId}

/-! ## Blocks -/

section

variable (hn : Nests D.full.env nested) (ha : a.index < D.full.blocks.size)
  (hk : (D.full.blocks.block a).kind = .instructions) (hj : D.Joint P w v)
include hn ha hk hj

theorem follows_runBody {f k : Frame} (hnm : P.control n m) (hf : P.Matches (D.live a · = true) f k) :
    D.Follows P (runBody nested (D.full.blocks.block a) n f)
    (runBody nested (D.full.blocks.block a) m k) w v
      fun _ _ _ _ _ => True := by
  obtain ⟨hrun, -⟩ := D.charts.run ha hk
  unfold runBody
  rw [D.charts.id ha]
  refine (follows_snapshotMerge hj (hj.twins.sane.twin hnm) hf.same).bind
    fun P1 _ w1 _ v1 hle1 hj1 _ => ?_
  have hneed : ∀ x, D.need a (D.full.blocks.block a).start x → D.live a x = true :=
    fun x hx => Liveness.isLive_of_from (BlockMap.ofBody_inv D.fits.map).1 D.charts ha hk hx
  refine (follows_runCode (p := (D.full.blocks.block a).start) hn ha hk (Nat.le_refl _) ?_ hj1
    ⟨⟨rfl, rfl⟩, ⟨rfl, rfl⟩, (hf.mono hle1).weaken hneed, .some (hle1.control hnm)⟩ ?_).bind
    fun P2 x w2 y v2 hle2 hj2 h2 => ?_
  · cases hs : (D.full.blocks.block a).stop
    rw [hs] at hrun
    congr 1
    dsimp only at hrun ⊢
    omega
  · omega
  · obtain ⟨L, p', hpt, hreaches⟩ := h2
    have hsome : x.last.isSome = y.last.isSome := optionRel_isSome hpt.last
    rw [← hsome]
    split
    · next hx =>
      refine follows_read_bind ?_
      rw [D.fits.blocks]
      refine .chain (follows_demand hj2 fun c hc => ⟨c, hc, ?_⟩)
      refine (follows_jump hj2 hpt ((hreaches hx).live _ hc)).bind fun P4 _ w4 _ v4 _ hj4 _ => ?_
      exact follows_pure hj4 trivial
    · exact follows_pure hj2 trivial

theorem follows_instructionBlock : D.Follows P (instructionBlock nested (D.full.blocks.block a))
      (instructionBlock nested (D.full.blocks.block a)) w v fun _ _ _ _ _ => True := by
  rw [instructionBlock, D.charts.id ha]
  cases hh : (D.full.blocks.block a).loopHeader with
  | none =>
    have hset : ¬ D.Settled a true := not_settled a (by rw [Block.isLoopHeader, hh]; rfl)
    refine (follows_openBlock hj hset).bind fun P1 x w1 y v1 _ hj1 h1 => ?_
    exact follows_pure_bind (follows_runBody hn ha hk hj1 h1.1 h1.2.2.matches)
  | some l =>
    have hset : ¬ (D.opening a).Settled a true := fun h => h.2.2 rfl
    simp only [openHeader, bind_assoc, pure_bind]
    refine Follows.seq (C := D.opening a) rfl rfl (follows_openBlock (hj.opening) hset)
      fun P1 x w1 y v1 hle1 hj1 h1 => ?_
    refine Follows.seq (C := D.opening a) rfl rfl (follows_beginLoop hj1 h1.1 h1.2.1 h1.2.2)
      fun P2 f w2 k v2 hle2 hj2 h2 => ?_
    refine Follows.seq (C := D.opening a) rfl rfl (follows_entry hj2 fun e e' hee he _ => ?_)
      fun _ _ _ _ _ _ _ h => h
    refine (follows_settle hj2 he hee (h2.settled e.node)).bind fun P4 _ w4 _ v4 hle4 hj4 _ => ?_
    exact follows_runBody hn ha hk hj4 (hle4.control (hle2.control h1.1)) (h2.mono hle4).matches

end

theorem Joint.withExits {x y : Exits} (hj : D.Joint P w v)
    (hr : Option.Rel P.SameExit x.returned y.returned)
    (hu : Option.Rel P.SameExit x.unwound y.unwound) :
    D.Joint P { w with table := { w.table with exits := x } }
      { v with table := { v.table with exits := y } } :=
  { hj with tables := { hj.tables with returned := hr, unwound := hu } }

theorem follows_exitBlock (ha : a.index < D.full.blocks.size)
    (hk : (D.full.blocks.block a).kind = .exit) (hj : D.Joint P w v) :
    D.Follows P (exitBlock (D.full.blocks.block a)) (exitBlock (D.full.blocks.block a)) w v
      fun _ _ _ _ _ => True := by
  have hset : ¬ D.Settled a true :=
    not_settled a (D.charts.wayOut_not_header (.inl ((D.charts.exit ha).1 hk)))
  unfold exitBlock
  rw [D.charts.id ha]
  refine (follows_openBlock hj hset).bind fun P1 x w1 y v1 _ hj1 h1 => ?_
  rintro c w' ⟨⟩
  exact ⟨(), _, P1, rfl, .refl P1, hj1.withExits (.some ⟨h1.1, h1.2.2.same⟩) hj1.tables.unwound, trivial⟩

theorem follows_unwindBlock (ha : a.index < D.full.blocks.size)
    (hk : (D.full.blocks.block a).kind = .unwind) (hj : D.Joint P w v) :
    D.Follows P (unwindBlock (D.full.blocks.block a)) (unwindBlock (D.full.blocks.block a)) w v
      fun _ _ _ _ _ => True := by
  have hset : ¬ D.Settled a true :=
    not_settled a (D.charts.wayOut_not_header (.inr ((D.charts.unwind ha).1 hk)))
  unfold unwindBlock
  rw [D.charts.id ha]
  refine (follows_openBlock hj hset).bind fun P1 x w1 y v1 _ hj1 h1 => follows_read_bind ?_
  obtain ⟨n, f⟩ := x
  obtain ⟨m, k⟩ := y
  obtain ⟨hnm, -, hw⟩ := h1
  dsimp only at hnm hw ⊢
  rw [D.depth]
  split
  · refine (follows_snapshotMerge hj1 (hj1.twins.sane.twin hnm) hw.same).bind
      fun P2 _ w2 _ v2 hle2 hj2 _ => ?_
    have hpeek := (hw.same.mono hle2).peek?
    generalize f.peek? = o at hpeek
    generalize k.peek? = o' at hpeek
    cases hpeek with
    | none => exact follows_verify
    | some h =>
      refine (follows_addControl hj2 rfl rfl (.cons h.node .nil)).bind fun P3 s w3 t v3 hle3 hj3 h3 => ?_
      exact (follows_follow hj3 (hle3.control (hle2.control hnm)) h3.1).mono fun _ _ _ _ _ _ _ _ =>
        trivial
  · rintro c w' ⟨⟩
    exact ⟨(), _, P1, rfl, .refl P1, hj1.withExits hj1.tables.returned (.some ⟨hnm, hw.same⟩), trivial⟩

theorem follows_liftBlock (hn : Nests D.full.env nested) (htame : D.full.blocks.Tame)
    (ha : a.index < D.full.blocks.size) (hj : D.Joint P w v) :
    D.Follows P (liftBlock nested (D.full.blocks.block a)) (liftBlock nested (D.full.blocks.block a)) w v
      fun _ _ _ _ _ => True := by
  unfold liftBlock
  rw [D.charts.id ha]
  refine .chain (follows_entryAt hj fun o o' hent _ _ => ?_)
  have hsome : (o.bind (·.frame)).isSome = (o'.bind (·.frame)).isSome := by
    cases hent with
    | none => rfl
    | some h => exact optionRel_isSome h.frame
  rw [hsome]
  split
  · refine (follows_checkBudget hj).bind fun P2 _ w2 _ v2 _ hj2 _ => ?_
    cases hk : (D.full.blocks.block a).kind with
    | instructions => exact follows_instructionBlock hn ha hk hj2
    | dispatch handler next => exact follows_dispatchBlock htame hj2 ha hk
    | exit => exact follows_exitBlock ha hk hj2
    | unwind => exact follows_unwindBlock ha hk hj2
  · exact follows_pure hj trivial

/-! ## Entries -/

theorem Joint.addHeader {P' : Pairing} {w' v' : Work} (hj : D.Joint P w v) (hj' : D.Joint P' w' v')
    (hb : (D.full.blocks.block b).isLoopHeader = true) (hm : Made P P' w v w' v' n)
    (hnm : P'.control n m) : D.Joint P' { w' with table := w'.table.put b { node := n } }
      { v' with table := v'.table.put b { node := m } } := by
  have hold : ∀ {c x}, w'.table.slot? c = some x → x.node ≠ n := by
    rintro c x hx rfl
    rw [hm.kept.full] at hx
    exact absurd (hj.lt_count hx) (Nat.not_lt.2 hm.fresh)
  have hhush : ¬ D.hush n := fun hx => absurd (hj.hushLt hx) (Nat.not_lt.2 hm.fresh)
  have hnew : D.SameEntry P' b { node := n } { node := m } := ⟨hnm, rfl, fun h => (by cases h), .none⟩
  refine ⟨hj'.twins, hj'.tables.put hnew, hj'.callers, hj'.hush, hj'.hushLt, fun hx hf => ?_,
    fun hx hf => ?_,
    fun hx hy hf hf' heq => ?_, hj'.report, hj'.consulted⟩
  · rcases Table.slot?_put_cases hx with ⟨-, rfl⟩ | ⟨-, hx⟩
    · exact ⟨hm.unreached, hhush⟩
    · exact hj'.await hx hf
  · rcases Table.slot?_put_cases hx with ⟨rfl, rfl⟩ | ⟨-, hx⟩
    · exact hb
    · exact hj'.header hx hf
  · rcases Table.slot?_put_cases hx with ⟨hc, rfl⟩ | ⟨-, hx'⟩ <;>
      rcases Table.slot?_put_cases hy with ⟨hc', rfl⟩ | ⟨-, hy'⟩
    · exact hc.trans hc'.symm
    · exact absurd heq.symm (hold hy')
    · exact absurd heq (hold hx')
    · exact hj'.distinct hx' hy' hf hf' heq

theorem follows_createLoopHeaders (hj : D.Joint P w v) :
    D.Follows P createLoopHeaders createLoopHeaders w v fun _ _ _ _ _ => True := by
  refine follows_read_bind ?_
  dsimp only
  rw [D.fits.blocks]
  refine (follows_forIn (j := 0) (fun _ _ (l l' : Nat) => l' = l) (fun _ h => h)
    (fun {P1 w1 v1 i l l'} hle hj1 hl => ?_) hj
    (along_of_forall₂ (List.forall₂_same.2 fun _ _ => rfl))).bind fun _ _ _ _ _ _ hj' _ =>
      follows_pure hj' trivial
  subst hl
  refine .chain (follows_demand hj1 fun c hc => ⟨c, hc, ?_⟩)
  have hhead := (D.charts.header (D.charts.headerOf hc).1).2 hc
  refine (follows_addControl hj1 rfl rfl .nil).bind fun P3 n w3 m v3 hle3 hj3 h3 => ?_
  have hj4 := hj1.addHeader hj3 (by rw [Block.isLoopHeader, hhead]; rfl) h3.2 h3.1
  rintro x w' ⟨⟩
  refine ⟨_, _, P3, rfl, .refl P3, { hj4 with tables := { hj4.tables with headers := ?_, marks := ?_ } },
    rfl, rfl⟩
  · simpa using List.rel_append hj3.tables.headers (.cons h3.1 .nil)
  · simpa using List.rel_append hj3.tables.marks (.cons .none .nil)

theorem follows_setStart (hj : D.Joint P w v) (hnm : P.control n m) :
    D.Follows P (changeGraph fun g => .ok ((), g.setStart n)) (changeGraph fun g =>
      .ok ((), g.setStart m)) w v
      fun _ _ w' _ v' => True ∧ Kept w v w' v' := by
  refine follows_changeGraph (R := fun _ _ _ _ => True) hj ?_
  rintro a g ⟨⟩
  exact ⟨(), _, P, rfl, .refl P, hj.twins.setStart hnm, id, trivial⟩

theorem follows_connectEntry (hj : D.Joint P w v)
    (hf : P.Matches (fun _ => True) f k) (ho : Option.Rel P.control o o') :
    D.Follows P (connectEntry f o) (connectEntry k o') w v fun _ _ _ _ _ => True := by
  unfold connectEntry
  refine follows_read_bind ?_
  refine (follows_addJoin hj rfl rfl).bind fun P1 n w1 m v1 hle1 hj1 h1 => ?_
  obtain ⟨hnm, hr, hapart, -⟩ := h1
  have hf1 : P1.Matches (D.live ⟨0⟩ · = true) f k := (hf.mono hle1).weaken fun _ _ => trivial
  have hrest : ∀ {P2 w2 v2}, P1.Le P2 → D.Joint P2 w2 v2 →
      D.Follows P2 (enterFirst D.full f n) (enterFirst D.pruned k m) w2 v2 fun _ _ _ _ _ => True := by
    intro P2 w2 v2 hle2 hj2
    unfold enterFirst
    rw [D.fits.blocks, D.prune_full, D.prune_pruned]
    split
    · refine (follows_addLoopEntry hj2 (hf1.mono hle2)).bind fun P3 s w3 t v3 hle3 hj3 h3 => ?_
      exact (follows_follow hj3 (hle3.control (hle2.control hnm)) h3).mono fun _ _ _ _ _ _ _ _ => trivial
    · next hb =>
      have hset : ¬ D.Settled ⟨0⟩ false := not_settled _ (by simpa using hb)
      have hnew : D.SameEntry P2 ⟨0⟩ ⟨n, some f, false⟩ ⟨m, some (k.keepLive (D.live ⟨0⟩)), false⟩ :=
        ⟨hle2.control hnm, rfl, fun _ => hle2.reached hr,
          .some ((hf1.waits hj1.twins.sane hset hapart).mono hle2)⟩
      exact (follows_setEntry hj2 hnew rfl).mono fun _ _ _ _ _ _ _ _ => trivial
  cases ho with
  | some h =>
    exact (follows_follow hj1 (hle1.control h) hnm).bind fun P2 _ w2 _ v2 hle2 hj2 _ => hrest hle2 hj2
  | none =>
    refine (follows_setStart hj1 hnm).bind fun P2 _ w2 _ v2 hle2 hj2 _ => ?_
    exact (follows_attachSnapshot hj2 (hj2.twins.sane.twin (hle2.control hnm)) (hf1.mono hle2).same).bind
      fun P3 _ w3 _ v3 hle3 hj3 _ => hrest (hle2.trans hle3) hj3

/-! ## Methods -/

theorem follows_parseWith (hn : Nests D.full.env nested)
    (htame : D.full.blocks.Tame) (hj : D.Joint P w v) (hf : P.Matches (fun _ => True) f k)
    (ho : Option.Rel P.control o o') :
    D.Follows P (parseWith nested f o) (parseWith nested k o') w v fun P' x _ y _ =>
      Option.Rel P'.SameExit x.returned y.returned ∧ Option.Rel P'.SameExit x.unwound y.unwound := by
  refine Follows.bind (R := fun P' _ _ _ _ => P' = P) ?_ fun P0 _ w0 _ v0 _ hj0 h0 => ?_
  · rintro _ _ ⟨⟩
    exact ⟨(), _, P, rfl, .refl P, { hj with }, rfl⟩
  subst h0
  unfold followBlocks
  refine (follows_createLoopHeaders hj0).bind fun P1 _ w1 _ v1 hle1 hj1 _ => ?_
  refine (follows_connectEntry hj1 (hf.mono hle1) (optionRel_imp ho fun _ _ h => hle1.control h)).bind
    fun P2 _ w2 _ v2 hle2 hj2 _ => follows_read_bind ?_
  rw [D.fits.blocks]
  rw [← Array.forIn_toList]
  refine (follows_forIn (j := 0) (fun _ _ (x y : Block) => y = x ∧ x ∈ D.full.blocks.blocks.toList)
    (fun _ h => h)
    (fun {P3 w3 v3 i x y} _ hj3 hxy => ?_) hj2
      (along_of_forall₂ (List.forall₂_same.2 fun x hx => ⟨rfl, hx⟩))).bind
    fun P4 _ w4 _ v4 _ hj4 _ => ?_
  · obtain ⟨rfl, hx⟩ := hxy
    obtain ⟨a, ha, rfl⟩ : ∃ a : BlockId, a.index < D.full.blocks.size ∧ y = D.full.blocks.block a := by
      obtain ⟨a, hlt, hget⟩ := List.getElem_of_mem hx
      have hlt' : a < D.full.blocks.blocks.size := by simpa using hlt
      refine ⟨⟨a⟩, hlt', ?_⟩
      rw [← hget, Array.getElem_toList, BlockMap.block, Array.getElem?_eq_getElem hlt', Option.getD_some]
    refine (follows_liftBlock hn htame ha hj3).bind fun P5 _ w5 _ v5 _ hj5 _ => ?_
    exact follows_pure hj5 ⟨rfl, rfl⟩
  · exact follows_get_bind (follows_pure hj4 ⟨hj4.tables.returned, hj4.tables.unwound⟩)

theorem follows_ifTame {α β : Type} {act : BuildM α} {bct : BuildM β}
    {R : Pairing → α → Work → β → Work → Prop}
    (h : D.full.blocks.Tame → D.Follows P act bct w v R) :
    D.Follows P (ifTame act) (ifTame bct) w v R := by
  refine follows_read_bind ?_
  split
  · next htame =>
    rw [if_pos (D.fits.blocks ▸ htame)]
    exact h (BlockMap.tame_of_isTame htame)
  · rintro _ _ ⟨⟩

theorem follows_parseTame (hcalls : env.plugins.calls = []) (levels : Nat) :
    ParserFollows env (parseTame levels) := by
  induction levels with
  | zero =>
    rintro D P w v f k o o' rfl hj hf ho
    exact follows_ifTame fun htame => follows_parseWith ⟨hcalls, fun _ h => by cases h⟩ htame hj hf ho
  | succ levels ih =>
    rintro D P w v f k o o' rfl hj hf ho
    refine follows_ifTame fun htame => follows_parseWith ⟨hcalls, fun _ h => ?_⟩ htame hj hf ho
    cases h
    exact ih

end Blocks

end Duo

end StackLift
