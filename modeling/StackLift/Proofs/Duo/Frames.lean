import StackLift.Proofs.Duo.Follows

/-!
# Frames of two builds

What the operations on frames keep of `Pairing.Matches`: the stack and the monitors are the same in
both builds, and so are the locals that are needed. A local may be lost in the pruned build only where
nobody needs it, so a load finds what it looks for (`follows_load`), and a store brings a local back
(`Matches.store`). Where a frame arrives at a block first, pruning it makes it wait there
(`Matches.waits`).
-/
namespace StackLift

variable {c d x : Nat} {a b : Option Value} {s : Prop}

namespace Pairing

variable {P Q : Pairing} {L L' : Nat → Prop} {f k g j : Frame} {v v' : Value} {live : Nat → Bool}
  {node : NodeId}

/-! ## Slots -/

theorem SameFrame.local? (h : P.SameFrame f k) (x : Nat) : P.SameLocal (f.local? x) (k.local? x) := by
  unfold Frame.local?
  have hl := h.locals
  generalize f.locals = l at hl
  generalize k.locals = l' at hl
  induction hl generalizing x with
  | nil => exact .none
  | cons h _ ih =>
    cases x with
    | zero => exact h
    | succ x => simpa using ih x

theorem sameFrame_of (hlen : f.locals.length = k.locals.length)
    (hl : ∀ x, P.SameLocal (f.local? x) (k.local? x)) (hs : List.Forall₂ P.SameValue f.stack k.stack)
    (hm : List.Forall₂ P.SameValue f.monitors k.monitors) : P.SameFrame f k := by
  refine ⟨?_, hs, hm⟩
  refine Duo.Along.forall₂ (j := 0) (Duo.along_iff.2 ⟨hlen, fun i a b ha hb => ?_⟩)
  have := hl i
  unfold Frame.local? at this
  rwa [ha, hb] at this

theorem SameFrame.length (h : P.SameFrame f k) : f.locals.length = k.locals.length := h.locals.length_eq

theorem SameLocal.rel (h : P.SameLocal a b) (hab : b = Option.none → a = Option.none) :
    Option.Rel P.SameValue a b := by
  cases h with
  | both h => exact .some h
  | lost h => cases hab rfl
  | none => exact .none

theorem sameLocal_of_rel (h : Option.Rel P.SameValue a b) : P.SameLocal a b := by
  cases h with
  | some h => exact .both h
  | none => exact .none

theorem Matches.rel (h : P.Matches L f k) (hx : L x) : Option.Rel P.SameValue (f.local? x)
    (k.local? x) := (h.same.local? x).rel (h.agree x hx)

/-- What one slot holds in both builds, if the slots of `L` are needed. -/
def Keeps (P : Pairing) (L : Nat → Prop) (x : Nat) (o o' : Option Value) : Prop :=
  P.SameLocal o o' ∧ (L x → o' = none → o = none)

theorem matches_iff : P.Matches L f k ↔ Duo.Along (P.Keeps L) 0 f.locals k.locals ∧
    List.Forall₂ P.SameValue f.stack k.stack ∧ List.Forall₂ P.SameValue f.monitors k.monitors := by
  constructor
  · intro h
    refine ⟨Duo.along_iff.2 ⟨h.same.length, fun i a b ha hb => ?_⟩, h.same.stack, h.same.monitors⟩
    have h1 := h.same.local? i
    have h2 := h.agree i
    unfold Frame.local? at h1 h2
    rw [ha, hb] at h1 h2
    rw [Nat.zero_add]
    exact ⟨h1, h2⟩
  · rintro ⟨hl, hs, hm⟩
    obtain ⟨hlen, hall⟩ := Duo.along_iff.1 hl
    have hslot : ∀ x, P.Keeps L x (f.local? x) (k.local? x) := by
      intro x
      unfold Frame.local?
      by_cases hx : x < f.locals.length
      · have hx' : x < k.locals.length := hlen ▸ hx
        have := hall x _ _ (List.getElem?_eq_getElem hx) (List.getElem?_eq_getElem hx')
        rw [List.getElem?_eq_getElem hx, List.getElem?_eq_getElem hx']
        simpa using this
      · rw [List.getElem?_eq_none (Nat.not_lt.1 hx), List.getElem?_eq_none (hlen ▸ Nat.not_lt.1 hx)]
        exact ⟨.none, fun _ _ => rfl⟩
    exact ⟨sameFrame_of hlen (fun x => (hslot x).1) hs hm, fun x hx hk => (hslot x).2 hx hk⟩

/-! ## Operations -/

theorem Matches.withStack {s s' : List Value} (h : P.Matches L f k) (hs : List.Forall₂ P.SameValue s s') :
    P.Matches L { f with stack := s } { k with stack := s' } :=
    ⟨⟨h.same.locals, hs, h.same.monitors⟩, h.agree⟩

section

variable (h : P.Matches L f k) (hv : P.SameValue v v')
include h hv

theorem Matches.push : P.Matches L (f.push v) (k.push v') :=
  h.withStack (.cons hv h.same.stack)

theorem Matches.raising : P.Matches L (f.raising v) (k.raising v') :=
  h.withStack (.cons hv .nil)

theorem Matches.enterMonitor : P.Matches L (f.enterMonitor v) (k.enterMonitor v') :=
  ⟨⟨h.same.locals, h.same.stack, .cons hv h.same.monitors⟩, h.agree⟩

end

theorem local?_set {y : Nat} (hx : x < f.locals.length) :
    ({ f with locals := f.locals.set x (some v) } : Frame).local? y =
      if x = y then some v else f.local? y := by
  unfold Frame.local?
  rw [List.getElem?_set]
  by_cases h : x = y
  · subst h
    simp [hx]
  · simp [h]

theorem Matches.store (h : P.Matches L f k) (hv : P.SameValue v v') (hx : x < f.locals.length)
    (hL : ∀ y, L' y → L y ∨ x = y) : P.Matches L' { f with locals := f.locals.set x (some v) }
    { k with locals := k.locals.set x (some v') } := by
  have hx' : x < k.locals.length := h.same.length ▸ hx
  refine ⟨sameFrame_of (by simpa using h.same.length) (fun y => ?_) h.same.stack h.same.monitors,
    fun y hy hk => ?_⟩
  · rw [local?_set hx, local?_set hx']
    split
    · exact .both hv
    · exact h.same.local? y
  · rw [local?_set hx'] at hk
    rw [local?_set hx]
    split at hk
    · cases hk
    · next hne =>
      rw [if_neg hne]
      exact h.agree y ((hL y hy).resolve_right hne) hk

theorem local?_keepLive (x : Nat) :
    (k.keepLive live).local? x = if live x = true then k.local? x else none := by
  unfold Frame.local? Frame.keepLive
  rw [List.getElem?_map, List.getElem?_zipIdx]
  cases hk : k.locals[x]? with
  | none => simp
  | some o =>
    simp only [Option.map_some, Nat.zero_add]
    by_cases h : live x = true
    · simp [h]
    · simp [h]

theorem SameFrame.lt_count (h : P.SameFrame f k) (hs : P.Sane c d) (hv : f.local? x = some v) :
    v.node.index < P.count := by
  have hl := h.local? x
  rw [hv] at hl
  generalize k.local? x = o at hl
  cases hl with
  | both h => exact hs.count ▸ (hs.lt h.node).1
  | lost h => exact h

theorem Waits.move {node' : NodeId} {s' : Prop} (hs : P.Sane c d)
    (h : P.Waits live node s f k) (hle : P.Le Q) (hset : ¬ s')
    (hapart : ∀ n : NodeId, n.index < P.count → Q.apart n node') : Q.Waits live node' s' f k :=
  ⟨h.same.mono hle, h.agree, h.live, fun _ _ hf _ => .inr ⟨hset, hapart _ (h.same.lt_count hs hf)⟩,
    fun h => absurd h hset⟩

theorem Matches.waits (hs : P.Sane c d) (h : P.Matches (live · = true) f k) (hset : ¬ s)
    (hapart : ∀ n : NodeId, n.index < P.count → P.apart n node) :
    P.Waits live node s f (k.keepLive live) := by
  have hlt : ∀ x u, f.local? x = some u → u.node.index < P.count := fun x u hu => h.same.lt_count hs hu
  refine ⟨sameFrame_of ?_ (fun x => ?_) h.same.stack h.same.monitors, fun x hx hk => ?_, fun x u hk => ?_,
    fun x u hu _ => .inr ⟨hset, hapart _ (hlt x u hu)⟩, fun hs => absurd hs hset⟩
  · simpa [Frame.keepLive] using h.same.length
  · rw [local?_keepLive]
    split
    · exact h.same.local? x
    · cases hu : f.local? x with
      | none => exact .none
      | some u => exact .lost (hlt x u hu)
  · rw [local?_keepLive, if_pos hx] at hk
    exact h.agree x hx hk
  · rw [local?_keepLive] at hk
    split at hk
    · assumption
    · cases hk

theorem matches_of_args {n : Nat} {args args' : List Value} (h : List.Forall₂ P.SameValue args args')
    (hf : Frame.withArgs n args = .ok f) (hk : Frame.withArgs n args' = .ok k) : P.Matches L f k := by
  have hlen := h.length_eq
  unfold Frame.withArgs at hf hk
  split at hf
  · cases hf
  · split at hk
    · cases hk
    · cases hf
      cases hk
      have hrel : List.Forall₂ (Option.Rel P.SameValue)
        (args.map some ++ List.replicate (n - args.length) none)
          (args'.map some ++ List.replicate (n - args'.length) none) := by
        rw [hlen]
        refine List.rel_append (List.forall₂_map_left_iff.2 (List.forall₂_map_right_iff.2 ?_)) ?_
        · exact h.imp fun _ _ h => .some h
        · exact List.forall₂_same.2 fun o ho => (List.eq_of_mem_replicate ho) ▸ .none
      have hsame : P.SameFrame { locals := args.map some ++ List.replicate (n - args.length) none }
          { locals := args'.map some ++ List.replicate (n - args'.length) none } :=
        ⟨hrel.imp fun _ _ h => sameLocal_of_rel h, .nil, .nil⟩
      refine ⟨hsame, fun x _ hx => ?_⟩
      have hget : ∀ (l l' : List (Option Value)), List.Forall₂ (Option.Rel P.SameValue) l l' →
          ∀ i : Nat, l'[i]?.join = none → l[i]?.join = none := by
        intro l l' hll
        induction hll with
        | nil => exact fun _ _ => rfl
        | cons h _ ih =>
          intro i hi
          cases i with
          | zero =>
            cases h with
            | some h => cases hi
            | none => rfl
          | succ i => simpa using ih i (by simpa using hi)
      exact hget _ _ hrel x hx

theorem SameFrame.peek? (h : P.SameFrame f k) : Option.Rel P.SameValue f.peek? k.peek? := by
  have hs := h.stack
  unfold Frame.peek?
  generalize f.stack = l at hs
  generalize k.stack = l' at hs
  cases hs with
  | nil => exact .none
  | cons h _ => exact .some h

theorem SameFrame.monitorDepth (h : P.SameFrame f k) : f.monitorDepth = k.monitorDepth :=
  h.monitors.length_eq

/-! ## Frames that meet -/

theorem sameKinds {l l' : List Value} (h : List.Forall₂ P.SameValue l l') :
    l.map (·.kind) = l'.map (·.kind) := by
  induction h with
  | nil => rfl
  | cons h _ ih => simp [h.kind, ih]

theorem kindClash?_eq (f g : Frame) : f.kindClash? g =
    (((f.stack.map (·.kind)).reverse.zip (g.stack.map (·.kind)).reverse).zipIdx.findSome? fun x =>
      if x.1.1 = x.1.2 then none else some (.mergeKind x.2 x.1.1 x.1.2)) := by
  unfold Frame.kindClash?
  rw [← List.map_reverse, ← List.map_reverse, List.zip_map, List.zipIdx_map, List.findSome?_map]
  rfl

theorem SameFrame.checkCompatible {p : Position} (h : P.SameFrame f k) (h' : P.SameFrame g j) :
    f.checkCompatible p g = k.checkCompatible p j := by
  have hclash : f.clash? g = k.clash? j := by
    unfold Frame.clash? Frame.depth
    rw [kindClash?_eq, kindClash?_eq, h.monitorDepth, h'.monitorDepth, sameKinds h.stack,
      sameKinds h'.stack,
      h.stack.length_eq, h'.stack.length_eq]
  unfold Frame.checkCompatible
  rw [hclash]

/-! ## Looking at values -/

section Values

variable {g h : Graph} {n m x y : NodeId}

theorem Twins.isPhiOf (ht : P.Twins g h) (hn : P.twin n m) (hx : P.twin x y) :
    BuildM.isPhiOf g n x = BuildM.isPhiOf h m y := by
  have hk := ht.kind hn
  unfold BuildM.isPhiOf
  generalize g.kind? n = a at hk
  generalize h.kind? m = b at hk
  cases hk with
  | none => rfl
  | some hk =>
    cases hk with
    | phi h => simp only [ht.sane.eq_iff h hx]
    | loopEnd h => rfl
    | loopExit h => rfl
    | proxy h => rfl
    | same h =>
      rename_i k
      cases k with
      | phi z => cases h
      | _ => rfl

theorem Twins.definedInLoop {c d : Option Nat} (ht : P.Twins g h) (hn : P.twin n m) (hx : P.twin x y)
    (hcd : Option.Rel P.cut c d) : BuildM.definedInLoop g n x c = BuildM.definedInLoop h m y d := by
  have hk := ht.kind hn
  have hany : (c.any fun a => decide (a ≤ n.index)) = d.any fun a => decide (a ≤ m.index) :=
    optionRel_any hcd fun a b hab => decide_eq_decide.2 ((ht.sane.cut hab).2.2 hn)
  have hphi : ∀ {k k' : NodeKind}, k.Twin P.twin k' → (k == .phi x) = (k' == .phi y) := by
    intro k k' hkk
    refine Bool.eq_iff_iff.2 ?_
    rw [beq_iff_eq, beq_iff_eq]
    cases hkk with
    | phi h => rw [NodeKind.phi.injEq, NodeKind.phi.injEq, ht.sane.eq_iff h hx]
    | loopEnd h => simp
    | loopExit h => simp
    | proxy h => simp
    | same h =>
      constructor <;> (rintro rfl; cases h)
  unfold BuildM.definedInLoop
  generalize g.kind? n = a at hk
  generalize h.kind? m = b at hk
  cases hk with
  | none => rfl
  | some hk => simp only [hk.isUniversal, hphi hk, hany]

end Values

/-! ## Points -/

/-- Control stands in block `b` at `p` in both builds; the locals of `L` are needed. -/
structure SamePoint (P : Pairing) (L : Nat → Prop) (b : BlockId) (p : Position) (q r : Point) : Prop where
  block : q.block = b ∧ r.block = b
  position : q.position = p ∧ r.position = p
  frame : P.Matches L q.frame r.frame
  last : Option.Rel P.control q.last r.last

section Points

variable {b : BlockId} {p : Position} {q r : Point}

section

variable (h : P.SamePoint L b p q r)
include h

theorem SamePoint.mono (hle : P.Le Q) : Q.SamePoint L b p q r :=
  ⟨h.block, h.position, h.frame.mono hle, optionRel_imp h.last fun _ _ h => hle.control h⟩

theorem SamePoint.weaken (hL : ∀ x, L' x → L x) : P.SamePoint L' b p q r :=
  ⟨h.block, h.position, h.frame.weaken hL, h.last⟩

theorem SamePoint.push (hv : P.SameValue v v') : P.SamePoint L b p (q.push v) (r.push v') :=
  ⟨h.block, h.position, h.frame.push hv, h.last⟩

theorem SamePoint.withFrame (hf : P.Matches L' f k) :
    P.SamePoint L' b p { q with frame := f } { r with frame := k } := ⟨h.block, h.position, hf, h.last⟩

theorem SamePoint.withLast {o o' : Option NodeId} (ho : Option.Rel P.control o o') :
    P.SamePoint L b p { q with last := o } { r with last := o' } := ⟨h.block, h.position, h.frame, ho⟩

end

end Points

end Pairing

namespace Duo

open BuildM

variable {busy : Option BlockId} {D : Duo busy} {P : Pairing} {w v : Work} {L L' : Nat → Prop}
  {b : BlockId} {p : Position} {q r : Point}
  {α : Type}

section

variable (hj : D.Joint P w v)
include hj

theorem follows_onFrame {act bct : FrameM α} {R : Pairing → α × Point → Work → α × Point → Work → Prop}
    (h : ∀ a f, act.run q.frame = .ok a f → ∃ b k, bct.run r.frame = .ok b k ∧
      R P (a, { q with frame := f }) w (b, { r with frame := k }) v) :
    D.Follows P (q.onFrame act) (r.onFrame bct) w v R := by
  unfold Point.onFrame
  cases ha : act.run q.frame with
  | error e f => exact follows_throw
  | ok a f =>
    obtain ⟨b, k, hb, hr⟩ := h a f ha
    rw [hb]
    exact follows_pure hj hr

section

variable (hq : P.SamePoint L b p q r) {slot : Nat}
include hq

theorem follows_pop :
    D.Follows P q.pop r.pop w v fun P' x _ y _ => P'.SameValue x.1 y.1 ∧ P'.SamePoint L b p x.2 y.2 := by
  refine follows_onFrame hj fun a f ha => ?_
  have hs := hq.frame.same.stack
  rw [Frame.run_pop] at ha ⊢
  generalize q.frame.stack = l at ha hs
  generalize r.frame.stack = l' at hs ⊢
  cases hs with
  | nil => cases ha
  | cons hu hrest =>
    cases ha
    exact ⟨_, _, rfl, hu, hq.withFrame (hq.frame.withStack hrest)⟩

theorem follows_popKind {kind : ValueKind} :
    D.Follows P (q.popKind kind) (r.popKind kind) w v fun P' x _ y _ =>
      P'.SameValue x.1 y.1 ∧ P'.SamePoint L b p x.2 y.2 := by
  refine follows_onFrame hj fun a f ha => ?_
  have hs := hq.frame.same.stack
  rw [Frame.run_popKind] at ha ⊢
  generalize q.frame.stack = l at ha hs
  generalize r.frame.stack = l' at hs ⊢
  cases hs with
  | nil => cases ha
  | cons hu hrest =>
    simp only at ha
    split at ha
    · next hkind =>
      cases ha
      exact ⟨_, _, if_pos (hu.kind ▸ hkind), hu, hq.withFrame (hq.frame.withStack hrest)⟩
    · cases ha

theorem follows_load (hs : L slot) :
    D.Follows P (q.onFrame (Frame.loadLocal p slot)) (r.onFrame (Frame.loadLocal p slot)) w v
      fun P' x _ y _ => P'.SameValue x.1 y.1 ∧ P'.SamePoint L b p x.2 y.2 := by
  refine follows_onFrame hj fun a f ha => ?_
  have hrel := hq.frame.rel hs
  rw [Frame.run_loadLocal] at ha ⊢
  generalize q.frame.local? slot = o at ha hrel
  generalize r.frame.local? slot = o' at hrel ⊢
  cases hrel with
  | none => cases ha
  | some hu =>
    cases ha
    exact ⟨_, _, rfl, hu, hq⟩

theorem follows_store {u u' : Value} (hu : P.SameValue u u') (hL : ∀ y, L' y → L y ∨ slot = y) :
    D.Follows P (q.onFrame (Frame.storeLocal p slot u)) (r.onFrame (Frame.storeLocal p slot u')) w v
      fun P' x _ y _ => P'.SamePoint L' b p x.2 y.2 := by
  refine follows_onFrame hj fun a f ha => ?_
  rw [Frame.run_storeLocal] at ha ⊢
  split at ha
  · next hlt =>
    cases ha
    rw [if_pos (hq.frame.same.length ▸ hlt)]
    exact ⟨(), _, rfl, hq.withFrame (hq.frame.store hu hlt hL)⟩
  · cases ha

theorem follows_exitMonitor :
    D.Follows P (q.onFrame (Frame.exitMonitor p)) (r.onFrame (Frame.exitMonitor p)) w v
      fun P' x _ y _ => P'.SamePoint L b p x.2 y.2 := by
  refine follows_onFrame hj fun a f ha => ?_
  have hm := hq.frame.same.monitors
  rw [Frame.run_exitMonitor] at ha ⊢
  generalize q.frame.monitors = l at ha hm
  generalize r.frame.monitors = l' at hm ⊢
  cases hm with
  | nil => cases ha
  | cons _ hrest =>
    cases ha
    exact ⟨_, _, rfl, hq.withFrame ⟨⟨hq.frame.same.locals, hq.frame.same.stack, hrest⟩, hq.frame.agree⟩⟩

theorem follows_takeLast : D.Follows P q.takeLast r.takeLast w v fun P' x _ y _ =>
      P'.control x.1 y.1 ∧ P'.SamePoint L b p x.2 y.2 ∧ x.2.last = none := by
  refine follows_read_bind ((follows_demandRel (R := fun P' a _ b _ => P'.control a b) hj hq.last
    fun _ _ h _ _ => h).bind fun P1 a w1 c v1 hle hj1 hac => ?_)
  exact follows_pure hj1 ⟨hac, (hq.mono hle).withLast .none, rfl⟩

theorem follows_append {k : NodeKind} {I I' : List NodeId}
    (hk : k.anchor? = none) (hc : k.isControl = true) (hI : List.Forall₂ P.twin I I') :
    D.Follows P (q.append k I) (r.append k I') w v fun P' x _ y _ =>
      P'.control x.1 y.1 ∧ P'.SamePoint L b p x.2 y.2 := by
  refine (follows_takeLast hj hq).bind fun P1 x w1 y v1 hle hj1 hxy => ?_
  refine (follows_addControl hj1 hk hc (hI.imp fun _ _ h => hle.twin h)).bind
    fun P2 n w2 m v2 hle2 hj2 hnm => ?_
  refine (follows_follow hj2 (hle2.control hxy.1) hnm.1).bind fun P3 _ w3 _ v3 hle3 hj3 _ => ?_
  refine follows_pure hj3 ⟨hle3.control hnm.1, ?_⟩
  exact ((hxy.2.1.mono hle2).mono hle3).withLast (.some (hle3.control hnm.1))

end

end

/-- Control goes on at the same point in both builds. -/
abbrev Tracks (D : Duo busy) (P : Pairing) (L : Nat → Prop) (b : BlockId) (p : Position)
    (act bct : BuildM Point)
    (w v : Work) : Prop := D.Follows P act bct w v fun P' x _ y _ => P'.SamePoint L b p x y

/-- Control has left the block in both builds. -/
abbrev Parts (D : Duo busy) (P : Pairing) (L : Nat → Prop) (b : BlockId) (p : Position)
    (act bct : BuildM Point)
    (w v : Work) : Prop := D.Follows P act bct w v fun P' x _ y _ =>
      P'.SamePoint L b p x y ∧ x.last = none

theorem follows_deoptimize {reason : DeoptReason} (hj : D.Joint P w v)
    (hq : P.SamePoint L b p q r) : D.Tracks P L b p (q.deoptimize reason) (r.deoptimize reason) w v := by
  unfold Point.deoptimize
  rw [hq.position.1, hq.position.2]
  refine (follows_addDeopt hj hq.frame.same).bind fun P1 n w1 m v1 hle hj1 hnm => ?_
  refine (follows_takeLast hj1 (hq.mono hle)).bind fun P2 x w2 y v2 hle2 hj2 hxy => ?_
  refine (follows_follow hj2 hxy.1 (hle2.control hnm)).bind fun P3 _ w3 _ v3 hle3 hj3 _ => ?_
  exact follows_pure hj3 (hxy.2.1.mono hle3)

end Duo

end StackLift
