import StackLift.Proofs.Duo.Targets

/-!
# Instructions of two builds

The pruned build follows the full one through every instruction but a call. Before an instruction the
two frames agree on the slots that the code from there on needs; `Liveness.Serves` says that this is
enough for the instruction, for every place that control goes on at, and for the code behind it.
-/
namespace StackLift

namespace Duo

open BuildM

variable {D : Duo none} {P : Pairing} {w v : Work} {L L' : Nat → Prop} {b : BlockId}
  {p : Position} {q r : Point} {op : ArithOp}

/-! ## What the builds have in common -/

protected theorem id (D : Duo none) : D.pruned.id = D.full.id := congrArg MethodDecl.id D.fits.method

theorem depth (D : Duo none) : D.pruned.depth = D.full.depth := by
  unfold Scope.depth
  rw [D.fits.chain]

theorem observes (D : Duo none) (p : Position) : D.pruned.observes p = D.full.observes p := by
  unfold Scope.observes
  rw [D.fits.handles, D.fits.blocks]

theorem mayThrow (D : Duo none) (p : Position) : D.pruned.mayThrow p = D.full.mayThrow p := by
  unfold Scope.mayThrow
  rw [D.fits.env, D.id]

theorem branchProbability (D : Duo none) (p : Position) :
    D.pruned.branchProbability p = D.full.branchProbability p := by
  unfold Scope.branchProbability
  rw [D.fits.env, D.id]

theorem switchProbabilities (D : Duo none) (p : Position) (count : Nat) :
    D.pruned.switchProbabilities p count = D.full.switchProbabilities p count := by
  unfold Scope.switchProbabilities
  rw [D.fits.env, D.id]

theorem needsZeroCheck (D : Duo none) (op : ArithOp) (p : Position) :
    BuildM.needsZeroCheck D.pruned op p = BuildM.needsZeroCheck D.full op p := by
  unfold BuildM.needsZeroCheck
  rw [D.observes, D.mayThrow]

/-! ## Values -/

theorem follows_compute {k : NodeKind} {I I' : List NodeId} {kind : ValueKind} (hj : D.Joint P w v)
    (hq : P.SamePoint L b p q r) (hk : k.anchor? = none) (hI : List.Forall₂ P.twin I I') :
    D.Tracks P L b p (do return q.push ⟨← addNode k I, kind⟩) (do return r.push ⟨← addNode k I',
      kind⟩) w v := by
  refine (follows_addData hj hk hI).bind fun P1 n w1 m v1 hle1 hj1 h1 => ?_
  exact follows_pure hj1 ((hq.mono hle1).push ⟨h1.1, rfl⟩)

theorem follows_unary (hj : D.Joint P w v) (hq : P.SamePoint L b p q r) :
    D.Tracks P L b p (unary op q) (unary op r) w v := by
  refine (follows_popKind hj hq).bind fun P1 x w1 y v1 hle1 hj1 h1 => ?_
  exact follows_compute hj1 h1.2 rfl (.cons h1.1.node .nil)

theorem follows_zeroCheck {x y : Value} (hj : D.Joint P w v)
    (hq : P.SamePoint L b p q r) (hx : P.SameValue x y)
    (hL : ∀ s, D.live ((D.full.blocks.dispatchAt? p).getD D.full.blocks.unwindBlock) s = true → L s) :
    D.Tracks P L b p (zeroCheck x q) (zeroCheck y r) w v := by
  refine (follows_addData hj rfl .nil).bind fun P1 z w1 z' v1 hle1 hj1 h1 => ?_
  refine (follows_addData hj1 rfl (.cons (hle1.twin hx.node) (.cons h1.1 .nil))).bind
    fun P2 c w2 c' v2 hle2 hj2 h2 => ?_
  refine (follows_append hj2 (hq.mono (hle1.trans hle2)) rfl rfl (.cons h2.1 .nil)).bind
    fun P3 s w3 s' v3 hle3 hj3 h3 => ?_
  obtain ⟨split, pt⟩ := s
  obtain ⟨split', pt'⟩ := s'
  obtain ⟨hs, hpt⟩ := h3
  dsimp only at hs hpt ⊢
  rw [hpt.position.1, hpt.position.2, hpt.block.1, hpt.block.2]
  refine (follows_exceptionObject hj3 hpt.frame).bind fun P4 e w4 e' v4 hle4 hj4 h4 => ?_
  refine (follows_addEdge hj4 (hle4.control hs) h4).bind fun P5 _ w5 _ v5 hle5 hj5 _ => ?_
  have hle35 := hle4.trans hle5
  refine (follows_dispatchException hj5 (hle5.control h4) (hpt.frame.mono hle35)
    (.object (hj5.twins.sane.twin (hle5.control h4))) hL).bind fun P6 _ w6 _ v6 hle6 hj6 _ => ?_
  have hle36 := hle35.trans hle6
  refine (follows_addControl hj6 rfl rfl .nil).bind fun P7 n w7 m v7 hle7 hj7 h7 => ?_
  have hle37 := hle36.trans hle7
  refine (follows_addEdge hj7 (hle37.control hs) h7.1).bind fun P8 _ w8 _ v8 hle8 hj8 _ => ?_
  exact follows_pure hj8 ⟨⟨rfl, rfl⟩, ⟨rfl, rfl⟩, hpt.frame.mono (hle37.trans hle8),
    .some (hle8.control h7.1)⟩

theorem follows_binary (hj : D.Joint P w v) (hq : P.SamePoint L b p q r) (hL : op.canThrow = true →
      ∀ s, D.live ((D.full.blocks.dispatchAt? p).getD D.full.blocks.unwindBlock) s = true → L s) :
    D.Tracks P L b p (binary op q) (binary op r) w v := by
  refine (follows_popKind hj hq).bind fun P1 x w1 y v1 hle1 hj1 h1 => ?_
  obtain ⟨divisor, pt⟩ := x
  obtain ⟨divisor', pt'⟩ := y
  refine (follows_popKind hj1 h1.2).bind fun P2 x w2 y v2 hle2 hj2 h2 => ?_
  obtain ⟨a, pt2⟩ := x
  obtain ⟨a', pt2'⟩ := y
  obtain ⟨ha, hpt⟩ := h2
  have hdiv := h1.1.mono hle2
  dsimp only at ha hpt hdiv ⊢
  refine follows_read_bind ?_
  rw [D.needsZeroCheck, hpt.position.1, hpt.position.2]
  have hfinish : ∀ {P3 w3 v3 pt3 pt3'}, P2.Le P3 → D.Joint P3 w3 v3 → P3.SamePoint L b p pt3 pt3' →
      D.Tracks P3 L b p (do return pt3.push (.int (← addNode (.arithmetic op) [a.node, divisor.node])))
        (do return pt3'.push (.int (← addNode (.arithmetic op) [a'.node, divisor'.node]))) w3 v3 :=
    fun hle3 hj3 h3 => follows_compute hj3 h3 rfl
      (.cons (hle3.twin ha.node) (.cons (hle3.twin hdiv.node) .nil))
  by_cases hz : BuildM.needsZeroCheck D.full op p = true
  · rw [if_pos hz, if_pos hz]
    have hcan : op.canThrow = true := by
      simp only [BuildM.needsZeroCheck, Bool.and_eq_true] at hz
      exact hz.1.1
    exact (follows_zeroCheck hj2 hpt hdiv (hL hcan)).bind fun P3 x w3 y v3 hle3 hj3 h3 =>
      hfinish hle3 hj3 h3
  · rw [if_neg hz, if_neg hz]
    exact follows_pure_bind (hfinish (.refl P2) hj2 hpt)

/-! ## Branches -/

/-- What is live at the targets of a branch is in `L`. -/
structure Reaches (D : Duo none) (L : Nat → Prop) (t : Position) : Prop where
  live : ∀ c, D.full.blocks.blockAt? t = some c → ∀ x, D.live c x = true → L x

section

variable (hj : D.Joint P w v) (hq : P.SamePoint L b p q r) {t : Position}
include hj hq

theorem follows_branch {c c' : NodeId} (hc : P.twin c c') (ht : D.Reaches L t)
    (hnext : D.Reaches L p.next) : D.Parts P L b p (branch c t q) (branch c' t r) w v := by
  refine follows_read_bind ?_
  dsimp only
  rw [D.branchProbability, hq.position.1, hq.position.2]
  refine (follows_append hj hq rfl rfl (.cons hc .nil)).bind fun P1 x w1 y v1 hle1 hj1 h1 => ?_
  obtain ⟨split, pt⟩ := x
  obtain ⟨split', pt'⟩ := y
  obtain ⟨hs, hpt⟩ := h1
  dsimp only at hs hpt ⊢
  rw [hpt.block.1, hpt.block.2]
  refine .chain (follows_blockAt hj1 fun target htarget => ?_)
  refine .chain (follows_blockAt hj1 fun through hthrough => ?_)
  refine (follows_addBranch hj1 hs hpt.frame (ht.live _ htarget)).bind
    fun P4 _ w4 _ v4 hle4 hj4 _ => ?_
  refine (follows_addBranch hj4 (hle4.control hs) (hpt.frame.mono hle4)
    (hnext.live _ hthrough)).bind fun P5 _ w5 _ v5 hle5 hj5 _ => ?_
  exact follows_pure hj5 ⟨⟨⟨rfl, rfl⟩, hpt.position, hpt.frame.mono (hle4.trans hle5), .none⟩, rfl⟩

theorem follows_nullBranch {cond : Condition} (ht : D.Reaches L t) (hnext : D.Reaches L p.next) :
    D.Parts P L b p (nullBranch cond t q) (nullBranch cond t r) w v := by
  refine (follows_popKind hj hq).bind fun P1 x w1 y v1 hle1 hj1 h1 => ?_
  refine (follows_addData hj1 rfl .nil).bind fun P2 n w2 m v2 hle2 hj2 h2 => ?_
  refine (follows_addData hj2 rfl (.cons (hle2.twin h1.1.node) (.cons h2.1 .nil))).bind
    fun P3 c w3 c' v3 hle3 hj3 h3 => ?_
  exact follows_branch hj3 (h1.2.mono (hle2.trans hle3)) h3.1 ht hnext

theorem follows_switch {keys : List Int64} {targets : List Position} {default : Position}
    (ht : ∀ t ∈ targets ++ [default], D.Reaches L t) :
    D.Parts P L b p (switch keys targets default q) (switch keys targets default r) w v := by
  unfold switch
  dsimp only
  rw [hq.position.1, hq.position.2]
  refine (follows_popKind hj hq).bind fun P1 x w1 y v1 hle1 hj1 h1 => ?_
  obtain ⟨key, pt⟩ := x
  obtain ⟨key', pt'⟩ := y
  refine follows_read_bind ?_
  rw [D.switchProbabilities]
  refine (follows_append hj1 h1.2 rfl rfl (.cons h1.1.node .nil)).bind fun P2 x w2 y v2 hle2 hj2 h2 => ?_
  obtain ⟨split, pt2⟩ := x
  obtain ⟨split', pt2'⟩ := y
  obtain ⟨hs, hpt⟩ := h2
  dsimp only at hs hpt ⊢
  rw [hpt.block.1, hpt.block.2]
  refine (follows_forIn (j := 0)
    (fun _ _ (x y : (Position × Float) × EdgeKind) => x = y ∧ x.1.1 ∈ targets ++ [default])
    (fun _ h => h) (fun {P3 w3 v3 i x y} hle3 hj3 hxy => ?_) hj2
    (along_of_forall₂ (List.forall₂_same.2 fun x hx => ⟨rfl, ?_⟩))).bind fun P4 _ w4 _ v4 hle4 hj4 _ => ?_
  · obtain ⟨rfl, hmem⟩ := hxy
    refine .chain (follows_blockAt hj3 fun c hc => ?_)
    refine (follows_addBranch hj3 (hle3.control hs) (hpt.frame.mono hle3)
      ((ht _ hmem).live _ hc)).bind fun P6 _ w6 _ v6 _ hj6 _ => ?_
    exact follows_pure hj6 ⟨rfl, rfl⟩
  · exact (List.of_mem_zip (List.of_mem_zip hx).1).1
  · exact follows_pure hj4 ⟨⟨⟨rfl, rfl⟩, hpt.position, hpt.frame.mono hle4, .none⟩, rfl⟩

end

/-! ## Types and ways out -/

theorem follows_withType {type : TypeId} {act bct : BuildM Point} (hj : D.Joint P w v)
    (hq : P.SamePoint L b p q r) (hact : D.Tracks P L b p act bct w v) :
    D.Tracks P L b p (withType type q act) (withType type r bct) w v := by
  refine follows_read_bind ?_
  rw [D.fits.env]
  split
  · exact hact
  · rw [hq.position.1, hq.position.2]
    refine (follows_recordUnresolved hj).bind fun P1 _ w1 _ v1 hle1 hj1 _ => ?_
    exact follows_deoptimize hj1 (hq.mono hle1)

theorem matches_ofStack {s s' : List Value} (h : List.Forall₂ P.SameValue s s') :
    P.Matches L { stack := s } { stack := s' } :=
  ⟨⟨.nil, h, .nil⟩, fun _ _ _ => rfl⟩

theorem follows_depart {results results' : List Value} {o o' : Option ExitChain} (hj : D.Joint P w v)
    (hq : P.SamePoint L b p q r)
    (ho : Option.Rel (SameChain P) o o') (hr : List.Forall₂ P.SameValue results results') :
    D.Parts P L b p (do
        leave q o (← if D.full.depth = 0 then addNode .returnNode (results.map (·.node))
          else createTarget b D.full.blocks.exitBlock { stack := results } p))
      (do
        leave r o' (← if D.full.depth = 0 then addNode .returnNode (results'.map (·.node))
          else createTarget b D.full.blocks.exitBlock { stack := results' } p)) w v := by
  have hrest : ∀ {P1 w1 v1 n m}, P.Le P1 → D.Joint P1 w1 v1 → P1.control n m →
      D.Parts P1 L b p (leave q o n) (leave r o' m) w1 v1 := by
    intro P1 w1 v1 n m hle1 hj1 hn
    refine (follows_prependExits hj1 (optionRel_imp ho fun _ _ h => h.mono hle1) hn).bind
      fun P2 head w2 head' v2 hle2 hj2 h2 => ?_
    refine (follows_takeLast hj2 (hq.mono (hle1.trans hle2))).bind fun P3 x w3 y v3 hle3 hj3 h3 => ?_
    refine (follows_follow hj3 h3.1 (hle3.control h2)).bind fun P4 _ w4 _ v4 hle4 hj4 _ => ?_
    exact follows_pure hj4 ⟨h3.2.1.mono hle4, h3.2.2⟩
  split
  · refine (follows_addControl hj rfl rfl ?_).bind fun P1 n w1 m v1 hle1 hj1 h1 => hrest hle1 hj1 h1.1
    rw [List.forall₂_map_left_iff, List.forall₂_map_right_iff]
    exact hr.imp fun _ _ h => h.node
  · exact (follows_createTarget hj (matches_ofStack hr)).bind
      fun P1 n w1 m v1 hle1 hj1 h1 => hrest hle1 hj1 h1

theorem follows_emitReturn {x y : Option Value} (hj : D.Joint P w v)
    (hq : P.SamePoint L b p q r) (hx : Option.Rel P.SameValue x y) :
    D.Parts P L b p (emitReturn x q) (emitReturn y r) w v := by
  have hmonitors := hq.frame.same.monitorDepth
  refine follows_read_bind ?_
  dsimp only
  rw [D.fits.blocks, D.depth, D.fits.method, hq.position.1, hq.position.2, hq.block.1,
    hq.block.2, hmonitors]
  cases hx with
  | none =>
    dsimp only
    split
    · exact follows_throw_bind
    split
    · exact follows_throw_bind
    refine (follows_exitLoops hj hq.frame).bind fun P1 x w1 y v1 hle1 hj1 h1 => ?_
    exact follows_depart hj1 (hq.mono hle1) h1.2 .nil
  | @some x y hxy =>
    dsimp only
    rw [hxy.kind]
    split
    · exact follows_throw_bind
    split
    · exact follows_throw_bind
    refine (follows_exitLoops hj (hq.frame.push hxy)).bind fun P1 x w1 y v1 hle1 hj1 h1 => ?_
    obtain ⟨f, exits⟩ := x
    obtain ⟨k, exits'⟩ := y
    have hs := h1.1.same.stack
    dsimp only at hs ⊢
    rw [Frame.run_pop, Frame.run_pop]
    generalize f.stack = l at hs
    generalize k.stack = l' at hs
    cases hs with
    | nil => exact follows_throw_bind
    | cons h _ => exact follows_depart hj1 (hq.mono hle1) h1.2 (.cons h .nil)

end Duo

end StackLift
