import StackLift.Proofs.Calls

/-!
# Steps

Every instruction takes control from one point to the next, and a run of instructions does. Where an
instruction leaves control in the block, the code goes on behind it.
-/
namespace StackLift

open BuildM

section Steps

variable {E : Error → Prop} {S : Scene} {cur : Nat}
  {A : Labels} {w : Work} {a : NodeId} {q : Point}
  {nested : Option Parser} {i : Instruction Position}

theorem step_good (hn : Nests E S nested)
    (hi : S.body.instruction? q.position = some i) (hways : Ways S q.block q.position i)
    [S.Sure] (h : Here S cur [] [] A w a q.frame) (hlast : q.last = some a)
    (hl : Lifting S cur w.table q.block) :
    Ensures E (step nested i q) S w fun q' w' => (q'.last ≠ none → i.fallsThrough = true) ∧
      Gets S cur [] [] A w a q.block q' w' := by
  have hE := hn.allows.ordinary
  have hstay : ∀ {f : Frame}, Carries S (A a) w f →
      Gets S cur [] [] A w a q.block { q with frame := f } w :=
    fun hf => ⟨A, .stay (h.frame hf) hlast (.refl _ _ _) (.refl _ _ _) rfl⟩
  -- most instructions go on
  have hgo : ∀ {act : BuildM Point}, i.fallsThrough = true →
      Ensures E act S w (Gets S cur [] [] A w a q.block) →
      Ensures E act S w fun q' w' => (q'.last ≠ none → i.fallsThrough = true) ∧
        Gets S cur [] [] A w a q.block q' w' :=
    fun hf hact => hact.mono fun _ _ h' => ⟨fun _ => hf, h'⟩
  have hend : ∀ {act : BuildM Point},
      Ensures E act S w (fun q' w' => q'.last = none ∧
        Gets S cur [] [] A w a q.block q' w') →
      Ensures E act S w fun q' w' => (q'.last ≠ none → i.fallsThrough = true) ∧
        Gets S cur [] [] A w a q.block q' w' :=
    fun hact => hact.mono fun _ _ h' => ⟨fun hne => absurd h'.1 hne, h'.2⟩
  cases i with
  | nop => exact hgo rfl (ensures_pure (hstay h.carries))
  | const v => exact hgo rfl (h.compute (I := []) hlast rfl rfl (by simp))
  | constNull => exact hgo rfl (h.compute (I := []) hlast rfl rfl (by simp))
  | load slot =>
    refine hgo rfl ?_
    refine .chain (ensures_onFrame (fun v f hrun => ?_) fun e f hrun => ?_) <;>
      rw [Frame.run_loadLocal] at hrun <;> split at hrun <;> cases hrun
    · next hv => exact ensures_pure (hstay (h.carries.push (h.carries.has (Frame.mem_of_local? hv))))
    · exact hE _ rfl
  | store slot =>
    refine hgo rfl ?_
    refine h.pop hE fun v f hv here => ?_
    refine .chain (ensures_onFrame (fun u f' hrun => ?_) fun e f' hrun => ?_) <;>
      rw [Frame.run_storeLocal] at hrun <;> split at hrun <;> cases hrun
    · exact ensures_pure (hstay (here.carries.storeLocal hv))
    · exact hE _ rfl
  | pop => exact hgo rfl (h.pop hE fun v f hv here => ensures_pure (hstay here.carries))
  | dup =>
    refine hgo rfl ?_
    unfold step
    dsimp only
    split
    · next v hv => exact ensures_pure (hstay (h.carries.push (h.carries.has (Frame.head?_mem_values hv))))
    · exact ensures_verify (hE _ rfl)
  | swap =>
    refine hgo rfl (h.pop hE fun y f hy here => ?_)
    refine here.pop (q := { q with frame := f }) hE fun x f' hx here' => ensures_pure ?_
    exact hstay ((here'.carries.push hy).push hx)
  | arith op =>
    refine hgo rfl ?_
    unfold step
    dsimp only
    split
    · exact unary_good hE h hlast
    · exact binary_good hE h hlast hl hways.thrown
  | ifCompare cond t =>
    refine hend (h.popKind hE fun y f _ hy here => ?_)
    refine here.popKind (q := { q with frame := f }) hE fun x f' _ hx here' => ?_
    refine (here'.data (I := [x.node, y.node]) rfl rfl ?_).bind fun test w1 h1 => ?_
    · simpa using ⟨hx, hy⟩
    obtain ⟨here1, hext1, hnew1, htest⟩ := h1
    refine (branch_good (q := { q with frame := f' }) hE here1 hlast (hl.mono hext1.keeps)
      (hways.target t (by simp [Instruction.branchTargets]))
      (hways.next (by simp [Instruction.branchTargets]) rfl)
      htest).mono fun q' w' h' => ?_
    obtain ⟨hnone, A', hwent⟩ := h'
    exact ⟨hnone, A', hwent.after hext1.toEvolves (.refl _ _ _)⟩
  | ifZero cond t =>
    refine hend (h.popKind hE fun x f _ hx here => ?_)
    refine (here.data (k := .constant 0) (I := []) rfl rfl (by simp)).bind fun zero w1 h1 => ?_
    obtain ⟨here1, hext1, hnew1, hzero⟩ := h1
    refine (here1.data (I := [x.node, zero]) rfl rfl ?_).bind fun test w2 h2 => ?_
    · simpa using ⟨hx.extend here.good hext1, hzero⟩
    obtain ⟨here2, hext2, hnew2, htest⟩ := h2
    have hev := (hext1.trans hext2).toEvolves
    refine (branch_good (q := { q with frame := f }) hE here2 hlast (hl.mono hev.keeps)
      (hways.target t (by simp [Instruction.branchTargets]))
      (hways.next (by simp [Instruction.branchTargets]) rfl)
      htest).mono fun q' w' h' => ?_
    obtain ⟨hnone, A', hwent⟩ := h'
    exact ⟨hnone, A', hwent.after hev (.refl _ _ _)⟩
  | ifNull t =>
    exact hend (nullBranch_good hE h hlast hl (hways.target t (by simp [Instruction.branchTargets]))
      (hways.next (by simp [Instruction.branchTargets]) rfl))
  | ifNonNull t =>
    exact hend (nullBranch_good hE h hlast hl (hways.target t (by simp [Instruction.branchTargets]))
      (hways.next (by simp [Instruction.branchTargets]) rfl))
  | goto t =>
    obtain ⟨c, hc, hway⟩ := hways.target t (by simp [Instruction.branchTargets])
    refine hend ?_
    refine .chain (ensures_blockAt hc ?_)
    refine (jump_good hE h hlast hl hway (.code hc)).mono fun q' w' h' => ?_
    obtain ⟨rfl, A', hgood, hev, hA⟩ := h'
    exact ⟨rfl, A', .gone hgood rfl hev hA rfl⟩
  | switch keys targets default =>
    exact hend (switch_good hE h hlast hl (hways.arity keys targets default rfl) hways.target)
  | invoke kind declared => exact hgo rfl (invoke_good hn h hlast hl hways.thrown)
  | new type =>
    refine hgo rfl (withType_good h hlast ?_)
    refine .chain (append_good (k := .new type) (I := []) h hlast rfl rfl rfl rfl (by simp)
      fun n w1 A1 ha => ?_)
    have hf := ha.carries h.good h.carries
    refine (ha.effect (q := ({ q with last := some n } : Point).push (.object n)) rfl rfl hf
      (hf.push (.made ha.kind rfl rfl (ha.foot.base n (.inr rfl)))) rfl rfl).bind
      fun _ w2 h2 => ensures_pure h2
  | checkCast type =>
    refine hgo rfl (withType_good h hlast ?_)
    refine h.popKind hE fun x f _ hx here => ?_
    refine .chain (append_good (q := { q with frame := f }) (k := .checkCast type) (I := [x.node]) here
      hlast rfl rfl rfl rfl (by simpa using hx) fun n w1 A1 ha => ?_)
    refine (ha.effect (q := ({ q with frame := f, last := some n } : Point).push (.object n)) rfl
      rfl (ha.carries here.good h.carries) ((ha.carries here.good here.carries).push
        (.made ha.kind rfl rfl (ha.foot.base n (.inr rfl)))) rfl rfl).bind
      fun _ w2 h2 => ensures_pure h2
  | instanceOf type =>
    refine hgo rfl (withType_good h hlast ?_)
    refine h.popKind hE fun x f _ hx here => ?_
    exact here.compute (q := { q with frame := f }) (I := [x.node]) hlast rfl rfl (by simpa using hx)
  | throw =>
    refine hend (h.popKind hE fun x f hk hx here => ?_)
    exact throw_good (q := { q with frame := f }) hE here hlast hl hways.thrown hx hk
  | ret =>
    refine hend (emitReturn_good (o := none) hE h hlast hl (hways.exit rfl) ?_)
    rintro u ⟨⟩
  | retValue =>
    refine hend (h.pop hE fun v f hv here => ?_)
    refine emitReturn_good (q := { q with frame := f }) hE here hlast hl (hways.exit rfl) ?_
    rintro u ⟨⟩
    exact hv
  | monitorEnter =>
    refine hgo rfl (h.popKind hE fun x f _ hx here => ?_)
    refine .chain (append_good (q := { q with frame := f }) (k := .monitorEnter) (I := [x.node]) here
      hlast rfl rfl rfl rfl (by simpa using hx) fun n w1 A1 ha => ?_)
    have hf := (ha.carries here.good here.carries).enterMonitor (ha.has here.good hx)
    refine (ha.effect (q := { q with frame := f.enterMonitor x, last := some n }) rfl rfl hf hf
      rfl rfl).bind fun _ w2 h2 => ensures_pure h2
  | monitorExit =>
    refine hgo rfl (h.popKind hE fun x f _ hx here => ?_)
    refine .chain (ensures_onFrame (fun u f' hrun => ?_) fun e f' hrun => ?_) <;>
      rw [Frame.run_exitMonitor] at hrun <;> split at hrun <;> cases hrun
    · next rest hm =>
      have hm : f.monitors = u :: rest := hm
      have hf' : Carries S (A a) w { f with monitors := rest } := here.carries.sub fun y hy => by
        simp only [Frame.mem_values, hm, List.mem_cons] at hy ⊢
        tauto
      refine .chain (append_good (q := { q with frame := { f with monitors := rest } })
        (k := .monitorExit)
        (I := [x.node]) (here.frame hf') hlast rfl rfl rfl rfl (by simpa using hx) fun n w2 A1 ha => ?_)
      have hf := ha.carries here.good hf'
      exact (ha.effect (q := { q with frame := { f with monitors := rest }, last := some n }) rfl
        rfl hf hf
        rfl rfl).bind fun _ w2 h2 => ensures_pure h2
    · exact hE _ rfl

/-- A run of instructions keeps control in the block, or sends it away. Where control is left at the
end, the last instruction goes on behind itself. -/
theorem runCode_good {positions : List Position} (hn : Nests E S nested)
    (hways : ∀ p ∈ positions, ∃ i, S.body.instruction? p = some i ∧ Ways S q.block p i)
    [S.Sure] (h : Here S cur [] [] A w a q.frame) (hlast : q.last = some a)
    (hl : Lifting S cur w.table q.block) : Ensures E (runCode nested positions q) S w fun q' w' =>
      (q'.last ≠ none → ∀ p, positions.getLast? = some p →
        ∃ i, S.body.instruction? p = some i ∧ i.fallsThrough = true) ∧
      Gets S cur [] [] A w a q.block q' w' := by
  induction positions generalizing q A w a with
  | nil =>
    refine ensures_pure ⟨fun _ p hp => ?_, A, .stay h hlast (.refl _ _ _) (.refl _ _ _) rfl⟩
    cases hp
  | cons p rest ih =>
    obtain ⟨i, hi, hw⟩ := hways p (by simp)
    unfold runCode
    refine ensures_read_bind ?_
    rw [hlast, hi]
    dsimp only
    refine (step_good (q := { q with position := p, last := some a }) hn hi hw h rfl hl).bind
      fun q1 w1 h1 => ?_
    obtain ⟨hfalls, A1, hwent⟩ := h1
    cases hlast1 : q1.last with
    | none =>
      -- the rest is not looked at
      have hstop : runCode nested rest q1 = pure q1 := by
        cases rest with
        | nil => rfl
        | cons p' rest =>
          funext sc' w'
          unfold runCode
          rw [hlast1]
          rfl
      rw [hstop]
      refine ensures_pure ⟨fun hne => absurd hlast1 hne, A1, hwent⟩
    | some n =>
      have hblock : q1.block = q.block := hwent.block
      refine (ih (q := q1) (fun p' hq => hblock ▸ hways p' (List.mem_cons_of_mem _ hq))
        (hwent.now.here hlast1) hlast1 (hblock ▸ hl.mono hwent.evolves.keeps)).mono fun q2 w2 h2 => ?_
      obtain ⟨hfalls2, A2, hwent2⟩ := h2
      refine ⟨fun hne p' hq => ?_, A2, hwent.trans hlast1 (hblock ▸ hwent2)⟩
      cases rest with
      | nil =>
        cases hq
        exact ⟨i, hi, hfalls (by simp [hlast1])⟩
      | cons r rest => exact hfalls2 hne p' (by simpa using hq)

end Steps

end StackLift
