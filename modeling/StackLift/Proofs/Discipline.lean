import StackLift.Proofs.Blocks
import StackLift.Proofs.Depths

/-!
# What instructions do to the depths

An instruction takes values off the stack, puts values onto it, and may enter or leave a monitor.
`Depths.after` says what is left, `Depths.Allows` that there is enough to take. Lifting an instruction
succeeds only if the depths of the frame allow it, and then every block that the instruction may go to
is reached with the depths that it leaves behind.

All of this is about one method without calls that is lifted without any knowledge of its runs (`Plain`).
-/
namespace StackLift

variable {op : ArithOp} {a : BlockId} {d : Depths} {f : Frame} {i : Instruction Position} {k n s : Nat}
  {condition : NodeId} {p : Position} {t : Table}

open BuildM

/-! ## Instructions -/

namespace Instruction

variable {τ : Type}

/-- How many values the instruction takes. A call takes its arguments, which depend on the method. -/
def pops : Instruction τ → Nat
  | .swap | .ifCompare .. => 2
  | .store _ | .pop | .dup | .ifZero .. | .ifNull _ | .ifNonNull _ | .switch .. | .checkCast _
  | .instanceOf _ | .throw | .retValue | .monitorEnter | .monitorExit => 1
  | .arith op => if op.isUnary then 1 else 2
  | _ => 0

/-- How many values the instruction leaves. -/
def pushes : Instruction τ → Nat
  | .dup | .swap => 2
  | .const _ | .constNull | .load _ | .arith _ | .new _ | .checkCast _ | .instanceOf _ => 1
  | _ => 0

/-- How many monitors are held after the instruction. -/
def holds : Instruction τ → Nat → Nat
  | .monitorEnter, held => held + 1
  | .monitorExit, held => held - 1
  | _, held => held

def isCall : Instruction τ → Bool
  | .invoke .. => true
  | _ => false

/-- The type that has to be known. -/
def type? : Instruction τ → Option TypeId
  | .new t | .checkCast t | .instanceOf t => some t
  | _ => none

end Instruction

namespace Depths

variable {τ : Type}

/-- The depths after an instruction. -/
def after (d : Depths) (i : Instruction τ) : Depths :=
  ⟨d.stack - i.pops + i.pushes, i.holds d.monitors⟩

/-- The depths with which an exception arrives: it is all that is on the stack. -/
def raised (d : Depths) : Depths := ⟨1, d.monitors⟩

/-- The stack has what the instruction takes, a monitor that is left is held, and none is held at a
return. -/
structure Allows (d : Depths) (i : Instruction τ) : Prop where
  stack : i.pops ≤ d.stack
  held : i = .monitorExit → 0 < d.monitors
  free : i.isReturn = true → d.monitors = 0

theorem Allows.plain {i : Instruction τ} (hpops : i.pops ≤ d.stack) (hexit : i ≠ .monitorExit)
    (hret : i.isReturn = false) : d.Allows i := by
  refine ⟨hpops, fun h => absurd h hexit, fun h => ?_⟩
  rw [hret] at h
  cases h

end Depths

/-- A method without calls whose types are known, lifted without any knowledge of its runs. -/
structure Plain (sc : Scope) : Prop where
  charts : sc.blocks.Charts sc.body
  root : sc.depth = 0
  alone : sc.callerHandles = false
  calls : ∀ {p i}, sc.body.instruction? p = some i → i.isCall = false
  types : ∀ {p i t}, sc.body.instruction? p = some i → i.type? = some t →
    ∃ d, sc.env.hierarchy.lookupType t = .ok d
  catches : ∀ {n : Nat} {h : Handler} {t : TypeId}, sc.body.handlers[n]? = some h → h.catchType = some t →
    ∃ d, sc.env.hierarchy.lookupType t = .ok d
  profile : sc.env.profile = .blank
  skipped : sc.config.skippedExceptionTypes = []
  shares : ∀ {p ks ts d}, sc.body.instruction? p = some (.switch ks ts d) →
    ¬ 1.0 / Float.ofNat (ts.length + 1) ≤ 0.0

/-! ## Points -/

section Points

variable {α : Type} {sc : Scope} {w : Work} {q : Point} {Q : α → Work → Prop}
  {rest : Value × Point → BuildM α}

theorem yields_pops {P : Value → Prop} {act : FrameM Value}
    (hp : Frame.Pops P act) (h : ∀ v s, q.frame.stack = v :: s →
      Yields (rest (v, { q with frame := { q.frame with stack := s } })) sc w Q) :
    Yields (q.onFrame act >>= rest) sc w Q := by
  refine .chain (ensures_onFrame (fun v f hrun => ?_) fun _ _ _ => trivial)
  obtain ⟨-, s, hs, rfl⟩ := hp.ok hrun
  exact h v s hs

theorem yields_pop (h : ∀ v s, q.frame.stack = v :: s →
      Yields (rest (v, { q with frame := { q.frame with stack := s } })) sc w Q) :
    Yields (q.pop >>= rest) sc w Q := yields_pops (Frame.pops_pop _) h

theorem yields_popKind {kind : ValueKind} (h : ∀ v s, q.frame.stack = v :: s →
      Yields (rest (v, { q with frame := { q.frame with stack := s } })) sc w Q) :
    Yields (q.popKind kind >>= rest) sc w Q := yields_pops (Frame.pops_popKind _ _) h

theorem yields_append {k : NodeKind} {I : List NodeId} {rest : NodeId × Point → BuildM α}
    (h : ∀ n w', w'.table = w.table → Yields (rest (n, { q with last := some n })) sc w' Q) :
    Yields (q.append k I >>= rest) sc w Q := by
  unfold Point.append
  refine Ensures.bind (Q := fun r w' => w'.table = w.table ∧ ∃ n, r = (n, { q with last := some n })) ?_
    fun r w' hr => ?_
  · refine (takeLast_quiet q).bind fun r w1 h1 => ?_
    obtain ⟨last, q1⟩ := r
    obtain ⟨ht, rfl⟩ := h1
    refine quiet.bind fun n w2 h2 => ?_
    refine quiet.bind fun _ w3 h3 => ensures_pure ⟨?_, n, rfl⟩
    rw [h3, h2, ht]
  · obtain ⟨ht, n, rfl⟩ := hr
    exact h n w' ht

end Points

/-! ## Steps -/

/-- The blocks that the instruction `i` at `p` goes to are reached with the depths that it leaves. -/
structure Lands (sc : Scope) (t : Table) (p : Position) (i : Instruction Position) (d : Depths) :
    Prop where
  allows : d.Allows i
  branch : ∀ {r c}, r ∈ i.branchTargets → sc.blocks.blockAt? r = some c → t.Reached c (d.after i)
  next : i.branchTargets ≠ [] → i.fallsThrough = true →
    ∀ {c}, sc.blocks.blockAt? p.next = some c → t.Reached c (d.after i)
  thrown : i.canThrow = true → ∀ {c}, sc.blocks.dispatchAt? p = some c → t.Reached c d.raised

/-- What lifting the instruction `i` at `q` comes to. -/
structure Stepped (sc : Scope) (i : Instruction Position) (q : Point) (w : Work) (q' : Point)
    (w' : Work) : Prop where
  goes : w.table.Goes (q.block.index + 1) w'.table
  lands : Lands sc w'.table q.position i q.frame.depths
  block : q'.block = q.block
  stays : i.isBlockEnd = false → q'.last.isSome = true ∧ q'.frame.depths = q.frame.depths.after i
  ends : i.isBlockEnd = true → q'.last = none

/-- A block of instructions is being lifted. -/
structure Standing (sc : Scope) (w : Work) (b : BlockId) : Prop where
  plain : Plain sc
  size : w.table.entries.size = sc.blocks.size
  lt : b.index < sc.blocks.size
  kind : (sc.blocks.block b).kind = .instructions

section Steps

variable {sc : Scope} {w w' : Work} {q q' : Point} {i : Instruction Position} {b c : BlockId}
  {nested : Option Parser}
variable {target r : Position}

theorem Standing.onward (h : Standing sc w b) (hway : Way sc b c) : sc.blocks.Onward b c := by
  rcases hway with hc | rfl
  · exact h.plain.charts.onward h.lt hc
  · refine h.plain.charts.onward_unwind h.lt fun hb => ?_
    have hk := (h.plain.charts.unwind h.lt).2 hb
    rw [h.kind] at hk
    cases hk

theorem Standing.goes (h : Standing sc w b) (hg : w.table.Goes k w'.table) : Standing sc w' b :=
  ⟨h.plain, hg.size.trans h.size, h.lt, h.kind⟩

theorem Stepped.simple (hend : i.isBlockEnd = false) (hthrow : i.canThrow = false)
    (ht : w'.table = w.table) (hblock : q'.block = q.block) (hlast : q'.last.isSome = true)
    (hpops : q.frame.stack.length = n + i.pops) (hpushes : q'.frame.stack.length = n + i.pushes)
    (hheld : i = .monitorExit → 0 < q.frame.monitors.length)
    (hholds : q'.frame.monitors.length = i.holds q.frame.monitors.length) : Stepped sc i q w q' w' := by
  have hend' := hend
  rw [Instruction.isBlockEnd, Bool.or_eq_false_iff] at hend'
  have htargets : i.branchTargets = [] := by simpa using hend'.1
  have hallows : q.frame.depths.Allows i := by
    refine ⟨by simp [Frame.depths, hpops], hheld, fun hret => absurd hend'.2 ?_⟩
    cases i <;> first | (cases hret; done) | simp [Instruction.fallsThrough]
  have hafter : q'.frame.depths = q.frame.depths.after i := by
    simp [Depths.after, Frame.depths, hpops, hpushes, hholds]
  refine ⟨.of_eq ht, ⟨hallows, ?_, fun hne => absurd htargets hne, ?_⟩, hblock,
    fun _ => ⟨hlast, hafter⟩, ?_⟩
  · intro r c hr
    rw [htargets] at hr
    cases hr
  · rw [hthrow]
    exact fun h => Bool.noConfusion h
  · rw [hend]
    exact fun h => Bool.noConfusion h

theorem zeroCheck_depths {divisor : Value} (h : Standing sc w q.block)
    (hway : Way sc q.block (sc.exceptionTarget q.position)) :
    Yields (zeroCheck divisor q) sc w fun q' w' => w.table.Goes (q.block.index + 1) w'.table ∧
      w'.table.Reached (sc.exceptionTarget q.position) q.frame.depths.raised ∧
      ∃ n, q' = { q with last := some n } := by
  unfold zeroCheck exceptionObject
  refine quiet.bind fun zero w1 h1 => ?_
  refine quiet.bind fun compare w2 h2 => ?_
  refine yields_append fun split w3 h3 => ?_
  refine quiet.bind
    fun exception w4 h4 => ?_
  refine quiet.bind fun _ w5 h5 => ?_
  have ht : w5.table = w.table := by rw [h5, h4, h3, h2, h1]
  refine (dispatchException_depths (h.onward hway) (ht ▸ h.size)).bind fun _ w6 h6 => ?_
  refine quiet.bind fun proceed w7 h7 => ?_
  refine quiet.bind fun _ w8 h8 => ensures_pure ⟨?_, ?_, proceed, rfl⟩
  · rw [h8, h7, ← ht]
    exact h6.1
  · rw [h8, h7]
    exact h6.2

theorem needsZeroCheck_of_dispatch (hp : Plain sc) (hop : op.canThrow = true)
    (hc : sc.blocks.dispatchAt? p = some c) : needsZeroCheck sc op p = true := by
  simp [needsZeroCheck, hop, Scope.observes, hc, Scope.mayThrow, Profile.mayThrow, hp.profile,
    Profile.blank]

theorem binary_depths (h : Standing sc w q.block) (hop : op.isUnary = false)
    (hway : Way sc q.block (sc.exceptionTarget q.position)) (hlast : q.last.isSome = true) :
    Yields (binary op q) sc w fun q' w' => Stepped sc (.arith op) q w q' w' := by
  unfold binary
  refine yields_popKind fun b s hs => yields_popKind fun a s' hs' => ?_
  have hs' : s = a :: s' := hs'
  have hstack : q.frame.stack.length = s'.length + 2 := by rw [hs, hs']; rfl
  have hallows : q.frame.depths.Allows (.arith op : Instruction Position) :=
    .plain (by simp [Instruction.pops, hop, Frame.depths, hstack]) (by simp) rfl
  have hafter : q.frame.depths.after (.arith op : Instruction Position) =
      ⟨s'.length + 1, q.frame.monitors.length⟩ := by
    simp [Depths.after, Instruction.pops, Instruction.pushes, Instruction.holds, hop,
      Frame.depths, hstack]
  refine ensures_read_bind ?_
  have hend : ∀ (q1 : Point) (w1 : Work), w.table.Goes (q.block.index + 1) w1.table → q1.block = q.block →
      q1.last.isSome = true → q1.frame = { q.frame with stack := s' } →
      (op.canThrow = true → ∀ {c}, sc.blocks.dispatchAt? q.position = some c →
        w1.table.Reached c q.frame.depths.raised) →
      Yields (do
        let n ← addNode (.arithmetic op) [a.node, b.node]
        return q1.push (.int n)) sc w1 fun q' w' => Stepped sc (.arith op) q w q' w' := by
    intro q1 w1 hgoes hblock hlast1 hframe hthrown
    refine quiet.bind fun n w2 h2 => ensures_pure ?_
    refine ⟨h2 ▸ hgoes, ⟨hallows, fun hr => ?_, fun hne => absurd rfl hne, ?_⟩, hblock,
      fun _ => ⟨hlast1, ?_⟩, fun h => ?_⟩
    · cases hr
    · rw [h2]
      exact hthrown
    · rw [hafter]
      simp [Point.push, Frame.push, hframe, Frame.depths]
    · cases h
  dsimp only
  split
  · refine (zeroCheck_depths (q := { q with frame := { q.frame with stack := s' } }) h hway).bind
      fun q1 w1 h1 => ?_
    obtain ⟨hgoes, hreach, n, rfl⟩ := h1
    refine hend _ w1 hgoes rfl rfl rfl fun _ c hc => ?_
    rw [Scope.exceptionTarget, hc] at hreach
    exact hreach
  · next hcheck =>
    refine hend _ w (.refl _ _) rfl hlast rfl fun hop c hc => ?_
    exact absurd (needsZeroCheck_of_dispatch h.plain hop hc) hcheck

theorem branch_depths (h : Standing sc w q.block) (hd : q.frame.depths = d)
    (ht : ∃ c, sc.blocks.blockAt? target = some c ∧ Way sc q.block c)
    (hnext : ∃ c, sc.blocks.blockAt? q.position.next = some c ∧ Way sc q.block c) :
    Yields (branch condition target q) sc w fun q' w' => w.table.Goes (q.block.index + 1) w'.table ∧
      (∀ {c}, sc.blocks.blockAt? target = some c → w'.table.Reached c d) ∧
      (∀ {c}, sc.blocks.blockAt? q.position.next = some c → w'.table.Reached c d) ∧
      q'.block = q.block ∧ q'.last = none := by
  obtain ⟨c, hc, hway⟩ := ht
  obtain ⟨e, he, hway'⟩ := hnext
  have hodds : sc.branchProbability q.position = 0.5 := by
    rw [Scope.branchProbability, h.plain.profile]
    rfl
  unfold branch
  refine ensures_read_bind ?_
  refine yields_append fun split w1 h1 => ?_
  refine .chain (ensures_blockAt hc ?_)
  refine .chain (ensures_blockAt he ?_)
  rw [hodds]
  refine (addBranch_depths (h.onward hway) (h1 ▸ h.size) (by decide)).bind fun _ w4 h4 => ?_
  refine (addBranch_depths (h.onward hway') (h4.1.size.trans (h1 ▸ h.size)) (by decide)).bind
    fun _ w5 h5 => ensures_pure ⟨?_, fun hx => ?_, fun hx => ?_, rfl, rfl⟩
  · rw [← h1]
    exact h4.1.trans h5.1
  · rw [hc, Option.some.injEq] at hx
    subst hx hd
    exact h5.1.keeps h4.2
  · rw [he, Option.some.injEq] at hx
    subst hx hd
    exact h5.2

theorem mem_cases {α β γ : Type} {l : List α} {p : List β} {k : List γ} (hp : p.length = l.length)
    (hk : k.length = l.length) {a : α} (ha : a ∈ l) : ∃ x ∈ (l.zip p).zip k, x.1.1 = a := by
  obtain ⟨n, hn, rfl⟩ := List.getElem_of_mem ha
  exact ⟨((l[n], p[n]), k[n]), List.mem_iff_getElem.2 ⟨n, by simp [hp, hk, hn], by simp⟩, rfl⟩

theorem switch_depths {ks : List Int64} {ts : List Position}
    (h : Standing sc w q.block) (hi : sc.body.instruction? q.position = some (.switch ks ts r))
    (ht : ∀ t ∈ ts ++ [r], ∃ c, sc.blocks.blockAt? t = some c ∧ Way sc q.block c) :
    Yields (switch ks ts r q) sc w fun q' w' => Stepped sc (.switch ks ts r) q w q' w' := by
  have hodds : sc.switchProbabilities q.position (ts.length + 1) =
      List.replicate (ts.length + 1) (1.0 / Float.ofNat (ts.length + 1)) := by
    rw [Scope.switchProbabilities, h.plain.profile]
    rfl
  unfold switch
  refine yields_popKind fun key s hs => ?_
  have hafter : q.frame.depths.after (.switch ks ts r) = ⟨s.length, q.frame.monitors.length⟩ := by
    simp [Depths.after, Instruction.pops, Instruction.pushes, Instruction.holds, Frame.depths, hs]
  refine ensures_read_bind ?_
  refine yields_append fun split w1 h1 => ?_
  rw [hodds]
  refine (ensures_forIn (w := w1) (fun rest w' => w.table.Goes (q.block.index + 1) w'.table ∧
    ∃ done, done ++ rest = ((ts ++ [r]).zip (List.replicate (ts.length + 1)
      (1.0 / Float.ofNat (ts.length + 1)))).zip (caseKinds ts.length) ∧
      ∀ x ∈ done, ∀ c, sc.blocks.blockAt? x.1.1 = some c →
        w'.table.Reached c (q.frame.depths.after (.switch ks ts r))) ?_ ?_).bind fun _ w2 h2 => ?_
  · rintro ⟨⟨t, odds⟩, kind⟩ rest w' ⟨hgoes, done, hdone, hreach⟩
    have hmem : ((t, odds), kind) ∈ ((ts ++ [r]).zip (List.replicate (ts.length + 1)
        (1.0 / Float.ofNat (ts.length + 1)))).zip (caseKinds ts.length) := by
      rw [← hdone]
      simp
    obtain ⟨hto, -⟩ := List.of_mem_zip hmem
    obtain ⟨htarget, hshare⟩ := List.of_mem_zip hto
    rw [List.eq_of_mem_replicate hshare]
    obtain ⟨c, hc, hway⟩ := ht t htarget
    refine .chain (ensures_blockAt hc ?_)
    refine (addBranch_depths (h.onward hway) (hgoes.size.trans h.size) (h.plain.shares hi)).bind
      fun _ w4 h4 => ensures_pure ⟨rfl, hgoes.trans h4.1, done ++ [((t, odds), kind)], by simp [← hdone],
        ?_⟩
    intro y hy c' hc'
    rcases List.mem_append.1 hy with hy | hy
    · exact h4.1.keeps (hreach y hy c' hc')
    · rw [List.mem_singleton.1 hy, hc, Option.some.injEq] at hc'
      rw [hafter, ← hc']
      exact h4.2
  · exact ⟨.of_eq h1, [], rfl, by simp⟩
  · obtain ⟨hgoes, done, hdone, hreach⟩ := h2
    rw [List.append_nil] at hdone
    refine ensures_pure ⟨hgoes, ⟨.plain (by simp [Instruction.pops, Frame.depths, hs]) (by simp) rfl,
      fun {t c} hr hc => ?_, fun _ h => ?_, fun h => ?_⟩, rfl, fun h => ?_, fun _ => rfl⟩
    · obtain ⟨x, hx, rfl⟩ := mem_cases (p := List.replicate (ts.length + 1)
        (1.0 / Float.ofNat (ts.length + 1))) (k := caseKinds ts.length) (by simp)
        (by simp [caseKinds]) (show t ∈ ts ++ [r] from hr)
      exact hreach x (hdone ▸ hx) c hc
    · cases h
    · cases h
    · simp [Instruction.isBlockEnd, Instruction.fallsThrough] at h

theorem emitReturn_depths {value : Option Value} (hroot : sc.depth = 0) :
    Yields (emitReturn value q) sc w fun q' w' => w'.table = w.table ∧ q.frame.monitors.length = 0 ∧
      q' = { q with last := none } := by
  have hleave : ∀ (r : List NodeId) (c : Option ExitChain) (w1 : Work), w1.table = w.table →
      q.frame.monitors.length = 0 → Yields (addNode .returnNode r >>= leave q c) sc w1 fun q' w' =>
      w'.table = w.table ∧ q.frame.monitors.length = 0 ∧
          q' = { q with last := none } := by
    intro r c w1 h1 hfree
    refine quiet.bind fun stub w2 h2 => ?_
    refine quiet.bind fun head w3 h3 => ?_
    refine (takeLast_quiet q).bind fun x w4 h4 => ?_
    refine quiet.bind fun _ w5 h5 => ensures_pure ⟨?_, hfree, h4.2⟩
    rw [h5, h4.1, h3, h2, h1]
  unfold emitReturn
  refine ensures_read_bind ?_
  dsimp only
  cases value with
  | none =>
    dsimp only
    split
    · trivial
    split
    · trivial
    next hfree =>
    refine (exitLoops_depths _ _ _).bind fun r w1 h1 => ensures_pure_bind ?_
    exact hleave _ _ w1 h1.1 (by simpa [Frame.monitorDepth] using hfree)
  | some v =>
    dsimp only
    split
    · trivial
    split
    · trivial
    next hfree =>
    refine (exitLoops_depths _ _ _).bind fun r w1 h1 => ?_
    split
    · refine ensures_pure_bind ?_
      exact hleave _ _ w1 h1.1 (by simpa [Frame.monitorDepth] using hfree)
    · trivial

section

variable (h : Standing sc w q.block) (hways : Ways sc q.block q.position i)
  (htargets : i.branchTargets = [target]) (hfalls : i.fallsThrough = true) (hthrow : i.canThrow = false)
  (hret : i.isReturn = false) (hexit : i ≠ .monitorExit) (hpushes : i.pushes = 0)
  (hholds : ∀ n, i.holds n = n)
include h hways htargets hfalls hthrow hret hexit hpushes hholds

theorem branch_stepped {s : List Value} {w1 : Work}
    (hpops : q.frame.stack.length = s.length + i.pops) (ht : w1.table = w.table) :
    Yields (branch condition target { q with frame := { q.frame with stack := s } }) sc w1
      fun q' w' => Stepped sc i q w q' w' := by
  have hafter : q.frame.depths.after i = ⟨s.length, q.frame.monitors.length⟩ := by
    simp [Depths.after, Frame.depths, hpops, hpushes, hholds]
  refine (branch_depths (q := { q with frame := { q.frame with stack := s } })
    (h.goes (.of_eq (k := 0) ht)) hafter.symm (hways.target target (by simp [htargets]))
    (hways.next (by simp [htargets]) hfalls)).mono fun q' w2 h2 => ?_
  obtain ⟨hgoes, htaken, hnext, hblock, hlast⟩ := h2
  rw [ht] at hgoes
  refine ⟨hgoes, ⟨.plain (by simp [Frame.depths, hpops]) hexit hret, fun hr hc => ?_,
    fun _ _ _ hc => hnext hc, fun hc => ?_⟩, hblock, fun hend => ?_, fun _ => hlast⟩
  · rw [htargets, List.mem_singleton] at hr
    subst hr
    exact htaken hc
  · rw [hthrow] at hc
    cases hc
  · simp [Instruction.isBlockEnd, htargets] at hend

theorem nullBranch_stepped {cond : Condition} (hpops : i.pops = 1) :
    Yields (nullBranch cond target q) sc w fun q' w' => Stepped sc i q w q' w' := by
  unfold nullBranch
  refine yields_popKind fun a s hs => ?_
  refine quiet.bind fun null w1 h1 => ?_
  refine quiet.bind fun n w2 h2 => ?_
  exact branch_stepped h hways htargets hfalls hthrow hret hexit hpushes hholds (by rw [hs, hpops]; rfl)
    (h2.trans h1)

end

theorem withType_depths {type : TypeId} {act : BuildM Point} {Q : Point → Work → Prop}
    (ht : ∃ d, sc.env.hierarchy.lookupType type = .ok d) (h : Yields act sc w Q) :
    Yields (withType type q act) sc w Q := by
  obtain ⟨d, hd⟩ := ht
  unfold withType
  refine ensures_read_bind ?_
  rw [hd]
  exact h

theorem step_depths (h : Standing sc w q.block) (hi : sc.body.instruction? q.position = some i)
    (hways : Ways sc q.block q.position i) (hlast : q.last.isSome = true) :
    Yields (step nested i q) sc w fun q' w' => Stepped sc i q w q' w' := by
  unfold step
  cases i with
  | nop => exact ensures_pure (.simple rfl rfl rfl rfl hlast rfl rfl (by simp) rfl)
  | const v =>
    exact quiet.bind fun n w1 h1 =>
      ensures_pure (.simple rfl rfl h1 rfl hlast rfl rfl (by simp) rfl)
  | constNull =>
    exact quiet.bind fun n w1 h1 =>
      ensures_pure (.simple rfl rfl h1 rfl hlast rfl rfl (by simp) rfl)
  | load slot =>
    refine .chain (ensures_onFrame (fun v f hrun => ?_) fun _ _ _ => trivial)
    rw [Frame.run_loadLocal] at hrun
    split at hrun <;> cases hrun
    exact ensures_pure (.simple rfl rfl rfl rfl hlast rfl rfl (by simp) rfl)
  | store slot =>
    refine yields_pop fun v s hs => ?_
    refine .chain (ensures_onFrame (fun v f hrun => ?_) fun _ _ _ => trivial)
    rw [Frame.run_storeLocal] at hrun
    split at hrun <;> cases hrun
    exact ensures_pure (.simple rfl rfl rfl rfl hlast (by rw [hs]; rfl) rfl (by simp) rfl)
  | pop =>
    exact yields_pop fun v s hs =>
      ensures_pure (.simple rfl rfl rfl rfl hlast (by rw [hs]; rfl) rfl (by simp) rfl)
  | dup =>
    dsimp only
    split
    · next v hv =>
      obtain ⟨s, hs⟩ := List.head?_eq_some_iff.1 hv
      exact ensures_pure (.simple rfl rfl rfl rfl hlast (by rw [hs]; rfl)
        (by simp [Point.push, Frame.push, hs, Instruction.pushes]) (by simp) rfl)
    · trivial
  | swap =>
    refine yields_pop fun b s hs => yields_pop fun a s' hs' => ?_
    have hs' : s = a :: s' := hs'
    exact ensures_pure (.simple rfl rfl rfl rfl hlast (by rw [hs, hs']; rfl) rfl (by simp) rfl)
  | arith op =>
    by_cases hop : op.isUnary = true
    · simp only [hop, if_true]
      unfold unary
      refine yields_popKind fun a s hs => ?_
      have hthrow : op.canThrow = false := by cases op <;> first | rfl | cases hop
      exact quiet.bind fun n w1 h1 => ensures_pure
        (.simple rfl hthrow h1 rfl hlast (by simp [hs, Instruction.pops, hop]) rfl (by simp) rfl)
    · simp only [hop]
      exact binary_depths h (by simpa using hop) hways.thrown hlast
  | ifCompare cond target =>
    refine yields_popKind fun b s hs => yields_popKind fun a s' hs' => ?_
    have hs' : s = a :: s' := hs'
    refine quiet.bind fun n w1 h1 => ?_
    exact branch_stepped h hways rfl rfl rfl rfl (by simp) rfl (fun _ => rfl) (by rw [hs, hs']; rfl) h1
  | ifZero cond target =>
    refine yields_popKind fun a s hs => ?_
    refine quiet.bind fun zero w1 h1 => ?_
    refine quiet.bind fun n w2 h2 => ?_
    exact branch_stepped h hways rfl rfl rfl rfl (by simp) rfl (fun _ => rfl) (by rw [hs]; rfl)
      (h2.trans h1)
  | ifNull target =>
    exact nullBranch_stepped h hways rfl rfl rfl rfl (by simp) rfl (fun _ => rfl) rfl
  | ifNonNull target =>
    exact nullBranch_stepped h hways rfl rfl rfl rfl (by simp) rfl (fun _ => rfl) rfl
  | goto target =>
    obtain ⟨c, hc, hway⟩ := hways.target target (by simp [Instruction.branchTargets])
    refine .chain (ensures_blockAt hc ?_)
    refine (jump_depths (h.onward hway) h.size).mono fun q' w2 h2 => ?_
    obtain ⟨hgoes, hreach, rfl⟩ := h2
    refine ⟨hgoes, ⟨.plain (Nat.zero_le _) (by simp) rfl, fun {r c'} hr hc' => ?_, fun _ hf => ?_,
      fun ht => ?_⟩, rfl, fun hend => ?_, fun _ => rfl⟩
    · rw [List.mem_singleton.1 hr, hc, Option.some.injEq] at hc'
      subst hc'
      exact hreach
    · cases hf
    · cases ht
    · cases hend
  | switch keys targets default => exact switch_depths h hi hways.target
  | invoke kind method =>
    have := h.plain.calls hi
    cases this
  | new type =>
    refine withType_depths (h.plain.types hi rfl) ?_
    refine yields_append fun n w1 h1 => ?_
    refine quiet.bind fun _ w2 h2 => ensures_pure ?_
    exact .simple rfl rfl (h2.trans h1) rfl rfl rfl rfl (by simp) rfl
  | checkCast type =>
    refine withType_depths (h.plain.types hi rfl) ?_
    refine yields_popKind fun a s hs => yields_append fun n w1 h1 => ?_
    refine quiet.bind fun _ w2 h2 => ensures_pure ?_
    exact .simple rfl rfl (h2.trans h1) rfl rfl (by rw [hs]; rfl) rfl (by simp) rfl
  | instanceOf type =>
    refine withType_depths (h.plain.types hi rfl) ?_
    refine yields_popKind fun a s hs => quiet.bind fun n w1 h1 => ensures_pure ?_
    exact .simple rfl rfl h1 rfl hlast (by rw [hs]; rfl) rfl (by simp) rfl
  | throw =>
    refine yields_popKind fun a s hs => ?_
    refine (takeLast_quiet _).bind fun r w1 h1 => ?_
    obtain ⟨last, q1⟩ := r
    obtain ⟨ht, rfl⟩ := h1
    refine (dispatchException_depths (h.onward hways.thrown) (ht ▸ h.size)).bind fun _ w2 h2 =>
      ensures_pure ?_
    rw [ht] at h2
    refine ⟨h2.1, ⟨.plain (by simp [Instruction.pops, Frame.depths, hs]) (by simp) rfl,
      fun hr => ?_, fun hne => absurd rfl hne, fun _ c hc => ?_⟩, rfl, fun hend => ?_, fun _ => rfl⟩
    · cases hr
    · rw [Scope.exceptionTarget, hc] at h2
      exact h2.2
    · cases hend
  | ret =>
    refine (emitReturn_depths h.plain.root).mono fun q' w1 h1 => ?_
    obtain ⟨ht, hfree, rfl⟩ := h1
    refine ⟨.of_eq ht, ⟨⟨Nat.zero_le _, by simp, fun _ => hfree⟩, fun hr => ?_, fun hne => absurd rfl hne,
      fun hc => ?_⟩, rfl, fun hend => ?_, fun _ => rfl⟩
    · cases hr
    · cases hc
    · cases hend
  | retValue =>
    refine yields_pop fun v s hs => (emitReturn_depths h.plain.root).mono fun q' w1 h1 => ?_
    obtain ⟨ht, hfree, rfl⟩ := h1
    refine ⟨.of_eq ht, ⟨⟨by simp [Instruction.pops, Frame.depths, hs], by simp, fun _ => hfree⟩,
      fun hr => ?_, fun hne => absurd rfl hne, fun hc => ?_⟩, rfl, fun hend => ?_, fun _ => rfl⟩
    · cases hr
    · cases hc
    · cases hend
  | monitorEnter =>
    refine yields_popKind fun a s hs => yields_append fun n w1 h1 => ?_
    refine quiet.bind fun _ w2 h2 => ensures_pure ?_
    exact .simple rfl rfl (h2.trans h1) rfl rfl (by rw [hs]; rfl) rfl (by simp) rfl
  | monitorExit =>
    refine yields_popKind fun a s hs => ?_
    refine .chain (ensures_onFrame (fun v f hrun => ?_) fun _ _ _ => trivial)
    rw [Frame.run_exitMonitor] at hrun
    split at hrun
    · next v' m hm =>
      cases hrun
      refine yields_append fun n w2 h2 => ?_
      refine quiet.bind fun _ w3 h3 => ensures_pure ?_
      have hm : q.frame.monitors = v :: m := hm
      exact .simple rfl rfl (h3.trans h2) rfl rfl (by rw [hs]; rfl) rfl (by simp [hm])
        (by simp [Instruction.holds, hm])
    · cases hrun

end Steps

/-! ## Blocks -/

/-- The depths before instruction number `k` from `s` on, where control arrives with the depths `d`. -/
def Body.depthsAt (b : Body) (d : Depths) (s : Nat) : Nat → Depths
  | 0 => d
  | k + 1 => (b.instruction? ⟨s + k⟩).elim (b.depthsAt d s k) (b.depthsAt d s k).after

variable {d : Depths} {sc : Scope} {t' : Table}

theorem Body.depthsAt_succ {b : Body} (hi : b.instruction? ⟨s⟩ = some i) (k : Nat) :
    b.depthsAt d s (k + 1) = b.depthsAt (d.after i) (s + 1) k := by
  induction k with
  | zero => simp [depthsAt, hi]
  | succ k ih => rw [depthsAt, ih, show s + (k + 1) = s + 1 + k by omega, ← depthsAt]

theorem Lands.mono (h : Lands sc t p i d) (hg : t.Goes n t') : Lands sc t' p i d :=
  ⟨h.allows, fun hr hc => hg.keeps (h.branch hr hc), fun hne hf _ hc => hg.keeps (h.next hne hf hc),
    fun ht _ hc => hg.keeps (h.thrown ht hc)⟩

/-- All instructions of block `a` go on with the depths that `d` at its start makes of them. -/
structure Ran (sc : Scope) (t : Table) (a : BlockId) (d : Depths) : Prop where
  lands : ∀ k, (sc.blocks.block a).start.index + k < (sc.blocks.block a).stop.index →
    ∃ i, sc.body.instruction? ⟨(sc.blocks.block a).start.index + k⟩ = some i ∧
      Lands sc t ⟨(sc.blocks.block a).start.index + k⟩ i
        (sc.body.depthsAt d (sc.blocks.block a).start.index k)
  falls : ∀ k i, (sc.blocks.block a).start.index + k + 1 = (sc.blocks.block a).stop.index →
    sc.body.instruction? ⟨(sc.blocks.block a).start.index + k⟩ = some i → i.fallsThrough = true →
    ∀ {c}, sc.blocks.blockAt? (sc.blocks.block a).stop = some c →
      t.Reached c ((sc.body.depthsAt d (sc.blocks.block a).start.index k).after i)

/-- Block `a`, at which control arrives with the depths `d`, has been lifted. -/
structure Followed (sc : Scope) (t : Table) (a : BlockId) (d : Depths) : Prop where
  ran : (sc.blocks.block a).kind = .instructions → Ran sc t a d
  handled : ∀ {n next h c}, (sc.blocks.block a).kind = .dispatch n next →
    sc.body.handlers[n]? = some h → sc.blocks.blockAt? h.entry = some c → t.Reached c d.raised
  passed : ∀ {n next h c}, (sc.blocks.block a).kind = .dispatch n next →
    sc.body.handlers[n]? = some h → h.catchesAll = false → next = some c → t.Reached c d.raised

theorem Ran.mono (h : Ran sc t a d) (hg : t.Goes n t') : Ran sc t' a d := by
  refine ⟨fun k hk => ?_, fun k i hk hi hf _ hc => hg.keeps (h.falls k i hk hi hf hc)⟩
  obtain ⟨i, hi, hl⟩ := h.lands k hk
  exact ⟨i, hi, hl.mono hg⟩

theorem Followed.mono (h : Followed sc t a d) (hg : t.Goes n t') : Followed sc t' a d :=
  ⟨fun hk => (h.ran hk).mono hg, fun hk hn hc => hg.keeps (h.handled hk hn hc),
    fun hk hn hh hc => hg.keeps (h.passed hk hn hh hc)⟩

section Blocks

variable {sc : Scope} {w w' : Work} {q : Point} {a b c handler : BlockId} {d : Depths}
  {nested : Option Parser}

theorem runCode_depths (h : Standing sc w q.block) (hlast : 0 < n → q.last.isSome = true)
    (hways : ∀ k < n, ∃ i, sc.body.instruction? ⟨s + k⟩ = some i ∧ Ways sc q.block ⟨s + k⟩ i ∧
      (k + 1 < n → i.isBlockEnd = false)) :
    Yields (runCode nested ((List.range' s n).map Position.mk) q) sc w fun q' w' =>
      w.table.Goes (q.block.index + 1) w'.table ∧ q'.block = q.block ∧
      (∀ k < n, ∃ i, sc.body.instruction? ⟨s + k⟩ = some i ∧
        Lands sc w'.table ⟨s + k⟩ i (sc.body.depthsAt q.frame.depths s k)) ∧
      ((∀ k < n, ∀ i, sc.body.instruction? ⟨s + k⟩ = some i → i.isBlockEnd = false) →
        q.last.isSome = true →
          q'.last.isSome = true ∧ q'.frame.depths = sc.body.depthsAt q.frame.depths s n) ∧
      (q.last = none → q'.last = none) ∧ (q'.last.isSome = true →
        ∀ k < n, ∀ i, sc.body.instruction? ⟨s + k⟩ = some i → i.isBlockEnd = false) := by
  induction n generalizing s q w with
  | zero => exact ensures_pure ⟨.refl _ _, rfl, by simp, fun _ hl => ⟨hl, rfl⟩, id, by simp⟩
  | succ n ih =>
    obtain ⟨i, hi, hway, hend⟩ := hways 0 (Nat.succ_pos n)
    have hi : sc.body.instruction? ⟨s⟩ = some i := hi
    have hl := hlast (Nat.succ_pos n)
    obtain ⟨last, hq⟩ := Option.isSome_iff_exists.1 hl
    rw [List.range'_succ, List.map_cons]
    unfold runCode
    refine ensures_read_bind ?_
    rw [hq, hi]
    dsimp only
    refine (step_depths (q := { q with position := ⟨s⟩, last := some last }) h hi hway rfl).bind
      fun q1 w1 h1 => ?_
    obtain ⟨hgoes, hlands, hblock, hstays, hends⟩ := h1
    have hblock : q1.block = q.block := hblock
    refine (ih (q := q1) (s := s + 1) (hblock ▸ h.goes hgoes) (fun hn => (hstays (hend (by omega))).1)
      (fun k hk => ?_)).mono fun q2 w2 h2 => ?_
    · obtain ⟨j, hj, hwj, hej⟩ := hways (k + 1) (by omega)
      refine ⟨j, by rw [← hj]; congr 2; omega, ?_, fun hk' => hej (by omega)⟩
      rw [hblock, show s + 1 + k = s + (k + 1) by omega]
      exact hwj
    obtain ⟨hgoes2, hblock2, hlands2, hlast2, hnone2, hsome2⟩ := h2
    rw [hblock] at hgoes2
    have hshift : ∀ {k j}, sc.body.instruction? ⟨s + 1 + k⟩ = some j ↔
        sc.body.instruction? ⟨s + (k + 1)⟩ = some j := by
      intro k j
      rw [show s + 1 + k = s + (k + 1) by omega]
    refine ⟨hgoes.trans hgoes2, hblock2.trans hblock, fun k hk => ?_, fun hall _ => ?_,
      fun hq' => ?_, fun hq2 k hk j hj => ?_⟩
    · cases k with
      | zero => exact ⟨i, hi, hlands.mono hgoes2⟩
      | succ k =>
        obtain ⟨j, hj, hlj⟩ := hlands2 k (by omega)
        rw [show s + 1 + k = s + (k + 1) by omega] at hj hlj
        refine ⟨j, hj, ?_⟩
        rw [Body.depthsAt_succ hi, ← (hstays (hend (by omega))).2]
        exact hlj
    · have h1 := hstays (hall 0 (Nat.succ_pos n) i hi)
      rw [Body.depthsAt_succ hi, ← h1.2]
      exact hlast2 (fun k hk j hj => hall (k + 1) (by omega) j (hshift.1 hj)) h1.1
    · cases hq'
    · cases k with
      | zero =>
        rw [show sc.body.instruction? ⟨s + 0⟩ = some i from hi, Option.some.injEq] at hj
        subst hj
        cases hend : i.isBlockEnd with
        | false => rfl
        | true =>
          rw [hnone2 (hends hend)] at hq2
          cases hq2
      | succ k => exact hsome2 hq2 k (by omega) j (hshift.2 hj)

theorem openBlock_depths {missing : Defect} (hr : w.table.Reached b d) :
    Yields (openBlock b missing) sc w fun r w' => w.table.Goes k w'.table ∧ r.2.depths = d := by
  unfold openBlock
  refine .chain (yields_entry fun e he => .chain (ensures_setEntry ?_))
  refine .chain (yields_demand fun f hf => ensures_pure ⟨.put_alike he rfl, ?_⟩)
  exact Table.Reached.unique ⟨e, f, he, hf, rfl⟩ hr

theorem beginLoop_depths {l : Nat} {header : NodeId} :
    Yields (beginLoop l header f) sc w fun g w' => w.table.Goes k w'.table ∧ g.depths = f.depths := by
  unfold beginLoop
  refine ensures_get_bind ?_
  dsimp only
  refine (ensures_mapValuesM (fun _ _ w' => w'.table = w.table) (fun v rest done w' ht => ?_) rfl).bind
    fun g w1 h1 => ?_
  · refine ensures_get_bind ?_
    split
    · exact ensures_pure ht
    · exact quiet.bind fun _ w2 h2 => ensures_pure (h2.trans ht)
  refine ensures_get_bind ?_
  split
  · trivial
  refine .chain (ensures_changeTable (ensures_pure ⟨.of_entries ?_, h1.2.depths⟩))
  rw [← h1.1]

theorem instructionBlock_depths (h : Standing sc w b) (hr : w.table.Reached b d) :
    Yields (instructionBlock nested (sc.blocks.block b)) sc w fun _ w' =>
      w.table.Goes (b.index + 1) w'.table ∧ Followed sc w'.table b d := by
  have hch := h.plain.charts
  obtain ⟨hrun, -⟩ := hch.run h.lt h.kind
  have hid := hch.id h.lt
  rw [instructionBlock, hid]
  refine (openBlock_depths (k := b.index + 1) hr).bind fun r w1 h1 => ?_
  obtain ⟨node, f⟩ := r
  obtain ⟨hgoes1, hf⟩ := h1
  have hf : f.depths = d := hf
  have hbody : ∀ (g : Frame) (w2 : Work), w.table.Goes (b.index + 1) w2.table → g.depths = d →
      Yields (runBody nested (sc.blocks.block b) node g) sc w2 fun _ w' =>
        w.table.Goes (b.index + 1) w'.table ∧ Followed sc w'.table b d := by
    intro g w2 hgoes2 hg
    unfold runBody
    rw [hid]
    refine quiet.bind fun _ w3 h3 => ?_
    have hgoes3 : w.table.Goes (b.index + 1) w3.table := hgoes2.trans (.of_eq h3)
    refine (runCode_depths (h.goes hgoes3) (fun _ => rfl) fun k hk => ?_).bind fun q w4 h4 => ?_
    · obtain ⟨i, hi, hways, -⟩ := hch.ways (p := ⟨(sc.blocks.block b).start.index + k⟩) h.lt h.kind
        (Nat.le_add_right _ _) (by show _ + k < _; omega)
      refine ⟨i, hi, hways, fun hlt => ?_⟩
      obtain ⟨i', hi', hend, -⟩ := hch.inside h.lt h.kind ⟨(sc.blocks.block b).start.index + k⟩
        (Nat.le_add_right _ _) (by show _ + k + 1 < _; omega)
      rw [hi, Option.some.injEq] at hi'
      rw [hi', hend]
    obtain ⟨hgoes4, hblock, hlands, hlast, -, hsome⟩ := h4
    have hgoes4 := hgoes3.trans hgoes4
    rw [hg] at hlands hlast
    -- The last instruction falls through: it is a branch, or control is still in the block.
    have hran : ∀ t, w4.table.Goes (b.index + 1) t → (∀ {c}, q.last.isSome = true →
        sc.blocks.blockAt? (sc.blocks.block b).stop = some c → t.Reached c q.frame.depths) →
        Followed sc t b d := by
      intro t ht hnext
      refine ⟨fun _ => ⟨fun k hk => ?_, fun k i hk hi hf c hc => ?_⟩, fun hk => ?_, fun hk => ?_⟩
      · obtain ⟨i, hi, hl⟩ := hlands k (by omega)
        exact ⟨i, hi, hl.mono ht⟩
      · obtain ⟨i', hi', hl⟩ := hlands k (by omega)
        rw [hi, Option.some.injEq] at hi'
        subst hi'
        cases hend : i.isBlockEnd with
        | true =>
          refine (hl.mono ht).next (fun hnil => ?_) hf (by rw [← hc, Position.next, hk])
          simp [Instruction.isBlockEnd, hnil, hf] at hend
        | false =>
          have hall : ∀ k' < (sc.blocks.block b).stop.index - (sc.blocks.block b).start.index, ∀ j,
              sc.body.instruction? ⟨(sc.blocks.block b).start.index + k'⟩ = some j →
                j.isBlockEnd = false := by
            intro k' hk' j hj
            by_cases heq : k' = k
            · rw [heq, hi, Option.some.injEq] at hj
              rw [← hj, hend]
            · obtain ⟨j', hj', hend', -⟩ := hch.inside h.lt h.kind
                ⟨(sc.blocks.block b).start.index + k'⟩ (Nat.le_add_right _ _)
                (by show _ + k' + 1 < _; omega)
              rw [hj, Option.some.injEq] at hj'
              rw [hj', hend']
          obtain ⟨hs, hd⟩ := hlast hall rfl
          have hreach := hnext hs hc
          rw [hd, show (sc.blocks.block b).stop.index - (sc.blocks.block b).start.index = k + 1 by omega,
            Body.depthsAt, hi] at hreach
          exact hreach
      · rw [h.kind] at hk
        cases hk
      · rw [h.kind] at hk
        cases hk
    split
    · next hs =>
      refine ensures_read_bind ?_
      refine .chain (yields_demand fun c hc => ?_)
      obtain ⟨i, hi, -, hway⟩ := hch.ways (p := ⟨(sc.blocks.block b).stop.index - 1⟩) h.lt h.kind
        (by show _ ≤ _ - 1; omega) (by show _ - 1 < _; omega)
      have hend := hsome hs ((sc.blocks.block b).stop.index - 1 - (sc.blocks.block b).start.index)
        (by omega) i (by rw [← hi]; congr 2; omega)
      have hf : i.fallsThrough = true := by
        rw [Instruction.isBlockEnd, Bool.or_eq_false_iff] at hend
        simpa using hend.2
      obtain ⟨c', hc', hway⟩ := hway (by show _ - 1 + 1 = _; omega) hf
      rw [hc, Option.some.injEq] at hc'
      subst hc'
      have hblock : q.block = b := hblock
      refine (jump_depths (hblock ▸ h.onward hway) (hgoes4.size.trans h.size)).bind fun q' w6 h6 =>
        ensures_pure ?_
      rw [hblock] at h6
      refine ⟨hgoes4.trans h6.1, hran _ h6.1 fun {c'} _ hc' => ?_⟩
      rw [hc, Option.some.injEq] at hc'
      subst hc'
      exact h6.2.1
    · next hs => exact ensures_pure ⟨hgoes4, hran _ (.refl _ _) fun hs' => absurd hs' hs⟩
  cases hl : (sc.blocks.block b).loopHeader with
  | none => exact hbody f w1 hgoes1 hf
  | some l =>
    unfold openHeader
    simp only [bind_assoc, pure_bind]
    refine (beginLoop_depths (k := b.index + 1)).bind fun g w2 h2 => ?_
    have hgoes2 := hgoes1.trans h2.1
    refine .chain (yields_entry fun e he => ?_)
    have hd : g.depths = d := h2.2.trans hf
    have hr' := hgoes2.keeps hr
    rw [Table.reached_iff, he] at hr'
    refine .chain (ensures_setEntry (hbody _ _ (hgoes2.trans ?_) hd))
    exact .put_alike he ((congrArg some hd).trans hr'.symm)

theorem testHandler_depths {node : NodeId} {exception : Value} {type : TypeId} {next : BlockId}
    (hsize : w.table.entries.size = sc.blocks.size) (hhandler : sc.blocks.Onward b handler)
    (hnext : sc.blocks.Onward b next) :
    Yields (testHandler b node f exception type false handler next p) sc w fun _ w' =>
      w.table.Goes (b.index + 1) w'.table ∧ w'.table.Reached handler f.depths.raised ∧
        w'.table.Reached next f.depths.raised := by
  unfold testHandler
  refine quiet.bind fun test w1 h1 => ?_
  refine quiet.bind fun split w2 h2 => ?_
  refine quiet.bind fun _ w3 h3 => ?_
  refine quiet.bind fun narrowed w4 h4 => ?_
  have ht : w4.table = w.table := by rw [h4, h3, h2, h1]
  refine (addBranch_depths hhandler (ht ▸ hsize) (by decide)).bind fun _ w5 h5 => ?_
  refine (addBranch_depths hnext (h5.1.size.trans (ht ▸ hsize)) (by decide)).mono fun _ w6 h6 => ?_
  rw [ht] at h5
  exact ⟨h5.1.trans h6.1, h6.1.keeps h5.2, h6.2⟩

theorem pendingException_depths :
    Yields (pendingException f p) sc w fun _ w' => w' = w ∧ f.depths.raised = f.depths := by
  unfold pendingException
  split
  · next v hv =>
    split
    · exact ensures_pure ⟨rfl, by simp [Frame.depths, Depths.raised, hv]⟩
    · trivial
  · trivial

theorem dispatchBlock_depths {next : Option BlockId} (hp : Plain sc)
    (hsize : w.table.entries.size = sc.blocks.size) (hlt : b.index < sc.blocks.size)
    (hkind : (sc.blocks.block b).kind = .dispatch n next) (hr : w.table.Reached b d) :
    Yields (dispatchBlock b n next) sc w fun _ w' =>
      w.table.Goes (b.index + 1) w'.table ∧ Followed sc w'.table b d := by
  obtain ⟨info, c, hinfo, hc, hsucc, hrest⟩ := hp.charts.dispatch hlt hkind
  unfold dispatchBlock
  refine ensures_read_bind ?_
  refine (openBlock_depths (k := b.index + 1) hr).bind fun r w1 h1 => ?_
  obtain ⟨node, f⟩ := r
  obtain ⟨hgoes1, hf⟩ := h1
  have hf : f.depths = d := hf
  refine .chain (ensures_demand hinfo ?_)
  refine pendingException_depths.bind fun exception w3 h3 => ?_
  obtain ⟨rfl, hraised⟩ := h3
  rw [hf] at hraised
  refine quiet.bind fun _ w4 h4 => ?_
  refine .chain (ensures_blockAt hc ?_)
  have hgoes5 : w.table.Goes (b.index + 1) w4.table := hgoes1.trans (.of_eq h4)
  have hfollowed : ∀ t, w4.table.Goes (b.index + 1) t → t.Reached c d.raised →
      (info.catchesAll = false → ∀ {c}, next = some c → t.Reached c d.raised) →
      w.table.Goes (b.index + 1) t ∧ Followed sc t b d := by
    intro t hgoes hhandler hnext
    refine ⟨hgoes5.trans hgoes, fun hk => ?_, fun {n' next' h c} hk hh hc' => ?_,
      fun {n' next' h c} hk hh hall hc' => ?_⟩
    · rw [hkind] at hk
      cases hk
    · rw [hkind] at hk
      cases hk
      rw [hinfo, Option.some.injEq] at hh
      subst hh
      rw [hc, Option.some.injEq] at hc'
      exact hc' ▸ hhandler
    · rw [hkind] at hk
      cases hk
      rw [hinfo, Option.some.injEq] at hh
      subst hh
      exact hnext hall hc'
  cases hcatch : info.catchType with
  | none =>
    refine (resolveTarget_depths (hp.charts.onward hlt hsucc) (hgoes5.size.trans hsize)
      not_one_le_zero).bind fun stub w6 h6 => ?_
    refine quiet.mono fun _ w7 h7 => ?_
    rw [h7]
    refine hfollowed _ h6.1 ?_ fun hall => ?_
    · rw [hraised, ← hf]
      exact h6.2
    · rw [Handler.catchesAll, hcatch] at hall
      cases hall
  | some type =>
    rcases hrest with hrest | ⟨e, he, hsucc', -⟩
    · rw [hcatch] at hrest
      cases hrest
    dsimp only
    refine .chain (ensures_demand he ?_)
    obtain ⟨td, htd⟩ := hp.catches hinfo hcatch
    rw [hp.skipped, htd]
    refine (testHandler_depths (hgoes5.size.trans hsize) (hp.charts.onward hlt hsucc)
      (hp.charts.onward hlt hsucc')).mono fun _ w7 h7 => ?_
    rw [hf] at h7
    refine hfollowed _ h7.1 h7.2.1 fun _ c' hc' => ?_
    rw [he, Option.some.injEq] at hc'
    exact hc' ▸ h7.2.2

theorem wayOut_depths {b : Block} (hr : w.table.Reached b.id d) (hroot : sc.depth = 0) :
    Yields (unwindBlock b) sc w (fun _ w' => w.table.Goes (b.id.index + 1) w'.table) ∧
      Yields (exitBlock b) sc w (fun _ w' => w.table.Goes (b.id.index + 1) w'.table) := by
  constructor
  · unfold unwindBlock
    refine (openBlock_depths (k := b.id.index + 1) hr).bind fun r w1 h1 => ?_
    obtain ⟨node, f⟩ := r
    refine ensures_read_bind ?_
    rw [if_pos hroot]
    refine quiet.bind fun _ w2 h2 => ?_
    split
    · refine quiet.bind fun n w3 h3 => ?_
      refine quiet.mono fun _ w4 h4 => h1.1.trans (.of_eq ?_)
      rw [h4, h3, h2]
    · trivial
  · unfold exitBlock
    refine (openBlock_depths (k := b.id.index + 1) hr).bind fun r w1 h1 => ?_
    exact ensures_changeTable (h1.1.trans (.of_entries rfl))

/-- Lifting a block that is reached follows it. -/
theorem liftBlock_depths (hp : Plain sc) (hsize : w.table.entries.size = sc.blocks.size)
    (hlt : b.index < sc.blocks.size) :
    Yields (liftBlock nested (sc.blocks.block b)) sc w fun _ w' => w.table.Goes (b.index + 1) w'.table ∧
      ∀ d, w'.table.Reached b d → Followed sc w'.table b d := by
  have hid := hp.charts.id hlt
  unfold liftBlock
  rw [hid]
  refine .chain (ensures_get_bind (ensures_pure ?_))
  split
  · next hs =>
    obtain ⟨d, hr⟩ : ∃ d, w.table.Reached b d := by
      obtain ⟨f, hf⟩ := Option.isSome_iff_exists.1 hs
      obtain ⟨e, he, hf⟩ := Option.bind_eq_some_iff.1 hf
      exact ⟨f.depths, e, f, he, hf, rfl⟩
    have hall : ∀ w' : Work, w.table.Goes (b.index + 1) w'.table ∧ Followed sc w'.table b d →
        w.table.Goes (b.index + 1) w'.table ∧ ∀ d, w'.table.Reached b d → Followed sc w'.table b d := by
      rintro w' ⟨hgoes, hfol⟩
      exact ⟨hgoes, fun d' hr' => hr'.unique (hgoes.keeps hr) ▸ hfol⟩
    have hout : ∀ w' : Work, (sc.blocks.block b).kind = .exit ∨ (sc.blocks.block b).kind = .unwind →
        Followed sc w'.table b d := by
      intro w' hk
      refine ⟨fun hk' => ?_, fun hk' => ?_, fun hk' => ?_⟩ <;>
      · rw [hk'] at hk
        rcases hk with hk | hk <;> cases hk
    refine quiet.bind fun _ w1 h1 => ?_
    rw [← h1] at hr hsize hall ⊢
    obtain ⟨hu, he⟩ := wayOut_depths (w := w1) (b := sc.blocks.block b) (hid.symm ▸ hr) hp.root
    rw [hid] at hu he
    cases hkind : (sc.blocks.block b).kind with
    | instructions =>
      exact (instructionBlock_depths ⟨hp, hsize, hlt, hkind⟩ hr).mono fun _ w' h => hall w' h
    | dispatch n next => exact (dispatchBlock_depths hp hsize hlt hkind hr).mono fun _ w' h => hall w' h
    | exit => exact he.mono fun _ w' h => hall w' ⟨h, hout w' (.inl hkind)⟩
    | unwind => exact hu.mono fun _ w' h => hall w' ⟨h, hout w' (.inr hkind)⟩
  · next hs =>
    refine ensures_pure ⟨.refl _ _, fun d hr => absurd ?_ hs⟩
    obtain ⟨e, f, he, hf, -⟩ := hr
    rw [Table.slot?] at he
    simp [he, hf]

end Blocks

end StackLift
