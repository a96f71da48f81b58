import Mathlib.Logic.Relation
import StackLift.Proofs.Built
import StackLift.Proofs.Discipline
import StackLift.Proofs.Odds
import StackLift.Proofs.Positions

/-!
# Paths through a body

A path goes from instruction to instruction: to the next one, to a branch target, or from one that
throws to any of the handlers that its exception is offered to. What is on the stack and which monitors
are held is known along the way only as far as depths go (`Body.Flows`).

A build lifts every block once, from one frame. Still, what it accepts is disciplined on every path
(`Body.Disciplined`): nothing is taken from an empty stack, no monitor is left that is not held, none is
held at a return, and all paths to a position arrive with the same depths. The frame with which a block
was first reached is what every path brings, since each edge was checked against it.
-/
namespace StackLift

open BuildM

namespace Body

/-- One step of a path. -/
inductive Flows (b : Body) : Position × Depths → Position × Depths → Prop where
  | next {p d i} (hi : b.instruction? p = some i) (hf : i.fallsThrough = true) :
      Flows b (p, d) (p.next, d.after i)
  | branch {p d i t} (hi : b.instruction? p = some i) (ht : t ∈ i.branchTargets) :
      Flows b (p, d) (t, d.after i)
  | raise {p d i n h} (hi : b.instruction? p = some i) (hc : i.canThrow = true)
      (hn : n ∈ b.handlersAt p) (hh : b.handlers[n]? = some h) : Flows b (p, d) (h.entry, d.raised)

/-- Some path from the first instruction arrives at `p` with the depths `d`. -/
def Arrives (b : Body) (p : Position) (d : Depths) : Prop :=
  Relation.ReflTransGen b.Flows (⟨0⟩, ⟨0, 0⟩) (p, d)

/-- Every path keeps to the stack and to the monitors. -/
structure Disciplined (b : Body) : Prop where
  allows : ∀ {p d i}, b.Arrives p d → b.instruction? p = some i → d.Allows i
  agree : ∀ {p d d'}, b.Arrives p d → b.Arrives p d' → d = d'

end Body

/-! ## Where paths go -/

/-- Every block that was reached has been lifted. -/
structure Settled (sc : Scope) (t : Table) : Prop where
  plain : Plain sc
  map : BlockMap.ofBody sc.body = .ok sc.blocks
  size : t.entries.size = sc.blocks.size
  start : t.Reached ⟨0⟩ ⟨0, 0⟩
  followed : ∀ {a d}, t.Reached a d → Followed sc t a d

/-- A path is at `p` with the depths that the block around it has there. -/
def Settled.On (sc : Scope) (t : Table) (p : Position) (d : Depths) : Prop :=
  ∃ a d0 k, sc.blocks.Holds a p ∧ t.Reached a d0 ∧ (sc.blocks.block a).start.index + k = p.index ∧
    d = sc.body.depthsAt d0 (sc.blocks.block a).start.index k

namespace Settled

variable {sc : Scope} {t : Table} {p : Position} {d d' : Depths} {i : Instruction Position}

section

variable (h : Settled sc t) {c : BlockId} {n : Nat} {x : Handler}
include h

theorem on_start (hc : sc.blocks.blockAt? p = some c) (hr : t.Reached c d) : On sc t p d := by
  obtain ⟨hlt, hkind, hstart⟩ := h.plain.charts.blockAt hc
  refine ⟨c, d, 0, ⟨hlt, hkind, by rw [hstart], ?_⟩, hr, by rw [hstart]; rfl, rfl⟩
  rw [← hstart]
  exact (h.plain.charts.run hlt hkind).1

theorem On.lands (hon : On sc t p d) (hi : sc.body.instruction? p = some i) : Lands sc t p i d := by
  obtain ⟨a, d0, k, ha, hr, hk, rfl⟩ := hon
  obtain ⟨i', hi', hl⟩ := ((h.followed hr).ran ha.kind).lands k (hk ▸ ha.stop)
  rw [hk] at hi' hl
  rw [hi, Option.some.injEq] at hi'
  exact hi' ▸ hl

theorem On.unique (hon : On sc t p d) (hon' : On sc t p d') : d = d' := by
  obtain ⟨hv, -, hmap⟩ := BlockMap.ofBody_inv h.map
  obtain ⟨left, ho⟩ := BlockMap.exists_ordered (Body.valid_of_validate hv)
  obtain ⟨a, d0, k, ha, hr, hk, rfl⟩ := hon
  obtain ⟨a', d0', k', ha', hr', hk', rfl⟩ := hon'
  rw [hmap] at ha ha'
  obtain rfl := ha.unique ho ha'
  rw [hr.unique hr', show k = k' by omega]

theorem On.next (hon : On sc t p d) (hi : sc.body.instruction? p = some i) (hf : i.fallsThrough = true) :
    On sc t p.next (d.after i) := by
  obtain ⟨a, d0, k, ha, hr, hk, rfl⟩ := hon
  by_cases hlast : p.index + 1 = (sc.blocks.block a).stop.index
  · have hstop : p.next = (sc.blocks.block a).stop := by rw [Position.next, hlast]
    obtain ⟨i', hi', hleads⟩ := h.plain.charts.last ha.lt ha.kind p hlast
    rw [hi, Option.some.injEq] at hi'
    subst hi'
    obtain ⟨c, hc, -⟩ := hleads.next hf
    refine h.on_start hc (((h.followed hr).ran ha.kind).falls k i (by omega) ?_ hf (hstop ▸ hc))
    rw [hk, hi]
  · have hstop := ha.stop
    have hstart := ha.start
    refine ⟨a, d0, k + 1, ⟨ha.lt, ha.kind, ?_, ?_⟩, hr, ?_, ?_⟩
    · rw [Position.next]
      exact Nat.le_succ_of_le hstart
    · rw [Position.next]
      exact Nat.lt_of_le_of_ne hstop hlast
    · rw [Position.next, ← hk]
      rfl
    · rw [Body.depthsAt, hk, hi]
      rfl

theorem On.branch (hon : On sc t p d) (hi : sc.body.instruction? p = some i) {r : Position}
    (hr : r ∈ i.branchTargets) : On sc t r (d.after i) := by
  have hl := hon.lands h hi
  obtain ⟨a, d0, k, ha, -, -, -⟩ := hon
  obtain ⟨i', hi', hways, -⟩ := h.plain.charts.ways ha.lt ha.kind ha.start ha.stop
  rw [hi, Option.some.injEq] at hi'
  subst hi'
  obtain ⟨c, hc, -⟩ := hways.target r hr
  exact h.on_start hc (hl.branch hr hc)

/-- An exception is offered to every handler of a list that its first test is reached with. -/
theorem handled {left : List Vertex} (ho : BlockMap.Ordered sc.body left)
    (hmap : sc.blocks = BlockMap.mapOf sc.body) {hs : List Nat}
    (hc : (BlockMap.order sc.body.partition)[c.index]? = some (Partition.chain hs))
    (hsuf : hs <:+ sc.body.handlersAt p) (hr : t.Reached c d.raised) (hn : n ∈ hs)
    (hx : sc.body.handlers[n]? = some x) : On sc t x.entry d.raised := by
  induction hs generalizing c with
  | nil => cases hn
  | cons n0 rest ih =>
    have hblock := BlockMap.block_mapOf hc
    have hlt : c.index < sc.blocks.size := by
      rw [hmap, BlockMap.mapOf_size]
      exact (List.getElem?_eq_some_iff.1 hc).1
    rw [← hmap] at hblock
    have hkind : (sc.blocks.block c).kind = .dispatch n0 (if sc.body.catchesAllAt n0 then none
        else BlockMap.number? (BlockMap.order sc.body.partition) (Partition.chain rest)) := by
      rw [hblock]
      rfl
    obtain ⟨x0, e, hx0, he, -, -⟩ := h.plain.charts.dispatch hlt hkind
    have hfol := h.followed hr
    rcases List.mem_cons.1 hn with rfl | hn
    · rw [hx, Option.some.injEq] at hx0
      subst hx0
      exact h.on_start he (hfol.handled hkind hx he)
    · have hall : x0.catchesAll = false := by
        cases hall : x0.catchesAll with
        | false => rfl
        | true =>
          have hnil := Body.coveringIn_catchesAll hsuf (fun y hy => ?_) hall
          · rw [hnil] at hn
            cases hn
          · rw [List.mem_zipIdx_iff_getElem?] at hy
            exact Option.some.inj (hy.symm.trans hx0)
      have hcatch : sc.body.catchesAllAt n0 = false := by simp [Body.catchesAllAt, hx0, hall]
      rw [hcatch] at hkind
      have hrest : rest <:+ sc.body.handlersAt p := (List.suffix_cons n0 rest).trans hsuf
      have hsucc : Partition.chain rest ∈ sc.body.partition.successors (.dispatch n0 rest) := by
        rw [Partition.successors, mem_squeeze,
          show sc.body.partition.body.catchesAllAt n0 = false from hcatch]
        simp
      obtain ⟨c', hc', -⟩ := ho.exists_successor hc hsucc
      have hnum : BlockMap.number? (BlockMap.order sc.body.partition)
        (Partition.chain rest) = some c' := by
        rw [BlockMap.number?, BlockMap.idxOf?_of_getElem? ho.nodup_order hc']
        rfl
      exact ih hc' hrest (hfol.passed hkind hx0 hall hnum) hn

theorem On.raise (hon : On sc t p d) (hi : sc.body.instruction? p = some i) (hthrow : i.canThrow = true)
    (hn : n ∈ sc.body.handlersAt p) (hx : sc.body.handlers[n]? = some x) :
    On sc t x.entry d.raised := by
  obtain ⟨hv, -, hmap⟩ := BlockMap.ofBody_inv h.map
  obtain ⟨left, ho⟩ := BlockMap.exists_ordered (Body.valid_of_validate hv)
  have hthrown : sc.body.thrownTo p = sc.body.handlersAt p := by simp [Body.thrownTo, hi, hthrow]
  obtain ⟨n0, rest, hhs⟩ := List.exists_cons_of_ne_nil (List.ne_nil_of_mem hn)
  have hl := hon.lands h hi
  obtain ⟨a, d0, k, ha, -, -, -⟩ := hon
  rw [hmap] at ha
  obtain ⟨-, c, hc, hvc⟩ := ha.thrown ho (hthrown.trans hhs)
  have hsuf : (n0 :: rest) <:+ sc.body.handlersAt p := hhs ▸ List.suffix_refl _
  exact h.handled ho hmap hvc hsuf (hl.thrown hthrow (hmap ▸ hc)) (hhs ▸ hn) hx

theorem disciplined : sc.body.Disciplined := by
  have hon : ∀ {p d}, sc.body.Arrives p d → On sc t p d := by
    intro p d hpath
    refine Relation.ReflTransGen.head_induction_on (motive := fun x _ => On sc t x.1 x.2 → On sc t p d)
      hpath id (fun {x y} hstep _ ih hx => ih ?_) ?_
    · cases hstep with
      | next hi hf => exact hx.next h hi hf
      | branch hi ht => exact hx.branch h hi ht
      | raise hi hc hn hh => exact hx.raise h hi hc hn hh
    · have hlt : 0 < sc.blocks.size := Nat.lt_of_lt_of_le (by decide) h.plain.charts.size
      obtain ⟨hkind, hstart⟩ := h.plain.charts.entry
      have hrun := h.plain.charts.run (a := ⟨0⟩) hlt hkind
      rw [hstart] at hrun
      exact ⟨⟨0⟩, ⟨0, 0⟩, 0, ⟨hlt, hkind, by rw [hstart], hrun.1⟩, h.start, by rw [hstart], rfl⟩
  exact ⟨fun hp hi => ((hon hp).lands h hi).allows, fun hp hp' => (hon hp).unique h (hon hp')⟩

end

end Settled

/-! ## Methods -/

section Methods

variable {sc : Scope} {w : Work} {f : Frame} {nested : Option Parser}

theorem Table.Reached.of_put {t : Table} {b c : BlockId} {e : Entry} {d : Depths} (hf : e.frame = none)
    (h : (t.put b e).Reached c d) : t.Reached c d := by
  by_cases hb : b.index < t.entries.size
  · rw [Table.reached_iff, Table.slot?_put hb] at h
    by_cases hcb : c = b
    · rw [if_pos hcb, Option.bind_some, hf] at h
      cases h
    · rw [if_neg hcb] at h
      exact Table.reached_iff.2 h
  · rwa [Table.put, Array.setIfInBounds_eq_of_size_le (Nat.le_of_not_lt hb)] at h

theorem createLoopHeaders_depths (hnone : ∀ b d, ¬ w.table.Reached b d) :
    Yields createLoopHeaders sc w fun _ w' => w'.table.entries.size = w.table.entries.size ∧
      ∀ b d, ¬ w'.table.Reached b d := by
  unfold createLoopHeaders
  refine ensures_read_bind ?_
  refine (ensures_forIn (fun _ w' => w'.table.entries.size = w.table.entries.size ∧
    ∀ b d, ¬ w'.table.Reached b d) (fun l rest w1 h1 => ?_) ⟨rfl, hnone⟩).bind fun _ _ h => ensures_pure h
  refine quiet.bind fun b w2 h2 => ?_
  refine quiet.bind fun n w3 h3 => ?_
  refine (ensures_setEntry (Q := fun _ w' => w'.table.entries.size = w.table.entries.size ∧
    ∀ b d, ¬ w'.table.Reached b d) ?_).bind fun _ w4 h4 => ?_
  · rw [h3, h2]
    exact ⟨Array.size_setIfInBounds.trans h1.1, fun c d hr => h1.2 c d (Table.Reached.of_put rfl hr)⟩
  · refine (ensures_changeTable (Q := fun _ w' => w'.table.entries = w4.table.entries) rfl).bind
      fun _ w5 h5 => ensures_pure ⟨rfl, h5 ▸ h4.1, fun c d hr => ?_⟩
    rw [Table.reached_iff, Table.slot?, h5] at hr
    exact h4.2 c d (Table.reached_iff.2 hr)

theorem connectEntry_depths (hsize : w.table.entries.size = sc.blocks.size) (hlt : 0 < sc.blocks.size)
    (hnone : ∀ b d, ¬ w.table.Reached b d) :
    Yields (connectEntry f none) sc w fun _ w' => w.table.Goes 0 w'.table ∧
      w'.table.Reached ⟨0⟩ f.depths := by
  unfold connectEntry
  refine ensures_read_bind ?_
  refine quiet.bind fun n w1 h1 => ?_
  refine quiet.bind fun _ w2 h2 => ?_
  refine quiet.bind fun _ w3 h3 => ?_
  have ht : w3.table = w.table := by rw [h3, h2, h1]
  split
  · refine (addLoopEntry_depths (Nat.zero_le _)).bind fun stop w4 h4 => ?_
    refine quiet.mono fun _ w5 h5 => ?_
    rw [h5, ← ht]
    exact h4
  · refine ensures_setEntry ?_
    rw [ht]
    refine Table.Goes.first (hsize ▸ hlt) (fun e he => ?_) rfl (Nat.zero_le _)
    cases hf : e.frame with
    | none => rfl
    | some g => exact absurd ⟨e, g, he, hf, rfl⟩ (hnone ⟨0⟩ g.depths)

theorem liftBlocks_depths (hp : Plain sc) (hsize : w.table.entries.size = sc.blocks.size) :
    Yields (forIn sc.blocks.blocks PUnit.unit fun b _ => do
      liftBlock nested b
      pure (ForInStep.yield PUnit.unit)) sc w fun _ w' =>
        w'.table.entries.size = sc.blocks.size ∧ (∀ {a d}, w.table.Reached a d → w'.table.Reached a d) ∧
        ∀ {a d}, w'.table.Reached a d → Followed sc w'.table a d := by
  refine (ensures_forBlocks (fun k w' => w'.table.entries.size = sc.blocks.size ∧
      (∀ {a d}, w.table.Reached a d → w'.table.Reached a d) ∧
      ∀ {a d}, a.index < k → w'.table.Reached a d → Followed sc w'.table a d) (fun k w1 hk h1 => ?_)
    ⟨hsize, id, fun h => absurd h (Nat.not_lt_zero _)⟩).mono fun _ w' hI => ?_
  · obtain ⟨hsize1, hkeeps, hdone⟩ := h1
    refine (liftBlock_depths (b := ⟨k⟩) hp hsize1 hk).mono fun _ w2 h2 => ⟨h2.1.size.trans hsize1,
      fun hr => h2.1.keeps (hkeeps hr), fun {a d} hlt hr => ?_⟩
    by_cases hak : a = ⟨k⟩
    · subst hak
      exact h2.2 d hr
    · have hak : a.index < k := by
        refine Nat.lt_of_le_of_ne (Nat.le_of_lt_succ hlt) fun heq => hak ?_
        rw [← heq]
      exact (hdone hak ((h2.1.later hr).resolve_right (by show ¬ k + 1 ≤ _; omega))).mono h2.1
  · obtain ⟨hsize', hkeeps, hdone⟩ := hI
    refine ⟨hsize', hkeeps, fun {a d} hr => hdone ?_ hr⟩
    obtain ⟨e, -, he, -, -⟩ := hr
    exact hsize' ▸ Table.lt_of_slot? he

theorem parseWith_depths (hp : Plain sc) (hmap : BlockMap.ofBody sc.body = .ok sc.blocks)
    (ht : w.table = Table.blank sc.blocks.size) (hf : f.depths = ⟨0, 0⟩) :
    Yields (parseWith nested f none) sc w fun _ w' => Settled sc w'.table := by
  have hnone : ∀ b d, ¬ w.table.Reached b d := by
    intro b d hr
    rw [ht, Table.reached_iff, Table.slot?_blank] at hr
    cases hr
  have hsize : w.table.entries.size = sc.blocks.size := by
    rw [ht]
    exact Array.size_replicate
  unfold parseWith followBlocks
  refine Ensures.bind (Q := fun _ w' => w'.table = w.table) rfl fun _ w0 h0 => ?_
  rw [← h0] at hnone hsize
  refine (createLoopHeaders_depths hnone).bind fun _ w1 h1 => ?_
  have hsize1 := h1.1.trans hsize
  refine (connectEntry_depths hsize1 (Nat.lt_of_lt_of_le (by decide) hp.charts.size) h1.2).bind
    fun _ w2 h2 => ?_
  refine ensures_read_bind ((liftBlocks_depths hp (h2.1.size.trans hsize1)).bind fun _ w3 h3 => ?_)
  obtain ⟨hsize3, hkeeps, hfol⟩ := h3
  exact ensures_get_bind (ensures_pure ⟨hp, hmap, hsize3, hkeeps (hf ▸ h2.2), hfol⟩)

end Methods

/-! ## Builds -/

/-- All types that the body names are known. -/
structure Body.Resolves (b : Body) (h : Hierarchy) : Prop where
  code : ∀ i ∈ b.code, ∀ t, i.type? = some t → (h.lookupType t).isOk = true
  catches : ∀ x ∈ b.handlers, ∀ t, x.catchType = some t → (h.lookupType t).isOk = true

/-- No instruction has more targets than a word can count. -/
def Body.Countable (b : Body) : Prop := ∀ i ∈ b.code, i.branchTargets.length < 2 ^ 64

theorem exists_of_isOk {ε α : Type} {x : Except ε α} (h : x.isOk = true) : ∃ a, x = .ok a := by
  cases x with
  | ok a => exact ⟨a, rfl⟩
  | error e => cases h

theorem Scope.ofMethod_handles {env : Env} {config : Config} {m : MethodDecl} {body : Body}
    {chain : List MethodId} {callers : Option Snapshot} {handles : Bool} {sc : Scope}
    (h : Scope.ofMethod env config m body chain callers handles = .ok sc) :
      sc.callerHandles = handles := by
  obtain ⟨blocks, -, h⟩ := ok_of_bind h
  cases h
  rfl

section Builds

variable {env : Env} {config : Config} {root : MethodId} {m : MethodDecl} {body : Body} {built : Built}

theorem plain_of_prepare {sc : Scope} {f : Frame} {g : Graph}
    (hm : env.hierarchy.lookupMethod root = .ok m)
    (hb : m.body = some body) (hcalls : ∀ i ∈ body.code, i.isCall = false)
    (htypes : body.Resolves env.hierarchy) (hcount : body.Countable) (hprofile : env.profile = .blank)
    (hskip : config.skippedExceptionTypes = []) (hprep : prepare env config root = .ok (sc, f, g)) :
    Plain sc ∧ BlockMap.ofBody sc.body = .ok sc.blocks ∧ sc.body = body ∧ f.depths = ⟨0, 0⟩ := by
  obtain ⟨decl, body', hroot, hargs, hscope, -⟩ := prepare_ok hprep
  obtain ⟨hdecl, hbody⟩ := findRoot_ok hroot
  rw [hm, Except.ok.injEq] at hdecl
  subst hdecl
  rw [hb, Option.some.injEq] at hbody
  subst hbody
  have hhandles := Scope.ofMethod_handles hscope
  obtain ⟨hmap, rfl, rfl, -, rfl, hchain, -⟩ := Scope.ofMethod_ok hscope
  refine ⟨⟨BlockMap.charts_of_ofBody hmap, by rw [Scope.depth, hchain]; rfl, hhandles,
    fun hi => hcalls _ (Array.mem_of_getElem? hi),
    fun hi ht => exists_of_isOk (htypes.code _ (Array.mem_of_getElem? hi) _ ht),
    fun hx ht => exists_of_isOk (htypes.catches _ (List.mem_of_getElem? hx) _ ht), hprofile, hskip,
    fun hi => ?_⟩, hmap, rfl, ?_⟩
  · have := hcount _ (Array.mem_of_getElem? hi)
    rw [Instruction.branchTargets, List.length_append] at this
    exact Odds.not_share_le_zero (Nat.succ_pos _) this
  · unfold Frame.withArgs at hargs
    split at hargs
    · cases hargs
    · cases hargs
      rfl

/-- **Discipline.** A method without calls that can be built, where all types are known and nothing is
known about its runs, is disciplined on every path. -/
theorem build_disciplined (hm : env.hierarchy.lookupMethod root = .ok m) (hb : m.body = some body)
    (hcalls : ∀ i ∈ body.code, i.isCall = false)
    (htypes : body.Resolves env.hierarchy) (hcount : body.Countable) (hprofile : env.profile = .blank)
    (hskip : config.skippedExceptionTypes = []) (hbuild : build env config root = .ok built) :
    body.Disciplined := by
  obtain ⟨sc, f, g, x, w, hprep, hrun, -⟩ := build_ok hbuild
  obtain ⟨hp, hmap, rfl, hf⟩ := plain_of_prepare hm hb hcalls htypes hcount hprofile hskip hprep
  have hparse : Yields (parse config.maxInliningDepth f none) sc
      { graph := g, table := Table.blank sc.blocks.size } fun _ w' => Settled sc w'.table := by
    cases config.maxInliningDepth with
    | zero => exact parseWith_depths hp hmap rfl hf
    | succ n => exact parseWith_depths hp hmap rfl hf
  exact (hparse.ok hrun).disciplined

/-- Divides while a lock is held, and gives the lock back on both ways to the return. -/
def lockedDivision : Body where
  code := #[.load 0, .monitorEnter, .const 1, .load 1, .arith .div, .pop, .load 0,
    .monitorExit, .goto ⟨12⟩,
    .pop, .load 0, .monitorExit, .load 1, .retValue]
  maxLocals := 2
  handlers := [⟨⟨4⟩, ⟨5⟩, ⟨9⟩, none⟩]

def lockedMethod : MethodDecl where
  id := ⟨0⟩
  name := "divide"
  holder := ⟨0⟩
  flags.static := true
  params := [.object, .int]
  returns := .int
  body := some lockedDivision

def lockedProgram : Env := { hierarchy.methods := [lockedMethod] }

theorem lockedDivision_arrives : lockedDivision.Arrives ⟨9⟩ ⟨1, 1⟩ := by
  have before : lockedDivision.Arrives ⟨4⟩ ⟨2, 1⟩ :=
    (((Relation.ReflTransGen.refl.tail (.next (i := .load 0) rfl rfl)).tail
      (.next (i := .monitorEnter) rfl rfl)).tail
      (.next (i := .const 1) rfl rfl)).tail (.next (i := .load 1) rfl rfl)
  have caught : 0 ∈ lockedDivision.handlersAt ⟨4⟩ := by decide
  exact before.tail (.raise (i := .arith .div) rfl rfl caught rfl)

theorem lockedDivision_disciplined : (build lockedProgram {} ⟨0⟩).isOk = true ∧
    lockedDivision.Arrives ⟨9⟩ ⟨1, 1⟩ ∧ lockedDivision.Disciplined := by
  have hok : (build lockedProgram {} ⟨0⟩).isOk = true := by decide +kernel
  have hcalls : ∀ i ∈ lockedDivision.code, i.isCall = false := by decide
  have htypes : lockedDivision.Resolves lockedProgram.hierarchy := by
    have hcode : ∀ i ∈ lockedDivision.code, i.type? = none := by decide
    have hcatch : ∀ x ∈ lockedDivision.handlers, x.catchType = none := by decide
    refine ⟨fun i hi t ht => ?_, fun x hx t ht => ?_⟩
    · cases (hcode i hi).symm.trans ht
    · cases (hcatch x hx).symm.trans ht
  have hcount : lockedDivision.Countable := by
    unfold Body.Countable
    decide
  have hm : lockedProgram.hierarchy.lookupMethod ⟨0⟩ = .ok lockedMethod := rfl
  obtain ⟨built, hbuild⟩ := exists_of_isOk hok
  exact ⟨hok, lockedDivision_arrives, build_disciplined hm rfl hcalls htypes hcount rfl rfl hbuild⟩

end Builds

end StackLift
