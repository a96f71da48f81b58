import Mathlib.Logic.Function.Iterate
import StackLift.Proofs.LiveSets
import StackLift.Proofs.Positions

/-!
# Liveness is exact on paths

The live sets are a solution of their equations (`settle_spec`), and the least one: they are grown
from nothing, and whatever satisfies the equations as a property of blocks and slots holds of every
member that is ever added (`Has.settle`). Being read along some path is such a property, so the live
slots are exactly those that a path reads before it writes them.

**Loops.** A set that is read in the middle of a round may already be the new one. This makes no
difference to either direction: sets only grow, and they never grow past the least solution.
-/
namespace StackLift

variable {b : BlockId} {fuel s slots : Nat}

namespace Liveness

/-! ## Paths -/

/-- Control goes from `b` along the blocks of `through` to `last`, which loads `s`; none of the blocks
on the way stores it. -/
structure Reads (body : Body) (m : BlockMap) (s : Nat) (b : BlockId) (through : List BlockId)
    (last : BlockId) : Prop where
  head : (through ++ [last]).head? = some b
  chain : (through ++ [last]).IsChain fun a c => c ∈ (m.block a).successors
  kept : ∀ a ∈ through, .store s ∉ codeOf body (m.block a)
  loads : Loads s (codeOf body (m.block last))

/-! ## The least solution -/

section Least

variable {slots count x : Nat} {bs part : List (Block × Access)} {live : Array BitSet}
  {P : BlockId → Nat → Prop}

/-- `P` holds of whatever a block asks for if it holds of what its successors have. -/
def Closed (bs : List (Block × Access)) (P : BlockId → Nat → Prop) : Prop :=
  ∀ q ∈ bs, ∀ x, q.2.Asks (fun x => ∃ t ∈ q.1.successors, P t x) x → P q.1.id x

theorem Closed.round (hP : Closed bs P) (hl : Listed slots count bs)
    (hpart : ∀ q ∈ part, q ∈ bs) (h : Sized slots count live)
    (hlive : ∀ b x, Has slots live b x → P b x) : Sized slots count (part.foldl (put slots) live) ∧
      ∀ b x, Has slots (part.foldl (put slots) live) b x → P b x := by
  induction part generalizing live with
  | nil => exact ⟨h, hlive⟩
  | cons q part ih =>
    have hq : q ∈ bs := hpart q (by simp)
    refine ih (fun r hr => hpart r (by simp [hr])) (sized_put hl hq h) fun b x hx => ?_
    rw [has_put hl hq h] at hx
    split at hx
    · next hb =>
      subst hb
      refine hP q hq x (hx.imp_right fun hx => ⟨?_, hx.2⟩)
      obtain ⟨t, ht, hxt⟩ := hx.1
      exact ⟨t, ht, hlive t x hxt⟩
    · exact hlive b x hx

theorem Has.settle (hP : Closed bs P) (hl : Listed slots count bs) (h : Sized slots count live)
    (hlive : ∀ b x, Has slots live b x → P b x) (hx : Has slots (settle slots bs fuel live) b x) :
    P b x := by
  induction fuel generalizing live with
  | zero => exact hlive b x hx
  | succ fuel ih =>
    rw [Liveness.settle] at hx
    split at hx
    · exact hlive b x hx
    · obtain ⟨h', hlive'⟩ := hP.round hl (fun _ hq => hq) h hlive
      rw [← round_eq] at h' hlive'
      exact ih h' hlive' hx

theorem settle_eq_iterate (hl : Listed slots count bs) (h : Growing slots count bs live)
    (hfuel : count * slots < (members slots count live).card + fuel) :
    ∃ n ≤ count * slots - (members slots count live).card,
      settle slots bs fuel live = (round slots bs)^[n] live ∧
      round slots bs (settle slots bs fuel live) = settle slots bs fuel live := by
  induction fuel generalizing live with
  | zero =>
    have : (members slots count live).card ≤ count * slots := card_members_le live
    omega
  | succ fuel ih =>
    rw [settle]
    split
    · next heq => exact ⟨0, Nat.zero_le _, rfl, heq⟩
    · next hne =>
      obtain ⟨hnext, hle, -⟩ := h.round hl fun _ hq => hq
      rw [← round_eq] at hnext hle
      have hlt := card_members_lt h.sized hnext.sized hle hne
      have hmax : (members slots count (round slots bs live)).card ≤ count * slots := card_members_le _
      obtain ⟨n, hn, heq, hfix⟩ := ih hnext (by omega)
      exact ⟨n + 1, by omega, heq, hfix⟩

end Least

/-! ## Scanning in range -/

/-- A step of the scan that fails where it would insert a slot out of range. -/
def Access.step? (a : Access) : Instruction Position → Option Access
  | .load s => if a.stored.contains s then some a
    else (a.used.insert? s).map fun used => { a with used }
  | .store s => (a.stored.insert? s).map fun stored => { a with stored }
  | _ => some a

theorem Access.scan?_eq {a : Access} (h : a.Over slots) {code : List (Instruction Position)}
    (hcode : ∀ i ∈ code, ∀ s, i.slot? = some s → s < slots) :
    code.foldlM Access.step? a = some (code.foldl Access.step a) := by
  induction code generalizing a with
  | nil => rfl
  | cons i code ih =>
    have hi : a.step? i = some (a.step i) := by
      have hslot := hcode i (by simp)
      cases i with
      | load s =>
        have hs : s < a.used.capacity := h.usedCapacity ▸ hslot s rfl
        by_cases hc : a.stored.contains s = true
        · simp [Access.step?, Access.step, hc]
        · simp [Access.step?, Access.step, hc, BitSet.insert?, hs]
      | store s =>
        have hs : s < a.stored.capacity := h.storedCapacity ▸ hslot s rfl
        simp [Access.step?, Access.step, BitSet.insert?, hs]
      | _ => rfl
    rw [List.foldlM_cons, hi, List.foldl_cons]
    exact ih (h.step i) fun j hj => hcode j (by simp [hj])

/-! ## The answer -/

section Answer

variable {body : Body} {m : BlockMap} {last : BlockId} {through : List BlockId}

theorem slot_lt_of_codeOf (h : body.validate = .ok ()) {b : Block} :
    ∀ i ∈ codeOf body b, ∀ s, i.slot? = some s → s < body.maxLocals := by
  intro i hi s hs
  unfold codeOf at hi
  split at hi
  · exact slot_lt h hi hs
  · cases hi

theorem isLive_of_reads (h : body.validate = .ok ()) (hch : m.Charts body)
    (hb : b.index < m.size) (hr : Reads body m s b through last) :
    (compute body m).isLive b s = true := by
  induction through generalizing b with
  | nil =>
    obtain rfl : last = b := Option.some.inj hr.head
    refine (isLive_iff hch hb).2 ⟨?_, (needs_iff _).2 (.inl hr.loads)⟩
    obtain ⟨before, after, heq, -⟩ := hr.loads
    exact slot_lt_of_codeOf h (.load s) (by rw [heq]; simp) s rfl
  | cons a through ih =>
    obtain rfl : a = b := Option.some.inj hr.head
    -- The rest of the path starts in a successor of the first block.
    obtain ⟨c, hc⟩ : ∃ c, (through ++ [last]).head? = some c := by cases through <;> simp
    obtain ⟨hstep, hchain⟩ := List.isChain_cons.1 hr.chain
    have hsucc : c ∈ (m.block a).successors := hstep c hc
    have hlive := ih (hch.successor hsucc)
      ⟨hc, hchain, fun d hd => hr.kept d (List.mem_cons_of_mem _ hd), hr.loads⟩
    have hkept := hr.kept a List.mem_cons_self
    refine (isLive_iff hch hb).2 ⟨((isLive_iff hch (hch.successor hsucc)).1 hlive).1, ?_⟩
    exact (needs_iff _).2 (.inr ⟨hkept, c, hsucc, hlive⟩)

theorem Reads.cons {c : BlockId}
    (hr : Reads body m s c through last) (hc : c ∈ (m.block b).successors)
    (hkept : .store s ∉ codeOf body (m.block b)) : Reads body m s b (b :: through) last := by
  refine ⟨rfl, List.isChain_cons.2 ⟨fun d hd => ?_, hr.chain⟩, fun a ha => ?_, hr.loads⟩
  · obtain rfl : c = d := Option.some.inj (hr.head.symm.trans hd)
    exact hc
  · rcases List.mem_cons.1 ha with rfl | ha
    · exact hkept
    · exact hr.kept a ha

theorem exists_reads_of_isLive (hch : m.Charts body) (hb : b.index < m.size)
    (hlive : (compute body m).isLive b s = true) : ∃ through last, Reads body m s b through last := by
  have hclosed : Closed (m.blocks.toList.reverse.map fun b => (b, accessOf body b))
      fun b s => s < body.maxLocals → ∃ through last, Reads body m s b through last := by
    intro q hq x hx hlt
    obtain ⟨c, hc, rfl⟩ := mem_accesses hq
    rw [hch.id hc]
    rcases (needs_iff _).1 ((asks_accessOf hlt).1 hx) with hload | ⟨hkept, t, ht, hreads⟩
    · exact ⟨[], c, rfl, List.isChain_singleton _, by simp, hload⟩
    · obtain ⟨through, last, hr⟩ := hreads hlt
      exact ⟨c :: through, last, hr.cons ht hkept⟩
  have hlt : s < body.maxLocals := ((isLive_iff hch hb).1 hlive).1
  rw [isLive_eq_contains _ body.maxLocals] at hlive
  refine Has.settle hclosed (listed_blocks hch) (growing_empty body m).sized (fun c x hx => ?_) hlive hlt
  simp [Has, liveAt_replicate] at hx

/-- What it means that the live sets of a body are exact. -/
structure Exact (body : Body) (m : BlockMap) : Prop where
  /-- Growing the sets from nothing ends: after `n` rounds a round changes nothing. -/
  settles : ∃ n ≤ m.size * body.maxLocals,
    let grow := round body.maxLocals (m.blocks.toList.reverse.map fun b => (b, accessOf body b))
    (compute body m).liveIn = grow^[n] (Array.replicate m.size (BitSet.empty body.maxLocals)) ∧
      grow (compute body m).liveIn = (compute body m).liveIn
  /-- No slot is inserted that is out of range. -/
  inRange : ∀ b : BlockId, b.index < m.size →
    (codeOf body (m.block b)).foldlM Access.step? (Access.empty body.maxLocals) =
      some (accessOf body (m.block b))
  /-- A slot is live on entry to a block iff some path from there reads it. -/
  live : ∀ b : BlockId, b.index < m.size → ∀ s,
    (compute body m).isLive b s = true ↔ ∃ through last, Reads body m s b through last

/-- **Liveness is exact on paths.** In the map of a body, the live sets are found after finitely many
rounds and no slot is inserted out of range. A slot is live on entry to a block iff a path along the
successors leads from there to a block that loads the slot, not after a store of its own, and no block
before it on the path stores the slot. -/
theorem compute_exact (hm : BlockMap.ofBody body = .ok m) : Exact body m := by
  have hch := BlockMap.charts_of_ofBody hm
  have hv := (BlockMap.ofBody_inv hm).1
  refine ⟨?_, fun b _ => ?_, fun b hb s => ⟨exists_reads_of_isLive hch hb, ?_⟩⟩
  · have hfuel : m.size * body.maxLocals < (members body.maxLocals m.size
        (Array.replicate m.size (BitSet.empty body.maxLocals))).card +
        (m.size * body.maxLocals + 1) := by omega
    obtain ⟨n, hn, heq, hfix⟩ := settle_eq_iterate (listed_blocks hch) (growing_empty body m) hfuel
    exact ⟨n, by omega, heq, hfix⟩
  · rw [accessOf_eq]
    exact Access.scan?_eq (Access.over_empty _) (slot_lt_of_codeOf hv)
  · rintro ⟨through, last, hr⟩
    exact isLive_of_reads hv hch hb hr

/-- A loop that adds local 0 to local 1 until it is zero; local 2 is only ever stored. -/
def countdown : Body where
  code := #[.const 0, .store 1, .load 0, .ifZero .eq ⟨9⟩, .load 0, .store 2, .load 1, .store 1, .goto ⟨2⟩,
    .load 1, .retValue]
  maxLocals := 3
  handlers := []

theorem countdown_exact : ∃ m, BlockMap.ofBody countdown = .ok m ∧ Exact countdown m ∧
    (compute countdown m).liveIn.toList.map BitSet.toList = [[0], [0, 1], [0, 1], [1], [], []] := by
  have hm := BlockMap.ofBody_of_accepts (b := countdown) rfl (by decide +kernel)
  exact ⟨_, hm, compute_exact hm, by decide +kernel⟩

end Answer

end Liveness

end StackLift
