import Mathlib.Data.Finset.Card
import Mathlib.Data.Finset.Prod
import StackLift.Build.Work
import StackLift.Proofs.BitSet
import StackLift.Proofs.Chart

/-!
# What liveness computes

`compute` grows the live sets from nothing, block by block. Every set it holds on the way is below
what its block asks for (`Growing.below`), and a round that changes nothing has found a set for every
block that is also above it. There are enough rounds: each one but the last adds a member, and there
are only as many as blocks times slots.

`isLive_iff` says it for one block: a slot is live on entry iff the code of the block loads it before
storing it, or leaves it alone and it is live in some successor. `Body.needs` is that condition, and
`Serves` takes it through a block, instruction by instruction.
-/
namespace StackLift

variable {b : Block} {s x : Nat} {after : Nat → Prop}

namespace Liveness

/-! ## One block -/

/-- The slots that `code` has to find defined if the slots of `after` are to be defined behind it. -/
def needs (after : Nat → Prop) : List (Instruction Position) → Nat → Prop
  | [], x => after x
  | .load s :: rest, x => s = x ∨ needs after rest x
  | .store s :: rest, x => s ≠ x ∧ needs after rest x
  | _ :: rest, x => needs after rest x

/-- The code loads `s`, and does not store it before. -/
def Loads (s : Nat) (code : List (Instruction Position)) : Prop :=
  ∃ before after, code = before ++ .load s :: after ∧ .store s ∉ before

theorem needs_iff (code : List (Instruction Position)) :
    needs after code s ↔ Loads s code ∨ (.store s ∉ code ∧ after s) := by
  have loads_cons : ∀ {i : Instruction Position} {rest : List (Instruction Position)}, i ≠ .load s →
      (Loads s (i :: rest) ↔ i ≠ .store s ∧ Loads s rest) := by
    intro i rest hi
    constructor
    · rintro ⟨before, behind, heq, hfree⟩
      cases before with
      | nil => exact absurd (List.cons.inj heq).1 hi
      | cons j before =>
        obtain ⟨rfl, rfl⟩ := List.cons.inj heq
        simp only [List.mem_cons, not_or] at hfree
        exact ⟨Ne.symm hfree.1, before, behind, rfl, hfree.2⟩
    · rintro ⟨hne, before, behind, rfl, hfree⟩
      exact ⟨i :: before, behind, rfl, by simp [Ne.symm hne, hfree]⟩
  induction code with
  | nil =>
    have hno : ¬ Loads s [] := by
      rintro ⟨before, behind, heq, -⟩
      simp at heq
    simp [needs, hno]
  | cons i rest ih =>
    by_cases hi : i = .load s
    · subst hi
      exact ⟨fun _ => .inl ⟨[], rest, rfl, by simp⟩, fun _ => .inl rfl⟩
    · rw [loads_cons hi, List.mem_cons, not_or]
      cases i with
      | load t =>
        have ht : t ≠ s := fun ht => hi (by rw [ht])
        simp [needs, ih, ht]
      | store t =>
        simp only [needs, ih, ne_eq, Instruction.store.injEq, eq_comm (a := s)]
        tauto
      | _ => simp [needs, ih]

namespace Access

variable {slots : Nat} {a : Access}

/-- Both sets are over the slots of the body. -/
structure Over (slots : Nat) (a : Access) : Prop where
  used : a.used.Snug
  stored : a.stored.Snug
  usedCapacity : a.used.capacity = slots
  storedCapacity : a.stored.capacity = slots

theorem over_empty (slots : Nat) : (empty slots).Over slots :=
  ⟨BitSet.snug_empty _, BitSet.snug_empty _, rfl, rfl⟩

theorem Over.step (h : a.Over slots) (i : Instruction Position) : (a.step i).Over slots := by
  unfold Access.step
  split
  · split
    · exact h
    · exact ⟨h.used.insert _, h.stored, by rw [BitSet.insert_capacity, h.usedCapacity], h.storedCapacity⟩
  · exact ⟨h.used, h.stored.insert _, h.usedCapacity, by rw [BitSet.insert_capacity, h.storedCapacity]⟩
  · exact h

theorem Over.foldl (h : a.Over slots) (code : List (Instruction Position)) :
    (code.foldl Access.step a).Over slots := by
  induction code generalizing a with
  | nil => exact h
  | cons i code ih => exact ih (h.step i)

/-- What a slot is needed for: a load on the way, or what comes behind. -/
def Asks (a : Access) (after : Nat → Prop) (x : Nat) : Prop :=
  a.used.contains x = true ∨ (after x ∧ ¬ a.stored.contains x = true)

theorem asks_foldl {after : Nat → Prop} (h : a.Over slots) (hx : x < slots)
    (code : List (Instruction Position)) :
    (code.foldl Access.step a).Asks after x ↔ a.Asks (needs after code) x := by
  induction code generalizing a with
  | nil => rfl
  | cons i code ih =>
    rw [List.foldl_cons, ih (h.step i)]
    unfold Asks
    cases i with
    | load s =>
      by_cases hs : a.stored.contains s = true
      · simp only [Access.step, hs, if_true, needs]
        grind
      · simp only [Access.step, hs, needs, Bool.false_eq_true, if_false]
        rw [BitSet.contains_insert h.used.wide, h.usedCapacity]
        grind
    | store s =>
      simp only [Access.step, needs]
      rw [BitSet.contains_insert h.stored.wide, h.storedCapacity]
      grind
    | _ => rfl

end Access

/-- The instructions of a block; the others have none. -/
def codeOf (body : Body) (b : Block) : List (Instruction Position) :=
  match b.kind with
  | .instructions => body.slice b.start b.stop
  | _ => []

theorem accessOf_eq (body : Body) (b : Block) :
    accessOf body b = (codeOf body b).foldl Access.step (Access.empty body.maxLocals) := by
  unfold accessOf codeOf
  cases b.kind <;> rfl

theorem over_accessOf (body : Body) (b : Block) : (accessOf body b).Over body.maxLocals := by
  rw [accessOf_eq]
  exact (Access.over_empty _).foldl _

theorem asks_accessOf {body : Body} (hx : x < body.maxLocals) :
    (accessOf body b).Asks after x ↔ needs after (codeOf body b) x := by
  rw [accessOf_eq, Access.asks_foldl (Access.over_empty _) hx]
  simp [Access.Asks, Access.empty]

/-! ## One round -/

section Rounds

variable {slots count : Nat} {live next last : Array BitSet} {bs : List (Block × Access)}

/-- Slot `x` is in the set of block `b`. -/
def Has (slots : Nat) (live : Array BitSet) (b : BlockId) (x : Nat) : Prop :=
  (liveAt live slots b).contains x = true

/-- All sets are over the slots of the body. -/
def Sized (slots count : Nat) (live : Array BitSet) : Prop :=
  live.size = count ∧ ∀ (i : Nat) s, live[i]? = some s → s.Snug ∧ s.capacity = slots

theorem Sized.liveAt (h : Sized slots count live) (b : BlockId) :
    (liveAt live slots b).Snug ∧ (Liveness.liveAt live slots b).capacity = slots := by
  unfold Liveness.liveAt
  cases hb : live[b.index]? with
  | none => exact ⟨BitSet.snug_empty _, rfl⟩
  | some s => exact h.2 _ _ hb

/-- What the successors of `b` ask for. -/
def Behind (slots : Nat) (live : Array BitSet) (b : Block) (x : Nat) : Prop :=
  ∃ t ∈ b.successors, Has slots live t x

theorem transfer_spec (h : Sized slots count live) (ha : a.Over slots) :
    (transfer slots live b a).Snug ∧ (transfer slots live b a).capacity = slots ∧
      ∀ x, (transfer slots live b a).contains x = true ↔ a.Asks (Behind slots live b) x := by
  have union : ∀ (ts : List BlockId) (s : BitSet), s.Snug → s.capacity = slots →
      (ts.foldl (fun s t => s.union (liveAt live slots t)) s).Snug ∧
        (ts.foldl (fun s t => s.union (liveAt live slots t)) s).capacity = slots ∧
        ∀ x, (ts.foldl (fun s t => s.union (liveAt live slots t)) s).contains x = true ↔
          s.contains x = true ∨ ∃ t ∈ ts, Has slots live t x := by
    intro ts
    induction ts with
    | nil =>
      intro s hs hc
      simp [hs, hc]
    | cons t ts ih =>
      intro s hs hc
      obtain ⟨ht, htc⟩ := h.liveAt t
      have hcap : (liveAt live slots t).capacity = s.capacity := htc.trans hc.symm
      obtain ⟨h1, h2, h3⟩ := ih (s.union (liveAt live slots t)) (hs.union ht hcap) hc
      refine ⟨h1, h2, fun x => ?_⟩
      rw [List.foldl_cons, h3, BitSet.contains_union hs ht hcap, List.exists_mem_cons_iff, or_assoc]
      rfl
  obtain ⟨h1, h2, h3⟩ := union b.successors (BitSet.empty slots) (BitSet.snug_empty _) rfl
  have hd := h1.difference ha.stored (ha.storedCapacity.trans h2.symm)
  have hu : a.used.capacity = slots := ha.usedCapacity
  refine ⟨hd.union ha.used (hu.trans h2.symm), h2, fun x => ?_⟩
  rw [transfer, BitSet.contains_union hd ha.used (hu.trans h2.symm),
    BitSet.contains_difference h1 ha.stored (ha.storedCapacity.trans h2.symm), h3, or_comm]
  simp [Access.Asks, Behind]

/-- The list has every block with its access once, and each has a place in the array. -/
structure Listed (slots count : Nat) (bs : List (Block × Access)) : Prop where
  access : ∀ q ∈ bs, q.2.Over slots
  lt : ∀ q ∈ bs, q.1.id.index < count
  inj : ∀ q ∈ bs, ∀ r ∈ bs, q.1.id = r.1.id → q = r

/-- No set is larger than what its block asks for. -/
structure Growing (slots count : Nat) (bs : List (Block × Access)) (live : Array BitSet) : Prop where
  sized : Sized slots count live
  below : ∀ q ∈ bs, ∀ x, Has slots live q.1.id x → q.2.Asks (Behind slots live q.1) x

/-- Every set is contained in the one of the same block. -/
def Below (slots : Nat) (live next : Array BitSet) : Prop :=
  ∀ b x, Has slots live b x → Has slots next b x

theorem Below.refl (live : Array BitSet) : Below slots live live := fun _ _ h => h

theorem Below.trans (h : Below slots live next) (h' : Below slots next last) :
    Below slots live last := fun b x hx => h' b x (h b x hx)

theorem Below.asks {a : Access} (h : Below slots live next) (ha : a.Asks (Behind slots live b) x) :
    a.Asks (Behind slots next b) x := by
  rcases ha with ha | ⟨⟨t, ht, hx⟩, hs⟩
  · exact .inl ha
  · exact .inr ⟨⟨t, ht, h t x hx⟩, hs⟩

variable {count fuel : Nat} {q : Block × Access}

/-- One block gets the set that it asks for. -/
def put (slots : Nat) (live : Array BitSet) (q : Block × Access) : Array BitSet :=
  live.setIfInBounds q.1.id.index (transfer slots live q.1 q.2)

theorem has_put (hl : Listed slots count bs) (hq : q ∈ bs) (h : Sized slots count live)
    (b : BlockId) (x : Nat) : Has slots (put slots live q) b x ↔
      if b = q.1.id then q.2.Asks (Behind slots live q.1) x else Has slots live b x := by
  have hlt : q.1.id.index < live.size := h.1 ▸ hl.lt q hq
  unfold Has Liveness.liveAt put
  rw [Array.getElem?_setIfInBounds]
  by_cases hb : b = q.1.id
  · subst hb
    simp [hlt, (transfer_spec h (hl.access q hq)).2.2 x]
  · have : q.1.id.index ≠ b.index := fun hi => hb (by
      cases b
      cases hid : q.1.id
      simp_all)
    simp [hb, this]

theorem sized_put (hl : Listed slots count bs) (hq : q ∈ bs) (h : Sized slots count live) :
    Sized slots count (put slots live q) := by
  refine ⟨by rw [put, Array.size_setIfInBounds, h.1], fun i s hs => ?_⟩
  unfold put at hs
  rw [Array.getElem?_setIfInBounds] at hs
  split at hs
  · split at hs
    · cases hs
      exact ⟨(transfer_spec h (hl.access q hq)).1, (transfer_spec h (hl.access q hq)).2.1⟩
    · cases hs
  · exact h.2 i s hs

theorem Growing.put (hl : Listed slots count bs) (hq : q ∈ bs) (h : Growing slots count bs live) :
    Growing slots count bs (put slots live q) ∧ Below slots live (put slots live q) := by
  have hbelow : Below slots live (Liveness.put slots live q) := by
    intro b x hx
    rw [has_put hl hq h.sized]
    split
    · next hb =>
      subst hb
      exact h.below q hq x hx
    · exact hx
  refine ⟨⟨sized_put hl hq h.sized, fun r hr x hx => hbelow.asks ?_⟩, hbelow⟩
  rw [has_put hl hq h.sized] at hx
  split at hx
  · next hid => exact hl.inj r hr q hq hid ▸ hx
  · exact h.below r hr x hx

theorem round_eq (live : Array BitSet) : round slots bs live = bs.foldl (put slots) live := rfl

theorem Growing.round {part : List (Block × Access)} (hl : Listed slots count bs)
    (hpart : ∀ q ∈ part, q ∈ bs) (h : Growing slots count bs live) :
    Growing slots count bs (part.foldl (Liveness.put slots) live) ∧
      Below slots live (part.foldl (Liveness.put slots) live) ∧
      ∀ q ∈ part, ∀ x, q.2.Asks (Behind slots live q.1) x →
        Has slots (part.foldl (Liveness.put slots) live) q.1.id x := by
  induction part generalizing live with
  | nil => exact ⟨h, .refl live, by simp⟩
  | cons q part ih =>
    have hq : q ∈ bs := hpart q (by simp)
    obtain ⟨hput, hle⟩ := h.put hl hq
    obtain ⟨h1, h2, h3⟩ := ih (fun r hr => hpart r (by simp [hr])) hput
    refine ⟨h1, hle.trans h2, fun r hr x hx => ?_⟩
    rcases List.mem_cons.1 hr with rfl | hr
    · refine h2 _ _ ?_
      rw [has_put hl hq h.sized, if_pos rfl]
      exact hx
    · exact h3 r hr x (hle.asks hx)

/-! ## All rounds -/

/-- The pairs of a block and a live slot. -/
noncomputable def members (slots count : Nat) (live : Array BitSet) : Finset (Nat × Nat) :=
  open Classical in
  (Finset.range count ×ˢ Finset.range slots).filter fun q => Has slots live ⟨q.1⟩ q.2

theorem card_members_le (live : Array BitSet) : (members slots count live).card ≤ count * slots := by
  classical
  refine Nat.le_trans (Finset.card_filter_le _ _) ?_
  simp

theorem Has.lt (h : Sized slots count live) {b : BlockId} (hx : Has slots live b x) :
    b.index < count ∧ x < slots := by
  refine ⟨?_, ?_⟩
  · by_contra hb
    have : live[b.index]? = none := by
      rw [Array.getElem?_eq_none_iff, h.1]
      omega
    simp [Has, Liveness.liveAt, this] at hx
  · have := BitSet.lt_capacity hx
    rwa [(h.liveAt b).2] at this

theorem mem_members (h : Sized slots count live) {b : BlockId} :
    (b.index, x) ∈ members slots count live ↔ Has slots live b x := by
  classical
  simp only [members, Finset.mem_filter, Finset.mem_product, Finset.mem_range]
  exact ⟨fun hx => hx.2, fun hx => ⟨hx.lt h, hx⟩⟩

theorem eq_of_below (h : Sized slots count live) (h' : Sized slots count next)
    (hle : Below slots live next) (hge : Below slots next live) : next = live := by
  refine Array.ext (h'.1.trans h.1.symm) fun i hi hi' => ?_
  have hnext := h'.2 i _ (Array.getElem?_eq_getElem hi)
  have hlive := h.2 i _ (Array.getElem?_eq_getElem hi')
  refine hnext.1.ext hlive.1 (hnext.2.trans hlive.2.symm) fun x => ?_
  have := (Iff.intro (hge ⟨i⟩ x) (hle ⟨i⟩ x))
  simpa [Has, Liveness.liveAt, hi, hi'] using this

theorem card_members_lt (h : Sized slots count live) (h' : Sized slots count next)
    (hle : Below slots live next) (hne : next ≠ live) :
    (members slots count live).card < (members slots count next).card := by
  refine Finset.card_lt_card ⟨fun q hq => ?_, fun hsub => hne (eq_of_below h h' hle fun b x hx => ?_)⟩
  · exact (mem_members (b := ⟨q.1⟩) h').2 (hle _ _ ((mem_members (b := ⟨q.1⟩) h).1 hq))
  · exact (mem_members h).1 (hsub ((mem_members h').2 hx))

theorem settle_spec (hl : Listed slots count bs) (h : Growing slots count bs live)
    (hfuel : count * slots < (members slots count live).card + fuel) :
    Sized slots count (settle slots bs fuel live) ∧
      ∀ q ∈ bs, ∀ x, Has slots (settle slots bs fuel live) q.1.id x ↔
        q.2.Asks (Behind slots (settle slots bs fuel live) q.1) x := by
  induction fuel generalizing live with
  | zero =>
    have : (members slots count live).card ≤ count * slots := card_members_le live
    omega
  | succ fuel ih =>
    obtain ⟨hnext, hle, hput⟩ := h.round hl fun _ hq => hq
    rw [← round_eq] at hnext hle hput
    rw [settle]
    split
    · next heq =>
      rw [heq] at hput
      exact ⟨h.sized, fun q hq x => ⟨h.below q hq x, hput q hq x⟩⟩
    · next hne =>
      have := card_members_lt h.sized hnext.sized hle hne
      exact ih hnext (by omega)

end Rounds

/-! ## The answer -/

section Answer

variable {body : Body} {m : BlockMap} {b c : BlockId} {x : Nat}

/-- Slot `x` is live on entry to some successor of `b`. -/
def After (body : Body) (m : BlockMap) (b : BlockId) (x : Nat) : Prop :=
  ∃ t ∈ (m.block b).successors, (compute body m).isLive t x = true

theorem isLive_eq_contains (l : Liveness) (slots : Nat) (b : BlockId) (x : Nat) :
    l.isLive b x = (liveAt l.liveIn slots b).contains x := by
  unfold isLive liveIn? liveAt
  cases l.liveIn[b.index]? <;> simp

theorem mem_accesses {q : Block × Access}
    (hq : q ∈ m.blocks.toList.reverse.map fun b => (b, accessOf body b)) :
    ∃ c : BlockId, c.index < m.size ∧ q = (m.block c, accessOf body (m.block c)) := by
  obtain ⟨c, hc, rfl⟩ := List.mem_map.1 hq
  obtain ⟨i, hi⟩ := Array.getElem?_of_mem (Array.mem_toList_iff.1 (List.mem_reverse.1 hc))
  refine ⟨⟨i⟩, (Array.getElem?_eq_some_iff.1 hi).1, ?_⟩
  simp [BlockMap.block, hi]

theorem listed_blocks (hch : m.Charts body) :
    Listed body.maxLocals m.size (m.blocks.toList.reverse.map fun b => (b, accessOf body b)) := by
  refine ⟨fun q hq => ?_, fun q hq => ?_, fun q hq r hr hid => ?_⟩
  · obtain ⟨c, -, rfl⟩ := mem_accesses hq
    exact over_accessOf body _
  · obtain ⟨c, hc, rfl⟩ := mem_accesses hq
    simpa [hch.id hc] using hc
  · obtain ⟨c, hc, rfl⟩ := mem_accesses hq
    obtain ⟨d, hd, rfl⟩ := mem_accesses hr
    simp only [hch.id hc, hch.id hd] at hid
    rw [hid]

theorem liveAt_replicate (slots count : Nat) (b : BlockId) :
    liveAt (Array.replicate count (BitSet.empty slots)) slots b = BitSet.empty slots := by
  unfold liveAt
  rw [Array.getElem?_replicate]
  split <;> rfl

theorem growing_empty (body : Body) (m : BlockMap) :
    Growing body.maxLocals m.size (m.blocks.toList.reverse.map fun b => (b, accessOf body b))
      (Array.replicate m.size (BitSet.empty body.maxLocals)) := by
  refine ⟨⟨Array.size_replicate, fun i s hs => ?_⟩, fun q _ x hx => ?_⟩
  · rw [Array.getElem?_replicate] at hs
    split at hs
    · cases hs
      exact ⟨BitSet.snug_empty _, rfl⟩
    · cases hs
  · simp [Has, liveAt_replicate] at hx

theorem isLive_iff (hch : m.Charts body) (hb : b.index < m.size) :
    (compute body m).isLive b x = true ↔
      x < body.maxLocals ∧ needs (After body m b) (codeOf body (m.block b)) x := by
  have hfuel : m.size * body.maxLocals < (members body.maxLocals m.size
      (Array.replicate m.size (BitSet.empty body.maxLocals))).card +
      (m.size * body.maxLocals + 1) := by omega
  obtain ⟨hsized, heq⟩ := settle_spec (listed_blocks hch) (growing_empty body m) hfuel
  have hmem : (m.block b, accessOf body (m.block b)) ∈
      m.blocks.toList.reverse.map fun b => (b, accessOf body b) := by
    refine List.mem_map.2 ⟨m.block b, List.mem_reverse.2 (Array.mem_toList_iff.2 ?_), rfl⟩
    have hget : m.blocks[b.index]? = some (m.block b) := by
      have hb' : b.index < m.blocks.size := hb
      simp [BlockMap.block, hb']
    exact Array.mem_of_getElem? hget
  have hlive : ∀ c y, (compute body m).isLive c y = true ↔ Has body.maxLocals
    (compute body m).liveIn c y :=
    fun c y => by rw [isLive_eq_contains _ body.maxLocals, Has]
  have hafter : Behind body.maxLocals (compute body m).liveIn (m.block b) = After body m b := by
    funext y
    simp only [Behind, After, hlive]
  have hset := heq _ hmem x
  simp only [hch.id hb] at hset
  rw [hlive b x, ← hafter]
  constructor
  · intro hx
    have hlt : x < body.maxLocals := (Has.lt hsized hx).2
    exact ⟨hlt, (asks_accessOf hlt).1 (hset.1 hx)⟩
  · rintro ⟨hlt, hx⟩
    exact hset.2 ((asks_accessOf hlt).2 hx)

theorem isLive_of_successor (hch : m.Charts body) (hb : b.index < m.size)
    (hk : (m.block b).kind ≠ .instructions) (hc : c ∈ (m.block b).successors)
    (hx : (compute body m).isLive c x = true) : (compute body m).isLive b x = true := by
  refine (isLive_iff hch hb).2 ⟨((isLive_iff hch (hch.successor hc)).1 hx).1, ?_⟩
  have hcode : codeOf body (m.block b) = [] := by
    unfold codeOf
    split
    · next h => exact absurd h hk
    · rfl
  rw [hcode]
  exact ⟨c, hc, hx⟩

theorem not_isLive_unwind (hch : m.Charts body) : (compute body m).isLive m.unwindBlock x = false := by
  have hlt : m.unwindBlock.index < m.size := by
    have := hch.size
    simp only [BlockMap.unwindBlock]
    omega
  rw [Bool.eq_false_iff]
  intro hx
  obtain ⟨-, hx⟩ := (isLive_iff hch hlt).1 hx
  simp only [codeOf, (hch.unwind hlt).2 rfl, needs] at hx
  obtain ⟨t, ht, -⟩ := hx
  exact (hch.wayOut ht).2 rfl

end Answer

/-! ## Through a block -/

section Through

variable {body : Body} {m : BlockMap} {a : BlockId} {p stop start : Position} {i : Instruction Position}

/-- The slots that the rest of block `a` needs from `p` on. -/
def From (body : Body) (m : BlockMap) (a : BlockId) (p : Position) : Nat → Prop :=
  needs (After body m a) (body.slice p (m.block a).stop)

/-- The slots `L` are enough for an instruction at `p` and for every place that control can go on at;
where it stays in the block, the slots `L'` have to be defined. -/
structure Serves (live : LiveTest) (m : BlockMap) (p : Position) (i : Instruction Position)
    (L L' : Nat → Prop) : Prop where
  load : ∀ s, i = .load s → L s
  keep : ∀ x, L' x → L x ∨ i = .store x
  target : ∀ t ∈ i.branchTargets, ∀ c, m.blockAt? t = some c → ∀ x, live c x = true → L x
  next : i.branchTargets ≠ [] → i.fallsThrough = true → ∀ c, m.blockAt? p.next = some c →
    ∀ x, live c x = true → L x
  thrown : i.canThrow = true → ∀ x, live ((m.dispatchAt? p).getD m.unwindBlock) x = true → L x

theorem slice_cons (hi : body.instruction? p = some i) (hp : p.index < stop.index) :
    body.slice p stop = i :: body.slice p.next stop := by
  obtain ⟨hlt, hget⟩ := Array.getElem?_eq_some_iff.1 hi
  unfold Body.slice
  rw [Array.toList_extract, Array.toList_extract, List.extract_eq_take_drop, List.extract_eq_take_drop]
  have hdrop : body.code.toList.drop p.index = i :: body.code.toList.drop (p.index + 1) := by
    rw [List.drop_eq_getElem_cons (by simpa using hlt)]
    simp [hget]
  have hsub : stop.index - p.index = (stop.index - (p.index + 1)) + 1 := by omega
  rw [hdrop, hsub, List.take_succ_cons]
  rfl

theorem slice_self (stop : Position) : body.slice stop stop = [] := by simp [Body.slice]

theorem needs_cons {after : Nat → Prop} {rest : List (Instruction Position)} (hi : i.slot? = none) :
    needs after (i :: rest) x ↔ needs after rest x := by
  cases i with
  | load s => cases hi
  | store s => cases hi
  | _ => rfl

theorem slot?_of_branch (h : i.branchTargets ≠ []) : i.slot? = none := by
  cases i with
  | load s => exact absurd rfl h
  | store s => exact absurd rfl h
  | _ => rfl

theorem slot?_of_canThrow (h : i.canThrow = true) : i.slot? = none := by
  cases i with
  | load s => cases h
  | store s => cases h
  | _ => rfl

theorem serves_from (hch : m.Charts body) (ha : a.index < m.size) (hk : (m.block a).kind = .instructions)
    (hstart : (m.block a).start.index ≤ p.index) (hstop : p.index < (m.block a).stop.index)
    (hi : body.instruction? p = some i) :
    Serves (compute body m).isLive m p i (From body m a p) (From body m a p.next) := by
  have hcons : ∀ x, From body m a p x ↔ needs (After body m a)
    (i :: body.slice p.next (m.block a).stop) x := by
    intro x
    rw [From, slice_cons hi hstop]
  have hload : ∀ s, i = .load s → From body m a p s := by
    rintro s rfl
    exact (hcons s).2 (.inl rfl)
  have hkeep : ∀ x, From body m a p.next x → From body m a p x ∨ i = .store x := by
    intro x hx
    rw [hcons]
    cases i with
    | load s => exact .inl (.inr hx)
    | store s =>
      by_cases hs : s = x
      · exact .inr (by rw [hs])
      · exact .inl ⟨hs, hx⟩
    | _ => exact .inl hx
  by_cases hlast : p.index + 1 = (m.block a).stop.index
  · obtain ⟨j, hj, hleads⟩ := hch.last ha hk p hlast
    cases hi.symm.trans hj
    -- Behind the last instruction, exactly the successors ask for something.
    have hnext : p.next = (m.block a).stop := by
      cases hs : (m.block a).stop
      simp_all [Position.next]
    have hback : i.slot? = none → ∀ c ∈ (m.block a).successors, ∀ x, (compute body m).isLive c x = true →
        From body m a p x := by
      intro hslot c hc x hx
      rw [hcons, needs_cons hslot, hnext, slice_self]
      exact ⟨c, hc, hx⟩
    refine ⟨hload, hkeep, fun t ht c hc => ?_, fun hbr hf c hc => ?_, fun ht x hx => ?_⟩
    · obtain ⟨d, hd, hsucc⟩ := hleads.target t ht
      cases hc.symm.trans hd
      exact hback (slot?_of_branch (List.ne_nil_of_mem ht)) c hsucc
    · obtain ⟨d, hd, hsucc⟩ := hleads.next hf
      cases hc.symm.trans hd
      exact hback (slot?_of_branch hbr) c hsucc
    · cases hd : m.dispatchAt? p with
      | none =>
        rw [hd, Option.getD_none, not_isLive_unwind hch] at hx
        cases hx
      | some c =>
        rw [hd, Option.getD_some] at hx
        exact hback (slot?_of_canThrow ht) c (hleads.thrown c hd) x hx
  · obtain ⟨j, hj, hend, hnone⟩ := hch.inside ha hk p hstart (by omega)
    cases hi.symm.trans hj
    simp only [Instruction.isBlockEnd, Bool.or_eq_false_iff, Bool.not_eq_eq_eq_not, Bool.not_false,
      List.isEmpty_iff] at hend
    refine ⟨hload, hkeep, fun t ht => ?_, fun hbr => absurd hend.1 hbr, fun _ x hx => ?_⟩
    · rw [hend.1] at ht
      cases ht
    · rw [hnone, Option.getD_none, not_isLive_unwind hch] at hx
      cases hx

theorem slot_lt (h : body.validate = .ok ()) (hi : i ∈ body.slice start stop)
    (hs : i.slot? = some s) : s < body.maxLocals := by
  have hmem : i ∈ body.code.toList := by
    unfold Body.slice at hi
    rw [Array.toList_extract, List.extract_eq_take_drop] at hi
    exact List.mem_of_mem_drop (List.mem_of_mem_take hi)
  obtain ⟨n, hn⟩ := Array.getElem?_of_mem (Array.mem_toList_iff.1 hmem)
  have hd : body.defect? = none := by
    unfold Body.validate at h
    split at h
    · cases h
    · assumption
  simp only [Body.defect?, Option.or_eq_none_iff, List.findSome?_eq_none_iff] at hd
  have hline := hd.1.1 (i, ⟨n⟩) (Body.mem_lines.2 hn)
  cases i with
  | load t | store t =>
    cases hs
    simp only [Body.instructionDefect?, Instruction.branchTargets, List.find?_nil] at hline
    split at hline
    · cases hline
    · omega
  | _ => cases hs

theorem isLive_of_from (h : body.validate = .ok ()) (hch : m.Charts body) (ha : a.index < m.size)
    (hk : (m.block a).kind = .instructions) (hx : From body m a (m.block a).start x) :
    (compute body m).isLive a x = true := by
  refine (isLive_iff hch ha).2 ⟨?_, by rwa [codeOf, hk]⟩
  rcases (needs_iff _).1 hx with ⟨before, after, heq, -⟩ | ⟨-, t, ht, hlive⟩
  · exact slot_lt h (i := .load x) (by rw [heq]; simp) rfl
  · exact ((isLive_iff hch (hch.successor ht)).1 hlive).1

end Through

end Liveness

end StackLift
