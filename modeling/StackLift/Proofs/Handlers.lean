import StackLift.Proofs.Positions

/-!
# Chains of exception tests

An exception goes from test to test until one of them catches it. The tests are blocks of the map, and
`next` leads from each to the one behind it. `BlockMap.Tests` is what a walk along `next` meets.

A test is named by its handler and the handlers that are left, so a walk from the first test of a
position meets the handlers of that position in their order, and two walks that have the same handlers
left meet the same blocks from there on.
-/
namespace StackLift

theorem Partition.chain_ne_code (hs : List Nat) (p : Position) : Partition.chain hs ≠ .code p := by
  cases hs <;> simp [Partition.chain]

theorem Partition.chain_ne_exit (hs : List Nat) : Partition.chain hs ≠ .exit := by
  cases hs <;> simp [Partition.chain]

namespace BlockMap

/-- Following `next` from the first block of `cs` leads through `cs`, which test the handlers `hs`, and
behind the last of them to `out`. -/
inductive Tests (m : BlockMap) (out : Option BlockId) : List BlockId → List Nat → Prop where
  | last {c h} (hk : (m.block c).kind = .dispatch h out) : Tests m out [c] [h]
  | cons {c d cs h hs} (hk : (m.block c).kind = .dispatch h (some d)) (ht : Tests m out (d :: cs) hs) :
      Tests m out (c :: d :: cs) (h :: hs)

/-- The instruction at `p` is in a block of the map and can throw. -/
structure ThrowsAt (m : BlockMap) (b : Body) (p : Position) : Prop where
  held : ∃ a, m.Holds a p
  throws : ∃ i, b.instruction? p = some i ∧ i.canThrow = true

/-- The last of the handlers `hs` catches everything. -/
def CatchesAllLast (b : Body) (hs : List Nat) : Prop :=
  ∃ h x, hs.getLast? = some h ∧ b.handlers[h]? = some x ∧ x.catchesAll = true

structure SpellsHandlers (m : BlockMap) (b : Body) : Prop where
  defined : ∀ {p}, m.ThrowsAt b p → ((m.dispatchAt? p).isSome = true ↔ b.handlersAt p ≠ [])
  tests : ∀ {p c}, m.ThrowsAt b p → m.dispatchAt? p = some c →
    ∃ cs out, cs.head? = some c ∧ m.Tests out cs (b.handlersAt p) ∧
      (out = none ↔ CatchesAllLast b (b.handlersAt p)) ∧ (out ≠ none → out = some m.unwindBlock)
  successors : ∀ {c h next}, c.index < m.size → (m.block c).kind = .dispatch h next →
    ∃ x e, b.handlers[h]? = some x ∧ m.blockAt? x.entry = some e ∧
      (m.block c).successors = e :: next.toList
  shared : ∀ {p q c d out out' cs ds hs}, m.ThrowsAt b p → m.ThrowsAt b q →
    m.dispatchAt? p = some c → m.dispatchAt? q = some d →
    cs.head? = some c → m.Tests out cs (b.handlersAt p) →
    ds.head? = some d → m.Tests out' ds (b.handlersAt q) →
    hs <:+ b.handlersAt p → hs <:+ b.handlersAt q →
    cs.drop (cs.length - hs.length) = ds.drop (ds.length - hs.length)

theorem Tests.exists_test {m : BlockMap} {out : Option BlockId} {cs : List BlockId} {hs : List Nat}
    {h : Nat} (ht : m.Tests out cs hs) (hh : h ∈ hs) : ∃ c next, (m.block c).kind = .dispatch h next := by
  induction ht with
  | last hk =>
    obtain rfl := List.mem_singleton.1 hh
    exact ⟨_, _, hk⟩
  | cons hk _ ih =>
    rcases List.mem_cons.1 hh with rfl | hh
    · exact ⟨_, _, hk⟩
    · exact ih hh

theorem lt_size_of_dispatch {m : BlockMap} {c : BlockId} {h : Nat} {next : Option BlockId}
    (hk : (m.block c).kind = .dispatch h next) : c.index < m.size := by
  by_contra hlt
  rw [block, Array.getElem?_eq_none (Nat.le_of_not_lt hlt)] at hk
  cases hk

/-! ## Tests by vertex -/

section Vertices

variable {b : Body} {left vs : List Vertex} {p : Position} {out : Option BlockId} {c : BlockId}
  {cs ds : List BlockId} {h : Nat} {hs rest : List Nat} {v : Vertex}

/-- The numbers of the blocks `cs` are those of the vertices `vs`. -/
def Numbers (b : Body) (cs : List BlockId) (vs : List Vertex) : Prop :=
  List.Forall₂ (fun c v => (order b.partition)[c.index]? = some v) cs vs

theorem Numbers.unique (ho : Ordered b left)
    (h : Numbers b cs vs) (h' : Numbers b ds vs) : cs = ds := by
  induction h generalizing ds with
  | nil => cases h'; rfl
  | cons hc _ ih =>
    cases h' with
    | cons hd hds => rw [ho.eq_of_getElem? hc hd, ih hds]

theorem kind_dispatch (hc : (order b.partition)[c.index]? = some (.dispatch h rest)) :
    ((mapOf b).block c).kind = .dispatch h (if b.catchesAllAt h then none
      else number? (order b.partition) (Partition.chain rest)) := by
  rw [block_mapOf hc]
  rfl

theorem Ordered.number?_eq_some (ho : Ordered b left)
    (hc : (order b.partition)[c.index]? = some v) : number? (order b.partition) v = some c := by
  rw [number?, idxOf?_of_getElem? ho.nodup_order hc]
  rfl

theorem successors_mapOf (hc : (order b.partition)[c.index]? = some v) :
    ((mapOf b).block c).successors =
      (b.partition.successors v).filterMap (number? (order b.partition)) := by
  have hrow : (edgesOf b)[c.index]?.getD [] =
      (b.partition.successors v).filterMap (order b.partition).idxOf? := by
    simp [edgesOf, edgeTable, hc]
  rw [block_mapOf hc]
  simp only [hrow, List.map_filterMap]
  rfl

theorem exists_next (ho : Ordered b left) (hall : b.catchesAllAt h = false)
    (hc : (order b.partition)[c.index]? = some (.dispatch h rest)) :
    ∃ d : BlockId, (order b.partition)[d.index]? = some (Partition.chain rest) ∧
      ((mapOf b).block c).kind = .dispatch h (some d) := by
  have hsucc : Partition.chain rest ∈ b.partition.successors (.dispatch h rest) := by
    rw [Partition.successors, mem_squeeze, show b.partition.body.catchesAllAt h = false from hall]
    simp
  obtain ⟨d, hd, -⟩ := ho.exists_successor hc hsucc
  refine ⟨d, hd, ?_⟩
  rw [kind_dispatch hc, hall, ho.number?_eq_some hd]
  rfl

theorem suffix_catchesAllAt (hsuf : (h :: rest) <:+ b.handlersAt p) (hall : b.catchesAllAt h = true) :
    rest = [] := by
  rw [Body.catchesAllAt, Option.any_eq_true] at hall
  obtain ⟨x, hx, hxall⟩ := hall
  refine Body.coveringIn_catchesAll hsuf (fun y hy => ?_) hxall
  rw [List.mem_zipIdx_iff_getElem?] at hy
  exact Option.some.inj (hy.symm.trans hx)

theorem catchesAllLast_singleton : CatchesAllLast b [h] ↔ b.catchesAllAt h = true := by
  simp [CatchesAllLast, Body.catchesAllAt, Option.any_eq_true]

theorem catchesAllLast_cons (hne : rest ≠ []) : CatchesAllLast b (h :: rest) ↔ CatchesAllLast b rest := by
  obtain ⟨k, ks, rfl⟩ := List.exists_cons_of_ne_nil hne
  simp [CatchesAllLast, List.getLast?_cons_cons]

theorem exists_tests (ho : Ordered b left) (hne : hs ≠ []) (hsuf : hs <:+ b.handlersAt p)
    (hc : (order b.partition)[c.index]? = some (Partition.chain hs)) :
    ∃ cs out, cs.head? = some c ∧ (mapOf b).Tests out cs hs ∧ (out = none ↔ CatchesAllLast b hs) ∧
      (out ≠ none → out = some (mapOf b).unwindBlock) := by
  induction hs generalizing c with
  | nil => exact absurd rfl hne
  | cons h rest ih =>
    cases hall : b.catchesAllAt h with
    | true =>
      obtain rfl := suffix_catchesAllAt hsuf hall
      refine ⟨[c], none, rfl, .last ?_, ?_, fun hn => absurd rfl hn⟩
      · rw [kind_dispatch hc, hall]
        rfl
      · simp [catchesAllLast_singleton, hall]
    | false =>
      obtain ⟨d, hd, hk⟩ := exists_next ho hall hc
      cases rest with
      | nil =>
        refine ⟨[c], some d, rfl, .last hk, ?_, fun _ => ?_⟩
        · simp [catchesAllLast_singleton, hall]
        · rw [ho.eq_of_getElem? hd ho.getElem?_unwind]
      | cons k ks =>
        have hrest : (k :: ks) <:+ b.handlersAt p := (List.suffix_cons h _).trans hsuf
        obtain ⟨cs, out, hhead, ht, hnone, hsome⟩ := ih (by simp) hrest hd
        cases cs with
        | nil => cases hhead
        | cons d' cs =>
          obtain rfl : d' = d := Option.some.inj hhead
          refine ⟨c :: d' :: cs, out, rfl, .cons hk ht, hnone.trans ?_, hsome⟩
          exact (catchesAllLast_cons (List.cons_ne_nil k ks)).symm

theorem Tests.numbers (ho : Ordered b left) (ht : (mapOf b).Tests out cs hs)
    (hc : (order b.partition)[c.index]? = some (Partition.chain hs)) (hhead : cs.head? = some c) :
    Numbers b cs (Partition.tests hs) := by
  induction ht generalizing c with
  | @last c' h hk =>
    obtain rfl : c' = c := Option.some.inj hhead
    exact .cons hc .nil
  | @cons c' d cs h rest hk _ ih =>
    obtain rfl : c' = c := Option.some.inj hhead
    have hc' : (order b.partition)[c'.index]? = some (.dispatch h rest) := hc
    have hall : b.catchesAllAt h = false := by
      by_contra hall
      rw [Bool.not_eq_false] at hall
      rw [kind_dispatch hc', hall] at hk
      cases hk
    obtain ⟨d', hd', hk'⟩ := exists_next ho hall hc'
    rw [hk] at hk'
    cases hk'
    exact .cons hc (ih hd' rfl)

theorem tests_drop (n : Nat) (hs : List Nat) :
    (Partition.tests hs).drop n = Partition.tests (hs.drop n) := by
  induction n generalizing hs with
  | zero => rfl
  | succ n ih =>
    cases hs with
    | nil => rfl
    | cons h rest => exact ih rest

theorem Numbers.drop_of_suffix (hn : Numbers b cs (Partition.tests hs)) (hsuf : rest <:+ hs) :
    Numbers b (cs.drop (cs.length - rest.length)) (Partition.tests rest) := by
  have hlen : cs.length = hs.length := by
    rw [List.Forall₂.length_eq hn, Partition.tests_length]
  obtain ⟨init, rfl⟩ := hsuf
  have hdrop := List.forall₂_drop (cs.length - rest.length) hn
  rw [tests_drop, hlen, List.length_append, Nat.add_sub_cancel, List.drop_left] at hdrop
  rwa [hlen, List.length_append, Nat.add_sub_cancel]

end Vertices

/-! ## The tests of a position -/

section Positions

variable {b : Body} {left : List Vertex} {p : Position} {c : BlockId}

theorem ThrowsAt.thrownTo {m : BlockMap} (hp : m.ThrowsAt b p) : b.thrownTo p = b.handlersAt p := by
  obtain ⟨i, hi, hc⟩ := hp.throws
  simp [Body.thrownTo, hi, hc]

theorem ThrowsAt.dispatchAt? (hp : (mapOf b).ThrowsAt b p) (hc : (mapOf b).dispatchAt? p = some c) :
    b.handlersAt p ≠ [] ∧ (order b.partition)[c.index]? = some (Partition.chain (b.handlersAt p)) := by
  obtain ⟨h, rest, hth, hv⟩ := dispatchAt?_mapOf hc
  rw [← hp.thrownTo, hth]
  exact ⟨by simp, hv⟩

theorem ThrowsAt.isSome_dispatchAt? (ho : Ordered b left) (hp : (mapOf b).ThrowsAt b p) :
    ((mapOf b).dispatchAt? p).isSome = true ↔ b.handlersAt p ≠ [] := by
  constructor
  · intro hs
    obtain ⟨c, hc⟩ := Option.isSome_iff_exists.1 hs
    exact (hp.dispatchAt? hc).1
  · intro hne
    obtain ⟨a, ha⟩ := hp.held
    obtain ⟨h, rest, heq⟩ := List.exists_cons_of_ne_nil hne
    obtain ⟨-, c, hc, -⟩ := ha.thrown ho (hp.thrownTo.trans heq)
    rw [hc]
    rfl

theorem successors_dispatch (ho : Ordered b left) {h : Nat} {next : Option BlockId}
    (hc : c.index < (mapOf b).size) (hk : ((mapOf b).block c).kind = .dispatch h next) :
    ∃ x e, b.handlers[h]? = some x ∧ (mapOf b).blockAt? x.entry = some e ∧
      ((mapOf b).block c).successors = e :: next.toList := by
  obtain ⟨v, hv⟩ := exists_vertex hc
  cases v with
  | dispatch k rest =>
    have hkind := kind_dispatch hv
    rw [hk] at hkind
    obtain ⟨rfl, hnext⟩ := BlockKind.dispatch.inj hkind
    obtain ⟨x, e, hx, he, -, -⟩ := dispatch_mapOf ho hv
    refine ⟨x, e, hx, he, ?_⟩
    have hentry : number? (order b.partition) (.code (b.entryOf h)) = some e := by
      rw [Body.entryOf, hx, Option.map_some, Option.getD_some]
      exact ho.number?_eq_some ((blockAt?_mapOf ho).1 he)
    cases hall : b.catchesAllAt h with
    | true =>
      rw [hall] at hnext
      rw [successors_mapOf hv, hnext, Partition.successors,
        show b.partition.body.catchesAllAt h = true from hall]
      simp [squeeze, show b.partition.body.entryOf h = b.entryOf h from rfl, hentry]
    | false =>
      obtain ⟨d, hd, hk'⟩ := exists_next ho hall hv
      obtain rfl : next = some d := by
        rw [hk] at hk'
        exact (BlockKind.dispatch.inj hk').2
      -- The entry of a handler is a run, and what comes behind a test is none.
      have hne := (Partition.chain_ne_code rest (b.entryOf h)).symm
      rw [successors_mapOf hv, Partition.successors,
        show b.partition.body.catchesAllAt h = false from hall]
      simp [squeeze, show b.partition.body.entryOf h = b.entryOf h from rfl, hne, hentry,
        ho.number?_eq_some hd]
  | code => rw [block_mapOf hv] at hk; cases hk
  | exit => rw [block_mapOf hv] at hk; cases hk
  | unwind => rw [block_mapOf hv] at hk; cases hk

end Positions

/-- **Dispatch chains spell out the handler table.** An instruction of a block that can throw has a
first test if and only if a handler covers it. From there on, `next` leads through the tests of exactly
the handlers that its exception is offered to, in order. Nothing is behind the last of them if that one
catches everything, and the unwind block otherwise. A test leads to the entry of its handler and then
to `next`. Two positions whose lists of handlers end alike share the tests of that end. -/
theorem ofBody_spellsHandlers {b : Body} {m : BlockMap} (hm : ofBody b = .ok m) :
    m.SpellsHandlers b := by
  obtain ⟨hv, -, rfl⟩ := ofBody_inv hm
  obtain ⟨left, ho⟩ := exists_ordered (Body.valid_of_validate hv)
  refine ⟨fun hp => hp.isSome_dispatchAt? ho, ?_, successors_dispatch ho, ?_⟩
  · intro p c hp hc
    obtain ⟨hne, hv⟩ := hp.dispatchAt? hc
    exact exists_tests ho hne List.suffix_rfl hv
  · intro p q c d out out' cs ds hs hp hq hc hd hcs htp hds htq hsp hsq
    have hn := htp.numbers ho (hp.dispatchAt? hc).2 hcs
    have hn' := htq.numbers ho (hq.dispatchAt? hd).2 hds
    exact (hn.drop_of_suffix hsp).unique ho (hn'.drop_of_suffix hsq)

/-- Two calls that a handler covers together, the first of them also another one, and a third call
under a handler that catches everything. -/
def guarded : Body where
  code := #[.invoke .static ⟨1⟩, .invoke .static ⟨1⟩, .invoke .static ⟨1⟩, .ret, .pop, .ret]
  maxLocals := 0
  handlers := [⟨⟨0⟩, ⟨1⟩, ⟨4⟩, some ⟨5⟩⟩, ⟨⟨0⟩, ⟨2⟩, ⟨4⟩, some ⟨6⟩⟩, ⟨⟨2⟩, ⟨3⟩, ⟨4⟩, none⟩]

theorem guarded_spellsHandlers : ∃ m, ofBody guarded = .ok m ∧ m.SpellsHandlers guarded ∧
    guarded.handlersAt ⟨0⟩ = [0, 1] ∧ guarded.handlersAt ⟨1⟩ = [1] ∧ guarded.handlersAt ⟨2⟩ = [2] ∧
    m.dispatchAt? ⟨0⟩ = some ⟨1⟩ ∧ (m.block ⟨1⟩).kind = .dispatch 0 (some ⟨3⟩) ∧
    m.dispatchAt? ⟨1⟩ = some ⟨3⟩ ∧ (m.block ⟨3⟩).kind = .dispatch 1 (some m.unwindBlock) := by
  have hm : ofBody guarded = .ok (mapOf guarded) := ofBody_of_accepts rfl (by decide +kernel)
  exact ⟨_, hm, ofBody_spellsHandlers hm, by decide +kernel, by decide +kernel, by decide +kernel,
    by decide +kernel, by decide +kernel, by decide +kernel, by decide +kernel⟩

end BlockMap

end StackLift
