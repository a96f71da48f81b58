import StackLift.Proofs.Handlers

/-!
# Block maps are quotients of the instruction flow

Control goes from instruction to instruction: to a branch target, to the next position, and from one
that throws to the entries of its handlers (`Body.flow`). A block map cuts this flow into runs and puts
the tests of the handlers between them. Nothing is lost and nothing is added by that
(`BlockMap.Quotient`): the blocks hold exactly the positions that control can get to, it gets into a
block at its start only, and leaves it from its last position only.

**Lookups.** The construction looks up the instruction at the end of a run, the runs that start where
control goes on, and the handler of a test. `Partition.successors?` makes each of these lookups where it
may fail; on the vertices of a valid body none does.
-/
namespace StackLift

namespace Body

variable {b : Body} {p q : Position} {i : Instruction Position}
variable {h : Handler} {s : Position}

/-- Where control may go on after the instruction at `p`. -/
def nextAt (b : Body) (p : Position) : List Position :=
  match b.instruction? p with
  | some i => i.branchTargets ++ (if i.fallsThrough then [p.next] else []) ++
      (b.thrownTo p).filterMap fun h => b.handlers[h]?.map (·.entry)
  | none => []

def flow (b : Body) : FlowGraph Position := ⟨b.nextAt, ⟨0⟩⟩

theorem mem_nextAt : q ∈ b.nextAt p ↔ ∃ i, b.instruction? p = some i ∧
    (q ∈ i.branchTargets ∨ (i.fallsThrough = true ∧ q = p.next) ∨
      ∃ h ∈ b.thrownTo p, ∃ x, b.handlers[h]? = some x ∧ x.entry = q) := by
  unfold nextAt
  cases b.instruction? p with
  | none => simp
  | some i => cases hf : i.fallsThrough <;> simp [hf]

/-! ## Runs -/

theorem start_mem_leaders (hb : b.Valid) (hh : h ∈ b.handlers) : h.start ∈ b.leaders := by
  obtain ⟨hlt, hle, -⟩ := hb.handler h hh
  refine mem_leaders.2 ⟨?_, by omega⟩
  simp only [seeds, List.mem_cons, List.mem_append, List.mem_flatMap]
  exact .inr ⟨h, hh, by simp⟩

theorem stop_mem_leaders (hh : h ∈ b.handlers) (hlt : h.stop.index < b.size) :
    h.stop ∈ b.leaders := by
  refine mem_leaders.2 ⟨?_, hlt⟩
  simp only [seeds, List.mem_cons, List.mem_append, List.mem_flatMap]
  exact .inr ⟨h, hh, by simp⟩

/-- The run that starts at `s` goes through `p`. -/
structure Spans (b : Body) (s p : Position) : Prop where
  leader : s ∈ b.leaders
  start : s.index ≤ p.index
  stop : p.index < (b.partition.stop s).index

theorem Spans.lt_size (h : b.Spans s p) : p.index < b.size :=
  Nat.lt_of_lt_of_le h.stop (Partition.stop_spec (mem_leaders.1 h.leader).2).2.1

theorem spans_last (hs : s ∈ b.leaders) : b.Spans s ⟨(b.partition.stop s).index - 1⟩ := by
  have hlt := (Partition.stop_spec (mem_leaders.1 hs).2).1
  exact ⟨hs, by simp only; omega, by simp only; omega⟩

theorem Spans.leader_le {l : Position} (h : b.Spans s p) (hl : l ∈ b.leaders)
    (hle : l.index ≤ p.index) : l.index ≤ s.index := by
  by_contra hlt
  have hstop := (Partition.stop_spec (mem_leaders.1 h.leader).2).2.2.1 l hl (by omega)
  have := h.stop
  omega

theorem Spans.covers (hb : b.Valid) (hp : b.Spans s p) (hq : b.Spans s q) (hh : h ∈ b.handlers)
    (hc : h.covers p = true) : h.covers q = true := by
  simp only [Handler.covers, Bool.and_eq_true, decide_eq_true_eq] at hc ⊢
  have hstart := hp.leader_le (start_mem_leaders hb hh) hc.1
  have hqs := hq.start
  refine ⟨by omega, ?_⟩
  by_contra hle
  have hlt := hq.lt_size
  have hstop := hq.leader_le (stop_mem_leaders hh (by omega)) (by omega)
  have hps := hp.start
  omega

theorem coveringIn_congr {l : List (Handler × Nat)}
    (hl : ∀ x ∈ l, x.1.covers p = x.1.covers q) : coveringIn p l = coveringIn q l := by
  induction l with
  | nil => rfl
  | cons x l ih =>
    obtain ⟨h, n⟩ := x
    have hx : h.covers p = h.covers q := hl (h, n) List.mem_cons_self
    rw [coveringIn, coveringIn, hx, ih fun y hy => hl y (List.mem_cons_of_mem _ hy)]

theorem Spans.handlersAt_eq (hb : b.Valid) (hp : b.Spans s p) (hq : b.Spans s q) :
    b.handlersAt p = b.handlersAt q := by
  refine coveringIn_congr fun x hx => Bool.eq_iff_iff.2 ?_
  have hh : x.1 ∈ b.handlers := List.mem_of_getElem? (List.mem_zipIdx_iff_getElem?.1 hx)
  exact ⟨hp.covers hb hq hh, hq.covers hb hp hh⟩

theorem Spans.inside (hp : b.Spans s p)
    (hlt : p.index + 1 < (b.partition.stop s).index) (hi : b.instruction? p = some i) :
    i.branchTargets = [] ∧ i.fallsThrough = true ∧ b.thrownTo p = [] := by
  have hend := Partition.endsBlockAt_inside (mem_leaders.1 hp.leader).2 hp.start hlt
  simpa [endsBlockAt, hi, Instruction.isBlockEnd, and_assoc] using hend

theorem Spans.reaches (hp : b.Spans s p) (hs : b.flow.Reaches ⟨0⟩ s) : b.flow.Reaches ⟨0⟩ p := by
  obtain ⟨k, hk⟩ : ∃ k, p.index = s.index + k := ⟨p.index - s.index, by have := hp.start; omega⟩
  induction k generalizing p with
  | zero =>
    obtain rfl : p = s := Position.index_inj.1 hk
    exact hs
  | succ k ih =>
    have hq : b.Spans s ⟨s.index + k⟩ :=
      ⟨hp.leader, Nat.le_add_right _ _, by have := hp.stop; simp only; omega⟩
    obtain ⟨i, hi⟩ := instruction?_isSome hq.lt_size
    have hnext : p = (⟨s.index + k⟩ : Position).next := Position.index_inj.1 hk
    refine (ih hq rfl).step (mem_nextAt.2 ⟨i, hi, .inr (.inl ⟨?_, hnext⟩)⟩)
    exact (hq.inside (by have := hp.stop; simp only; omega) hi).2.1

end Body

/-! ## Lookups -/

namespace Partition

/-- The run that starts at `p`. -/
def run? (t : Partition) (p : Position) : Option Vertex :=
  if p ∈ t.leaders then some (.code p) else none

/-- `successors`, with every lookup where it may fail: the last instruction of a run, the runs that
start where control goes on, and the handler of a test. -/
def successors? (t : Partition) : Vertex → Option (List Vertex)
  | .code p => do
    let last : Position := ⟨(t.stop p).index - 1⟩
    let i ← t.body.instruction? last
    let targets ← i.branchTargets.mapM t.run?
    let next ← if i.fallsThrough && last.index + 1 < t.body.size
      then (t.run? last.next).map ([·]) else some []
    let thrown := if i.canThrow && (!(t.body.handlersAt last).isEmpty || !i.fallsThrough)
      then [chain (t.body.handlersAt last)] else []
    return squeeze (targets ++ next ++ (if i.isReturn then [.exit] else []) ++ thrown)
  | .dispatch h rest => do
    let x ← t.body.handlers[h]?
    let entry ← t.run? x.entry
    return squeeze (entry :: if x.catchesAll then [] else [chain rest])
  | .exit | .unwind => some []

theorem run?_of_mem {t : Partition} {p : Position} (hp : p ∈ t.leaders) : t.run? p = some (.code p) :=
  if_pos hp

theorem mapM_run? {t : Partition} {ps : List Position} (hps : ∀ p ∈ ps, p ∈ t.leaders) :
    ps.mapM t.run? = some (ps.map .code) := by
  induction ps with
  | nil => rfl
  | cons p ps ih =>
    rw [List.mapM_cons, run?_of_mem (hps p List.mem_cons_self),
      ih fun q hq => hps q (List.mem_cons_of_mem _ hq)]
    rfl

theorem successors?_eq_some {b : Body} (hb : b.Valid) {v : Vertex} (hv : v ∈ vertices b) :
    b.partition.successors? v = some (b.partition.successors v) := by
  have hbody : b.partition.body = b := rfl
  have hleaders : b.partition.leaders = b.leaders := rfl
  cases v with
  | exit => rfl
  | unwind => rfl
  | code p =>
    have hp := (Body.mem_leaders.1 (code_mem_vertices.1 hv)).2
    obtain ⟨hlt, hle, -, hstop⟩ := stop_spec hp
    obtain ⟨i, hi⟩ := Body.instruction?_isSome (b := b) (p := ⟨(b.partition.stop p).index - 1⟩)
      (by simp only; omega)
    have hnext : (⟨(b.partition.stop p).index - 1⟩ : Position).next = b.partition.stop p := by
      have : (b.partition.stop p).index - 1 + 1 = (b.partition.stop p).index := by omega
      simp only [Position.next, this]
    have htargets : i.branchTargets.mapM b.partition.run? = some (i.branchTargets.map .code) :=
      mapM_run? fun t ht => Body.target_mem_leaders hb hi ht
    simp only [successors?, successors, hbody, hi, htargets, Option.bind_eq_bind, Option.bind_some,
      afterLast]
    split
    · next hc =>
      simp only [Bool.and_eq_true, decide_eq_true_eq] at hc
      rw [hnext, run?_of_mem (hstop (by omega))]
      rfl
    · rfl
  | dispatch h rest =>
    obtain ⟨p, -, hs⟩ := dispatch_mem_vertices.1 hv
    obtain ⟨x, hx, hget⟩ := Body.getElem?_of_mem_handlersAt (hs.subset (by simp : h ∈ h :: rest))
    have hentry : x.entry ∈ b.partition.leaders := Body.entry_mem_leaders hb hx
    simp [successors?, successors, hbody, hget, run?_of_mem hentry, Body.entryOf, Body.catchesAllAt]

end Partition

namespace DominatorTable

/-- The tables that the dominators of `count` blocks are found through. -/
inductive Met (preds : Nat → List Nat) (count : Nat) : DominatorTable → Prop where
  | start : Met preds count ((Array.replicate count none).setIfInBounds 0 (some 0))
  | improve {t b} (ht : Met preds count t) (hb : b < count) : Met preds count (improve preds t b)

/-- What a table holds is in it again. -/
def Closed (t : DominatorTable) : Prop := ∀ {a d}, t.parent? a = some d → d < t.size

variable {t : DominatorTable}

theorem Closed.meetFrom_lt (ht : t.Closed) (fuel : Nat) {a b : Nat} (ha : a < t.size)
    (hb : b < t.size) : t.meetFrom fuel a b < t.size := by
  have hup : ∀ a, (t.parent? a).getD 0 < t.size := by
    intro a
    cases hp : t.parent? a with
    | none => exact Nat.lt_of_le_of_lt (Nat.zero_le _) hb
    | some d => exact ht hp
  induction fuel generalizing a b with
  | zero => exact ha
  | succ fuel ih =>
    unfold meetFrom
    split
    · exact ha
    · split
      · exact ih (hup a) hb
      · exact ih ha (hup b)

theorem Closed.candidate_lt (ht : t.Closed) {ps : List Nat} (hps : ∀ p ∈ ps, p < t.size) {d : Nat}
    (hd : t.candidate ps = some d) : d < t.size := by
  -- Whatever the predecessors so far agree on is a block.
  suffices h : ∀ (f : Option Nat → Nat → Option Nat), (∀ p, f none p = some p) →
      (∀ d p, f (some d) p = some (t.meet p d)) → ∀ (qs : List Nat) (acc : Option Nat),
      (∀ q ∈ qs, q < t.size) → (∀ d, acc = some d → d < t.size) →
      ∀ d, qs.foldl f acc = some d → d < t.size by
    refine h _ (fun _ => rfl) (fun _ _ => rfl) _ none
      (fun q hq => hps q (List.mem_filter.1 hq).1) (fun d hd => ?_) d hd
    cases hd
  intro f hnone hsome qs
  induction qs with
  | nil => exact fun acc _ hacc d hd => hacc d hd
  | cons q qs ih =>
    intro acc hqs hacc
    refine ih _ (fun r hr => hqs r (List.mem_cons_of_mem _ hr)) fun d hd => ?_
    have hq := hqs q List.mem_cons_self
    cases acc with
    | none =>
      obtain rfl := Option.some.inj ((hnone q).symm.trans hd)
      exact hq
    | some e =>
      obtain rfl := Option.some.inj ((hsome e q).symm.trans hd)
      exact ht.meetFrom_lt _ hq (hacc e rfl)

theorem improve_size (preds : Nat → List Nat) (t : DominatorTable) (b : Nat) :
    (improve preds t b).size = t.size := by
  unfold improve
  split <;> simp

theorem Met.closed {preds : Nat → List Nat} {count : Nat} (hpos : 0 < count)
    (hpreds : ∀ b, ∀ p ∈ preds b, p < count) (ht : Met preds count t) : t.size = count ∧ t.Closed := by
  induction ht with
  | start =>
    refine ⟨by simp, fun {a d} hd => ?_⟩
    rw [parent?_set] at hd
    split at hd
    · cases hd
      simpa using hpos
    · by_cases ha : a < count <;> simp [parent?, ha] at hd
  | @improve t b _ _ ih =>
    obtain ⟨hsize, hclosed⟩ := ih
    refine ⟨by rw [improve_size, hsize], fun {a d} hd => ?_⟩
    rw [improve_size]
    unfold DominatorTable.improve at hd
    split at hd
    · next d' hc =>
      rw [parent?_set] at hd
      split at hd
      · obtain rfl := Option.some.inj hd
        exact hclosed.candidate_lt (fun p hp => hsize ▸ hpreds b p hp) hc
      · exact hclosed hd
    · exact hclosed hd

end DominatorTable

namespace BlockMap

/-- What is looked up while the map of a body is made is there: by vertex, by number, in the tables of
dominators, and among the loops. -/
structure Lookups (b : Body) : Prop where
  vertex : ∀ v ∈ Partition.vertices b, b.partition.successors? v = some (b.partition.successors v)
  known : ∀ v ∈ order b.partition, v ∈ Partition.vertices b
  edge : ∀ {a c}, c ∈ (edgesOf b)[a]?.getD [] → a < (edgesOf b).size ∧ c < (edgesOf b).size
  source : ∀ {a c}, a ∈ predsOf b c → a < (edgesOf b).size
  table : ∀ {t}, DominatorTable.Met (predsOf b) (edgesOf b).size t →
    t.size = (edgesOf b).size ∧ t.Closed
  header : ∀ h ∈ headsOf b, h < (edgesOf b).size

structure Quotient (m : BlockMap) (b : Body) : Prop where
  reached : ∀ p, b.flow.Reaches ⟨0⟩ p ↔ ∃ a, m.Holds a p
  unique : ∀ {a c p}, m.Holds a p → m.Holds c p → a = c
  entered : ∀ {a p q}, q ∈ b.nextAt p → m.Holds a q →
    q = (m.block a).start ∨ (m.Holds a p ∧ q = p.next)
  inside : ∀ {a p i}, m.Holds a p → p.index + 1 < (m.block a).stop.index →
    b.instruction? p = some i →
    i.branchTargets = [] ∧ i.isReturn = false ∧ i ≠ .throw ∧ b.thrownTo p = []
  handlers : ∀ {a p q}, m.Holds a p → m.Holds a q → b.handlersAt p = b.handlersAt q
  ahead : ∀ {a p i}, m.Holds a p → p.index + 1 = (m.block a).stop.index →
    b.instruction? p = some i →
    (∀ t ∈ i.branchTargets, (m.blockAt? t).isSome = true) ∧
    (i.fallsThrough = true → (m.blockAt? p.next).isSome = true) ∧
    ∀ h ∈ b.thrownTo p, ∃ x, b.handlers[h]? = some x ∧ (m.blockAt? x.entry).isSome = true
  returns : (m.block m.exitBlock).predecessors ≠ [] ↔
    ∃ p i, b.flow.Reaches ⟨0⟩ p ∧ b.instruction? p = some i ∧ i.isReturn = true

section Construction

variable {b : Body} {left : List Vertex}

theorem lookups_of_valid (hb : b.Valid) : Lookups b := by
  obtain ⟨left, ho⟩ := exists_ordered hb
  have hlt : ∀ {n v}, (order b.partition)[n]? = some v → n < (edgesOf b).size := by
    intro n v hv
    rw [edgesOf_size]
    exact (List.getElem?_eq_some_iff.1 hv).1
  have hsource : ∀ {a c}, a ∈ predsOf b c → a < (edgesOf b).size := by
    intro a c ha
    obtain ⟨v, x, hv, -, -⟩ := (mem_edgesOf ho).1 ((mem_predsOf ho).1 ha)
    exact hlt hv
  refine ⟨fun v => Partition.successors?_eq_some hb, ?_, ?_, hsource, ?_, ?_⟩
  · intro v hv
    rw [ho.eq, List.mem_append] at hv
    rcases hv with hv | hv
    · exact ho.known v hv
    · exact List.mem_append_right _ hv
  · intro a c hc
    obtain ⟨v, x, hv, -, hx⟩ := (mem_edgesOf ho).1 hc
    exact ⟨hlt hv, hlt hx⟩
  · exact fun ht => ht.closed (hlt ho.getElem?_zero) fun _ _ => hsource
  · exact fun h hh => (mem_headsOf.1 hh).1

/-! ## Blocks and runs -/

variable {a : BlockId} {p q : Position} {i : Instruction Position}
variable {v x : Vertex}

theorem Holds.spans (ho : Ordered b left) (ha : (mapOf b).Holds a p) :
    b.Spans ((mapOf b).block a).start p := by
  obtain ⟨hv, hstop⟩ := exists_code ha.lt ha.kind
  exact ⟨ho.code_leader hv, ha.start, hstop ▸ ha.stop⟩

theorem holds_of_blockAt? (hc : (mapOf b).Charts b) (ha : (mapOf b).blockAt? p = some a) :
    (mapOf b).Holds a p := by
  obtain ⟨hlt, hkind, hstart⟩ := hc.blockAt ha
  exact ⟨hlt, hkind, by rw [hstart], by rw [← hstart]; exact (hc.run hlt hkind).1⟩

theorem Holds.last (ho : Ordered b left) (ha : (mapOf b).Holds a p) (hi : b.instruction? p = some i)
    (hend : i.isBlockEnd = true) : p.index + 1 = ((mapOf b).block a).stop.index := by
  by_contra hne
  have hstop := ha.stop
  obtain ⟨-, heq⟩ := exists_code ha.lt ha.kind
  obtain ⟨hbr, hft, -⟩ := (ha.spans ho).inside (by rw [← heq]; omega) hi
  simp [Instruction.isBlockEnd, hbr, hft] at hend

theorem Holds.entry (ho : Ordered b left) (hc : (mapOf b).Charts b) (ha : (mapOf b).Holds a p) {h : Nat}
    (hh : h ∈ b.thrownTo p) :
    ∃ x, b.handlers[h]? = some x ∧ ((mapOf b).blockAt? x.entry).isSome = true := by
  have hne := List.ne_nil_of_mem hh
  obtain ⟨k, rest, hth⟩ := List.exists_cons_of_ne_nil hne
  obtain ⟨-, c, -, (hv : _ = some (Partition.chain (k :: rest)))⟩ := ha.thrown ho hth
  have hsuf : b.thrownTo p <:+ b.handlersAt p := by
    unfold Body.thrownTo at hne ⊢
    split
    · split
      · exact List.suffix_rfl
      · exact List.nil_suffix
    · exact List.nil_suffix
  rw [hth] at hh hsuf
  obtain ⟨cs, out, -, ht, -⟩ := exists_tests ho (by simp) hsuf hv
  obtain ⟨d, next, hk⟩ := ht.exists_test hh
  obtain ⟨x, e, hx, he, -⟩ := hc.dispatch (lt_size_of_dispatch hk) hk
  exact ⟨x, hx, by rw [he]; rfl⟩

/-! ## What control can get to -/

theorem Holds.step (ho : Ordered b left) (hc : (mapOf b).Charts b) (ha : (mapOf b).Holds a p)
    (hq : q ∈ b.nextAt p) : ∃ c, (mapOf b).Holds c q := by
  obtain ⟨i, hi, hways⟩ := Body.mem_nextAt.1 hq
  obtain ⟨-, hstop⟩ := exists_code ha.lt ha.kind
  by_cases hlast : p.index + 1 = ((mapOf b).block a).stop.index
  · obtain ⟨i', hi', hleads⟩ := hc.last ha.lt ha.kind p hlast
    obtain rfl : i = i' := Option.some.inj (hi.symm.trans hi')
    rcases hways with ht | ⟨hf, rfl⟩ | ⟨h, hh, x, hx, rfl⟩
    · obtain ⟨c, hat, -⟩ := hleads.target q ht
      exact ⟨c, holds_of_blockAt? hc hat⟩
    · obtain ⟨c, hat, -⟩ := hleads.next hf
      exact ⟨c, holds_of_blockAt? hc hat⟩
    · obtain ⟨y, hy, hat⟩ := ha.entry ho hc hh
      obtain rfl : x = y := Option.some.inj (hx.symm.trans hy)
      obtain ⟨c, hat⟩ := Option.isSome_iff_exists.1 hat
      exact ⟨c, holds_of_blockAt? hc hat⟩
  · have hlt : p.index + 1 < ((mapOf b).block a).stop.index := by have := ha.stop; omega
    obtain ⟨hbr, -, hth⟩ := (ha.spans ho).inside (hstop ▸ hlt) hi
    rcases hways with ht | ⟨-, rfl⟩ | ⟨h, hh, -⟩
    · rw [hbr] at ht
      cases ht
    · exact ⟨a, ha.lt, ha.kind, Nat.le_succ_of_le ha.start, hlt⟩
    · rw [hth] at hh
      cases hh

theorem mem_successors_code {s : Position}
    (hs : b.Spans s ⟨(b.partition.stop s).index - 1⟩) (hx : x ∈ b.partition.successors (.code s)) :
    ∃ i, b.instruction? ⟨(b.partition.stop s).index - 1⟩ = some i ∧
      ((∃ t ∈ i.branchTargets, x = .code t) ∨
        (i.fallsThrough = true ∧ x = .code (Position.next ⟨(b.partition.stop s).index - 1⟩)) ∨
        (i.isReturn = true ∧ x = .exit) ∨ (i.canThrow = true ∧
          x = Partition.chain (b.handlersAt ⟨(b.partition.stop s).index - 1⟩))) := by
  have hbody : b.partition.body = b := rfl
  obtain ⟨i, hi⟩ := Body.instruction?_isSome hs.lt_size
  refine ⟨i, hi, ?_⟩
  simp only [Partition.successors, hbody, hi, mem_squeeze, Partition.afterLast, List.mem_append,
    List.mem_map, List.mem_ite_nil_right, List.mem_singleton, Bool.and_eq_true] at hx
  rcases hx with ((⟨t, ht, rfl⟩ | ⟨hf, rfl⟩) | hret) | ⟨hthrow, rfl⟩
  · exact .inl ⟨t, ht, rfl⟩
  · exact .inr (.inl ⟨hf.1, rfl⟩)
  · exact .inr (.inr (.inl hret))
  · exact .inr (.inr (.inr ⟨hthrow.1, rfl⟩))

/-- What it means for control to get to a vertex: to the start of a run, or to an instruction whose
exception is still to be offered to the handlers of a test. -/
def ReachedAs (b : Body) : Vertex → Prop
  | .code s => b.flow.Reaches ⟨0⟩ s
  | .dispatch h rest => ∃ p, b.flow.Reaches ⟨0⟩ p ∧ (h :: rest) <:+ b.thrownTo p
  | .exit | .unwind => True

theorem reachedAs_chain {hs : List Nat} (hp : b.flow.Reaches ⟨0⟩ p) (hsuf : hs <:+ b.thrownTo p) :
    ReachedAs b (Partition.chain hs) := by
  cases hs with
  | nil => trivial
  | cons h rest => exact ⟨p, hp, hsuf⟩

theorem reachedAs_step (hv : v ∈ Partition.vertices b)
    (hr : ReachedAs b v) (hx : x ∈ b.partition.successors v) : ReachedAs b x := by
  cases v with
  | exit => cases hx
  | unwind => cases hx
  | code s =>
    have hspan := Body.spans_last (Partition.code_mem_vertices.1 hv)
    have hreach := hspan.reaches hr
    obtain ⟨i, hi, ⟨t, ht, rfl⟩ | ⟨hf, rfl⟩ | ⟨-, rfl⟩ | ⟨hthrow, rfl⟩⟩ := mem_successors_code hspan hx
    · exact hreach.step (Body.mem_nextAt.2 ⟨i, hi, .inl ht⟩)
    · exact hreach.step (Body.mem_nextAt.2 ⟨i, hi, .inr (.inl ⟨hf, rfl⟩)⟩)
    · trivial
    · refine reachedAs_chain hreach ?_
      simp [Body.thrownTo, hi, hthrow]
  | dispatch h rest =>
    obtain ⟨p, hp, hsuf⟩ := hr
    obtain ⟨i, hi⟩ : ∃ i, b.instruction? p = some i := by
      cases hi : b.instruction? p with
      | none =>
        simp [Body.thrownTo, hi] at hsuf
      | some i => exact ⟨i, rfl⟩
    rw [Partition.successors, mem_squeeze, List.mem_cons] at hx
    rcases hx with rfl | hx
    · have hmem : h ∈ b.thrownTo p := hsuf.subset List.mem_cons_self
      obtain ⟨q, -, hq⟩ := Partition.dispatch_mem_vertices.1 hv
      obtain ⟨y, -, hy⟩ := Body.getElem?_of_mem_handlersAt (hq.subset (by simp : h ∈ h :: rest))
      refine hp.step (Body.mem_nextAt.2 ⟨i, hi, .inr (.inr ⟨h, hmem, y, hy, ?_⟩)⟩)
      simp [Body.entryOf, show b.partition.body.handlers[h]? = some y from hy]
    · split at hx
      · cases hx
      · obtain rfl := List.mem_singleton.1 hx
        exact reachedAs_chain hp ((List.suffix_cons h rest).trans hsuf)

theorem Ordered.reachedAs (ho : Ordered b left) (hv : v ∈ left) : ReachedAs b v := by
  have hpath := ho.toNumbering.reaches hv
  clear hv
  induction hpath with
  | refl => exact .refl
  | step hy he ih =>
    exact reachedAs_step (ho.known _ (ho.toNumbering.mem_left (ho.mem_of_reaches hy) he)) ih he

theorem reaches_iff_holds (ho : Ordered b left) (hc : (mapOf b).Charts b) (p : Position) :
    b.flow.Reaches ⟨0⟩ p ↔ ∃ a, (mapOf b).Holds a p := by
  constructor
  · intro hp
    induction hp with
    | refl =>
      obtain ⟨hkind, hstart⟩ := hc.entry
      have hlt : (⟨0⟩ : BlockId).index < (mapOf b).size := by have := hc.size; simp only; omega
      refine ⟨⟨0⟩, hlt, hkind, by rw [hstart], ?_⟩
      exact Nat.lt_of_le_of_lt (Nat.zero_le _) (hc.run hlt hkind).1
    | step _ he ih =>
      obtain ⟨a, ha⟩ := ih
      exact ha.step ho hc he
  · rintro ⟨a, ha⟩
    have hv := List.mem_of_getElem? (exists_code ha.lt ha.kind).1
    rw [ho.eq] at hv
    have hleft : Vertex.code ((mapOf b).block a).start ∈ left := by simpa using hv
    exact (ha.spans ho).reaches (ho.reachedAs hleft)

theorem Holds.entered (ho : Ordered b left) (hb : b.Valid) (ha : (mapOf b).Holds a q)
    (hq : q ∈ b.nextAt p) : q = ((mapOf b).block a).start ∨ ((mapOf b).Holds a p ∧ q = p.next) := by
  have hspan := ha.spans ho
  have hleader : q ∈ b.leaders → q = ((mapOf b).block a).start := by
    intro hl
    exact Position.index_inj.1 (Nat.le_antisymm (hspan.leader_le hl (Nat.le_refl _)) ha.start)
  obtain ⟨i, hi, ht | ⟨-, rfl⟩ | ⟨h, hh, x, hx, rfl⟩⟩ := Body.mem_nextAt.1 hq
  · exact .inl (hleader (Body.target_mem_leaders hb hi ht))
  · by_cases hstart : p.next = ((mapOf b).block a).start
    · exact .inl hstart
    · have hlt : ((mapOf b).block a).start.index ≤ p.index := by
        by_contra hle
        exact hstart (Position.index_inj.1 (Nat.le_antisymm (Nat.not_le.1 hle) ha.start))
      exact .inr ⟨⟨ha.lt, ha.kind, hlt, Nat.lt_of_succ_lt ha.stop⟩, rfl⟩
  · exact .inl (hleader (Body.entry_mem_leaders hb (List.mem_of_getElem? hx)))

theorem return_of_exit (hv : v ∈ Partition.vertices b) (hx : .exit ∈ b.partition.successors v) :
    ∃ s p i, v = .code s ∧ b.Spans s p ∧ b.instruction? p = some i ∧ i.isReturn = true := by
  cases v with
  | exit => cases hx
  | unwind => cases hx
  | dispatch h rest =>
    rw [Partition.successors, mem_squeeze] at hx
    simp [(Partition.chain_ne_exit rest).symm] at hx
  | code s =>
    have hspan := Body.spans_last (Partition.code_mem_vertices.1 hv)
    obtain ⟨i, hi, ⟨t, -, ht⟩ | ⟨-, ht⟩ | ⟨hret, -⟩ | ⟨-, ht⟩⟩ := mem_successors_code hspan hx
    · cases ht
    · cases ht
    · exact ⟨s, _, i, rfl, hspan, hi, hret⟩
    · exact absurd ht.symm (Partition.chain_ne_exit _)

theorem exit_reached (ho : Ordered b left) (hc : (mapOf b).Charts b) :
    ((mapOf b).block (mapOf b).exitBlock).predecessors ≠ [] ↔
      ∃ p i, b.flow.Reaches ⟨0⟩ p ∧ b.instruction? p = some i ∧ i.isReturn = true := by
  have hpreds : ((mapOf b).block (mapOf b).exitBlock).predecessors ≠ [] ↔
      ∃ a, (mapOf b).exitBlock ∈ ((mapOf b).block a).successors := by
    rw [block_mapOf ho.getElem?_exit, ne_eq, List.map_eq_nil_iff]
    constructor
    · intro hne
      obtain ⟨a, ha⟩ := List.exists_mem_of_ne_nil _ hne
      exact ⟨⟨a⟩, (mem_predsOf_iff ho (a := ⟨a⟩)).1 ha⟩
    · rintro ⟨a, ha⟩
      exact List.ne_nil_of_mem ((mem_predsOf_iff ho).2 ha)
  rw [hpreds]
  constructor
  · rintro ⟨a, ha⟩
    obtain ⟨v, x, hv, hx, hexit⟩ := (mem_successors_mapOf ho).1 ha
    obtain rfl : x = .exit := Option.some.inj (hexit.symm.trans ho.getElem?_exit)
    have hmem := ho.mem_left hv hx
    obtain ⟨s, p, i, rfl, hspan, hi, hret⟩ := return_of_exit (ho.known v hmem) hx
    exact ⟨p, i, hspan.reaches (ho.reachedAs hmem), hi, hret⟩
  · rintro ⟨p, i, hp, hi, hret⟩
    obtain ⟨a, ha⟩ := (reaches_iff_holds ho hc p).1 hp
    have hend : i.isBlockEnd = true := by
      cases i <;> first | rfl | cases hret
    obtain ⟨i', hi', hleads⟩ := hc.last ha.lt ha.kind p (ha.last ho hi hend)
    obtain rfl : i = i' := Option.some.inj (hi.symm.trans hi')
    exact ⟨a, hleads.exit hret⟩

end Construction

/-- **The block map is a faithful quotient of the instruction flow.** A body that is not valid is
refused before anything is looked up; for any other, no lookup of the construction fails. If there is a
map, control can get to a position if and only if the position lies in a block of instructions, and
then in one only. It gets into a block at its start. Before the last position of a block nothing
branches, returns or throws to a handler. One list of handlers covers all of a block. Wherever the last
instruction may lead, a block starts. The exit has a predecessor if and only if control can get to a
return. -/
theorem ofBody_quotient (b : Body) :
    ((∃ e, b.validate = .error e ∧ ofBody b = .error e) ∨ Lookups b) ∧
      ∀ m, ofBody b = .ok m → m.Quotient b := by
  constructor
  · cases hv : b.validate with
    | error e =>
      refine Or.inl ⟨e, rfl, ?_⟩
      unfold ofBody
      rw [hv]
      rfl
    | ok u => exact Or.inr (lookups_of_valid (Body.valid_of_validate hv))
  intro m hm
  have hc := charts_of_ofBody hm
  obtain ⟨hv, -, rfl⟩ := ofBody_inv hm
  obtain ⟨left, ho⟩ := exists_ordered hc.valid
  refine
    { reached := reaches_iff_holds ho hc
      unique := fun ha hc => ha.unique ho hc
      entered := fun hq ha => ha.entered ho hc.valid hq
      inside := ?_
      handlers := fun hp hq => (hp.spans ho).handlersAt_eq hc.valid (hq.spans ho)
      ahead := ?_
      returns := exit_reached ho hc }
  · intro a p i ha hlt hi
    obtain ⟨-, hstop⟩ := exists_code ha.lt ha.kind
    obtain ⟨hbr, hft, hth⟩ := (ha.spans ho).inside (hstop ▸ hlt) hi
    refine ⟨hbr, ?_, ?_, hth⟩
    · cases i <;> first | rfl | cases hft
    · rintro rfl
      cases hft
  · intro a p i ha hlast hi
    obtain ⟨i', hi', hleads⟩ := hc.last ha.lt ha.kind p hlast
    obtain rfl : i = i' := Option.some.inj (hi.symm.trans hi')
    refine ⟨fun t ht => ?_, fun hf => ?_, fun h hh => ha.entry ho hc hh⟩
    · obtain ⟨c, hat, -⟩ := hleads.target t ht
      rw [hat]
      rfl
    · obtain ⟨c, hat, -⟩ := hleads.next hf
      rw [hat]
      rfl

/-- A branch over code that control never gets to, and a call whose handler is the code behind it. -/
def skipping : Body where
  code := #[.load 0, .ifZero .eq ⟨4⟩, .goto ⟨4⟩, .nop, .invoke .static ⟨1⟩, .ret, .nop, .pop, .goto ⟨5⟩]
  maxLocals := 1
  handlers := [⟨⟨4⟩, ⟨5⟩, ⟨7⟩, none⟩]

theorem skipping_quotient : ∃ m, ofBody skipping = .ok m ∧ m.Quotient skipping ∧
    m.Holds ⟨4⟩ ⟨7⟩ ∧ skipping.flow.Reaches ⟨0⟩ ⟨7⟩ ∧ m.blockAt? ⟨3⟩ = none ∧
    (m.block m.exitBlock).predecessors = [⟨5⟩] := by
  have hm : ofBody skipping = .ok (mapOf skipping) := ofBody_of_accepts rfl (by decide +kernel)
  have hq := (ofBody_quotient skipping).2 _ hm
  have hheld : (mapOf skipping).Holds ⟨4⟩ ⟨7⟩ :=
    ⟨by decide +kernel, by decide +kernel, by decide +kernel, by decide +kernel⟩
  exact ⟨_, hm, hq, hheld, (hq.reached ⟨7⟩).2 ⟨_, hheld⟩, by decide +kernel, by decide +kernel⟩

end BlockMap

end StackLift
