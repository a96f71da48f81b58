import StackLift.Proofs.Chart

/-!
# Positions and blocks

Which block of a map a position lies in (`BlockMap.Holds`), and where the exception of an instruction
goes first.
-/
namespace StackLift

theorem Position.index_inj {p q : Position} : p.index = q.index ↔ p = q := by
  cases p
  cases q
  exact Position.mk.injEq _ _ ▸ Iff.rfl

namespace BlockMap

variable {b : Body} {left : List Vertex}
variable {a c : BlockId} {p : Position} {rest : List Nat} {h : Nat}

theorem ofBody_of_accepts (hv : b.validate = .ok ()) (hacc : accepts (edgesOf b) = true) :
    ofBody b = .ok (mapOf b) := by
  rcases ofBody_cases hv with ⟨-, hm⟩ | ⟨hno, -⟩
  · exact hm
  · rw [hacc] at hno
    cases hno

/-- Block `a` runs through position `p`. -/
structure Holds (m : BlockMap) (a : BlockId) (p : Position) : Prop where
  lt : a.index < m.size
  kind : (m.block a).kind = .instructions
  start : (m.block a).start.index ≤ p.index
  stop : p.index < (m.block a).stop.index

theorem exists_code (ha : a.index < (mapOf b).size)
    (hk : ((mapOf b).block a).kind = .instructions) :
    (order b.partition)[a.index]? = some (.code ((mapOf b).block a).start) ∧
      ((mapOf b).block a).stop = b.partition.stop ((mapOf b).block a).start := by
  obtain ⟨v, hv⟩ := exists_vertex ha
  have heq := block_mapOf hv
  rw [heq] at hk ⊢
  cases v with
  | code p => exact ⟨hv, rfl⟩
  | dispatch => cases hk
  | exit => cases hk
  | unwind => cases hk

theorem Holds.unique (ho : Ordered b left) (ha : (mapOf b).Holds a p)
    (hc : (mapOf b).Holds c p) : a = c := by
  obtain ⟨hva, hsa⟩ := exists_code ha.lt ha.kind
  obtain ⟨hvc, hsc⟩ := exists_code hc.lt hc.kind
  have hla := ho.code_leader hva
  have hlc := ho.code_leader hvc
  have hstop : ∀ {s s' : Position}, s ∈ b.leaders → s' ∈ b.leaders →
      p.index < (b.partition.stop s).index → s'.index ≤ p.index → s'.index ≤ s.index := by
    intro s s' hs hs' hlt hle
    by_contra hlt'
    have := (Partition.stop_spec (Body.mem_leaders.1 hs).2).2.2.1 s' hs' (by omega)
    omega
  have h1 := hstop hla hlc (hsa ▸ ha.stop) hc.start
  have h2 := hstop hlc hla (hsc ▸ hc.stop) ha.start
  have heq : ((mapOf b).block a).start = ((mapOf b).block c).start :=
    Position.index_inj.1 (Nat.le_antisymm h2 h1)
  rw [heq] at hva
  exact ho.eq_of_getElem? hva hvc

theorem dispatchAt?_eq_some (ho : Ordered b left)
    (hp : p.index < b.size) (hth : b.thrownTo p = h :: rest)
    (hc : (order b.partition)[c.index]? = some (.dispatch h rest)) :
    (mapOf b).dispatchAt? p = some c := by
  have hnum : number? (order b.partition) (.dispatch h rest) = some c := by
    rw [number?, idxOf?_of_getElem? ho.nodup_order hc]
    rfl
  have hth : b.partition.body.thrownTo p = h :: rest := hth
  refine (lookup_eq_some_iff_mem fun y hy => ?_).2 ?_
  · simp only [mapOf, assemble, List.mem_filterMap, List.mem_map] at hy
    obtain ⟨q, -, hq⟩ := hy
    split at hq
    · cases hq
    · next k rest' hq' =>
      obtain ⟨y', hy', heq⟩ := Option.map_eq_some_iff.1 hq
      cases heq
      rw [hth] at hq'
      cases hq'
      have hnum' : number? (order b.partition) (.dispatch h rest) = some y := hy'
      exact Option.some.inj (hnum'.symm.trans hnum)
  · simp only [mapOf, assemble, List.mem_filterMap, List.mem_map]
    refine ⟨p, ⟨p.index, List.mem_range.2 hp, rfl⟩, ?_⟩
    rw [hth]
    exact Option.map_eq_some_iff.2 ⟨c, hnum, rfl⟩

theorem mem_afterLast {i : Instruction Position}
    (hi : b.instruction? p = some i) (hth : b.thrownTo p = h :: rest) :
    Vertex.dispatch h rest ∈ b.partition.afterLast p i := by
  unfold Body.thrownTo at hth
  rw [hi] at hth
  dsimp only at hth
  split at hth
  · next hc =>
    unfold Partition.afterLast
    have hhs : b.partition.body.handlersAt p = h :: rest := hth
    refine List.mem_append_right _ ?_
    rw [hc, hhs]
    simp [Partition.chain]
  · cases hth

theorem Holds.thrown (ho : Ordered b left) (ha : (mapOf b).Holds a p)
    (hth : b.thrownTo p = h :: rest) :
    p.index + 1 = ((mapOf b).block a).stop.index ∧ ∃ c : BlockId, (mapOf b).dispatchAt? p = some c ∧
      (order b.partition)[c.index]? = some (.dispatch h rest) := by
  obtain ⟨hv, hstop⟩ := exists_code ha.lt ha.kind
  have hlead := (Body.mem_leaders.1 (ho.code_leader hv)).2
  have hle := (Partition.stop_spec hlead).2.1
  have hlt : p.index < b.size := by
    have := ha.stop
    rw [hstop] at this
    omega
  obtain ⟨i, hi⟩ := Body.instruction?_isSome hlt
  have hlast : p.index + 1 = ((mapOf b).block a).stop.index := by
    by_contra hne
    have hend := Partition.endsBlockAt_inside hlead ha.start (q := p) (by
      have := ha.stop
      rw [hstop] at this hne
      omega)
    simp [Body.endsBlockAt, hi, hth] at hend
  refine ⟨hlast, ?_⟩
  have hsucc : Vertex.dispatch h rest ∈ b.partition.successors (.code ((mapOf b).block a).start) := by
    unfold Partition.successors
    dsimp only
    rw [show (⟨(b.partition.stop ((mapOf b).block a).start).index - 1⟩ : Position) = p by
      rw [← hstop, ← hlast]; rfl]
    rw [show b.partition.body.instruction? p = some i from hi]
    exact (mem_squeeze _).2 (mem_afterLast hi hth)
  obtain ⟨c, hc, -⟩ := ho.exists_successor hv hsucc
  exact ⟨c, dispatchAt?_eq_some ho hlt hth hc, hc⟩

end BlockMap

theorem Body.coveringIn_catchesAll {p : Position} {l : List (Handler × Nat)} {n : Nat} {rest : List Nat}
    {h : Handler} (hs : (n :: rest) <:+ Body.coveringIn p l) (hn : ∀ h', (h', n) ∈ l → h' = h)
    (hall : h.catchesAll = true) : rest = [] := by
  induction l with
  | nil => simp [Body.coveringIn] at hs
  | cons x l ih =>
    obtain ⟨h0, n0⟩ := x
    have hn' : ∀ h', (h', n) ∈ l → h' = h := fun h' hm => hn h' (List.mem_cons_of_mem _ hm)
    unfold Body.coveringIn at hs
    split at hs
    · split at hs
      · next hall0 =>
        rcases List.suffix_cons_iff.1 hs with heq | hs
        · exact (List.cons.inj heq).2
        · simp at hs
      · next hall0 =>
        rcases List.suffix_cons_iff.1 hs with heq | hs
        · obtain ⟨rfl, rfl⟩ := List.cons.inj heq
          rw [hn h0 List.mem_cons_self, hall] at hall0
          exact absurd rfl hall0
        · exact ih hs hn'
    · exact ih hs hn'

end StackLift
