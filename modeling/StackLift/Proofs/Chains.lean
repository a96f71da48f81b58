import StackLift.Flow.Chains
import StackLift.Proofs.Handlers

/-!
# The raw blocks are the vertices

`Vertex` names a test by its handler and the handlers that are left. Here this is compared with tests
that are made on demand and found again in a table. At every moment the raw blocks are the blocks of a
list of vertices without repetition, the table finds a chain where its vertex is in the list, and a
link that is still a placeholder is one to the unwind block.

**Results.**
* `Body.rawBlocks_eq`: the raw blocks are those of the leaders, of the tests that some instruction can
  get to by throwing, and of the two ways out, each once, and every link is the index of its vertex.
-/
namespace StackLift

open Partition

/-- The block of a vertex. -/
def Body.blockOf {ι : Type} (b : Body) (link : Vertex → ι) : Vertex → RawBlock ι
  | .code p => .run p (b.partition.stop p)
  | .dispatch h rest => .dispatch h (if b.catchesAllAt h then none else some (link (chain rest)))
  | .exit => .exit
  | .unwind => .unwind

namespace Chains

variable {b : Body} {s : Chains} {vs : List Vertex} {h : Nat} {hs rest : List Nat} {p : Position}

theorem idxOf?_append (vs ws : List Vertex) (v : Vertex) :
    (vs ++ ws).idxOf? v = (vs.idxOf? v).or ((ws.idxOf? v).map (· + vs.length)) := by
  simp [List.idxOf?, List.findIdx?_append]

/-- The blocks made so far are those of `vs`. -/
structure Names (b : Body) (s : Chains) (vs : List Vertex) : Prop where
  nodup : vs.Nodup
  raw : s.raw = vs.map (b.blockOf vs.idxOf?)
  made : ∀ hs, s.made.lookup hs = vs.idxOf? (chain hs)
  inside : .exit ∉ vs ∧ .unwind ∉ vs
  closed : ∀ {h rest}, .dispatch h rest ∈ vs → b.catchesAllAt h = false → rest ≠ [] → chain rest ∈ vs

theorem Names.length (hv : Names b s vs) : s.raw.length = vs.length := by
  rw [hv.raw, List.length_map]

theorem Names.push (hv : Names b s vs) (hnew : .dispatch h rest ∉ vs)
    (hrest : b.catchesAllAt h = false → rest ≠ [] → chain rest ∈ vs) :
    Names b { raw := s.raw ++ [b.blockOf vs.idxOf? (.dispatch h rest)]
              made := (h :: rest, s.raw.length) :: s.made } (vs ++ [.dispatch h rest]) := by
  have hclosed : ∀ {k ks}, .dispatch k ks ∈ vs ++ [.dispatch h rest] → b.catchesAllAt k = false →
      ks ≠ [] → chain ks ∈ vs := by
    intro k ks hm
    rcases List.mem_append.1 hm with hm | hm
    · exact hv.closed hm
    · obtain ⟨rfl, rfl⟩ := Vertex.dispatch.inj (List.mem_singleton.1 hm)
      exact hrest
  -- the links that are there keep their index, and the unwind block still has none
  have hblock : ∀ v ∈ vs ++ [.dispatch h rest],
      b.blockOf (vs ++ [Vertex.dispatch h rest]).idxOf? v = b.blockOf vs.idxOf? v := by
    rintro (p | ⟨k, ks⟩ | _ | _) hm <;> simp only [Body.blockOf]
    cases hall : b.catchesAllAt k with
    | true => rfl
    | false =>
      rcases ks with - | ⟨j, js⟩
      · simp [chain, idxOf?_append]
      · obtain ⟨n, hn⟩ := Option.isSome_iff_exists.1 (List.isSome_idxOf?.2 (hclosed hm hall (by simp)))
        simp [idxOf?_append, hn]
  refine ⟨?_, ?_, fun ks => ?_, by simpa using hv.inside, fun hm hall hne => ?_⟩
  · exact List.nodup_append.2 ⟨hv.nodup, by simp, by grind⟩
  · rw [List.map_congr_left hblock, List.map_append, hv.raw]
    rfl
  · rw [List.lookup_cons, idxOf?_append, hv.made, hv.length]
    by_cases hk : ks = h :: rest
    · subst hk
      simp [chain, List.idxOf?_eq_none_iff.2 hnew]
    · have hne : chain ks ≠ .dispatch h rest := by
        cases ks <;> simp_all [chain]
      simp [beq_eq_false_iff_ne.2 hk, hne.symm]
  · exact List.mem_append_left _ (hclosed hm hall hne)

/-- Requiring a chain makes some of its tests, and the link that it returns is the right one. -/
theorem Names.require (hv : Names b s vs) (hs : List Nat) : ∃ ws, Names b (s.require b hs).2 (vs ++ ws) ∧
    (s.require b hs).1 = (vs ++ ws).idxOf? (chain hs) ∧ (hs ≠ [] → chain hs ∈ vs ++ ws) ∧
    ∀ v ∈ ws, v ∈ tests hs := by
  induction hs with
  | nil =>
    refine ⟨[], by simpa [Chains.require] using hv, ?_, fun h => absurd rfl h, by simp⟩
    simpa [Chains.require, chain] using (List.idxOf?_eq_none_iff.2 hv.inside.2).symm
  | cons h rest ih =>
    cases hmade : s.made.lookup (h :: rest) with
    | some n =>
      have hidx := hmade ▸ hv.made (h :: rest)
      have hmem : chain (h :: rest) ∈ vs := List.isSome_idxOf?.1 (by rw [← hidx]; rfl)
      simp only [Chains.require, hmade]
      exact ⟨[], by simpa using hv, by simpa using hidx, fun _ => by simpa using hmem, by simp⟩
    | none =>
      have hnew : .dispatch h rest ∉ vs := List.idxOf?_eq_none_iff.1 (hmade ▸ hv.made (h :: rest)).symm
      -- the state in which the new test is pushed, and the vertices made for it
      obtain ⟨t, ws, ht, hws, hrest, hreq⟩ : ∃ t ws, Names b t (vs ++ ws) ∧
          (∀ v ∈ ws, v ∈ tests rest) ∧
          (b.catchesAllAt h = false → rest ≠ [] → chain rest ∈ vs ++ ws) ∧
          s.require b (h :: rest) = (some t.raw.length,
            { raw := t.raw ++ [b.blockOf (vs ++ ws).idxOf? (.dispatch h rest)]
              made := (h :: rest, t.raw.length) :: t.made }) := by
        cases hall : b.catchesAllAt h with
        | true =>
          refine ⟨s, [], by simpa using hv, by simp, by simp, ?_⟩
          simp [Chains.require, hmade, hall, Body.blockOf]
        | false =>
          obtain ⟨ws, hn, hlink, hmem, hws⟩ := ih
          refine ⟨_, ws, hn, hws, fun _ => hmem, ?_⟩
          simp [Chains.require, hmade, hall, Body.blockOf, hlink]
      have hfresh : .dispatch h rest ∉ vs ++ ws := by
        rw [List.mem_append, not_or]
        refine ⟨hnew, fun hm => ?_⟩
        have := (mem_tests.1 (hws _ hm)).length_le
        simp at this
      rw [hreq]
      refine ⟨ws ++ [.dispatch h rest], ?_, ?_, fun _ => by simp [chain], fun v hm => ?_⟩
      · rw [← List.append_assoc]
        exact ht.push hfresh hrest
      · rw [← List.append_assoc, idxOf?_append, chain, List.idxOf?_eq_none_iff.2 hfresh]
        simp [ht.length]
      · rcases List.mem_append.1 hm with hm | hm
        · exact List.mem_cons_of_mem _ (hws v hm)
        · exact List.mem_singleton.1 hm ▸ List.mem_cons_self ..

theorem Names.tests_subset (hv : Names b s vs) (hsuf : hs <:+ b.handlersAt p)
    (hm : hs ≠ [] → chain hs ∈ vs) : tests hs ⊆ vs := by
  induction hs with
  | nil => simp [tests]
  | cons h rest ih =>
    have hhead := hm (by simp)
    refine List.cons_subset.2 ⟨hhead, ih ((List.suffix_cons h rest).trans hsuf) fun hne => ?_⟩
    cases hall : b.catchesAllAt h with
    | true => exact absurd (BlockMap.suffix_catchesAllAt hsuf hall) hne
    | false => exact hv.closed hhead hall hne

theorem thrownTo_suffix (b : Body) (p : Position) : b.thrownTo p <:+ b.handlersAt p := by
  unfold Body.thrownTo
  split
  · split
    · exact List.suffix_refl _
    · exact List.nil_suffix
  · exact List.nil_suffix

theorem Names.foldl (hv : Names b s vs) (ps : List Position) :
    ∃ ws, Names b (ps.foldl (fun s p => (s.require b (b.thrownTo p)).2) s) (vs ++ ws) ∧
      ∀ v, v ∈ vs ++ ws ↔ v ∈ vs ∨ ∃ p ∈ ps, v ∈ tests (b.thrownTo p) := by
  induction ps generalizing s vs with
  | nil => exact ⟨[], by simpa using hv, by simp⟩
  | cons p ps ih =>
    obtain ⟨ws, hn, -, hmem, hws⟩ := hv.require (b.thrownTo p)
    have hall := hn.tests_subset (thrownTo_suffix b p) hmem
    obtain ⟨us, hus, hiff⟩ := ih hn
    refine ⟨ws ++ us, by simpa using hus, fun v => ?_⟩
    rw [← List.append_assoc, hiff, List.mem_append]
    constructor
    · rintro ((hv | hv) | ⟨q, hq, hv⟩)
      · exact .inl hv
      · exact .inr ⟨p, by simp, hws v hv⟩
      · exact .inr ⟨q, by simp [hq], hv⟩
    · rintro (hv | ⟨q, hq, hv⟩)
      · exact .inl (.inl hv)
      · rcases List.mem_cons.1 hq with rfl | hq
        · exact .inl (List.mem_append.1 (hall hv))
        · exact .inr ⟨q, hq, hv⟩

end Chains

namespace Body

open Chains

variable {b : Body} {vs : List Vertex}

theorem chains_names (b : Body) : ∃ ws, Names b b.chains (b.leaders.map .code ++ ws) ∧
    ∀ v, v ∈ b.leaders.map .code ++ ws ↔
      v ∈ b.leaders.map .code ∨ ∃ p ∈ (List.range b.size).map Position.mk, v ∈ tests (b.thrownTo p) := by
  refine Names.foldl ⟨?_, ?_, fun hs => ?_, by simp, by simp⟩ _
  · refine List.Nodup.map (fun _ _ h => Vertex.code.inj h) (b.leaders_sorted.imp fun h he => ?_)
    exact absurd h (he ▸ Nat.lt_irrefl _)
  · simp [blockOf]
  · exact (List.idxOf?_eq_none_iff.2 (by cases hs <;> simp [chain])).symm

theorem mem_chains {v : Vertex} (hiff : v ∈ vs ↔ v ∈ b.leaders.map .code ∨
    ∃ p ∈ (List.range b.size).map Position.mk, v ∈ tests (b.thrownTo p)) :
    v ∈ vs ↔ (∃ p ∈ b.leaders, v = .code p) ∨ ∃ h rest p, v = .dispatch h rest ∧
      (h :: rest) <:+ b.thrownTo p := by
  rw [hiff, List.mem_map]
  refine or_congr (by simp only [eq_comm]) ⟨?_, ?_⟩
  · rintro ⟨p, -, hv⟩
    obtain ⟨h, rest, rfl⟩ := dispatch_of_mem_tests hv
    exact ⟨h, rest, p, rfl, mem_tests.1 hv⟩
  · rintro ⟨h, rest, p, rfl, hv⟩
    refine ⟨p, ?_, mem_tests.2 hv⟩
    cases hi : b.instruction? p with
    | none => simp [thrownTo, hi] at hv
    | some i => exact List.mem_map.2 ⟨p.index, List.mem_range.2 (lt_size_of_instruction? hi), rfl⟩

theorem rawBlocks_of_names (hn : Names b b.chains vs) :
    b.rawBlocks = (vs ++ [Vertex.exit, .unwind]).map
    (b.blockOf (vs ++ [Vertex.exit, .unwind]).idxOf) := by
  have hlink : ∀ v ∈ vs, (b.blockOf vs.idxOf? v).map (·.getD (vs.length + 1)) =
      b.blockOf (vs ++ [Vertex.exit, .unwind]).idxOf v := by
    rintro (p | ⟨k, ks⟩ | _ | _) hv <;> simp only [blockOf, RawBlock.map]
    cases hall : b.catchesAllAt k with
    | true => rfl
    | false =>
      simp only [Bool.false_eq_true, if_false, Option.map_some, List.idxOf_eq_getD_idxOf?, idxOf?_append]
      cases ks with
      | nil =>
        rw [chain, List.idxOf?_eq_none_iff.2 hn.inside.2]
        simp [List.idxOf?_cons, Nat.add_comm]
      | cons j js =>
        obtain ⟨n, hk⟩ := Option.isSome_iff_exists.1 (List.isSome_idxOf?.2 (hn.closed hv hall (by simp)))
        simp [hk]
  simp only [rawBlocks, hn.raw, List.map_append, List.map_map, List.length_append, List.length_map]
  congr 1
  exact List.map_congr_left hlink

theorem rawBlocks_eq (b : Body) : ∃ vs : List Vertex, vs.Nodup ∧ b.rawBlocks = vs.map
    (b.blockOf vs.idxOf) ∧ (∀ v, v ∈ vs ↔ (∃ p ∈ b.leaders, v = .code p) ∨
      (∃ h rest p, v = .dispatch h rest ∧ (h :: rest) <:+ b.thrownTo p) ∨ v = .exit ∨ v = .unwind) ∧
    (∀ h rest, .dispatch h rest ∈ vs → b.catchesAllAt h = false → chain rest ∈ vs) ∧
    ∀ p, b.thrownTo p ≠ [] →
      b.chains.made.lookup (b.thrownTo p) = vs.idxOf? (chain (b.thrownTo p)) := by
  obtain ⟨ws, hn, hiff⟩ := b.chains_names
  generalize b.leaders.map Vertex.code ++ ws = vs at hn hiff
  refine ⟨vs ++ [.exit, .unwind], ?_, rawBlocks_of_names hn, fun v => ?_, fun h rest hm hall => ?_,
    fun p hp => ?_⟩
  · refine List.nodup_append.2 ⟨hn.nodup, by simp, ?_⟩
    rintro v hv w hw rfl
    rcases (by simpa using hw : v = .exit ∨ v = .unwind) with rfl | rfl
    · exact hn.inside.1 hv
    · exact hn.inside.2 hv
  · rw [List.mem_append, mem_chains (hiff v), or_assoc]
    simp
  · cases rest with
    | nil => simp [chain]
    | cons k ks => exact List.mem_append_left _ (hn.closed (by simpa using hm) hall (by simp))
  · obtain ⟨h, rest, hr⟩ := List.exists_cons_of_ne_nil hp
    rw [hn.made, idxOf?_append, hr]
    simp [chain, List.idxOf?_cons]

end Body

end StackLift
