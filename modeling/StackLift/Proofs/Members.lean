import StackLift.Proofs.BitSet
import Mathlib.Data.Finset.Sort

/-!
# Bit sets as finite sets

Every set that the operations can make from an empty one (`History`) holds exactly the indices that
the same operations on finite sets give, and every question about it has the answer for that finite
set (`History.run_represents`). All of this follows from `Shows`: the set has no padding bit
(`Snug`) and contains just these indices. The count and the test for emptiness read whole words;
the cursor goes from word to word.
-/
namespace StackLift

namespace BitSet

variable {n i : Nat} {s t : BitSet} {S T : Finset Nat} {c d : Cursor}

/-- The set has capacity `n`, contains the indices of `S` and has no padding bit. -/
structure Shows (n : Nat) (s : BitSet) (S : Finset Nat) : Prop where
  snug : s.Snug
  capacity : s.capacity = n
  contains : ∀ i, s.contains i = true ↔ i ∈ S

/-! ## Operations -/

theorem erase_capacity (s : BitSet) (i : Nat) : (s.erase i).capacity = s.capacity := by
  unfold erase
  split <;> rfl

theorem bit_erase (hs : s.Wide) (hi : i < s.capacity) (j : Nat) :
    (s.erase i).bit j = (s.bit j && !decide (i = j)) := by
  rw [BitSet.erase, if_pos hi, bit_modify (b := fun _ => false) _ hs hi]
  · by_cases h : i = j <;> simp [h]
  · intro w k hk
    by_cases h : k = i % 64 <;> simp [mask_toBitVec, hk, h, Nat.mod_lt]

theorem Snug.erase (hs : s.Snug) (hi : i < s.capacity) : (s.erase i).Snug := by
  refine ⟨?_, fun j hj => ?_⟩
  · have := hs.wide
    unfold Wide at *
    simpa [BitSet.erase, hi] using this
  · rw [erase_capacity] at hj
    rw [bit_erase hs.wide hi, hs.padding j hj]
    rfl

theorem shows_empty (n : Nat) : Shows n (empty n) ∅ :=
  ⟨snug_empty n, rfl, fun i => by simp⟩

theorem Shows.lt (h : Shows n s S) (hi : i ∈ S) : i < n :=
  h.capacity ▸ lt_capacity ((h.contains i).2 hi)

theorem Shows.insert (h : Shows n s S) (hi : i < n) : Shows n (s.insert i) (Insert.insert i S) := by
  refine ⟨h.snug.insert i, (insert_capacity s i).trans h.capacity, fun j => ?_⟩
  rw [contains_insert h.snug.wide, h.contains, h.capacity, Finset.mem_insert]
  constructor
  · rintro (⟨rfl, -⟩ | hj)
    · exact .inl rfl
    · exact .inr hj
  · rintro (rfl | hj)
    · exact .inl ⟨rfl, hi⟩
    · exact .inr hj

theorem Shows.erase (h : Shows n s S) (hi : i < n) : Shows n (s.erase i) (S.erase i) := by
  have hi' : i < s.capacity := h.capacity ▸ hi
  have hs := h.snug.erase hi'
  refine ⟨hs, (erase_capacity s i).trans h.capacity, fun j => ?_⟩
  rw [← bit_eq_contains hs, bit_erase h.snug.wide hi', bit_eq_contains h.snug]
  simp only [Bool.and_eq_true, h.contains, Bool.not_eq_true', decide_eq_false_iff_not, Finset.mem_erase]
  exact ⟨fun hj => ⟨Ne.symm hj.2, hj.1⟩, fun hj => ⟨hj.2, Ne.symm hj.1⟩⟩

section

variable (h : Shows n s S) (h' : Shows n t T)
include h h'

theorem Shows.same : t.capacity = s.capacity := h'.capacity.trans h.capacity.symm

theorem Shows.union : Shows n (s.union t) (S ∪ T) := by
  refine ⟨h.snug.union h'.snug (h.same h'), h.capacity, fun i => ?_⟩
  rw [contains_union h.snug h'.snug (h.same h'), h.contains, h'.contains, Finset.mem_union]

theorem Shows.difference : Shows n (s.difference t) (S \ T) := by
  refine ⟨h.snug.difference h'.snug (h.same h'), h.capacity, fun i => ?_⟩
  rw [contains_difference h.snug h'.snug (h.same h'), h.contains, h'.contains, Finset.mem_sdiff]

theorem Shows.eq_iff : s = t ↔ S = T := by
  constructor
  · rintro rfl
    ext i
    rw [← h.contains, h'.contains]
  · rintro rfl
    refine h.snug.ext h'.snug (h.same h').symm fun i => ?_
    rw [Bool.eq_iff_iff, h.contains, h'.contains]

end

/-! ## Questions -/

theorem Shows.isEmpty (h : Shows n s S) : s.isEmpty = true ↔ S = ∅ := by
  rw [← h.eq_iff (shows_empty n)]
  constructor
  · intro he
    have hw : s.words = Array.replicate ((n + 63) / 64) 0 := by
      refine Array.eq_replicate_iff.2 ⟨h.capacity ▸ h.snug.wide, fun w hw => ?_⟩
      simpa using Array.all_eq_true_iff_forall_mem.1 he w hw
    cases s
    obtain rfl : _ = n := h.capacity
    rw [empty, ← hw]
  · rintro rfl
    refine Array.all_eq_true_iff_forall_mem.2 fun w hw => ?_
    simp [(Array.mem_replicate.1 hw).2]

theorem onesIn_eq (w : UInt64) : onesIn w = (List.range 64).countP w.toBitVec.getLsbD := by
  refine List.countP_congr fun i hi => ?_
  rw [and_mask_ne_zero, Nat.mod_eq_of_lt (List.mem_range.1 hi)]

theorem foldl_onesIn (ws : List UInt64) : ws.foldl (fun n w => n + onesIn w) 0 =
    (List.range (64 * ws.length)).countP fun i => (ws[i / 64]?.getD 0).toBitVec.getLsbD (i % 64) := by
  induction ws using List.reverseRecOn with
  | nil => rfl
  | append_singleton ws w ih =>
    rw [List.foldl_append, ih, List.length_append, Nat.mul_add, List.range_add, List.countP_append,
      List.countP_map, List.foldl_cons, List.foldl_nil, onesIn_eq]
    congr 1
    · refine List.countP_congr fun i hi => ?_
      have : i / 64 < ws.length := by
        have := List.mem_range.1 hi
        omega
      rw [List.getElem?_append_left this]
    · refine List.countP_congr fun i hi => ?_
      have hi : i < 64 := List.mem_range.1 hi
      have h1 : (64 * ws.length + i) / 64 = ws.length := by omega
      have h2 : (64 * ws.length + i) % 64 = i := by omega
      simp [h1, h2]

theorem Shows.toList (h : Shows n s S) : s.toList = S.sort := by
  have hs : s.toList.Pairwise (· < ·) := List.Pairwise.filter _ List.pairwise_lt_range
  have hS : s.toList.toFinset = S := by
    ext i
    rw [List.mem_toFinset, mem_toList, h.contains]
  rw [← hS]
  exact ((List.toFinset_sort _ hs.nodup).2 (hs.imp le_of_lt)).symm

theorem Shows.count (h : Shows n s S) : s.count = S.card := by
  rw [← Finset.length_sort (· ≤ ·), ← h.toList, BitSet.count, ← Array.foldl_toList, foldl_onesIn]
  have hb (i : Nat) : (s.words.toList[i / 64]?.getD 0).toBitVec.getLsbD (i % 64) = s.contains i := by
    rw [← bit_eq_contains h.snug, bit, word, Array.getElem?_toList]
  have hsize : 64 * s.words.toList.length = s.capacity + (64 * s.words.size - s.capacity) := by
    have : s.words.size = _ := h.snug.wide
    simp only [Array.length_toList]
    omega
  simp only [hb]
  rw [hsize, List.range_add, List.countP_append, List.countP_map, List.countP_eq_length_filter]
  -- the bits behind the capacity do not count
  have hz : (List.range (64 * s.words.size - s.capacity)).countP
      (s.contains ∘ fun i => s.capacity + i) = 0 := by
    refine List.countP_eq_zero.2 fun i _ hi => ?_
    have : s.capacity + i < s.capacity := lt_capacity hi
    omega
  rw [hz]
  rfl

/-! ## The cursor -/

/-- Asked again and again, the cursor gives these indices and then none. -/
inductive Gives (s : BitSet) : Cursor → List Nat → Prop
  | done {c : Cursor} : s.next? c = none → Gives s c []
  | more {c d : Cursor} {i : Nat} {l : List Nat} :
    s.next? c = some (i, d) → Gives s d l → Gives s c (i :: l)

theorem Gives.congr {l : List Nat} (h : s.next? c = s.next? d) (hd : Gives s d l) :
    Gives s c l := by
  cases hd with
  | done hn => exact .done (h.trans hn)
  | more hn hl => exact .more (h.trans hn) hl

/-- The members from an index on. -/
def rest (s : BitSet) (i : Nat) : List Nat := (List.range' i (s.capacity - i)).filter s.contains

theorem rest_of_le (h : s.capacity ≤ i) : s.rest i = [] := by
  simp [rest, Nat.sub_eq_zero_of_le h]

theorem rest_of_lt (h : i < s.capacity) :
    s.rest i = if s.contains i = true then i :: s.rest (i + 1) else s.rest (i + 1) := by
  have : s.capacity - i = s.capacity - (i + 1) + 1 := by omega
  rw [rest, this, List.range'_succ, List.filter_cons, rest]

theorem gives_rest (hs : s.Wide) (c : Cursor) (hc : c.bit ≤ 64) :
    Gives s c (s.rest (64 * c.word + c.bit)) := by
  have hsize : s.words.size = (s.capacity + 63) / 64 := hs
  -- the induction is on the places that are left
  induction hk : 65 * (s.words.size - c.word) + (64 - c.bit) using Nat.strongRecOn generalizing c with
  | ind k ih =>
    have hn := next?.eq_def s c
    by_cases hw : c.word < s.words.size
    · rw [if_pos hw] at hn
      by_cases hb : c.bit < 64
      · rw [if_pos hb] at hn
        have step := ih _ (by simp only; omega) ⟨c.word, c.bit + 1⟩ hb rfl
        by_cases hi : s.capacity ≤ 64 * c.word + c.bit
        · rw [rest_of_le hi]
          exact .done (hn.trans (if_pos hi))
        · have hbit : (s.word c.word &&& mask c.bit != 0) = s.contains (64 * c.word + c.bit) := by
            have h1 : (64 * c.word + c.bit) / 64 = c.word := by omega
            have h2 : (64 * c.word + c.bit) % 64 = c.bit := by omega
            rw [and_mask_ne_zero, contains_eq, bit, h1, h2, Nat.mod_eq_of_lt hb,
              decide_eq_true (Nat.lt_of_not_le hi), Bool.true_and]
          simp only [if_neg hi, hbit] at hn
          rw [rest_of_lt (Nat.lt_of_not_le hi)]
          split
          · next h => exact .more (hn.trans (if_pos h)) step
          · next h => exact .congr (hn.trans (if_neg h)) step
      · obtain hb : c.bit = 64 := by omega
        have step := ih _ (by simp only; omega) ⟨c.word + 1, 0⟩ (Nat.zero_le _) rfl
        have hp : 64 * (c.word + 1) + 0 = 64 * c.word + c.bit := by omega
        rw [if_neg (by omega)] at hn
        exact .congr hn (hp ▸ step)
    · rw [rest_of_le (by omega)]
      exact .done (hn.trans (if_neg hw))

theorem rest_zero (s : BitSet) : s.rest 0 = s.toList := by
  rw [rest, Nat.sub_zero, ← List.range_eq_range']
  rfl

/-! ## Histories -/

/-- How a set of capacity `n` comes about: from the empty set, by changes whose operands come about
in the same way. -/
inductive History (n : Nat) where
  | empty
  | insert (h : History n) (i : Fin n)
  | erase (h : History n) (i : Fin n)
  | union (h other : History n)
  | difference (h other : History n)

namespace History

variable {n : Nat}

/-- Makes all changes in turn. -/
def run : History n → Option BitSet
  | empty => some (BitSet.empty n)
  | insert h i => do (← h.run).insert? i
  | erase h i => do (← h.run).erase? i
  | union h other => do return (← (← h.run).union? (← other.run)).2
  | difference h other => do return (← (← h.run).difference? (← other.run)).2

/-- The same changes to a finite set. -/
def members : History n → Finset Nat
  | empty => ∅
  | insert h i => Insert.insert i.val h.members
  | erase h i => h.members.erase i
  | union h other => h.members ∪ other.members
  | difference h other => h.members \ other.members

end History

/-- The set answers every question as the finite set `S` of indices below `n` does. -/
structure Represents (n : Nat) (s : BitSet) (S : Finset Nat) : Prop where
  below : ∀ i ∈ S, i < n
  capacity : s.capacity = n
  contains : ∀ i, s.contains i = true ↔ i ∈ S
  count : s.count = S.card
  toList : s.toList = S.sort
  gives : s.Gives {} S.sort
  isEmpty : s.isEmpty = true ↔ S = ∅
  padding : ∀ i, n ≤ i → s.bit i = false

theorem Shows.represents (h : Shows n s S) : Represents n s S where
  below := fun _ => h.lt
  capacity := h.capacity
  contains := h.contains
  count := h.count
  toList := h.toList
  gives := h.toList ▸ rest_zero s ▸ gives_rest h.snug.wide {} (Nat.zero_le _)
  isEmpty := h.isEmpty
  padding := h.capacity ▸ h.snug.padding

section

variable (h : Shows n s S) (h' : Shows n t T)
include h h'

theorem Shows.bne : (s != t) = decide (S ≠ T) := by
  rw [Bool.eq_iff_iff, bne_iff_ne, decide_eq_true_eq, Ne, h.eq_iff h']

theorem Shows.union? : s.union? t = some (decide (S ∪ T ≠ S), s.union t) := by
  rw [BitSet.union?, if_pos (h.same h').symm, (h.union h').bne h]

theorem Shows.difference? : s.difference? t = some (decide (S \ T ≠ S), s.difference t) := by
  rw [BitSet.difference?, if_pos (h.same h').symm, (h.difference h').bne h]

theorem Shows.isSubset : s.isSubset t = decide (S ⊆ T) := by
  rw [Bool.eq_iff_iff, decide_eq_true_eq, ← Finset.sdiff_eq_empty_iff_subset]
  exact (h.difference h').isEmpty

theorem Shows.isStrictSubset : s.isStrictSubset t = decide (S ⊂ T) := by
  rw [BitSet.isStrictSubset, h.isSubset h', h.bne h', ← Bool.decide_and]
  simp only [Finset.ssubset_iff_subset_ne]

end

theorem History.run_shows (h : History n) : ∃ s, h.run = some s ∧ Shows n s h.members := by
  induction h with
  | empty => exact ⟨_, rfl, shows_empty n⟩
  | insert h i ih =>
    obtain ⟨s, hr, hs⟩ := ih
    refine ⟨_, ?_, hs.insert i.isLt⟩
    simp [run, hr, insert?, hs.capacity]
  | erase h i ih =>
    obtain ⟨s, hr, hs⟩ := ih
    refine ⟨_, ?_, hs.erase i.isLt⟩
    simp [run, hr, erase?, hs.capacity]
  | union h other ih ih' =>
    obtain ⟨s, hr, hs⟩ := ih
    obtain ⟨t, hr', ht⟩ := ih'
    refine ⟨_, ?_, hs.union ht⟩
    simp [run, hr, hr', hs.union? ht]
  | difference h other ih ih' =>
    obtain ⟨s, hr, hs⟩ := ih
    obtain ⟨t, hr', ht⟩ := ih'
    refine ⟨_, ?_, hs.difference ht⟩
    simp [run, hr, hr', hs.difference? ht]

/-- Any two sets of one capacity, however they came about, are there and behave as finite sets. -/
theorem History.run_represents (h other : History n) :
    ∃ s t, h.run = some s ∧ other.run = some t ∧ Represents n s h.members ∧
      (∃ u, s.union? t = some (decide (h.members ∪ other.members ≠ h.members), u) ∧
        Represents n u (h.members ∪ other.members)) ∧
      (∃ u, s.difference? t = some (decide (h.members \ other.members ≠ h.members), u) ∧
        s.difference t = u ∧ Represents n u (h.members \ other.members)) ∧
      s.isSubset? t = some (decide (h.members ⊆ other.members)) ∧
      s.isStrictSubset? t = some (decide (h.members ⊂ other.members)) ∧
      (s = t ↔ h.members = other.members) := by
  obtain ⟨s, hr, hs⟩ := h.run_shows
  obtain ⟨t, hr', ht⟩ := other.run_shows
  have hcap := (hs.same ht).symm
  refine ⟨s, t, hr, hr', hs.represents, ⟨_, hs.union? ht, (hs.union ht).represents⟩,
    ⟨_, hs.difference? ht, rfl, (hs.difference ht).represents⟩, ?_, ?_, hs.eq_iff ht⟩
  · rw [isSubset?, if_pos hcap, hs.isSubset ht]
  · rw [isStrictSubset?, if_pos hcap, hs.isStrictSubset ht]

end BitSet

end StackLift
