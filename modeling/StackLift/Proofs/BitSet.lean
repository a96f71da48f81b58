import StackLift.BitSet

/-!
# Members of bit sets

Which indices a set contains after `empty`, `insert`, `union` and `difference`. A bit of a word is
read through `BitVec.getLsbD`; `mask` is a power of two. A set that never got a padding bit (`Snug`)
is known by its members.
-/
namespace StackLift

namespace BitSet

/-- The set has a word for every index below its capacity. -/
def Wide (s : BitSet) : Prop := s.words.size = (s.capacity + 63) / 64

theorem mask_toBitVec (i : Nat) : (mask i).toBitVec = BitVec.twoPow 64 (i % 64) := by
  unfold mask
  rw [UInt64.toBitVec_shiftLeft]
  have h : ((UInt64.ofNat (i % 64)).toBitVec % 64).toNat = i % 64 := by simp
  rw [BitVec.shiftLeft_eq', h]
  simp only [BitVec.twoPow_eq]
  rfl

theorem and_mask_ne_zero (w : UInt64) (i : Nat) :
    (w &&& mask i != 0) = w.toBitVec.getLsbD (i % 64) := by
  have h : i % 64 < 64 := Nat.mod_lt _ (by decide)
  have h0 : (w &&& mask i = 0) ↔ w.toBitVec.getLsbD (i % 64) = false := by
    rw [← UInt64.toBitVec_inj, UInt64.toBitVec_and, mask_toBitVec, BitVec.and_twoPow]
    cases hb : w.toBitVec.getLsbD (i % 64)
    · simp
    · simp only [if_true, Bool.true_eq_false, iff_false]
      intro hc
      have := congrArg (fun v => BitVec.getLsbD v (i % 64)) hc
      simp [h] at this
  cases hb : w.toBitVec.getLsbD (i % 64)
  · simpa using h0.2 hb
  · have : w &&& mask i ≠ 0 := fun hc => by simp [h0.1 hc] at hb
    simpa using this

/-- The bit of index `i`, in or out of the capacity. -/
def bit (s : BitSet) (i : Nat) : Bool := (s.word (i / 64)).toBitVec.getLsbD (i % 64)

theorem contains_eq (s : BitSet) (i : Nat) : s.contains i = (decide (i < s.capacity) && s.bit i) := by
  unfold contains bit
  rw [and_mask_ne_zero]

variable {i : Nat} {s t : BitSet}

theorem lt_capacity (h : s.contains i = true) : i < s.capacity := by
  rw [contains_eq] at h
  simp only [Bool.and_eq_true, decide_eq_true_eq] at h
  exact h.1

theorem mem_toList : i ∈ s.toList ↔ s.contains i = true := by
  unfold toList
  rw [List.mem_filter, List.mem_range]
  exact ⟨fun h => h.2, fun h => ⟨lt_capacity h, h⟩⟩

/-! ## Operations -/

theorem wide_empty (capacity : Nat) : (empty capacity).Wide := by simp [Wide, empty]

@[simp] theorem empty_capacity (capacity : Nat) : (empty capacity).capacity = capacity := rfl

theorem bit_empty (capacity i : Nat) : (empty capacity).bit i = false := by
  have hw : (empty capacity).word (i / 64) = 0 := by
    simp only [word, empty, Array.getElem?_replicate]
    split <;> rfl
  simp [bit, hw]

@[simp] theorem contains_empty (capacity i : Nat) : (empty capacity).contains i = false := by
  rw [contains_eq, bit_empty, Bool.and_false]

@[simp] theorem insert_capacity (s : BitSet) (i : Nat) : (s.insert i).capacity = s.capacity := by
  unfold insert
  split <;> rfl

theorem Wide.insert (hs : s.Wide) (i : Nat) : (s.insert i).Wide := by
  unfold Wide at *
  unfold BitSet.insert
  split <;> simpa using hs

theorem bit_modify {f : UInt64 → UInt64} {b : Bool → Bool}
    (hf : ∀ w j, j < 64 → (f w).toBitVec.getLsbD j =
      if j = i % 64 then b (w.toBitVec.getLsbD j) else w.toBitVec.getLsbD j)
    (hs : s.Wide) (hi : i < s.capacity) (j : Nat) :
    ({ s with words := s.words.modify (i / 64) f } : BitSet).bit j =
      if i = j then b (s.bit j) else s.bit j := by
  have hin : i / 64 < s.words.size := by
    unfold Wide at hs
    omega
  simp only [bit, word]
  rw [Array.getElem?_modify]
  by_cases hq : i / 64 = j / 64
  · rw [if_pos hq, ← hq, Array.getElem?_eq_getElem hin, Option.map_some, Option.getD_some,
      Option.getD_some, hf _ _ (Nat.mod_lt _ (by decide))]
    have : j % 64 = i % 64 ↔ i = j := by omega
    simp only [this]
  · have : i ≠ j := fun h => hq (by rw [h])
    rw [if_neg hq, if_neg this]

theorem bit_insert (hs : s.Wide) (hi : i < s.capacity) (j : Nat) :
    (s.insert i).bit j = (decide (i = j) || s.bit j) := by
  rw [BitSet.insert, if_pos hi, bit_modify (b := fun _ => true) _ hs hi]
  · by_cases h : i = j <;> simp [h]
  · intro w k hk
    by_cases h : k = i % 64 <;> simp [mask_toBitVec, hk, h, Nat.mod_lt]

theorem contains_insert (hs : s.Wide) (i j : Nat) :
    (s.insert i).contains j = true ↔ (i = j ∧ j < s.capacity) ∨ s.contains j = true := by
  by_cases hi : i < s.capacity
  · rw [contains_eq, contains_eq, bit_insert hs hi, insert_capacity]
    simp only [Bool.and_eq_true, Bool.or_eq_true, decide_eq_true_eq]
    by_cases h : i = j
    · simp only [h, true_or, and_true, true_and]
      exact ⟨.inl, fun hj => hj.elim id And.left⟩
    · simp [h]
  · have : s.insert i = s := by simp [BitSet.insert, hi]
    rw [this]
    constructor
    · exact .inr
    · rintro (⟨rfl, h⟩ | h)
      · exact absurd h hi
      · exact h

theorem contains_insertAll (hs : s.Wide) (is : List Nat) (j : Nat) :
    (is.foldl BitSet.insert s).contains j = true ↔
      (j ∈ is ∧ j < s.capacity) ∨ s.contains j = true := by
  induction is generalizing s with
  | nil => simp
  | cons i is ih =>
    rw [List.foldl_cons, ih (hs.insert i), contains_insert hs, insert_capacity, List.mem_cons]
    constructor
    · rintro (⟨h, hj⟩ | ⟨rfl, hj⟩ | h)
      · exact .inl ⟨.inr h, hj⟩
      · exact .inl ⟨.inl rfl, hj⟩
      · exact .inr h
    · rintro (⟨rfl | h, hj⟩ | h)
      · exact .inr (.inl ⟨rfl, hj⟩)
      · exact .inl ⟨h, hj⟩
      · exact .inr (.inr h)

@[simp] theorem difference_capacity (s t : BitSet) : (s.difference t).capacity = s.capacity := rfl

theorem contains_of_difference (h : (s.difference t).contains i = true) : s.contains i = true := by
  rw [contains_eq, difference_capacity] at h
  rw [contains_eq]
  simp only [Bool.and_eq_true, decide_eq_true_eq] at h ⊢
  refine ⟨h.1, ?_⟩
  have hb := h.2
  simp only [difference, bit, word, Array.getElem?_zipWith] at hb ⊢
  cases hs : s.words[i / 64]? with
  | none => simp [hs] at hb
  | some w =>
    cases ht : t.words[i / 64]? with
    | none => simp [hs, ht] at hb
    | some v =>
      simp only [hs, ht, Option.getD_some, UInt64.toBitVec_and, BitVec.getLsbD_and,
        Bool.and_eq_true] at hb
      simpa using hb.1

/-! ## Sets without padding -/

/-- No bit past the capacity is set. -/
structure Snug (s : BitSet) : Prop where
  wide : s.Wide
  padding : ∀ i, s.capacity ≤ i → s.bit i = false

theorem bit_eq_contains (hs : s.Snug) (i : Nat) : s.bit i = s.contains i := by
  rw [contains_eq]
  by_cases h : i < s.capacity
  · simp [h]
  · simp [h, hs.padding i (by omega)]

theorem Snug.ext (hs : s.Snug) (ht : t.Snug) (hc : s.capacity = t.capacity)
    (h : ∀ i, s.contains i = t.contains i) : s = t := by
  have hsize : s.words.size = t.words.size := by
    rw [hs.wide, ht.wide, hc]
  have hwords : s.words = t.words := by
    refine Array.ext hsize fun k hk hk' => ?_
    refine UInt64.toBitVec_inj.1 (BitVec.eq_of_getLsbD_eq fun j hj => ?_)
    have hb : s.bit (64 * k + j) = t.bit (64 * k + j) := by
      rw [bit_eq_contains hs, bit_eq_contains ht, h]
    have hq : (64 * k + j) / 64 = k := by omega
    have hr : (64 * k + j) % 64 = j := by omega
    simpa [bit, word, hq, hr, hk, hk'] using hb
  cases s
  cases t
  simp only at hc hwords
  rw [hc, hwords]

theorem snug_empty (capacity : Nat) : (empty capacity).Snug :=
  ⟨wide_empty capacity, fun i _ => bit_empty capacity i⟩

theorem Snug.insert (hs : s.Snug) (i : Nat) : (s.insert i).Snug := by
  refine ⟨hs.wide.insert i, fun j hj => ?_⟩
  rw [insert_capacity] at hj
  by_cases hi : i < s.capacity
  · have : i ≠ j := by omega
    simp [bit_insert hs.wide hi, this, hs.padding j hj]
  · have : s.insert i = s := by simp [BitSet.insert, hi]
    rw [this, hs.padding j hj]

section

variable (hs : s.Wide) (ht : t.Wide) (hc : t.capacity = s.capacity)
include hs ht hc

theorem bit_zipWith {f : UInt64 → UInt64 → UInt64} {b : Bool → Bool → Bool}
    (hf : ∀ x y j, j < 64 → (f x y).toBitVec.getLsbD j = b (x.toBitVec.getLsbD j) (y.toBitVec.getLsbD j))
    (hb : b false false = false) (i : Nat) :
    ({ s with words := s.words.zipWith f t.words } : BitSet).bit i = b (s.bit i) (t.bit i) := by
  have hlt : i % 64 < 64 := Nat.mod_lt _ (by decide)
  have hsize : t.words.size = s.words.size := by rw [hs, ht, hc]
  simp only [bit, word, Array.getElem?_zipWith]
  by_cases h : i / 64 < s.words.size
  · have h' : i / 64 < t.words.size := by omega
    simp [h, h', hf _ _ _ hlt]
  · have h' : ¬ i / 64 < t.words.size := by omega
    simp [h, h', hb]

theorem bit_union (i : Nat) : (s.union t).bit i = (s.bit i || t.bit i) :=
  bit_zipWith hs ht hc (fun x y j _ => by simp) rfl i

theorem bit_difference (i : Nat) : (s.difference t).bit i = (s.bit i && !t.bit i) :=
  bit_zipWith (b := fun x y => x && !y) hs ht hc (fun x y j hj => by simp [hj]) rfl i

end

section

variable (hs : s.Snug) (ht : t.Snug) (hc : t.capacity = s.capacity)
include hs ht hc

theorem Snug.union : (s.union t).Snug := by
  refine ⟨?_, fun i hi => ?_⟩
  · have hsize : t.words.size = s.words.size := by rw [hs.wide, ht.wide, hc]
    simpa [Wide, BitSet.union, hsize] using hs.wide
  · rw [bit_union hs.wide ht.wide hc, hs.padding i hi, ht.padding i (hc ▸ hi)]
    rfl

theorem Snug.difference : (s.difference t).Snug := by
  refine ⟨?_, fun i hi => ?_⟩
  · have hsize : t.words.size = s.words.size := by rw [hs.wide, ht.wide, hc]
    simpa [Wide, BitSet.difference, hsize] using hs.wide
  · rw [bit_difference hs.wide ht.wide hc, hs.padding i hi]
    rfl

theorem contains_union : (s.union t).contains i = true ↔ s.contains i = true ∨ t.contains i = true := by
  rw [← bit_eq_contains (hs.union ht hc), bit_union hs.wide ht.wide hc, bit_eq_contains hs,
    bit_eq_contains ht,
    Bool.or_eq_true]

theorem contains_difference :
    (s.difference t).contains i = true ↔ s.contains i = true ∧ ¬ t.contains i = true := by
  rw [← bit_eq_contains (hs.difference ht hc), bit_difference hs.wide ht.wide hc, bit_eq_contains hs,
    bit_eq_contains ht]
  simp

end

end BitSet

end StackLift
