import Mathlib.Data.Finset.Card
import Mathlib.Data.Finset.Range
import Mathlib.Logic.Function.Iterate
import StackLift.Flow.Dominators

/-!
# What the dominator table promises

A block `a` dominates `b` if no path from block 0 to `b` avoids it. The table answers that question
by walking up from `b`. This module shows that the rounds come to an end, and that the answer is right
then on every graph, reducible or not.

**Numbering.** The blocks are numbered so that each one with a predecessor has a smaller one
(`Numbered`). Then every table that the rounds produce leads upwards to block 0 (`Rooted`), and two
ways up always meet (`Rooted.meets`).

**Two bounds.** A parent is never above the true immediate dominator (`Tight`), however many rounds
were made. The other way round, after `n` rounds nothing is above a block that some path of at most `n`
edges avoids (`Upto.clear`). No path needs as many edges as there are blocks, so the rounds reach the one
table that is right, and the next round leaves it alone (`compute_spec`).
-/
namespace StackLift

/-- Block 0 reaches `b` along a path that never meets `a`. -/
inductive Bypasses (preds : Nat → List Nat) (a : Nat) : Nat → Prop where
  | root (h : a ≠ 0) : Bypasses preds a 0
  | step {p b : Nat} (hp : Bypasses preds a p) (he : p ∈ preds b) (h : a ≠ b) : Bypasses preds a b

/-- Block 0 reaches `b` along a path of at most `n` edges that never meets `a`. -/
inductive BypassesIn (preds : Nat → List Nat) (a : Nat) : Nat → Nat → Prop where
  | root {n : Nat} (h : a ≠ 0) : BypassesIn preds a n 0
  | step {n p b : Nat} (hp : BypassesIn preds a n p) (he : p ∈ preds b) (h : a ≠ b) :
      BypassesIn preds a (n + 1) b

/-- The blocks below `count` are numbered along the edges, and edges only leave blocks that can be
reached. -/
structure Numbered (preds : Nat → List Nat) (count : Nat) : Prop where
  pos : 0 < count
  bound : ∀ {p b}, p ∈ preds b → b < count
  source : ∀ {p b}, p ∈ preds b → p = 0 ∨ preds p ≠ []
  forward : ∀ {p b}, b ≠ 0 → p ∈ preds b → ∃ q ∈ preds b, q < b

variable {a b c count m n : Nat} {preds : Nat → List Nat}

namespace BypassesIn

theorem ne (h : BypassesIn preds a n b) : a ≠ b := by
  cases h with
  | root h => exact h
  | step _ _ h => exact h

theorem lt (h : BypassesIn preds a n b) (hn : Numbered preds count) : b < count := by
  cases h with
  | root _ => exact hn.pos
  | step _ he _ => exact hn.bound he

theorem mono (h : BypassesIn preds a n b) (hm : n ≤ m) : BypassesIn preds a m b := by
  induction h generalizing m with
  | root h => exact .root h
  | step _ he h ih =>
    cases m with
    | zero => omega
    | succ m => exact .step (ih (by omega)) he h

theorem cut (h : BypassesIn preds a n b) (hc : c ≠ 0) :
    BypassesIn preds c n b ∨ BypassesIn preds a n c := by
  induction h with
  | root _ => exact .inl (.root hc)
  | @step n p b hp he hne ih =>
    rcases ih with ih | ih
    · by_cases hb : c = b
      · exact .inr (hb ▸ .step hp he hne)
      · exact .inl (.step ih he hb)
    · exact .inr (ih.mono (Nat.le_succ n))

end BypassesIn

namespace Numbered

variable (hn : Numbered preds count)
include hn

theorem bypasses_of_lt (hb : b = 0 ∨ preds b ≠ []) (hab : b < a) : Bypasses preds a b := by
  induction b using Nat.strongRecOn with
  | ind b ih =>
    by_cases h0 : b = 0
    · subst h0
      exact .root (by omega)
    · obtain ⟨p, hp⟩ := List.exists_mem_of_ne_nil _ (hb.resolve_left h0)
      obtain ⟨q, hq, hqb⟩ := hn.forward h0 hp
      exact .step (ih q hqb (hn.source hq) (by omega)) hq (by omega)

theorem short (h : Bypasses preds a b) : ∃ n < count, BypassesIn preds a n b := by
  classical
  have h0 : a ≠ 0 := by
    induction h with
    | root h => exact h
    | step _ _ _ ih => exact ih
  let near (n : Nat) : Finset Nat := (Finset.range count).filter (BypassesIn preds a n)
  have hmem : ∀ {n b}, b ∈ near n ↔ BypassesIn preds a n b := by
    intro n b
    simp only [near, Finset.mem_filter, Finset.mem_range]
    exact ⟨fun h => h.2, fun h => ⟨h.lt hn, h⟩⟩
  have hgrow : ∀ n, (∃ m < n, near m = near (m + 1)) ∨ n < (near n).card := by
    intro n
    induction n with
    | zero => exact .inr (Finset.card_pos.2 ⟨0, hmem.2 (.root h0)⟩)
    | succ n ih =>
      rcases ih with ⟨m, hm, he⟩ | ih
      · exact .inl ⟨m, by omega, he⟩
      by_cases he : near n = near (n + 1)
      · exact .inl ⟨n, by omega, he⟩
      · have hsub : near n ⊆ near (n + 1) := fun x hx => hmem.2 ((hmem.1 hx).mono (Nat.le_succ n))
        exact .inr (Nat.lt_of_le_of_lt ih (Finset.card_lt_card (hsub.ssubset_of_ne he)))
  have hcard : (near count).card ≤ count := (Finset.card_filter_le _ _).trans (by simp)
  obtain ⟨n, hlt, he⟩ := (hgrow count).resolve_right (by omega)
  refine ⟨n, hlt, ?_⟩
  induction h with
  | root h => exact .root h
  | step _ hp hne ih => exact hmem.1 (he ▸ hmem.2 (.step ih hp hne))

end Numbered

namespace DominatorTable

/-- `a` is met on the way up from `b`, or is `b`. -/
inductive Above (t : DominatorTable) (a : Nat) : Nat → Prop where
  | refl : Above t a a
  | step {b p : Nat} (hp : t.parent? b = some p) (hne : p ≠ b) (h : Above t a p) : Above t a b

/-- The way up from every block in the table ends at block 0. -/
structure Rooted (t : DominatorTable) : Prop where
  zero : t.parent? 0 = some 0
  parent : ∀ {b p}, b ≠ 0 → t.parent? b = some p → p < b ∧ (t.parent? p).isSome

/-- Two fingers start at `a` and `b`. The one at the larger number goes up until they meet, at `m`. -/
inductive Meets (t : DominatorTable) : Nat → Nat → Nat → Prop where
  | here {a : Nat} : Meets t a a a
  | left {a b m : Nat} (hlt : b < a) (h : Meets t ((t.parent? a).getD 0) b m) : Meets t a b m
  | right {a b m : Nat} (hlt : a < b) (h : Meets t a ((t.parent? b).getD 0) m) : Meets t a b m

/-! ## The way up -/

variable {t t' : DominatorTable} {k p : Nat}

theorem Above.trans (hab : t.Above a b) (hbc : t.Above b c) : t.Above a c := by
  induction hbc with
  | refl => exact hab
  | step hp hne _ ih => exact .step hp hne ih

theorem Rooted.above_le (ht : t.Rooted) (h : t.Above a b) : a ≤ b := by
  induction h with
  | refl => exact Nat.le_refl _
  | @step b p hp hne _ ih =>
    by_cases hb : b = 0
    · subst hb
      rw [ht.zero] at hp
      cases hp
      exact absurd rfl hne
    · have := (ht.parent hb hp).1
      omega

theorem parent?_set (t : DominatorTable) (b c : Nat) (d : Option Nat) :
    parent? (t.setIfInBounds b d) c = if b = c ∧ b < t.size then d else t.parent? c := by
  unfold parent?
  rw [Array.getElem?_setIfInBounds]
  by_cases h : b = c
  · subst h
    by_cases hb : b < t.size
    · simp [hb]
    · simp [hb]
  · simp [h]

theorem Above.of_set {d : Nat} (h : Above (t.setIfInBounds k (some d)) a b) :
    t.Above a b ∨ t.Above k b ∧ t.Above a d := by
  induction h with
  | refl => exact .inl .refl
  | @step b p hp hne _ ih =>
    rw [parent?_set] at hp
    split at hp
    · next hk =>
      cases hp
      exact .inr ⟨hk.1 ▸ .refl, ih.elim id And.right⟩
    · exact ih.imp (.step hp hne) fun ih => ⟨.step hp hne ih.1, ih.2⟩

/-- Only blocks that can be reached are in the table, and what dominates a block dominates its
parent, unless it is the block itself. -/
structure Tight (preds : Nat → List Nat) (t : DominatorTable) : Prop where
  reached : ∀ {b}, (t.parent? b).isSome = true → b = 0 ∨ preds b ≠ []
  parent : ∀ {a b p}, b ≠ 0 → t.parent? b = some p → a ≠ b → ¬ Bypasses preds a b →
    ¬ Bypasses preds a p

/-! ## Meeting points -/

theorem Rooted.meets (ht : t.Rooted) (fuel a b : Nat) (hf : a + b ≤ fuel)
    (ha : (t.parent? a).isSome) (hb : (t.parent? b).isSome) : t.Meets a b (t.meetFrom fuel a b) := by
  induction fuel generalizing a b with
  | zero =>
    obtain rfl : a = 0 := by omega
    obtain rfl : b = 0 := by omega
    exact .here
  | succ fuel ih =>
    unfold meetFrom
    split
    · next h => exact h ▸ .here
    split
    · next hlt =>
      obtain ⟨p, hp⟩ := Option.isSome_iff_exists.1 ha
      obtain ⟨hpa, hps⟩ := ht.parent (by omega) hp
      refine .left hlt ?_
      rw [hp, Option.getD_some]
      exact ih p b (by omega) hps hb
    · next hne hge =>
      obtain ⟨p, hp⟩ := Option.isSome_iff_exists.1 hb
      obtain ⟨hpb, hps⟩ := ht.parent (by omega) hp
      refine .right (by omega) ?_
      rw [hp, Option.getD_some]
      exact ih a p (by omega) ha hps

/-- The meeting point is above both blocks, and what dominates both dominates it: the way up from the
larger one does not pass over a common dominator, since that has a smaller number. -/
theorem Meets.spec (h : t.Meets a b m) (hn : Numbered preds count) (ht : t.Rooted) (htt : Tight preds t)
    (ha : (t.parent? a).isSome) (hb : (t.parent? b).isSome) :
    (t.parent? m).isSome ∧ t.Above m a ∧ t.Above m b ∧
      ∀ c, ¬ Bypasses preds c a → ¬ Bypasses preds c b → ¬ Bypasses preds c m := by
  have hle : ∀ {c x}, (t.parent? x).isSome → ¬ Bypasses preds c x → c ≤ x := by
    intro c x hx hcx
    rcases Nat.lt_or_ge x c with h | h
    · exact absurd (hn.bypasses_of_lt (htt.reached hx) h) hcx
    · exact h
  induction h with
  | here => exact ⟨ha, .refl, .refl, fun c h _ => h⟩
  | @left a b m hlt _ ih =>
    obtain ⟨p, hp⟩ := Option.isSome_iff_exists.1 ha
    obtain ⟨hpa, hps⟩ := ht.parent (by omega) hp
    rw [hp, Option.getD_some] at ih
    obtain ⟨hm, hma, hmb, hdom⟩ := ih hps hb
    refine ⟨hm, .step hp (by omega) hma, hmb, fun c hca hcb => hdom c ?_ hcb⟩
    have := hle hb hcb
    exact htt.parent (by omega) hp (by omega) hca
  | @right a b m hlt _ ih =>
    obtain ⟨p, hp⟩ := Option.isSome_iff_exists.1 hb
    obtain ⟨hpb, hps⟩ := ht.parent (by omega) hp
    rw [hp, Option.getD_some] at ih
    obtain ⟨hm, hma, hmb, hdom⟩ := ih ha hps
    refine ⟨hm, hma, .step hp (by omega) hmb, fun c hca hcb => hdom c hca ?_⟩
    have := hle ha hca
    exact htt.parent (by omega) hp (by omega) hcb

theorem meetAll_spec (hn : Numbered preds count) (ht : t.Rooted) (htt : Tight preds t) (ps : List Nat)
    (hps : ∀ p ∈ c :: ps, (t.parent? p).isSome) :
    ∃ d, ps.foldl (fun acc p => match acc with
        | none => some p
        | some d => some (t.meet p d)) (some c) = some d ∧ (t.parent? d).isSome ∧
      (∀ p ∈ c :: ps, t.Above d p) ∧
      ∀ a, (∀ p ∈ c :: ps, ¬ Bypasses preds a p) → ¬ Bypasses preds a d := by
  induction ps generalizing c with
  | nil => exact ⟨c, rfl, hps c (by simp), by simpa using .refl, fun a ha => ha c (by simp)⟩
  | cons p ps ih =>
    simp only [List.forall_mem_cons] at hps ih ⊢
    obtain ⟨hc, hp, hps⟩ := hps
    obtain ⟨hm, hmp, hmc, hmt⟩ := (ht.meets (p + c) p c (Nat.le_refl _) hp hc).spec hn ht htt hp hc
    obtain ⟨d, hd, hds, hda, hdt⟩ := ih (c := t.meet p c) ⟨hm, hps⟩
    exact ⟨d, hd, hds, ⟨hda.1.trans hmc, hda.1.trans hmp, hda.2⟩,
      fun a ha => hdt a ⟨hmt a ha.2.1 ha.1, ha.2.2⟩⟩

theorem candidate_some (hn : Numbered preds count) (ht : t.Rooted) (htt : Tight preds t) {ps : List Nat}
    (hp : p ∈ ps) (hs : (t.parent? p).isSome) :
    ∃ d, t.candidate ps = some d ∧ (t.parent? d).isSome ∧
      (∀ q ∈ ps, (t.parent? q).isSome → t.Above d q) ∧
      ∀ a, (∀ q ∈ ps, ¬ Bypasses preds a q) → ¬ Bypasses preds a d := by
  have hmem : ∀ q, q ∈ ps.filter (fun p => (t.parent? p).isSome) ↔ q ∈ ps ∧
    (t.parent? q).isSome := by simp
  unfold candidate
  cases hf : ps.filter fun p => (t.parent? p).isSome with
  | nil => exact absurd ((hmem p).2 ⟨hp, hs⟩) (by simp [hf])
  | cons c rest =>
    rw [hf] at hmem
    obtain ⟨d, hd, hds, hda, hdt⟩ := meetAll_spec hn ht htt rest fun q hq => ((hmem q).1 hq).2
    exact ⟨d, hd, hds, fun q hq hqs => hda q ((hmem q).2 ⟨hq, hqs⟩),
      fun a ha => hdt a fun q hq => ha q ((hmem q).1 hq).1⟩

/-! ## Rounds -/

/-- What the rounds have achieved when the one after the first `n` comes to block `k`. -/
structure Upto (preds : Nat → List Nat) (count n k : Nat) (t : DominatorTable) : Prop where
  size : t.size = count
  rooted : t.Rooted
  tight : Tight preds t
  known : ∀ c, c < k ∨ 0 < n → c = 0 ∨ preds c ≠ [] → (t.parent? c).isSome
  clear : ∀ {a q m}, BypassesIn preds a m q → m < n ∨ q < k ∧ m ≤ n → ¬ t.Above a q

theorem Rooted.clear_zero (ht : t.Rooted) (h : BypassesIn preds a m b) (hb : b < 1) : ¬ t.Above a b := by
  intro hab
  have := ht.above_le hab
  have := h.ne
  omega

theorem improve_upto (hn : Numbered preds count)
    (hk : k ≠ 0) (hkc : k < count) (h : Upto preds count n k t) :
    Upto preds count n (k + 1) (improve preds t k) := by
  by_cases hnil : preds k = []
  · have ht : improve preds t k = t := by simp [improve, candidate, hnil]
    rw [ht]
    refine ⟨h.size, h.rooted, h.tight, fun c hck hor => ?_, fun {a q m} hby hm => ?_⟩
    · refine h.known c (hck.imp_left fun hck => Nat.lt_of_le_of_ne (Nat.le_of_lt_succ hck) ?_) hor
      rintro rfl
      exact hor.resolve_left hk hnil
    · refine h.clear hby (hm.imp_right fun hm => ⟨Nat.lt_of_le_of_ne (Nat.le_of_lt_succ hm.1) ?_, hm.2⟩)
      rintro rfl
      cases hby with
      | root _ => exact hk rfl
      | step _ he _ => simp [hnil] at he
  obtain ⟨p0, hp0⟩ := List.exists_mem_of_ne_nil _ hnil
  obtain ⟨f, hf, hfk⟩ := hn.forward hk hp0
  have hfs := h.known f (.inl hfk) (hn.source hf)
  obtain ⟨d, hd, hds, hda, hdt⟩ := candidate_some hn h.rooted h.tight hf hfs
  have hdk : d < k := Nat.lt_of_le_of_lt (h.rooted.above_le (hda f hf hfs)) hfk
  have ht : improve preds t k = t.setIfInBounds k (some d) := by simp [improve, hd]
  have hpar : ∀ c, parent? (t.setIfInBounds k (some d)) c =
      if k = c then some d else t.parent? c := by
    intro c
    rw [parent?_set, h.size]
    simp [hkc]
  -- What is above the new parent is above all predecessors, so no path to one of them avoids it.
  have hclear : ∀ {a m}, BypassesIn preds a m k → m ≤ n → ¬ t.Above a d := by
    intro a m hby hm had
    cases hby with
    | root _ => exact hk rfl
    | @step m p _ hp he _ =>
      have hps := h.known p (.inr (by omega)) (hn.source he)
      exact h.clear hp (.inl (by omega)) (had.trans (hda p he hps))
  rw [ht]
  refine ⟨by simp [h.size], ⟨?_, ?_⟩, ⟨?_, ?_⟩, ?_, ?_⟩
  · rw [hpar, if_neg hk]
    exact h.rooted.zero
  · intro b p hb hbp
    rw [hpar] at hbp
    split at hbp
    · next heq =>
      cases hbp
      subst heq
      refine ⟨hdk, ?_⟩
      rw [hpar, if_neg (by omega)]
      exact hds
    · obtain ⟨h1, h2⟩ := h.rooted.parent hb hbp
      refine ⟨h1, ?_⟩
      rw [hpar]
      split
      · rfl
      · exact h2
  · intro b hbs
    rw [hpar] at hbs
    split at hbs
    · next heq => exact heq ▸ Or.inr hnil
    · exact h.tight.reached hbs
  · intro a b p hb hbp hab hnb
    rw [hpar] at hbp
    split at hbp
    · next heq =>
      -- What dominates a block dominates all its predecessors.
      cases hbp
      subst heq
      exact hdt a fun q hq hby => hnb (.step hby hq hab)
    · exact h.tight.parent hb hbp hab hnb
  · intro c hck hor
    rw [hpar]
    split
    · rfl
    · exact h.known c (by omega) hor
  · intro a q m hby hm hup
    by_cases hqk : k = q
    · subst hqk
      cases hup with
      | refl => exact hby.ne rfl
      | step hp _ hup =>
        rw [hpar, if_pos rfl] at hp
        cases hp
        exact hclear hby (by omega) (hup.of_set.elim id And.right)
    · rcases hup.of_set with hup | ⟨hkq, had⟩
      · exact h.clear hby (by omega) hup
      · -- The way up from `q` goes over `k`; a path to `q` meets `k` or bypasses it.
        have := h.rooted.above_le hkq
        rcases hby.cut hk with hcut | hcut
        · exact h.clear hcut (.inl (by omega)) hkq
        · exact hclear hcut (by omega) had

theorem improveAll_upto (hn : Numbered preds count) (i k : Nat)
    (hk : k ≠ 0) (hki : k + i ≤ count) (h : Upto preds count n k t) :
    Upto preds count n (k + i) ((List.range' k i).foldl (improve preds) t) := by
  induction i generalizing k t with
  | zero => exact h
  | succ i ih =>
    rw [List.range'_succ, List.foldl_cons, show k + (i + 1) = k + 1 + i by omega]
    exact ih (k + 1) (by omega) (by omega) (improve_upto hn hk (by omega) h)

theorem round_upto (hn : Numbered preds count) (h : Upto preds count n 1 t) :
    Upto preds count (n + 1) 1 (t.round preds) := by
  have hpos := hn.pos
  have hsize := h.size
  have h := improveAll_upto hn (t.size - 1) 1 (by omega) (by omega) h
  refine ⟨h.size, h.rooted, h.tight, fun c _ hor => h.known c (.inl ?_) hor, fun {a q m} hby hm => ?_⟩
  · have : c < count := by
      rcases hor with rfl | hne
      · exact hpos
      · obtain ⟨p, hp⟩ := List.exists_mem_of_ne_nil _ hne
        exact hn.bound hp
    omega
  · rcases hm with hm | hm
    · have := hby.lt hn
      exact h.clear hby (.inr ⟨by omega, by omega⟩)
    · exact h.rooted.clear_zero hby hm.1

/-- The table before the first round. -/
def start (count : Nat) : DominatorTable := (Array.replicate count none).setIfInBounds 0 (some 0)

theorem start_upto (hn : Numbered preds count) : Upto preds count 0 1 (start count) := by
  have hpar : ∀ b, parent? (start count) b = if b = 0 then some 0 else none := by
    intro b
    rw [start, parent?_set]
    by_cases hb : b = 0
    · simp [hb, hn.pos]
    · have : ¬ (0 = b ∧ 0 < (Array.replicate count (none : Option Nat)).size) := by omega
      rw [if_neg this, if_neg hb]
      by_cases hbc : b < count <;> simp [parent?, hbc]
  have hroot : (start count).Rooted := by
    refine ⟨by rw [hpar, if_pos rfl], fun {b p} hb hp => ?_⟩
    rw [hpar, if_neg hb] at hp
    cases hp
  refine ⟨by simp [start], hroot, ⟨?_, ?_⟩, fun c hc _ => ?_,
    fun hby hm => hroot.clear_zero hby (by omega)⟩
  · intro b hb
    rw [hpar] at hb
    split at hb
    · next h0 => exact .inl h0
    · cases hb
  · intro a b p hb hp
    rw [hpar, if_neg hb] at hp
    cases hp
  · obtain rfl : c = 0 := by omega
    simp [hroot.zero]

/-! ## The last round -/

/-- The table holds every block that can be reached, and is right about what dominates it. -/
structure Settled (preds : Nat → List Nat) (t : DominatorTable) : Prop where
  rooted : t.Rooted
  tight : Tight preds t
  known : ∀ c, c = 0 ∨ preds c ≠ [] → (t.parent? c).isSome = true
  sound : ∀ {a b}, t.Above a b → ¬ Bypasses preds a b

theorem Upto.settled (h : Upto preds count n k t) (hn : Numbered preds count) (hc : count ≤ n) :
    Settled preds t := by
  have hpos := hn.pos
  refine ⟨h.rooted, h.tight, fun c => h.known c (.inr (by omega)), fun hab hby => ?_⟩
  obtain ⟨m, hm, hshort⟩ := hn.short hby
  exact h.clear hshort (.inl (by omega)) hab

namespace Settled

theorem above_iff (hs : Settled preds t) (hb : b = 0 ∨ preds b ≠ []) :
    t.Above a b ↔ ¬ Bypasses preds a b := by
  refine ⟨hs.sound, fun h => ?_⟩
  induction b using Nat.strongRecOn with
  | ind b ih =>
    by_cases hab : a = b
    · exact hab ▸ .refl
    by_cases h0 : b = 0
    · subst h0
      exact absurd (.root hab) h
    obtain ⟨p, hp⟩ := Option.isSome_iff_exists.1 (hs.known b hb)
    obtain ⟨hpb, hps⟩ := hs.rooted.parent h0 hp
    exact .step hp (by omega) (ih p hpb (hs.tight.reached hps) (hs.tight.parent h0 hp hab h))

theorem parent_le (hs : Settled preds t) (hs' : Settled preds t') {p' : Nat} (hb : b ≠ 0)
    (hp : t.parent? b = some p) (hp' : t'.parent? b = some p') : p ≤ p' := by
  obtain ⟨hpb, hps⟩ := hs.rooted.parent hb hp
  have hdom : ¬ Bypasses preds p b := hs.sound (.step hp (by omega) .refl)
  have hps' := (hs'.rooted.parent hb hp').2
  have := hs'.tight.parent hb hp' (by omega) hdom
  exact hs'.rooted.above_le ((hs'.above_iff (hs'.tight.reached hps')).2 this)

theorem unique (hs : Settled preds t) (hs' : Settled preds t') (hsize : t.size = t'.size) : t = t' := by
  have hpar : ∀ b, t.parent? b = t'.parent? b := by
    intro b
    by_cases hb : b = 0
    · rw [hb, hs.rooted.zero, hs'.rooted.zero]
    cases hp : t.parent? b with
    | none =>
      cases hp' : t'.parent? b with
      | none => rfl
      | some p' => simpa [hp] using hs.known b (hs'.tight.reached (by simp [hp']))
    | some p =>
      obtain ⟨p', hp'⟩ := Option.isSome_iff_exists.1 (hs'.known b (hs.tight.reached (by simp [hp])))
      rw [hp', Nat.le_antisymm (hs.parent_le hs' hb hp hp') (hs'.parent_le hs hb hp' hp)]
  refine Array.ext hsize fun i hi hi' => ?_
  simpa [parent?, hi, hi'] using hpar i

end Settled

/-- Rounds are made from the first table on, until one leaves the second table as it is. -/
inductive Settles (preds : Nat → List Nat) : DominatorTable → DominatorTable → Prop where
  | done {t : DominatorTable} (h : t.round preds = t) : Settles preds t t
  | again {t t' : DominatorTable} (hne : t.round preds ≠ t) (h : Settles preds (t.round preds) t') :
      Settles preds t t'

theorem settle_of_fixed (h : t.round preds = t) (fuel : Nat) : settle preds fuel t = t := by
  cases fuel <;> simp [settle, h]

theorem settle_spec (hn : Numbered preds count) (fuel : Nat) (h : Upto preds count n 1 t)
    (hf : count ≤ n + fuel) :
    Settles preds t (settle preds fuel t) ∧ Settled preds (settle preds fuel t) := by
  induction fuel generalizing t n with
  | zero =>
    have hr := round_upto hn h
    have hs := h.settled hn hf
    exact ⟨.done ((hr.settled hn (by omega)).unique hs (hr.size.trans h.size.symm)), hs⟩
  | succ fuel ih =>
    obtain ⟨hends, hs⟩ := ih (round_upto hn h) (by omega)
    by_cases heq : t.round preds = t
    · rw [heq, settle_of_fixed heq] at hs
      rw [settle_of_fixed heq]
      exact ⟨.done heq, hs⟩
    · have : settle preds (fuel + 1) t = settle preds fuel (t.round preds) := by simp [settle, heq]
      rw [this]
      exact ⟨.again heq hends, hs⟩

/-! ## Dominators -/

theorem above_of_dominatesWithin (fuel b : Nat)
    (h : t.dominatesWithin a fuel b = true) : t.Above a b := by
  induction fuel generalizing b with
  | zero =>
    simp only [dominatesWithin, beq_iff_eq] at h
    exact h ▸ .refl
  | succ fuel ih =>
    unfold dominatesWithin at h
    split at h
    · next hab => exact hab ▸ .refl
    · split at h
      · next p hp =>
        split at h
        · cases h
        · next hne => exact .step hp hne (ih p h)
      · cases h

theorem Rooted.dominatesWithin (ht : t.Rooted) (h : t.Above a b)
    (fuel : Nat) (hf : b ≤ fuel) : t.dominatesWithin a fuel b = true := by
  induction h generalizing fuel with
  | refl => cases fuel <;> simp [DominatorTable.dominatesWithin]
  | @step b p hp hne _ ih =>
    have hpb : p < b := by
      refine (ht.parent ?_ hp).1
      rintro rfl
      rw [ht.zero] at hp
      cases hp
      exact hne rfl
    cases fuel with
    | zero => omega
    | succ fuel =>
      unfold DominatorTable.dominatesWithin
      split
      · rfl
      · simp only [hp, if_neg hne]
        exact ih fuel (by omega)

section Computed

variable (hn : Numbered preds count)
include hn

theorem compute_spec : Settles preds (start count) (compute count preds) ∧
    Settled preds (compute count preds) := by
  refine settle_spec hn _ (start_upto hn) ?_
  have : count ≤ count * (count + 1) := Nat.le_mul_of_pos_right count (Nat.succ_pos count)
  omega

/-- The table in the middle of a round, after `n` rounds and the first `k` blocks of the next one. -/
def stage (preds : Nat → List Nat) (count n k : Nat) : DominatorTable :=
  (List.range' 1 k).foldl (improve preds) ((round preds)^[n] (start count))

theorem stage_rooted {k : Nat} (hk : k < count) : (stage preds count n k).Rooted := by
  have h : Upto preds count n 1 ((round preds)^[n] (start count)) := by
    induction n with
    | zero => exact start_upto hn
    | succ n ih =>
      rw [Function.iterate_succ_apply']
      exact round_upto hn ih
  exact (improveAll_upto hn k 1 (by omega) (by omega) h).rooted

theorem dominates_iff (hb : b = 0 ∨ preds b ≠ []) :
    (compute count preds).dominates a b = true ↔ ¬ Bypasses preds a b := by
  have hs := (compute_spec hn).2
  rw [← hs.above_iff hb]
  exact ⟨above_of_dominatesWithin b b, fun h => hs.rooted.dominatesWithin h b (Nat.le_refl b)⟩

end Computed

end DominatorTable

end StackLift
