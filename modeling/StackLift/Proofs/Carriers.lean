import Mathlib.Data.Finset.Card
import StackLift.Graph.Carriers
import StackLift.Proofs.Removal

/-!
# What carriers finds

The search follows every value that it finds once, so it ends (`ends_carriers`). It finds the roots and
all that carries them, unless something else uses one of these; then it answers such a user.
-/
namespace StackLift

namespace Graph

variable {g : Graph} {value user : NodeId} {users : List (NodeId × Node)}
variable {dead found found' roots work work' : List NodeId} {r : Except NodeId (List NodeId)}

/-- A root, or a phi or proxy that carries something carried. -/
inductive Carried (g : Graph) (roots : List NodeId) : NodeId → Prop where
  | root {n : NodeId} (h : n ∈ roots) : Carried g roots n
  | step {i n : NodeId} {x : Node} (hi : Carried g roots i) (hx : g.node? n = some x)
      (hin : i ∈ x.inputs) (hk : x.kind.isCarrier = true) : Carried g roots n

/-- With `found` behind it and `work` before it, the search comes to an end and answers `r`. -/
inductive Ends (g : Graph) : List NodeId → List NodeId → Except NodeId (List NodeId) → Prop where
  | done {found : List NodeId} : Ends g found [] (.ok found)
  | stuck {value user : NodeId} {found work : List NodeId}
      (h : spread value found work g.liveNodes = .error user) : Ends g found (value :: work) (.error user)
  | next {value : NodeId} {found work found' work' : List NodeId} {r : Except NodeId (List NodeId)}
      (h : spread value found work g.liveNodes = .ok (found', work')) (hr : Ends g found' work' r) :
      Ends g found (value :: work) r

/-! ## One value -/

/-- What one round finds: all users of the value, and nothing but them. -/
theorem spread_spec (h : spread value found work users = .ok (found', work')) :
    (∃ new, found' = new ++ found ∧ work' = new ++ work ∧ ∀ n ∈ new, ∃ x, (n, x) ∈ users ∧
      value ∈ x.inputs ∧ x.kind.isCarrier = true ∧ n ∉ found) ∧
    ∀ n x, (n, x) ∈ users → value ∈ x.inputs → n ∈ found' := by
  induction users generalizing found work with
  | nil =>
    cases h
    exact ⟨⟨[], rfl, rfl, by simp⟩, by simp⟩
  | cons u users ih =>
    obtain ⟨user, x⟩ := u
    rw [spread] at h
    split at h
    · next hskip =>
      obtain ⟨⟨new, h1, h2, h3⟩, h4⟩ := ih h
      refine ⟨⟨new, h1, h2, fun n hn => ?_⟩, ?_⟩
      · obtain ⟨y, hy, hv⟩ := h3 n hn
        exact ⟨y, List.mem_cons_of_mem _ hy, hv⟩
      · intro n y hy hv
        rcases List.mem_cons.1 hy with hy | hy
        · cases hy
          simp only [Bool.or_eq_true, decide_eq_true_eq] at hskip
          rw [h1]
          exact List.mem_append_right _ (hskip.resolve_right (not_not.2 hv))
        · exact h4 n y hy hv
    · next hskip =>
      split at h
      · next hc =>
        simp only [Bool.or_eq_true, decide_eq_true_eq, not_or, not_not] at hskip
        obtain ⟨⟨new, h1, h2, h3⟩, h4⟩ := ih h
        refine ⟨⟨new ++ [user], by simp [h1], by simp [h2], fun n hn => ?_⟩, ?_⟩
        · rcases List.mem_append.1 hn with hn | hn
          · obtain ⟨y, hy, hv, hk, hf⟩ := h3 n hn
            exact ⟨y, List.mem_cons_of_mem _ hy, hv, hk, fun hn' => hf (List.mem_cons_of_mem _ hn')⟩
          · rw [List.mem_singleton.1 hn]
            exact ⟨x, by simp, hskip.2, hc, hskip.1⟩
        · intro n y hy hv
          rcases List.mem_cons.1 hy with hy | hy
          · cases hy
            rw [h1]
            simp
          · exact h4 n y hy hv
      · cases h

theorem spread_error (h : spread value found work users = .error user) :
    user ∉ found ∧ ∃ x, (user, x) ∈ users ∧ value ∈ x.inputs ∧ x.kind.isCarrier = false := by
  induction users generalizing found work with
  | nil => cases h
  | cons u users ih =>
    obtain ⟨n, x⟩ := u
    rw [spread] at h
    split at h
    · obtain ⟨hn, y, hy, hv⟩ := ih h
      exact ⟨hn, y, List.mem_cons_of_mem _ hy, hv⟩
    · next hskip =>
      split at h
      · obtain ⟨hn, y, hy, hv⟩ := ih h
        exact ⟨fun hf => hn (List.mem_cons_of_mem _ hf), y, List.mem_cons_of_mem _ hy, hv⟩
      · next hc =>
        cases h
        simp only [Bool.or_eq_true, decide_eq_true_eq, not_or, not_not] at hskip
        exact ⟨hskip.1, x, by simp, hskip.2, by simpa using hc⟩

/-- The nodes that have not been found yet. -/
def unfound (g : Graph) (found : List NodeId) : Finset NodeId :=
  (g.liveNodes.map Prod.fst).toFinset \ found.toFinset

theorem spread_card (husers : ∀ u ∈ users, u ∈ g.liveNodes)
    (h : spread value found work users = .ok (found', work')) :
    work'.length + (g.unfound found').card ≤ work.length + (g.unfound found).card := by
  induction users generalizing found work with
  | nil =>
    cases h
    exact Nat.le_refl _
  | cons u users ih =>
    obtain ⟨user, x⟩ := u
    rw [spread] at h
    split at h
    · exact ih (fun u hu => husers u (List.mem_cons_of_mem _ hu)) h
    · next hskip =>
      split at h
      · simp only [Bool.or_eq_true, decide_eq_true_eq, not_or, not_not] at hskip
        have hlt : (g.unfound (user :: found)).card < (g.unfound found).card := by
          refine Finset.card_lt_card (Finset.ssubset_iff.2 ⟨user, by simp [unfound], ?_⟩)
          intro n hn
          simp only [unfound, List.toFinset_cons, Finset.mem_insert, Finset.mem_sdiff,
            List.mem_toFinset, not_or] at hn ⊢
          rcases hn with rfl | hn
          · exact ⟨List.mem_map.2 ⟨(n, x), husers _ (by simp), rfl⟩, hskip.1⟩
          · exact ⟨hn.1, hn.2.2⟩
        have := ih (fun u hu => husers u (List.mem_cons_of_mem _ hu)) h
        simp only [List.length_cons] at this
        omega
      · cases h

/-! ## The search -/

theorem ends_carriersFrom {fuel : Nat} (hfuel : work.length + (g.unfound found).card < fuel) :
    g.Ends found work (g.carriersFrom fuel found work) := by
  induction fuel generalizing found work with
  | zero => exact absurd hfuel (Nat.not_lt_zero _)
  | succ fuel ih =>
    cases work with
    | nil => exact .done
    | cons value work =>
      rw [carriersFrom]
      cases hs : spread value found work g.liveNodes with
      | error user => exact .stuck hs
      | ok r =>
        have := spread_card (g := g) (fun _ hu => hu) hs
        exact .next hs (ih (by simp only [List.length_cons] at hfuel; omega))

theorem ends_carriers (g : Graph) (roots : List NodeId) :
    g.Ends roots roots.reverse (g.carriers roots) := by
  have hcard : (g.unfound roots).card ≤ g.nodeCount := by
    refine Nat.le_trans (Finset.card_le_card Finset.sdiff_subset)
      (Nat.le_trans (List.toFinset_card_le _) ?_)
    rw [List.length_map, liveNodes]
    refine Nat.le_trans (List.length_filterMap_le _ _) ?_
    simp [nodeCount]
  exact ends_carriersFrom (by simp only [List.length_reverse]; omega)

theorem Ends.closed (h : g.Ends found work r) (hr : r = .ok dead)
    (hdone : ∀ i ∈ found, i ∉ work → ∀ n x, g.node? n = some x → i ∈ x.inputs → n ∈ found) :
    (∀ n ∈ found, n ∈ dead) ∧ ∀ i ∈ dead, ∀ n x, g.node? n = some x → i ∈ x.inputs → n ∈ dead := by
  induction h with
  | done =>
    cases hr
    exact ⟨fun _ hn => hn, fun i hi => hdone i hi (by simp)⟩
  | stuck _ => cases hr
  | @next value _ _ _ _ _ hs _ ih =>
    obtain ⟨⟨new, rfl, rfl, -⟩, hall⟩ := spread_spec hs
    obtain ⟨h1, h2⟩ := ih hr fun i hi hiw n x hx hin => by
      by_cases hv : i = value
      · subst hv
        exact hall n x (mem_liveNodes.2 hx) hin
      · rw [List.mem_append] at hi hiw
        rw [not_or] at hiw
        exact List.mem_append_right _
          (hdone i (hi.resolve_left hiw.1) (by simp [hv, hiw.2]) n x hx hin)
    exact ⟨fun n hn => h1 n (List.mem_append_right _ hn), h2⟩

theorem Ends.carried (h : g.Ends found work r) (hroots : ∀ n ∈ roots, n ∈ found)
    (hfound : ∀ n ∈ found, g.Carried roots n) (hwork : ∀ n ∈ work, g.Carried roots n) :
    (∀ dead, r = .ok dead → ∀ n ∈ dead, g.Carried roots n) ∧ ∀ user, r = .error user →
      user ∉ roots ∧ ∃ i x, g.Carried roots i ∧ g.node? user = some x ∧ i ∈ x.inputs ∧
        x.kind.isCarrier = false := by
  induction h with
  | done => exact ⟨by rintro _ ⟨⟩; exact hfound, by rintro _ ⟨⟩⟩
  | @stuck value _ _ _ hs =>
    refine ⟨by rintro _ ⟨⟩, ?_⟩
    rintro _ ⟨⟩
    obtain ⟨hnew, x, hx, hv⟩ := spread_error hs
    exact ⟨fun h => hnew (hroots _ h), value, x, hwork value (by simp), mem_liveNodes.1 hx, hv⟩
  | @next value _ _ _ _ _ hs _ ih =>
    obtain ⟨⟨new, rfl, rfl, hnew⟩, -⟩ := spread_spec hs
    have hcarried : ∀ n ∈ new, g.Carried roots n := by
      intro n hn
      obtain ⟨x, hx, hv, hk, -⟩ := hnew n hn
      exact .step (hwork value (by simp)) (mem_liveNodes.1 hx) hv hk
    exact ih (fun n hn => List.mem_append_right _ (hroots n hn))
      (fun n hn => (List.mem_append.1 hn).elim (hcarried n) (hfound n))
      fun n hn => (List.mem_append.1 hn).elim (hcarried n) fun hn => hwork n (by simp [hn])

theorem carriers_spec (h : g.carriers roots = .ok dead) :
    (∀ i ∈ dead, ∀ n x, g.node? n = some x → i ∈ x.inputs → n ∈ dead) ∧
      ∀ n, n ∈ dead ↔ g.Carried roots n := by
  obtain ⟨h1, h2⟩ := (ends_carriers g roots).closed h fun i hi hn => absurd (List.mem_reverse.2 hi) hn
  refine ⟨h2, fun n => ⟨?_, fun hn => ?_⟩⟩
  · exact ((ends_carriers g roots).carried (fun _ h => h) (fun _ => .root)
      fun _ hn => .root (List.mem_reverse.1 hn)).1 dead h n
  · induction hn with
    | root hr => exact h1 _ hr
    | step _ hx hin _ ih => exact h2 _ ih _ _ hx hin

theorem carriers_error (h : g.carriers roots = .error user) :
    user ∉ roots ∧ ∃ i x, g.Carried roots i ∧ g.node? user = some x ∧ i ∈ x.inputs ∧
      x.kind.isCarrier = false :=
  ((ends_carriers g roots).carried (fun _ h => h) (fun _ => .root)
    fun _ hn => .root (List.mem_reverse.1 hn)).2 user h

/-- **What carriers finds is exact.** From roots that are live phis the search ends. It succeeds if and
only if no carried value has a user but phis and proxies, and then finds exactly what is carried;
otherwise it answers a live node that is neither and uses a carried value. Once all that it found is
removed, in whatever order, no live node has any of it as an input. -/
theorem carriers_exact (g : Graph) (roots : List NodeId)
    (hroots : ∀ n ∈ roots, ∃ m, g.kind? n = some (.phi m)) :
    g.Ends roots roots.reverse (g.carriers roots) ∧
      ((∃ dead, g.carriers roots = .ok dead) ↔ ∀ i n x, g.Carried roots i → g.node? n = some x →
        i ∈ x.inputs → x.kind.isCarrier = true) ∧
      (∀ dead, g.carriers roots = .ok dead → (∀ n, n ∈ dead ↔ g.Carried roots n) ∧
        ∀ order : List NodeId, (∀ n, n ∈ order ↔ n ∈ dead) → ∀ n x,
          (order.foldl removeNode g).node? n = some x → ∀ i ∈ x.inputs, i ∉ dead) ∧
      ∀ user, g.carriers roots = .error user → ∃ i x, g.Carried roots i ∧ g.node? user = some x ∧
        i ∈ x.inputs ∧ x.kind.isCarrier = false := by
  refine ⟨ends_carriers g roots, ⟨?_, fun hall => ?_⟩, fun dead h => ⟨(carriers_spec h).2, ?_⟩,
    fun user h => (carriers_error h).2⟩
  · rintro ⟨dead, h⟩ i n x hi hx hin
    obtain ⟨hclosed, hmem⟩ := carriers_spec h
    cases (hmem n).1 (hclosed i ((hmem i).2 hi) n x hx hin) with
    | root hr =>
      obtain ⟨m, hm⟩ := hroots n hr
      rw [kind?_of_node? hx] at hm
      rw [Option.some.inj hm]
      rfl
    | step _ hy _ hk => exact Option.some.inj (hy.symm.trans hx) ▸ hk
  · cases h : g.carriers roots with
    | ok dead => exact ⟨dead, rfl⟩
    | error user =>
      obtain ⟨-, i, x, hi, hx, hin, hk⟩ := carriers_error h
      rw [hall i user x hi hx hin] at hk
      cases hk
  · intro order horder n x hx i hin hi
    rw [node?_removeAll] at hx
    split at hx
    · cases hx
    · next hn => exact hn ((horder n).2 ((carriers_spec h).1 i hi n x hx hin))

/-- Two phis of a loop feed each other, and a proxy takes the second one out of the loop. -/
def phiRing : Graph where
  slots := #[⟨some { kind := .loopHeader 0 }, [], []⟩,
    ⟨some { kind := .phi ⟨0⟩, inputs := [⟨2⟩] }, [], []⟩,
    ⟨some { kind := .phi ⟨0⟩, inputs := [⟨1⟩, ⟨2⟩] }, [], []⟩,
    ⟨some { kind := .proxy ⟨0⟩, inputs := [⟨2⟩] }, [], []⟩]
  live := 4

theorem phiRing_carriers : (∀ n ∈ [NodeId.mk 1], ∃ m, phiRing.kind? n = some (.phi m)) ∧
    phiRing.carriers [⟨1⟩] = .ok [⟨3⟩, ⟨2⟩, ⟨1⟩] ∧
    ∀ n, n ∈ [NodeId.mk 3, ⟨2⟩, ⟨1⟩] ↔ phiRing.Carried [⟨1⟩] n := by
  have hroots : ∀ n ∈ [NodeId.mk 1], ∃ m, phiRing.kind? n = some (.phi m) := by
    rintro n hn
    obtain rfl := List.mem_singleton.1 hn
    exact ⟨⟨0⟩, rfl⟩
  have hfound : phiRing.carriers [⟨1⟩] = .ok [⟨3⟩, ⟨2⟩, ⟨1⟩] := rfl
  exact ⟨hroots, hfound, ((carriers_exact phiRing _ hroots).2.2.1 _ hfound).1⟩

end Graph

end StackLift
