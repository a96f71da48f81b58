import Mathlib.Data.List.Chain
import Mathlib.Data.List.Nodup
import Mathlib.Logic.Relation
import StackLift.Search

/-!
# What a depth-first search finds

**Results.**
* `Search.visit_seen_of`: what holds of the roots and passes from every vertex that is entered to its
  successors holds of every vertex that is met.
* `Search.visit_order`: the vertices that a search leaves are met once, and each of them but the roots
  comes behind one that leads to it in the list of vertices left. That list is a reverse postorder.
* `Search.visit_closed`: with enough fuel, all successors of the vertices entered are met.
* `Search.mem_visit_iff`: a search from scratch meets exactly what its root leads to.
* `Search.visit_retreats`: an edge that leads back in the list of vertices left closes a cycle: its
  source was found from its target.
-/
namespace StackLift

namespace Search

variable {α : Type} {next : α → List α}
variable {f : Search α → α → Search α} {left roots univ roots' left' before after : List α}
  {s s' s'' : Search α} {P : α → Prop}

/-! ## What is met -/

theorem foldl_keeps {Q : Search α → Prop}
    (hf : ∀ s v, P v → Q s → Q (f s v)) (vs : List α) (hvs : ∀ v ∈ vs, P v) (s : Search α)
    (hs : Q s) : Q (vs.foldl f s) := by
  induction vs generalizing s with
  | nil => exact hs
  | cons v vs ih =>
    exact ih (fun u hu => hvs u (by simp [hu])) (f s v) (hf s v (hvs v (by simp)) hs)

theorem visit_seen_of [DecidableEq α] (barred : List α)
    (hP : ∀ u, u ∉ barred → P u → ∀ x ∈ next u, P x) (fuel : Nat) (s : Search α) (v : α)
    (hv : P v) (hs : barred ⊆ s.seen ∧ ∀ x ∈ s.seen, P x) :
    barred ⊆ (visit next fuel s v).seen ∧ ∀ x ∈ (visit next fuel s v).seen, P x := by
  induction fuel generalizing s v with
  | zero => exact hs
  | succ fuel ih =>
    unfold visit
    split
    · exact hs
    · next hvs =>
      have hnext : ∀ x ∈ next v, P x := hP v (fun h => hvs (hs.1 h)) hv
      refine foldl_keeps (Q := fun t : Search α => barred ⊆ t.seen ∧ ∀ x ∈ t.seen, P x)
        (fun t u hu ht => ih t u hu ht) (next v) hnext _ ⟨?_, ?_⟩
      · exact fun x hx => List.mem_cons_of_mem _ (hs.1 hx)
      · intro x hx
        rcases List.mem_cons.1 hx with rfl | hx
        · exact hv
        · exact hs.2 x hx

/-! ## The order of leaving -/

/-- From `s` to `s'` exactly the vertices `left` were entered and left, the latest first. Those that
are not `roots` follow a vertex that leads to them. -/
structure Leaves (next : α → List α) (roots : List α) (s s' : Search α) (left : List α) : Prop where
  done : s'.done = left ++ s.done
  seen : ∀ x, x ∈ s'.seen ↔ x ∈ left ∨ x ∈ s.seen
  nodup : left.Nodup
  fresh : ∀ x ∈ left, x ∉ s.seen
  follows : ∀ u ∈ left, u ∈ roots ∨ ∃ before after, left = before ++ u :: after ∧
    ∃ w ∈ before, u ∈ next w

theorem Leaves.refl (roots : List α) (s : Search α) : Leaves next roots s s [] :=
  ⟨rfl, by simp, by simp, by simp, by simp⟩

theorem Leaves.mono
    (h : Leaves next roots s s' left) (hr : roots ⊆ roots') : Leaves next roots' s s' left :=
  ⟨h.done, h.seen, h.nodup, h.fresh, fun u hu => (h.follows u hu).imp_left fun h => hr h⟩

theorem Leaves.trans (h : Leaves next roots s s' left) (h' : Leaves next roots s' s'' left') :
    Leaves next roots s s'' (left' ++ left) := by
  refine ⟨by rw [h'.done, h.done, List.append_assoc], ?_, ?_, ?_, ?_⟩
  · intro x
    rw [h'.seen, h.seen, List.mem_append, or_assoc]
  · refine h'.nodup.append h.nodup ?_
    intro x hx' hx
    exact h'.fresh x hx' ((h.seen x).2 (.inl hx))
  · intro x hx
    rcases List.mem_append.1 hx with hx | hx
    · exact fun hs => h'.fresh x hx ((h.seen x).2 (.inr hs))
    · exact h.fresh x hx
  · intro u hu
    rcases List.mem_append.1 hu with hu | hu
    · refine (h'.follows u hu).imp_right ?_
      rintro ⟨before, after, rfl, hw⟩
      exact ⟨before, after ++ left, by simp, hw⟩
    · refine (h.follows u hu).imp_right ?_
      rintro ⟨before, after, rfl, w, hw, he⟩
      exact ⟨left' ++ before, after, by simp, w, by simp [hw], he⟩

theorem Leaves.foldl
    (hf : ∀ s v, ∃ left, Leaves next [v] s (f s v) left) (xs : List α) (s : Search α) :
    ∃ left, Leaves next xs s (xs.foldl f s) left := by
  induction xs generalizing s with
  | nil => exact ⟨[], .refl _ _⟩
  | cons y ys ih =>
    obtain ⟨l1, h1⟩ := hf s y
    obtain ⟨l2, h2⟩ := ih (f s y)
    exact ⟨l2 ++ l1, (h1.mono (by simp)).trans (h2.mono (by simp))⟩

theorem visit_order [DecidableEq α] (next : α → List α) (fuel : Nat) (s : Search α) (v : α) :
    ∃ left, Leaves next [v] s (visit next fuel s v) left ∧ (left ≠ [] → left.head? = some v) := by
  induction fuel generalizing s v with
  | zero => exact ⟨[], .refl _ _, by simp⟩
  | succ fuel ih =>
    unfold visit
    split
    · exact ⟨[], .refl _ _, by simp⟩
    · next hvs =>
      obtain ⟨left, h⟩ := Leaves.foldl (fun s v => (ih s v).imp fun _ h => h.1) (next v)
        { s with seen := v :: s.seen }
      refine ⟨v :: left, ⟨by simp [h.done], ?_, ?_, ?_, ?_⟩, by simp⟩
      · intro x
        rw [h.seen]
        simp only [List.mem_cons]
        tauto
      · refine List.nodup_cons.2 ⟨fun hv => h.fresh v hv (by simp), h.nodup⟩
      · intro x hx
        rcases List.mem_cons.1 hx with rfl | hx
        · exact hvs
        · exact fun hs => h.fresh x hx (by simp [hs])
      · intro u hu
        rcases List.mem_cons.1 hu with rfl | hu
        · exact .inl (by simp)
        · right
          obtain ⟨before, after, hl⟩ := List.append_of_mem hu
          rcases h.follows u hu with hr | ⟨b, a, hba, w, hw, he⟩
          · exact ⟨v :: before, after, by simp [hl], v, by simp, hr⟩
          · exact ⟨v :: b, a, by simp [hba], w, by simp [hw], he⟩

/-! ## Enough fuel -/

/-- The number of vertices of `univ` that are not met yet. -/
def room [DecidableEq α] (univ : List α) (s : Search α) : Nat := univ.countP (· ∉ s.seen)

theorem room_le_length [DecidableEq α] : room univ s ≤ univ.length := List.countP_le_length

theorem room_mono [DecidableEq α] (h : s.seen ⊆ s'.seen) : room univ s' ≤ room univ s :=
  List.countP_mono_left fun x _ hx => by
    rw [decide_eq_true_eq] at hx ⊢
    exact fun hs => hx (h hs)

theorem room_enter [DecidableEq α] {v : α} (hv : v ∈ univ) (hvs : v ∉ s.seen) :
    room univ { s with seen := v :: s.seen } < room univ s := by
  obtain ⟨before, after, rfl⟩ := List.append_of_mem hv
  have hle : ∀ l : List α, room l { s with seen := v :: s.seen } ≤ room l s :=
    fun l => room_mono (List.subset_cons_self _ _)
  have hb := hle before
  have ha := hle after
  simp only [room, List.countP_append, List.countP_cons, List.mem_cons, true_or, not_true_eq_false,
    decide_false, hvs, not_false_eq_true, decide_true, if_true, Bool.false_eq_true, if_false] at *
  omega

/-- Everything that was met on the way from `s` to `s'` has had its successors met too. -/
structure Closes (next : α → List α) (s s' : Search α) : Prop where
  grows : s.seen ⊆ s'.seen
  closed : ∀ u ∈ s'.seen, u ∉ s.seen → ∀ x ∈ next u, x ∈ s'.seen

theorem Closes.refl (s : Search α) : Closes next s s := ⟨fun _ h => h, fun _ hu hus => absurd hu hus⟩

theorem Closes.trans (h : Closes next s s') (h' : Closes next s' s'') : Closes next s s'' := by
  refine ⟨fun x hx => h'.grows (h.grows hx), fun u hu hus x hx => ?_⟩
  by_cases hu' : u ∈ s'.seen
  · exact h'.grows (h.closed u hu' hus x hx)
  · exact h'.closed u hu hu' x hx

theorem Closes.foldl [DecidableEq α] {fuel : Nat}
    (hf : ∀ s v, P v → room univ s < fuel → Closes next s (f s v) ∧ v ∈ (f s v).seen) (xs : List α)
    (s : Search α) (hxs : ∀ x ∈ xs, P x) (hfuel : room univ s < fuel) :
    Closes next s (xs.foldl f s) ∧ xs ⊆ (xs.foldl f s).seen := by
  induction xs generalizing s with
  | nil => exact ⟨.refl s, by simp⟩
  | cons y ys ih =>
    obtain ⟨h1, hy⟩ := hf s y (hxs y (by simp)) hfuel
    obtain ⟨h2, hys⟩ := ih (f s y) (fun x hx => hxs x (by simp [hx]))
      (Nat.lt_of_le_of_lt (room_mono h1.grows) hfuel)
    exact ⟨h1.trans h2, List.cons_subset.2 ⟨h2.grows hy, hys⟩⟩

section Fuel

variable [DecidableEq α] {P : α → Prop} (hnext : ∀ u, P u → ∀ x ∈ next u, P x)
  (huniv : ∀ u, P u → u ∈ univ ∨ next u = [])
include hnext huniv

theorem visit_closed (fuel : Nat) (s : Search α) (v : α) (hv : P v) (hfuel : room univ s < fuel) :
    Closes next s (visit next fuel s v) ∧ v ∈ (visit next fuel s v).seen := by
  induction fuel generalizing s v with
  | zero => cases hfuel
  | succ fuel ih =>
    unfold visit
    split
    · next hvs => exact ⟨.refl s, hvs⟩
    · next hvs =>
      obtain ⟨h1, h2⟩ : Closes next { s with seen := v :: s.seen }
            ((next v).foldl (visit next fuel) { s with seen := v :: s.seen }) ∧
          next v ⊆ ((next v).foldl (visit next fuel) { s with seen := v :: s.seen }).seen := by
        rcases huniv v hv with hin | hleaf
        · exact Closes.foldl ih (next v) _ (hnext v hv)
            (Nat.lt_of_lt_of_le (room_enter hin hvs) (Nat.le_of_lt_succ hfuel))
        · rw [hleaf]
          exact ⟨.refl _, by simp⟩
      refine ⟨⟨fun x hx => h1.grows (by simp [hx]), fun u hu hus x hx => ?_⟩, h1.grows (by simp)⟩
      by_cases huv : u = v
      · subst huv
        exact h2 hx
      · exact h1.closed u hu (by simp [huv, hus]) x hx

theorem mem_visit_iff {fuel : Nat} (hfuel : univ.length < fuel) {v x : α} (hv : P v) :
    x ∈ (visit next fuel {} v).seen ↔ Relation.ReflTransGen (fun a b => b ∈ next a) v x := by
  constructor
  · have := visit_seen_of (P := Relation.ReflTransGen (fun a b => b ∈ next a) v) []
      (fun u _ hu x hx => hu.tail hx) fuel {} v .refl (by simp)
    exact this.2 x
  · intro h
    obtain ⟨hc, hmem⟩ := visit_closed hnext huniv fuel {} v hv
      (Nat.lt_of_le_of_lt room_le_length hfuel)
    induction h with
    | refl => exact hmem
    | tail _ hstep ih => exact hc.closed _ ih (by simp) _ hstep

end Fuel

theorem visit_nodup [DecidableEq α] (fuel : Nat) (s : Search α) (v : α) (hs : s.seen.Nodup) :
    (visit next fuel s v).seen.Nodup := by
  induction fuel generalizing s v with
  | zero => exact hs
  | succ fuel ih =>
    unfold visit
    split
    · exact hs
    · next hvs =>
      exact foldl_keeps (P := fun _ => True) (Q := fun t : Search α => t.seen.Nodup)
        (fun t u _ ht => ih t u ht) (next v) (fun _ _ => trivial) _ (List.nodup_cons.2 ⟨hvs, hs⟩)

/-! ## Edges that lead back -/

theorem Leaves.route (h : Leaves next roots s s' left) {u : α} (hl : left = before ++ u :: after) :
    ∃ path, (path ++ [u]).Sublist (before ++ [u]) ∧
      ∀ v, roots ⊆ next v → List.IsChain (fun a b => b ∈ next a) (v :: (path ++ [u])) := by
  induction hn : before.length using Nat.strong_induction_on generalizing before after u with
  | _ n ih =>
    rcases h.follows u (by simp [hl]) with hr | ⟨b, a, hba, w, hw, he⟩
    · exact ⟨[], by simp, fun v hv => by simpa using hv hr⟩
    · have hnd := h.nodup
      rw [hba, List.nodup_append, List.nodup_cons] at hnd
      obtain ⟨rfl, -, rfl⟩ := (List.append_cons_inj_of_notMem
        (fun hu => hnd.2.2 u hu u (by simp) rfl) hnd.2.1.1).1 (hba.symm.trans hl)
      obtain ⟨b1, b2, rfl⟩ := List.append_of_mem hw
      have hw' : left = b1 ++ w :: (b2 ++ u :: a) := by simp [hba]
      obtain ⟨path, hsub, hchain⟩ := ih b1.length (by simp [← hn]) hw' rfl
      refine ⟨path ++ [w], ?_, fun v hv => ?_⟩
      · have : (path ++ [w]).Sublist (b1 ++ w :: b2) := by
          refine hsub.trans ?_
          simp
        exact this.append (List.Sublist.refl _)
      · have hsplit : List.IsChain (fun a b => b ∈ next a) ((v :: path) ++ w :: [u]) :=
          List.isChain_split.2 ⟨by simpa using hchain v hv, by simpa using he⟩
        simpa using hsplit

/-- An edge from `u` back to a vertex `x` that was left after it closes a cycle. -/
def Retreats (next : α → List α) (left : List α) : Prop :=
  ∀ before x after, left = before ++ x :: after → ∀ u ∈ after, x ∈ next u →
    ∃ path, (path ++ [u]).Sublist after ∧
      List.IsChain (fun a b => b ∈ next a) (x :: (path ++ [u]))

theorem Retreats.append (h : Leaves next roots s s' left) (hc : Closes next s s')
    (h' : Leaves next roots' s' s'' left') (hr : Retreats next left) (hr' : Retreats next left') :
    Retreats next (left' ++ left) := by
  intro before x after heq u hu hx
  rcases List.append_eq_append_iff.1 heq with ⟨c, rfl, hc'⟩ | ⟨c, rfl, hc'⟩
  · exact hr c x after hc' u hu hx
  · cases c with
    | nil => exact hr [] x after (by simpa using hc'.symm) u hu hx
    | cons y c =>
      rw [List.cons_append, List.cons.injEq] at hc'
      obtain ⟨rfl, rfl⟩ := hc'
      rcases List.mem_append.1 hu with hu | hu
      · obtain ⟨path, hsub, hchain⟩ := hr' before x c rfl u hu hx
        exact ⟨path, hsub.trans (List.sublist_append_left _ _), hchain⟩
      · have hseen : x ∈ s'.seen :=
          hc.closed u ((h.seen u).2 (.inl hu)) (h.fresh u hu) x hx
        exact absurd hseen (h'.fresh x (by simp))

theorem visit_retreats [DecidableEq α] (hnext : ∀ u, P u → ∀ x ∈ next u, P x)
    (huniv : ∀ u, P u → u ∈ univ ∨ next u = []) (fuel : Nat) (s : Search α) (v : α) (hv : P v)
    (hfuel : room univ s < fuel) (hleft : (visit next fuel s v).done = left ++ s.done) :
    Retreats next left := by
  induction fuel generalizing s v left with
  | zero => cases hfuel
  | succ fuel ih =>
    have hsearch : ∀ (xs : List α) (t : Search α) (l : List α), (∀ x ∈ xs, P x) → room univ t < fuel →
        (xs.foldl (visit next fuel) t).done = l ++ t.done → Retreats next l := by
      intro xs
      induction xs with
      | nil =>
        intro t l _ _ hl before x after heq
        obtain rfl : l = [] := by simpa using hl
        simp at heq
      | cons y ys ihy =>
        intro t l hxs hf hl
        obtain ⟨l1, h1, -⟩ := visit_order next fuel t y
        obtain ⟨l2, h2⟩ := Leaves.foldl (fun s v => (visit_order next fuel s v).imp fun _ h => h.1) ys
          (visit next fuel t y)
        obtain ⟨hc, -⟩ := visit_closed hnext huniv fuel t y (hxs y (by simp)) hf
        obtain rfl : l = l2 ++ l1 := by
          rw [List.foldl_cons, h2.done, h1.done, ← List.append_assoc] at hl
          exact (List.append_cancel_right hl).symm
        refine Retreats.append h1 hc h2 (ih t y (hxs y (by simp)) hf h1.done) ?_
        exact ihy _ l2 (fun x hx => hxs x (by simp [hx]))
          (Nat.lt_of_le_of_lt (room_mono hc.grows) hf) h2.done
    unfold visit at hleft
    split at hleft
    · obtain rfl : left = [] := by simpa using hleft
      intro before x after heq
      simp at heq
    · next hvs =>
      obtain ⟨l, hl⟩ := Leaves.foldl (fun s v => (visit_order next fuel s v).imp fun _ h => h.1) (next v)
        { s with seen := v :: s.seen }
      have hr : Retreats next l := by
        rcases huniv v hv with hin | hleaf
        · exact hsearch (next v) _ l (hnext v hv)
            (Nat.lt_of_lt_of_le (room_enter hin hvs) (Nat.le_of_lt_succ hfuel)) hl.done
        · obtain rfl : l = [] := by simpa [hleaf] using hl.done
          exact fun before x after heq => by simp at heq
      obtain rfl : left = v :: l := by
        simp only [hl.done, ← List.cons_append] at hleft
        exact (List.append_cancel_right hleft).symm
      intro before x after heq u hu hx
      cases before with
      | nil =>
        -- Everything that was left while `v` was open was found from `v`.
        obtain ⟨rfl, rfl⟩ := List.cons.inj heq
        obtain ⟨b, a, rfl⟩ := List.append_of_mem hu
        obtain ⟨path, hsub, hchain⟩ := hl.route rfl
        exact ⟨path, hsub.trans (by simp), hchain v fun _ h => h⟩
      | cons y before =>
        obtain ⟨-, heq⟩ := List.cons.inj heq
        exact hr before x after heq u hu hx

end Search

end StackLift
