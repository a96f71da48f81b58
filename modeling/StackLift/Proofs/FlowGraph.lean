import Mathlib.Data.List.Chain

/-!
# Paths, dominators and loops of a flow graph

A flow graph has successors for each of its vertices, and a root where control enters. Only which
successors a vertex has matters here, not their order.

**Paths.** `Skirts a x y` is a path from `x` to `y` that never meets `a`. A vertex dominates another
one if no path from the root skirts it.

**Cycles.** A cycle is improper if none of its vertices dominates all of them: control can enter it at
more than one place.

**Loops.** The loop of `h` is everything that reaches one of its back edges without going through `h`.
`BackEdges.subset` says when one loop lies in another, and `BackEdges.nested` that two loops that share
a vertex are never across each other.
-/
namespace StackLift

structure FlowGraph (α : Type) where
  next : α → List α
  root : α

namespace FlowGraph

variable {α : Type} {f g : FlowGraph α} {a b c x y z : α}

/-! ## Paths -/

inductive Reaches (f : FlowGraph α) (x : α) : α → Prop where
  | refl : Reaches f x x
  | step {y z : α} (hy : Reaches f x y) (he : z ∈ f.next y) : Reaches f x z

inductive Skirts (f : FlowGraph α) (a x : α) : α → Prop where
  | refl (h : x ≠ a) : Skirts f a x x
  | step {y z : α} (hy : Skirts f a x y) (he : z ∈ f.next y) (h : z ≠ a) : Skirts f a x z

def Dominates (f : FlowGraph α) (a b : α) : Prop := ¬ f.Skirts a f.root b

theorem Skirts.ne (h : f.Skirts a x y) : y ≠ a := by
  cases h with
  | refl h => exact h
  | step _ _ h => exact h

theorem Skirts.trans (h : f.Skirts a x y) (h' : f.Skirts a y z) : f.Skirts a x z := by
  induction h' with
  | refl _ => exact h
  | step _ he hne ih => exact ih.step he hne

theorem Skirts.reaches (h : f.Skirts a x y) : f.Reaches x y := by
  induction h with
  | refl _ => exact .refl
  | step _ he _ ih => exact ih.step he

theorem Skirts.leaves (h : f.Skirts a x y) : x = y ∨ ∃ z, z ∈ f.next x := by
  induction h with
  | refl _ => exact .inl rfl
  | @step y z _ he _ ih =>
    rcases ih with rfl | ih
    · exact .inr ⟨z, he⟩
    · exact .inr ih

theorem dominates_self (f : FlowGraph α) (a : α) : f.Dominates a a := fun h => h.ne rfl

theorem skirts_of_not_dominates (h : ¬ f.Dominates a b) : f.Skirts a f.root b := Classical.not_not.1 h

theorem Dominates.antisymm (hab : f.Dominates a b) (hba : f.Dominates b a) (ha : f.Reaches f.root a) :
    a = b := by
  by_contra hne
  -- A path from the root can meet neither: it would meet one of them first.
  suffices h : ∀ {c}, f.Reaches f.root c → f.Skirts a f.root c ∧ f.Skirts b f.root c from
    (h ha).1.ne rfl
  intro c hc
  induction hc with
  | refl =>
    refine ⟨.refl fun h => ?_, .refl fun h => ?_⟩
    · exact hba (h ▸ .refl fun h' => hne (h.symm.trans h'))
    · exact hab (h ▸ .refl fun h' => hne (h'.symm.trans h))
  | @step y z _ he ih =>
    refine ⟨ih.1.step he fun h => ?_, ih.2.step he fun h => ?_⟩
    · subst h
      exact hba (ih.2.step he hne)
    · subst h
      exact hab (ih.1.step he (Ne.symm hne))

/-! ## Cycles -/

/-- Each vertex leads to the next one, and the last one to the first. -/
def Closed (f : FlowGraph α) : List α → Prop
  | [] => False
  | v :: vs => List.IsChain (fun x y => y ∈ f.next x) (v :: (vs ++ [v]))

structure ImproperCycle (f : FlowGraph α) (c : List α) : Prop where
  closed : f.Closed c
  nodup : c.Nodup
  reached : ∀ v ∈ c, f.Reaches f.root v
  improper : ∀ d ∈ c, ∃ v ∈ c, ¬ f.Dominates d v

/-- There is a cycle that control can enter at more than one place. -/
def Irreducible (f : FlowGraph α) : Prop := ∃ c, f.ImproperCycle c

theorem Skirts.walk {ws : List α} (hv : f.Skirts a f.root x)
    (hw : List.IsChain (fun x y => y ∈ f.next x) (x :: ws)) :
    (∃ u ∈ x :: ws, f.Skirts a f.root u ∧ a ∈ f.next u) ∨
      a ∉ ws ∧ ∀ u ∈ x :: ws, f.Skirts a f.root u := by
  induction ws generalizing x with
  | nil => exact .inr ⟨by simp, by simpa using hv⟩
  | cons w ws ih =>
    rw [List.isChain_cons_cons] at hw
    by_cases hwa : w = a
    · subst hwa
      exact .inl ⟨x, by simp, hv, hw.1⟩
    · rcases ih (hv.step hw.1 hwa) hw.2 with ⟨u, hu, h⟩ | ⟨hn, h⟩
      · exact .inl ⟨u, List.mem_cons_of_mem _ hu, h⟩
      · refine .inr ⟨?_, ?_⟩
        · simp only [List.mem_cons, not_or]
          exact ⟨Ne.symm hwa, hn⟩
        · intro u hu
          rcases List.mem_cons.1 hu with rfl | hu
          · exact hv
          · exact h u hu

theorem Closed.entered {c : List α} (hc : f.Closed c) (ha : a ∈ c) (hx : x ∈ c)
    (hs : f.Skirts a f.root x) : ∃ u ∈ c, f.Skirts a f.root u ∧ a ∈ f.next u := by
  cases c with
  | nil => exact hc.elim
  | cons v vs =>
    have hmem : ∀ {u}, u ∈ v :: (vs ++ [v]) → u ∈ v :: vs := by
      intro u hu
      simpa [or_comm, or_assoc] using hu
    -- From `x` to the end of the walk, and if `a` was not met, once around.
    obtain ⟨l1, l2, hl⟩ := List.append_of_mem hx
    have hall : v :: (vs ++ [v]) = l1 ++ x :: (l2 ++ [v]) := by
      rw [← List.cons_append, hl]
      simp
    have hchain : List.IsChain (fun x y => y ∈ f.next x) (l1 ++ x :: (l2 ++ [v])) := hall ▸ hc
    rcases hs.walk (List.isChain_split.1 hchain).2 with ⟨u, hu, h⟩ | ⟨-, h⟩
    · exact ⟨u, hmem (hall ▸ List.mem_append_right _ hu), h⟩
    · have hv : f.Skirts a f.root v := h v (by simp)
      rcases hv.walk hc with ⟨u, hu, h⟩ | ⟨hn, -⟩
      · exact ⟨u, hmem hu, h⟩
      · refine absurd ?_ hn
        rcases List.mem_cons.1 ha with rfl | ha
        · simp
        · exact List.mem_append_left _ ha

theorem ImproperCycle.of_same (hroot : f.root = g.root)
    (hnext : ∀ v x, x ∈ f.next v ↔ x ∈ g.next v) {c : List α} (hc : f.ImproperCycle c) :
    g.ImproperCycle c := by
  have hreach : ∀ {y}, f.Reaches f.root y → g.Reaches g.root y := by
    intro y hy
    induction hy with
    | refl => exact hroot ▸ .refl
    | step _ he ih => exact ih.step ((hnext _ _).1 he)
  have hskirt : ∀ {a y}, f.Skirts a f.root y → g.Skirts a g.root y := by
    intro a y hy
    induction hy with
    | refl h => exact hroot ▸ .refl h
    | step _ he hz ih => exact ih.step ((hnext _ _).1 he) hz
  refine ⟨?_, hc.nodup, fun v hv => hreach (hc.reached v hv), fun d hd => ?_⟩
  · have hclosed := hc.closed
    cases c with
    | nil => exact hclosed
    | cons v vs => exact hclosed.imp fun x y => (hnext x y).1
  · obtain ⟨v, hv, hdom⟩ := hc.improper d hd
    exact ⟨v, hv, fun h => h (hskirt (skirts_of_not_dominates hdom))⟩

theorem irreducible_congr (hroot : f.root = g.root)
    (hnext : ∀ v x, x ∈ f.next v ↔ x ∈ g.next v) : f.Irreducible ↔ g.Irreducible :=
  ⟨fun h => h.imp fun _ hc => hc.of_same hroot hnext,
    fun h => h.imp fun _ hc => hc.of_same hroot.symm fun v x => (hnext v x).symm⟩

/-! ## Loops -/

/-- `x` reaches one of the back edges of `h`, which come from the vertices in `back`, without going
through `h`. -/
def InLoop (f : FlowGraph α) (back : α → Prop) (h x : α) : Prop :=
  x = h ∨ ∃ u, back u ∧ f.Skirts h x u

/-- The vertices in `back` lead to `h`, which dominates them. -/
structure BackEdges (f : FlowGraph α) (back : α → Prop) (h : α) : Prop where
  edge : ∀ u, back u → h ∈ f.next u
  dominated : ∀ u, back u → f.Dominates h u

variable {back back' : α → Prop} {h h' : α}

theorem BackEdges.dominates (hb : f.BackEdges back h) (hx : f.InLoop back h x) : f.Dominates h x := by
  rcases hx with rfl | ⟨u, hu, hs⟩
  · exact dominates_self f x
  · exact fun hr => hb.dominated u hu (hr.trans hs)

theorem BackEdges.leaves (hb : f.BackEdges back h) (hx : f.InLoop back h x) :
    x = h ∨ ∃ z, z ∈ f.next x := by
  refine hx.imp_right ?_
  rintro ⟨u, hu, hs⟩
  rcases hs.leaves with rfl | hz
  · exact ⟨h, hb.edge x hu⟩
  · exact hz

/-- If two loops share a vertex, the one whose header does not dominate the other's header lies in
the other. -/
theorem BackEdges.subset (hb : f.BackEdges back h) (hne : h ≠ h') (hs : f.Skirts h f.root h')
    (hc : f.Reaches f.root c) (hin : f.InLoop back h c) (hin' : f.InLoop back' h' c)
    (hx : f.InLoop back h x) : f.InLoop back' h' x := by
  have hdom := hb.dominates hin
  -- A path from the root to the shared vertex meets `h` after it last met `h'`.
  have hfrom : ∀ {y}, f.Reaches f.root y → f.Skirts h f.root y ∨ f.Skirts h' h y := by
    intro y hy
    induction hy with
    | refl =>
      by_cases hr : f.root = h
      · exact .inr (hr ▸ .refl (hr ▸ hne))
      · exact .inl (.refl hr)
    | @step y z _ he ih =>
      by_cases hz : z = h
      · exact .inr (hz ▸ .refl (hz ▸ hne))
      by_cases hz' : z = h'
      · exact .inl (hz' ▸ hs)
      · exact ih.imp (fun ih => ih.step he hz) fun ih => ih.step he hz'
  obtain ⟨u', hu', hend⟩ : ∃ u', back' u' ∧ f.Skirts h' h u' := by
    rcases hin' with rfl | ⟨u', hu', hcu⟩
    · exact absurd hs hdom
    · exact ⟨u', hu', ((hfrom hc).resolve_left hdom).trans hcu⟩
  rcases hx with rfl | ⟨u, hu, hxu⟩
  · exact .inr ⟨u', hu', hend⟩
  -- The way to the back edge of `h` does not meet `h'`, from which control could go on to it.
  have hway : ∀ {y}, f.Skirts h x y → f.Skirts h' x y ∨ f.Skirts h f.root y := by
    intro y hy
    induction hy with
    | refl hxh =>
      by_cases hx' : x = h'
      · exact .inr (hx' ▸ hs)
      · exact .inl (.refl hx')
    | @step y z _ he hz ih =>
      by_cases hz' : z = h'
      · exact .inr (hz' ▸ hs)
      · exact ih.imp (fun ih => ih.step he hz') fun ih => ih.step he hz
  have hxu' := (hway hxu).resolve_right (hb.dominated u hu)
  exact Or.inr ⟨u', hu', (hxu'.step (hb.edge u hu) hne).trans hend⟩

theorem BackEdges.nested (hb : f.BackEdges back h) (hb' : f.BackEdges back' h') (hne : h ≠ h')
    (hh : f.Reaches f.root h) (hc : f.Reaches f.root c) (hin : f.InLoop back h c)
    (hin' : f.InLoop back' h' c) : (∀ x, f.InLoop back h x → f.InLoop back' h' x) ∨
      ∀ x, f.InLoop back' h' x → f.InLoop back h x := by
  by_cases hd : f.Dominates h h'
  · right
    have hd' : ¬ f.Dominates h' h := fun hd' => hne (hd.antisymm hd' hh)
    exact fun x hx => hb'.subset (Ne.symm hne) (skirts_of_not_dominates hd') hc hin' hin hx
  · left
    exact fun x hx => hb.subset hne (skirts_of_not_dominates hd) hc hin hin' hx

end FlowGraph

end StackLift
