import StackLift.Proofs.Reducible

/-!
# The dominators of a body's blocks

Before `ofBody` looks for loops it computes the dominators of the numbered blocks, of bodies that it
refuses as well. The rounds end, every meeting point on the way is found, and the table that they leave
is the dominator tree of the blocks that control can reach.
-/
namespace StackLift

namespace BlockMap

open DominatorTable

/-- The numbered blocks of a body. -/
def blockFlow (b : Body) : FlowGraph Nat := ⟨fun a => (edgesOf b)[a]?.getD [], 0⟩

/-- The table that `ofBody` asks about the edges that go back. -/
def dominatorsOf (b : Body) : DominatorTable := compute (edgesOf b).size (predsOf b)

structure FindsDominators (b : Body) : Prop where
  ends : Settles (predsOf b) (start (edgesOf b).size) (dominatorsOf b)
  meets : ∀ n k, k < (edgesOf b).size → ∀ a c, let t := stage (predsOf b) (edgesOf b).size n k
    (t.parent? a).isSome → (t.parent? c).isSome → t.Meets a c (t.meet a c)
  parent : ∀ x, (blockFlow b).Reaches 0 x → x ≠ 0 → ∃ d < x, (dominatorsOf b).parent? x = some d ∧
    (blockFlow b).Dominates d x ∧
      ∀ a, a ≠ x → (blockFlow b).Dominates a x → (blockFlow b).Dominates a d
  unreached : ∀ x, ¬ (blockFlow b).Reaches 0 x → (dominatorsOf b).parent? x = none
  dominates : ∀ a x, (blockFlow b).Reaches 0 x →
    ((dominatorsOf b).dominates a x = true ↔ (blockFlow b).Dominates a x)

variable {a x : Nat} {b : Body} {left : List Vertex}

section

variable (ho : Ordered b left)
include ho

theorem bypasses_iff_skirts : Bypasses (predsOf b) a x ↔ (blockFlow b).Skirts a 0 x := by
  constructor
  · intro h
    induction h with
    | root h => exact .refl (Ne.symm h)
    | step _ he h ih => exact ih.step ((mem_predsOf ho).1 he) (Ne.symm h)
  · intro h
    induction h with
    | refl h => exact .root (Ne.symm h)
    | step _ he h ih => exact .step ih ((mem_predsOf ho).2 he) (Ne.symm h)

theorem reaches_iff_preds : (blockFlow b).Reaches 0 x ↔ x = 0 ∨ predsOf b x ≠ [] := by
  constructor
  · intro h
    cases h with
    | refl => exact .inl rfl
    | step _ he => exact .inr (List.ne_nil_of_mem ((mem_predsOf ho).2 he))
  · intro h
    have hby := (numbered_predsOf ho).bypasses_of_lt h (Nat.lt_succ_self x)
    exact ((bypasses_iff_skirts ho).1 hby).reaches

end

/-- **Dominators are exact.** For every valid body, reducible or not, the rounds over its numbered blocks
end, and so does every search for a meeting point that they make. Each block that control can reach, the
first one apart, has its immediate dominator as parent, a block with a smaller number; the others have
none; and the table answers that `a` dominates `x` exactly if every path to `x` meets `a`. -/
theorem findsDominators_of_valid (b : Body) (hv : b.validate = .ok ()) : FindsDominators b := by
  obtain ⟨left, ho⟩ := exists_ordered (Body.valid_of_validate hv)
  have hn : Numbered (predsOf b) (edgesOf b).size := by
    rw [edgesOf_size]
    exact numbered_predsOf ho
  have hdom : ∀ {a x}, (blockFlow b).Dominates a x ↔ ¬ Bypasses (predsOf b) a x :=
    fun {a x} => not_congr (bypasses_iff_skirts ho).symm
  obtain ⟨hends, hs⟩ := compute_spec hn
  refine ⟨hends, fun n k hk a c ha hc => ?_, fun x hx h0 => ?_, fun x hx => ?_, fun a x hx => ?_⟩
  · exact (stage_rooted hn hk).meets (a + c) a c (Nat.le_refl _) ha hc
  · obtain ⟨d, hd⟩ := Option.isSome_iff_exists.1 (hs.known x ((reaches_iff_preds ho).1 hx))
    have hlt := (hs.rooted.parent h0 hd).1
    refine ⟨d, hlt, hd, hdom.2 (hs.sound (.step hd (by omega) .refl)), fun a ha hax => ?_⟩
    exact hdom.2 (hs.tight.parent h0 hd ha (hdom.1 hax))
  · rw [← Option.not_isSome_iff_eq_none]
    exact fun h => hx ((reaches_iff_preds ho).2 (hs.tight.reached h))
  · rw [hdom]
    exact dominates_iff hn ((reaches_iff_preds ho).1 hx)

/-- Blocks 1 and 3 lead to each other, and both have block 0 as parent. Control never unwinds. -/
theorem twoEntries_findsDominators : twoEntries.validate = .ok () ∧ FindsDominators twoEntries ∧
    dominatorsOf twoEntries = #[some 0, some 0, some 1, some 0, some 2, none] := by
  have hv : twoEntries.validate = .ok () := rfl
  exact ⟨hv, findsDominators_of_valid twoEntries hv, by decide +kernel⟩

end BlockMap

end StackLift
