import StackLift.Proofs.Parts

/-!
# Reasoning about builds

`Ensures E act sc w Q` says how `act` ends when it runs in scope `sc` on the work `w`: with an answer
and a work that satisfy `Q`, or with an error that satisfies `E`. The rules follow the way builds are
written: `bind` for sequences, one rule for each loop. A proof goes through an action from the front,
`refine (spec …).bind fun a w' h => ?_`, and never looks inside an action that has a lemma.
-/
namespace StackLift

/-- The faults that the code can be blamed for. The others are the stack of a test or of an unwinding
that does not hold one exception, and what the check of a finished graph reports. -/
def Fault.isEarly : Fault → Bool
  | .dispatchStack _ | .unwindWithoutException | .noStart | .startWithoutSnapshot _
  | .missingSnapshot .. | .phiWithoutMerge .. | .phiArity .. | .proxyWithoutExit ..
  | .unreachable .. => false
  | _ => true

/-- The errors that a build of valid bodies may end with: nothing to build, irreducible code, a budget
that ran out, and code at fault. -/
def Error.isOrdinary : Error → Bool
  | .verification _ f => f.isEarly
  | .budgetExceeded .. => true
  | .notSupported (.irreducible ..) => true
  | .unresolvedRoot _ => true
  | _ => false

/-- Ordinary errors are expected. -/
abbrev Expects (E : Error → Prop) : Prop := ∀ e, Error.isOrdinary e = true → E e

theorem ok_of_bind {ε α β : Type} {x : Except ε α} {f : α → Except ε β} {b : β}
    (h : (x >>= f) = .ok b) : ∃ a, x = .ok a ∧ f a = .ok b := by
  cases x with
  | error e => cases h
  | ok a => exact ⟨a, rfl, h⟩

namespace BuildM

/-- `act` answers something good or fails in an expected way. -/
def Ensures {α : Type} (E : Error → Prop) (act : BuildM α) (sc : Scope) (w : Work)
    (Q : α → Work → Prop) : Prop :=
  match act sc w with
  | .ok a w' => Q a w'
  | .error e _ => E e

section Rules

variable {α β : Type} {E : Error → Prop} {sc : Scope} {w : Work} {Q : α → Work → Prop}
variable {a : α} {act : BuildM α} {f : Graph → Except Error (α × Graph)} {P : β → Work → Prop}
  {e : Error} {n : NodeId} {w' : Work}

theorem Ensures.mono {Q' : α → Work → Prop} (h : Ensures E act sc w Q)
    (hq : ∀ a w', Q a w' → Q' a w') : Ensures E act sc w Q' := by
  unfold Ensures at *
  split
  · next a w' heq =>
    rw [heq] at h
    exact hq _ _ h
  · next e w' heq =>
    rw [heq] at h
    exact h

theorem Ensures.bind {f : α → BuildM β}
    (h : Ensures E act sc w Q) (hf : ∀ a w', Q a w' → Ensures E (f a) sc w' P) :
    Ensures E (act >>= f) sc w P := by
  unfold Ensures at h
  show (match EStateM.bind (act sc) (fun a => f a sc) w with
    | .ok a w' => P a w'
    | .error e _ => E e)
  unfold EStateM.bind
  cases heq : act sc w with
  | ok a w' =>
    rw [heq] at h
    exact hf a w' h
  | error e w' =>
    rw [heq] at h
    exact h

theorem Ensures.chain {f : α → BuildM β}
    (h : Ensures E act sc w fun a w' => Ensures E (f a) sc w' P) : Ensures E (act >>= f) sc w P :=
  h.bind fun _ _ hf => hf

theorem ensures_pure (h : Q a w) : Ensures E (pure a) sc w Q := h

theorem ensures_throw (h : E e) : Ensures E (throw e : BuildM α) sc w Q := h

theorem ensures_verify {p : Position} {f : Fault} (h : E (.verification p f)) :
    Ensures E (verify p f : BuildM α) sc w Q := h

theorem ensures_get_bind {f : Work → BuildM α} (h : Ensures E (f w) sc w Q) :
    Ensures E (get >>= f) sc w Q := h

theorem ensures_read_bind {f : Scope → BuildM α} (h : Ensures E (f sc) sc w Q) :
    Ensures E (read >>= f) sc w Q := h

theorem ensures_pure_bind {a : β} {f : β → BuildM α} (h : Ensures E (f a) sc w Q) :
    Ensures E (pure a >>= f) sc w Q := h

theorem ensures_demand {o : Option α} {d : Defect} (ho : o = some a) (h : Q a w) :
    Ensures E (demand o d) sc w Q := by
  subst ho
  exact h

theorem ensures_liftExcept {x : Except Error α} (hok : ∀ a, x = .ok a → Q a w)
    (herr : ∀ e, x = .error e → E e) : Ensures E (BuildM.liftExcept x) sc w Q := by
  cases x with
  | ok a => exact hok a rfl
  | error e => exact herr e rfl

theorem changeGraph_congr {r : Except Error (α × Graph)}
    (hf : f w.graph = r) : changeGraph f sc w = changeGraph (fun _ => r) sc w := by
  subst hf
  rfl

theorem ensures_changeGraph {g : Graph}
    (hf : f w.graph = .ok (a, g)) (h : Q a { w with graph := g }) :
    Ensures E (changeGraph f) sc w Q := by
  rw [Ensures, changeGraph_congr hf]
  exact h

theorem ensures_changeTable {f : Table → Table} {Q : Unit → Work → Prop}
    (h : Q () { w with table := f w.table }) : Ensures E (changeTable f) sc w Q := h

theorem ensures_changeReport {f : Report → Report} {Q : Unit → Work → Prop}
    (h : Q () { w with report := f w.report }) : Ensures E (changeReport f) sc w Q := h

theorem ensures_addNode {k : NodeKind} {I : List NodeId} {Q : NodeId → Work → Prop}
    (h : Q ⟨w.graph.nodeCount⟩ { w with graph := (w.graph.addNode k I).2 }) :
    Ensures E (addNode k I) sc w Q := ensures_changeGraph rfl h

theorem ensures_setSnapshot {s : Snapshot} {Q : Unit → Work → Prop} (hn : w.graph.contains n = true)
    (h : Q () { w with graph := w.graph.modifyNode n fun x => { x with snapshot := some s } }) :
    Ensures E (setSnapshot n s) sc w Q := by
  refine ensures_changeGraph (g := w.graph.modifyNode n fun x => { x with snapshot := some s }) ?_ h
  simp only [Graph.setSnapshot, hn, if_true]
  rfl

theorem ensures_addPhiInput {m v : NodeId} {Q : Unit → Work → Prop}
    (hn : w.graph.kind? n = some (.phi m))
    (h : Q () { w with graph := w.graph.modifyNode n fun x => { x with inputs := x.inputs ++ [v] } }) :
    Ensures E (addPhiInput n v) sc w Q := by
  refine ensures_changeGraph
    (g := w.graph.modifyNode n fun x => { x with inputs := x.inputs ++ [v] }) ?_ h
  simp only [Graph.addPhiInput, hn]
  rfl

theorem Ensures.ok (h : Ensures E act sc w Q) (heq : act sc w = .ok a w') : Q a w' := by
  unfold Ensures at h
  rw [heq] at h
  exact h

theorem Ensures.error (h : Ensures E act sc w Q) (heq : act sc w = .error e w') : E e := by
  unfold Ensures at h
  rw [heq] at h
  exact h

end Rules

/-! ## Loops -/

section Loops

variable {α β : Type} {E : Error → Prop} {sc : Scope}
variable {xs : List α} {body : α → PUnit → BuildM (ForInStep PUnit)} {w : Work}

theorem ensures_forIn (I : List α → Work → Prop) (hbody : ∀ x rest w, I (x :: rest) w →
      Ensures E (body x ⟨⟩) sc w fun r w' => r = .yield ⟨⟩ ∧ I rest w')
    (hw : I xs w) : Ensures E (forIn xs ⟨⟩ body) sc w fun _ w' => I [] w' := by
  induction xs generalizing w with
  | nil => exact hw
  | cons x xs ih =>
    rw [List.forIn_cons]
    refine (hbody x xs w hw).bind fun r w' h => ?_
    rw [h.1]
    exact ih h.2

theorem ensures_forIn_index (I : Nat → Work → Prop) (hbody : ∀ k x w, xs[k]? = some x → I k w →
      Ensures E (body x ⟨⟩) sc w fun r w' => r = .yield ⟨⟩ ∧ I (k + 1) w')
    (hw : I 0 w) : Ensures E (forIn xs ⟨⟩ body) sc w fun _ w' => I xs.length w' := by
  induction xs generalizing I w with
  | nil => exact hw
  | cons x xs ih =>
    rw [List.forIn_cons]
    refine (hbody 0 x w rfl hw).bind fun r w' h => ?_
    rw [h.1]
    exact ih (fun k => I (k + 1)) (fun k => hbody (k + 1)) h.2

theorem ensures_forBlocks {m : BlockMap} {act : Block → BuildM Unit} (I : Nat → Work → Prop)
    (hact : ∀ k w, k < m.size → I k w → Ensures E (act (m.block ⟨k⟩)) sc w fun _ w' => I (k + 1) w')
    (hw : I 0 w) : Ensures E (forIn m.blocks PUnit.unit fun b _ => do
      act b
      pure (ForInStep.yield PUnit.unit)) sc w fun _ w' => I m.size w' := by
  rw [← Array.forIn_toList]
  refine (ensures_forIn_index I (fun k x w hx hI => ?_) hw).mono fun _ w' h => ?_
  · rw [Array.getElem?_toList] at hx
    have hblock : m.block ⟨k⟩ = x := by rw [BlockMap.block, hx, Option.getD_some]
    exact (hblock ▸ hact k w (Array.getElem?_eq_some_iff.1 hx).1 hI).bind fun _ _ h =>
      ensures_pure ⟨rfl, h⟩
  · rwa [Array.length_toList] at h

theorem ensures_mapM {f : α → BuildM β} (I : List α → List β → Work → Prop)
    (hf : ∀ x rest d w, I (x :: rest) d w → Ensures E (f x) sc w fun y w' => I rest (d ++ [y]) w')
    {d : List β} (hw : I xs d w) : Ensures E (xs.mapM f) sc w fun ys w' => I [] (d ++ ys) w' := by
  induction xs generalizing d w with
  | nil => simpa using ensures_pure (by simpa using hw)
  | cons x xs ih =>
    rw [List.mapM_cons]
    refine (hf x xs d w hw).bind fun y w' h => ?_
    refine (ih h).bind fun ys w'' h' => ?_
    exact ensures_pure (by simpa using h')

theorem ensures_foldlM {σ : Type} {f : σ → α → BuildM σ} (I : List α → σ → Work → Prop)
    (hf : ∀ x rest s w, I (x :: rest) s w → Ensures E (f s x) sc w fun s' w' => I rest s' w')
    {s : σ} (hw : I xs s w) : Ensures E (xs.foldlM f s) sc w fun s' w' => I [] s' w' := by
  induction xs generalizing s w with
  | nil => exact hw
  | cons x xs ih =>
    rw [List.foldlM_cons]
    exact (hf x xs s w hw).bind fun s' w' h => ih h

end Loops

end BuildM

end StackLift
