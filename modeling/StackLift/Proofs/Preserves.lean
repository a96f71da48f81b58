import StackLift.Proofs.Exits

/-!
# What actions preserve

`Preserves R sc act` says that `R` relates every work that `act` starts on to the work that it ends
with. If
`R` is a preorder, then sequences, branches and loops keep what their parts keep. These rules are
instances,
and so is what is known of each action, so instance search follows an action through its parts. The first
relation to be kept is that the table stays as it is.

Errors are of no interest here, so all statements are about the answers of a build (`Yields`).
-/
namespace StackLift

open BuildM

/-- A report accounts for nodes of this kind. -/
@[reducible] def NodeKind.isReported : NodeKind → Bool
  | .invoke .. | .invokeWithException .. | .deoptimize .unresolved | .deoptimize .forced => true
  | _ => false

-- a long sequence takes as many instances as it has actions
set_option synthInstance.maxSize 1000
set_option synthInstance.maxHeartbeats 200000

namespace BuildM

/-- What holds of every answer of `act`. -/
abbrev Yields {α : Type} (act : BuildM α) (sc : Scope) (w : Work) (Q : α → Work → Prop) : Prop :=
  Ensures (fun _ => True) act sc w Q

section Rules

variable {α : Type} {sc : Scope} {w : Work} {Q : α → Work → Prop}

theorem yields_demand {o : Option α} {d : Defect} (h : ∀ a, o = some a → Q a w) :
    Yields (demand o d) sc w Q := by
  cases o with
  | none => trivial
  | some a => exact h a rfl

theorem yields_liftExcept {x : Except Error α} (h : ∀ a, x = .ok a → Q a w) :
    Yields (BuildM.liftExcept x) sc w Q := ensures_liftExcept h fun _ _ => trivial

theorem yields_changeGraph {f : Graph → Except Error (α × Graph)}
    (h : ∀ a g, f w.graph = .ok (a, g) → Q a { w with graph := g }) : Yields (changeGraph f) sc w Q := by
  cases hf : f w.graph with
  | ok r => exact ensures_changeGraph hf (h _ _ hf)
  | error e =>
    rw [Yields, Ensures, changeGraph_congr hf]
    trivial

end Rules

/-! ## Properties of sequences -/

/-- A property of actions that sequences inherit from their parts, as long as those look neither at the
numbers in the graph nor at what two runs of a build may differ in. -/
class Modular (sc : outParam Scope) (P : (α : Type) → BuildM α → Prop) : Prop where
  pure {α : Type} (a : α) : P α (pure a)
  throw {α β : Type} (e : Error) (f : α → BuildM β) : P β (throw e >>= f)
  bind {α β : Type} {act : BuildM α} {f : α → BuildM β} : P α act → (∀ a, P β (f a)) → P β (act >>= f)
  read {α : Type} {f : Scope → BuildM α} : P α (f sc) → (∀ profile maxNodeCount maxInliningDepth,
    f { sc with
      env := { sc.env with profile }
      config := { sc.config with maxNodeCount, maxInliningDepth } } = f sc) → P α (read >>= f)
  look {α : Type} {f : Work → BuildM α} : (∀ w, P α (f w)) → (∀ (w : Work) edges frequencies,
    f { w with graph := { w.graph with edges, frequencies } } = f w) → P α (get >>= f)

/-- The action has the property. -/
class Sat (P : (α : Type) → BuildM α → Prop) {α : Type} (act : BuildM α) : Prop where
  sat : P α act

section Sat

variable {α β σ : Type} {P : (α : Type) → BuildM α → Prop} {sc : Scope} [Modular sc P]
variable {d : Defect} {pt : Point} {p : Position}

instance sat_bind {act : BuildM α} {f : α → BuildM β} [h : Sat P act] [k : ∀ a, Sat P (f a)] :
    Sat P (act >>= f) := ⟨Modular.bind h.sat fun a => (k a).sat⟩

instance {c : Prop} [Decidable c] {act bct : BuildM α} [Sat P act] [Sat P bct] :
    Sat P (if c then act else bct) := by
  split <;> infer_instance

instance (a : α) : Sat P (pure a) := ⟨Modular.pure a⟩

instance sat_throw (e : Error) : Sat P (throw e : BuildM α) := ⟨Modular.throw e pure⟩

instance (f : Fault) : Sat P (verify p f : BuildM α) := inferInstanceAs (Sat P (throw _))

instance : Sat P (malformed d : BuildM α) := inferInstanceAs (Sat P (throw _))

-- what comes behind an error does not matter
instance (x : Fault) (f : α → BuildM β) : Sat P (verify p x >>= f) := ⟨Modular.throw _ f⟩

instance (f : α → BuildM β) : Sat P (malformed d >>= f) := ⟨Modular.throw _ f⟩

theorem sat_read {f : Scope → BuildM α} [h : Sat P (f sc)] (hf : ∀ profile maxNodeCount maxInliningDepth,
    f { sc with
      env := { sc.env with profile }
      config := { sc.config with maxNodeCount, maxInliningDepth } } = f sc) : Sat P (read >>= f) :=
  ⟨Modular.read h.sat hf⟩

omit [Modular sc P] in
theorem sat_look [Modular sc P] {f : Work → BuildM α} [h : ∀ w, Sat P (f w)]
    (hf : ∀ (w : Work) edges frequencies,
      f { w with graph := { w.graph with edges, frequencies } } = f w) :
    Sat P (get >>= f) := ⟨Modular.look (fun w => (h w).sat) hf⟩

instance (o : Option α) : Sat P (demand o d) := by
  unfold demand
  split <;> infer_instance

instance (r : Except Error α) : Sat P (BuildM.liftExcept r) := by
  unfold BuildM.liftExcept
  split <;> infer_instance

instance sat_forIn {xs : List α} {body : α → PUnit → BuildM (ForInStep PUnit)}
    [h : ∀ x, Sat P (body x ⟨⟩)] : Sat P (forIn xs ⟨⟩ body) := by
  induction xs with
  | nil => exact inferInstanceAs (Sat P (pure _))
  | cons x xs ih =>
    rw [List.forIn_cons]
    refine sat_bind (k := fun r => ?_)
    cases r <;> infer_instance

instance sat_mapM {xs : List α} {f : α → BuildM β} [∀ a, Sat P (f a)] : Sat P (xs.mapM f) := by
  induction xs with
  | nil => exact inferInstanceAs (Sat P (pure _))
  | cons a xs ih =>
    rw [List.mapM_cons]
    infer_instance

instance sat_arrayMapM {xs : Array α} {f : α → BuildM β} [h : ∀ a, Sat P (f a)] : Sat P (xs.mapM f) := by
  rw [Array.mapM_eq_mapM_toList]
  exact inferInstanceAs (Sat P (xs.toList.mapM f >>= fun l => pure l.toArray))

instance {xs : List α} {f : σ → α → BuildM σ} [∀ s a, Sat P (f s a)] (s : σ) : Sat P (xs.foldlM f s) := by
  induction xs generalizing s with
  | nil => exact inferInstanceAs (Sat P (pure _))
  | cons a xs ih =>
    rw [List.foldlM_cons]
    infer_instance

instance sat_mapValuesM {f : Frame} {act : Value → BuildM Value} [h : ∀ v, Sat P (act v)] :
    Sat P (f.mapValuesM act) := by
  have (o : Option Value) : Sat P (match o with
      | some v => return some (← act v)
      | none => return none) := by
    split <;> infer_instance
  unfold Frame.mapValuesM
  infer_instance

instance {xs : List α} {act : α → StateT σ BuildM β} [∀ a s, Sat P ((act a).run s)] (s : σ) :
    Sat P ((xs.mapM act).run s) := by
  induction xs generalizing s with
  | nil => exact inferInstanceAs (Sat P (pure _))
  | cons a xs ih =>
    simp only [List.mapM_cons, StateT.run_bind, StateT.run_pure]
    infer_instance

instance {f : Frame} {act : Value → StateT σ BuildM Value} [∀ v s, Sat P ((act v).run s)] (s : σ) :
    Sat P ((f.mapValuesM act).run s) := by
  have (o : Option Value) (s : σ) : Sat P (StateT.run (match o with
      | some v => return some (← act v)
      | none => return none) s) := by
    split
    · exact inferInstanceAs (Sat P ((act _).run s >>= fun r => pure (some r.1, r.2)))
    · exact inferInstanceAs (Sat P (pure _))
  unfold Frame.mapValuesM
  simp only [StateT.run_bind, StateT.run_pure]
  infer_instance

/-! ## Actions that only look -/

instance (n : NodeId) (p : NodeKind → Bool) : Sat P (kindIs n p) := sat_look fun _ _ _ => rfl

instance (b : BlockId) : Sat P ( entry? b) := sat_look fun _ _ _ => rfl

instance : Sat P (blockAt p) := sat_read fun _ _ _ => rfl

instance (act : FrameM α) : Sat P (pt.onFrame act) := by
  unfold Point.onFrame
  split <;> infer_instance

instance : Sat P pt.pop := inferInstanceAs (Sat P (pt.onFrame _))

instance (k : ValueKind) : Sat P (pt.popKind k) := inferInstanceAs (Sat P (pt.onFrame _))

instance : Sat P pt.takeLast := sat_read fun _ _ _ => rfl

instance (f : Frame) : Sat P (pendingException f p) := by
  unfold pendingException
  split <;> infer_instance

end Sat

/-! ## Nodes and edges -/

/-- Which kinds are reported is decided by instance search. -/
class IsFalse (b : Bool) : Prop where
  eq : b = false

instance : IsFalse false := ⟨rfl⟩

/-- What is done to the graph without a word in the report has the property. -/
class Edits (P : (α : Type) → BuildM α → Prop) : Prop where
  addNode {k : NodeKind} [IsFalse k.isReported] (I : List NodeId) : Sat P (addNode k I)
  addEdge (a b : NodeId) (k : EdgeKind) (p : Float) : Sat P (addEdge a b k p)
  addPhiInput (n v : NodeId) : Sat P (addPhiInput n v)
  attachSnapshot (n : NodeId) (f : Frame) (p : Position) : Sat P (attachSnapshot n f p)
  dropLocal (m : NodeId) (old : Value) : Sat P (dropLocal m old)

attribute [instance] Edits.addNode Edits.addEdge Edits.addPhiInput Edits.attachSnapshot

section Edits

variable {P : (α : Type) → BuildM α → Prop} {sc : Scope} [Modular sc P] [Edits P]
variable {f g : Frame} {ends l : Nat} {a b m n : NodeId} {k : NodeKind} {p : Position} {pt : Point}
  {r : DeoptReason}

instance (v : Int64) : Sat P (constant v) := inferInstanceAs (Sat P (addNode _ _))

instance : Sat P (follow a b) := inferInstanceAs (Sat P (addEdge _ _ _ _))

instance : Sat P (snapshotMerge n f p) := by
  unfold snapshotMerge
  infer_instance

instance [IsFalse (NodeKind.deoptimize r).isReported] : Sat P (addDeopt r f p) := by
  unfold addDeopt
  infer_instance

instance [IsFalse k.isReported] (I : List NodeId) : Sat P (pt.append k I) := by
  dsimp only [Point.append]
  infer_instance

instance : Sat P (exceptionObject f p) := by
  unfold exceptionObject
  infer_instance

instance (op : ArithOp) : Sat P (unary op pt) := by
  dsimp only [unary]
  infer_instance

instance : Sat P (beginStub n) := by
  unfold beginStub
  infer_instance

instance (c : Option ExitChain) : Sat P (prependExits c n) := by
  unfold prependExits
  split <;> infer_instance

instance (exit header : NodeId) (mark : Option Nat) (v : Value) (s : List (NodeId × NodeId)) :
    Sat P ((proxyOf exit header mark v).run s) := by
  rw [run_proxyOf]
  refine sat_look (h := fun w => ?_) fun _ _ _ => rfl
  split
  · split <;> infer_instance
  · infer_instance

instance (s : Frame × Option ExitChain) : Sat P (exitLoop p s l) := by
  obtain ⟨f, _ | c⟩ := s <;> exact sat_look fun _ _ _ => rfl

instance (a b : BlockId) : Sat P (exitLoops a b f p) := sat_read fun _ _ _ => rfl

instance (old new : Value) : Sat P (mergeValue m ends old new) := sat_look fun _ _ _ => rfl

instance (old new : Option Value) : Sat P (mergeLocal m ends old new) := by
  unfold mergeLocal
  split
  · infer_instance
  · split
    · dsimp only
      split
      · infer_instance
      · exact Edits.dropLocal _ _
    · exact Edits.dropLocal _ _

instance : Sat P (mergeFrames m f g p) := by
  dsimp only [mergeFrames]
  exact sat_bind (k := fun _ => sat_look fun _ _ _ => rfl)

end Edits

/-! ## Ways to blocks -/

section Ways

variable {P : (α : Type) → BuildM α → Prop} {sc : Scope} [Modular sc P] [Edits P]
  [∀ a b f p, Sat P (createTarget a b f p)]
variable {a b : BlockId} {f : Frame} {odds : Float} {n : NodeId} {p : Position} {pt : Point} {v : Value}

instance : Sat P (resolveTarget a b f odds p) := sat_read fun _ _ _ => rfl

instance (k : EdgeKind) : Sat P (addBranch a n b f odds k p) := by
  unfold addBranch
  infer_instance

instance : Sat P (pt.jump b) := by
  dsimp only [Point.jump]
  infer_instance

instance : Sat P (dispatchException b n f v p) := sat_read fun _ _ _ => rfl

instance (t : TypeId) (skipped : Bool) (h next : BlockId) :
    Sat P (testHandler b n f v t skipped h next p) := by
  dsimp only [testHandler]
  infer_instance

instance : Sat P (zeroCheck v pt) := by
  dsimp only [zeroCheck]
  infer_instance

instance (value : Option Value) : Sat P (emitReturn value pt) := by
  cases value with
  | none => exact sat_read fun _ _ _ => rfl
  | some v =>
    refine sat_read (h := ?_) fun _ _ _ => rfl
    dsimp only
    split
    · infer_instance
    · split
      · infer_instance
      · refine sat_bind (k := fun r => ?_)
        split <;> infer_instance

instance (m : MethodId) (e : Exit) : Sat P (resumeUnwound pt m e) := by
  unfold resumeUnwound
  infer_instance

end Ways

/-! ## Questions to plugins -/

section Questions

variable {P : (α : Type) → BuildM α → Prop} {sc : Scope} [Modular sc P] [∀ c, Sat P (consult c)]

instance (callee : MethodDecl) (plugins : List InlinePlugin) : Sat P (askInlining callee plugins) := by
  induction plugins with
  | nil => exact inferInstanceAs (Sat P (pure _))
  | cons plugin rest ih =>
    refine sat_read (h := sat_bind (k := fun _ => ?_)) fun _ _ _ => rfl
    split <;> infer_instance

instance (call : Call) : Sat P (shouldInline call) := by
  have (d : InlineDecision) : Sat P (match d with
      | .inline => return call.target.body.isSome
      | .doNotInline => return false
      | .noDecision => return fitsPolicy sc call.target : BuildM Bool) := by
    split <;> infer_instance
  exact sat_read fun _ _ _ => rfl

end Questions

/-! ## Relations that are kept -/

/-- `R` relates every work that `act` starts on to the one that it ends with. -/
def Relates (R : Work → Work → Prop) (sc : Scope) (α : Type) (act : BuildM α) : Prop :=
  ∀ w, Yields act sc w fun _ w' => R w w'

abbrev Preserves {α : Type} (R : Work → Work → Prop) (sc : Scope) (act : BuildM α) : Prop :=
  Sat (Relates R sc) act

section Preserves

variable {α : Type} {R : Work → Work → Prop} {sc : Scope}

theorem Sat.keeps {act : BuildM α} (h : Preserves R sc act) (w : Work) :
    Yields act sc w fun _ w' => R w w' :=
  h.sat w

instance preserves_get {f : Work → BuildM α} [h : ∀ w, Preserves R sc (f w)] :
    Preserves R sc (get >>= f) :=
  ⟨fun w => (h w).keeps w⟩

instance preserves_read {f : Scope → BuildM α} [h : Preserves R sc (f sc)] :
    Preserves R sc (read >>= f) := ⟨h.keeps⟩

instance [IsPreorder Work R] : Modular sc (Relates R sc) where
  pure _ w := refl w
  throw _ _ _ := trivial
  bind h hf w := (h w).bind fun a w' hw' => (hf a w').mono fun _ _ hw'' => IsTrans.trans _ _ _ hw' hw''
  read h _ := h
  look h _ w := h w w

instance [IsPreorder Work R] (p : Position) : Preserves R sc (checkBudget p) := by
  dsimp only [checkBudget]
  infer_instance

end Preserves

/-! ## Actions that leave the table alone -/

/-- The table stays as it is. -/
def SameTable (w w' : Work) : Prop := w'.table = w.table

instance : IsPreorder Work SameTable where
  refl _ := rfl
  trans _ _ _ h h' := h'.trans h

section Quiet

variable {α : Type} {sc : Scope} {w : Work}

theorem quiet {act : BuildM α} [h : Preserves SameTable sc act] :
    Yields act sc w fun _ w' => w'.table = w.table :=
  h.keeps w

instance (f : Graph → Except Error (α × Graph)) : Preserves SameTable sc (changeGraph f) :=
  ⟨fun _ => yields_changeGraph fun _ _ _ => rfl⟩

instance (k : NodeKind) (I : List NodeId) : Preserves SameTable sc (addNode k I) :=
  inferInstanceAs (Preserves SameTable sc (changeGraph _))

instance (n : NodeId) (s : Snapshot) : Preserves SameTable sc (setSnapshot n s) :=
  inferInstanceAs (Preserves SameTable sc (changeGraph _))

instance : Edits (Relates SameTable sc) where
  addNode _ := inferInstance
  addEdge _ _ _ _ := inferInstanceAs (Preserves SameTable sc (changeGraph _))
  addPhiInput _ _ := inferInstanceAs (Preserves SameTable sc (changeGraph _))
  attachSnapshot _ _ _ := preserves_read
  dropLocal _ _ := preserves_get

end Quiet

end BuildM

end StackLift
