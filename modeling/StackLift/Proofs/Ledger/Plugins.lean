import StackLift.Plugin.Recipe
import StackLift.Proofs.Ledger.Actions

/-!
# What plugins leave behind

A call plugin may be any function on the bench, so nothing can be said about what it leaves behind unless
it is known how it was written. `PluginM.Plain` are the plugins that touch the bench with the
operations it
offers and nothing else; what they look at and how they go on is up to them. They add nodes, and the
snapshots that these get are snapshots of the method that the call is in. Recipes are plain.
-/
namespace StackLift

open BuildM

/-- Written with the operations of the bench. -/
inductive PluginM.Plain : {α : Type} → PluginM α → Prop where
  | pure {α : Type} (a : α) : Plain (Pure.pure a)
  | bind {α β : Type} {act : PluginM α} {f : α → PluginM β} (h : Plain act) (hf : ∀ a, Plain (f a)) :
      Plain (act >>= f)
  | throw {α : Type} (e : Error) : Plain (throw e : PluginM α)
  | tryCatch {α : Type} {act : PluginM α} {f : Error → PluginM α} (h : Plain act)
    (hf : ∀ e, Plain (f e)) :
      Plain (tryCatch act f)
  | read : Plain (read : PluginM Site)
  | get : Plain (get : PluginM Bench)
  | addValue (kind : NodeKind) (inputs : List NodeId) : Plain (PluginM.addValue kind inputs)
  | push (v : Value) : Plain (PluginM.push v)
  | append (kind : NodeKind) (inputs : List NodeId) : Plain (PluginM.append kind inputs)
  | deoptimize (reason : DeoptReason) : Plain (PluginM.deoptimize reason)

/-- All call plugins are plain. -/
def Plugins.Plain (plugins : Plugins) : Prop :=
  ∀ plugin ∈ plugins.calls, ∀ call, PluginM.Plain (plugin.handle call)

/-! ## Recipes -/

section Recipes

variable {α β σ : Type} {xs : List α}

theorem PluginM.Plain.mapM {f : α → PluginM β} (h : ∀ x, Plain (f x)) : Plain (xs.mapM f) := by
  induction xs with
  | nil => exact .pure _
  | cons x xs ih =>
    rw [List.mapM_cons]
    exact .bind (h x) fun _ => .bind ih fun _ => .pure _

theorem PluginM.Plain.foldlM {f : σ → α → PluginM σ} (h : ∀ s x, Plain (f s x)) (s : σ) :
    Plain (xs.foldlM f s) := by
  induction xs generalizing s with
  | nil => exact .pure _
  | cons x xs ih =>
    rw [List.foldlM_cons]
    exact .bind (h s x) fun s' => ih s'

theorem Operand.resolve_plain (call : Call) (made : Array NodeId) (o : Operand) :
    PluginM.Plain (o.resolve call made) := by
  unfold resolve
  split
  · exact .pure _
  · exact .throw _

theorem Action.run_plain (call : Call) (made : Array NodeId) (a : Action) :
    PluginM.Plain (a.run call made) := by
  have hresolve : ∀ operands : List Operand, PluginM.Plain (operands.mapM (Operand.resolve call made)) :=
    fun _ => .mapM (Operand.resolve_plain call made)
  have hconstant : ∀ v, PluginM.Plain (PluginM.constant v) := fun v => .addValue (.constant v) []
  cases a with
  | const v => exact .bind (hconstant v) fun _ => .pure _
  | value kind operands =>
    exact .bind (hresolve operands) fun I => .bind (.addValue kind I) fun _ => .pure _
  | append kind operands =>
    exact .bind (hresolve operands) fun I => .bind (.append kind I) fun _ => .pure _
  | deopt reason => exact .bind (.deoptimize reason) fun _ => .pure _
  | push v kind => exact .bind (v.resolve_plain call made) fun n => .bind (.push _) fun _ => .pure _
  | position => exact .bind .read fun _ => .bind (hconstant _) fun _ => .pure _
  | depth => exact .bind .get fun _ => .bind (hconstant _) fun _ => .pure _
  | allocated => exact .bind .get fun _ => .bind (hconstant _) fun _ => .pure _
  | receiver =>
    unfold run
    dsimp only
    split
    · exact .pure _
    · exact .bind (hconstant _) fun _ => .pure _
  | fail reason => exact .throw _

theorem Recipe.run_plain (r : Recipe) (call : Call) : PluginM.Plain (r.run call) :=
  .bind (.foldlM (Action.run_plain call) #[]) fun _ => .pure _

theorem Recipe.plugin_plain (name : String) (scope : PluginScope) (claim : Bool)
    (m : Option MethodId) (r : Recipe)
    (call : Call) : PluginM.Plain ((r.plugin name scope claim m).handle call) := by
  unfold Recipe.plugin
  dsimp only
  split
  · exact .bind (r.run_plain call) fun _ => .pure _
  · exact .pure _

end Recipes

/-! ## Benches -/

/-- The bench at the end, whether the plugin fails or not. -/
def PluginM.after {α : Type} (act : PluginM α) (site : Site) (b : Bench) : Bench :=
  match act site b with
  | .ok _ b' => b'
  | .error _ b' => b'

/-- The outline of the method that the call is in. -/
def Site.outline (s : Site) : Outline :=
  ⟨s.method, s.callers.elim [] fun c => c.chain.map Activation.place⟩

namespace PluginM

/-- The graph drifts, whether the plugin fails or not. -/
def Drifts {α : Type} (act : PluginM α) (site : Site) (b : Bench) : Prop :=
  b.graph.Drifts site.outline (act.after site b).graph

variable {α β : Type} {site : Site} {b : Bench} {act : PluginM α}

theorem Drifts.bind {f : α → PluginM β} (h : Drifts act site b)
    (hf : ∀ a b', Drifts (f a) site b') : Drifts (act >>= f) site b := by
  have hrun : (act >>= f) site b = EStateM.bind (act site) (fun a => f a site) b := rfl
  unfold Drifts after at h ⊢
  rw [hrun, EStateM.bind]
  cases ha : act site b with
  | ok a b1 =>
    rw [ha] at h
    exact h.trans (hf a b1)
  | error e b1 =>
    rw [ha] at h
    exact h

theorem Drifts.tryCatch {f : Error → PluginM α} (h : Drifts act site b)
    (hf : ∀ e b', Drifts (f e) site b') : Drifts (tryCatch act f) site b := by
  have hrun : (MonadExcept.tryCatch act f) site b = EStateM.tryCatch (act site)
    (fun e => f e site) b := rfl
  unfold Drifts after at h ⊢
  rw [hrun, EStateM.tryCatch]
  cases ha : act site b with
  | ok a b1 =>
    rw [ha] at h
    exact h
  | error e b1 =>
    rw [ha] at h
    exact h.trans (hf e b1)

theorem drifts_pure (a : α) : Drifts (Pure.pure a) site b := .refl _ _

theorem drifts_throw (e : Error) : Drifts (throw e : PluginM α) site b := .refl _ _

theorem drifts_read_bind {f : Site → PluginM α} (h : Drifts (f site) site b) :
    Drifts (read >>= f) site b := h

theorem drifts_get_bind {f : Bench → PluginM α} (h : Drifts (f b) site b) : Drifts (get >>= f) site b := h

theorem drifts_addValue (k : NodeKind) (I : List NodeId) : Drifts (addValue k I) site b :=
  (Graph.drifts_addNode k I).1

theorem drifts_liftGraph {f : Graph → Except Error (α × Graph)}
    (h : ∀ a g, f b.graph = .ok (a, g) → b.graph.Drifts site.outline g) :
    Drifts (liftGraph f) site b := by
  unfold liftGraph
  refine drifts_get_bind ?_
  cases hf : f b.graph with
  | error e => exact drifts_throw e
  | ok r => exact h r.1 r.2 hf

theorem drifts_append (k : NodeKind) (I : List NodeId) : Drifts (append k I) site b := by
  have hend : ∀ (n : NodeId) (b' : Bench), Drifts (do
      modify fun b : Bench => { b with last := some n }
      return n) site b' := fun n b' => .refl _ _
  unfold append
  refine drifts_get_bind ?_
  cases b.last with
  | none => exact drifts_throw _
  | some last =>
    refine (drifts_addValue k I).bind fun n b1 => (drifts_liftGraph fun e g hg => ?_).bind fun _ b2 => ?_
    · exact (Graph.addEdge_drifts hg).1
    · dsimp only
      split
      · refine drifts_read_bind (drifts_get_bind ((drifts_liftGraph fun u g hg => ?_).bind
          fun _ b3 => hend n b3))
        obtain ⟨g', hs, hg⟩ := ok_of_bind hg
        cases hg
        refine (Graph.setSnapshot_drifts hs (.inl ?_)).1
        unfold Frame.snapshot Snapshot.outline Site.outline
        cases site.callers <;> rfl
      · exact hend n b2

theorem Plain.drifts (h : Plain act) (site : Site) (b : Bench) : Drifts act site b := by
  induction h generalizing b with
  | pure a => exact drifts_pure a
  | bind _ _ ih ihf => exact (ih b).bind fun a b' => ihf a b'
  | throw e => exact drifts_throw e
  | tryCatch _ _ ih ihf => exact (ih b).tryCatch fun e b' => ihf e b'
  | read => exact .refl _ _
  | get => exact .refl _ _
  | addValue k I => exact drifts_addValue k I
  | push v => exact .refl _ _
  | append k I => exact drifts_append k I
  | deoptimize r => exact (drifts_append _ _).bind fun n b' => .refl _ _

end PluginM

/-! ## Calls that plugins lift -/

section Calls

variable {sc : Scope} {w : Work}

theorem ensures_when_bind {α : Type} {E : Error → Prop} {c : Prop} [Decidable c] {act : BuildM PUnit}
    {f : PUnit → BuildM α} {Q : Work → Prop} {P : α → Work → Prop}
    (h : Ensures E act sc w fun _ w' => Q w')
    (hw : Q w) (hf : ∀ w', Q w' → Ensures E (f ⟨⟩) sc w' P) :
    Ensures E (if c then act >>= f else f ⟨⟩) sc w P := by
  split
  · exact h.bind fun _ w' hw' => hf w' hw'
  · exact hf w hw

theorem tryPlugin_calm {plugin : CallPlugin} (hplain : ∀ call, PluginM.Plain (plugin.handle call))
    (hsc : plugin ∈ sc.env.plugins.calls) (call : Call) (pt : Point) :
    Yields (tryPlugin plugin call pt) sc w fun r w' => Calm sc [] w w' ∧ r.2.position = pt.position := by
  have hcalm : ∀ {w' : Work}, w'.report = w.report → w.graph.Drifts sc.outline w'.graph →
    Calm sc [] w w' := by
    intro w' hreport hdrifts
    refine ⟨hreport, hdrifts, fun ho => ?_⟩
    rw [ho.calls] at hsc
    cases hsc
  unfold tryPlugin
  refine ensures_read_bind (ensures_when_bind (Q := fun w' => w'.report = w.report ∧ w'.graph = w.graph)
    ⟨rfl, rfl⟩ ⟨rfl, rfl⟩ fun w1 h1 => ?_)
  refine Ensures.bind (Q := fun g w' => g = w.graph ∧ w'.report = w.report) ⟨h1.2, h1.1⟩ fun g w2 h2 => ?_
  obtain ⟨rfl, hreport⟩ := h2
  dsimp only
  have hdrifts := (hplain call).drifts { method := sc.id, position := pt.position, callers := sc.callers }
    { graph := w.graph, frame := pt.frame, last := pt.last }
  unfold PluginM.Drifts PluginM.after at hdrifts
  unfold ReaderT.run EStateM.run
  cases hrun : plugin.handle call { method := sc.id, position := pt.position, callers := sc.callers }
      { graph := w.graph, frame := pt.frame, last := pt.last } with
  | error e b => trivial
  | ok claimed b =>
    rw [hrun] at hdrifts
    refine Ensures.bind (Q := fun _ w' => Calm sc [] w w') (hcalm hreport hdrifts) fun _ w3 h3 => ?_
    generalize pt.frame.depth + (if call.returns = .void then 0 else 1) = expected
    split
    · trivial
    · exact ensures_pure ⟨h3, rfl⟩

theorem tryPlugins_calm (hplain : sc.env.plugins.Plain) {plugins : List CallPlugin}
    (hsub : ∀ plugin ∈ plugins, plugin ∈ sc.env.plugins.calls) (call : Call) (pt : Point) :
    Yields (tryPlugins call plugins pt) sc w fun r w' => Calm sc [] w w' ∧ r.2.position = pt.position ∧
      (plugins = [] → r.1 = none) := by
  induction plugins generalizing pt w with
  | nil => exact ensures_pure ⟨.refl sc w, rfl, fun _ => rfl⟩
  | cons plugin rest ih =>
    have hrest : ∀ p ∈ rest, p ∈ sc.env.plugins.calls := fun p hp => hsub p (List.mem_cons_of_mem _ hp)
    have hthis : plugin ∈ sc.env.plugins.calls := hsub plugin List.mem_cons_self
    unfold tryPlugins
    split
    · refine (tryPlugin_calm (hplain plugin hthis) hthis call pt).bind fun r w1 h1 => ?_
      obtain ⟨h1, hpos⟩ := h1
      dsimp only
      split
      · exact ensures_pure ⟨h1, hpos, by rintro ⟨⟩⟩
      · exact (ih hrest r.2).mono fun r' w2 h2 => ⟨h1.trans h2.1, h2.2.1.trans hpos, by rintro ⟨⟩⟩
    · exact (ih hrest pt).mono fun r' w2 h2 => ⟨h2.1, h2.2.1, by rintro ⟨⟩⟩

end Calls

end StackLift
