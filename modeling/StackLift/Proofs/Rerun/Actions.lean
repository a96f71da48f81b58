import StackLift.Proofs.Calls
import StackLift.Proofs.Depths
import StackLift.Proofs.Rerun.Graph

/-!
# The same build twice

A `Rerun` repeats a build with another profile and other limits. `Mirrors x sc act bct` says that `bct`
in the second run does what `act` does in the first: from works that are alike they come to the same
answer and to works that are alike, or to the same error. Works are alike if they differ at most in the
numbers of their graphs, compared through `x.view`. Only the first run may stop on its own, with an
error that `x` excuses in view of the bodies that the second run parses.

The rules are those of a program logic: `bind` for sequences, one rule for each loop, one lemma for each
action. Only a few actions look at what a rerun may change: the limits are read where a block or an
inlined method is entered and where a call would nest too deep, the profile at branches, at switches and
where something may throw. Everything else goes through with the rules alone: these are instances of
`Repeats`, and instance search follows a sequence of actions from one to the next.
-/
namespace StackLift

-- a long sequence takes as many instances as it has actions
set_option synthInstance.maxSize 1000
set_option synthInstance.maxHeartbeats 200000

/-- A second run of a build: what it changes, and how far the two may drift apart. -/
structure Rerun where
  profile : Profile
  maxNodeCount : Nat
  maxInliningDepth : Nat
  view : Float → Float                  -- what is compared of a number
  excused : Error → List Body → Prop    -- what the first run may fail with on its own
  excused_more : ∀ {e l l'}, excused e l → l ⊆ l' → excused e l'

def Env.rerun (x : Rerun) (env : Env) : Env := { env with profile := x.profile }

def Config.rerun (x : Rerun) (config : Config) : Config :=
  { config with maxNodeCount := x.maxNodeCount, maxInliningDepth := x.maxInliningDepth }

def Scope.rerun (x : Rerun) (sc : Scope) : Scope :=
  { sc with env := sc.env.rerun x, config := sc.config.rerun x }

section Fields

variable (sc : Scope) (x : Rerun)

theorem Scope.rerun_hierarchy : (sc.rerun x).env.hierarchy = sc.env.hierarchy := rfl

theorem Scope.rerun_method : (sc.rerun x).method = sc.method := rfl

theorem Scope.rerun_body : (sc.rerun x).body = sc.body := rfl

theorem Scope.rerun_depth : (sc.rerun x).depth = sc.depth := rfl

end Fields

/-- Two works that differ in numbers only. -/
structure Rerun.Alike (x : Rerun) (w v : Work) : Prop where
  graph : w.graph.mapOdds x.view = v.graph.mapOdds x.view
  report : w.report = v.report
  consulted : w.consulted = v.consulted
  table : w.table = v.table
  parsed : w.parsed = v.parsed

theorem Rerun.Alike.refl {x : Rerun} (w : Work) : x.Alike w w := ⟨rfl, rfl, rfl, rfl, rfl⟩

theorem Rerun.Alike.eq {x : Rerun} {w v : Work} (hid : x.view = id) (h : x.Alike w v) : w = v := by
  obtain ⟨graph, report, consulted, table, parsed⟩ := w
  obtain ⟨hg, rfl, rfl, rfl, rfl⟩ := h
  rw [hid, Graph.mapOdds_id, Graph.mapOdds_id] at hg
  subst hg
  rfl

namespace BuildM

/-- `bct` does in the second run what `act` does in the first. -/
def Mirrors {α : Type} (x : Rerun) (sc : Scope) (act bct : BuildM α) : Prop :=
  ∀ w v, x.Alike w v → v.parsed ⊆ parsedIn (bct (sc.rerun x) v) ∧
    match act sc w with
    | .ok a w' => ∃ v', bct (sc.rerun x) v = .ok a v' ∧ x.Alike w' v'
    | .error e _ => x.excused e (parsedIn (bct (sc.rerun x) v)) ∨ ∃ v', bct (sc.rerun x) v = .error e v'

/-- `act` does the same in both runs. -/
abbrev Repeats {α : Type} (x : Rerun) (sc : Scope) (act : BuildM α) : Prop :=
  Sat (fun _ act => Mirrors x sc act act) act

/-! ## Rules -/

section Rules

variable {α β : Type} {x : Rerun} {sc : Scope}
variable {d : Defect} {p : Position}
variable {act bct : BuildM α} {f f' : α → BuildM β}

theorem Mirrors.logs (h : Mirrors x sc act bct) (v : Work) : v.parsed ⊆ parsedIn (bct (sc.rerun x) v) :=
  (h v v (.refl v)).1

theorem Mirrors.logs_bind (bct : BuildM α) (hf : ∀ a, Mirrors x sc (f a) (f' a)) (v : Work) :
    parsedIn (bct (sc.rerun x) v) ⊆ parsedIn ((bct >>= f') (sc.rerun x) v) := by
  show _ ⊆ parsedIn (EStateM.bind (bct (sc.rerun x)) (fun a => f' a (sc.rerun x)) v)
  unfold EStateM.bind
  cases bct (sc.rerun x) v with
  | ok a v' => exact (hf a).logs v'
  | error e v' => exact List.Subset.refl _

theorem Mirrors.bind (h : Mirrors x sc act bct)
    (hf : ∀ a, Mirrors x sc (f a) (f' a)) : Mirrors x sc (act >>= f) (bct >>= f') := by
  intro w v hwv
  obtain ⟨hlogs, h1⟩ := h w v hwv
  have hmore := Mirrors.logs_bind bct hf v
  refine ⟨List.Subset.trans hlogs hmore, ?_⟩
  show (match EStateM.bind (act sc) (fun a => f a sc) w with
    | .ok a w' => ∃ v', EStateM.bind (bct (sc.rerun x)) (fun a => f' a (sc.rerun x)) v = .ok a v' ∧
    x.Alike w' v'
    | .error e _ => x.excused e _ ∨
        ∃ v', EStateM.bind (bct (sc.rerun x)) (fun a => f' a (sc.rerun x)) v = .error e v')
  unfold EStateM.bind
  cases ha : act sc w with
  | ok a w1 =>
    rw [ha] at h1
    obtain ⟨v1, hb, hwv1⟩ := h1
    have hsame : parsedIn ((bct >>= f') (sc.rerun x) v) = parsedIn (f' a (sc.rerun x) v1) := by
      show parsedIn (EStateM.bind (bct (sc.rerun x)) (fun a => f' a (sc.rerun x)) v) = _
      rw [EStateM.bind, hb]
    rw [hb, hsame]
    exact (hf a w1 v1 hwv1).2
  | error e w1 =>
    rw [ha] at h1
    refine h1.imp (x.excused_more · hmore) fun hb => ?_
    obtain ⟨v1, hb⟩ := hb
    exact ⟨v1, by rw [hb]⟩

theorem mirrors_pure (a : α) : Mirrors x sc (pure a) (pure a) :=
  fun _ v h => ⟨List.Subset.refl _, v, rfl, h⟩

theorem mirrors_throw_bind (e : Error) (f f' : α → BuildM β) :
    Mirrors x sc (throw e >>= f) (throw e >>= f') := fun _ v _ => ⟨List.Subset.refl _, .inr ⟨v, rfl⟩⟩

theorem mirrors_excused {e : Error} {cct : BuildM β} (h : ∀ l, x.excused e l)
    (hc : Mirrors x sc cct cct) : Mirrors x sc (throw e >>= f) cct :=
  fun _ v _ => ⟨hc.logs v, .inl (h _)⟩

theorem mirrors_read_bind {f f' : Scope → BuildM α} (h : Mirrors x sc (f sc) (f' (sc.rerun x))) :
    Mirrors x sc (read >>= f) (read >>= f') := h

theorem mirrors_get_bind {f f' : Work → BuildM α}
    (h : ∀ w v, x.Alike w v → Mirrors x sc (f w) (f' v)) : Mirrors x sc (get >>= f) (get >>= f') :=
  fun w v hwv => h w v hwv w v hwv

instance : Modular sc fun _ act => Mirrors x sc act act where
  pure := mirrors_pure
  throw e f := mirrors_throw_bind e f f
  bind h hf := h.bind hf
  read {_ f} h hf := mirrors_read_bind (by
    rw [show f (sc.rerun x) = f sc from hf ..]
    exact h)
  look h hf := mirrors_get_bind fun w v hwv => by
    -- Alike works have the same nodes, with the same lists of edges, and the same table.
    obtain ⟨⟨slots, edges, start, frequencies, live⟩, report, consulted, table, parsed⟩ := v
    obtain ⟨hg, rfl, rfl, rfl, rfl⟩ := hwv
    obtain ⟨rfl, -, rfl, -, rfl⟩ := (Graph.mk.injEq ..).mp hg
    rw [hf w edges frequencies]
    exact h w

theorem repeats [h : Repeats x sc act] : Mirrors x sc act act := h.sat

theorem Repeats.bind [Repeats x sc act]
    (hf : ∀ a, Mirrors x sc (f a) (f' a)) : Mirrors x sc (act >>= f) (act >>= f') := repeats.bind hf

theorem Sat.seq (_ : Repeats x sc act)
    (_ : ∀ a, Repeats x sc (f a)) : Repeats x sc (act >>= f) := inferInstance

theorem mirrors_liftExcept_bind {r : Except Error β} {m : β → β} {f f' : β → BuildM α}
    (h : ∀ b, r = .ok b → Mirrors x sc (f b) (f' (m b))) :
    Mirrors x sc (BuildM.liftExcept r >>= f) (BuildM.liftExcept (r.map m) >>= f') := by
  cases r with
  | error e => exact mirrors_throw_bind e _ _
  | ok b => exact h b rfl

theorem mirrors_changeGraph {f f' : Graph → Except Error (α × Graph)}
    (F : Graph → Except Error (α × Graph))
    (hf : ∀ g, (f g).map (Prod.map id (Graph.mapOdds x.view)) = F (g.mapOdds x.view))
    (hf' : ∀ g, (f' g).map (Prod.map id (Graph.mapOdds x.view)) = F (g.mapOdds x.view)) :
    Mirrors x sc (changeGraph f) (changeGraph f') := by
  intro w v hwv
  have key : (f w.graph).map (Prod.map id (Graph.mapOdds x.view)) =
      (f' v.graph).map (Prod.map id (Graph.mapOdds x.view)) := by rw [hf, hf', hwv.graph]
  cases ha : f w.graph with
  | error e =>
    cases hb : f' v.graph with
    | ok r =>
      rw [ha, hb] at key
      cases key
    | error e' =>
      rw [ha, hb] at key
      cases key
      rw [changeGraph_congr ha, changeGraph_congr hb]
      exact ⟨List.Subset.refl _, .inr ⟨_, rfl⟩⟩
  | ok r =>
    cases hb : f' v.graph with
    | error e =>
      rw [ha, hb] at key
      cases key
    | ok r' =>
      obtain ⟨a, g⟩ := r
      obtain ⟨b, h⟩ := r'
      rw [ha, hb] at key
      obtain ⟨rfl, hgh⟩ := Prod.mk.inj (Except.ok.inj key)
      rw [changeGraph_congr ha, changeGraph_congr hb]
      exact ⟨List.Subset.refl _, _, rfl, hgh, hwv.report, hwv.consulted, hwv.table, hwv.parsed⟩

theorem repeats_sameChange {f : Graph → Except Error (α × Graph)}
    (hf : ∀ g, (f g).map (Prod.map id (Graph.mapOdds x.view)) = f (g.mapOdds x.view)) :
    Repeats x sc (changeGraph f) := ⟨mirrors_changeGraph f hf hf⟩

instance (f : Table → Table) : Repeats x sc (changeTable f) :=
  ⟨fun _ _ hwv => ⟨List.Subset.refl _, _, rfl, hwv.graph, hwv.report, hwv.consulted,
    congrArg f hwv.table, hwv.parsed⟩⟩

instance (f : Report → Report) : Repeats x sc (changeReport f) :=
  ⟨fun _ _ hwv => ⟨List.Subset.refl _, _, rfl, hwv.graph, congrArg f hwv.report, hwv.consulted,
    hwv.table, hwv.parsed⟩⟩

instance (c : Consultation) : Repeats x sc (consult c) :=
  ⟨fun _ _ hwv => ⟨List.Subset.refl _, _, rfl, hwv.graph, hwv.report,
    congrArg (·.push c) hwv.consulted, hwv.table, hwv.parsed⟩⟩

theorem repeats_of_eq (hid : x.view = id) (h : ∀ w, ∃ a w', act sc w = .ok a w' ∧
    act (sc.rerun x) w = .ok a w' ∧ w'.parsed = w.parsed) : Repeats x sc act := by
  refine ⟨fun w v hwv => ?_⟩
  obtain rfl := hwv.eq hid
  obtain ⟨a, w', ha, hb, hparsed⟩ := h w
  rw [ha, hb]
  exact ⟨hparsed ▸ List.Subset.refl _, w', rfl, .refl w'⟩

theorem mirrors_inside {inner : Scope} (h : Mirrors x inner act bct) :
    Mirrors x sc (inside inner act) (inside (inner.rerun x) bct) := by
  intro w v hwv
  have h1 := h { w with table := Table.blank inner.blocks.size }
    { v with table := Table.blank inner.blocks.size }
    ⟨hwv.graph, hwv.report, hwv.consulted, rfl, hwv.parsed⟩
  have hblank : Table.blank (inner.rerun x).blocks.size = Table.blank inner.blocks.size := rfl
  unfold inside
  rw [hblank]
  cases hb : bct (inner.rerun x) { v with table := Table.blank inner.blocks.size } with
  | ok b v1 =>
    rw [hb] at h1
    refine ⟨h1.1, ?_⟩
    cases ha : act inner { w with table := Table.blank inner.blocks.size } with
    | ok a w1 =>
      rw [ha] at h1
      obtain ⟨-, v2, hv2, hwv2⟩ := h1
      cases hv2
      exact ⟨_, rfl, hwv2.graph, hwv2.report, hwv2.consulted, hwv.table, hwv2.parsed⟩
    | error e w1 =>
      rw [ha] at h1
      exact h1.2.imp_right nofun
  | error e v1 =>
    rw [hb] at h1
    refine ⟨h1.1, ?_⟩
    cases ha : act inner { w with table := Table.blank inner.blocks.size } with
    | ok a w1 =>
      rw [ha] at h1
      obtain ⟨-, v2, hv2, -⟩ := h1
      cases hv2
    | error e w1 =>
      rw [ha] at h1
      exact h1.2

end Rules

/-! ## Loops -/

section Loops

variable {α β σ : Type} {x : Rerun} {sc : Scope}

theorem mirrors_forIn₂ {xs ys : List α} {R : α → α → Prop}
    {body body' : α → PUnit → BuildM (ForInStep PUnit)}
    (hxy : List.Forall₂ R xs ys) (h : ∀ a b, R a b → Mirrors x sc (body a ⟨⟩) (body' b ⟨⟩)) :
    Mirrors x sc (forIn xs ⟨⟩ body) (forIn ys ⟨⟩ body') := by
  induction hxy with
  | nil => exact mirrors_pure _
  | cons hab _ ih =>
    rw [List.forIn_cons, List.forIn_cons]
    refine (h _ _ hab).bind fun r => ?_
    cases r with
    | done => exact repeats
    | yield => exact ih

end Loops

/-! ## The graph and the table -/

section Basic

variable {x : Rerun} {sc : Scope}
variable {b : BlockId} {f : Frame} {a n : NodeId} {p : Position}

theorem mirrors_addEdge {p q : Float} (hpq : x.view p = x.view q) (a b : NodeId) (k : EdgeKind) :
    Mirrors x sc (addEdge a b k p) (addEdge a b k q) := by
  have hadd : ∀ (r : Float) (g : Graph),
      ((do let r ← g.addEdge a b k r; return ((), r.2)) : Except Error (Unit × Graph)).map
        (Prod.map id (Graph.mapOdds x.view)) =
      (do let r ← (g.mapOdds x.view).addEdge a b k (x.view r); return ((), r.2)) := by
    intro r g
    rw [Graph.addEdge_mapOdds]
    cases g.addEdge a b k r <;> rfl
  refine mirrors_changeGraph (fun g => do let r ← g.addEdge a b k (x.view p); return ((), r.2))
    (hadd p) ?_
  rw [hpq]
  exact hadd q

instance (k : NodeKind) (I : List NodeId) : Repeats x sc (addNode k I) := repeats_sameChange fun _ => rfl

instance (s : Snapshot) : Repeats x sc (setSnapshot n s) := by
  refine repeats_sameChange fun g => ?_
  rw [Graph.setSnapshot_mapOdds]
  cases g.setSnapshot n s <;> rfl

instance : Repeats x sc (changeGraph fun g => .ok ((), g.removeNode n)) := by
  refine repeats_sameChange fun g => ?_
  rw [Graph.removeNode_mapOdds]
  rfl

instance : Edits fun _ act => Mirrors x sc act act where
  addNode _ := inferInstance
  addEdge _ _ _ _ := ⟨mirrors_addEdge rfl _ _ _⟩
  addPhiInput n v := repeats_sameChange fun g => by
    rw [Graph.addPhiInput_mapOdds]
    cases g.addPhiInput n v <;> rfl
  attachSnapshot _ _ _ := sat_read fun _ _ _ => rfl
  dropLocal _ _ := sat_look fun _ _ _ => rfl

instance (e : EdgeId) : Repeats x sc (changeGraph fun g => return ((), ← g.retarget e n)) := by
  refine repeats_sameChange fun g => ?_
  rw [Graph.retarget_mapOdds]
  cases g.retarget e n <;> rfl

instance : Repeats x sc (changeGraph fun g => .ok ((), g.setStart n)) := repeats_sameChange fun _ => rfl

instance (r : DeoptReason) : Repeats x sc (addDeopt r f p) := by
  unfold addDeopt
  infer_instance

instance (r : Reference) (why : Absence) : Repeats x sc (recordUnresolved p r why) :=
  sat_read fun _ _ _ => rfl

instance : Repeats x sc (entry b) := by
  unfold entry
  infer_instance

instance (e : Entry) : Repeats x sc (setEntry b e) := inferInstanceAs (Repeats x sc (changeTable _))

instance (d : Defect) : Repeats x sc (openBlock b d) := by
  unfold openBlock
  infer_instance

end Basic

/-! ## Points -/

section Points

variable {α β : Type} {x : Rerun} {sc : Scope}

theorem mirrors_onFrame_bind {pt : Point} {act : FrameM α} {f f' : α × Point → BuildM β}
    (h : ∀ a frame, Mirrors x sc (f (a, { pt with frame })) (f' (a, { pt with frame }))) :
    Mirrors x sc (pt.onFrame act >>= f) (pt.onFrame act >>= f') := by
  unfold Point.onFrame
  split
  · exact h _ _
  · exact mirrors_throw_bind _ _ _

instance (pt : Point) (k : NodeKind) (I : List NodeId) : Repeats x sc (pt.append k I) := by
  dsimp only [Point.append]
  infer_instance

instance (pt : Point) (r : DeoptReason) : Repeats x sc (pt.deoptimize r) := by
  dsimp only [Point.deoptimize]
  infer_instance

end Points

/-! ## Loops and joins -/

section Joins

variable {x : Rerun} {sc : Scope}
variable {a b : BlockId} {f headerFrame incoming : Frame} {ends l : Nat} {header m n : NodeId}
  {p : Position}

instance : Repeats x sc createLoopHeaders := sat_read fun _ _ _ => rfl

instance : Repeats x sc (beginLoop l header f) := by
  unfold beginLoop
  refine sat_look (h := fun w => .seq ?_ fun _ => sat_look fun _ _ _ => rfl) fun _ _ _ => rfl
  exact sat_mapValuesM (h := fun v => sat_look fun _ _ _ => rfl)

instance (roots : List NodeId) : Repeats x sc (dropPhis b headerFrame incoming roots p) := by
  have hentry (dead : List NodeId) (o : Option Entry) :
      Repeats x sc (trimEntry dead p (.lostLocalOnStack b) o) := by
    unfold trimEntry
    split
    · split
      · split <;> infer_instance
      · infer_instance
    · infer_instance
  unfold dropPhis
  refine sat_look (h := fun w => ?_) fun w edges frequencies => ?_
  · dsimp only
    split
    · refine .seq inferInstance fun dead => ?_
      split
      · infer_instance
      · split
        · refine sat_look (h := fun w => .seq (sat_arrayMapM (h := hentry dead)) fun _ =>
            .seq inferInstance fun _ => sat_look (h := fun w => .seq (sat_forIn (h := fun n => ?_))
              fun _ => inferInstance) fun _ _ _ => rfl) fun _ _ _ => rfl
          refine sat_look (h := fun w => ?_) fun _ _ _ => rfl
          split <;> infer_instance
        · infer_instance
    · infer_instance
  · have hsame := Graph.carriers_congr (g := { w.graph with edges, frequencies }) (h := w.graph) rfl roots
    simp only [hsame]

instance : Repeats x sc (fillPhis b headerFrame incoming p) := by
  have hshed : Repeats x sc (shedLocals b headerFrame incoming p) := by
    unfold shedLocals
    infer_instance
  unfold fillPhis
  infer_instance

instance : Repeats x sc (addLoopEnd b f p) := by
  dsimp only [addLoopEnd]
  infer_instance

instance : Repeats x sc (mergeInto b m f p) := by
  unfold mergeInto
  infer_instance

/-- Which edge comes in at a begin, and from where, is no matter of numbers. -/
instance : Repeats x sc (promote b n) := by
  unfold promote
  refine ⟨Repeats.bind fun merge => Repeats.bind fun stop => Repeats.bind fun _ => mirrors_get_bind
    fun w v hwv => ?_⟩
  have hpreds : (w.graph.predecessorEdges n).map (Prod.map id (Edge.mapOdds x.view)) =
      (v.graph.predecessorEdges n).map (Prod.map id (Edge.mapOdds x.view)) := by
    rw [← Graph.predecessorEdges_mapOdds, hwv.graph, Graph.predecessorEdges_mapOdds]
  have hkind : ∀ a q, v.graph.kindIs a q = w.graph.kindIs a q := by
    intro a q
    change (v.graph.mapOdds x.view).kindIs a q = (w.graph.mapOdds x.view).kindIs a q
    rw [hwv.graph]
  dsimp only
  rcases hw : w.graph.predecessorEdges n with _ | ⟨⟨e, d⟩, _ | ⟨y, ys⟩⟩ <;>
    rcases hv : v.graph.predecessorEdges n with _ | ⟨⟨e', d'⟩, _ | ⟨z, zs⟩⟩ <;>
    simp only [hw, hv, List.map_cons, List.map_nil, List.cons.injEq, reduceCtorEq, and_false,
      and_true] at hpreds
  · exact repeats
  · obtain ⟨he, hd⟩ := Prod.mk.inj hpreds
    have he : e' = e := he.symm
    have hsource : d'.source = d.source := (congrArg Edge.source hd).symm
    simp only [he, hsource, hkind]
    exact repeats
  · exact repeats

instance : Repeats x sc (addLoopEntry b f p) := by
  have (e : Entry) (stop : NodeId) : Repeats x sc (do
      match e.frame with
      | none => setEntry b { e with frame := some ((← read).prune f b) }
      | some _ => mergeInto b e.node f p
      return stop) := by
    split
    · exact sat_read fun _ _ _ => rfl
    · infer_instance
  dsimp only [addLoopEntry]
  infer_instance

instance : Repeats x sc (createTarget a b f p) := by
  have (o : Option Entry) : Repeats x sc (match o with
      | none => placeTarget sc b f
      | some e => do
        if e.parsed then
          malformed (.alreadyParsed a b)
        joinTarget b (← if ← kindIs e.node (· == .begin) then promote b e.node else pure e.node) f
          p) := by
    cases o <;> infer_instance
  exact sat_read fun _ _ _ => rfl

end Joins

end BuildM

/-! ## What a rerun may change -/

/-- The successors of an instruction, each with its probability. -/
def Profile.odds (profile : Profile) (m : MethodId) (p : Position) : Instruction Position → List Float
  | .ifCompare .. | .ifZero .. | .ifNull _ | .ifNonNull _ =>
    [profile.branchProbability m p, 1.0 - profile.branchProbability m p]
  | .switch _ targets _ => profile.switchProbabilities m p (targets.length + 1)
  | _ => []

/-- Two probabilities of one edge look the same, and both runs lift the edge or neither does. -/
structure Rerun.SameOdds (x : Rerun) (config : Config) (p q : Float) : Prop where
  view : x.view p = x.view q
  taken : (decide (p ≤ 0.0) && config.deadCodeElimination) = (decide
    (q ≤ 0.0) && config.deadCodeElimination)

theorem Rerun.SameOdds.refl {x : Rerun} {config : Config} (p : Float) :
    x.SameOdds config p p := ⟨rfl, rfl⟩

/-- The rerun has at least the limits of the first run, and another profile can only be told by the
numbers. -/
structure Rerun.Fits (x : Rerun) (env : Env) (config : Config) : Prop where
  nodes : config.maxNodeCount ≤ x.maxNodeCount
  depth : config.maxInliningDepth ≤ x.maxInliningDepth
  budget : (config.maxNodeCount = x.maxNodeCount ∧ config.maxInliningDepth = x.maxInliningDepth) ∨
    ∀ p b l, x.excused (.budgetExceeded p b) l
  throws : ∀ m p, x.profile.mayThrow m p = env.profile.mayThrow m p
  odds : ∀ {id m body p i}, env.hierarchy.lookupMethod id = .ok m → m.body = some body →
    body.instruction? p = some i →
    List.Forall₂ (x.SameOdds config) (env.profile.odds m.id p i) (x.profile.odds m.id p i)
  calls : env.plugins.calls = [] ∨ x.view = id

/-- The scope is that of a method of the program. -/
structure Scope.Known (sc : Scope) : Prop where
  method : ∃ id, sc.env.hierarchy.lookupMethod id = .ok sc.method
  body : sc.method.body = some sc.body
  blocks : BlockMap.ofBody sc.body = .ok sc.blocks

namespace BuildM

/-! ## Budgets and edges -/

section Edges

variable {x : Rerun} {sc : Scope}
variable {a b : BlockId} {f : Frame} {n : NodeId} {pos : Position} {v : Value} {p q : Float}

theorem repeats_checkBudget (hx : x.Fits sc.env sc.config) (p : Position) :
    Repeats x sc (checkBudget p) := by
  refine ⟨mirrors_read_bind (mirrors_get_bind fun w v hwv => ?_)⟩
  have hlive : v.graph.live = w.graph.live := by
    change (v.graph.mapOdds x.view).live = (w.graph.mapOdds x.view).live
    rw [hwv.graph]
  dsimp only
  rw [hlive]
  show Mirrors x sc _ (if x.maxNodeCount < w.graph.live then
    (throw (.budgetExceeded p (.nodeCount x.maxNodeCount)) : BuildM PUnit) >>= _ else _)
  rcases hx.budget with ⟨hn, -⟩ | hexcused
  · -- the same limit: the first test has the same answer
    rw [← hn]
    exact repeats
  · split
    · exact mirrors_excused (hexcused _ _) repeats
    · next hle =>
      rw [if_neg (Nat.not_lt.2 (Nat.le_trans (Nat.not_lt.1 hle) hx.nodes))]
      exact repeats

theorem mirrors_resolveTarget (hpq : x.SameOdds sc.config p q) (a b : BlockId) (f : Frame)
    (pos : Position) : Mirrors x sc (resolveTarget a b f p pos) (resolveTarget a b f q pos) := by
  refine mirrors_read_bind ?_
  show Mirrors x sc (if (decide (p ≤ 0.0) && sc.config.deadCodeElimination) = true then _ else _)
    (if (decide (q ≤ 0.0) && sc.config.deadCodeElimination) = true then _ else _)
  rw [hpq.taken]
  dsimp only
  exact repeats

theorem mirrors_addBranch (hpq : x.SameOdds sc.config p q) (a : BlockId) (split : NodeId)
    (b : BlockId) (f : Frame) (k : EdgeKind) (pos : Position) :
    Mirrors x sc (addBranch a split b f p k pos) (addBranch a split b f q k pos) :=
  (mirrors_resolveTarget hpq _ _ _ _).bind fun _ => Repeats.bind fun _ => mirrors_addEdge hpq.view _ _ _

instance (handler : Nat) (next : Option BlockId) : Repeats x sc (dispatchBlock b handler next) := by
  refine sat_read (h := .seq inferInstance fun r => .seq inferInstance fun info => ?_) fun _ _ _ => rfl
  refine .seq inferInstance fun v => .seq inferInstance fun _ => .seq inferInstance fun hb => ?_
  split
  · infer_instance
  · refine .seq inferInstance fun noMatch => ?_
    dsimp only
    split <;> infer_instance

end Edges

end BuildM

/-! ## Calls -/

open BuildM

/-- The two parsers do the same for every method of the program. -/
def Rerun.SameParser (x : Rerun) (env : Env) (config : Config) (parse parse' : Parser) : Prop :=
  ∀ sc, sc.env = env → sc.config = config → sc.Known → ∀ f n, Mirrors x sc (parse f n) (parse' f n)

/-- How deep calls may still nest: as deep in both runs, or deeper in the second. -/
inductive Rerun.Nests (x : Rerun) (env : Env) (config : Config) :
    Option Parser → Option Parser → Prop where
  | none : x.Nests env config none none
  | deeper {parse : Parser} (h : ∀ p b l, x.excused (.budgetExceeded p b) l)
      (hparse : x.SameParser env config parse parse) : x.Nests env config none (some parse)
  | some {parse parse' : Parser} (h : x.SameParser env config parse parse') :
      x.Nests env config (some parse) (some parse')

theorem Scope.ofMethod_rerun {x : Rerun} {env : Env} {config : Config} {m : MethodDecl} {body : Body}
    {chain : List MethodId} {callers : Option Snapshot} {handles : Bool} :
    Scope.ofMethod (env.rerun x) (config.rerun x) m body chain callers handles =
      (Scope.ofMethod env config m body chain callers handles).map (Scope.rerun x) := by
  unfold Scope.ofMethod
  cases BlockMap.ofBody body <;> rfl

namespace BuildM

section Calls

variable {x : Rerun} {sc : Scope} {nested nested' : Option Parser}
variable {call : Call} {e : Exit} {pt : Point}

instance (p : Position) (m : MethodId) (d : Devirtualization) (o : Outcome) :
    Repeats x sc (recordCall p m d o) :=
  sat_read fun _ _ _ => rfl

theorem repeats_tryPlugin (hid : x.view = id) (plugin : CallPlugin) (call : Call) (pt : Point) :
    Repeats x sc (tryPlugin plugin call pt) := by
  have htake : Repeats x sc (modifyGet fun w : Work => (w.graph, { w with graph := {} })) :=
    repeats_of_eq hid fun _ => ⟨_, _, rfl, rfl, rfl⟩
  have hput (g : Graph) : Repeats x sc (modify fun w : Work => { w with graph := g }) :=
    repeats_of_eq hid fun _ => ⟨_, _, rfl, rfl, rfl⟩
  unfold tryPlugin
  refine sat_read (h := ?_) fun _ _ _ => rfl
  dsimp only
  split
  · refine .seq inferInstance fun _ => .seq htake fun graph => ?_
    split <;> infer_instance
  · refine .seq htake fun graph => ?_
    split <;> infer_instance

theorem repeats_tryPlugins (hid : x.view = id) (call : Call) (plugins : List CallPlugin) (pt : Point) :
    Repeats x sc (tryPlugins call plugins pt) := by
  have (plugin : CallPlugin) (pt : Point) : Repeats x sc (tryPlugin plugin call pt) :=
    repeats_tryPlugin hid plugin call pt
  induction plugins generalizing pt with
  | nil => exact inferInstanceAs (Repeats x sc (pure _))
  | cons plugin rest ih =>
    dsimp only [tryPlugins]
    infer_instance

instance : Repeats x sc (resumeReturned pt call e) := by
  dsimp only [resumeReturned]
  infer_instance

theorem mirrors_inlineCall {parse parse' : Parser} (hx : x.Fits sc.env sc.config)
    (hparse : x.SameParser sc.env sc.config parse parse')
    (hcall : ∃ id, sc.env.hierarchy.lookupMethod id = .ok call.target) (pt : Point) :
    Mirrors x sc (inlineCall parse call pt) (inlineCall parse' call pt) := by
  unfold inlineCall
  refine mirrors_read_bind ?_
  dsimp only
  cases hb : call.target.body with
  | none => exact mirrors_throw_bind _ _ _
  | some body =>
    refine (repeats_checkBudget hx _).sat.bind fun _ => Repeats.bind fun f => ?_
    show Mirrors x sc _ (BuildM.liftExcept (Scope.ofMethod (sc.env.rerun x)
      (sc.config.rerun x) _ _ _ _ _) >>= _)
    rw [Scope.ofMethod_rerun]
    refine mirrors_liftExcept_bind fun inner hinner => Repeats.bind fun r => ?_
    obtain ⟨hblocks, henv, hconfig, hmethod, rfl, -⟩ := Scope.ofMethod_ok hinner
    have hknown : inner.Known := ⟨by rw [henv, hmethod]; exact hcall, by rw [hmethod, hb], hblocks⟩
    refine (mirrors_inside (hparse inner henv hconfig hknown f _)).bind fun exits => ?_
    obtain ⟨_ | back, _ | exit⟩ := exits <;> exact repeats

theorem repeats_callNode (hx : x.Fits sc.env sc.config) (call : Call) (pt : Point) :
    Repeats x sc (callNode call pt) := by
  have hthrow : (sc.rerun x).mayThrow pt.position = sc.mayThrow pt.position := hx.throws _ _
  unfold callNode
  refine ⟨mirrors_read_bind ?_⟩
  dsimp only
  rw [hthrow]
  exact repeats

instance (kinds : List ValueKind) : Repeats x sc (popArgs pt kinds) := by
  dsimp only [popArgs]
  infer_instance

instance (m : MethodId) (r : DeoptReason) : Repeats x sc (abandonCall m r pt) := by
  unfold abandonCall
  infer_instance

section

variable (hx : x.Fits sc.env sc.config) (hn : x.Nests sc.env sc.config nested nested')
include hx hn

theorem mirrors_lowerCall (hcall : ∃ id, sc.env.hierarchy.lookupMethod id = .ok call.target)
    (pt : Point) : Mirrors x sc (lowerCall nested call pt) (lowerCall nested' call pt) := by
  have hplugins : Repeats x sc (tryPlugins call sc.env.plugins.calls pt) := by
    rcases hx.calls with hnil | hid
    · rw [hnil]
      exact inferInstanceAs (Repeats x sc (pure _))
    · exact repeats_tryPlugins hid _ _ _
  refine mirrors_read_bind (hplugins.sat.bind fun r => ?_)
  obtain ⟨_ | claimed, pt⟩ := r
  · refine Repeats.bind fun inlines => ?_
    dsimp only
    split
    · cases hn with
      | none => exact mirrors_throw_bind _ _ _
      | deeper h hparse =>
        exact mirrors_excused (h _ _) ((mirrors_inlineCall hx hparse hcall _).bind fun _ =>
          mirrors_pure _)
      | some h => exact (mirrors_inlineCall hx h hcall _).bind fun _ => mirrors_pure _
    · exact (repeats_callNode hx _ _).sat.bind fun _ => mirrors_pure _
  · exact mirrors_pure _

theorem mirrors_liftResolved {m : MethodDecl} (hm : ∃ id, sc.env.hierarchy.lookupMethod id = .ok m)
    (kind : CallKind) (pt : Point) :
    Mirrors x sc (liftResolved nested kind m pt) (liftResolved nested' kind m pt) := by
  unfold liftResolved
  refine mirrors_read_bind (Repeats.bind fun r => ?_)
  obtain ⟨args, pt⟩ := r
  have hgo : ∀ (k : CallKind) (t : MethodDecl) (d : Devirtualization),
      (∃ id, sc.env.hierarchy.lookupMethod id = .ok t) →
      Mirrors x sc (lowerBound nested m.id d ⟨k, t, args, t.returns⟩ pt)
        (lowerBound nested' m.id d ⟨k, t, args, t.returns⟩ pt) :=
    fun k t d ht => (mirrors_lowerCall hx hn ht _).bind fun _ => repeats
  dsimp only
  split
  · exact hgo _ _ _ hm
  · refine mirrors_get_bind fun w v hwv => ?_
    have hsame : devirtualize sc.env.hierarchy v.graph m args = devirtualize sc.env.hierarchy
      w.graph m args := by
      change devirtualize sc.env.hierarchy (v.graph.mapOdds x.view) m args =
        devirtualize sc.env.hierarchy (w.graph.mapOdds x.view) m args
      rw [hwv.graph]
    rw [sc.rerun_hierarchy x, hsame]
    cases hd : devirtualize sc.env.hierarchy w.graph m args with
    | none => exact hgo _ _ _ hm
    | some r => exact hgo _ _ _ (devirtualize_known hd)

theorem mirrors_invoke (kind : CallKind) (declared : MethodId) (pt : Point) :
    Mirrors x sc (invoke nested kind declared pt) (invoke nested' kind declared pt) := by
  unfold invoke
  refine mirrors_read_bind ?_
  show Mirrors x sc (if sc.config.deoptAllInvokes = true then _ else _)
    (if sc.config.deoptAllInvokes = true then _ else _)
  split
  · exact repeats
  · rw [sc.rerun_hierarchy x]
    cases hm : sc.env.hierarchy.lookupMethod declared with
    | error why => exact repeats
    | ok m =>
      dsimp only
      split
      · exact mirrors_throw_bind _ _ _
      · exact mirrors_liftResolved hx hn ⟨declared, hm⟩ _ _

end

end Calls

/-! ## Instructions -/

section Steps

variable {x : Rerun} {sc : Scope} {nested nested' : Option Parser}

theorem repeats_binary (hx : x.Fits sc.env sc.config) (op : ArithOp) (pt : Point) :
    Repeats x sc (binary op pt) := by
  refine ⟨Repeats.bind fun r => Repeats.bind fun r' => mirrors_read_bind ?_⟩
  obtain ⟨a, pt⟩ := r'
  have hcheck : needsZeroCheck (sc.rerun x) op pt.position = needsZeroCheck sc op pt.position :=
    congrArg (fun t => op.canThrow && sc.observes pt.position && t) (hx.throws sc.id pt.position)
  dsimp only
  rw [hcheck]
  exact repeats

section

variable (pt : Point)
  (hodds : List.Forall₂ (x.SameOdds sc.config) [sc.branchProbability pt.position,
    1.0 - sc.branchProbability pt.position] [(sc.rerun x).branchProbability pt.position,
    1.0 - (sc.rerun x).branchProbability pt.position])
include pt hodds

theorem repeats_branch (n : NodeId) (t : Position) : Repeats x sc (branch n t pt) := by
  obtain ⟨htaken, hodds⟩ := List.forall₂_cons.1 hodds
  obtain ⟨helse, -⟩ := List.forall₂_cons.1 hodds
  exact ⟨mirrors_read_bind (Repeats.bind fun _ => Repeats.bind fun _ => Repeats.bind fun _ =>
    (mirrors_addBranch htaken _ _ _ _ _ _).bind fun _ => (mirrors_addBranch helse _ _ _ _ _ _).bind
      fun _ =>
    mirrors_pure _)⟩

theorem mirrors_nullBranch
    (c : Condition) (t : Position) : Mirrors x sc (nullBranch c t pt) (nullBranch c t pt) :=
  mirrors_onFrame_bind fun _ frame => Repeats.bind fun _ => Repeats.bind fun _ =>
    (repeats_branch { pt with frame } hodds _ _).sat

end

theorem mirrors_switch {pt : Point} {targets : List Position} (hodds : List.Forall₂ (x.SameOdds sc.config)
      (sc.switchProbabilities pt.position (targets.length + 1))
      ((sc.rerun x).switchProbabilities pt.position (targets.length + 1)))
    (keys : List Int64) (d : Position) :
    Mirrors x sc (switch keys targets d pt) (switch keys targets d pt) := by
  refine mirrors_onFrame_bind fun key frame => mirrors_read_bind (Repeats.bind fun r => ?_)
  dsimp only
  refine (mirrors_forIn₂ (R := fun a b => a.1.1 = b.1.1 ∧ x.SameOdds sc.config a.1.2 b.1.2 ∧ a.2 = b.2)
    ?_ fun a b hab => ?_).bind fun _ => mirrors_pure _
  · -- pairing with the same targets and kinds keeps the probabilities side by side
    have htargets : ∀ {xs : List Position} {ps qs : List Float}, List.Forall₂
      (x.SameOdds sc.config) ps qs →
        List.Forall₂ (fun a b => a.1 = b.1 ∧ x.SameOdds sc.config a.2 b.2) (xs.zip ps) (xs.zip qs) := by
      intro xs ps qs h
      induction h generalizing xs with
      | nil => simp
      | cons h _ ih =>
        cases xs with
        | nil => exact .nil
        | cons a xs => exact .cons ⟨rfl, h⟩ ih
    have hkinds : ∀ {xs ys : List (Position × Float)} {ks : List EdgeKind},
        List.Forall₂ (fun a b => a.1 = b.1 ∧ x.SameOdds sc.config a.2 b.2) xs ys →
        List.Forall₂ (fun a b => a.1.1 = b.1.1 ∧ x.SameOdds sc.config a.1.2 b.1.2 ∧ a.2 = b.2)
          (xs.zip ks) (ys.zip ks) := by
      intro xs ys ks h
      induction h generalizing ks with
      | nil => exact .nil
      | cons h _ ih =>
        cases ks with
        | nil => exact .nil
        | cons k ks => exact .cons ⟨h.1, h.2, rfl⟩ ih
    exact hkinds (htargets hodds)
  · obtain ⟨⟨t, p⟩, k⟩ := a
    obtain ⟨⟨t', q⟩, k'⟩ := b
    obtain ⟨rfl, hpq, rfl⟩ := hab
    exact Repeats.bind fun _ => (mirrors_addBranch hpq _ _ _ _ _ _).bind fun _ => mirrors_pure _

instance (t : TypeId) (pt : Point) {act : BuildM Point} [Repeats x sc act] :
    Repeats x sc (withType t pt act) := by
  refine sat_read (h := ?_) fun _ _ _ => rfl
  split <;> infer_instance

theorem mirrors_step (hx : x.Fits sc.env sc.config) (hn : x.Nests sc.env sc.config nested nested')
    (hsc : sc.Known) {i : Instruction Position} (pt : Point)
    (hi : sc.body.instruction? pt.position = some i) :
    Mirrors x sc (step nested i pt) (step nested' i pt) := by
  obtain ⟨id, hid⟩ := hsc.method
  have hodds := hx.odds hid hsc.body hi
  unfold step
  cases i with
  | dup =>
    dsimp only
    split <;> exact repeats
  | arith op =>
    have (pt : Point) : Repeats x sc (binary op pt) := repeats_binary hx op pt
    exact repeats
  | ifCompare cond t =>
    exact mirrors_onFrame_bind fun _ _ => mirrors_onFrame_bind fun _ frame => Repeats.bind fun _ =>
      (repeats_branch { pt with frame } hodds _ _).sat
  | ifZero cond t =>
    exact mirrors_onFrame_bind fun _ frame => Repeats.bind fun _ => Repeats.bind fun _ =>
      (repeats_branch { pt with frame } hodds _ _).sat
  | ifNull t => exact mirrors_nullBranch pt hodds _ _
  | ifNonNull t => exact mirrors_nullBranch pt hodds _ _
  | switch keys targets d => exact mirrors_switch hodds _ _
  | invoke kind m => exact mirrors_invoke hx hn _ _ _
  | nop | const | constNull | load | store | pop | swap | goto | new | checkCast |
    instanceOf | throw | ret
    | retValue | monitorEnter | monitorExit => exact repeats

end Steps

/-! ## Methods -/

section Methods

variable {x : Rerun} {sc : Scope} {nested nested' : Option Parser}
variable {b : Block} {env : Env} {config : Config}

instance (f : Frame) (n : Option NodeId) : Repeats x sc (connectEntry f n) := by
  cases n <;> exact sat_read fun _ _ _ => rfl

instance : Repeats x sc enterBody :=
  ⟨fun _ _ hwv => ⟨List.subset_cons_self _ _, _, rfl, hwv.graph, hwv.report, hwv.consulted, hwv.table,
    congrArg (sc.body :: ·) hwv.parsed⟩⟩

instance : Repeats x sc (exitBlock b) := by
  dsimp only [exitBlock]
  infer_instance

instance : Repeats x sc (unwindBlock b) := by
  refine .seq inferInstance fun r => sat_read (h := ?_) fun _ _ _ => rfl
  dsimp only
  split
  · refine .seq inferInstance fun _ => ?_
    split <;> infer_instance
  · infer_instance

instance {loop : Nat} {b : BlockId} {n : NodeId} {f : Frame} : Repeats x sc (openHeader loop b n f) := by
  unfold openHeader
  infer_instance

section

variable (hx : x.Fits sc.env sc.config) (hn : x.Nests sc.env sc.config nested nested') (hsc : sc.Known)
include hx hn hsc

theorem mirrors_runCode (positions : List Position) (pt : Point) :
    Mirrors x sc (runCode nested positions pt) (runCode nested' positions pt) := by
  induction positions generalizing pt with
  | nil => exact mirrors_pure _
  | cons p rest ih =>
    refine mirrors_read_bind ?_
    rw [sc.rerun_body x]
    cases hlast : pt.last with
    | none => exact mirrors_pure _
    | some last =>
      cases hi : sc.body.instruction? p with
      | none => exact mirrors_pure _
      | some i => exact (mirrors_step hx hn hsc { pt with position := p, last := some last } hi).bind ih

theorem mirrors_instructionBlock (b : Block) :
    Mirrors x sc (instructionBlock nested b) (instructionBlock nested' b) := by
  have hbody (n : NodeId) (f : Frame) : Mirrors x sc (runBody nested b n f) (runBody nested' b n f) := by
    refine Repeats.bind fun _ => (mirrors_runCode hx hn hsc _ _).bind fun pt => ?_
    split
    · exact mirrors_read_bind repeats
    · exact repeats
  unfold instructionBlock
  refine Repeats.bind fun r => ?_
  dsimp only
  split
  · exact Repeats.bind fun _ => hbody _ _
  · exact Repeats.bind fun _ => hbody _ _

theorem mirrors_liftBlock (b : Block) : Mirrors x sc (liftBlock nested b) (liftBlock nested' b) := by
  refine Repeats.bind fun o => ?_
  split
  · refine (repeats_checkBudget hx _).sat.bind fun _ => ?_
    split
    · exact mirrors_instructionBlock hx hn hsc b
    all_goals exact repeats
  · exact mirrors_pure _

theorem mirrors_followBlocks (f : Frame) (n : Option NodeId) :
    Mirrors x sc (followBlocks nested f n) (followBlocks nested' f n) := by
  refine Repeats.bind fun _ => Repeats.bind fun _ => mirrors_read_bind ?_
  show Mirrors x sc (forIn sc.blocks.blocks _ _ >>= _) (forIn sc.blocks.blocks _ _ >>= _)
  rw [← Array.forIn_toList, ← Array.forIn_toList]
  refine (mirrors_forIn₂ (R := Eq) (List.forall₂_refl _) fun b _ hb => ?_).bind fun _ =>
    repeats (h := sat_look fun _ _ _ => rfl)
  exact hb ▸ (mirrors_liftBlock hx hn hsc b).bind fun _ => mirrors_pure _

theorem mirrors_parseWith (f : Frame) (n : Option NodeId) :
    Mirrors x sc (parseWith nested f n) (parseWith nested' f n) :=
  Repeats.bind fun _ => mirrors_followBlocks hx hn hsc f n

end

theorem mirrors_parse_self (hx : x.Fits env config) (levels : Nat) :
    x.SameParser env config (parse levels) (parse levels) := by
  induction levels with
  | zero =>
    rintro sc rfl rfl hsc f n
    exact mirrors_parseWith hx .none hsc f n
  | succ levels ih =>
    rintro sc rfl rfl hsc f n
    exact mirrors_parseWith hx (.some ih) hsc f n

theorem mirrors_parse (hx : x.Fits env config) {levels levels' : Nat}
    (hle : levels ≤ levels') (hlevels : levels = levels' ∨ ∀ p b l, x.excused (.budgetExceeded p b) l) :
    x.SameParser env config (parse levels) (parse levels') := by
  induction levels generalizing levels' with
  | zero =>
    cases levels' with
    | zero => exact mirrors_parse_self hx 0
    | succ levels' =>
      rintro sc rfl rfl hsc f n
      exact mirrors_parseWith hx (.deeper (hlevels.resolve_left (by omega))
        (mirrors_parse_self hx _)) hsc f n
  | succ levels ih =>
    rintro sc rfl rfl hsc f n
    cases levels' with
    | zero => omega
    | succ levels' =>
      exact mirrors_parseWith hx (.some (ih (by omega) (hlevels.imp_left Nat.succ.inj))) hsc f n

end Methods

end BuildM

end StackLift
