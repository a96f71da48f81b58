import StackLift.Proofs.Built
import StackLift.Proofs.Rerun.Actions

/-!
# What limits and profiles can change

The two-run logic of the actions, for whole builds.

* `build_cutoff`: with larger limits a build comes to the same result, unless it ran into a limit. So a
  limit cuts a build off, and does nothing else.
* `build_withoutOdds`: a profile decides on the numbers of a graph alone, as long as it does not tell
  what may throw or what is never taken.
-/
namespace StackLift

/-! ## Two runs -/

theorem prepare_rerun (x : Rerun) (env : Env) (config : Config) (m : MethodId) :
    prepare (env.rerun x) (config.rerun x) m =
      (prepare env config m).map fun r => (r.1.rerun x, r.2) := by
  unfold prepare
  rw [show (env.rerun x).hierarchy = env.hierarchy from rfl]
  cases findRoot env.hierarchy m with
  | error e => rfl
  | ok r =>
    simp only [bind, Except.bind]
    cases Frame.withArgs r.2.maxLocals (Graph.addParameters {} r.1.argKinds).1 with
    | error e => rfl
    | ok f =>
      simp only [Scope.ofMethod_rerun]
      cases Scope.ofMethod env config r.1 r.2 [m] none false <;> rfl

theorem build_alike {x : Rerun} {env : Env} {config : Config} (hx : x.Fits env config) (m : MethodId) :
    (∃ e, build env config m = .error e ∧
      ((∃ l, x.excused e l) ∨ build (env.rerun x) (config.rerun x) m = .error e)) ∨
    ∃ w v, x.Alike w v ∧ build env config m = finish m w.graph w.report ∧
      build (env.rerun x) (config.rerun x) m = finish m v.graph v.report := by
  unfold build buildTraced liftRoot
  rw [prepare_rerun]
  cases hp : prepare env config m with
  | error e => exact .inl ⟨e, rfl, .inr rfl⟩
  | ok r =>
    obtain ⟨sc, f, g⟩ := r
    obtain ⟨henv, hconfig, hknown⟩ := prepare_known hp
    have hdepth : config.maxInliningDepth = x.maxInliningDepth ∨ ∀ p b l, x.excused
      (.budgetExceeded p b) l :=
      hx.budget.imp_left (·.2)
    have hrun := (BuildM.mirrors_parse hx hx.depth hdepth sc henv hconfig hknown f none
      { graph := g, table := Table.blank sc.blocks.size } _ (.refl _)).2
    simp only [Except.map, bind, Except.bind, pure, Except.pure, Config.rerun]
    rw [show (sc.rerun x).blocks = sc.blocks from rfl]
    cases hw : BuildM.parse config.maxInliningDepth f none sc
        { graph := g, table := Table.blank sc.blocks.size } with
    | ok a w =>
      rw [hw] at hrun
      obtain ⟨v, hv, hwv⟩ := hrun
      exact .inr ⟨w, v, hwv, rfl, by rw [hv]⟩
    | error e w =>
      rw [hw] at hrun
      refine .inl ⟨e, rfl, hrun.imp (fun h => ⟨_, h⟩) fun hv => ?_⟩
      obtain ⟨v, hv⟩ := hv
      rw [hv]

/-! ## Limits -/

/-- **Limits are cut-offs.** A build comes to the result that it would come to with larger limits, or it
runs into a limit. -/
theorem build_cutoff (env : Env) (config : Config) (m : MethodId) (nodes depth : Nat)
    (hnodes : config.maxNodeCount ≤ nodes) (hdepth : config.maxInliningDepth ≤ depth) :
    (build env config m = build env { config with maxNodeCount := nodes, maxInliningDepth := depth } m ∨
      ∃ p b, build env config m = .error (.budgetExceeded p b)) ∧
    ∀ built, build env config m = .ok built →
      build env { config with maxNodeCount := nodes, maxInliningDepth := depth } m = .ok built := by
  have hcut : build env config m = build env
    { config with maxNodeCount := nodes, maxInliningDepth := depth } m ∨
      ∃ p b, build env config m = .error (.budgetExceeded p b) := by
    let x : Rerun := ⟨env.profile, nodes, depth, id, fun e _ => ∃ p b, e = .budgetExceeded p b,
      fun h _ => h⟩
    have hx : x.Fits env config := by
      refine ⟨hnodes, hdepth, Or.inr fun p b _ => ⟨p, b, rfl⟩, fun _ _ => rfl,
        fun _ _ _ => ?_, Or.inr rfl⟩
      exact List.forall₂_same.2 fun p _ => .refl p
    rcases build_alike hx m with ⟨e, he, hexcused | hsame⟩ | ⟨w, v, hwv, hw, hv⟩
    · obtain ⟨-, p, b, rfl⟩ := hexcused
      exact Or.inr ⟨p, b, he⟩
    · exact Or.inl (he.trans hsame.symm)
    · have hgraph : w.graph = v.graph := by simpa only [x, Graph.mapOdds_id] using hwv.graph
      rw [hgraph, hwv.report] at hw
      exact Or.inl (hw.trans hv.symm)
  refine ⟨hcut, fun built h => ?_⟩
  rcases hcut with hsame | ⟨p, b, hbudget⟩
  · exact hsame ▸ h
  · rw [hbudget] at h
    cases h

/-- The sample program nests one call, so without a level to nest into it is cut off. -/
theorem build_cutoff_sample :
    ∃ p b, build sampleProgram { maxNodeCount := 5, maxInliningDepth := 0 } ⟨0⟩ = .error
    (.budgetExceeded p b) := by
  have hfails : (build sampleProgram { maxNodeCount := 5, maxInliningDepth := 0 } ⟨0⟩).isOk = false := by
    decide +kernel
  have hworks : (build sampleProgram {} ⟨0⟩).isOk = true := by decide +kernel
  refine (build_cutoff sampleProgram { maxNodeCount := 5, maxInliningDepth := 0 } ⟨0⟩ 100000 8
    (by decide) (by decide)).1.resolve_left fun hsame => ?_
  rw [hsame] at hfails
  exact absurd (hworks.symm.trans hfails) (by decide)

/-! ## Profiles -/

/-- A unit with the numbers taken out. -/
def Built.withoutOdds (b : Built) : Built :=
  { b with
    graph := b.graph.mapOdds fun _ => 0.0
    loops := b.loops.map fun l => { l with frequency := 0.0 } }

namespace Graph

variable {φ : Float → Float} {g h : Graph}

theorem setFrequency_mapOdds {n : NodeId} {r : Float} :
    (g.setFrequency n r).mapOdds φ = (g.mapOdds φ).setFrequency n (φ r) := by
  simp only [setFrequency, mapOdds, List.map_cons, List.filter_map]
  rfl

theorem annotate_mapOdds {loops : List LoopFrequency} : (g.annotate loops).mapOdds φ =
      (g.mapOdds φ).annotate (loops.map fun l => { l with frequency := φ l.frequency }) := by
  unfold annotate
  induction loops generalizing g with
  | nil => rfl
  | cons l loops ih =>
    simp only [List.foldl_cons, List.map_cons]
    rw [ih, setFrequency_mapOdds]

end Graph

theorem loops_withoutOdds (loops : List LoopFrequency) :
    loops.map (fun l => { l with frequency := 0.0 }) = (loops.map (·.header)).map fun n => ⟨n, 0.0⟩ := by
  rw [List.map_map]
  rfl

theorem finish_withoutOdds {g h : Graph} (hg : (g.mapOdds fun _ => 0.0) = h.mapOdds fun _ => 0.0)
    (m : MethodId) (report : Report) :
    (finish m g report).map Built.withoutOdds = (finish m h report).map Built.withoutOdds := by
  have htidy : g.tidy.map (Graph.mapOdds fun _ => 0.0) = h.tidy.map (Graph.mapOdds fun _ => 0.0) := by
    rw [← Graph.tidy_mapOdds, ← Graph.tidy_mapOdds, hg]
  unfold finish
  cases hgt : g.tidy with
  | error e =>
    cases hht : h.tidy with
    | error e' =>
      rw [hgt, hht] at htidy
      cases htidy
      rfl
    | ok h' =>
      rw [hgt, hht] at htidy
      cases htidy
  | ok g' =>
    cases hht : h.tidy with
    | error e' =>
      rw [hgt, hht] at htidy
      cases htidy
    | ok h' =>
      rw [hgt, hht] at htidy
      have hg' : (g'.mapOdds fun _ => 0.0) = h'.mapOdds fun _ => 0.0 := Except.ok.inj htidy
      have hcheck : g'.check = h'.check := by
        rw [← Graph.check_mapOdds (φ := fun _ => 0.0), hg', Graph.check_mapOdds]
      have hloops := Graph.loopFrequencies_headers hg'
      simp only [bind, Except.bind, hcheck]
      cases h'.check with
      | error e => rfl
      | ok _ =>
        simp only [pure, Except.pure, Except.map, Built.withoutOdds, Graph.annotate_mapOdds, hg',
          loops_withoutOdds, hloops]

theorem Profile.length_odds (p q : Profile) (m : MethodId) (pos : Position) (i : Instruction Position) :
    (p.odds m pos i).length = (q.odds m pos i).length := by
  cases i with
  | switch _ targets _ => exact (length_switchProbabilities ..).trans (length_switchProbabilities ..).symm
  | _ => rfl

/-- **Profiles do not interfere.** Two profiles that tell the same about what may throw and about what is
never taken lead to the same unit, numbers apart. -/
theorem build_withoutOdds (env : Env) (q : Profile) (config : Config) (m : MethodId)
    (hcalls : env.plugins.calls = []) (hthrows : ∀ m p, q.mayThrow m p = env.profile.mayThrow m p)
    (hnever : config.deadCodeElimination = true → ∀ id decl body p i,
      env.hierarchy.lookupMethod id = .ok decl → decl.body = some body → body.instruction? p = some i →
      (env.profile.odds decl.id p i).map (decide <| · ≤ 0.0) = (q.odds decl.id p i).map
      (decide <| · ≤ 0.0)) :
    (build env config m).map Built.withoutOdds =
      (build { env with profile := q } config m).map Built.withoutOdds := by
  let x : Rerun := ⟨q, config.maxNodeCount, config.maxInliningDepth, fun _ => 0.0,
    fun _ _ => False, fun h _ => h⟩
  have hx : x.Fits env config := by
    refine ⟨le_refl _, le_refl _, Or.inl ⟨rfl, rfl⟩, hthrows, ?_, Or.inl hcalls⟩
    intro id decl body p i hdecl hbody hi
    rw [List.forall₂_iff_get]
    refine ⟨env.profile.length_odds q .., fun k hk hk' => ⟨rfl, ?_⟩⟩
    cases hdce : config.deadCodeElimination with
    | false => simp only [Bool.and_false]
    | true =>
      have hsame := congrArg (·[k]?) (hnever hdce id decl body p i hdecl hbody hi)
      simpa [hk, show k < (q.odds decl.id p i).length from hk'] using hsame
  rcases build_alike hx m with ⟨e, he, hexcused | hsame⟩ | ⟨w, v, hwv, hw, hv⟩
  · exact hexcused.elim fun _ => False.elim
  · rw [he]
    exact congrArg _ hsame.symm
  · rw [hw, hwv.report, finish_withoutOdds hwv.graph]
    exact congrArg _ hv.symm

/-- A method that counts nothing: it goes round until its argument is zero. -/
def waitingProgram : Env where
  hierarchy.methods :=
    [{ id := ⟨0⟩, name := "wait", holder := ⟨0⟩, flags.static := true, params := [.int],
       body := some
         { code := #[.load 0, .ifZero .eq ⟨3⟩, .goto ⟨0⟩, .ret], maxLocals := 1, handlers := [] } }]

/-- Every branch is taken once in four times. -/
def seldomTaken : Profile := { Profile.blank with branch := fun _ _ => some 0.25 }

/-- Whether the wait is expected to be short or long, it is lifted in one way. -/
theorem build_withoutOdds_waiting :
    ∃ built built', build waitingProgram { livenessPruning := false } ⟨0⟩ = .ok built ∧
      build { waitingProgram with profile := seldomTaken } { livenessPruning := false } ⟨0⟩ = .ok built' ∧
      built.withoutOdds = built'.withoutOdds := by
  have hworks : (build waitingProgram { livenessPruning := false } ⟨0⟩).isOk = true := by decide +kernel
  have hnever : ∀ m p i, (Profile.blank.odds m p i).map (decide <| · ≤ 0.0) =
      (seldomTaken.odds m p i).map (decide <| · ≤ 0.0) := by
    intro m p i
    have heven : Profile.blank.branchProbability m p = 0.5 := rfl
    have hprobability : Profile.isProbability 0.25 = true := by decide +kernel
    have hseldom : seldomTaken.branchProbability m p = 0.25 := by
      simp only [Profile.branchProbability, seldomTaken, hprobability, if_true]
    have hboth : [decide ((0.5 : Float) ≤ 0.0), decide ((1.0 - 0.5 : Float) ≤ 0.0)] =
        [decide ((0.25 : Float) ≤ 0.0), decide ((1.0 - 0.25 : Float) ≤ 0.0)] := by decide +kernel
    cases i with
    | ifCompare _ _ | ifZero _ _ | ifNull _ | ifNonNull _ =>
      simpa only [Profile.odds, List.map_cons, List.map_nil, heven, hseldom] using hboth
    | switch _ _ _ => rfl
    | _ => simp only [Profile.odds]
  have hokay : ∀ r r' : Except Error Built, r.isOk = true →
    r.map Built.withoutOdds = r'.map Built.withoutOdds →
      ∃ built built', r = .ok built ∧ r' = .ok built' ∧ built.withoutOdds = built'.withoutOdds := by
    intro r r' hr hsame
    cases r with
    | error e => cases hr
    | ok built =>
      cases r' with
      | error e => cases hsame
      | ok built' => exact ⟨built, built', rfl, rfl, Except.ok.inj hsame⟩
  exact hokay _ _ hworks (build_withoutOdds waitingProgram seldomTaken { livenessPruning := false }
    ⟨0⟩ rfl (fun _ _ => rfl)
    fun _ _ _ _ p i _ _ _ => hnever _ p i)

end StackLift
