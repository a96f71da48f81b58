import Mathlib.Data.List.Chain
import StackLift.Proofs.Rerun.Tame
import StackLift.Proofs.Tidy

/-!
# What a build guarantees

A build of any program, with any configuration and any decisions about inlining, ends in a graph whose
control has the shape of structured code (`Graph.Regular`), which refers to nothing that is gone, and in
which every value is used where it is available (`Graph.Available`); or it ends with an error that the
code can be blamed for.

Two things are taken for granted. No plugin lowers calls by itself, since such a plugin may write
anything into the graph. And no test of a handler heads a loop in a body that the build has parsed
(`parsedBodies`, `Body.isTame`): a handler that covers itself makes such a test.
-/
namespace StackLift

namespace Graph

/-! ## Dominance -/

/-- Every way from the start to `n` passes `l`. -/
def Dominates (g : Graph) (l n : NodeId) : Prop :=
  ∀ way : List NodeId, way.IsChain g.Step → way.head? = g.start → way.getLast? = some n → l ∈ way

/-- Where the value `x` is made: a fixed value at its own node, a phi at its merge, a proxy at its
exit, what is the same everywhere at the start, and what floats where its inputs are made. -/
inductive MadeAt (g : Graph) : NodeId → NodeId → Prop where
  | fixed {x : NodeId} {k : NodeKind} (hk : g.kind? x = some k) (hc : k.isControl = true) : MadeAt g x x
  | phi {x m : NodeId} (hk : g.kind? x = some (.phi m)) : MadeAt g x m
  | proxy {x e : NodeId} (hk : g.kind? x = some (.proxy e)) : MadeAt g x e
  | universal {x s : NodeId} {k : NodeKind} (hk : g.kind? x = some k) (hu : k.isUniversal = true)
    (hs : g.start = some s) : MadeAt g x s
  | floating {x i l : NodeId} {k : NodeKind} (hk : g.kind? x = some k) (hf : k.isFloating = true)
    (hi : i ∈ g.inputs x) (h : MadeAt g i l) : MadeAt g x l

/-- The value `x` can be used at the control node `n`. -/
structure Available (g : Graph) (x n : NodeId) : Prop where
  value : g.kindIs x NodeKind.isValue = true
  made : ∀ {l}, g.MadeAt x l → g.Dominates l n

variable {g : Graph} {A : Labels} {n x l m p : NodeId}

theorem MadeAt.needs (h : g.MadeAt x l) : g.Needs x l ∨ g.start = some l := by
  induction h with
  | fixed hk hc => exact .inl (.fixed hk hc)
  | phi hk => exact .inl (.phi hk)
  | proxy hk => exact .inl (.proxy hk)
  | universal _ _ hs => exact .inr hs
  | floating hk hf hi _ ih => exact ih.imp_left (.floating hk hf hi)

theorem dominates_start (h : g.start = some l) : g.Dominates l n := by
  intro way _ hhead _
  rw [h] at hhead
  exact List.mem_of_mem_head? hhead

theorem Cert.dominates (h : g.Cert A) (hl : A n l) : g.Dominates l n := by
  intro way
  induction way using List.reverseRecOn generalizing n with
  | nil =>
    intro _ _ hlast
    cases hlast
  | append_singleton way m ih =>
    intro hway hhead hlast
    obtain rfl : m = n := by simpa using hlast
    rcases List.eq_nil_or_concat way with rfl | ⟨front, p, rfl⟩
    · obtain rfl := h.start hhead.symm hl
      simp
    · obtain ⟨hfront, -, hstep⟩ := List.isChain_append.1 hway
      obtain ⟨e, d, hd, rfl, rfl⟩ := hstep p (by simp) m (by simp)
      rcases h.edge hd hl with rfl | hl
      · simp
      · refine List.mem_append_left _ (ih hl hfront ?_ (by simp))
        rw [← hhead, List.head?_append_of_ne_nil _ (by simp)]

theorem Cert.available (h : g.Cert A) (hx : g.Avail (A n) x) : g.Available x n :=
  ⟨hx.value, fun hl => hl.needs.elim (fun hl => h.dominates (hx.needs hl)) dominates_start⟩

/-! ## The shape of control -/

theorem length_predecessors (hg : g.Coherent) (n : NodeId) :
    (g.predecessors n).length = g.inDegree n := by
  rw [predecessors, List.length_map, inDegree, ← hg.linked.map_predecessorEdges, List.length_map]

theorem incoming_of_predecessors (hg : g.Coherent) {j : Nat} (h : (g.predecessors n)[j]? = some p) :
    ∃ e d, (g.incoming n)[j]? = some e ∧ g.edge? e = some d ∧ d.source = p := by
  rw [predecessors, List.getElem?_map, Option.map_eq_some_iff] at h
  obtain ⟨⟨e, d⟩, hj, rfl⟩ := h
  refine ⟨e, d, ?_, (hg.linked.mem_predecessorEdges.1 (List.mem_of_getElem? hj)).1, rfl⟩
  rw [← hg.linked.map_predecessorEdges, List.getElem?_map, hj]
  rfl

/-! ## Frequencies -/

theorem annotate_eq (g : Graph) (loops : List LoopFrequency) :
    ∃ fr, g.annotate loops = { g with frequencies := fr } := by
  unfold annotate
  induction loops generalizing g with
  | nil => exact ⟨g.frequencies, rfl⟩
  | cons f loops ih => exact ih (g.setFrequency f.header f.frequency)

theorem Neat.annotate (h : g.Neat A) (loops : List LoopFrequency) : (g.annotate loops).Neat A := by
  obtain ⟨fr, heq⟩ := g.annotate_eq loops
  rw [heq]
  have hc := h.sound.coherent
  have hav : ∀ {P : NodeSet} {x}, g.Avail P x → ({ g with frequencies := fr } : Graph).Avail P x := by
    intro P x hx
    obtain ⟨k, hkx, -⟩ := kindIs_iff.1 hx.value
    exact hx.of_fewer (contains_of_kind? (show g.kind? x = some k from hkx)) fun hn => ⟨hn, rfl⟩
  refine ⟨⟨⟨hc.outgoing, hc.incoming, hc.nodupOut, hc.nodupIn, hc.source, hc.target⟩,
    fun hx => { h.sound.node hx with }, h.sound.start⟩, ⟨h.shaped.exits, h.shaped.silent, h.shaped.behind,
    h.shaped.single, h.shaped.joins, h.shaped.rooted⟩, ⟨fun {n x} hx => ?_, h.cert.edge, h.cert.start⟩⟩
  obtain ⟨h1, h2, h3, h4, h5, h6⟩ := h.cert.node hx
  exact ⟨h1, h2, fun hc i hi => hav (h3 hc i hi), fun hm hv he hd => hav (h4 hm hv he hd),
    fun he i hi => hav (h5 he i hi), fun hs => ⟨(h6 hs).1, fun a ha v hv => hav ((h6 hs).2 a ha v hv)⟩⟩

end Graph

section Built

variable {env : Env} {config : Config} {root id : MethodId} {built : Built} {e : Error}
  {E : Error → Prop} {g : Graph}

/-! ## Errors -/

theorem BlockMap.ofBody_error {body : Body} (hv : body.validate = .ok ())
    (h : BlockMap.ofBody body = .error e) : e.isOrdinary = true := by
  unfold BlockMap.ofBody at h
  rw [hv] at h
  simp only [bind, Except.bind] at h
  split at h
  · cases h
    rfl
  · cases h

theorem Hierarchy.mem_of_lookup {h : Hierarchy} {m : MethodDecl}
    (hm : h.lookupMethod id = .ok m) : m ∈ h.methods := by
  unfold Hierarchy.lookupMethod at hm
  split at hm
  · cases hm
  · split at hm
    · next d hd =>
      cases hm
      exact List.mem_of_find?_eq_some hd
    · cases hm

theorem prepare_error (hallow : Allows E env) (h : prepare env config root = .error e) : E e := by
  unfold prepare at h
  cases hr : findRoot env.hierarchy root with
  | error e' =>
    rw [hr] at h
    cases h
    refine hallow.ordinary _ ?_
    unfold findRoot at hr
    split at hr
    · cases hr
      rfl
    · split at hr
      · cases hr
        rfl
      · cases hr
  | ok r =>
    obtain ⟨decl, body⟩ := r
    rw [hr] at h
    have hroot := findRoot_ok hr
    cases hf : Frame.withArgs body.maxLocals (Graph.addParameters {} decl.argKinds).1 with
    | error e' =>
      simp only [hf, bind, Except.bind] at h
      cases h
      exact hallow.ordinary _ (Frame.withArgs_error hf)
    | ok f =>
      cases hs : Scope.ofMethod env config decl body [root] none false with
      | error e' =>
        simp only [hf, hs, bind, Except.bind] at h
        cases h
        exact hallow.map hroot.1 hroot.2 (Scope.ofMethod_error hs)
      | ok sc =>
        simp only [hf, hs, bind, Except.bind] at h
        cases h

theorem parse_finish {sc : Scope} {f : Frame} {x : Exits} {w : Work}
    (hallow : Allows E env) (hp : prepare env config root = .ok (sc, f, g))
    (hw : BuildM.parseTame config.maxInliningDepth f none sc
      { graph := g, table := Table.blank sc.blocks.size } = .ok x w) :
    ∃ g' A, w.graph.tidy = .ok g' ∧ g'.check = .ok () ∧ g'.Neat A ∧ g'.Tight ∧
      ∀ n, g'.Settled n := by
  have hparse := parseTame_root hallow config.maxInliningDepth hp
  rw [BuildM.Ensures, hw] at hparse
  obtain ⟨A, hgood, hstart⟩ := hparse
  obtain ⟨g', A', hg', hneat, htight, hs, hb⟩ := Graph.tidy_good hgood.neat
  exact ⟨g', A', hg', hneat.check htight (hs ▸ hstart), hneat, htight, hb⟩

/-! ## Sample programs -/

/-- A method that hands its argument back after a call, the method that it calls, and a method that
finds nothing on the stack. -/
def sampleProgram : Env where
  hierarchy.methods :=
    [{ id := ⟨0⟩, name := "same", holder := ⟨0⟩, flags.static := true, params := [.int], returns := .int,
       body := some
         { code := #[.load 0, .invoke .static ⟨1⟩, .retValue], maxLocals := 1, handlers := [] } },
     { id := ⟨1⟩, name := "idle", holder := ⟨0⟩, flags.static := true,
       body := some { code := #[.ret], maxLocals := 0, handlers := [] } },
     { id := ⟨2⟩, name := "lost", holder := ⟨0⟩, flags.static := true,
       body := some { code := #[.pop, .ret], maxLocals := 0, handlers := [] } }]

/-- A method that calls another until that answers zero. What is thrown is caught, and a call that does
nothing is made. -/
def retryProgram : Env where
  hierarchy.methods :=
    [{ id := ⟨0⟩, name := "retry", holder := ⟨0⟩, flags.static := true, params := [.int],
       body := some {
         code := #[.load 0, .invoke .static ⟨1⟩, .store 0, .goto ⟨6⟩, .pop, .invoke .static ⟨2⟩,
           .load 0, .ifZero .ne ⟨0⟩, .ret]
         maxLocals := 1, handlers := [{ start := ⟨0⟩, stop := ⟨2⟩, entry := ⟨4⟩, catchType := none }] } },
     { id := ⟨1⟩, name := "work", holder := ⟨0⟩, flags := { static := true, native := true },
       params := [.int], returns := .int },
     { id := ⟨2⟩, name := "idle", holder := ⟨0⟩, flags.static := true,
       body := some { code := #[.ret], maxLocals := 0, handlers := [] } }]

/-- What a graph of the retry program has nodes of. -/
def retryClasses : List NodeClass :=
  [.merge, .loopHeader, .loopExit, .phi, .proxy, .invokeWithException, .exceptionObject]

theorem retryProgram_builds : ∃ built, build retryProgram { livenessPruning := false } ⟨0⟩ = .ok built ∧
    ∀ c ∈ retryClasses, built.graph.nodesOf c ≠ [] := by
  have hok : (build retryProgram { livenessPruning := false } ⟨0⟩).toOption.any (fun b =>
    decide (∀ c ∈ retryClasses, b.graph.nodesOf c ≠ [])) = true := by decide +kernel
  cases h : build retryProgram { livenessPruning := false } ⟨0⟩ with
  | error e =>
    rw [h] at hok
    cases hok
  | ok built =>
    rw [h] at hok
    exact ⟨built, rfl, of_decide_eq_true hok⟩

theorem retryProgram_tame :
    ∀ body ∈ parsedBodies retryProgram { livenessPruning := false } ⟨0⟩, body.isTame = true :=
  List.all_eq_true.1 (by decide +kernel)

theorem Graph.exists_phi (h : g.nodesOf .phi ≠ []) :
    ∃ n m x, g.node? n = some x ∧ x.kind = .phi m := by
  obtain ⟨n, hn⟩ := List.exists_mem_of_ne_nil _ h
  obtain ⟨x, hx, hk⟩ := mem_nodesWhere.1 hn
  cases hkind : x.kind with
  | phi m => exact ⟨n, m, x, hx, hkind⟩
  | _ =>
    rw [hkind] at hk
    simp [NodeKind.toClass] at hk

theorem Allows.any (hcalls : env.plugins.calls = []) : Allows (fun _ => True) env :=
  ⟨fun _ _ => trivial, fun _ _ _ => trivial, hcalls⟩

theorem build_neat (hcalls : env.plugins.calls = [])
    (htame : ∀ body ∈ parsedBodies env config root, body.isTame = true)
    (h : build env config root = .ok built) : ∃ A, built.graph.Neat A ∧ built.graph.Tight ∧
      ∀ n, built.graph.Settled n := by
  obtain ⟨sc, f, g, x, w, hp, hw, hfinish⟩ := build_ok h
  have htamed := BuildM.parseTame_of_parse hp htame
  rw [hw] at htamed
  obtain ⟨g', A, htidy, hcheck, hneat, htight, hbegins⟩ := parse_finish (.any hcalls) hp htamed
  simp only [finish, htidy, hcheck, bind, Except.bind, pure, Except.pure, Except.ok.injEq] at hfinish
  subst hfinish
  obtain ⟨fr, heq⟩ := g'.annotate_eq g'.loopFrequencies
  refine ⟨A, hneat.annotate _, ?_, ?_⟩
  · show (g'.annotate g'.loopFrequencies).Tight
    rw [heq]
    exact htight
  · show ∀ n, (g'.annotate g'.loopFrequencies).Settled n
    rw [heq]
    exact hbegins

/-! ## The guarantees -/

/-- **Errors.** If all bodies are valid, and those that it parses are tame, a build fails only where the
code, a budget or the root can be blamed, and what it has lifted can always be tidied and passes the
check. -/
theorem build_error (hvalid : ∀ m ∈ env.hierarchy.methods, ∀ body, m.body = some body →
      body.validate = .ok ()) (hcalls : env.plugins.calls = [])
    (htame : ∀ body ∈ parsedBodies env config root, body.isTame = true) :
    (∀ e, build env config root = .error e → e.isOrdinary = true) ∧
      ∀ sc f g x w, prepare env config root = .ok (sc, f, g) →
        BuildM.parse config.maxInliningDepth f none sc
          { graph := g, table := Table.blank sc.blocks.size } = .ok x w →
        ∃ g', w.graph.tidy = .ok g' ∧ g'.check = .ok () := by
  have hallow : Allows (fun e => e.isOrdinary = true) env :=
    ⟨fun _ he => he, fun hm hb he => BlockMap.ofBody_error
      (hvalid _ (Hierarchy.mem_of_lookup hm) _ hb) he,
      hcalls⟩
  have hlifted : ∀ sc f g x w, prepare env config root = .ok (sc, f, g) →
      BuildM.parse config.maxInliningDepth f none sc
        { graph := g, table := Table.blank sc.blocks.size } = .ok x w →
      ∃ g', w.graph.tidy = .ok g' ∧ g'.check = .ok () := by
    intro sc f g x w hp hw
    have htamed := BuildM.parseTame_of_parse hp htame
    rw [hw] at htamed
    obtain ⟨g', -, htidy, hcheck, -⟩ := parse_finish hallow hp htamed
    exact ⟨g', htidy, hcheck⟩
  refine ⟨fun e h => ?_, hlifted⟩
  rcases build_fails h with hp | ⟨sc, f, g, hp, ⟨w, hw⟩ | ⟨x, w, hw, hfinish⟩⟩
  · exact prepare_error hallow hp
  · have htamed := BuildM.parseTame_of_parse hp htame
    rw [hw] at htamed
    obtain ⟨w', hw'⟩ := htamed
    have := parseTame_root hallow config.maxInliningDepth hp
    rwa [BuildM.Ensures, hw'] at this
  · obtain ⟨g', htidy, hcheck⟩ := hlifted sc f g x w hp hw
    simp only [finish, htidy, hcheck, bind, Except.bind, pure, Except.pure] at hfinish
    cases hfinish

theorem build_error_sample : ∃ e, build sampleProgram {} ⟨2⟩ = .error e ∧ e.isOrdinary = true := by
  have hvalid : ∀ m ∈ sampleProgram.hierarchy.methods, ∀ body, m.body = some body →
      body.validate = .ok () := by
    intro m hm body hb
    simp only [sampleProgram, List.mem_cons, List.not_mem_nil, or_false] at hm
    rcases hm with rfl | rfl | rfl <;> cases hb <;> rfl
  have herror : (build sampleProgram {} ⟨2⟩).isOk = false := by decide +kernel
  cases h : build sampleProgram {} ⟨2⟩ with
  | ok built =>
    rw [h] at herror
    cases herror
  | error e =>
    exact ⟨e, rfl, (build_error hvalid rfl (List.all_eq_true.1 (by decide +kernel))).1 e h⟩

/-- **No dangling references.** What a live node names is live: its inputs, the values of all frames of
its snapshot, and the merge, exit or header that it belongs to, which is of the right kind. -/
theorem build_closed (hcalls : env.plugins.calls = [])
    (htame : ∀ body ∈ parsedBodies env config root, body.isTame = true)
    (h : build env config root = .ok built)
    {n : NodeId} {x : Node} (hx : built.graph.node? n = some x) :
    (∀ i ∈ x.inputs, built.graph.contains i = true) ∧
      (∀ s, x.snapshot = some s → ∀ a ∈ s.chain, ∀ v ∈ a.frame.values,
        built.graph.contains v.node = true) ∧
      (∀ m, x.kind = .phi m → built.graph.kindIs m NodeKind.isMerge = true) ∧
      (∀ e, x.kind = .proxy e → ∃ l, built.graph.kind? e = some (.loopExit l)) ∧
      ∀ l, x.kind = .loopEnd l ∨ x.kind = .loopExit l →
        ∃ i, built.graph.kind? l = some (.loopHeader i) := by
  obtain ⟨A, hneat, -, -⟩ := build_neat hcalls htame h
  exact ⟨fun i hi => ((hneat.sound.node hx).inputs i hi).contains,
    fun s hs a ha v hv => ((hneat.sound.node hx).snapshots hs a ha v hv).contains,
    fun m hm => ((hneat.sound.node hx).phi hm).1, fun e he => (hneat.sound.node hx).proxy he,
    fun l hl => ((hneat.sound.node hx).header hl).1⟩

theorem build_closed_retry : ∃ built n m x, build retryProgram { livenessPruning := false }
    ⟨0⟩ = .ok built ∧
    built.graph.node? n = some x ∧ x.kind = .phi m ∧ built.graph.kindIs m NodeKind.isMerge = true ∧
    ∀ i ∈ x.inputs, built.graph.contains i = true := by
  obtain ⟨built, h, hshape⟩ := retryProgram_builds
  obtain ⟨n, m, x, hx, hk⟩ := Graph.exists_phi (hshape .phi (by decide))
  have hclosed := build_closed rfl retryProgram_tame h hx
  exact ⟨built, n, m, x, h, hx, hk, hclosed.2.2.1 m hk, hclosed.1⟩

/-- **Dominance.** Everything is used where it is available: the inputs of a control node and the values
of its snapshot at the node, the inputs of a phi at the predecessors of its merge, one by one, and the
input of a proxy at its exit. -/
theorem build_available (hcalls : env.plugins.calls = [])
    (htame : ∀ body ∈ parsedBodies env config root, body.isTame = true)
    (h : build env config root = .ok built)
    {n : NodeId} {x : Node} (hx : built.graph.node? n = some x) :
    (x.kind.isControl = true → ∀ i ∈ x.inputs, built.graph.Available i n) ∧
      (∀ m, x.kind = .phi m → (built.graph.predecessors m).length = x.inputs.length ∧
        ∀ (j : Nat) v p, x.inputs[j]? = some v → (built.graph.predecessors m)[j]? = some p →
          built.graph.Available v p) ∧
      (∀ e, x.kind = .proxy e → ∀ i ∈ x.inputs, built.graph.Available i e) ∧
      ∀ s, x.snapshot = some s → x.kind.isControl = true ∧
        ∀ a ∈ s.chain, ∀ v ∈ a.frame.values, built.graph.Available v.node n := by
  obtain ⟨A, hneat, -, -⟩ := build_neat hcalls htame h
  have hg := hneat.sound.coherent
  have hseat := hneat.cert.node hx
  refine ⟨fun hc i hi => hneat.cert.available (hseat.input hc i hi), fun m hm => ⟨?_, ?_⟩,
    fun e he i hi => hneat.cert.available (hseat.proxy he i hi), fun s hs => ⟨(hseat.recalled hs).1, ?_⟩⟩
  · obtain ⟨-, -, -, hlen⟩ := (hneat.sound.node hx).phi hm
    rw [Graph.length_predecessors hg]
    simpa [owe, Debt.missing, Debt.expected] using hlen.symm
  · intro j v p hv hp
    obtain ⟨e, d, he, hd, rfl⟩ := Graph.incoming_of_predecessors hg hp
    exact hneat.cert.available (hseat.phi hm hv he hd)
  · exact fun a ha v hv => hneat.cert.available ((hseat.recalled hs).2 a ha v hv)

theorem build_available_retry : ∃ built n m x, build retryProgram { livenessPruning := false }
    ⟨0⟩ = .ok built ∧ built.graph.node? n = some x ∧ x.kind = .phi m ∧
    (built.graph.predecessors m).length = x.inputs.length ∧
    ∀ (j : Nat) v p, x.inputs[j]? = some v → (built.graph.predecessors m)[j]? = some p →
      built.graph.Available v p := by
  obtain ⟨built, h, hshape⟩ := retryProgram_builds
  obtain ⟨n, m, x, hx, hk⟩ := Graph.exists_phi (hshape .phi (by decide))
  exact ⟨built, n, m, x, h, hx, hk, (build_available rfl retryProgram_tame h hx).2.1 m hk⟩

end Built

end StackLift
