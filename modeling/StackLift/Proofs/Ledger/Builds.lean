import StackLift.Proofs.Built
import StackLift.Proofs.Ledger.Calls

/-!
# Reports of builds

A method is lifted block by block and instruction by instruction, and each of them keeps the report
(`step_books`, `liftBlock_books`); so does a method with all that is inlined into it, by induction on how
deep calls may still nest (`parse_books`). What is tidied away afterwards is never reported.

For a finished unit this gives two results. `build_frames`: every snapshot shows the frames of calls that
were inlined, just as the report tells. `build_balances`: the report accounts for every call and for every
deoptimization that stands for something given up.
-/
namespace StackLift

variable {b : Block} {g : Graph} {ns : List NodeId} {m : MethodId} {i : Nat} {p : Position} {sc : Scope}

open BuildM

namespace BuildM

variable {u : Setting} {sc : Scope} {w : Work} {nested : Option Parser}

/-! ## Instructions -/

theorem step_books {i : Instruction Position} (hn : Serves u sc nested) (pt : Point) :
    Books u sc (step nested i pt) w := by
  have hsc := hn.follows
  unfold step
  cases i with
  | dup =>
    dsimp only
    split <;> exact Stays.books hsc
  | invoke kind method => exact invoke_books hn pt
  | new type | checkCast type | instanceOf type => exact withType_books hsc type pt (Stays.books hsc)
  | nop | const | constNull | load | store | pop | swap | arith | ifCompare | ifZero | ifNull |
    ifNonNull | goto
    | switch | throw | ret | retValue | monitorEnter | monitorExit => exact Stays.books hsc

theorem runCode_books (hn : Serves u sc nested) (ps : List Position) (pt : Point) :
    Books u sc (runCode nested ps pt) w := by
  induction ps generalizing pt w with
  | nil => exact .refl ..
  | cons p rest ih =>
    unfold runCode
    refine ensures_read_bind ?_
    split
    · exact (step_books hn _).bind fun pt' _ => ih pt'
    · exact .refl ..

/-! ## Blocks -/

theorem instructionBlock_books (hn : Serves u sc nested) (hb : b ∈ sc.blocks.blocks) :
    Books u sc (instructionBlock nested b) w := by
  have hsc := hn.follows
  have hcode : ∀ (node : NodeId) (f : Frame) (w' : Work),
      Books u sc (runBody nested b node f) w' := by
    intro node f w'
    refine Books.bind (Stays.books hsc) fun _ _ => (runCode_books hn _ _).bind fun pt w'' => ?_
    split
    · exact Stays.books hsc
    · exact .refl ..
  unfold instructionBlock
  cases hl : b.loopHeader with
  | none =>
    refine Books.bind (Calms.books (openBlock_calm (fun ho => ?_) _) hsc) fun r w1 => ?_
    · rw [ho.blocks b hb, Block.isLoopHeader, hl]
      rfl
    · exact hcode r.1 r.2 w1
  | some l =>
    refine Ensures.bind (Q := fun _ w' => ∃ e, w.table.slot? b.id = some e ∧
      w' = { w with table := w.table.put b.id { e with parsed := true } }) ?_ fun r w1 h1 => ?_
    · refine .chain (yields_entry fun e he => .chain (ensures_setEntry ?_))
      exact .chain (yields_demand fun _ _ => ensures_pure ⟨e, he, rfl⟩)
    · obtain ⟨e, he, rfl⟩ := h1
      exact Ensures.bind (openHeader_calm he l r.1 r.2) fun f w2 h2 => (hcode r.1 f w2).mono fun _ _ h =>
        (h2.unbooked hsc).trans h

theorem dispatchBlock_books (hsc : sc.Follows u) {b : BlockId}
    (hb : sc.Orderly → (sc.blocks.block b).isLoopHeader = false) (h : Nat) (next : Option BlockId) :
    Books u sc (dispatchBlock b h next) w := by
  unfold dispatchBlock
  refine ensures_read_bind (Books.bind (Calms.books (openBlock_calm hb _) hsc) fun r _ => ?_)
  refine Books.bind (Stays.books hsc) fun info _ => ?_
  refine Books.bind (Stays.books hsc) fun exception _ => ?_
  refine Books.bind (Stays.books hsc) fun _ _ => ?_
  refine Books.bind (Stays.books hsc) fun handlerBlock w1 => ?_
  cases info.catchType with
  | none => exact Stays.books hsc
  | some type =>
    refine Books.bind (Stays.books hsc) fun noMatch w2 => ?_
    dsimp only
    split
    · refine Ensures.bind (Q := fun _ w' =>
        ∃ u, w' = { w2 with report := w2.report.addUnresolved u }) ⟨_, rfl⟩
        fun _ w3 h3 => ?_
      obtain ⟨u, rfl⟩ := h3
      exact ((addReportedDeopt_calm rfl _ _).before fun _ _ => calm).mono fun _ _ h => h.bookedType hsc
    · exact Stays.books hsc

theorem liftBlock_books (hn : Serves u sc nested) (hb : b ∈ sc.blocks.blocks) :
    Books u sc (liftBlock nested b) w := by
  have hsc := hn.follows
  have hhead : b.kind ≠ .instructions → sc.Orderly → (sc.blocks.block b.id).isLoopHeader = false := by
    intro hk ho
    rw [ho.blocks b hb]
    exact ho.heads b hb hk
  unfold liftBlock
  refine Books.bind (Stays.books hsc) fun e _ => ?_
  split
  · refine Books.bind (Stays.books hsc) fun _ _ => ?_
    cases hk : b.kind with
    | instructions => exact instructionBlock_books hn hb
    | dispatch h next => exact dispatchBlock_books hsc (hhead (by rw [hk]; rintro ⟨⟩)) h next
    | exit => exact Calms.books (exitBlock_calm (hhead (by rw [hk]; rintro ⟨⟩))) hsc
    | unwind => exact Calms.books (unwindBlock_calm (hhead (by rw [hk]; rintro ⟨⟩))) hsc
  · exact .refl ..

/-! ## Methods -/

theorem parseWith_books (hn : Serves u sc nested) (f : Frame) (n : Option NodeId) :
    Books u sc (parseWith nested f n) w := by
  have hsc := hn.follows
  refine Books.bind (Stays.books hsc) fun _ _ => ?_
  refine Books.bind (Stays.books hsc) fun _ _ => ?_
  refine Books.bind (Stays.books hsc) fun _ _ => ensures_read_bind ?_
  rw [← Array.forIn_toList]
  refine Books.bind (books_forIn fun b hb _ => ?_) fun _ _ => .refl ..
  exact (liftBlock_books hn (Array.mem_toList_iff.1 hb)).bind fun _ _ => .refl ..

/-- How calls nest that may nest `levels` deep. -/
def below (P : Nat → Parser) : Nat → Option Parser
  | 0 => none
  | levels + 1 => some (P levels)

theorem parse_books {P : Nat → Parser} (hplain : u.env.plugins.Plain)
    (hP : ∀ {levels f n} {sc : Scope} {w : Work}, sc.Visited u → BlockMap.ofBody sc.body = .ok sc.blocks →
      (sc.Follows u → Books u sc (parseWith (below P levels) f n) w) → Books u sc (P levels f n) w)
    (levels : Nat) (hsc : sc.Visited u) (hmap : BlockMap.ofBody sc.body = .ok sc.blocks)
    (hdepth : sc.chain.length + levels ≤ u.config.maxInliningDepth + 1) (f : Frame)
      (n : Option NodeId) (w : Work) :
    Books u sc (P levels f n) w := by
  induction levels generalizing sc f n w with
  | zero => exact hP hsc hmap fun hsc => parseWith_books ⟨hsc, hplain, by rintro _ ⟨⟩⟩ f n
  | succ levels ih =>
    refine hP hsc hmap fun hsc => parseWith_books ⟨hsc, hplain, ?_⟩ f n
    rintro _ ⟨⟩
    exact ⟨by omega, fun hsc' hmap' hlen f n w => ih hsc' hmap' (by omega) f n w⟩

end BuildM

/-! ## Tidying -/

namespace Graph

variable {g g' : Graph} {o : Outline}

theorem foldl_removeNode_drifts (h : ∀ n ∈ ns, g.Unreported n) :
    g.Drifts o (ns.foldl removeNode g) ∧ (ns.foldl removeNode g).reported = g.reported := by
  induction ns generalizing g with
  | nil => exact ⟨.refl _ _, rfl⟩
  | cons n ns ih =>
    have hdrifts : g.Drifts o (g.removeNode n) := g.removeNode_drifts n
    obtain ⟨h1, h2⟩ := ih (g := g.removeNode n) fun m hm =>
      (h m (List.mem_cons_of_mem _ hm)).ages hdrifts.toAges
    exact ⟨hdrifts.trans h1, h2.trans (reported_removeNode (h n List.mem_cons_self))⟩

theorem fold_drifts {n : NodeId} (h : g.fold n = .ok g') (hn : g.Unreported n) :
    g.Drifts o g' ∧ g'.reported = g.reported := by
  unfold fold at h
  split at h
  · split at h
    · cases h
      exact ⟨.refl _ _, rfl⟩
    · next e d successor _ _ _ =>
      obtain ⟨g1, hr, h⟩ := ok_of_bind h
      cases h
      obtain ⟨h1, h2⟩ := retarget_drifts (o := o) hr
      exact ⟨h1.trans (g1.removeNode_drifts n), (reported_removeNode (hn.ages h1.toAges)).trans h2⟩
  · cases h
    exact ⟨.refl _ _, rfl⟩

theorem foldlM_fold_drifts (h : ns.foldlM fold g = .ok g') (hn : ∀ n ∈ ns, g.Unreported n) :
    g.Drifts o g' ∧ g'.reported = g.reported := by
  induction ns generalizing g with
  | nil =>
    cases h
    exact ⟨.refl _ _, rfl⟩
  | cons n ns ih =>
    rw [List.foldlM_cons] at h
    obtain ⟨g1, hf, h⟩ := ok_of_bind h
    obtain ⟨h1, h2⟩ := fold_drifts (o := o) hf (hn n List.mem_cons_self)
    obtain ⟨h3, h4⟩ := ih h fun m hm => (hn m (List.mem_cons_of_mem _ hm)).ages h1.toAges
    exact ⟨h1.trans h3, h4.trans h2⟩

theorem tidy_drifts (h : g.tidy = .ok g') : g.Drifts o g' ∧ g'.reported = g.reported := by
  have horphans : ∀ n ∈ g.orphans, g.Unreported n := by
    intro n hn
    obtain ⟨k, hk, hp⟩ := kindIs_iff.1 (mem_orphans.1 hn).1
    exact unreported_of_kind? hk (by cases k <;> first | rfl | cases hp)
  obtain ⟨h1, h2⟩ := foldl_removeNode_drifts (o := o) horphans
  unfold tidy at h
  have hbegins := foldlM_fold_drifts (o := o) h fun n hn => ?_
  · exact ⟨h1.trans hbegins.1, hbegins.2.trans h2⟩
  · obtain ⟨x, hx, hp⟩ := mem_nodesWhere.1 hn
    refine unreported_of_kind? (kind?_of_node? hx) ?_
    rw [Bool.and_eq_true, beq_iff_eq] at hp
    rw [hp.1]

theorem annotate_drifts (g : Graph) (loops : List LoopFrequency) :
    g.Drifts o (g.annotate loops) ∧ (g.annotate loops).reported = g.reported := by
  obtain ⟨fr, heq⟩ := g.annotate_eq loops
  rw [heq]
  exact drifts_of_nodes rfl fun _ => rfl

end Graph

theorem finish_booked {u : Setting} {w : Work} {built : Built}
    (hsc : sc.Follows u) (h : finish m w.graph w.report = .ok built) :
    Booked u sc w { w with graph := built.graph, report := built.report } := by
  obtain ⟨g, ht, h⟩ := ok_of_bind h
  obtain ⟨-, -, h⟩ := ok_of_bind h
  cases h
  obtain ⟨h1, h2⟩ := Graph.tidy_drifts (o := sc.outline) ht
  obtain ⟨h3, h4⟩ := g.annotate_drifts (o := sc.outline) g.loopFrequencies
  have hcalm : Calm sc [] w { w with graph := g.annotate g.loopFrequencies } :=
    ⟨rfl, h1.trans h3, fun _ hw => ⟨hw.of_ages (h1.trans h3).toAges rfl,
      (h4.trans h2).trans (List.append_nil _).symm⟩⟩
  exact hcalm.unbooked hsc

/-! ## Chains -/

section Chains

variable {u : Setting} {sc : Scope}

theorem Hierarchy.id_of_lookup {h : Hierarchy} {id : MethodId} {m : MethodDecl}
    (hm : h.lookupMethod id = .ok m) : m.id = id := by
  unfold Hierarchy.lookupMethod at hm
  split at hm
  · cases hm
  · split at hm
    · next d hd =>
      cases hm
      simpa using List.find?_some hd
    · cases hm

theorem Outline.mem_inliningsInto {callers : List (MethodId × Position)} {a b : MethodId × Position}
    (ha : ((m, p) :: callers)[i]? = some a) (hb : callers[i]? = some b) :
    { method := a.1, caller := b.1, position := b.2, depth := callers.length - i } ∈
      Outline.inliningsInto m callers := by
  induction callers generalizing m p i with
  | nil => cases hb
  | cons c rest ih =>
    cases i with
    | zero =>
      cases ha
      cases hb
      exact List.mem_cons_self
    | succ i =>
      have := ih (p := c.2) ha hb
      rw [List.length_cons, Nat.add_sub_add_right]
      exact List.mem_cons_of_mem _ this

theorem Snapshot.methods_outline (s : Snapshot) : s.outline.methods = s.chain.map (·.method) := by
  show s.method :: (s.callers.map Activation.place).map (·.1) = _
  rw [List.map_map]
  rfl

theorem Snapshot.mem_inlinings {s : Snapshot} {f o : Activation} (hf : s.chain[i]? = some f)
    (ho : s.chain[i + 1]? = some o) :
    { method := f.method, caller := o.method, position := o.position,
      depth := s.chain.length - i - 1 } ∈ s.outline.inlinings := by
  have hchain : s.chain.map Activation.place = (s.method,
    s.position) :: s.callers.map Activation.place := rfl
  have hf' : (s.chain.map Activation.place)[i]? = some f.place := by rw [List.getElem?_map, hf]; rfl
  have ho' : (s.callers.map Activation.place)[i]? = some o.place := by
    rw [List.getElem?_map, show s.callers[i]? = some o from ho]
    rfl
  have hlen : s.chain.length - i - 1 = (s.callers.map Activation.place).length - i := by
    rw [List.length_map, Nat.sub_right_comm]
    rfl
  rw [hlen]
  exact Outline.mem_inliningsInto (hchain ▸ hf') ho'

end Chains

/-! ## Builds -/

theorem Except.eq_ok_of_toOption {ε α : Type} {r : Except ε α} {a : α} (h : r.toOption = some a) :
    r = .ok a := by
  cases r with
  | error e => cases h
  | ok b =>
    cases h
    rfl

section Builds

variable {env : Env} {config : Config} {root : MethodId} {strict : Prop} {built : Built} {f : Frame}

theorem Scope.visited_of_prepare (h : prepare env config root = .ok (sc, f, g)) (strict : Prop) :
    sc.Visited ⟨env, config, root, strict⟩ ∧ sc.chain.length = 1 ∧ sc.outline.inlinings = [] := by
  obtain ⟨decl, body, hroot, -, hs, -⟩ := prepare_ok h
  obtain ⟨-, henv, hconfig, hmethod, -, hchain, hcallers⟩ := Scope.ofMethod_ok hs
  have houtline : sc.outline = ⟨root, []⟩ := by
    rw [Scope.outline, hcallers, Scope.id, hmethod, Hierarchy.id_of_lookup (findRoot_ok hroot).1]
    rfl
  refine ⟨⟨henv, hconfig, by rw [hchain]; rfl, ?_, ?_,
    fun _ m => ?_⟩, by rw [hchain]; rfl, by rw [houtline]; rfl⟩
  · rw [houtline, hchain]
    rfl
  · rw [hchain]
    exact Nat.succ_le_succ (Nat.zero_le _)
  · rw [hchain]
    exact (List.count_le_length).trans (le_max_left _ _)

theorem finish_books {w : Work} (hp : prepare env config root = .ok (sc, f, g))
    (hsc : sc.Follows ⟨env, config, root, strict⟩) (hbook : Booked ⟨env, config, root, strict⟩ sc
      { graph := g, table := Table.blank sc.blocks.size } w)
    (h : finish root w.graph w.report = .ok built) : ∃ w :
      Work, w.graph = built.graph ∧ w.report = built.report ∧
      w.Traced ⟨env, config, root, strict⟩ sc ∧ w.report.Deepest ∧ (strict → w.Balanced) := by
  obtain ⟨decl, body, -, -, -, hg⟩ := prepare_ok hp
  have hblank : g.Blank := hg ▸ (Graph.addParameters_blank decl.argKinds).1
  replace hbook := hbook.trans (finish_booked hsc h)
  refine ⟨_, rfl, rfl, hbook.traced fun n s hs => ?_, hbook.deepest rfl, fun ho => ?_⟩
  · obtain ⟨y, hy, hys⟩ := Option.bind_eq_some_iff.1 hs
    obtain ⟨i, rfl⟩ := hblank.node hy
    cases hys
  · refine (hbook.orderly ho (Work.headed_blank sc { graph := g } _)).2 ?_
    have hreported : g.reported = [] := by
      rw [Graph.reported_eq, List.filterMap_eq_nil_iff]
      intro i _
      cases hk : g.kind? ⟨i⟩ with
      | none => rfl
      | some k =>
        obtain ⟨j, rfl⟩ := hblank.kind? hk
        rfl
    show Report.Balances {} g.reported
    rw [hreported]
    exact ⟨.nil, rfl, rfl, .nil⟩

/-- **Frames.** In a finished unit every snapshot has the root as its outermost frame, every other frame
is that of a call that the report says was inlined, and no more frames than the configuration allows. -/
theorem build_frames (hplain : env.plugins.Plain) (h : build env config root = .ok built) :
    (∀ n s, built.graph.snapshot? n = some s →
      s.chain.getLast?.map (·.method) = some root ∧
      (∀ i f o, s.chain[i]? = some f → s.chain[i + 1]? = some o →
        { method := f.method, caller := o.method, position := o.position,
          depth := s.chain.length - i - 1 } ∈ built.report.inlined) ∧
      s.chain.length ≤ config.maxInliningDepth + 1 ∧
      (env.plugins.inlining = [] →
        ∀ m, (s.chain.map (·.method)).count m ≤ max 1 config.maxRecursiveInlining)) ∧
    built.report.maxInlineDepth = (built.report.inlined.toList.map (·.depth)).foldl max 0 := by
  obtain ⟨sc, f, g, x, w, hp, hw, hfinish⟩ := build_ok h
  obtain ⟨hsc, hlen, hnone⟩ := Scope.visited_of_prepare hp False
  have hbook := (parse_books (P := parse) (u := ⟨env, config, root, False⟩) hplain
    (fun {levels} _ _ _ _ hsc _ hP => by cases levels <;> exact hP ⟨hsc, False.elim⟩)
    config.maxInliningDepth hsc
    (prepare_known hp).2.2.blocks (by rw [hlen, Nat.add_comm]) f none _).ok hw
  obtain ⟨w, hg, hr, htraced, hdeepest, -⟩ := finish_books hp ⟨hsc, False.elim⟩ hbook hfinish
  rw [← hg, ← hr]
  refine ⟨fun n s hs => ?_, hdeepest⟩
  obtain ⟨⟨sc', hsc', houtline⟩, hways⟩ := htraced n s hs
  have hmethods : s.chain.map (·.method) = sc'.chain.reverse := by
    rw [← s.methods_outline, houtline, hsc'.framed]
  refine ⟨?_, fun i f o hf ho => ?_, ?_, fun hno m => ?_⟩
  · rw [← List.getLast?_map, hmethods, List.getLast?_reverse]
    exact hsc'.head
  · refine (hways _ (Snapshot.mem_inlinings hf ho)).resolve_right fun hmem => ?_
    rw [hnone] at hmem
    cases hmem
  · have := congrArg List.length hmethods
    rw [List.length_map, List.length_reverse] at this
    rw [this]
    exact hsc'.depth
  · rw [hmethods, List.count_reverse]
    exact hsc'.count hno m

/-- One call is inlined and makes another call, and one cannot be resolved. -/
def relayProgram : Env where
  hierarchy.methods :=
    [{ id := ⟨0⟩, name := "main", holder := ⟨0⟩, flags.static := true, params := [.int],
       body := some { code := #[.load 0, .ifZero .eq ⟨4⟩, .invoke .static ⟨1⟩, .ret,
                        .invoke .static ⟨9⟩, .ret]
                      maxLocals := 1, handlers := [] } },
     { id := ⟨1⟩, name := "relay", holder := ⟨0⟩, flags.static := true,
       body := some { code := #[.invoke .static ⟨2⟩, .ret], maxLocals := 0, handlers := [] } },
     { id := ⟨2⟩, name := "work", holder := ⟨0⟩, flags.static := true, flags.neverInline := true,
       body := some { code := #[.ret], maxLocals := 0, handlers := [] } }]

/-- A plugin puts a trap in place of the other call. -/
def trappedProgram : Env :=
  { relayProgram with plugins.calls := [Recipe.plugin "trap" .any true (some ⟨2⟩) [.deopt .unreached]] }

/-- The snapshot of the trap has two frames. -/
theorem build_frames_trapped : ∃ built n s, build trappedProgram {}
    ⟨0⟩ = .ok built ∧ trappedProgram.plugins.Plain ∧
    built.graph.snapshot? n = some s ∧ s.chain.map Activation.place = [(⟨1⟩, ⟨0⟩), (⟨0⟩, ⟨2⟩)] ∧
    ⟨⟨1⟩, ⟨0⟩, ⟨2⟩, 1⟩ ∈ built.report.inlined := by
  have hplain : trappedProgram.plugins.Plain := by
    intro plugin hp call
    obtain rfl := List.mem_singleton.1 hp
    exact Recipe.plugin_plain _ _ _ _ _ call
  have hrun : ((build trappedProgram {} ⟨0⟩).toOption.bind fun b => b.graph.snapshot? ⟨8⟩).any
      (fun s => s.chain.map Activation.place = [(⟨1⟩, ⟨0⟩), (⟨0⟩, ⟨2⟩)]) = true := by decide +kernel
  obtain ⟨s, hs, hplaces⟩ := (Option.any_eq_true _ _).1 hrun
  obtain ⟨built, hb, hs⟩ := Option.bind_eq_some_iff.1 hs
  have hbuild := Except.eq_ok_of_toOption hb
  have hplaces := of_decide_eq_true hplaces
  refine ⟨built, ⟨8⟩, s, hbuild, hplain, hs, hplaces, ?_⟩
  obtain ⟨f, rest, hchain, hf, hrest⟩ := List.map_eq_cons_iff.1 hplaces
  obtain ⟨o, rest, rfl, ho, hnil⟩ := List.map_eq_cons_iff.1 hrest
  obtain rfl := List.map_eq_nil_iff.1 hnil
  have hmem := ((build_frames hplain hbuild).1 _ s hs).2.1 0 f o (by rw [hchain]; rfl)
    (by rw [hchain]; rfl)
  rwa [(Prod.mk.inj hf).1, (Prod.mk.inj ho).1, (Prod.mk.inj ho).2, hchain] at hmem

theorem Report.Balances.kinds {r : Report} (h : r.Balances g.reported) : r.Balances g.kinds := by
  have hcall : ∀ ks : List NodeKind, (ks.filter NodeKind.isReported).filterMap NodeKind.call? =
      ks.filterMap NodeKind.call? := by
    intro ks
    rw [List.filterMap_filter]
    refine List.filterMap_congr fun k _ => ?_
    split
    · rfl
    · next hk => cases k <;> first | rfl | exact absurd rfl hk
  refine ⟨?_, ?_, ?_, h.inlined⟩
  · rw [← hcall]
    exact h.calls
  · rw [← h.unresolved, Graph.reported, List.count_filter rfl]
  · rw [← h.forced, Graph.reported, List.count_filter rfl]

theorem Scope.orderly_of_tame (hcalls : sc.env.plugins.calls = [])
    (hmap : BlockMap.ofBody sc.body = .ok sc.blocks) (htame : sc.blocks.Tame) : sc.Orderly := by
  have hcharts := BlockMap.charts_of_ofBody hmap
  have hblock : ∀ b ∈ sc.blocks.blocks, b.id.index < sc.blocks.size ∧ sc.blocks.block b.id = b := by
    intro b hb
    obtain ⟨i, hi, hib⟩ := Array.mem_iff_getElem.1 hb
    have heq : sc.blocks.block ⟨i⟩ = b := by
      rw [BlockMap.block, Array.getElem?_eq_getElem hi, Option.getD_some, hib]
    have hid : b.id = ⟨i⟩ := heq ▸ hcharts.id hi
    rw [hid]
    exact ⟨hi, heq⟩
  refine ⟨hcalls, fun b hb => (hblock b hb).2, fun b hb hk => ?_⟩
  obtain ⟨hlt, heq⟩ := hblock b hb
  rw [← heq] at hk ⊢
  cases hkind : (sc.blocks.block b.id).kind with
  | instructions => exact absurd hkind hk
  | dispatch i next => exact htame _ ⟨i, next, hkind⟩
  | exit => exact hcharts.wayOut_not_header (.inl ((hcharts.exit hlt).1 hkind))
  | unwind => exact hcharts.wayOut_not_header (.inr ((hcharts.unwind hlt).1 hkind))

/-- **Accounts.** Without call plugins, and where no test of a handler heads a loop of a body that is
parsed, the report of a finished unit accounts for its calls and for what was given up, and tells of every
inlining. -/
theorem build_balances (hcalls : env.plugins.calls = [])
    (htame : ∀ body ∈ parsedBodies env config root, body.isTame = true)
    (h : build env config root = .ok built) : built.report.Balances built.graph.kinds := by
  have hplain : env.plugins.Plain := by
    intro plugin hp
    rw [hcalls] at hp
    cases hp
  obtain ⟨sc, f, g, x, w, hp, hw, hfinish⟩ := build_ok h
  have hrun := parseTame_of_parse hp htame
  rw [hw] at hrun
  obtain ⟨hsc, hlen, -⟩ := Scope.visited_of_prepare hp True
  have hmap := (prepare_known hp).2.2.blocks
  have hfollows : ∀ {sc : Scope}, sc.Visited ⟨env, config, root, True⟩ →
      BlockMap.ofBody sc.body = .ok sc.blocks → sc.blocks.Tame → sc.Follows ⟨env, config, root, True⟩ :=
    fun hsc hmap ht => ⟨hsc, fun _ => Scope.orderly_of_tame (by rw [hsc.env, hcalls]) hmap ht⟩
  have hbook := (parse_books (P := parseTame) hplain (fun {levels} _ _ _ _ hsc hmap hP => by
    cases levels <;> exact ensures_ifTame (fun _ _ => trivial) fun ht => hP (hfollows hsc hmap ht))
    config.maxInliningDepth hsc hmap (by rw [hlen, Nat.add_comm]) f none _).ok hrun
  obtain ⟨w, hg, hr, -, -, hbalanced⟩ :=
    finish_books hp (hfollows hsc hmap (tame_of_parseTame hrun)) hbook hfinish
  have := hbalanced trivial
  rw [Work.Balanced, hg, hr] at this
  exact this.kinds

/-- One call is a node, one is inlined and one is given up. -/
theorem build_balances_relay : ∃ built, build relayProgram {} ⟨0⟩ = .ok built ∧
    relayProgram.plugins.calls = [] ∧ (parsedBodies relayProgram {} ⟨0⟩).length = 2 ∧
    (∀ body ∈ parsedBodies relayProgram {} ⟨0⟩, body.isTame = true) ∧ built.report.callSites.size = 3 ∧
    built.report.inlined.size = 1 ∧ built.report.unresolved.size = 1 ∧
    built.report.Balances built.graph.kinds := by
  have hrun : (build relayProgram {} ⟨0⟩).toOption.any (fun b => b.report.callSites.size = 3 ∧
      b.report.inlined.size = 1 ∧ b.report.unresolved.size = 1) = true := by decide +kernel
  have htame : ∀ body ∈ parsedBodies relayProgram {} ⟨0⟩, body.isTame = true :=
    List.all_eq_true.1 (by decide +kernel)
  obtain ⟨built, hb, hsizes⟩ := (Option.any_eq_true _ _).1 hrun
  have hbuild := Except.eq_ok_of_toOption hb
  obtain ⟨h1, h2, h3⟩ := of_decide_eq_true hsizes
  exact ⟨built, hbuild, rfl, by decide +kernel, htame, h1, h2, h3, build_balances rfl htame hbuild⟩

end Builds

end StackLift
