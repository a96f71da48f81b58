import StackLift.Proofs.Blocks
import StackLift.Proofs.Depths
import StackLift.Proofs.Ledger.Graph

/-!
# What is not reported

Most of a build happens without a word in the report. `Calms sc ks act w` says that `act` leaves the
report as it is, that it adds just the nodes `ks` of those that a report accounts for, and that all
snapshots it takes have the outline of the method. Most actions add none (`Stays`), whatever they
start on.

Nodes are removed where a local is lost, at a join or on a back edge. At a join it is a phi that goes. On
a back edge it is what the header's frame holds, with everything that only carries it along; that these
are phis is why the frames of lifted loop headers are followed here (`Work.Headed`). A test of a handler
that heads a loop has no phis, so reported nodes may get lost there, and a plugin may do anything:
`Scope.Orderly` leaves both out.
-/
namespace StackLift

variable {e : Entry} {k : NodeKind}

open BuildM

set_option synthInstance.maxSize 1000
set_option synthInstance.maxHeartbeats 200000

/-- No plugin lifts calls, and only blocks of instructions head loops. -/
structure Scope.Orderly (sc : Scope) : Prop where
  calls : sc.env.plugins.calls = []
  blocks : ∀ b ∈ sc.blocks.blocks, sc.blocks.block b.id = b
  heads : ∀ b ∈ sc.blocks.blocks, b.kind ≠ .instructions → b.isLoopHeader = false

/-- What a lifted loop header holds is never reported. -/
def Work.Headed (sc : Scope) (w : Work) : Prop :=
  ∀ b e f, w.table.slot? b = some e → e.parsed = true → (sc.blocks.block b).isLoopHeader = true →
    e.frame = some f → ∀ v ∈ f.values, w.graph.Unreported v.node

/-- What happens between `w` and `w'` is not reported, apart from the new nodes `ks`. -/
structure Calm (sc : Scope) (ks : List NodeKind) (w w' : Work) : Prop where
  report : w'.report = w.report
  graph : w.graph.Drifts sc.outline w'.graph
  orderly : sc.Orderly → w.Headed sc → w'.Headed sc ∧ w'.graph.reported = w.graph.reported ++ ks

section Calm

variable {sc : Scope} {ks ls : List NodeKind} {w w' w'' : Work}

theorem Calm.refl (sc : Scope) (w : Work) : Calm sc [] w w :=
  ⟨rfl, .refl _ _, fun _ h => ⟨h, (List.append_nil _).symm⟩⟩

theorem Calm.trans (h : Calm sc ks w w') (h' : Calm sc ls w' w'') : Calm sc (ks ++ ls) w w'' := by
  refine ⟨h'.report.trans h.report, h.graph.trans h'.graph, fun ho hw => ?_⟩
  obtain ⟨hw', hk⟩ := h.orderly ho hw
  obtain ⟨hw'', hl⟩ := h'.orderly ho hw'
  exact ⟨hw'', by rw [hl, hk, List.append_assoc]⟩

theorem Work.Headed.of_ages (h : w.Headed sc) (hg : w.graph.Ages w'.graph)
    (ht : w'.table.entries = w.table.entries) : w'.Headed sc := by
  intro b e f he hp hb hf v hv
  rw [Table.slot?, ht] at he
  exact (h b e f he hp hb hf v hv).ages hg

theorem Work.Headed.put {b : BlockId} (h : w.Headed sc)
    (he : e.parsed = true → (sc.blocks.block b).isLoopHeader = true → ∀ f, e.frame = some f →
      ∀ v ∈ f.values, w.graph.Unreported v.node) :
    ({ w with table := w.table.put b e } : Work).Headed sc := by
  intro c e' f he' hp hc hf v hv
  rcases Table.slot?_put_cases he' with ⟨rfl, rfl⟩ | ⟨-, he'⟩
  · exact he hp hc f hf v hv
  · exact h c e' f he' hp hc hf v hv

end Calm

namespace BuildM

/-- `act` is calm when it runs on the work `w`. -/
abbrev Calms {α : Type} (sc : Scope) (ks : List NodeKind) (act : BuildM α) (w : Work) : Prop :=
  Yields act sc w fun _ w' => Calm sc ks w w'

/-! ## Rules -/

section Rules

variable {α β : Type} {sc : Scope} {ks : List NodeKind} {w : Work}
variable {act : BuildM α} {f : α → BuildM β}

theorem Calms.before (h : Calms sc ks act w)
    (hf : ∀ a w', Calms sc [] (f a) w') : Calms sc ks (act >>= f) w :=
  Ensures.bind h fun a w' hw' => (hf a w').mono fun _ _ hw'' => List.append_nil ks ▸ hw'.trans hw''

theorem Calms.bind_of {Q : α → Work → Prop}
    (h : Yields act sc w fun a w' => Calm sc [] w w' ∧ Q a w')
    (hf : ∀ a w', Q a w' → Calms sc ks (f a) w') : Calms sc ks (act >>= f) w :=
  Ensures.bind h fun a w' hw' => (hf a w' hw'.2).mono fun _ _ hw'' => hw'.1.trans hw''

instance : IsPreorder Work (Calm sc []) where
  refl := .refl sc
  trans _ _ _ h h' := h.trans h'

/-- `act` is calm whenever it runs. -/
abbrev Stays (sc : Scope) (act : BuildM α) : Prop := Preserves (Calm sc []) sc act

theorem calm [h : Stays sc act] : Calms sc [] act w := h.keeps w

theorem Calms.bind (h : Calms sc [] act w)
    (hf : ∀ a w', Calms sc ks (f a) w') : Calms sc ks (act >>= f) w :=
  Ensures.bind h fun a w' hw' => (hf a w').mono fun _ _ hw'' => hw'.trans hw''

theorem Stays.bind [Stays sc act] (hf : ∀ a w', Calms sc ks (f a) w') :
    Calms sc ks (act >>= f) w := Calms.bind calm hf

theorem calms_changeGraph {f : Graph → Except Error (α × Graph)}
    (h : ∀ a g, f w.graph = .ok (a, g) → w.graph.Drifts sc.outline g ∧
      g.reported = w.graph.reported ++ ks) :
    Calms sc ks (changeGraph f) w := by
  refine yields_changeGraph fun a g hg => ?_
  obtain ⟨hd, hr⟩ := h a g hg
  exact ⟨rfl, hd, fun _ hw => ⟨hw.of_ages hd.toAges rfl, hr⟩⟩

theorem calms_sameNodes {f : Graph → Except Error (α × Graph)}
    (h : ∀ a g, f w.graph = .ok (a, g) → w.graph.Drifts sc.outline g ∧ g.reported = w.graph.reported) :
    Calms sc [] (changeGraph f) w :=
  calms_changeGraph fun a g hg => ⟨(h a g hg).1, (h a g hg).2.trans (List.append_nil _).symm⟩

theorem calms_update {f : Graph → Except Error Graph}
    (h : ∀ g, f w.graph = .ok g → w.graph.Drifts sc.outline g ∧ g.reported = w.graph.reported) :
    Calms sc [] (changeGraph fun g => return ((), ← f g)) w := by
  refine calms_sameNodes fun u g hg => h g ?_
  obtain ⟨r, hf, hg⟩ := ok_of_bind hg
  cases hg
  exact hf

theorem stays_changeTable {f : Table → Table} (h : ∀ t : Table, (f t).entries = t.entries) :
    Stays sc (changeTable f) :=
  ⟨fun w => ensures_changeTable ⟨rfl, .refl _ _, fun _ hw =>
    ⟨hw.of_ages (.refl w.graph) (h _), (List.append_nil _).symm⟩⟩⟩

theorem calms_setEntry {b : BlockId} (he : sc.Orderly → w.Headed sc → e.parsed = true →
      (sc.blocks.block b).isLoopHeader = true → ∀ f, e.frame = some f →
      ∀ v ∈ f.values, w.graph.Unreported v.node) :
    Calms sc [] (setEntry b e) w :=
  ensures_setEntry ⟨rfl, .refl _ _, fun ho hw => ⟨hw.put (he ho hw), (List.append_nil _).symm⟩⟩

instance (c : Consultation) : Stays sc (consult c) :=
  ⟨fun _ => ⟨rfl, .refl _ _, fun _ hw => ⟨hw, (List.append_nil _).symm⟩⟩⟩

instance : Stays sc enterBody := ⟨fun _ => ⟨rfl, .refl _ _, fun _ hw => ⟨hw, (List.append_nil _).symm⟩⟩⟩

end Rules

/-! ## Basic actions -/

section Basic

variable {sc : Scope} {w : Work}
variable {f : Frame} {a b n m : NodeId} {p : Position}

theorem addReported_calm (hk : k.isReported = true) (I : List NodeId) : Calms sc [k] (addNode k I) w := by
  refine calms_changeGraph fun a g hg => ?_
  cases hg
  have h := Graph.drifts_addNode (g := w.graph) (o := sc.outline) k I
  rwa [List.filter_cons_of_pos hk, List.filter_nil] at h

theorem setSnapshot_calm {s : Snapshot}
    (hs : s.outline = sc.outline ∨ ∃ t, w.graph.snapshot? n = some t ∧ t.outline = s.outline) :
    Calms sc [] (setSnapshot n s) w :=
  calms_update fun _ hg => Graph.setSnapshot_drifts hg hs

instance (e : EdgeId) : Stays sc (changeGraph fun g => return ((), ← g.retarget e n)) :=
  ⟨fun _ => calms_update fun _ hg => Graph.retarget_drifts hg⟩

instance : Stays sc (changeGraph fun g => .ok ((), g.setStart n)) := by
  refine ⟨fun w => calms_sameNodes fun u g hg => ?_⟩
  cases hg
  exact Graph.drifts_of_nodes rfl fun _ => rfl

theorem removeNode_calm (hn : w.graph.Unreported n) :
    Calms sc [] (changeGraph fun g => .ok ((), g.removeNode n)) w := by
  refine calms_sameNodes fun u g hg => ?_
  cases hg
  exact ⟨w.graph.removeNode_drifts n, Graph.reported_removeNode hn⟩

theorem unreported_of_isPhiOf (h : isPhiOf w.graph n m = true) : w.graph.Unreported n := by
  unfold isPhiOf at h
  split at h
  · next hk => exact Graph.unreported_of_kind? hk rfl
  · cases h

instance : Edits (Relates (Calm sc []) sc) where
  addNode {k} hk I := by
    refine ⟨fun w => calms_changeGraph fun a g hg => ?_⟩
    cases hg
    have h := Graph.drifts_addNode (g := w.graph) (o := sc.outline) k I
    rwa [List.filter_cons_of_neg (by simp [hk.eq]), List.filter_nil] at h
  addEdge _ _ _ _ := by
    refine ⟨fun w => calms_sameNodes fun u g hg => ?_⟩
    obtain ⟨r, hr, hg⟩ := ok_of_bind hg
    cases hg
    exact Graph.addEdge_drifts hr
  addPhiInput _ _ := ⟨fun _ => calms_update fun _ hg => Graph.addPhiInput_drifts hg⟩
  attachSnapshot _ f p := preserves_read (h :=
    ⟨fun _ => setSnapshot_calm (.inl (sc.outline_snapshot f p))⟩)
  dropLocal _ _ := by
    refine ⟨fun w => ensures_get_bind ?_⟩
    dsimp only
    split
    · next hphi => exact Calms.bind (removeNode_calm (unreported_of_isPhiOf hphi)) fun _ _ => calm
    · exact calm

theorem addReportedDeopt_calm {r : DeoptReason} (hr : (NodeKind.deoptimize r).isReported = true)
    (f : Frame) (p : Position) : Calms sc [.deoptimize r] (addDeopt r f p) w :=
  (addReported_calm hr _).before fun _ _ => calm

end Basic

/-! ## Joins -/

section Joins

variable {sc : Scope} {w : Work}
variable {b : BlockId} {f : Frame} {ends : Nat} {p : Position}

theorem mergeInto_calm (hb : (sc.blocks.block b).isLoopHeader = true →
      ∀ e, w.table.slot? b = some e → e.parsed = false) (m : NodeId) (f : Frame) (p : Position) :
    Calms sc [] (mergeInto b m f p) w := by
  unfold mergeInto
  refine .chain (yields_entry fun e he => ?_)
  refine Stays.bind fun current w2 => Stays.bind fun merged w3 => calms_setEntry fun _ _ hp hh => ?_
  rw [hb hh e he] at hp
  cases hp

instance (n : NodeId) : Stays sc (promote b n) := by
  have hend (m : NodeId) : Stays sc (moveEntry b m) := by
    refine ⟨fun w => .chain (yields_entry fun e he => ?_)⟩
    exact Calms.bind (calms_setEntry fun _ hw hp hh f hf => hw b e f he hp hh hf) fun _ _ => calm
  unfold promote
  refine ⟨fun w => Stays.bind fun m _ => Stays.bind fun stop _ => Stays.bind fun _ w1 =>
    ensures_get_bind ?_⟩
  dsimp only
  split <;> exact calm

/-- A loop header that edges come in at forward is not lifted yet. -/
instance : Stays sc (addLoopEntry b f p) := by
  unfold addLoopEntry
  refine ⟨fun w => ensures_get_bind (.chain (yields_demand fun e (he : w.table.slot? b = some e) => ?_))⟩
  dsimp only
  split
  · trivial
  next hp =>
  rw [Bool.not_eq_true] at hp
  refine Calms.bind_of (Q := fun _ w' => w'.table = w.table)
    (calm.and quiet) fun stop w2 h2 => ?_
  refine Calms.bind_of (Q := fun _ w' => w'.table = w.table)
    (calm.and (quiet.mono fun _ _ h => h.trans h2)) fun _ w3 h3 => ?_
  cases hf : e.frame with
  | none =>
    refine ensures_read_bind (Calms.bind (calms_setEntry fun _ _ hp' => ?_) fun _ _ => calm)
    rw [show e.parsed = true from hp'] at hp
    cases hp
  | some g =>
    refine Calms.bind (mergeInto_calm (fun _ e' he' => ?_) _ _ _) fun _ _ => calm
    rw [h3, he, Option.some.injEq] at he'
    rwa [← he']

end Joins

/-! ## Loop headers -/

section Headers

variable {sc : Scope} {w w' : Work}

instance : Stays sc createLoopHeaders := by
  have (b : BlockId) (node : NodeId) : Stays sc (setEntry b { node }) :=
    ⟨fun _ => calms_setEntry fun _ _ hp => by cases hp⟩
  have (node : NodeId) : Stays sc (changeTable fun t =>
      { t with headers := t.headers.push node, marks := t.marks.push none }) :=
        stays_changeTable fun _ => rfl
  exact preserves_read

/-- A header's frame becomes a frame of phis. -/
theorem beginLoop_calm (l : Nat) (header : NodeId) (f : Frame) :
    Yields (beginLoop l header f) sc w fun f' w' => w'.report = w.report ∧
    w'.table.entries = w.table.entries ∧
      (w.graph.Drifts sc.outline w'.graph ∧ w'.graph.reported = w.graph.reported) ∧
      ∀ v ∈ f'.values, w'.graph.Unreported v.node := by
  unfold beginLoop
  refine ensures_get_bind ?_
  dsimp only
  refine (ensures_mapValuesM (fun _ done w' => w'.report = w.report ∧ w'.table.entries = w.table.entries ∧
      (w.graph.Drifts sc.outline w'.graph ∧ w'.graph.reported = w.graph.reported) ∧
      ∀ v ∈ done, w'.graph.Unreported v.node) (fun v rest done w' hw' => ?_)
    ⟨rfl, rfl, ⟨.refl _ _, rfl⟩, by simp⟩).bind fun f' w1 h1 => ?_
  · obtain ⟨hreport, htable, hgraph, hdone⟩ := hw'
    refine ensures_get_bind ?_
    split
    · next hphi =>
      refine ensures_pure ⟨hreport, htable, hgraph, fun u hu => ?_⟩
      rcases List.mem_append.1 hu with hu | hu
      · exact hdone u hu
      · rw [List.mem_singleton.1 hu]
        exact unreported_of_isPhiOf hphi
    · refine Ensures.bind (ensures_addNode (Q := fun n w2 => w2.report = w.report ∧
        w2.table.entries = w.table.entries ∧ (w.graph.Drifts sc.outline w2.graph ∧
          w2.graph.reported = w.graph.reported) ∧ ∀ u ∈ done ++ [⟨n, v.kind⟩],
          w2.graph.Unreported u.node) ?_)
        fun n w2 h2 => ensures_pure h2
      have hadd := fun I => w'.graph.drifts_addNode (o := sc.outline) (.phi header) I
      refine ⟨hreport, htable, ⟨hgraph.1.trans (hadd _).1, ?_⟩, fun u hu => ?_⟩
      · rw [(hadd _).2, hgraph.2]
        exact List.append_nil _
      · rcases List.mem_append.1 hu with hu | hu
        · exact (hdone u hu).ages (hadd _).1.toAges
        · rw [List.mem_singleton.1 hu]
          exact Graph.unreported_of_kind? (k := .phi header)
            (by rw [Graph.kind?, Graph.node?_addNode, if_pos rfl]; rfl) rfl
  refine ensures_get_bind ?_
  split
  · trivial
  · exact (ensures_changeTable (Q := fun _ w2 => w2.report = w.report ∧
      w2.table.entries = w.table.entries ∧
      (w.graph.Drifts sc.outline w2.graph ∧ w2.graph.reported = w.graph.reported) ∧
      ∀ v ∈ f'.values, w2.graph.Unreported v.node) h1.1).bind fun _ w2 h2 => ensures_pure h2

/-! ## Back edges -/

theorem isReported_of_isCarrier (h : k.isCarrier = true) : k.isReported = false := by
  cases k with
  | phi _ | proxy _ => rfl
  | _ => cases h

theorem Headed.without {dead : List NodeId} (h : w.Headed sc)
    (ht : w.table.Without dead w'.table) (hg : w.graph.Ages w'.graph) : w'.Headed sc := by
  intro b e' f' he' hp hb hf' v hv
  obtain ⟨e, he, hw⟩ := ht.entry_inv he'
  obtain ⟨f, hf, hd⟩ := hw.exists_frame hf'
  exact (h b e f he (hw.parsed ▸ hp) hb hf v ((Frame.mem_values_withoutLocals? hd).1 hv).1).ages hg

/-- What is dropped on a back edge are phis and what carries them along. -/
theorem dropPhis_calm {roots : List NodeId}
    (hroots : sc.Orderly → w.Headed sc → ∀ n ∈ roots, w.graph.Unreported n) (b : BlockId)
    (headerFrame incoming : Frame) (p : Position) :
    Yields (dropPhis b headerFrame incoming roots p) sc w fun f w' =>
      Calm sc [] w w' ∧ ∀ v ∈ f.values, v ∈ headerFrame.values := by
  unfold dropPhis
  refine ensures_get_bind ?_
  dsimp only
  cases hd : w.graph.carriers roots with
  | error user => trivial
  | ok dead =>
    have hdead : sc.Orderly → w.Headed sc → ∀ n ∈ dead, w.graph.Unreported n := by
      intro ho hw n hn
      cases ((Graph.carriers_spec hd).2 n).1 hn with
      | root hr => exact hroots ho hw n hr
      | step _ hx _ hk =>
        exact Graph.unreported_of_kind? (Graph.kind?_of_node? hx) (isReported_of_isCarrier hk)
    refine ensures_pure_bind ?_
    split
    · trivial
    cases hf : headerFrame.withoutLocals? dead with
    | none => trivial
    | some f =>
      dsimp only
      refine ensures_get_bind ((ensures_trimTable fun _ _ _ _ _ _ => trivial).bind
        fun entries w0 h0 => ?_)
      obtain ⟨rfl, hwithout⟩ := h0
      refine (ensures_changeTable (Q := fun _ w' => Calm sc [] w0 w') ⟨rfl, .refl _ _, fun _ hw =>
        ⟨Headed.without hw hwithout (.refl _), (List.append_nil _).symm⟩⟩).bind fun _ w1 h1 => ?_
      refine ensures_get_bind ?_
      refine Ensures.bind ((sat_forIn (P := Relates (Calm sc []) sc) (h :=
        fun n => ⟨fun w2 => ensures_get_bind ?_⟩)).keeps w1) fun _ w2 h2 => ?_
      · cases hs : (w2.graph.snapshot? n).bind (·.withoutLocals? dead) with
        | none => trivial
        | some s =>
          obtain ⟨t, ht, hts⟩ := Option.bind_eq_some_iff.1 hs
          have hout : t.outline = s.outline := (Snapshot.outline_withoutLocals? hts).symm
          exact Calms.bind (setSnapshot_calm (.inr ⟨t, ht, hout⟩)) fun _ _ => calm
      -- The nodes may only be looked up in the first graph: some of them are gone later.
      refine (ensures_forIn (fun rest w' => Calm sc [] w0 w' ∧ ∀ n ∈ rest, n ∈ dead)
        (fun n rest w3 h3 => ?_) ⟨h1.trans h2, fun _ hn => hn⟩).bind fun _ w4 h4 =>
        ensures_pure ⟨h4.1, fun v hv => ((Frame.mem_values_withoutLocals? hf).1 hv).1⟩
      obtain ⟨h3, hrest⟩ := h3
      refine (ensures_changeGraph (Q := fun _ w' => Calm sc [] w0 w') rfl ?_).bind fun _ w4 h4 =>
        ensures_pure ⟨rfl, h4, fun m hm => hrest m (List.mem_cons_of_mem _ hm)⟩
      have hgone := w3.graph.removeNode_drifts (o := sc.outline) n
      refine ⟨h3.report, h3.graph.trans hgone, fun ho hw => ?_⟩
      obtain ⟨hw3, hreported⟩ := h3.orderly ho hw
      refine ⟨hw3.of_ages hgone.toAges rfl, ?_⟩
      rw [← hreported]
      exact Graph.reported_removeNode ((hdead ho hw n (hrest n List.mem_cons_self)).ages h3.graph.toAges)

theorem fillPhis_calm {headerFrame : Frame}
    (hvalues : sc.Orderly → w.Headed sc → ∀ v ∈ headerFrame.values, w.graph.Unreported v.node)
    (b : BlockId)
    (incoming : Frame) (p : Position) : Yields (fillPhis b headerFrame incoming p) sc w fun f w' =>
      Calm sc [] w w' ∧ ∀ v ∈ f.values, v ∈ headerFrame.values := by
  unfold fillPhis
  refine .chain (yields_liftExcept fun _ _ => ?_)
  have hshed : Yields (shedLocals b headerFrame incoming p) sc w fun f w' =>
      Calm sc [] w w' ∧ ∀ v ∈ f.values, v ∈ headerFrame.values := by
    unfold shedLocals
    split
    · exact ensures_pure ⟨.refl sc w, fun _ hv => hv⟩
    · refine dropPhis_calm (fun ho hw n hn => ?_) _ _ _ _
      obtain ⟨v, hv, rfl⟩ := mem_values_of_lostPhis hn
      exact hvalues ho hw v hv
  refine hshed.bind fun f w1 h1 => ?_
  exact Ensures.bind calm fun _ w2 h2 => ensures_pure ⟨h1.1.trans h2, h1.2⟩

theorem addLoopEnd_calm {b : BlockId} (hb : (sc.blocks.block b).isLoopHeader = true) (f : Frame)
    (p : Position) : Calms sc [] (addLoopEnd b f p) w := by
  unfold addLoopEnd
  refine .chain (yields_entry fun e he => ?_)
  dsimp only
  split
  · trivial
  next hp =>
  have hp : e.parsed = true := by simpa using hp
  refine .chain (yields_demand fun g hg => ?_)
  have hvalues : sc.Orderly → w.Headed sc → ∀ v ∈ g.values, w.graph.Unreported v.node :=
    fun _ hw => hw b e g he hp hb hg
  refine Ensures.bind (fillPhis_calm hvalues b f p) fun g' w3 h3 => ?_
  obtain ⟨h3, hsub⟩ := h3
  have hput : Calm sc [] w { w3 with table := w3.table.put b { e with frame := some g' } } := by
    refine ⟨h3.report, h3.graph, fun ho hw => ?_⟩
    obtain ⟨hw3, hreported⟩ := h3.orderly ho hw
    refine ⟨hw3.put fun _ _ f' hf' v hv => ?_, hreported⟩
    cases hf'
    exact (hvalues ho hw v (hsub v hv)).ages h3.graph.toAges
  refine (ensures_setEntry (Q := fun _ w' => Calm sc [] w w') hput).bind fun _ w4 h4 => ?_
  exact calm.mono fun _ _ h5 => h4.trans h5

end Headers

/-! ## Edges -/

section Edges

variable {sc : Scope} {w : Work}
variable {odds : Float} {n : NodeId} {v : Value}

instance (a b : BlockId) (f : Frame) (p : Position) : Stays sc (createTarget a b f p) := by
  unfold createTarget
  refine preserves_read (h := ?_)
  dsimp only
  split
  · next hb =>
    have : Stays sc (addLoopEnd b f p) := ⟨fun _ => addLoopEnd_calm hb f p⟩
    infer_instance
  next hb =>
  have (node : NodeId) (f : Option Frame) : Stays sc (setEntry b { node, frame := f }) :=
    ⟨fun _ => calms_setEntry fun _ _ _ hb' => absurd hb' hb⟩
  have (m : NodeId) : Stays sc (mergeInto b m f p) :=
    ⟨fun _ => mergeInto_calm (fun hb' => absurd hb' hb) _ _ _⟩
  refine ⟨fun w => Stays.bind fun o _ => ?_⟩
  cases o <;> exact calm

end Edges

/-! ## Instructions -/

section Instructions

variable {sc : Scope}
variable {t : Position}

instance (op : ArithOp) (pt : Point) : Stays sc (binary op pt) := by
  dsimp only [binary]
  infer_instance

instance (n : NodeId) (pt : Point) : Stays sc (branch n t pt) := by
  dsimp only [branch]
  infer_instance

instance (c : Condition) (pt : Point) : Stays sc (nullBranch c t pt) := by
  dsimp only [nullBranch]
  infer_instance

instance (keys : List Int64) (targets : List Position) (d : Position) (pt : Point) :
    Stays sc (switch keys targets d pt) := by
  dsimp only [switch]
  infer_instance

end Instructions

/-! ## Blocks -/

section Blocks

variable {sc : Scope} {w : Work} {b : BlockId}

instance (f : Frame) (n : Option NodeId) : Stays sc (connectEntry f n) := by
  refine preserves_read (h := ?_)
  dsimp only
  by_cases hb : (sc.blocks.block ⟨0⟩).isLoopHeader = true
  · simp only [hb, if_true]
    cases n <;> infer_instance
  · have (e : Entry) : Stays sc (setEntry ⟨0⟩ e) :=
      ⟨fun _ => calms_setEntry fun _ _ _ hb' => absurd hb' hb⟩
    cases n <;> infer_instance

theorem openBlock_calm (hb : sc.Orderly → (sc.blocks.block b).isLoopHeader = false) (d : Defect) :
    Calms sc [] (openBlock b d) w := by
  unfold openBlock
  refine .chain (yields_entry fun e _ => ?_)
  refine Calms.bind (calms_setEntry fun ho _ _ hb' => ?_) fun _ _ => calm
  rw [hb ho] at hb'
  cases hb'

theorem openHeader_calm (he : w.table.slot? b = some e) (l : Nat) (node : NodeId) (f : Frame) :
    Yields (openHeader l b node f) sc { w with table := w.table.put b { e with parsed := true } }
      fun _ w' =>
      Calm sc [] w w' := by
  refine (beginLoop_calm l node f).bind fun f' w1 h1 => ?_
  obtain ⟨hreport, hentries, ⟨hdrifts, hreported⟩, hvalues⟩ := h1
  have hslot : ∀ c, w1.table.slot? c = if c = b then some { e with parsed := true } else
    w.table.slot? c := by
    intro c
    rw [Table.slot?, hentries]
    exact Table.slot?_put (Table.lt_of_slot? he)
  refine .chain (ensures_entry (by rw [hslot, if_pos rfl]) ?_)
  refine (ensures_setEntry (Q := fun _ w' => Calm sc [] w w')
    ⟨hreport, hdrifts, fun _ hw => ⟨?_, hreported.trans (List.append_nil _).symm⟩⟩).bind fun _ w3 h3 =>
    ensures_pure h3
  intro c e' g he' hp hc hg v hv
  rcases Table.slot?_put_cases he' with ⟨-, rfl⟩ | ⟨hcb, he'⟩
  · cases hg
    exact hvalues v hv
  · rw [hslot, if_neg hcb] at he'
    exact (hw c e' g he' hp hc hg v hv).ages hdrifts.toAges

theorem exitBlock_calm {b : Block} (hb : sc.Orderly → (sc.blocks.block b.id).isLoopHeader = false) :
    Calms sc [] (exitBlock b) w :=
  Calms.bind (openBlock_calm hb _) fun _ _ => (stays_changeTable (by intro t; rfl)).keeps _

theorem unwindBlock_calm {b : Block} (hb : sc.Orderly → (sc.blocks.block b.id).isLoopHeader = false) :
    Calms sc [] (unwindBlock b) w := by
  refine Calms.bind (openBlock_calm hb _) fun r _ => ensures_read_bind ?_
  split
  · refine Stays.bind fun _ _ => ?_
    split <;> exact calm
  · exact (stays_changeTable (by intro t; rfl)).keeps _

end Blocks

end BuildM

end StackLift
