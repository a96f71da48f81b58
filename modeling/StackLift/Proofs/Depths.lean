import StackLift.Proofs.Preserves

/-!
# Depths

How many values are on the stack and how many monitors are held is all that the frames that meet at a
block have in common, whatever path they come from. `Table.Reached` says that control has arrived at a
block with these depths. What is shown here is that an edge into a block makes it reached with the
depths of the frame that the edge takes along, and that a block never changes the depths it was reached
with: the first frame that arrives fixes them, and every later one is checked against it.
-/
namespace StackLift

variable {a b : BlockId} {m : BlockMap} {d d' : Depths} {e : Entry} {f f' : Frame} {dead : List NodeId}
  {t : Table}

open BuildM

/-! ## Depths -/

/-- How many values are on the stack, and how many monitors are held. -/
structure Depths where
  stack : Nat
  monitors : Nat
deriving DecidableEq, Repr

/-- The depths of a frame. -/
def Frame.depths (f : Frame) : Depths := ⟨f.stack.length, f.monitors.length⟩

theorem Frame.depths_prune (f : Frame) (sc : Scope) (b : BlockId) : (sc.prune f b).depths = f.depths := by
  unfold Scope.prune
  split <;> rfl

theorem Frame.depths_withoutLocals? (h : f.withoutLocals? dead = some f') : f'.depths = f.depths := by
  obtain ⟨rfl, -⟩ := withoutLocals?_spec h
  rfl

theorem Frame.Alike.depths (h : f.Alike f') : f'.depths = f.depths := by
  rw [Frame.depths, h.stack, h.monitors, Frame.depths]

/-- Control has arrived at block `b` with the depths `d`. -/
def Table.Reached (t : Table) (b : BlockId) (d : Depths) : Prop :=
  ∃ e f, t.slot? b = some e ∧ e.frame = some f ∧ f.depths = d

theorem Table.reached_iff :
    t.Reached b d ↔ (t.slot? b).bind (fun e => e.frame.map Frame.depths) = some d := by
  simp [Table.Reached, Option.bind_eq_some_iff]

theorem Table.Reached.unique (h : t.Reached b d) (h' : t.Reached b d') : d = d' := by
  rw [Table.reached_iff] at h h'
  exact Option.some.inj (h.symm.trans h')

/-- Once the first `k` blocks are lifted, what was reached stays as it is, and only later blocks are
reached for the first time. -/
structure Table.Goes (k : Nat) (t t' : Table) : Prop where
  size : t'.entries.size = t.entries.size
  keeps : ∀ {b d}, t.Reached b d → t'.Reached b d
  later : ∀ {b d}, t'.Reached b d → t.Reached b d ∨ k ≤ b.index

namespace Table.Goes

variable {k : Nat} {t t' t'' : Table}

theorem refl (k : Nat) (t : Table) : t.Goes k t := ⟨rfl, id, .inl⟩

theorem of_eq (h : t' = t) : t.Goes k t' := h ▸ .refl k t

theorem of_entries (h : t'.entries = t.entries) : t.Goes k t' := by
  have hiff : ∀ b d, t.Reached b d ↔ t'.Reached b d := by
    intro b d
    rw [Table.reached_iff, Table.reached_iff, Table.slot?, Table.slot?, h]
  exact ⟨by rw [h], fun hb => (hiff _ _).1 hb, fun hb => .inl ((hiff _ _).2 hb)⟩

theorem trans (h : t.Goes k t') (h' : t'.Goes k t'') : t.Goes k t'' :=
  ⟨h'.size.trans h.size, fun hb => h'.keeps (h.keeps hb), fun hb => (h'.later hb).elim h.later Or.inr⟩

theorem put (hb : b.index < t.entries.size) (hf : e.frame = some f)
    (hold : ∀ {d}, t.Reached b d → d = f.depths) (hnew : t.Reached b f.depths ∨ k ≤ b.index) :
    t.Goes k (t.put b e) ∧ (t.put b e).Reached b f.depths := by
  have hslot := fun c => Table.slot?_put (c := c) (e := e) hb
  have hhere : (t.put b e).Reached b f.depths := ⟨e, f, by rw [hslot, if_pos rfl], hf, rfl⟩
  refine ⟨⟨Array.size_setIfInBounds, fun {c d} hc => ?_, fun {c d} hc => ?_⟩, hhere⟩
  · by_cases hcb : c = b
    · subst hcb
      rw [hold hc]
      exact hhere
    · obtain ⟨e', f', he', hf', hd⟩ := hc
      exact ⟨e', f', by rw [hslot, if_neg hcb, he'], hf', hd⟩
  · by_cases hcb : c = b
    · subst hcb
      rw [hc.unique hhere]
      exact hnew
    · obtain ⟨e', f', he', hf', hd⟩ := hc
      rw [hslot, if_neg hcb] at he'
      exact .inl ⟨e', f', he', hf', hd⟩

theorem without (h : t.Without dead t') : t.Goes k t' := by
  refine ⟨h.size, fun {b d} hb => ?_, fun {b d} hb => .inl ?_⟩
  · obtain ⟨e, f, he, hf, rfl⟩ := hb
    obtain ⟨e', he', hw⟩ := h.entry_of he
    have hr := hw.frame
    rw [hf] at hr
    cases hf' : e'.frame with
    | none =>
      rw [hf'] at hr
      cases hr
    | some f' =>
      obtain ⟨f0, hf0, hd⟩ := hw.exists_frame hf'
      rw [hf, Option.some.injEq] at hf0
      subst hf0
      exact ⟨e', f', he', hf', Frame.depths_withoutLocals? hd⟩
  · obtain ⟨e', f', he', hf', rfl⟩ := hb
    obtain ⟨e, he, hw⟩ := h.entry_inv he'
    obtain ⟨f, hf, hd⟩ := hw.exists_frame hf'
    exact ⟨e, f, he, hf, (Frame.depths_withoutLocals? hd).symm⟩

end Table.Goes

/-! ## Loops that are left -/

section Exits

variable {sc : Scope} {w : Work} {p : Position}

theorem exitLoop_depths (f : Frame) (c : Option ExitChain) (l : Nat) :
    Yields (exitLoop p (f, c) l) sc w fun r w' => w'.table = w.table ∧ r.1.depths = f.depths := by
  unfold exitLoop
  refine ensures_get_bind ?_
  refine quiet.bind fun header w1 h1 => ?_
  refine quiet.bind fun mark w2 h2 => ?_
  refine quiet.bind fun exit w3 h3 => ?_
  refine (ensures_mapValuesM_run (fun _ _ _ w' => w'.table = w3.table)
    (fun v rest done s w' hw' => quiet.mono fun _ _ h => h.trans hw')
    rfl).bind fun r w4 h4 => ?_
  obtain ⟨g, s⟩ := r
  have hd : g.depths = f.depths := h4.2.depths
  refine quiet.bind fun _ w5 h5 => ?_
  have ht : w5.table = w.table := by rw [h5, h4.1, h3, h2, h1]
  cases c with
  | none => exact ensures_pure ⟨ht, hd⟩
  | some c => exact quiet.bind fun _ w6 h6 => ensures_pure ⟨h6.trans ht, hd⟩

theorem exitLoops_depths (source target : BlockId) (f : Frame) :
    Yields (exitLoops source target f p) sc w fun r w' =>
      w'.table = w.table ∧ r.1.depths = f.depths := by
  unfold exitLoops
  refine ensures_read_bind ?_
  refine ensures_foldlM (fun _ (r : Frame × Option ExitChain) w' => w'.table = w.table ∧
    r.1.depths = f.depths) ?_ ⟨rfl, rfl⟩
  rintro l rest ⟨g, c⟩ w' ⟨ht, hd⟩
  exact (exitLoop_depths g c l).mono fun r w'' h => ⟨h.1.trans ht, h.2.trans hd⟩

end Exits

/-! ## Frames that meet -/

section Meet

variable {sc : Scope} {w : Work} {p : Position}

theorem mergeValues_depth (m : NodeId) (ends : Nat) (old new : List Value)
    (h : old.length = new.length) :
    Yields ((old.zip new).mapM fun x => mergeValue m ends x.1 x.2) sc w fun vs w' =>
      w'.table = w.table ∧ vs.length = new.length := by
  refine (ensures_mapM (fun rest done w' => w'.table = w.table ∧
    done.length + rest.length = new.length) ?_ (d := []) (w := w) ⟨rfl, ?_⟩).mono fun vs w' h' => ?_
  · rintro ⟨a, b⟩ rest done w' ⟨ht, hl⟩
    refine quiet.mono fun v w'' h'' => ⟨h''.trans ht, ?_⟩
    simp only [List.length_append, List.length_cons, List.length_nil] at hl ⊢
    omega
  · simp [h]
  · simpa using h'

theorem mergeFrames_depths (m : NodeId) (current incoming : Frame) :
    Yields (mergeFrames m current incoming p) sc w fun f w' => w'.table = w.table ∧
      f.depths = incoming.depths ∧ current.depths = incoming.depths := by
  unfold mergeFrames
  refine .chain (yields_liftExcept fun u hu => ?_)
  obtain ⟨hstack, hmon, -⟩ := Frame.checkCompatible_ok hu
  refine ensures_get_bind ?_
  refine (ensures_mapM (fun _ _ w' => w'.table = w.table) ?_ (d := []) (w := w) rfl).bind
    fun locals w1 h1 => ?_
  · intro x rest done w' ht
    exact quiet.mono fun _ _ h => h.trans ht
  refine (mergeValues_depth m _ current.stack.reverse incoming.stack.reverse (by simpa using hstack)).bind
    fun stack w2 h2 => ?_
  refine (mergeValues_depth m _ current.monitors.reverse incoming.monitors.reverse
    (by simpa using hmon)).bind fun monitors w3 h3 => ensures_pure ⟨?_, ?_, ?_⟩
  · rw [h3.1, h2.1, h1]
  · simp only [Frame.depths, List.length_reverse, Depths.mk.injEq]
    exact ⟨by simpa using h2.2, by simpa using h3.2⟩
  · rw [Frame.depths, hstack, hmon, Frame.depths]

end Meet

/-! ## Edges into blocks -/

section Targets

variable {sc : Scope} {w : Work} {p : Position} {f : Frame} {source target : BlockId}
variable {k : Nat}

theorem yields_entry {Q : Entry → Work → Prop} (h : ∀ e, w.table.slot? b = some e → Q e w) :
    Yields (entry b) sc w Q :=
  ensures_get_bind (yields_demand h)

theorem mergeInto_depths (m : NodeId) : Yields (mergeInto target m f p) sc w fun _ w' =>
      w.table.Goes k w'.table ∧ w'.table.Reached target f.depths := by
  unfold mergeInto
  refine .chain (yields_entry fun e he => .chain (yields_demand fun current hcur => ?_))
  refine (mergeFrames_depths m current f).bind fun merged w2 h2 => ensures_setEntry ?_
  obtain ⟨ht, hm, hc⟩ := h2
  have hreach : w.table.Reached target merged.depths := ⟨e, current, he, hcur, hc.trans hm.symm⟩
  have hput := Table.Goes.put (k := k) (e := { e with frame := some merged })
    (Table.lt_of_slot? he) rfl (fun hd => hd.unique hreach) (.inl hreach)
  show w.table.Goes k (w2.table.put target _) ∧ (w2.table.put target _).Reached target f.depths
  rw [ht, ← hm]
  exact hput

theorem Table.Goes.put_alike {e' : Entry} (he : t.slot? b = some e)
    (hf : e'.frame.map Frame.depths = e.frame.map Frame.depths) : t.Goes k (t.put b e') := by
  have hslot := fun c => Table.slot?_put (c := c) (e := e') (Table.lt_of_slot? he)
  have hiff : ∀ c d, t.Reached c d ↔ (t.put b e').Reached c d := by
    intro c d
    rw [Table.reached_iff, Table.reached_iff, hslot]
    by_cases hc : c = b
    · rw [if_pos hc, hc, he, Option.bind_some, Option.bind_some, hf]
    · rw [if_neg hc]
  exact ⟨Array.size_setIfInBounds, fun hb => (hiff _ _).1 hb, fun hb => .inl ((hiff _ _).2 hb)⟩

theorem promote_depths (start : NodeId) :
    Yields (promote target start) sc w fun _ w' => w.table.Goes k w'.table := by
  have hend : ∀ (m : NodeId) (w1 : Work), w1.table = w.table →
      Yields (moveEntry target m) sc w1 fun _ w' => w.table.Goes k w'.table := by
    intro m w1 ht
    refine .chain (yields_entry fun e he => .chain (ensures_setEntry (ensures_pure ?_)))
    rw [← ht]
    exact .put_alike he rfl
  unfold promote
  refine quiet.bind fun merge w1 h1 => ?_
  refine quiet.bind fun stop w2 h2 => ?_
  refine quiet.bind fun _ w3 h3 => ?_
  refine ensures_get_bind ?_
  have ht : w3.table = w.table := by rw [h3, h2, h1]
  dsimp only
  split
  · split
    · exact quiet.bind fun _ w4 h4 => hend merge w4 (h4.trans ht)
    · exact quiet.bind fun _ w4 h4 => hend merge w4 (h4.trans ht)
  · exact quiet.bind fun _ w4 h4 => hend merge w4 (h4.trans ht)

theorem Table.Goes.first (hb : target.index < t.entries.size)
    (hnone : ∀ e', t.slot? target = some e' → e'.frame = none) (he : e.frame = some (sc.prune f target))
    (hlt : k ≤ target.index) : t.Goes k (t.put target e) ∧ (t.put target e).Reached target f.depths := by
  rw [← Frame.depths_prune f sc target]
  refine Table.Goes.put hb he (fun {d} hd => ?_) (.inr hlt)
  obtain ⟨e', f', he', hf', -⟩ := hd
  rw [hnone e' he'] at hf'
  cases hf'

theorem addLoopEntry_depths (hlt : k ≤ target.index) :
    Yields (addLoopEntry target f p) sc w fun _ w' =>
      w.table.Goes k w'.table ∧ w'.table.Reached target f.depths := by
  unfold addLoopEntry
  refine ensures_get_bind ?_
  refine .chain (yields_demand fun e (he : w.table.slot? target = some e) => ?_)
  dsimp only
  split
  · trivial
  refine quiet.bind fun stop w1 h1 => ?_
  refine quiet.bind fun _ w2 h2 => ?_
  have ht : w2.table = w.table := h2.trans h1
  cases hf : e.frame with
  | none =>
    dsimp only
    refine ensures_read_bind ?_
    refine .chain (ensures_setEntry (ensures_pure ?_))
    show w.table.Goes k (w2.table.put target _) ∧ (w2.table.put target _).Reached target f.depths
    rw [ht]
    refine Table.Goes.first (Table.lt_of_slot? he) (fun e' he' => ?_) rfl hlt
    rw [he, Option.some.injEq] at he'
    rw [← he', hf]
  | some g =>
    dsimp only
    refine (mergeInto_depths (k := k) e.node).bind fun _ w3 h3 => ensures_pure ?_
    rwa [ht] at h3

theorem dropPhis_depths (b : BlockId) (headerFrame incoming : Frame) (roots : List NodeId) :
    Yields (dropPhis b headerFrame incoming roots p) sc w fun f w' =>
      w.table.Goes k w'.table ∧ f.depths = headerFrame.depths := by
  unfold dropPhis
  refine ensures_get_bind ?_
  dsimp only
  cases w.graph.carriers roots with
  | error user => trivial
  | ok dead =>
    refine ensures_pure_bind ?_
    split
    · trivial
    cases hf : headerFrame.withoutLocals? dead with
    | none => trivial
    | some f =>
      dsimp only
      refine ensures_get_bind ?_
      refine (ensures_trimTable fun _ _ _ _ _ _ => trivial).bind fun entries w1 hw1 => ?_
      obtain ⟨rfl, hwithout⟩ := hw1
      refine (ensures_changeTable (Q := fun _ w' => w'.table = { w1.table with entries }) rfl).bind
        fun _ w2 h2 => ?_
      refine ensures_get_bind ?_
      refine (quiet (h := sat_forIn (h := fun n => preserves_get (h := fun w => ?_)))).bind
        fun _ w3 h3 => quiet.bind fun _ w4 h4 => ensures_pure ⟨?_, Frame.depths_withoutLocals? hf⟩
      · split <;> infer_instance
      rw [h4, h3, h2]
      exact .without hwithout

instance {P : (α : Type) → BuildM α → Prop} [Modular sc P] [∀ n v, Sat P (addPhiInput n v)]
    (f incoming : Frame) : Sat P (feedPhis f incoming) := by
  have (pair : Option Value × Option Value) : Sat P (do
      if let (some phi, some v) := pair then
        addPhiInput phi.node v.node
      return ForInStep.yield PUnit.unit) := by
    split <;> infer_instance
  unfold feedPhis
  infer_instance

theorem fillPhis_depths (b : BlockId) (headerFrame incoming : Frame) :
    Yields (fillPhis b headerFrame incoming p) sc w fun f w' => w.table.Goes k w'.table ∧
      f.depths = incoming.depths ∧ headerFrame.depths = incoming.depths := by
  unfold fillPhis
  refine .chain (yields_liftExcept fun u hu => ?_)
  have hdepths : headerFrame.depths = incoming.depths := by
    obtain ⟨h1, h2, -⟩ := Frame.checkCompatible_ok hu
    rw [Frame.depths, h1, h2, Frame.depths]
  have hdrop : Yields (shedLocals b headerFrame incoming p) sc w fun f w' =>
      w.table.Goes k w'.table ∧ f.depths = headerFrame.depths := by
    unfold shedLocals
    split
    · exact ensures_pure ⟨.refl _ _, rfl⟩
    · exact dropPhis_depths b headerFrame incoming _
  refine hdrop.bind fun f w1 h1 => ?_
  refine quiet.bind fun _ w2 h2 => ensures_pure ⟨?_, h1.2.trans hdepths, hdepths⟩
  rw [h2]
  exact h1.1

theorem addLoopEnd_depths : Yields (addLoopEnd target f p) sc w fun _ w' =>
      w.table.Goes k w'.table ∧ w'.table.Reached target f.depths := by
  unfold addLoopEnd
  refine .chain (yields_entry fun e he => ?_)
  dsimp only
  split
  · trivial
  refine .chain (yields_demand fun g hg => ?_)
  refine (fillPhis_depths (k := k) target g f).bind fun g' w2 h2 => ?_
  obtain ⟨hgoes, hg', hdepths⟩ := h2
  have hreach : w2.table.Reached target g'.depths := by
    rw [hg', ← hdepths]
    exact hgoes.keeps ⟨e, g, he, hg, rfl⟩
  have hput := Table.Goes.put (k := k) (e := { e with frame := some g' })
    (hgoes.size ▸ Table.lt_of_slot? he) rfl (fun hd => hd.unique hreach) (.inl hreach)
  refine (ensures_setEntry (Q := fun _ w' => w.table.Goes k w'.table ∧
    w'.table.Reached target f.depths) ?_).bind fun _ w3 h3 => ?_
  · rw [← hg']
    exact ⟨hgoes.trans hput.1, hput.2⟩
  refine quiet.bind fun stop w4 h4 => ?_
  refine quiet.bind fun _ w5 h5 => ensures_pure ?_
  rwa [h5, h4]

/-- An edge from `a` to `c` goes forward or into a loop header. -/
structure BlockMap.Onward (m : BlockMap) (a c : BlockId) : Prop where
  bound : c.index < m.size
  back : c.index ≤ a.index → (m.block c).isLoopHeader = true

theorem BlockMap.Charts.onward {b : Body} {c : BlockId} (h : m.Charts b) (ha : a.index < m.size)
    (hc : c ∈ (m.block a).successors) : m.Onward a c :=
  ⟨h.successor hc, fun hle => (h.back ha hc hle).1⟩

theorem BlockMap.Charts.onward_unwind {b : Body} (h : m.Charts b) (ha : a.index < m.size)
    (hne : a ≠ m.unwindBlock) : m.Onward a m.unwindBlock := by
  have hsize := h.size
  have hlt : m.size - 1 < m.size := by omega
  refine ⟨hlt, fun hle => absurd ?_ hne⟩
  obtain ⟨a⟩ := a
  have hle : m.size - 1 ≤ a := hle
  have ha : a < m.size := ha
  rw [unwindBlock, BlockId.mk.injEq]
  omega

section

variable (hon : sc.blocks.Onward source target) (hsize : w.table.entries.size = sc.blocks.size)
  {odds : Float}
include hon hsize

theorem createTarget_depths : Yields (createTarget source target f p) sc w fun _ w' =>
      w.table.Goes (source.index + 1) w'.table ∧ w'.table.Reached target f.depths := by
  unfold createTarget
  refine ensures_read_bind ?_
  dsimp only
  split
  · split
    · exact addLoopEnd_depths
    · next hle => exact addLoopEntry_depths (Nat.lt_of_not_le hle)
  next hheader =>
  have hlt : source.index < target.index := by
    by_contra hle
    exact hheader (hon.back (Nat.le_of_not_lt hle))
  refine ensures_get_bind (ensures_pure_bind ?_)
  cases he : (w.table.entries[target.index]?).join with
  | none =>
    refine quiet.bind fun node w1 h1 => ?_
    refine (ensures_setEntry (Q := fun _ w' => w.table.Goes (source.index + 1) w'.table ∧
      w'.table.Reached target f.depths) ?_).bind fun _ w2 h2 => ensures_pure h2
    rw [h1]
    refine Table.Goes.first (hsize ▸ hon.bound) (fun e' he' => ?_) rfl hlt
    rw [Table.slot?, he] at he'
    cases he'
  | some e =>
    dsimp only
    split
    · trivial
    have hend : ∀ (m : NodeId) (w1 : Work), w.table.Goes (source.index + 1) w1.table →
        Yields (joinTarget target m f p) sc w1 fun _ w' => w.table.Goes (source.index + 1) w'.table ∧
          w'.table.Reached target f.depths := by
      intro m w1 hgoes
      refine quiet.bind fun stop w2 h2 => ?_
      refine quiet.bind fun _ w3 h3 => ?_
      refine (mergeInto_depths (k := source.index + 1) m).bind fun _ w4 h4 => ensures_pure ?_
      rw [h3, h2] at h4
      exact ⟨hgoes.trans h4.1, h4.2⟩
    refine .chain (ensures_get_bind (ensures_pure ?_))
    split
    · exact (promote_depths e.node).bind fun m w1 h1 => hend m w1 h1
    · exact hend _ w (.refl _ _)

theorem resolveTarget_depths (hodds : ¬ odds ≤ 0.0) :
    Yields (resolveTarget source target f odds p) sc w fun _ w' =>
      w.table.Goes (source.index + 1) w'.table ∧ w'.table.Reached target f.depths := by
  unfold resolveTarget
  refine ensures_read_bind ?_
  rw [if_neg (by simp [hodds])]
  refine (exitLoops_depths source target f).bind fun r w1 h1 => ?_
  obtain ⟨g, exits⟩ := r
  obtain ⟨ht, hd⟩ := h1
  refine (createTarget_depths hon (ht ▸ hsize)).bind fun stub w2 h2 => ?_
  refine quiet.mono fun _ w3 h3 => ?_
  rw [h3, ← ht, ← hd]
  exact h2

theorem addBranch_depths {split : NodeId} {kind : EdgeKind} (hodds : ¬ odds ≤ 0.0) :
    Yields (addBranch source split target f odds kind p) sc w fun _ w' =>
      w.table.Goes (source.index + 1) w'.table ∧ w'.table.Reached target f.depths := by
  unfold addBranch
  refine (resolveTarget_depths hon hsize hodds).bind fun stub w1 h1 => ?_
  refine quiet.bind fun stub' w2 h2 => ?_
  refine quiet.mono fun _ w3 h3 => ?_
  rwa [h3, h2]

end

theorem not_one_le_zero : ¬ (1.0 : Float) ≤ 0.0 := by decide

theorem takeLast_quiet (pt : Point) : Yields pt.takeLast sc w fun r w' =>
    w'.table = w.table ∧ r.2 = { pt with last := none } := by
  unfold Point.takeLast
  refine ensures_read_bind ?_
  exact quiet.bind fun _ w1 h1 => ensures_pure ⟨h1, rfl⟩

theorem jump_depths {pt : Point} (hon : sc.blocks.Onward pt.block target)
    (hsize : w.table.entries.size = sc.blocks.size) :
    Yields (pt.jump target) sc w fun pt' w' => w.table.Goes (pt.block.index + 1) w'.table ∧
      w'.table.Reached target pt.frame.depths ∧ pt' = { pt with last := none } := by
  unfold Point.jump
  refine (resolveTarget_depths hon hsize not_one_le_zero).bind fun stub w1 h1 => ?_
  refine (takeLast_quiet pt).bind fun r w2 h2 => ?_
  obtain ⟨last, pt'⟩ := r
  refine quiet.bind fun _ w3 h3 => ensures_pure ?_
  rw [h3, h2.1]
  exact ⟨h1.1, h1.2, h2.2⟩

theorem dispatchException_depths {start : NodeId} {exception : Value}
    (hon : sc.blocks.Onward source (sc.exceptionTarget p))
    (hsize : w.table.entries.size = sc.blocks.size) :
    Yields (dispatchException source start f exception p) sc w fun _ w' =>
      w.table.Goes (source.index + 1) w'.table ∧
        w'.table.Reached (sc.exceptionTarget p) ⟨1, f.depths.monitors⟩ := by
  unfold dispatchException
  refine ensures_read_bind ?_
  refine (resolveTarget_depths hon hsize not_one_le_zero).bind fun stub w1 h1 => ?_
  refine quiet.mono fun _ w2 h2 => ?_
  rw [h2]
  exact h1

end Targets

end StackLift
