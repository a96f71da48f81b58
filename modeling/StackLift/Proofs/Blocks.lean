import StackLift.Proofs.Opening

/-!
# Lifting a block

A block that some edge has reached is opened: its node no longer takes edges, and control stands
there. A loop header also gets its phis. From there the instructions of the block are run, a handler
is tested, or control leaves the method.
-/
namespace StackLift

open BuildM

section Blocks

variable {E : Error → Prop} {sc : Scope} {S : Scene} {cur s handler : Nat}
  {bare part ss bare' part' loose : List NodeId} {A A' : Labels} {w w' w'' : Work}
  {b c d : BlockId} {e : Entry}
  {f : Frame} {n y : NodeId} {p q : Position}
  {nested : Option Parser} {x : Value} {α : Type}

/-! ## Opening -/

/-- Control stands at the node `n` of block `b`, which takes no more edges. -/
structure Opened (S : Scene) (cur : Nat) (bare part : List NodeId)
    (A : Labels) (w : Work) (b : BlockId) (n : NodeId) (f : Frame) (w' : Work)
    (A' : Labels) (bare' : List NodeId) : Prop where
  here : Here S (cur + 1) bare' part A' w' n f
  bare : ∀ x ∈ bare', x ∈ bare ∨ (x = n ∧ w'.graph.kindIs n NodeKind.isMerge = true)
  extends_ : Extends S [] w w'
  agree : Agree S w A A'
  entry : ∃ e, w'.table.slot? b = some e ∧ e.parsed = true ∧ e.node = n
  exits : w'.table.exits = w.table.exits

theorem ensures_openBlock {missing : Defect} {Q : NodeId × Frame → Work → Prop}
    (he : w.table.slot? b = some e) (hf : e.frame = some f)
    (h : Q (e.node, f) { w with table := w.table.put b { e with parsed := true } }) :
    Ensures E (openBlock b missing) sc w Q := by
  unfold openBlock
  refine .chain (ensures_entry he (.chain (ensures_setEntry ?_)))
  exact .chain (ensures_demand hf (ensures_pure h))

theorem Table.put_put (t : Table) (b : BlockId) (e e' : Entry) :
    (t.put b e).put b e' = t.put b e' := by
  simp only [Table.put, Array.setIfInBounds_setIfInBounds]

theorem mem_opened {g : Graph} (x : NodeId)
    (hx : x ∈ if g.kindIs n NodeKind.isMerge = true then n :: bare else bare) :
    x ∈ bare ∨ (x = n ∧ g.kindIs n NodeKind.isMerge = true) := by
  split at hx
  · next hm => exact (List.mem_cons.1 hx).symm.imp_right fun h => ⟨h, hm⟩
  · exact .inl hx

section

variable [S.Sure] (h : Good S cur bare [] part A w) (he : w.table.slot? b = some e)
  (hb : b.index = cur)
include h he hb

theorem Good.opened (hf : e.frame = some f)
    (hpart : e.node ∉ part) (hhead : (S.blocks.block b).isLoopHeader = false)
    (hw : w' = { w with table := w.table.put b { e with parsed := true } }) :
    ∃ bare', Opened S cur bare part A w b e.node f w' A bare' := by
  subst hw
  let w1 : Work := { w with table := w.table.put b { e with parsed := true } }
  obtain ⟨here, hext⟩ := h.open he hb hf hpart (by simp [hhead]) (show w1.graph = _ from rfl) rfl
  refine ⟨_, here, mem_opened, hext, .refl _ _ _, ⟨{ e with parsed := true }, ?_, rfl, rfl⟩, rfl⟩
  rw [Table.slot?_put (Table.lt_of_slot? he), if_pos rfl]

theorem openBlock_good {missing : Defect} (hf : e.frame = some f) (hpart : e.node ∉ part)
    (hhead : (S.blocks.block b).isLoopHeader = false) :
    Ensures E (openBlock b missing) S w fun r w' => r = (e.node, f) ∧
      ∃ bare', Opened S cur bare part A w b e.node f w' A bare' :=
  ensures_openBlock he hf ⟨rfl, h.opened he hb hf hpart hhead rfl⟩

/-- The header of a loop is opened: its frame becomes phis. -/
theorem beginLoop_good {α : Type} {loopIndex : Nat} {rest : Frame → BuildM α} {Q : α → Work → Prop}
    (hf : e.frame = some f) (hpart : e.node ∉ part)
    (hhead : (S.blocks.block b).loopHeader = some loopIndex)
    (hw : w' = { w with table := w.table.put b { e with parsed := true } })
    (hrest : ∀ f' w'' A' bare', Opened S cur bare part A w b e.node f' w'' A' bare' →
      Ensures E (rest f') S w'' Q) :
    Ensures E (openHeader loopIndex b e.node f >>= rest) S w' Q := by
  subst hw
  unfold openHeader
  simp only [bind_assoc, pure_bind]
  have hst := h.inv.placed.stands he
  have hlt := Table.lt_of_slot? he
  have hloop : (S.blocks.block b).isLoopHeader = true := by
    rw [Block.isLoopHeader, hhead]
    rfl
  have hsome : e.frame.isSome = true := by rw [hf]; rfl
  have hp := hst.unparsed (by omega)
  have hmerge : w.graph.kindIs e.node NodeKind.isMerge = true := by
    obtain ⟨i, hk⟩ := hst.header hloop
    exact Graph.kindIs_of_kind? hk
  have hmarks : loopIndex < w.table.marks.size := by
    rw [h.inv.placed.marks]
    exact (List.getElem?_eq_some_iff.1
      ((S.charts.header (h.inv.placed.size ▸ hlt)).1 hhead)).1
  refine (beginLoop_spec (w := { w with table := w.table.put b { e with parsed := true } })
    (O := S.Open w.table) (d := owe bare []) h.inv.sound rfl rfl hmerge
    (hst.entered hsome hloop) (hp ▸ hst.holds hf (.inl hp)) hmarks).bind fun f' w1 h1 => ?_
  obtain ⟨hbegun, hsize, ht1⟩ := h1
  have he1 : w1.table.slot? b = some { e with parsed := true } := by
    rw [ht1]
    exact (Table.slot?_put hlt).trans (if_pos rfl)
  refine .chain (ensures_entry he1 ?_)
  let e' : Entry := { e with frame := some f', parsed := true }
  refine .chain (ensures_setEntry ?_)
  -- the same state, in the order in which the lemmas take the three changes of the table
  let w3 : Work := { w1 with table := w.table.put b { e with frame := some f' } }
  obtain ⟨hgood, hext⟩ := h.begun he hp hf hmerge (show Begun _ _ _ w3.graph _ _ _ from hbegun) rfl
  let w4 : Work := { w1 with table := w.table.put b e' }
  obtain ⟨here, hext'⟩ := hgood.open ((Table.slot?_put hlt).trans (if_pos rfl)) hb rfl hpart
    (fun _ => ⟨hbegun.phis, fun l hl => (label_self A e.node S.base l).1 hl⟩) (show w4.graph = _ from rfl)
    (Table.put_put ..).symm
  have ht3 : w1.table.put b e' =
      { w.table.put b e' with marks := w1.table.marks, exits := w.table.exits } := by
    rw [ht1]
    exact congrArg (fun t : Table => { t with marks := w1.table.marks }) (Table.put_put ..)
  have hx : cur + 1 ≤ S.blocks.exitBlock.index → w.table.exits = {} :=
    fun hc => h.inv.placed.exits (by omega)
  refine hrest f' _ _ _ ⟨here.remark rfl ht3 hsize hx, mem_opened,
    (hext.trans hext').trans (Evolves.remark rfl ht3), ?_, ⟨e', ?_, rfl, rfl⟩, ?_⟩
  · intro m _ hO
    refine label_of_ne ?_
    rintro rfl
    exact absurd (hO (.inl ⟨b, e, he, hp, rfl⟩)) (Nat.not_lt_of_le hst.young)
  · exact (Table.slot?_put (Table.lt_of_slot? he1)).trans (if_pos rfl)
  · rw [ht3]

end

theorem Evolves.opened (h : Evolves S [] w w') (h' : Evolves S ss w' w'')
    (hs : ∀ m ∈ ss, S.Open w.table m ∨ w.graph.nodeCount ≤ m.index) : Evolves S [] w w'' :=
  ((h.weaken (List.nil_subset ss)).trans h').mono fun m hm => Or.inr (hs m hm)

/-! ## Instructions -/

/-- Inside a block control goes on to the next instruction, or out of the method. -/
theorem BlockMap.Charts.ways (hch : sc.blocks.Charts sc.body) (hlt : b.index < sc.blocks.size)
    (hkind : (sc.blocks.block b).kind = .instructions)
    (h1 : (sc.blocks.block b).start.index ≤ p.index) (h2 : p.index < (sc.blocks.block b).stop.index) :
    ∃ i, sc.body.instruction? p = some i ∧ Ways sc b p i ∧
      (p.index + 1 = (sc.blocks.block b).stop.index → i.fallsThrough = true →
        ∃ c, sc.blocks.blockAt? (sc.blocks.block b).stop = some c ∧ Way sc b c) := by
  have hunwind : sc.blocks.dispatchAt? p = none → sc.exceptionTarget p = sc.blocks.unwindBlock := by
    intro hd
    rw [Scope.exceptionTarget, hd]
    rfl
  by_cases hstop : p.index + 1 = (sc.blocks.block b).stop.index
  · obtain ⟨i, hi, hleads⟩ := hch.last hlt hkind p hstop
    have hnext : i.fallsThrough = true → ∃ c, sc.blocks.blockAt? p.next = some c ∧ Way sc b c :=
      fun hft => (hleads.next hft).imp fun c hc => ⟨hc.1, .inl hc.2⟩
    refine ⟨i, hi, ⟨fun t ht => (hleads.target t ht).imp fun c hc => ⟨hc.1, .inl hc.2⟩,
      fun _ => hnext, fun hr => .inl (hleads.exit hr), ?_, ?_⟩, fun _ hft => ?_⟩
    · cases hd : sc.blocks.dispatchAt? p with
      | none => exact .inr (hunwind hd)
      | some c =>
        rw [Scope.exceptionTarget, hd]
        exact .inl (hleads.thrown c hd)
    · rintro ks ts d rfl
      exact hch.valid.arity hi
    · have : p.next = (sc.blocks.block b).stop := by
        rw [Position.next, hstop]
      exact this ▸ hnext hft
  · obtain ⟨i, hi, hend, hd⟩ := hch.inside hlt hkind p h1 (by omega)
    simp only [Instruction.isBlockEnd, Bool.or_eq_false_iff, Bool.not_eq_false',
      List.isEmpty_iff] at hend
    refine ⟨i, hi, ⟨?_, fun hne => absurd hend.1 hne, ?_, .inr (hunwind hd), ?_⟩,
      fun hc => absurd hc hstop⟩
    · rw [hend.1]
      exact fun t ht => absurd ht List.not_mem_nil
    · intro hr
      cases i <;> first | (cases hr; done) | exact Bool.noConfusion hend.2
    · rintro ks ts d rfl
      exact Bool.noConfusion hend.2

theorem List.getLast?_range' {n : Nat} : (List.range' s (n + 1)).getLast? = some (s + n) := by
  rw [List.range'_concat, List.getLast?_concat]
  simp

theorem instructionBlock_good (hn : Nests E S nested) [S.Sure]
    (h : Good S b.index [] [] [] A w) (hlt : b.index < S.blocks.size)
    (hkind : (S.blocks.block b).kind = .instructions) (he : w.table.slot? b = some e)
    (hf : e.frame = some f) :
    Ensures E (instructionBlock nested (S.blocks.block b)) S w fun _ w' => ∃ A',
      Good S (b.index + 1) [] [] [] A' w' ∧ Evolves S [] w w' ∧ Agree S w A A' := by
  have hE := hn.allows.ordinary
  have hp := (h.inv.placed.stands he).unparsed (Nat.le_refl _)
  have hO : ∀ m ∈ [e.node], S.Open w.table m ∨ w.graph.nodeCount ≤ m.index := by
    rintro m hm
    rw [List.mem_singleton.1 hm]
    exact .inl (.inl ⟨b, e, he, hp, rfl⟩)
  obtain ⟨hrun, -⟩ := S.charts.run hlt hkind
  set blk := S.blocks.block b with hblk
  have hid : blk.id = b := S.charts.id hlt
  let positions := (List.range' blk.start.index (blk.stop.index - blk.start.index)).map Position.mk
  have hmem : ∀ q ∈ positions, blk.start.index ≤ q.index ∧ q.index < blk.stop.index := by
    intro q hq
    obtain ⟨i, hi, rfl⟩ := List.mem_map.1 hq
    rw [List.mem_range'_1] at hi
    exact ⟨hi.1, show i < _ by omega⟩
  have hlastp : positions.getLast? = some ⟨blk.stop.index - 1⟩ := by
    obtain ⟨m, hm⟩ : ∃ m, blk.stop.index - blk.start.index = m + 1 := ⟨_, (Nat.succ_pred (by omega)).symm⟩
    simp only [positions, hm, List.getLast?_map, List.getLast?_range', Option.map_some]
    congr 2
    omega
  have hbody : ∀ f' w1 A1 bare', Opened S b.index [] [] A w b e.node f' w1 A1 bare' →
      Ensures E (runBody nested blk e.node f') S w1 fun _ w' => ∃ A',
        Good S (b.index + 1) [] [] [] A' w' ∧ Evolves S [] w w' ∧ Agree S w A A' := by
    intro f' w1 A1 bare' ho
    refine (snapshotMerge_good (D := []) ho.here
      (fun x hx => .inr ((ho.bare x hx).resolve_left List.not_mem_nil)) ho.here.carries).bind
      fun _ w2 h2 => ?_
    obtain ⟨here2, hext2, ht2⟩ := h2
    have hev2 : Evolves S [] w w2 := (ho.extends_.trans hext2).toEvolves
    have hl2 : Lifting S (b.index + 1) w2.table b := by
      obtain ⟨e', he', hp', -⟩ := ho.entry
      exact ⟨rfl, hlt, .inl hkind, e', ht2 ▸ he', hp'⟩
    let pt0 : Point := { block := blk.id, position := blk.start, frame := f', last := some e.node }
    refine (runCode_good (q := pt0) hn ?_ here2 rfl (hid ▸ hl2)).bind fun pt w3 h3 => ?_
    · intro q hq
      obtain ⟨i, hi, hways, -⟩ := S.charts.ways hlt hkind (hmem q hq).1 (hmem q hq).2
      exact ⟨i, hi, show Ways S blk.id q i from hid ▸ hways⟩
    obtain ⟨hfall, A3, hwent⟩ := h3
    have hA3 : Agree S w A A3 := (ho.agree.trans ho.extends_.toEvolves (.refl _ _ _)).trans
      hev2 hwent.agree
    have hev3 : Evolves S [] w w3 := hev2.opened hwent.evolves hO
    cases hlast : pt.last with
    | none => exact ensures_pure ⟨A3, hwent.now.good hlast, hev3, hA3⟩
    | some a =>
      obtain ⟨i, hi, hft⟩ := hfall (by rw [hlast]; simp) _ hlastp
      obtain ⟨i', hi', -, hnext⟩ := S.charts.ways (p := ⟨blk.stop.index - 1⟩) hlt hkind
        (Nat.le_sub_one_of_lt hrun) (Nat.sub_one_lt_of_lt hrun)
      obtain rfl : i = i' := Option.some.inj (hi.symm.trans hi')
      obtain ⟨c, hc, hway⟩ := hnext (Nat.sub_add_cancel (Nat.one_le_of_lt hrun)) hft
      refine ensures_read_bind (.chain (ensures_demand hc ?_))
      have hblock : pt.block = b := hwent.block.trans hid
      refine (jump_good hE (hwent.now.here hlast) hlast
        (hblock ▸ hl2.mono hwent.evolves.keeps) (hblock ▸ hway) (.code hc)).bind
        fun _ w5 h5 => ensures_pure ?_
      obtain ⟨-, A5, hgood5, hev5, hA5⟩ := h5
      refine ⟨A5, hgood5, hev3.opened hev5 ?_, hA3.trans hev3 hA5⟩
      rintro m hm
      rw [List.mem_singleton.1 hm]
      rcases hwent.young a hlast with rfl | hy
      · exact hO _ (List.mem_singleton.2 rfl)
      · exact .inr (Nat.le_trans hev2.grows.count hy)
  rw [instructionBlock, hid]
  refine (ensures_openBlock he hf (Q := fun r w' => r = (e.node, f) ∧
    w' = { w with table := w.table.put b { e with parsed := true } }) ⟨rfl, rfl⟩).bind fun r w1 h1 => ?_
  obtain ⟨rfl, hw1⟩ := h1
  dsimp only
  cases hhead : blk.loopHeader with
  | none =>
    obtain ⟨bare', ho⟩ := h.opened he rfl hf List.not_mem_nil (by rw [Block.isLoopHeader, hhead]; rfl) hw1
    exact ensures_pure_bind (hbody f w1 A bare' ho)
  | some l =>
    exact beginLoop_good h he rfl hf List.not_mem_nil hhead hw1
      hbody

/-! ## Tests of handlers -/

theorem Frame.mem_values_raising_swap {y v : Value} (h : v ∈ (f.raising x).values) :
    v = x ∨ v ∈ (f.raising y).values := by
  simp only [Frame.mem_values, Frame.raising, Frame.push, Frame.clearStack, List.mem_cons,
    List.not_mem_nil, or_false] at h ⊢
  tauto

theorem Has.input {k : NodeKind} {x : NodeId} {P : NodeSet}
    (h : Good S cur bare [] part A w) (hx : Has S P w x) (hk : w.graph.kind? y = some k)
    (hc : k.isCarrier = false) (hi : x ∈ w.graph.inputs y)
    (h' : Good S cur bare' [] part' A' w') (hev : Evolves S ss w w') : Has S P w' x := by
  have hk' := hev.grows.kind hk hc
  obtain ⟨z, hz, rfl⟩ := Graph.kind?_eq_some.1 hk'
  have hsub := (hev.grows.inputs (Graph.lt_of_kind? hk) hk').1.subset hi
  rw [Graph.inputs, hz] at hsub
  have hu := (h'.inv.sound.node hz).inputs x hsub
  exact ⟨hu, hx.avail.of_grows h.inv.sound hev.grows hu.contains⟩

theorem testHandler_good {type : TypeId} {skipped : Bool} [S.Sure] (hE : Expects E)
    (h : Here S cur bare part A w n f) (hl : Lifting S cur w.table b)
    (hx : Has S (A n) w x.node) (hk : x.kind = .object) (hc : S.blocks.blockAt? q = some c)
    (hcw : Way S b c) (hdw : Way S b d) (hdk : (S.blocks.block d).kind ≠ .exit) :
    Ensures E (testHandler b n f x type skipped c d p) S w fun _ w' => ∃ A',
      Good S cur bare [] part A' w' ∧ Evolves S [n] w w' ∧ Agree S w A A' := by
  unfold testHandler
  refine (h.data (k := .instanceOf type) (I := [x.node]) rfl rfl (by simpa using hx)).bind
    fun test w1 h1 => ?_
  obtain ⟨here1, hext1, hnew1, htest⟩ := h1
  refine here1.put (k := .ifNode) (I := [test]) rfl rfl rfl rfl (by simpa using htest)
    fun split w2 A2 ha => ?_
  have hsplit := ha.splits rfl rfl
  have hx1 : Has S (A n) w1 x.node := hx.extend h.good hext1
  have hx2 : Has S (A2 split) w2 x.node := ha.has here1.good hx1
  have hf2 : Carries S (A2 split) w2 f := ha.carries here1.good here1.carries
  have htest2 : w2.graph.kind? test = some (.instanceOf type) := ha.extends_.grows.kind hnew1.kind rfl
  have hin2 : x.node ∈ w2.graph.inputs test := by
    rw [(ha.extends_.grows.inputs (Graph.lt_of_kind? hnew1.kind) htest2).2 nofun, Graph.inputs,
      hnew1.node]
    exact List.mem_singleton.2 rfl
  have hl2 : Lifting S cur w2.table b := hl.mono (hext1.keeps.trans ha.extends_.keeps)
  have hev2 : Evolves S [n] w w2 := (hext1.toEvolves.weaken (by simp)).trans ha.extends_.toEvolves
  have hA2 : Agree S w A A2 := (Agree.refl S w A).trans hext1.toEvolves ha.agree
  have hfresh : w.graph.nodeCount ≤ split.index := Nat.le_trans hext1.grows.count ha.fresh
  have hlast : ∀ {pr : Float} w3 A3, Splits S cur bare part A3 w3 split .ifNode [.taken] →
      Evolves S [split] w2 w3 → Agree S w2 A2 A3 → Carries S (A3 split) w3 (f.raising x) →
      Ensures E (addBranch b split d (f.raising x) pr .notTaken p) S w3 fun _ w' => ∃ A',
        Good S cur bare [] part A' w' ∧ Evolves S [n] w w' ∧ Agree S w A A' := by
    intro pr w3 A3 hs3 hev3 hA3 hf3
    refine (addBranch_good hE hs3 (hl2.mono hev3.keeps) hdw hf3 (.raising hk hdk)).mono
      fun _ w4 h4 => ?_
    obtain ⟨A4, hs4, hev4, hA4, -⟩ := h4
    have hev : Evolves S [n] w w3 := hev2.then hev3 (by simp [hfresh])
    exact ⟨A4, hs4.finish rfl, hev.then hev4 (by simp [hfresh]), (hA2.trans hev2 hA3).trans hev hA4⟩
  dsimp only
  split
  · next hskip =>
    refine (addDeopt_good hsplit.good (fun l hl => ha.foot.base l (.inl hl)) hf2).bind
      fun trap w3 h3 => ?_
    obtain ⟨A3, hgood3, hext3, ht3, hA3, hr3, hfresh3⟩ := h3
    refine (beginStub_good hgood3 hr3).bind fun stub w4 h4 => ?_
    obtain ⟨A4, hgood4, hext4, ht4, hA4, hr4, hb4, hor4⟩ := h4
    have hlt := ha.foot.firm.lt
    have htrap : split ∉ [trap] := by
      rintro hm
      rw [List.mem_singleton.1 hm] at hlt
      exact absurd hlt (Nat.not_lt_of_le hfresh3)
    have hext : Extends S [trap] w2 w4 := (hext3.weaken (by simp)).trans hext4
    have hA24 : Agree S w2 A2 A4 := hA3.trans hext3.toEvolves hA4
    refine (hsplit.link hgood4 hext.toEvolves hA24 htrap hr4 hb4).bind fun _ w5 h5 => ?_
    obtain ⟨hs5, hext5, -, -⟩ := h5
    have hstub : w2.graph.nodeCount ≤ stub.index := by
      rcases hor4 with rfl | ho
      · exact hfresh3
      · exact Nat.le_trans hext3.grows.count ho
    refine hlast w5 A4 hs5 ?_ hA24 ?_
    · refine (hext.toEvolves.weaken (show [trap] ⊆ [trap, split, stub] by simp)).trans
        (hext5.toEvolves.weaken (by simp)) |>.mono fun m hm => ?_
      simp only [List.mem_cons, List.not_mem_nil, or_false] at hm
      rcases hm with rfl | rfl | rfl
      · exact .inr (.inr hfresh3)
      · exact .inl (by simp)
      · exact .inr (.inr hstub)
    · rw [ha.foot.agree hA24]
      exact ((hf2.raising hx2).extend hsplit.good hext).extend hgood4 hext5
  · next hskip =>
    refine (addData_good (k := .pi type) (I := [x.node]) hsplit.good rfl rfl
      (by simpa using hx2)).bind fun narrowed w3 h3 => ?_
    obtain ⟨hgood3, hext3, hnew3, hhas3⟩ := h3
    have hs3 := hsplit.evolve hgood3 hext3.toEvolves (.refl _ _ _) (by simp)
    have hf3 : Carries S (A2 split) w3 f := hf2.extend hsplit.good hext3
    refine (addBranch_good hE hs3 (hl2.mono hext3.keeps) hcw
      (hf3.raising (v := .object narrowed) hhas3) (.code hc)).bind fun _ w4 h4 => ?_
    obtain ⟨A4, hs4, hev4, hA4, hf4⟩ := h4
    have hev24 : Evolves S [split] w2 w4 := (hext3.toEvolves.weaken (by simp)).trans hev4
    refine hlast w4 A4 hs4 hev24 ((Agree.refl S _ A2).trans hext3.toEvolves hA4) ?_
    refine .of_has fun v hv => ?_
    rcases Frame.mem_values_raising_swap (y := .object narrowed) hv with rfl | hv
    · rw [hs3.foot.agree hA4]
      exact hx2.input hsplit.good htest2 rfl hin2 hs4.good hev24
    · exact hf4.has hv

theorem dispatchBlock_good {next : Option BlockId} [S.Sure]
    (hE : Expects E) (h : Good S b.index [] [] [] A w)
    (hlt : b.index < S.blocks.size) (hkind : (S.blocks.block b).kind = .dispatch handler next)
    (he : w.table.slot? b = some e) (hf : e.frame = some f) :
    Ensures E (dispatchBlock b handler next) S w fun _ w' => ∃ A',
      Good S (b.index + 1) [] [] [] A' w' ∧ Evolves S [] w w' ∧ Agree S w A A' := by
  have hst := h.inv.placed.stands he
  have hp := hst.unparsed (Nat.le_refl _)
  have hO : ∀ m ∈ [e.node], S.Open w.table m ∨ w.graph.nodeCount ≤ m.index := by
    rintro m hm
    rw [List.mem_singleton.1 hm]
    exact .inl (.inl ⟨b, e, he, hp, rfl⟩)
  obtain ⟨v, hv, hvk⟩ : ∃ v, f.stack = [v] ∧ v.kind = .object := by
    have := hst.shape hf
    rwa [Shape, hkind] at this
  obtain ⟨info, c, hinfo, hc, hcs, hnext⟩ := S.charts.dispatch hlt hkind
  unfold dispatchBlock
  refine ensures_read_bind ((openBlock_good h he rfl hf List.not_mem_nil
    (Scene.Fit.plain b ⟨handler, next, hkind⟩)).bind fun r w1 h1 => ?_)
  obtain ⟨rfl, bare', ho⟩ := h1
  refine .chain (ensures_demand hinfo ?_)
  dsimp only
  have hpending : pendingException f (S.blocks.block b).start = pure v := by
    rw [pendingException, hv]
    exact if_pos hvk
  rw [hpending]
  refine ensures_pure_bind ((snapshotMerge_good (D := []) ho.here
      (fun x hx => .inr ((ho.bare x hx).resolve_left List.not_mem_nil)) ho.here.carries).bind
      fun _ w2 h2 => ?_)
  obtain ⟨here2, hext2, ht2⟩ := h2
  have hev2 : Evolves S [] w w2 := (ho.extends_.trans hext2).toEvolves
  have hl2 : Lifting S (b.index + 1) w2.table b := by
    obtain ⟨e', he', hp', -⟩ := ho.entry
    exact ⟨rfl, hlt, .inr ⟨handler, next, hkind⟩, e', ht2 ▸ he', hp'⟩
  have hdone : ∀ {w' A'}, Good S (b.index + 1) [] [] [] A' w' → Evolves S [e.node] w2 w' →
      Agree S w2 A A' → ∃ A', Good S (b.index + 1) [] [] [] A' w' ∧ Evolves S [] w w' ∧
        Agree S w A A' := fun hg hev hA => ⟨_, hg, hev2.opened hev hO, (Agree.refl S w A).trans hev2 hA⟩
  refine .chain (ensures_blockAt hc ?_)
  split
  · refine (resolveTarget_good hE here2.good hl2 (.inl hcs)
      (fun l hl => here2.foot.base l (.inl hl)) here2.carries (.code hc)).bind
      fun stub w4 h4 => ?_
    obtain ⟨A4, hsent, -⟩ := h4
    refine (here2.goto hsent fun l hl => hl).mono fun _ w5 h5 => ?_
    exact hdone h5.1 h5.2.1 hsent.agree
  · next type htype =>
    obtain ⟨d, rfl, hds, hdk⟩ := hnext.resolve_left (by rw [htype]; simp)
    refine .chain (ensures_demand (a := d) rfl ?_)
    split
    · refine (ensures_recordUnresolved (Q := fun _ w' => w'.graph = w2.graph ∧ w'.table = w2.table)
        fun _ hg ht => ⟨hg, ht⟩).bind fun _ w5 h5 => ?_
      have hext5 : Extends S [] w2 w5 := .of_eq h5.1 h5.2
      have here5 := here2.extend (here2.good.of_eq h5.1 h5.2) hext5 (.refl _ _ _) (by simp)
      refine (addDeopt_good here5.good (fun l hl => here5.foot.base l (.inl hl))
        here5.carries).bind fun stub w6 h6 => ?_
      obtain ⟨A6, hgood6, hext6, -, hA6, hr6, hfresh6⟩ := h6
      refine (here5.goto ⟨hgood6, hext6.toEvolves, hA6, hr6, hfresh6, hext6.backs here5.carries.backs⟩
        fun l hl => hl).mono fun _ w7 h7 => ?_
      exact hdone h7.1 ((hext5.toEvolves.weaken (by simp)).trans h7.2.1)
        ((Agree.refl S _ A).trans hext5.toEvolves hA6)
    · have hdne : (S.blocks.block d).kind ≠ .exit := by
        rcases hdk with ⟨h', n', hd⟩ | rfl
        · rw [hd]
          rintro ⟨⟩
        · rw [(S.charts.unwind (S.charts.successor hds)).2 rfl]
          rintro ⟨⟩
      refine (testHandler_good hE here2 hl2 (here2.carries.has_top hv).2 hvk hc (.inl hcs)
        (.inl hds) hdne).mono fun _ w5 h5 => ?_
      obtain ⟨A5, hg5, hev5, hA5⟩ := h5
      exact hdone hg5 hev5 hA5

/-! ## Ways out -/

/-- Block `b` is parsed, and `n` is its node. -/
def Table.Stood (t : Table) (b : BlockId) (n : NodeId) : Prop :=
  ∃ e, t.slot? b = some e ∧ e.parsed = true ∧ e.node = n

theorem Table.Stood.mono {t t' : Table} (h : t.Stood b n) (hk : t.Keeps t') : t'.Stood b n := by
  obtain ⟨e, he, hp, rfl⟩ := h
  exact hk b e he hp

theorem BuildM.Ensures.and {act : BuildM α} {Q Q' : α → Work → Prop} (h : Ensures E act sc w Q)
    (h' : Ensures (fun _ => True) act sc w Q') : Ensures E act sc w fun a w' => Q a w' ∧ Q' a w' := by
  unfold Ensures at h h' ⊢
  cases heq : act sc w with
  | ok a w' =>
    rw [heq] at h h'
    exact ⟨h, h'⟩
  | error e w' =>
    rw [heq] at h
    exact h

theorem ensures_changeGraph_table {f : Graph → Except Error (α × Graph)} :
    Ensures (fun _ => True) (changeGraph f) sc w fun _ w' => w'.table = w.table := by
  cases hf : f w.graph with
  | ok r => exact ensures_changeGraph hf rfl
  | error e =>
    rw [Ensures, changeGraph_congr hf]
    trivial

theorem Leaves.extend {y : Exit} (hy : Leaves S A w y)
    (h : Good S cur bare loose part A w) (hext : Extends S ss w w') (hA : Agree S w A A')
    (hs : y.node ∉ ss) : Leaves S A' w' y := by
  obtain ⟨k, hk, hx⟩ := hy.plain
  refine ⟨hy.young, hy.foot.mono h hext.toEvolves hA, ?_, ⟨k, hy.foot.kind hk hext.toEvolves, hx⟩, ?_⟩
  · rw [hext.grows.outgoing hy.foot.firm.lt hs hy.foot.firm.2.1, hy.outgoing]
  · rw [hy.foot.agree hA]
    exact hy.carries.extend h hext

theorem Opened.leaves (ho : Opened S cur bare part A w b n f w' A' bare')
    (hy : S.graph.nodeCount ≤ n.index) : Leaves S A' w' ⟨n, f⟩ :=
  ⟨hy, ho.here.foot, ho.here.outgoing, ho.here.plain, ho.here.carries⟩

/-- The blocks before `cur` are lifted, and control stands where it leaves the method. -/
structure Lifted (S : Scene) (cur : Nat) (A : Labels) (w : Work) : Prop where
  good : ∃ bare, Good S cur bare [] w.table.exits.nodes A w ∧
    ∀ n ∈ bare, n ∈ w.table.exits.nodes ∧ w.graph.kindIs n NodeKind.isMerge = true
  returned : ∀ y, w.table.exits.returned = some y → Leaves S A w y ∧
    (S.method.returns ≠ .void → y.frame.stack ≠ []) ∧
      w.table.Stood S.blocks.exitBlock y.node ∧ S.depth ≠ 0
  unwound : ∀ y, w.table.exits.unwound = some y → Leaves S A w y ∧
    (∃ v, y.frame.stack = [v] ∧ v.kind = .object) ∧
      w.table.Stood S.blocks.unwindBlock y.node ∧ S.blocks.unwindBlock.index < cur ∧ S.depth ≠ 0

theorem Lifted.of_good (h : Good S cur [] [] [] A w) (hx : w.table.exits = {}) :
    Lifted S cur A w := by
  refine ⟨⟨[], ?_, fun n hn => absurd hn List.not_mem_nil⟩, fun y hy => ?_, fun y hy => ?_⟩
  · rw [hx]
    exact h
  · rw [hx] at hy
    cases hy
  · rw [hx] at hy
    cases hy

theorem Lifted.blank (h : Lifted S cur A w) (hx : w.table.exits = {}) :
    Good S cur [] [] [] A w := by
  obtain ⟨bare, hgood, hbare⟩ := h.good
  rw [hx] at hgood hbare
  exact hgood.mono (fun n hn => (hbare n hn).1) (fun _ hn => hn) fun _ hn => hn

theorem Lifted.skip (h : Lifted S cur A w)
    (hnone : ∀ {b e}, w.table.slot? b = some e → b.index = cur → e.frame = none) :
    Lifted S (cur + 1) A w := by
  obtain ⟨bare, hgood, hbare⟩ := h.good
  refine ⟨⟨bare, hgood.skip hnone, hbare⟩, h.returned, fun y hy => ?_⟩
  obtain ⟨h1, h2, h3, h4, h5⟩ := h.unwound y hy
  exact ⟨h1, h2, h3, Nat.lt_succ_of_lt h4, h5⟩

section

variable [S.Sure] (h : Lifted S b.index A w) (hlt : b.index < S.blocks.size)
include h hlt

theorem exitBlock_good (hkind : (S.blocks.block b).kind = .exit) (he : w.table.slot? b = some e)
    (hf : e.frame = some f) : Ensures E (exitBlock (S.blocks.block b)) S w fun _ w' => ∃ A',
      Lifted S (b.index + 1) A' w' ∧ Evolves S [] w w' ∧ Agree S w A A' := by
  obtain rfl := (S.charts.exit hlt).1 hkind
  obtain ⟨_, hg0, -⟩ := h.good
  have hx := hg0.inv.placed.exits (Nat.le_refl _)
  have hgood := h.blank hx
  have hst := hgood.inv.placed.stands he
  obtain ⟨hdepth, hsome⟩ : S.depth ≠ 0 ∧ (S.method.returns ≠ .void → f.stack ≠ []) := by
    have := hst.shape hf
    rwa [Shape, hkind] at this
  unfold exitBlock
  rw [S.charts.id hlt]
  refine (openBlock_good hgood he rfl hf List.not_mem_nil
    (S.charts.wayOut_not_header (.inl rfl))).bind fun r w1 h1 => ?_
  obtain ⟨rfl, bare', ho⟩ := h1
  have hx1 : w1.table.exits = {} := ho.exits.trans hx
  let x : Exits := { returned := some ⟨e.node, f⟩ }
  refine ensures_changeTable ?_
  rw [hx1]
  let w2 : Work := { w1 with table := { w1.table with exits := x } }
  have hgood2 : Good S (S.blocks.exitBlock.index + 1) bare' [] [e.node] A w2 :=
    ho.here.good.remark rfl rfl rfl (fun hc => absurd hc (Nat.not_succ_le_self _))
  have hext2 : Extends S [] w1 w2 := Evolves.remark rfl rfl
  refine ⟨A, ⟨⟨bare', hgood2, ?_⟩, ?_, fun y hy => nomatch hy⟩,
    (ho.extends_.trans hext2).toEvolves, .refl _ _ _⟩
  · intro n hn
    obtain ⟨rfl, hm⟩ := (ho.bare n hn).resolve_left List.not_mem_nil
    exact ⟨List.mem_singleton.2 rfl, hm⟩
  · rintro y hy
    obtain rfl := Option.some.inj hy
    exact ⟨(ho.leaves hst.young).extend ho.here.good hext2 (.refl _ _ _) List.not_mem_nil, hsome,
      ho.entry, hdepth⟩

/-- At the root, what nothing catches ends in an unwind node. -/
theorem unwindBlock_root (hkind : (S.blocks.block b).kind = .unwind) (he : w.table.slot? b = some e)
    (hf : e.frame = some f) (hdepth : S.depth = 0) :
    Ensures E (unwindBlock (S.blocks.block b)) S w fun _ w' => ∃ A',
      Lifted S (b.index + 1) A' w' ∧ Evolves S [] w w' ∧ Agree S w A A' := by
  obtain rfl := (S.charts.unwind hlt).1 hkind
  have hx : w.table.exits = {} := by
    cases hx : w.table.exits with
    | mk returned unwound =>
      have h1 : returned = none := Option.eq_none_iff_forall_ne_some.2 fun y hy =>
        absurd hdepth (h.returned y (by rw [hx, hy])).2.2.2
      have h2 : unwound = none := Option.eq_none_iff_forall_ne_some.2 fun y hy =>
        absurd hdepth (h.unwound y (by rw [hx, hy])).2.2.2.2
      rw [h1, h2]
  have hgood := h.blank hx
  have hst := hgood.inv.placed.stands he
  have hp := hst.unparsed (Nat.le_refl _)
  obtain ⟨v, hv, hvk⟩ : ∃ v, f.stack = [v] ∧ v.kind = .object := by
    have := hst.shape hf
    rwa [Shape, hkind] at this
  unfold unwindBlock
  rw [S.charts.id hlt]
  refine (openBlock_good hgood he rfl hf List.not_mem_nil
    (S.charts.wayOut_not_header (.inr rfl))).bind fun r w1 h1 => ?_
  obtain ⟨rfl, bare', ho⟩ := h1
  refine ensures_read_bind ?_
  rw [if_pos hdepth]
  refine (snapshotMerge_good (D := []) ho.here
    (fun x hx => .inr ((ho.bare x hx).resolve_left List.not_mem_nil)) ho.here.carries).bind
    fun _ w2 h2 => ?_
  obtain ⟨here2, hext2, ht2⟩ := h2
  have hpeek : f.peek? = some v := by
    rw [Frame.peek?, hv]
    rfl
  rw [hpeek]
  refine ((addLast_good (k := .unwind) (I := [v.node]) (P := A e.node) here2.good (.inr rfl)
    (by simpa using (here2.carries.has_top hv).2)).and ensures_changeGraph_table).bind
    fun n w3 h3 => ?_
  obtain ⟨⟨hgood3, hext3, hA3, hr3, hfresh3⟩, ht3⟩ := h3
  refine ((here2.goto ⟨hgood3, hext3.toEvolves, hA3, hr3, hfresh3, hext3.backs here2.carries.backs⟩
    fun l hl => hl).and ensures_changeGraph_table).mono fun _ w4 h4 => ?_
  obtain ⟨⟨hgood4, hev4, -⟩, ht4⟩ := h4
  have hev2 : Evolves S [] w w2 := (ho.extends_.trans hext2).toEvolves
  refine ⟨_, .of_good hgood4 ?_, hev2.opened hev4 ?_, (Agree.refl S w A).trans hev2 hA3⟩
  · rw [ht4, ht3, ht2, ho.exits, hx]
  · intro m hm
    rw [List.mem_singleton.1 hm]
    exact .inl (.inl ⟨_, e, he, hp, rfl⟩)

theorem unwindBlock_inner (hkind : (S.blocks.block b).kind = .unwind) (he : w.table.slot? b = some e)
    (hf : e.frame = some f) (hdepth : S.depth ≠ 0) :
    Ensures E (unwindBlock (S.blocks.block b)) S w fun _ w' => ∃ A',
      Lifted S (b.index + 1) A' w' ∧ Evolves S [] w w' ∧ Agree S w A A' := by
  obtain rfl := (S.charts.unwind hlt).1 hkind
  obtain ⟨bare, hgood, hbare⟩ := h.good
  have hst := hgood.inv.placed.stands he
  have hnone : w.table.exits.unwound = none := Option.eq_none_iff_forall_ne_some.2 fun y hy =>
    absurd (h.unwound y hy).2.2.2.1 (Nat.lt_irrefl _)
  have hnodes : w.table.exits.nodes = w.table.exits.returned.toList.map (·.node) := by
    rw [Exits.nodes, hnone, Option.toList_none, List.append_nil]
  have hpart : e.node ∉ w.table.exits.nodes := by
    intro hm
    rw [hnodes] at hm
    obtain ⟨y, hy, hn⟩ := List.mem_map.1 hm
    obtain ⟨e', he', -, hn'⟩ := (h.returned y (Option.mem_toList.1 hy)).2.2.1
    have := hgood.inv.placed.distinct he' he (hn'.trans hn)
    have hsize := S.charts.size
    simp only [BlockMap.exitBlock, BlockMap.unwindBlock, BlockId.mk.injEq] at this
    omega
  have hshape : ∃ v, f.stack = [v] ∧ v.kind = .object := by
    have := hst.shape hf
    rwa [Shape, hkind] at this
  unfold unwindBlock
  rw [S.charts.id hlt]
  refine (openBlock_good hgood he rfl hf hpart
    (S.charts.wayOut_not_header (.inr rfl))).bind fun r w1 h1 => ?_
  obtain ⟨rfl, bare', ho⟩ := h1
  refine ensures_read_bind ?_
  rw [if_neg hdepth]
  refine ensures_changeTable ?_
  let x : Exits := { w1.table.exits with unwound := some ⟨e.node, f⟩ }
  let w2 : Work := { w1 with table := { w1.table with exits := x } }
  have hxn : x.nodes = w.table.exits.nodes ++ [e.node] := by
    rw [hnodes, ← ho.exits, Exits.nodes, List.map_append]
    rfl
  have hgood2 : Good S (S.blocks.unwindBlock.index + 1) bare' [] x.nodes A w2 := by
    refine (ho.here.good.remark (show w2.graph = _ from rfl)
      (show w2.table = { w1.table with marks := w1.table.marks, exits := x } from rfl) rfl
      fun hc => ?_).mono
      (fun _ hn => hn) (fun _ hn => hn) ?_
    · have hsize := S.charts.size
      simp only [BlockMap.exitBlock, BlockMap.unwindBlock] at hc
      omega
    · rw [hxn]
      intro n hn
      rcases List.mem_cons.1 hn with rfl | hn
      · exact List.mem_append_right _ (List.mem_singleton.2 rfl)
      · exact List.mem_append_left _ hn
  have hext2 : Extends S [] w1 w2 := Evolves.remark rfl rfl
  have hext : Extends S [] w w2 := ho.extends_.trans hext2
  refine ⟨A, ⟨⟨bare', hgood2, ?_⟩, ?_, ?_⟩, hext.toEvolves, .refl _ _ _⟩
  · intro n hn
    change n ∈ x.nodes ∧ _
    rw [hxn]
    rcases ho.bare n hn with hn | ⟨rfl, hm⟩
    · exact ⟨List.mem_append_left _ (hbare n hn).1, hext.grows.kindIs (hbare n hn).2
        fun k hk => by cases k <;> first | rfl | cases hk⟩
    · exact ⟨by simp, hm⟩
  · intro y hy
    obtain ⟨hl, hs, hst', hd⟩ := h.returned y (ho.exits ▸ hy)
    exact ⟨hl.extend hgood hext (.refl _ _ _) List.not_mem_nil, hs, hst'.mono hext.keeps, hd⟩
  · rintro y hy
    obtain rfl := Option.some.inj hy
    exact ⟨(ho.leaves hst.young).extend ho.here.good hext2 (.refl _ _ _) List.not_mem_nil, hshape,
      ho.entry, Nat.lt_succ_self _, hdepth⟩

end

/-- One block is lifted, if some edge has reached it. -/
theorem liftBlock_good (hn : Nests E S nested) [S.Sure] (h : Lifted S b.index A w)
    (hlt : b.index < S.blocks.size) :
    Ensures E (liftBlock nested (S.blocks.block b)) S w fun _ w' => ∃ A',
      Lifted S (b.index + 1) A' w' ∧ Evolves S [] w w' ∧ Agree S w A A' := by
  have hE := hn.allows.ordinary
  unfold liftBlock
  rw [S.charts.id hlt]
  refine (show Ensures E ( entry? b) S w fun o w' => o = w.table.slot? b ∧ w' = w from
    ensures_get_bind (ensures_pure ⟨rfl, rfl⟩)).bind fun o w0 h0 => ?_
  obtain ⟨rfl, rfl⟩ := h0
  split
  · next hsome =>
    obtain ⟨f, hf⟩ := Option.isSome_iff_exists.1 hsome
    obtain ⟨e, he, hfe⟩ := Option.bind_eq_some_iff.1 hf
    refine .chain (ensures_checkBudget hE ?_)
    obtain ⟨_, hg0, -⟩ := h.good
    have hinner : (S.blocks.block b).kind ≠ .exit → (S.blocks.block b).kind ≠ .unwind →
        b.index + 1 ≤ S.blocks.exitBlock.index := by
      intro h1 h2
      have hx : b.index ≠ S.blocks.size - 2 :=
        fun hb => h1 ((S.charts.exit hlt).2 (BlockId.index_inj.1 hb))
      have hu : b.index ≠ S.blocks.size - 1 :=
        fun hb => h2 ((S.charts.unwind hlt).2 (BlockId.index_inj.1 hb))
      simp only [BlockMap.exitBlock]
      omega
    have hlift : b.index + 1 ≤ S.blocks.exitBlock.index → ∀ w' A',
        Good S (b.index + 1) [] [] [] A' w' → Lifted S (b.index + 1) A' w' :=
      fun hle w' A' hg => .of_good hg (hg.inv.placed.exits hle)
    have hblank : b.index + 1 ≤ S.blocks.exitBlock.index → Good S b.index [] [] [] A w0 :=
      fun hle => h.blank (hg0.inv.placed.exits (Nat.le_of_succ_le hle))
    split
    · next hkind =>
      have hle := hinner (by rw [hkind]; rintro ⟨⟩) (by rw [hkind]; rintro ⟨⟩)
      refine (instructionBlock_good hn (hblank hle) hlt hkind he hfe).mono fun _ w' h' => ?_
      obtain ⟨A', hg, hev, hA⟩ := h'
      exact ⟨A', hlift hle w' A' hg, hev, hA⟩
    · next handler next hkind =>
      have hle := hinner (by rw [hkind]; rintro ⟨⟩) (by rw [hkind]; rintro ⟨⟩)
      refine (dispatchBlock_good hE (hblank hle) hlt hkind he hfe).mono fun _ w' h' => ?_
      obtain ⟨A', hg, hev, hA⟩ := h'
      exact ⟨A', hlift hle w' A' hg, hev, hA⟩
    · next hkind => exact exitBlock_good h hlt hkind he hfe
    · next hkind =>
      by_cases hd : S.depth = 0
      · exact unwindBlock_root h hlt hkind he hfe hd
      · exact unwindBlock_inner h hlt hkind he hfe hd
  · next hnone =>
    refine ensures_pure ⟨A, h.skip fun {c e} he hc => ?_, .refl .., .refl _ _ _⟩
    rw [BlockId.index_inj.1 hc] at he
    rw [he] at hnone
    simpa using hnone

end Blocks

end StackLift
