import StackLift.Proofs.Phis

/-!
# Frames that meet

A frame arrives at a join and is joined with the one that is there, slot by slot. `Meets` says what
every slot holds afterwards: a phi of the join that got one more input, a new phi, or the one value
that all edges agree on.
-/
namespace StackLift

open BuildM

/-- `v` is what a slot holds after it held `old` on the first `ends` edges and a new edge brought
`new`. The graph `g0` is the one before the slots were joined. -/
structure Joined (g0 g : Graph) (m : NodeId) (ends : Nat) (old new v : Value) : Prop where
  kind : v.kind = old.kind
  node : (g0.kind? old.node = some (.phi m) ∧ v.node = old.node ∧
      g.inputs v.node = g0.inputs old.node ++ [new.node]) ∨
    (g0.kind? old.node ≠ some (.phi m) ∧ v.node = old.node ∧ old.node = new.node) ∨
    (g0.kind? old.node ≠ some (.phi m) ∧ g.kind? v.node = some (.phi m) ∧
      g.inputs v.node = List.replicate ends old.node ++ [new.node] ∧ old.node ≠ new.node)

theorem Joined.mono {g0 g g' : Graph} {m : NodeId} {ends : Nat} {old new v : Value}
    (h : Joined g0 g m ends old new v) (hv : g'.node? v.node = g.node? v.node) :
    Joined g0 g' m ends old new v := by
  refine ⟨h.kind, ?_⟩
  rw [Graph.inputs_congr hv, Graph.kind?_congr hv]
  exact h.node

/-- Whatever a join does to a slot keeps `I`. The slots hold phis of the join or what satisfies
`Old`, and the new edge brings what satisfies `New`. -/
structure Joining (g0 : Graph) (m : NodeId) (ends : Nat) (Old New : NodeSet)
    (I : Graph → List NodeId → List NodeId → Prop) : Prop where
  slots : ∀ {g done rest}, I g done rest → Slots g0 g m done rest
  isolated : ∀ {g done rest x}, I g done (x :: rest) → g0.kind? x = some (.phi m) →
    g.outgoing x = [] ∧ g.incoming x = []
  keep : ∀ {g done rest x}, I g done (x :: rest) → g0.kind? x ≠ some (.phi m) → Old x →
    I g (done ++ [x]) rest
  skip : ∀ {g done rest x}, I g done (x :: rest) → g0.kind? x ≠ some (.phi m) → I g done rest
  fill : ∀ {g done rest x v}, I g done (x :: rest) → g0.kind? x = some (.phi m) → New v →
    I (g.modifyNode x fun y => { y with inputs := y.inputs ++ [v] }) (done ++ [x]) rest
  grow : ∀ {g done rest x v}, I g done (x :: rest) → g0.kind? x ≠ some (.phi m) → Old x → New v →
    I (g.addNode (.phi m) (List.replicate ends x ++ [v])).2 (done ++ [⟨g.nodeCount⟩]) rest
  drop : ∀ {g done rest x}, I g done (x :: rest) → g0.kind? x = some (.phi m) →
    I (g.removeNode x) done rest

theorem Merging.joining {O : NodeSet} {d : Debt} {g0 : Graph} {m : NodeId} {ends : Nat}
    (hO : O m) (hm : g0.kindIs m NodeKind.isMerge = true) (hdue : d.due = none)
    (hends : ends + 1 = g0.inDegree m) :
    Joining g0 m ends (g0.Usable O) (g0.Usable O) (Merging O d true g0 · m) where
  slots h := h.toSlots
  isolated h hx := h.sound.coherent.isolated
    (Graph.kindIs_of_kind? (h.kind?_head.trans hx))
  keep h hx hu := h.keep hx ((h.usable_iff hO).2 hu)
  skip h hx := h.skip hx
  fill h hx hv := h.fill hx ((h.usable_iff hO).2 hv)
  grow {g done rest x v} h hx hu hv := by
    refine h.grow hx (h.kindIs_iff ?_ hm) ?_ (by simp) ?_
    · intro k hk
      cases k <;> first | rfl | cases hk
    · intro i hi
      rw [h.usable_iff hO]
      rcases List.mem_append.1 hi with hi | hi
      · rw [(List.mem_replicate.1 hi).2]
        exact hu
      · rw [List.mem_singleton.1 hi]
        exact hv
    · simp [Debt.expected, hdue, hends]
  drop h hx := h.drop hx hO

section Slots

variable {E : Error → Prop} {sc : Scope} {w : Work} {g0 : Graph} {m : NodeId} {ends : Nat}
  {Old New : NodeSet} {I : Graph → List NodeId → List NodeId → Prop}
  {done rest : List NodeId}

theorem mergeValue_spec {old new : Value} (hI : Joining g0 m ends Old New I)
    (h : I w.graph done (old.node :: rest))
    (hold : g0.kind? old.node = some (.phi m) ∨ Old old.node) (hnew : New new.node) :
    Ensures E (mergeValue m ends old new) sc w fun v w' =>
      w'.table = w.table ∧ I w'.graph (done ++ [v.node]) rest ∧
        Joined g0 w'.graph m ends old new v ∧ ∀ n ∈ done, w'.graph.node? n = w.graph.node? n := by
  have hs := hI.slots h
  unfold mergeValue
  refine ensures_get_bind ?_
  have hk := hs.kind?_head
  by_cases hphi : g0.kind? old.node = some (.phi m)
  · rw [if_pos (isPhiOf_iff.2 (hk.trans hphi))]
    refine (ensures_addPhiInput (hk.trans hphi) (Q := fun _ w' => w' = _) rfl).bind
      fun _ w' hw' => ensures_pure ?_
    subst hw'
    refine ⟨rfl, hI.fill h hphi hnew, ⟨rfl, .inl ⟨hphi, rfl, ?_⟩⟩, ?_⟩
    · have hnode := (hs.waiting (n := old.node) (by simp)).1
      obtain ⟨x, hx, -⟩ := Graph.kind?_eq_some.1 hphi
      simp [Graph.inputs, Graph.node?_modifyNode, hnode, hx]
    · intro n hn
      rw [Graph.node?_modifyNode, if_neg]
      rintro rfl
      exact (hs.phi_head hphi).2.1 hn
  · rw [if_neg fun hc => hphi (hk ▸ isPhiOf_iff.1 hc)]
    have hu := hold.resolve_left hphi
    split
    · next heq =>
      exact ensures_pure ⟨rfl, hI.keep h hphi hu, ⟨rfl, .inr (.inl ⟨hphi, rfl, heq⟩)⟩,
        fun _ _ => rfl⟩
    · next hne =>
      refine (ensures_addNode (Q := fun n w' => n = ⟨w.graph.nodeCount⟩ ∧ w' = _) ⟨rfl, rfl⟩).bind
        fun n w' hw' => ensures_pure ?_
      obtain ⟨rfl, rfl⟩ := hw'
      refine ⟨rfl, hI.grow h hphi hu hnew, ⟨rfl, .inr (.inr ⟨hphi, ?_, ?_, hne⟩)⟩, ?_⟩
      · rw [Graph.kind?_addNode, if_pos rfl]
      · simp [Graph.inputs, Graph.node?_addNode]
      · intro n hn
        rw [Graph.node?_addNode, if_neg]
        rintro rfl
        exact Nat.lt_irrefl _ (hs.done_lt hn)

/-- A local of a join: it stays if both sides have it with one kind. -/
structure JoinedLocal (g0 g : Graph) (m : NodeId) (ends : Nat) (p : Option Value × Option Value)
    (r : Option Value) : Prop where
  held : ∀ v, r = some v → ∃ old new, p = (some old, some new) ∧ new.kind = old.kind ∧
    Joined g0 g m ends old new v
  lost : r = none → ∀ old new, p = (some old, some new) → new.kind ≠ old.kind

theorem mergeLocal_spec {old new : Option Value} (hI : Joining g0 m ends Old New I)
    (h : I w.graph done ((old.toList.map (·.node)) ++ rest))
    (hold : ∀ v, old = some v → g0.kind? v.node = some (.phi m) ∨ Old v.node)
    (hnew : ∀ v, new = some v → New v.node) : Ensures E (mergeLocal m ends old new) sc w fun r w' =>
      w'.table = w.table ∧ I w'.graph (done ++ r.toList.map (·.node)) rest ∧
        JoinedLocal g0 w'.graph m ends (old, new) r ∧
        ∀ n ∈ done, w'.graph.node? n = w.graph.node? n := by
  cases old with
  | none =>
    exact ensures_pure ⟨rfl, by simpa using h, ⟨by simp, by simp⟩, fun _ _ => rfl⟩
  | some old =>
    simp only [Option.toList_some, List.map_cons, List.map_nil, List.singleton_append] at h
    -- The local goes away, and with it its phi, if it has one.
    have hlost : (∀ x, new = some x → x.kind ≠ old.kind) → Ensures E (dropLocal m old) sc w
      fun r w' => w'.table = w.table ∧
        I w'.graph (done ++ r.toList.map (·.node)) rest ∧
        JoinedLocal g0 w'.graph m ends (some old, new) r ∧
        ∀ n ∈ done, w'.graph.node? n = w.graph.node? n := by
      intro hkinds
      have hnone : ∀ g, JoinedLocal g0 g m ends (some old, new) none := by
        refine fun g => ⟨by simp, fun _ old' new' hp => ?_⟩
        cases hp
        exact hkinds _ rfl
      refine ensures_get_bind ?_
      have hk := (hI.slots h).kind?_head
      by_cases hphi : g0.kind? old.node = some (.phi m)
      · rw [if_pos (isPhiOf_iff.2 (hk.trans hphi))]
        refine (ensures_changeGraph (Q := fun _ w' => w' = _) rfl rfl).bind
          fun _ w' hw' => ensures_pure ?_
        subst hw'
        refine ⟨rfl, by simpa using hI.drop h hphi, hnone _, ?_⟩
        intro n hn
        obtain ⟨ho, hi⟩ := hI.isolated h hphi
        rw [(Graph.removeNode_clears ho hi).node?, if_neg]
        rintro rfl
        exact ((hI.slots h).phi_head hphi).2.1 hn
      · rw [if_neg fun hc => hphi (hk ▸ isPhiOf_iff.1 hc)]
        exact ensures_pure ⟨rfl, by simpa using hI.skip h hphi, hnone _, fun _ _ => rfl⟩
    unfold mergeLocal
    cases new with
    | none => exact hlost (by simp)
    | some new =>
      simp only
      split
      · next hkind =>
        refine (mergeValue_spec hI h (hold old rfl) (hnew new rfl)).bind
          fun v w' h' => ensures_pure ?_
        obtain ⟨h1, h2, h3, h4⟩ := h'
        refine ⟨h1, by simpa using h2, ⟨?_, by simp⟩, h4⟩
        intro v' hv'
        cases hv'
        exact ⟨old, new, rfl, hkind, h3⟩
      · next hkind =>
        refine hlost fun x hx => ?_
        cases hx
        exact hkind

theorem ensures_mapM_joining {α β : Type} {xs : List α} {f : α → BuildM β} (ins : α → List NodeId)
    (outs : β → List NodeId) (R : Graph → α → β → Prop)
    (hmono : ∀ {g g' x y}, R g x y → (∀ n ∈ outs y, g'.node? n = g.node? n) → R g' x y)
    (hf : ∀ x ∈ xs, ∀ {done rest w}, I w.graph done (ins x ++ rest) →
      Ensures E (f x) sc w fun y w' => w'.table = w.table ∧
        I w'.graph (done ++ outs y) rest ∧ R w'.graph x y ∧
        ∀ n ∈ done, w'.graph.node? n = w.graph.node? n)
    (h : I w.graph done (xs.flatMap ins ++ rest)) :
    Ensures E (xs.mapM f) sc w fun ys w' => w'.table = w.table ∧
      I w'.graph (done ++ ys.flatMap outs) rest ∧
      (∀ g', (∀ n ∈ ys.flatMap outs, g'.node? n = w'.graph.node? n) → List.Forall₂ (R g') xs ys) ∧
      ∀ n ∈ done, w'.graph.node? n = w.graph.node? n := by
  induction xs generalizing done w with
  | nil => exact ensures_pure ⟨rfl, by simpa using h, fun _ _ => .nil, fun _ _ => rfl⟩
  | cons x xs ih =>
    rw [List.mapM_cons]
    rw [List.flatMap_cons, List.append_assoc] at h
    refine (hf x (by simp) h).bind fun y w1 h1 => ?_
    obtain ⟨ht1, hm1, hR1, hs1⟩ := h1
    refine (ih (fun x hx => hf x (by simp [hx])) hm1).bind fun ys w2 h2 => ensures_pure ?_
    obtain ⟨ht2, hm2, hR2, hs2⟩ := h2
    refine ⟨ht2.trans ht1, by simpa using hm2, fun g' hg' => ?_, fun n hn => ?_⟩
    · rw [List.flatMap_cons] at hg'
      refine .cons (hmono hR1 fun n hn => ?_) (hR2 g' fun n hn => ?_)
      · rw [hg' n (List.mem_append_left _ hn), hs2 n (List.mem_append_right _ hn)]
      · exact hg' n (List.mem_append_right _ hn)
    · rw [hs2 n (List.mem_append_left _ hn), hs1 n hn]

theorem mergeValues_spec {old new : List Value} (hI : Joining g0 m ends Old New I)
    (h : I w.graph done (old.map (·.node) ++ rest)) (hlen : old.length = new.length)
    (hold : ∀ v ∈ old, g0.kind? v.node = some (.phi m) ∨ Old v.node)
    (hnew : ∀ v ∈ new, New v.node) :
    Ensures E ((old.zip new).mapM fun (a, b) => mergeValue m ends a b) sc w fun vs w' =>
      w'.table = w.table ∧ I w'.graph (done ++ vs.map (·.node)) rest ∧
        (∀ g', (∀ n ∈ vs.map (·.node), g'.node? n = w'.graph.node? n) →
          List.Forall₂ (fun p v => Joined g0 g' m ends p.1 p.2 v) (old.zip new) vs) ∧
        ∀ n ∈ done, w'.graph.node? n = w.graph.node? n := by
  have hflat : old.map (·.node) = (old.zip new).flatMap (fun x => [x.1.node]) := by
    rw [← List.map_eq_flatMap]
    conv_lhs => rw [← List.map_fst_zip (Nat.le_of_eq hlen), List.map_map]
    rfl
  rw [hflat] at h
  refine (ensures_mapM_joining (fun x => [x.1.node]) (fun y : Value => [y.node])
    (fun g (p : Value × Value) v => Joined g0 g m ends p.1 p.2 v) ?_ ?_ h).mono
    fun vs w' h' => ?_
  · intro g g' x y hj hn
    exact hj.mono (hn _ (by simp))
  · rintro ⟨a, b⟩ hx done rest w hmerge
    obtain ⟨h1, h2⟩ := List.of_mem_zip hx
    exact mergeValue_spec hI hmerge (hold _ h1) (hnew _ h2)
  · rwa [← List.map_eq_flatMap] at h'

theorem map_fst_pairLocals (f g : Frame) : (f.pairLocals g).map Prod.fst = f.locals := by
  unfold Frame.pairLocals
  refine List.map_fst_zip ?_
  simp only [List.length_append, List.length_replicate]
  omega

theorem Frame.getElem?_pairLocals (f g : Frame) (i : Nat) :
    (f.pairLocals g)[i]? = f.locals[i]?.map fun a => (a, g.local? i) := by
  unfold Frame.pairLocals Frame.local?
  rw [List.zip_eq_zipWith, List.getElem?_zipWith]
  cases ha : f.locals[i]? with
  | none => rfl
  | some a =>
    have hi : i < f.locals.length := (List.getElem?_eq_some_iff.1 ha).1
    by_cases hg : i < g.locals.length
    · rw [List.getElem?_append_left hg, List.getElem?_eq_getElem hg]
      rfl
    · rw [List.getElem?_append_right (Nat.not_lt.1 hg), List.getElem?_replicate, if_pos (by omega),
        List.getElem?_eq_none (Nat.not_lt.1 hg)]
      rfl

theorem mem_values_of_pairLocals {f g : Frame} {x : Option Value × Option Value} {v : Value}
    (hx : x ∈ f.pairLocals g) : (x.1 = some v → v ∈ f.values) ∧ (x.2 = some v → v ∈ g.values) := by
  obtain ⟨h1, h2⟩ := List.of_mem_zip (show (x.1, x.2) ∈ f.pairLocals g from hx)
  constructor
  · intro h
    exact Frame.mem_values.2 (.inl (h ▸ h1))
  · intro h
    rw [h, List.mem_append] at h2
    exact Frame.mem_values.2 (.inl (h2.resolve_right fun hr => (nomatch (List.mem_replicate.1 hr).2)))

/-- `f` is the frame of a join, `current`, after a new edge brought `incoming`. -/
structure Meets (g0 g : Graph) (m : NodeId) (ends : Nat) (current incoming f : Frame) : Prop where
  locals : List.Forall₂ (JoinedLocal g0 g m ends) (current.pairLocals incoming) f.locals
  stack : List.Forall₂ (fun p v => Joined g0 g m ends p.1 p.2 v)
    (current.stack.reverse.zip incoming.stack.reverse) f.stack.reverse
  monitors : List.Forall₂ (fun p v => Joined g0 g m ends p.1 p.2 v)
    (current.monitors.reverse.zip incoming.monitors.reverse) f.monitors.reverse
  depth : current.stack.length = incoming.stack.length
  monitorDepth : current.monitors.length = incoming.monitors.length

theorem mergeFrames_spec {current incoming : Frame} {p : Position}
    (hE : ∀ e, current.checkCompatible p incoming = .error e → E e)
    (hI : Joining w.graph m (w.graph.inDegree m - 1) Old New I)
    (h : I w.graph [] (current.values.map (·.node)))
    (hcur : ∀ v ∈ current.values, w.graph.kind? v.node = some (.phi m) ∨ Old v.node)
    (hinc : ∀ v ∈ incoming.values, New v.node) :
    Ensures E (mergeFrames m current incoming p) sc w fun f w' =>
      w'.table = w.table ∧ I w'.graph (f.values.map (·.node)) [] ∧
        Meets w.graph w'.graph m (w.graph.inDegree m - 1) current incoming f := by
  unfold mergeFrames
  refine .chain (ensures_liftExcept (fun _ hx => ?_) hE)
  obtain ⟨hdepth, hmon, -⟩ := Frame.checkCompatible_ok hx
  refine ensures_get_bind ?_
  have hvalues : current.values.map (·.node) =
      (current.pairLocals incoming).flatMap (fun x => x.1.toList.map (·.node)) ++
        (current.stack.reverse.map (·.node) ++ (current.monitors.reverse.map (·.node) ++ [])) := by
    simp only [Frame.values, Frame.pinned, List.map_append, List.append_nil]
    conv_lhs => rw [← map_fst_pairLocals current incoming]
    simp [List.filterMap_eq_flatMap_toList, List.flatMap_map, List.map_flatMap]
  rw [hvalues] at h
  refine (ensures_mapM_joining (fun x => x.1.toList.map (·.node)) (fun y => y.toList.map (·.node))
    (fun g => JoinedLocal w.graph g m (w.graph.inDegree m - 1)) ?_ ?_ h).bind fun locals w1 h1 => ?_
  · refine fun hR hn => ⟨fun v hv => ?_, hR.lost⟩
    obtain ⟨old, new, hp, hk, hj⟩ := hR.held v hv
    exact ⟨old, new, hp, hk, hj.mono (hn _ (by simp [hv]))⟩
  · rintro ⟨old, new⟩ hx done rest w hmerge
    exact mergeLocal_spec hI hmerge
      (fun v hv => hcur v ((mem_values_of_pairLocals hx).1 hv))
      fun v hv => hinc v ((mem_values_of_pairLocals hx).2 hv)
  · obtain ⟨ht1, hm1, hR1, -⟩ := h1
    refine (mergeValues_spec hI hm1 (by simpa using hdepth)
      (fun v hv => hcur v (Frame.mem_values_stack hv))
      fun v hv => hinc v (Frame.mem_values_stack hv)).bind
      fun stack w2 h2 => ?_
    obtain ⟨ht2, hm2, hR2, hs2⟩ := h2
    refine (mergeValues_spec hI hm2 (by simpa using hmon)
      (fun v hv => hcur v (Frame.mem_values_monitors hv))
      fun v hv => hinc v (Frame.mem_values_monitors hv)).bind
      fun monitors w3 h3 => ensures_pure ?_
    obtain ⟨ht3, hm3, hR3, hs3⟩ := h3
    refine ⟨ht3.trans (ht2.trans ht1), ?_, ⟨?_, ?_, ?_, hdepth, hmon⟩⟩
    · simpa [Frame.values, Frame.pinned, List.filterMap_eq_flatMap_toList, List.map_flatMap]
        using hm3
    · refine hR1 _ fun n hn => ?_
      rw [hs3 n (List.mem_append_left _ (by simpa using hn)), hs2 n (by simpa using hn)]
    · rw [List.reverse_reverse]
      exact hR2 _ fun n hn => hs3 n (List.mem_append_right _ hn)
    · rw [List.reverse_reverse]
      exact hR3 _ fun _ _ => rfl

end Slots

end StackLift
