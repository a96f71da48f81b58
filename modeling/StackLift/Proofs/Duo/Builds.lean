import StackLift.Proofs.Duo.Flows
import StackLift.Proofs.Duo.Methods

/-!
# Pruning dead locals

A build that drops the locals that are dead on entry to a block succeeds whenever one that keeps them
does, and makes the same control flow. `Graph.Prunes ρ g h` says what that means: up to the renaming
`ρ`, the graph `h` has the control nodes of `g`, in the order in which they were made, with the same
kinds, inputs and edges; and it has nothing that `g` does not have.

The two builds stay together to the end of the root (`follows_parse`). Tidying keeps them together,
since it looks at control only; and the check passes by what is known of every build (`parse_finish`).
-/
namespace StackLift

/-! ## Renaming -/

/-- The kind with the node that it names renamed. -/
def NodeKind.rename (ρ : NodeId → NodeId) : NodeKind → NodeKind
  | .loopEnd n => .loopEnd (ρ n)
  | .loopExit n => .loopExit (ρ n)
  | .phi n => .phi (ρ n)
  | .proxy n => .proxy (ρ n)
  | k => k

def Edge.rename (ρ : NodeId → NodeId) (d : Edge) : Edge :=
  { d with source := ρ d.source, target := ρ d.target }

namespace Graph

/-- The control nodes, oldest first. -/
def controlNodes (g : Graph) : List NodeId := g.nodesWhere fun _ n => n.kind.isControl

/-- Up to the renaming `ρ`, the graph `h` is a part of `g`, with the same control flow. -/
structure Prunes (ρ : NodeId → NodeId) (g h : Graph) : Prop where
  nodes : h.controlNodes = g.controlNodes.map ρ
  order : ∀ n ∈ g.controlNodes, ∀ m ∈ g.controlNodes, n.index < m.index → (ρ n).index < (ρ m).index
  kind : ∀ n ∈ g.controlNodes, h.kind? (ρ n) = (g.kind? n).map (NodeKind.rename ρ)
  inputs : ∀ n ∈ g.controlNodes, h.inputs (ρ n) = (g.inputs n).map ρ
  outgoing : ∀ n ∈ g.controlNodes, h.outgoing (ρ n) = g.outgoing n
  incoming : ∀ n ∈ g.controlNodes, h.incoming (ρ n) = g.incoming n
  edges : ∀ e, h.edge? e = (g.edge? e).map (Edge.rename ρ)
  start : h.start = g.start.map ρ
  part : ∀ m y, h.node? m = some y → ∃ n x, ρ n = m ∧ g.node? n = some x ∧
    y.kind = x.kind.rename ρ ∧ y.inputs = x.inputs.map ρ

/-! ## Nodes in order -/

theorem pairwise_nodesWhere (g : Graph) (p : NodeId → Node → Bool) :
    (g.nodesWhere p).Pairwise fun a b => a.index < b.index := by
  have hidx : g.slots.toList.zipIdx.Pairwise fun a b => a.2 < b.2 := by
    refine List.pairwise_map.1 (?_ : (g.slots.toList.zipIdx.map Prod.snd).Pairwise (· < ·))
    rw [List.zipIdx_map_snd]
    exact List.pairwise_lt_range'
  have hlive : g.liveNodes.Pairwise fun a b => a.1.index < b.1.index := by
    rw [liveNodes, List.pairwise_filterMap]
    refine hidx.imp fun {a b} hab x hx y hy => ?_
    obtain ⟨_, -, rfl⟩ := Option.map_eq_some_iff.1 hx
    obtain ⟨_, -, rfl⟩ := Option.map_eq_some_iff.1 hy
    exact hab
  rw [nodesWhere, List.pairwise_map]
  exact hlive.filter _

end Graph

/-- Two ascending lists whose members correspond, in order, correspond place by place. -/
theorem forall₂_of_order {R : NodeId → NodeId → Prop} {l l' : List NodeId}
    (hl : l.Pairwise fun a b => a.index < b.index) (hl' : l'.Pairwise fun a b => a.index < b.index)
    (hleft : ∀ a ∈ l, ∃ b ∈ l', R a b) (hright : ∀ b ∈ l', ∃ a ∈ l, R a b)
    (hord : ∀ {a b a' b'}, R a b → R a' b' → (a.index < a'.index ↔ b.index < b'.index)) :
    List.Forall₂ R l l' := by
  induction l generalizing l' with
  | nil =>
    cases l' with
    | nil => exact .nil
    | cons b l' =>
      obtain ⟨a, ha, -⟩ := hright b (by simp)
      cases ha
  | cons a l ih =>
    obtain ⟨hlt, hl⟩ := List.pairwise_cons.1 hl
    obtain ⟨c, hc, hac⟩ := hleft a (by simp)
    cases l' with
    | nil => cases hc
    | cons b l' =>
      obtain ⟨hlt', hl'⟩ := List.pairwise_cons.1 hl'
      -- The partner of the first is the first: nothing that comes before it has a partner.
      have hab : R a b := by
        obtain ⟨x, hx, hxb⟩ := hright b (by simp)
        rcases List.mem_cons.1 hx with rfl | hx
        · exact hxb
        · have hcb := (hord hac hxb).1 (hlt x hx)
          rcases List.mem_cons.1 hc with rfl | hc
          · exact absurd hcb (Nat.lt_irrefl _)
          · exact absurd (hlt' c hc) (Nat.lt_asymm hcb)
      refine .cons hab (ih hl hl' (fun x hx => ?_) fun y hy => ?_)
      · obtain ⟨y, hy, hxy⟩ := hleft x (by simp [hx])
        rcases List.mem_cons.1 hy with rfl | hy
        · exact absurd ((hord hab hxy).1 (hlt x hx)) (Nat.lt_irrefl _)
        · exact ⟨y, hy, hxy⟩
      · obtain ⟨x, hx, hxy⟩ := hright y (by simp [hy])
        rcases List.mem_cons.1 hx with rfl | hx
        · exact absurd ((hord hab hxy).2 (hlt' y hy)) (Nat.lt_irrefl _)
        · exact ⟨x, hx, hxy⟩

namespace Pairing

variable {P : Pairing} {g h g' : Graph} {n m : NodeId}
variable {c d : Nat} {l l' : List NodeId}

theorem Twins.nodesWhere (ht : P.Twins g h) {p q : NodeId → Node → Bool}
    (hp : ∀ {n x}, p n x = true → x.kind.isControl = true)
    (hq : ∀ {n x}, q n x = true → x.kind.isControl = true)
    (hpq : ∀ {n m x y}, P.control n m → P.SameNode x y → p n x = q m y) :
    List.Forall₂ P.control (g.nodesWhere p) (h.nodesWhere q) := by
  refine forall₂_of_order (Graph.pairwise_nodesWhere _ _) (Graph.pairwise_nodesWhere _ _) (fun n hn => ?_)
    (fun m hm => ?_) ht.sane.order
  · obtain ⟨x, hx, hpx⟩ := Graph.mem_nodesWhere.1 hn
    obtain ⟨m, hc⟩ := ht.nodes.control (Graph.kindIs_iff.2 ⟨_, Graph.kind?_of_node? hx, hp hpx⟩)
    obtain ⟨y, hy, hxy⟩ := optionRel_some_left (hx ▸ ht.nodes.node (ht.sane.twin hc))
    exact ⟨m, Graph.mem_nodesWhere.2 ⟨y, hy, hpq hc hxy ▸ hpx⟩, hc⟩
  · obtain ⟨y, hy, hqy⟩ := Graph.mem_nodesWhere.1 hm
    obtain ⟨n, hc⟩ := ht.control' (Graph.kindIs_iff.2 ⟨_, Graph.kind?_of_node? hy, hq hqy⟩)
    obtain ⟨x, hx, hxy⟩ := optionRel_some_right (hy ▸ ht.nodes.node (ht.sane.twin hc))
    exact ⟨n, Graph.mem_nodesWhere.2 ⟨x, hx, (hpq hc hxy).trans hqy⟩, hc⟩

/-! ## Tidying -/

section

variable (ht : P.Twins g h)
include ht

theorem Twins.start_ne (hc : P.control n m) : decide (g.start ≠ some n) = decide (h.start ≠ some m) := by
  have hs := ht.wires.start
  generalize g.start = a at hs
  generalize h.start = b at hs
  cases hs with
  | none => rfl
  | some hab => simp [ht.sane.control_iff hab hc]

theorem Twins.orphans : List.Forall₂ P.control g.orphans h.orphans := by
  refine ht.nodesWhere (fun {n x} hx => ?_) (fun {n x} hx => ?_) fun {n m x y} hc hxy => ?_
  · cases hk : x.kind with
    | begin => rfl
    | loopHeader i => rfl
    | _ => simp [hk] at hx
  · cases hk : x.kind with
    | begin => rfl
    | loopHeader i => rfl
    | _ => simp [hk] at hx
  · rw [Graph.inDegree, Graph.inDegree, ht.wires.incoming hc, ht.start_ne hc]
    have hk := hxy.kind
    generalize x.kind = k at hk
    generalize y.kind = k' at hk
    cases hk <;> rfl

theorem Twins.removeAll (hl : List.Forall₂ P.control l l') :
    P.Twins (l.foldl Graph.removeNode g) (l'.foldl Graph.removeNode h) := by
  induction hl generalizing g h with
  | nil => exact ht
  | cons hc _ ih => exact ih (ht.removeNode (ht.sane.twin hc))

theorem Twins.fold (hc : P.control n m) (hok : g.fold n = .ok g') :
    ∃ h', h.fold m = .ok h' ∧ P.Twins g' h' := by
  have hpred := ht.predecessorEdges hc
  have hsucc := ht.successors hc
  unfold Graph.fold at hok ⊢
  generalize g.predecessorEdges n = l at hpred hok
  generalize h.predecessorEdges m = l' at hpred
  generalize g.successors n = s at hsucc hok
  generalize h.successors m = s' at hsucc
  cases hpred with
  | nil =>
    cases hok
    exact ⟨h, rfl, ht⟩
  | @cons a a' _ _ hd hrest =>
    obtain ⟨e, d⟩ := a
    obtain ⟨e', d'⟩ := a'
    obtain ⟨he, hd⟩ := hd
    dsimp only at he hd
    subst he
    cases hrest with
    | cons _ _ =>
      cases hok
      exact ⟨h, rfl, ht⟩
    | nil =>
      cases hsucc with
      | nil =>
        cases hok
        exact ⟨h, rfl, ht⟩
      | @cons t t' _ _ htt hrest =>
        cases hrest with
        | cons _ _ =>
          cases hok
          exact ⟨h, rfl, ht⟩
        | nil =>
          dsimp only at hok ⊢
          rw [← ht.kindIs (ht.sane.twin hd.source) NodeKind.Twin.isControlSplit]
          split at hok
          · next hs =>
            cases hok
            rw [if_pos hs]
            exact ⟨h, rfl, ht⟩
          · next hs =>
            rw [if_neg hs]
            cases hr : g.retarget e t with
            | error x =>
              rw [hr] at hok
              cases hok
            | ok g1 =>
              rw [hr] at hok
              cases hok
              obtain ⟨h1, hr', ht1⟩ := ht.retarget htt hr
              rw [hr']
              exact ⟨_, rfl, ht1.removeNode (ht1.sane.twin hc)⟩

theorem Twins.foldAll (hl : List.Forall₂ P.control l l') (hok : l.foldlM Graph.fold g = .ok g') :
    ∃ h', l'.foldlM Graph.fold h = .ok h' ∧ P.Twins g' h' := by
  induction hl generalizing g h with
  | nil =>
    cases hok
    exact ⟨h, rfl, ht⟩
  | @cons n m _ _ hc _ ih =>
    rw [List.foldlM_cons] at hok ⊢
    cases hf : g.fold n with
    | error x =>
      rw [hf] at hok
      cases hok
    | ok g1 =>
      rw [hf] at hok
      obtain ⟨h1, hf', ht1⟩ := ht.fold hc hf
      rw [hf']
      exact ih ht1 hok

theorem Twins.tidy (hok : g.tidy = .ok g') : ∃ h', h.tidy = .ok h' ∧ P.Twins g' h' := by
  have ht1 := ht.removeAll ht.orphans
  refine ht1.foldAll (ht1.nodesWhere (fun {n x} hx => ?_) (fun {n x} hx => ?_)
    fun {n m x y} hc hxy => ?_) hok
  · simp only [Bool.and_eq_true, beq_iff_eq] at hx
    rw [hx.1]
    rfl
  · simp only [Bool.and_eq_true, beq_iff_eq] at hx
    rw [hx.1]
    rfl
  · rw [ht1.start_ne hc, hxy.kind.eq_begin]

theorem Twins.annotate (l l' : List LoopFrequency) : P.Twins (g.annotate l) (h.annotate l') := by
  obtain ⟨fr, heq⟩ := g.annotate_eq l
  obtain ⟨fr', heq'⟩ := h.annotate_eq l'
  rw [heq, heq']
  exact ⟨ht.sane, ht.nodes.of_same (fun _ => rfl) fun _ => rfl, ht.wires.of_same
    ⟨fun _ => rfl, fun _ => rfl, fun _ => rfl, rfl, rfl⟩
    ⟨fun _ => rfl, fun _ => rfl, fun _ => rfl, rfl, rfl⟩,
    ht.counted, ht.counted'⟩

end

/-! ## Twins up to a renaming -/

/-- The twin of a node, where it has one. -/
noncomputable def rename (P : Pairing) (n : NodeId) : NodeId :=
  open Classical in if h : ∃ m, P.twin n m then h.choose else n

theorem Sane.rename_eq (hs : P.Sane c d) (hn : P.twin n m) : P.rename n = m := by
  have hex : ∃ m, P.twin n m := ⟨m, hn⟩
  rw [rename, dif_pos hex]
  exact hs.unique hex.choose_spec hn

theorem Sane.map_rename (hs : P.Sane c d) (h : List.Forall₂ P.twin l l') : l.map P.rename = l' := by
  induction h with
  | nil => rfl
  | cons hn _ ih => rw [List.map_cons, hs.rename_eq hn, ih]

theorem Sane.map_loops (hs : P.Sane c d) {l l' : List LoopFrequency}
    (h : List.Forall₂ (Flow.SameLoop P.control True) l l') :
    l' = l.map fun x => { x with header := P.rename x.header } := by
  induction h with
  | nil => rfl
  | @cons a b _ _ hab _ ih =>
    obtain ⟨n, f⟩ := a
    obtain ⟨m, f'⟩ := b
    obtain ⟨hc, hf⟩ := hab
    obtain rfl := hf trivial
    rw [List.map_cons, ← ih, hs.rename_eq (hs.twin hc)]

theorem Sane.rename_kind (hs : P.Sane c d) {k k' : NodeKind} (h : k.Twin P.twin k') :
    k.rename P.rename = k' := by
  cases h with
  | loopEnd h => rw [NodeKind.rename, hs.rename_eq h]
  | loopExit h => rw [NodeKind.rename, hs.rename_eq h]
  | phi h => rw [NodeKind.rename, hs.rename_eq h]
  | proxy h => rw [NodeKind.rename, hs.rename_eq h]
  | same h => cases k <;> first | rfl | cases h

theorem Twins.prunes (ht : P.Twins g h) : g.Prunes P.rename h := by
  have hs := ht.sane
  have hcontrol : ∀ n ∈ g.controlNodes, P.control n (P.rename n) := by
    intro n hn
    obtain ⟨x, hx, hc⟩ := Graph.mem_nodesWhere.1 hn
    obtain ⟨m, hm⟩ := ht.nodes.control (Graph.kindIs_iff.2 ⟨_, Graph.kind?_of_node? hx, hc⟩)
    rwa [hs.rename_eq (hs.twin hm)]
  have hnode : ∀ n ∈ g.controlNodes, Option.Rel P.SameNode (g.node? n) (h.node? (P.rename n)) :=
    fun n hn => ht.nodes.node (hs.twin (hcontrol n hn))
  have hall : List.Forall₂ P.control g.controlNodes h.controlNodes :=
    ht.nodesWhere id id fun _ hxy => hxy.kind.isControl
  refine ⟨(hs.map_rename (hall.imp fun _ _ h => hs.twin h)).symm,
    fun n hn m hm => (hs.order (hcontrol n hn) (hcontrol m hm)).1, fun n hn => ?_, fun n hn => ?_,
    fun n hn => (ht.wires.outgoing (hcontrol n hn)).symm,
    fun n hn => (ht.wires.incoming (hcontrol n hn)).symm,
    fun e => ?_, ?_, fun m y hy => ?_⟩
  · have hk := ht.kind (hs.twin (hcontrol n hn))
    generalize g.kind? n = a at hk
    generalize h.kind? (P.rename n) = b at hk
    cases hk with
    | none => rfl
    | some hk => rw [Option.map_some, hs.rename_kind hk]
  · have hxy := hnode n hn
    unfold Graph.inputs
    generalize g.node? n = a at hxy
    generalize h.node? (P.rename n) = b at hxy
    cases hxy with
    | none => rfl
    | some hxy => exact (hs.map_rename hxy.inputs).symm
  · have he := ht.wires.edge e
    generalize g.edge? e = a at he
    generalize h.edge? e = b at he
    cases he with
    | none => rfl
    | @some d d' hd =>
      obtain ⟨s, t, k, p⟩ := d
      obtain ⟨s', t', k', p'⟩ := d'
      obtain ⟨h1, h2, rfl, rfl⟩ := hd
      simp only [Option.map_some, Edge.rename, hs.rename_eq (hs.twin h1), hs.rename_eq (hs.twin h2)]
  · have hst := ht.wires.start
    generalize g.start = a at hst
    generalize h.start = b at hst
    cases hst with
    | none => rfl
    | some hc => rw [Option.map_some, hs.rename_eq (hs.twin hc)]
  · obtain ⟨n, hn⟩ := hs.total (Graph.lt_nodeCount hy)
    obtain ⟨x, hx, hxy⟩ := optionRel_some_right (hy ▸ ht.nodes.node hn)
    exact ⟨n, x, hs.rename_eq hn, hx, (hs.rename_kind hxy.kind).symm, (hs.map_rename hxy.inputs).symm⟩

end Pairing

/-! ## The beginning -/

section Beginning

variable {env : Env} {config : Config} {root : MethodId}
variable {sc : Scope} {f : Frame} {g : Graph}

/-- Nothing is known of two empty graphs. -/
def Pairing.none : Pairing where
  twin _ _ := False
  control _ _ := False
  ghost _ := False
  data _ := False
  apart _ _ := False
  reached _ := False
  cut _ _ := False
  count := 0

theorem Pairing.twins_none : Pairing.none.Twins {} {} := by
  have hempty : ∀ {n : NodeId} {k}, ({} : Graph).kind? n = some k → False := by
    rintro n k ⟨⟩
  refine ⟨⟨False.elim, False.elim, False.elim, fun h => absurd h (Nat.not_lt_zero _),
    False.elim, False.elim,
    False.elim, False.elim, False.elim, False.elim, False.elim, rfl⟩, ⟨False.elim, fun h => ?_,
    fun h => (hempty h).elim, False.elim, fun h => (hempty h).elim⟩,
    ⟨False.elim, False.elim, fun _ => ⟨rfl, rfl⟩,
    fun _ => ⟨rfl, rfl⟩, fun _ => .none, rfl, .none⟩, rfl, rfl⟩
  obtain ⟨k, hk, -⟩ := Graph.kindIs_iff.1 h
  exact (hempty hk).elim

theorem exists_twins_addParameters (kinds : List ValueKind) : ∃ P : Pairing,
    P.Twins (Graph.addParameters {} kinds).2 (Graph.addParameters {} kinds).2 ∧
      List.Forall₂ P.SameValue (Graph.addParameters {} kinds).1 (Graph.addParameters {} kinds).1 := by
  unfold Graph.addParameters
  generalize kinds.zipIdx = l
  suffices key : ∀ (args : List Value) (g : Graph) (P : Pairing), P.Twins g g →
      List.Forall₂ P.SameValue args args → ∀ r, r = l.foldl (fun s x =>
        (s.1 ++ [⟨(s.2.addNode (.parameter x.2) []).1, x.1⟩], (s.2.addNode (.parameter x.2) []).2))
          (args, g) →
      ∃ Q : Pairing, Q.Twins r.2 r.2 ∧ List.Forall₂ Q.SameValue r.1 r.1 from
    key [] {} .none Pairing.twins_none .nil _ rfl
  induction l with
  | nil =>
    rintro args g P ht ha r rfl
    exact ⟨P, ht, ha⟩
  | cons x l ih =>
    intro args g P ht ha r hr
    have hle := P.le_pair ⟨g.nodeCount⟩ ⟨g.nodeCount⟩ (NodeKind.parameter x.2).isControl
    refine ih _ _ _ (ht.addNode (.same rfl) .nil fun y hy => by cases hy) ?_ r hr
    exact List.rel_append (ha.imp fun _ _ h => h.mono hle) (.cons ⟨P.twin_pair _ _ _, rfl⟩ .nil)

/-- The scope of the same method in a build that drops dead locals, or keeps them. -/
def Scope.pruning (sc : Scope) (enable : Bool) : Scope :=
  { sc with
    config := sc.config.withLivenessPruning enable
    liveness := if enable then some (Liveness.compute sc.body sc.blocks) else none }

theorem Scope.ofMethod_pruning {m : MethodDecl} {body : Body} {chain : List MethodId}
    {callers : Option Snapshot} {handles : Bool} (enable : Bool)
    (h : Scope.ofMethod env config m body chain callers handles = .ok sc) :
    Scope.ofMethod env (config.withLivenessPruning enable) m body chain callers handles =
      .ok (sc.pruning enable) := by
  obtain ⟨blocks, hb, h⟩ := ok_of_bind h
  unfold Scope.ofMethod
  rw [hb]
  cases h
  rfl

theorem prepare_pruning (enable : Bool) (h : prepare env config root = .ok (sc, f, g)) :
    prepare env (config.withLivenessPruning enable) root = .ok (sc.pruning enable, f, g) := by
  obtain ⟨decl, body, hr, hf, hs, hg⟩ := prepare_ok h
  unfold prepare
  rw [hr]
  simp only [bind, Except.bind, hf, Scope.ofMethod_pruning enable hs]
  rw [← hg]
  rfl

/-- The root in the two builds. -/
def Duo.ofRoot (h : sc.Pruned (sc.pruning true)) : Duo none where
  full := sc
  pruned := sc.pruning true
  fits := h
  hush _ := False

theorem Scope.pruned_root
    (h : prepare env (config.withLivenessPruning false) root = .ok (sc, f, g)) :
    sc.Pruned (sc.pruning true) := by
  obtain ⟨decl, body, -, -, hs, -⟩ := prepare_ok h
  have hsame : sc.pruning false = sc := by
    have := Scope.ofMethod_pruning false hs
    rw [show (config.withLivenessPruning false).withLivenessPruning false =
      config.withLivenessPruning false from rfl, hs] at this
    exact (Except.ok.inj this).symm
  obtain ⟨hmap, -, hconf, -, rfl, -⟩ := Scope.ofMethod_ok hs
  have hoff : sc.config.livenessPruning = false := by
    rw [hconf]
    rfl
  have hkeeps : sc.liveness = none := by
    rw [← hsame]
    rfl
  exact ⟨rfl, rfl, hoff, rfl, rfl, rfl, rfl, rfl, hkeeps, rfl, hmap⟩

theorem Duo.joint_ofRoot {P : Pairing} {h : sc.Pruned (sc.pruning true)} (ht : P.Twins g g)
    (hc : sc.callers = none) : (Duo.ofRoot h).Joint P { graph := g, table := Table.blank sc.blocks.size }
      { graph := g, table := Table.blank sc.blocks.size } := by
  have hnone : ∀ {b e}, (Table.blank sc.blocks.size).slot? b = some e → False := by
    intro b e he
    rw [Table.slot?_blank] at he
    cases he
  refine ⟨ht, tables_blank _, ?_, False.elim, False.elim, fun he => (hnone he).elim,
    fun he => (hnone he).elim, fun he => (hnone he).elim, rfl, rfl⟩
  show Option.Rel P.SameSnapshot sc.callers sc.callers
  rw [hc]
  exact .none

end Beginning

/-! ## The guarantee -/

section Guarantee

variable {env : Env} {config : Config} {root : MethodId} {built : Built}

/-- **Pruning.** Where no test of a handler heads a loop of a body that is parsed, dropping dead locals
never makes a build fail, and changes neither the report nor the control flow. -/
theorem build_prunes (hcalls : env.plugins.calls = [])
    (htame : ∀ body ∈ parsedBodies env (config.withLivenessPruning false) root, body.isTame = true)
    (h : build env (config.withLivenessPruning false) root = .ok built) :
    ∃ built' ρ, build env (config.withLivenessPruning true) root = .ok built' ∧
      built'.report = built.report ∧ built.graph.Prunes ρ built'.graph ∧
      built'.loops = built.loops.map fun l => { l with header := ρ l.header } := by
  obtain ⟨sc, f, g, x, w, hp, hw, hfinish⟩ := build_ok h
  have hp' : prepare env (config.withLivenessPruning true) root = .ok (sc.pruning true, f, g) :=
    (prepare_pruning true hp :)
  have hrun := BuildM.parseTame_of_parse hp htame
  rw [hw] at hrun
  -- The builds stay together through the root.
  obtain ⟨decl, body, -, hf, hs, rfl⟩ := prepare_ok hp
  obtain ⟨P, htwins, hargs⟩ := exists_twins_addParameters decl.argKinds
  obtain ⟨-, henv, -, -, -, -, hcallers⟩ := Scope.ofMethod_ok hs
  obtain ⟨y, v, Q, hv, -, hj, -⟩ := Duo.follows_parseTame hcalls config.maxInliningDepth
    (D := Duo.ofRoot (Scope.pruned_root hp)) henv (Duo.joint_ofRoot htwins hcallers)
    (Pairing.matches_of_args hargs hf hf) .none x w hrun
  replace hv : BuildM.parseTame (config.withLivenessPruning true).maxInliningDepth f none
    (sc.pruning true)
    { graph := (Graph.addParameters {} decl.argKinds).2,
      table := Table.blank (sc.pruning true).blocks.size } = .ok y v := hv
  have hsecond := BuildM.parse_of_parseTame (prepare_known hp').2.2 hv
  -- Tidying keeps them together, and what is tidy passes the check.
  obtain ⟨g', -, htidy', hcheck', -⟩ := parse_finish (.any hcalls) hp' hv
  obtain ⟨g1, htidy, hfinish⟩ := ok_of_bind hfinish
  obtain ⟨g2, htidy2, ht⟩ := hj.twins.tidy htidy
  rw [htidy'] at htidy2
  cases htidy2
  obtain ⟨-, -, hfinish⟩ := ok_of_bind hfinish
  cases hfinish
  refine ⟨⟨root, g'.annotate g'.loopFrequencies, g'.loopFrequencies, v.report⟩, _, ?_, hj.report.symm,
    (ht.annotate _ _).prunes, ht.sane.map_loops ht.flows.loopFrequencies⟩
  unfold build buildTraced liftRoot
  simp only [hp', hsecond, finish, htidy', hcheck', bind, Except.bind, pure, Except.pure]

/-- A method that goes round until its argument is zero. It keeps a copy of it that nobody reads. -/
def idleCopyProgram : Env where
  hierarchy.methods :=
    [{ id := ⟨0⟩, name := "wait", holder := ⟨0⟩, flags.static := true, params := [.int],
       body := some {
         code := #[.load 0, .store 1, .load 0, .ifZero .ne ⟨2⟩, .ret], maxLocals := 2, handlers := [] } }]

/-- Without the copy, the loop is lifted as it is with it. -/
theorem build_prunes_idleCopy : ∃ built built' ρ,
    build idleCopyProgram (({} : Config).withLivenessPruning false) ⟨0⟩ = .ok built ∧
    build idleCopyProgram (({} : Config).withLivenessPruning true) ⟨0⟩ = .ok built' ∧
    built'.report = built.report ∧ built.graph.Prunes ρ built'.graph ∧
    built'.graph.controlNodes.length = 8 ∧ built'.loops.length = 1 := by
  have hrun : (build idleCopyProgram (({} : Config).withLivenessPruning false) ⟨0⟩).toOption.any (fun b =>
      b.graph.controlNodes.length = 8 ∧ b.loops.length = 1) = true := by decide +kernel
  cases hbuild : build idleCopyProgram (({} : Config).withLivenessPruning false) ⟨0⟩ with
  | error e =>
    rw [hbuild] at hrun
    cases hrun
  | ok built =>
    rw [hbuild] at hrun
    obtain ⟨hnodes, hloops⟩ := of_decide_eq_true hrun
    obtain ⟨built', ρ, hbuild', hreport, hprunes, hloops'⟩ :=
      build_prunes rfl (List.all_eq_true.1 (by decide +kernel)) hbuild
    refine ⟨built, built', ρ, rfl, hbuild', hreport, hprunes, ?_, ?_⟩
    · rw [hprunes.nodes, List.length_map, hnodes]
    · rw [hloops', List.length_map, hloops]

end Guarantee

end StackLift
