import Mathlib.Data.List.Forall2
import StackLift.Build.Frequency

/-!
# One flow beside another

Probability flows over control edges only, and waits at merges in the order of their numbers. So it takes
the same way through two graphs whose nodes correspond (`Match.run`), and their loops are finished in the
same order (`Match.loopFrequencies`). If the numbers on the edges agree, what arrives agrees too.
-/
namespace StackLift

namespace Flow

variable (C : NodeId → NodeId → Prop) (E : Prop)

/-- Kinds of nodes at which the flow does the same. -/
structure Acts (k k' : NodeKind) : Prop where
  isMerge : k.isMerge = k'.isMerge
  loopEnd : (∃ b, k = .loopEnd b) ↔ ∃ b, k' = .loopEnd b
  leaves : ∀ {o o' : Option NodeId}, Option.Rel C o o' →
    (o.any fun header => k == .loopExit header) = o'.any fun header => k' == .loopExit header

/-- Graphs whose nodes correspond under `C`, with the same numbers on their edges if `E` holds. -/
structure Match (g h : Graph) : Prop where
  start : Option.Rel C g.start h.start
  size : g.edges.size = h.edges.size
  same : ∀ {n m n' m'}, C n m → C n' m' → (n = n' ↔ m = m')
  order : ∀ {n m n' m'}, C n m → C n' m' → (n.index < n'.index ↔ m.index < m'.index)
  kind : ∀ {n m}, C n m → Option.Rel (Acts C) (g.kind? n) (h.kind? m)
  isHeader : ∀ {n m}, C n m → isHeader g n = isHeader h m
  degree : ∀ {n m}, C n m → forwardDegree g n = forwardDegree h m
  edges : ∀ {n m}, C n m → List.Forall₂
    (fun a b => C a.2.target b.2.target ∧ (E → a.2.probability = b.2.probability))
    (g.successorEdges n) (h.successorEdges m)

/-! ## States of the flow -/

structure SameArrival (a b : Arrival) : Prop where
  node : C a.node b.node
  probability : E → a.probability = b.probability

structure SameWaiting (a b : Waiting) : Prop where
  node : C a.node b.node
  probability : E → a.probability = b.probability
  count : a.count = b.count

structure SameLoop (a b : LoopFrequency) : Prop where
  header : C a.header b.header
  frequency : E → a.frequency = b.frequency

structure SameFlow (s t : State) : Prop where
  work : List.Forall₂ (SameArrival C E) s.work t.work
  waiting : List.Forall₂ (SameWaiting C E) s.waiting t.waiting
  exits : List.Forall₂ (SameArrival C E) s.exits t.exits
  loops : List.Forall₂ (SameLoop C E) s.loops t.loops

inductive SameResponse : Response → Response → Prop where
  | ignore : SameResponse .ignore .ignore
  | leave : SameResponse .leave .leave
  | wait {x y : List Waiting} (h : List.Forall₂ (SameWaiting C E) x y) : SameResponse (.wait x) (.wait y)
  | enter {p q : Float} {x y : List Waiting} (hp : E → p = q) (h : List.Forall₂ (SameWaiting C E) x y) :
      SameResponse (.enter p x) (.enter q y)

/-! ## Steps of the flow -/

variable {C E} {g h : Graph} {n m : NodeId} {o o' : Option NodeId} {s t : State} {a b : Arrival}
variable {v w : Waiting} {x y : List Waiting} {l l' : List Arrival} {p q : Float}

theorem respond_of_kind {k : NodeKind} (hk : g.kind? a.node = some k) (hend : ¬∃ b, k = .loopEnd b) :
    respond g o s a = if (o.any fun header => k == .loopExit header) then .leave
      else if k.isMerge then
        if forwardDegree g a.node ≤ (arrive a.node a.probability s.waiting).1.count then
          .enter (arrive a.node a.probability s.waiting).1.probability
            (arrive a.node a.probability s.waiting).2
        else .wait (insertWaiting (arrive a.node a.probability s.waiting).1
          (arrive a.node a.probability s.waiting).2)
      else .enter a.probability s.waiting := by
  unfold respond
  rw [hk]
  cases k with
  | loopEnd b => exact absurd ⟨b, rfl⟩ hend
  | _ => rfl

theorem SameFlow.push (hst : SameFlow C E s t) (hl : List.Forall₂ (SameArrival C E) l l') :
    SameFlow C E (push s l) (push t l') :=
  ⟨List.rel_append (List.rel_reverse hl) hst.work, hst.waiting, hst.exits, hst.loops⟩

namespace Match

variable (hm : Match C E g h)
include hm

theorem outflow (hc : C n m) {p q : Float → Float} (hp : E → p = q) :
    List.Forall₂ (SameArrival C E) (outflow g n p) (outflow h m q) := by
  unfold Flow.outflow
  rw [List.forall₂_map_left_iff, List.forall₂_map_right_iff]
  refine (hm.edges hc).imp fun _ _ h => ⟨h.1, fun he => ?_⟩
  rw [hp he]
  exact congrArg q (h.2 he)

theorem arrive (hc : C n m) (hp : E → p = q) (hxy : List.Forall₂ (SameWaiting C E) x y) :
    SameWaiting C E (arrive n p x).1 (arrive m q y).1 ∧
      List.Forall₂ (SameWaiting C E) (arrive n p x).2 (arrive m q y).2 := by
  induction hxy with
  | nil => exact ⟨⟨hc, fun he => congrArg (0.0 + ·) (hp he), rfl⟩, .nil⟩
  | @cons v w x y hvw hxy ih =>
    unfold Flow.arrive
    by_cases hn : v.node = n
    · rw [if_pos hn, if_pos ((hm.same hvw.node hc).1 hn)]
      exact ⟨⟨hc, fun he => by rw [hvw.probability he, hp he], by rw [hvw.count]⟩, hxy⟩
    · rw [if_neg hn, if_neg fun h' => hn ((hm.same hvw.node hc).2 h')]
      exact ⟨ih.1, .cons hvw ih.2⟩

theorem insertWaiting (hvw : SameWaiting C E v w) (hxy : List.Forall₂ (SameWaiting C E) x y) :
    List.Forall₂ (SameWaiting C E) (insertWaiting v x) (insertWaiting w y) := by
  induction hxy with
  | nil => exact .cons hvw .nil
  | @cons v' w' x y hvw' hxy ih =>
    unfold Flow.insertWaiting
    by_cases hlt : v.node.index < v'.node.index
    · rw [if_pos hlt, if_pos ((hm.order hvw.node hvw'.node).1 hlt)]
      exact .cons hvw (.cons hvw' hxy)
    · rw [if_neg hlt, if_neg fun h' => hlt ((hm.order hvw.node hvw'.node).2 h')]
      exact .cons hvw' ih

theorem respond (ho : Option.Rel C o o') (hst : SameFlow C E s t) (hab : SameArrival C E a b) :
    SameResponse C E (respond g o s a) (respond h o' t b) := by
  have hk := hm.kind hab.node
  obtain ⟨harrived, hrest⟩ := hm.arrive hab.node hab.probability hst.waiting
  cases hx : g.kind? a.node with
  | none =>
    cases hy : h.kind? b.node with
    | none => simp [Flow.respond, hx, hy, SameResponse.ignore]
    | some k' => simp [hx, hy] at hk
  | some k =>
    cases hy : h.kind? b.node with
    | none => simp [hx, hy] at hk
    | some k' =>
      rw [hx, hy, Option.rel_some_some] at hk
      by_cases hend : ∃ b, k = .loopEnd b
      · obtain ⟨e, rfl⟩ := hend
        obtain ⟨e', rfl⟩ := hk.loopEnd.1 ⟨e, rfl⟩
        simp [Flow.respond, hx, hy, SameResponse.ignore]
      · rw [respond_of_kind hx hend, respond_of_kind hy fun h => hend (hk.loopEnd.2 h), hk.leaves ho,
          hk.isMerge, harrived.count, hm.degree hab.node]
        split
        · exact .leave
        · split
          · split
            · exact .enter harrived.probability hrest
            · exact .wait (hm.insertWaiting harrived hrest)
          · exact .enter hab.probability hst.waiting

theorem finishLoop (hc : C n m) (hp : E → p = q) (hst : SameFlow C E s t)
    (hl : List.Forall₂ (SameArrival C E) l l') :
    SameFlow C E (finishLoop g n p l s) (finishLoop h m q l' t) := by
  have hsum : ∀ sum : Float, E → l.foldl (fun sum a => sum + a.probability) sum =
      l'.foldl (fun sum a => sum + a.probability) sum := by
    induction hl with
    | nil => exact fun _ _ => rfl
    | cons hab _ ih =>
      intro sum he
      rw [List.foldl_cons, List.foldl_cons, hab.probability he, ih _ he]
  have hrounds := fun he => congrArg expectedRounds (hsum 0.0 he)
  unfold Flow.finishLoop
  generalize expectedRounds (l.foldl (fun sum a => sum + a.probability) 0.0) = f at hrounds
  generalize expectedRounds (l'.foldl (fun sum a => sum + a.probability) 0.0) = f' at hrounds
  refine SameFlow.push ⟨hst.work, hst.waiting, hst.exits, .cons ⟨hc, hrounds⟩ hst.loops⟩ ?_
  clear hsum
  induction hl with
  | nil => exact .nil
  | cons hab _ ih =>
    rw [List.flatMap_cons, List.flatMap_cons]
    exact List.rel_append (hm.outflow hab.node fun he => by rw [hab.probability he, hp he, hrounds he]) ih

/-- The flow takes the same way through both graphs. -/
theorem run (fuel : Nat) (ho : Option.Rel C o o') (hst : SameFlow C E s t) :
    SameFlow C E (run g fuel o s) (run h fuel o' t) := by
  induction fuel generalizing o o' s t with
  | zero => exact hst
  | succ fuel ih =>
    -- what the flow does at a node that it enters
    have henter : ∀ {n m : NodeId} {p q : Float} {s t : State}, C n m → (E → p = q) → SameFlow C E s t →
        SameFlow C E
          (if Flow.isHeader g n then Flow.finishLoop g n p (Flow.run g fuel (some n)
              (push { work := [], loops := s.loops } (Flow.outflow g n id))).exits.reverse
              { s with loops := (Flow.run g fuel (some n)
                (push { work := [], loops := s.loops } (Flow.outflow g n id))).loops }
            else push s (Flow.outflow g n (p * ·)))
          (if Flow.isHeader h m then Flow.finishLoop h m q (Flow.run h fuel (some m)
              (push { work := [], loops := t.loops } (Flow.outflow h m id))).exits.reverse
              { t with loops := (Flow.run h fuel (some m)
                (push { work := [], loops := t.loops } (Flow.outflow h m id))).loops }
            else push t (Flow.outflow h m (q * ·))) := by
      intro n m p q s t hc hp hst
      rw [hm.isHeader hc]
      split
      · have hbegin : SameFlow C E { work := [], loops := s.loops } { work := [], loops := t.loops } :=
          ⟨.nil, .nil, .nil, hst.loops⟩
        have hround := ih (.some hc) (hbegin.push (hm.outflow hc (p := id) fun _ => rfl))
        exact hm.finishLoop hc hp ⟨hst.work, hst.waiting, hst.exits, hround.loops⟩
          (List.rel_reverse hround.exits)
      · exact hst.push (hm.outflow hc fun he => by rw [hp he])
    have hwork := hst.work
    have hwaiting := hst.waiting
    unfold Flow.run
    rcases hs : s.work with _ | ⟨a, work⟩ <;> rcases hs' : t.work with _ | ⟨b, work'⟩ <;>
      rw [hs, hs'] at hwork <;> cases hwork
    · rcases hv : s.waiting with _ | ⟨c, waiting⟩ <;> rcases hv' : t.waiting with _ | ⟨d, waiting'⟩ <;>
        rw [hv, hv'] at hwaiting <;> cases hwaiting
      · exact hst
      · next hcd hrest => exact ih ho (henter hcd.node hcd.probability ⟨.nil, hrest,
          hst.exits, hst.loops⟩)
    · next hab hrest =>
      have hst' : SameFlow C E { s with work } { t with work := work' } :=
        ⟨hrest, hst.waiting, hst.exits, hst.loops⟩
      have hresp := hm.respond ho hst' hab
      simp only
      rcases hr : Flow.respond g o { s with work } a with _ | _ | x | ⟨p, x⟩ <;>
        rcases hr' : Flow.respond h o' { t with work := work' } b with _ | _ | y | ⟨q, y⟩ <;>
        rw [hr, hr'] at hresp <;> cases hresp
      · exact ih ho hst'
      · exact ih ho ⟨hrest, hst.waiting, .cons hab hst.exits, hst.loops⟩
      · next hx => exact ih ho ⟨hrest, hx, hst.exits, hst.loops⟩
      · next hp hx => exact ih ho (henter hab.node hp ⟨hrest, hx, hst.exits, hst.loops⟩)

theorem loopFrequencies : List.Forall₂ (SameLoop C E) g.loopFrequencies h.loopFrequencies := by
  have hstart := hm.start
  unfold Graph.loopFrequencies Flow.enough
  rw [hm.size]
  generalize g.start = a at hstart
  generalize h.start = b at hstart
  cases hstart with
  | none => exact .nil
  | some hc =>
    exact List.rel_reverse (hm.run _ .none ⟨.cons ⟨hc, fun _ => rfl⟩ .nil, .nil, .nil, .nil⟩).loops

end Match

end Flow

end StackLift
