import StackLift.Proofs.Exits
import StackLift.Proofs.Duo.Loops

/-!
# Loop exits of two builds

An exit makes one proxy for each value that the loop defines, however often a frame holds the value.
So the full build may make a proxy for a local that the pruned one has dropped, and the pruned build
comes to the same value later, on the stack or in another slot. Then its proxy becomes the twin of the
older one (`Spare`, `follows_adopt`). A proxy that is not adopted stays alone; it is held by nothing
but dropped locals.
-/
namespace StackLift

namespace Duo

open BuildM

variable {busy : Option BlockId} {D : Duo busy} {P Q : Pairing} {w v : Work}

/-! ## Frames that are replaced with a state -/

section Run

variable {α β γ δ σ τ : Type} {s : σ} {s' : τ}

theorem follows_mapM_run {xs : List α} {ys : List β} {f : α → StateT σ BuildM γ}
    {f' : β → StateT τ BuildM δ}
    {j : Nat} (I : Pairing → Nat → α → β → Prop) (R : Pairing → Nat → γ → δ → Prop)
    (T : Pairing → Work → σ → τ → Prop) (hI : ∀ {P Q i x y}, P.Le Q → I P i x y → I Q i x y)
      (hR : ∀ {P Q i a b}, P.Le Q → R P i a b → R Q i a b)
    (hf : ∀ {P' w v i x y s s'}, P.Le P' → D.Joint P' w v → I P' i x y → T P' w s s' →
      D.Follows P' ((f x).run s) ((f' y).run s') w v fun P' a w' b _ => R P' i a.1 b.1 ∧ T P' w' a.2 b.2)
    (hj : D.Joint P w v) (h : Along (I P) j xs ys) (hs : T P w s s') :
    D.Follows P ((xs.mapM f).run s) ((ys.mapM f').run s') w v fun P' a w' b _ =>
      Along (R P') j a.1 b.1 ∧ T P' w' a.2 b.2 := by
  induction xs generalizing ys w v P j s s' with
  | nil =>
    cases h
    exact follows_pure hj ⟨.nil, hs⟩
  | cons x xs ih =>
    cases h with
    | cons hxy h =>
      rw [List.mapM_cons, List.mapM_cons, StateT.run_bind, StateT.run_bind]
      refine (hf (.refl P) hj hxy hs).bind fun P1 a w1 b v1 hle hj1 h1 => ?_
      rw [StateT.run_bind, StateT.run_bind]
      refine (ih (fun hle' => hf (hle.trans hle')) hj1 (h.imp fun _ _ _ => hI hle) h1.2).bind
        fun P2 as w2 bs v2 hle2 hj2 h2 => ?_
      exact follows_pure hj2 ⟨.cons (hR hle2 h1.1) h2.1, h2.2⟩

/-- Both builds replace the values of a frame; where only the full one has a local, it goes alone. -/
theorem follows_mapValuesM_run {f k : Frame} {act : Value → StateT σ BuildM Value}
    {bct : Value → StateT τ BuildM Value} (I : Pairing → Nat → Option Value → Option Value → Prop)
    (T : Pairing → Work → σ → τ → Prop) (hI : ∀ {P Q i o o'}, P.Le Q → I P i o o' → I Q i o o')
    (hsome : ∀ {P' : Pairing} {i x y}, P'.SameValue x y → I P' i (some x) (some y))
    (hboth : ∀ {P' : Pairing} {i x y}, I P' i (some x) (some y) → P'.SameValue x y)
    (hnone : ∀ {P' : Pairing} {i o}, I P' i none o → o = none)
    (hact : ∀ {P' w v x y s s'}, P.Le P' → D.Joint P' w v → P'.SameValue x y → T P' w s s' →
      D.Follows P' ((act x).run s) ((bct y).run s') w v fun P' a w' b _ =>
        P'.SameValue a.1 b.1 ∧ T P' w' a.2 b.2)
    (hlone : ∀ {P' w v i x s s'}, P.Le P' → D.Joint P' w v → I P' i (some x) none → T P' w s s' →
      D.Follows P' ((act x).run s) (pure ()) w v fun P' a w' _ _ => I P' i (some a.1) none ∧
      T P' w' a.2 s')
    (hj : D.Joint P w v) (hl : Along (I P) 0 f.locals k.locals)
    (hs : List.Forall₂ P.SameValue f.stack k.stack) (hm : List.Forall₂ P.SameValue f.monitors k.monitors)
    (ht : T P w s s') :
    D.Follows P ((f.mapValuesM act).run s) ((k.mapValuesM bct).run s') w v fun P' a _ b _ =>
      Along (I P') 0 a.1.locals b.1.locals ∧ List.Forall₂ P'.SameValue a.1.stack b.1.stack ∧
        List.Forall₂ P'.SameValue a.1.monitors b.1.monitors := by
  unfold Frame.mapValuesM
  rw [StateT.run_bind, StateT.run_bind]
  refine (follows_mapM_run I I T hI hI (fun {P1 w1 v1 i o o' s s'} hle hj1 ho hT => ?_) hj hl ht).bind
    fun P1 l w1 l' v1 hle1 hj1 h1 => ?_
  · cases o with
    | none =>
      obtain rfl := hnone ho
      exact follows_pure hj1 ⟨ho, hT⟩
    | some x =>
      cases o' with
      | none =>
        rw [StateT.run_bind]
        exact (hlone hle hj1 ho hT).alone fun P2 a w2 _ v2 _ hj2 h2 => follows_pure hj2 h2
      | some y =>
        rw [StateT.run_bind, StateT.run_bind]
        exact (hact hle hj1 (hboth ho) hT).bind fun P2 a w2 b v2 _ hj2 h2 => follows_pure hj2
          ⟨hsome h2.1, h2.2⟩
  have hpin : ∀ {Q w v s s'} {xs ys : List Value}, P.Le Q → D.Joint Q w v →
    List.Forall₂ Q.SameValue xs ys →
      T Q w s s' → D.Follows Q ((xs.mapM act).run s) ((ys.mapM bct).run s') w v fun P' a w' b _ =>
        List.Forall₂ P'.SameValue a.1 b.1 ∧ T P' w' a.2 b.2 :=
    fun {Q w v s s' xs ys} hle hj hxy hT => (follows_mapM_run (j := 0) (fun P _ x y => P.SameValue x y)
      (fun P _ x y => P.SameValue x y) T (fun hle h => h.mono hle) (fun hle h => h.mono hle)
      (fun hle' hj' h hT => hact (hle.trans hle') hj' h hT) hj (along_of_forall₂ hxy) hT).mono
      fun _ _ _ _ _ _ _ h => ⟨h.1.forall₂, h.2⟩
  rw [StateT.run_bind, StateT.run_bind]
  refine (hpin hle1 hj1 (List.rel_reverse (hs.imp fun _ _ h => h.mono hle1)) h1.2).bind
    fun P2 s w2 s' v2 hle2 hj2 h2 => ?_
  rw [StateT.run_bind, StateT.run_bind]
  refine (hpin (hle1.trans hle2) hj2 (List.rel_reverse (hm.imp fun _ _ h =>
    (h.mono hle1).mono hle2)) h2.2).bind
    fun P3 m w3 m' v3 hle3 hj3 h3 => ?_
  exact follows_pure hj3 ⟨h1.1.imp fun _ _ _ h => hI (hle2.trans hle3) h,
    List.rel_reverse (h2.1.imp fun _ _ h => h.mono hle3), List.rel_reverse h3.1⟩

end Run

/-! ## Proxies -/

section Proxies

variable {g h g' : Graph} {exit exit' n m q r k a b : NodeId} {s s' l : List (NodeId × NodeId)}
  {Q : Pairing}

/-- A proxy of the full graph that the pruned one may still come to. -/
structure Spare (P : Pairing) (g : Graph) (exit n r : NodeId) : Prop where
  node : g.node? r = some ⟨.proxy exit, [n], none⟩
  twin : ∀ m, ¬ P.twin r m
  ghost : ¬ P.ghost r
  cut : ∀ a b, P.cut a b → a ≤ r.index

/-- The proxies that both builds have made at one exit. -/
structure Proxied (P : Pairing) (g : Graph) (exit : NodeId) (s s' : List (NodeId × NodeId)) : Prop where
  known : ∀ {m q}, s'.lookup m = some q → ∃ n, P.twin n m
  both : ∀ {n m q}, P.twin n m → s'.lookup m = some q → ∃ r, s.lookup n = some r ∧ P.twin r q
  spare : ∀ {n r}, s.lookup n = some r → (∀ m, P.twin n m → s'.lookup m = none) → Spare P g exit n r

theorem Proxied.nil : Proxied P g exit [] [] :=
  ⟨fun h => (by cases h), fun _ h => (by cases h), fun h => (by cases h)⟩

theorem lookup_cons_if : ((k, b) :: l).lookup a = if a = k then some b else l.lookup a := by
  rw [List.lookup_cons]
  by_cases h : a = k
  · simp [h]
  · rw [beq_false_of_ne h, if_neg h]

theorem Spare.mono (h : Spare P g exit n r) (hg : g'.node? r = g.node? r)
    (ht : ∀ m, Q.twin r m → P.twin r m) (hgh : Q.ghost r → P.ghost r)
    (hc : ∀ {a b}, Q.cut a b → P.cut a b) : Spare Q g' exit n r :=
  ⟨hg ▸ h.node, fun m hm => h.twin m (ht m hm), fun hr => h.ghost (hgh hr),
    fun a b hab => h.cut a b (hc hab)⟩

theorem Proxied.lt_count (hp : Proxied P g exit s s') (ht : P.Twins g h) (hn : s.lookup n = some r) :
    r.index < P.count := by
  rw [ht.sane.count]
  by_cases hm : ∃ m q, P.twin n m ∧ s'.lookup m = some q
  · obtain ⟨m, q, hnm, hq⟩ := hm
    obtain ⟨r', hr', hrq⟩ := hp.both hnm hq
    rw [hn] at hr'
    cases hr'
    exact (ht.sane.lt hrq).1
  · refine Graph.lt_nodeCount (hp.spare hn fun m hnm => ?_).node
    by_contra hne
    obtain ⟨q, hq⟩ := Option.ne_none_iff_exists'.1 hne
    exact hm ⟨m, q, hnm, hq⟩

theorem Proxied.fresh (hp : Proxied P g exit s s') (ht : P.Twins g h) :
    s'.lookup ⟨h.nodeCount⟩ = none := by
  by_contra hne
  obtain ⟨q, hq⟩ := Option.ne_none_iff_exists'.1 hne
  obtain ⟨n, hn⟩ := hp.known hq
  exact Nat.lt_irrefl _ (ht.sane.lt hn).2

theorem Proxied.known_cons (hp : Proxied P g exit s s') (hle : P.Le Q) (hnm : P.twin n m)
    (ha : ((m, q) :: s').lookup a = some b) : ∃ n, Q.twin n a := by
  rw [lookup_cons_if] at ha
  split at ha
  · next h => exact ⟨n, h ▸ hle.twin hnm⟩
  · obtain ⟨n', hn'⟩ := hp.known ha
    exact ⟨n', hle.twin hn'⟩

theorem lookup_of_cons (h : ((m, q) :: s').lookup a = none) : a ≠ m ∧ s'.lookup a = none := by
  rw [lookup_cons_if] at h
  split at h
  · cases h
  · next hne => exact ⟨hne, h⟩

section

variable (hp : Proxied P g exit s s') (ht : P.Twins g h)
include hp ht

theorem Proxied.pair (hnm : P.twin n m) :
    Proxied (P.pair ⟨g.nodeCount⟩ ⟨h.nodeCount⟩ false) (g.addNode (.proxy exit) [n]).2 exit
      ((n, ⟨g.nodeCount⟩) :: s) ((m, ⟨h.nodeCount⟩) :: s') := by
  have hle := P.le_pair ⟨g.nodeCount⟩ ⟨h.nodeCount⟩ false
  have hnew := P.twin_pair ⟨g.nodeCount⟩ ⟨h.nodeCount⟩ false
  refine ⟨hp.known_cons hle hnm, fun {a b x} hab hb => ?_, fun {a x} ha hfree => ?_⟩
  · rw [lookup_cons_if] at hb ⊢
    rcases hab with hab | ⟨rfl, rfl⟩
    · have hiff := ht.sane.eq_iff hab hnm
      by_cases hbm : b = m
      · rw [if_pos hbm] at hb
        cases hb
        exact ⟨_, if_pos (hiff.2 hbm), hnew⟩
      · rw [if_neg hbm] at hb
        obtain ⟨r, hr, hrx⟩ := hp.both hab hb
        exact ⟨r, by rw [if_neg fun h => hbm (hiff.1 h), hr], hle.twin hrx⟩
    · have hne : (⟨h.nodeCount⟩ : NodeId) ≠ m := by
        rintro rfl
        exact Nat.lt_irrefl _ (ht.sane.lt hnm).2
      rw [if_neg hne, hp.fresh ht] at hb
      cases hb
  · have hne : a ≠ n := by
      rintro rfl
      exact (lookup_of_cons (hfree m (hle.twin hnm))).1 rfl
    rw [lookup_cons_if, if_neg hne] at ha
    have hspare := hp.spare ha fun b hab => (lookup_of_cons (hfree b (hle.twin hab))).2
    have hlt := Graph.lt_nodeCount hspare.node
    refine hspare.mono (Pairing.node?_addNode_ne hlt) ?_ id id
    rintro b (hb | ⟨rfl, -⟩)
    · exact hb
    · exact absurd hlt (Nat.lt_irrefl _)

theorem Proxied.lone (hs : s.lookup n = none) :
    Proxied (P.lone ⟨g.nodeCount⟩ false) (g.addNode (.proxy exit) [n]).2 exit
    ((n, ⟨g.nodeCount⟩) :: s) s' := by
  refine ⟨hp.known, fun {a b x} hab hb => ?_, fun {a x} ha hfree => ?_⟩
  · obtain ⟨r, hr, hrx⟩ := hp.both hab hb
    have hne : a ≠ n := by
      rintro rfl
      rw [hs] at hr
      cases hr
    exact ⟨r, by rw [lookup_cons_if, if_neg hne, hr], hrx⟩
  · have hold : ∀ {x}, (P.lone ⟨g.nodeCount⟩ false).ghost x → P.ghost x := by
      rintro x (h | ⟨hf, -⟩)
      · exact h
      · cases hf
    rw [lookup_cons_if] at ha
    split at ha
    · next han =>
      cases ha
      subst han
      refine ⟨?_, fun b hb => ?_, fun hg => ?_, fun c d hcd => (ht.sane.cut hcd).1⟩
      · rw [Graph.node?_addNode, if_pos rfl]
      · exact Nat.lt_irrefl _ (ht.sane.lt hb).1
      · exact Nat.lt_irrefl _ (ht.sane.ghost (hold hg)).1
    · have hspare := hp.spare ha hfree
      exact hspare.mono (Pairing.node?_addNode_ne (Graph.lt_nodeCount hspare.node)) (fun _ h => h) hold id

theorem Proxied.adopt (hnm : P.twin n m) (hs : s.lookup n = some r) (hr : Spare P g exit n r) :
    Proxied (P.pair r ⟨h.nodeCount⟩ false) g exit s ((m, ⟨h.nodeCount⟩) :: s') := by
  have hle := P.le_pair r ⟨h.nodeCount⟩ false
  refine ⟨hp.known_cons hle hnm, fun {a b x} hab hb => ?_, fun {a x} ha hfree => ?_⟩
  · rw [lookup_cons_if] at hb
    rcases hab with hab | ⟨rfl, rfl⟩
    · split at hb
      · next hbm =>
        cases hb
        rw [(ht.sane.eq_iff hab hnm).2 hbm]
        exact ⟨r, hs, P.twin_pair _ _ _⟩
      · obtain ⟨y, hy, hyx⟩ := hp.both hab hb
        exact ⟨y, hy, hle.twin hyx⟩
    · have hne : (⟨h.nodeCount⟩ : NodeId) ≠ m := by
        rintro rfl
        exact Nat.lt_irrefl _ (ht.sane.lt hnm).2
      rw [if_neg hne, hp.fresh ht] at hb
      cases hb
  · have hspare := hp.spare ha fun b hab => (lookup_of_cons (hfree b (hle.twin hab))).2
    refine hspare.mono rfl ?_ id id
    rintro b (hb | ⟨rfl, -⟩)
    · exact hb
    -- A proxy is the proxy of one value.
    · have hnode := hspare.node
      rw [hr.node] at hnode
      have han : n = a := by simpa using hnode
      subst han
      exact absurd rfl (lookup_of_cons (hfree m (hle.twin hnm))).1

end

variable {header header' : NodeId} {c d : Option Nat} {x y : Value}

theorem follows_changePruned {α β : Type} {f' : Graph → Except Error (β × Graph)} {a : α}
    {R : Pairing → α → β → Prop} (hj : D.Joint P w v)
    (hf : ∃ b h P', f' v.graph = .ok (b, h) ∧ P.Le P' ∧ P'.Twins w.graph h ∧
      (∀ {x}, P'.reached x → P.reached x) ∧ R P' a b) :
    D.Follows P (pure a) (changeGraph f') w v fun P' a w' b _ => R P' a b ∧ w' = w := by
  rintro a w' ⟨⟩
  obtain ⟨b, h, P', hb, hle, ht, hr, hab⟩ := hf
  exact ⟨b, _, P', changeGraph_eq hb, hle, hj.graph hle ht hr, hab, rfl⟩

theorem follows_proxyOf (hj : D.Joint P w v) (hh : P.twin header header') (he : P.twin exit exit')
    (hcd : Option.Rel P.cut c d) (hxy : P.SameValue x y) (hp : Proxied P w.graph exit s s') :
    D.Follows P ((proxyOf exit header c x).run s) ((proxyOf exit' header' d y).run s') w v
      fun P' a w' b _ => P'.SameValue a.1 b.1 ∧ Proxied P' w'.graph exit a.2 b.2 := by
  rw [run_proxyOf, run_proxyOf]
  refine follows_get_bind ?_
  rw [hj.twins.definedInLoop hxy.node hh hcd]
  split
  · cases hq : s'.lookup y.node with
    | some q =>
      obtain ⟨r, hr, hrq⟩ := hp.both hxy.node hq
      simp only [hr]
      exact follows_pure hj ⟨⟨hrq, hxy.kind⟩, hp⟩
    | none =>
      cases hr : s.lookup x.node with
      | none =>
        simp only
        refine (follows_changeGraph (R := fun P' n g m => P'.twin n m ∧
          Proxied P' g exit ((x.node, n) :: s) ((y.node, m) :: s')) hj ?_).bind
          fun P1 n w1 m v1 hle hj1 h1 => ?_
        · rintro n g ⟨⟩
          refine ⟨_, _, _, rfl, P.le_pair _ _ false, ?_, id, P.twin_pair _ _ _, hp.pair hj.twins hxy.node⟩
          refine hj.twins.addNode (.proxy he) (.cons hxy.node .nil) ?_
          rintro z ⟨⟩
        · exact follows_pure hj1 ⟨⟨h1.1.1, hxy.kind⟩, h1.1.2⟩
      | some r =>
        have hspare : Spare P w.graph exit x.node r := hp.spare hr fun m hm => by
          rw [hj.twins.sane.unique hm hxy.node]
          exact hq
        simp only
        show D.Follows P (pure r >>= fun r => pure ({ x with node := r }, s)) _ w v _
        refine (follows_changePruned (R := fun P' r m => P'.twin r m ∧
          Proxied P' w.graph exit s ((y.node, m) :: s')) hj ?_).bind fun P1 r w1 m v1 hle hj1 h1 => ?_
        · refine ⟨_, _, _, rfl, P.le_pair _ _ false, ?_, id, P.twin_pair _ _ _, ?_⟩
          · exact hj.twins.adopt hspare.node hspare.twin hspare.ghost hspare.cut (.proxy he)
              (.cons hxy.node .nil) rfl
          · exact hp.adopt hj.twins hxy.node hr hspare
        · obtain ⟨⟨h1, h2⟩, rfl⟩ := h1
          exact follows_pure hj1 ⟨⟨h1, hxy.kind⟩, h2⟩
  · exact follows_pure hj ⟨hxy, hp⟩

theorem follows_proxyLone (hj : D.Joint P w v) (hx : x.node.index < P.count)
    (hp : Proxied P w.graph exit s s') : D.Follows P ((proxyOf exit header c x).run s) (pure ()) w v
      fun P' a w' _ _ => a.1.node.index < P'.count ∧ Proxied P' w'.graph exit a.2 s' := by
  rw [run_proxyOf]
  refine follows_look_bind ?_
  split
  · cases hr : s.lookup x.node with
    | some r => exact follows_pure hj ⟨hp.lt_count hj.twins hr, hp⟩
    | none =>
      simp only
      refine (follows_changeLone (b := ()) (R := fun P' n g _ => n.index < P'.count ∧
        Proxied P' g exit ((x.node, n) :: s) s') hj ?_).alone fun P1 n w1 m v1 hle hj1 h1 => ?_
      · rintro n g ⟨⟩
        refine ⟨_, P.le_lone _ false, hj.twins.addLone rfl ?_ false, id, ?_, hp.lone hj.twins hr⟩
        · rintro z ⟨⟩
        · exact Nat.le_max_right _ _
      · exact follows_pure hj1 h1.1
  · exact follows_pure hj ⟨hx, hp⟩

end Proxies

/-! ## Exits -/

/-- The exits of one edge in both builds. -/
structure SameChain (P : Pairing) (c d : ExitChain) : Prop where
  first : P.control c.first d.first
  last : P.control c.last d.last

theorem SameChain.mono {c d : ExitChain} (h : SameChain P c d) (hle : P.Le Q) : SameChain Q c d :=
  ⟨hle.control h.first, hle.control h.last⟩

section Exits

variable {L : Nat → Prop} {f k : Frame} {o o' : Option ExitChain} {p : Position}

theorem follows_proxies {exit exit' header header' : NodeId} {c d : Option Nat} (hj : D.Joint P w v)
    (hh : P.twin header header') (he : P.twin exit exit') (hcd : Option.Rel P.cut c d)
    (hf : P.Matches L f k) : D.Follows P ((f.mapValuesM (proxyOf exit header c)).run [])
      ((k.mapValuesM (proxyOf exit' header' d)).run [])
      w v fun P' a _ b _ => P'.Matches L a.1 b.1 := by
  refine (follows_mapValuesM_run (fun P i o o' => P.Keeps L i o o')
    (fun P w s s' => Proxied P w.graph exit s s') (fun hle h => ⟨h.1.mono hle, h.2⟩)
    (fun h => ⟨.both h, fun _ h => by cases h⟩) ?_ ?_ ?_ ?_ hj ?_ hf.same.stack hf.same.monitors
    Proxied.nil).mono fun P' a w' b v' _ _ h => ?_
  · rintro P' i x y ⟨h, -⟩
    cases h with
    | both h => exact h
  · rintro P' i o ⟨h, -⟩
    cases h
    rfl
  · exact fun hle hj hxy hp => follows_proxyOf hj (hle.twin hh) (hle.twin he)
      (optionRel_imp hcd fun _ _ h => hle.cut h) hxy hp
  · rintro P' w v i x s s' hle hj ⟨ho, hL⟩ hp
    have hlt : x.node.index < P'.count := by
      cases ho with
      | lost h => exact h
    refine (follows_proxyLone hj hlt hp).mono fun P2 a w2 _ v2 _ _ h => ⟨⟨.lost h.1, fun hi _ => ?_⟩, h.2⟩
    cases hL hi rfl
  · exact Pairing.matches_iff.1 hf |>.1
  · exact Pairing.matches_iff.2 h

theorem follows_exitLoop {i : Nat} (hj : D.Joint P w v) (hf : P.Matches L f k)
    (ho : Option.Rel (SameChain P) o o') :
    D.Follows P (exitLoop p (f, o) i) (exitLoop p (k, o') i) w v fun P' a _ b _ =>
      P'.Matches L a.1 b.1 ∧ Option.Rel (SameChain P') a.2 b.2 := by
  have hheader : Option.Rel P.control w.table.headers[i]? v.table.headers[i]? := by
    rw [← Array.getElem?_toList, ← Array.getElem?_toList]
    exact forall₂_getElem? hj.tables.headers i
  have hmark : Option.Rel (Option.Rel P.cut) w.table.marks[i]? v.table.marks[i]? := by
    rw [← Array.getElem?_toList, ← Array.getElem?_toList]
    exact forall₂_getElem? hj.tables.marks i
  refine follows_get_bind ?_
  refine .chain (follows_demandRel hj hheader fun header header' hh _ _ => ?_)
  refine .chain (follows_demandRel hj hmark fun c d hcd _ _ => ?_)
  refine (follows_addNode hj (.loopExit (hj.twins.sane.twin hh)) .nil ?_).bind
    fun P3 exit w3 exit' v3 hle3 hj3 h3 => ?_
  · rintro x ⟨⟩
  have hexit : P3.control exit exit' := h3.2.1 rfl
  refine (follows_proxies hj3 (hj3.twins.sane.twin (hle3.control hh)) h3.1
    (optionRel_imp hcd fun _ _ h => hle3.cut h) (hf.mono hle3)).bind fun P4 a w4 b v4 hle4 hj4 h4 => ?_
  refine (follows_attachSnapshot hj4 (hle4.twin h3.1) h4.same).bind fun P5 _ w5 _ v5 hle5 hj5 _ => ?_
  have hle := (hle3.trans hle4).trans hle5
  have hexit5 := hle5.control (hle4.control hexit)
  cases ho with
  | none => exact follows_pure hj5 ⟨h4.mono hle5, .some ⟨hexit5, hexit5⟩⟩
  | some hc =>
    refine (follows_follow hj5 (hle.control hc.last) hexit5).bind fun P6 _ w6 _ v6 hle6 hj6 _ => ?_
    exact follows_pure hj6 ⟨(h4.mono hle5).mono hle6, .some ⟨hle6.control (hle.control hc.first),
      hle6.control hexit5⟩⟩

theorem follows_exitLoops {source target : BlockId} (hj : D.Joint P w v) (hf : P.Matches L f k) :
    D.Follows P (exitLoops source target f p) (exitLoops source target k p) w v fun P' a _ b _ =>
      P'.Matches L a.1 b.1 ∧ Option.Rel (SameChain P') a.2 b.2 := by
  refine follows_read_bind ?_
  rw [D.fits.blocks]
  refine follows_foldlM (fun P (a b : Frame × Option ExitChain) =>
    P.Matches L a.1 b.1 ∧ Option.Rel (SameChain P) a.2 b.2)
    (fun i _ _ hj1 h => ?_) hj ⟨hf, .none⟩
  exact follows_exitLoop hj1 h.1 h.2

theorem follows_prependExits {stub stub' : NodeId} (hj : D.Joint P w v)
    (ho : Option.Rel (SameChain P) o o') (hs : P.control stub stub') :
    D.Follows P (prependExits o stub) (prependExits o' stub') w v fun P' n _ m _ => P'.control n m := by
  cases ho with
  | none => exact follows_pure hj hs
  | some hc =>
    refine (follows_follow hj hc.last hs).bind fun P1 _ w1 _ v1 hle hj1 _ => ?_
    exact follows_pure hj1 (hle.control hc.first)

end Exits

end Duo

end StackLift
