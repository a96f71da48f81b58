import StackLift.Proofs.Entries
import StackLift.Proofs.LiveSets
import StackLift.Proofs.Built
import StackLift.Proofs.Duo.Twins

/-!
# Two builds side by side

`Duo` is one method in two builds: the full one keeps all locals, the pruned one drops those that are
dead on entry to a block. `D.Joint P w v` says that the two stand at the same place, with works `w`
and `v` that the pairing `P` is right about, and that every frame that waits at the entry of a block
holds the same live locals in both (`Pairing.Waits`).

`D.Follows P act bct w v Q` says how the pruned build follows the full one: whenever `act` succeeds in
the full build, `bct` succeeds in the pruned one, the two stand together again, and `Q` holds of what
they answer. Nothing is said where the full build fails. The rules are those of a program logic:
`bind` for sequences, one rule for each loop, one for each elementary action.
-/
namespace StackLift

variable {d' : Defect} {x : Entry} {e : Error} {g : Graph} {sc : Scope} {t t' : Table}

/-! ## Frames -/

namespace Pairing

variable {P Q : Pairing} {L : Nat → Prop} {f k : Frame}
variable {live : Nat → Bool} {node : NodeId} {s s' : Prop}

/-- The same frame in both builds; no local of `L` is dropped. -/
structure Matches (P : Pairing) (L : Nat → Prop) (f k : Frame) : Prop where
  same : P.SameFrame f k
  agree : ∀ x, L x → k.local? x = none → f.local? x = none

/-- Two frames that wait at a block whose entry is `node`. The pruned one has just the live locals. What
only the full one has is not a phi of the entry, or it is a ghost; once the block is `settled`, only the
latter, and no value is a control node. -/
structure Waits (P : Pairing) (live : Nat → Bool) (node : NodeId) (settled : Prop) (f k : Frame) :
    Prop where
  same : P.SameFrame f k
  agree : ∀ x, live x = true → k.local? x = none → f.local? x = none
  live : ∀ x v, k.local? x = some v → live x = true
  shed : ∀ x v, f.local? x = some v → k.local? x = none →
    P.ghost v.node ∨ (¬ settled ∧ P.apart v.node node)
  data : settled → ∀ v ∈ f.values, P.data v.node

/-- A way out of a method in both builds. -/
structure SameExit (P : Pairing) (x y : Exit) : Prop where
  node : P.control x.node y.node
  frame : P.SameFrame x.frame y.frame

theorem Matches.mono (h : P.Matches L f k) (hle : P.Le Q) : Q.Matches L f k := ⟨h.same.mono hle, h.agree⟩

theorem Matches.weaken {L' : Nat → Prop} (h : P.Matches L f k) (hL : ∀ x, L' x → L x) :
    P.Matches L' f k :=
  ⟨h.same, fun x hx => h.agree x (hL x hx)⟩

theorem Waits.mono (h : P.Waits live node s f k) (hle : P.Le Q) : Q.Waits live node s f k :=
  ⟨h.same.mono hle, h.agree, h.live, fun x v hf hk =>
    (h.shed x v hf hk).imp hle.ghost fun ha => ⟨ha.1, hle.apart ha.2⟩, fun hs v hv => hle.data
      (h.data hs v hv)⟩

theorem Waits.loosen (h : P.Waits live node s f k) (hs : s' → s) : P.Waits live node s' f k :=
  ⟨h.same, h.agree, h.live, fun x v hf hk => (h.shed x v hf hk).imp id fun ha =>
    ⟨fun h => ha.1 (hs h), ha.2⟩,
    fun h' => h.data (hs h')⟩

theorem Waits.unsettled (h : P.Waits live node False f k) (hs : ¬ s) : P.Waits live node s f k :=
  ⟨h.same, h.agree, h.live, fun x v hf hk => (h.shed x v hf hk).imp id fun ha => ⟨hs, ha.2⟩,
    fun h' => absurd h' hs⟩

theorem Waits.settled (h : P.Waits live node True f k) (node' : NodeId) :
    P.Waits live node' True f k :=
  ⟨h.same, h.agree, h.live, fun x v hf hk => (h.shed x v hf hk).imp_right fun ha =>
    absurd trivial ha.1, h.data⟩

theorem Waits.matches (h : P.Waits live node s f k) :
    P.Matches (live · = true) f k := ⟨h.same, h.agree⟩

theorem SameExit.mono {x y : Exit} (h : P.SameExit x y) (hle : P.Le Q) : Q.SameExit x y :=
  ⟨hle.control h.node, h.frame.mono hle⟩

end Pairing

/-! ## Two methods -/

/-- The scopes of a method differ in nothing but the locals that are kept. -/
structure Scope.Pruned (full pruned : Scope) : Prop where
  env : pruned.env = full.env
  config : pruned.config = full.config.withLivenessPruning true
  off : full.config.livenessPruning = false
  method : pruned.method = full.method
  body : pruned.body = full.body
  blocks : pruned.blocks = full.blocks
  chain : pruned.chain = full.chain
  handles : pruned.callerHandles = full.callerHandles
  keeps : full.liveness = none
  prunes : pruned.liveness = some (Liveness.compute full.body full.blocks)
  map : BlockMap.ofBody full.body = .ok full.blocks

/-- One method in two builds, while the phis of the header `busy` are being made. -/
structure Duo (busy : Option BlockId) where
  full : Scope
  pruned : Scope
  fits : full.Pruned pruned
  hush : NodeId → Prop       -- headers of the callers that nothing has reached so far

namespace Duo

variable {busy : Option BlockId} {D : Duo busy} {P Q : Pairing} {w v w' v' : Work}

/-- Slot `x` is live on entry to `b`. -/
def live (D : Duo busy) (b : BlockId) (x : Nat) : Bool :=
  (Liveness.compute D.full.body D.full.blocks).isLive b x

/-- All values that wait at `b` are phis of its header. -/
def Settled (D : Duo busy) (b : BlockId) (parsed : Bool) : Prop :=
  parsed = true ∧ (D.full.blocks.block b).isLoopHeader = true ∧ busy ≠ some b

/-- The entry of block `b` in both builds. -/
structure SameEntry (D : Duo busy) (P : Pairing) (b : BlockId) (e e' : Entry) : Prop where
  node : P.control e.node e'.node
  parsed : e.parsed = e'.parsed
  reached : e.frame.isSome = true → P.reached e.node
  frame : Option.Rel (P.Waits (D.live b) e.node (D.Settled b e.parsed)) e.frame e'.frame

structure Tables (D : Duo busy) (P : Pairing) (t t' : Table) : Prop where
  size : t.entries.size = t'.entries.size
  entry : ∀ b, Option.Rel (D.SameEntry P b) (t.slot? b) (t'.slot? b)
  headers : List.Forall₂ P.control t.headers.toList t'.headers.toList
  marks : List.Forall₂ (Option.Rel P.cut) t.marks.toList t'.marks.toList
  returned : Option.Rel P.SameExit t.exits.returned t'.exits.returned
  unwound : Option.Rel P.SameExit t.exits.unwound t'.exits.unwound

/-- The two builds stand at the same place. -/
structure Joint (D : Duo busy) (P : Pairing) (w v : Work) : Prop where
  twins : P.Twins w.graph v.graph
  tables : D.Tables P w.table v.table
  callers : Option.Rel P.SameSnapshot D.full.callers D.pruned.callers
  hush : ∀ {x}, D.hush x → ¬ P.reached x
  hushLt : ∀ {x}, D.hush x → x.index < P.count
  await : ∀ {b e}, w.table.slot? b = some e → e.frame = none → ¬ P.reached e.node ∧ ¬ D.hush e.node
  header : ∀ {b e}, w.table.slot? b = some e → e.frame = none →
    (D.full.blocks.block b).isLoopHeader = true
  distinct : ∀ {b c e e'}, w.table.slot? b = some e → w.table.slot? c = some e' → e.frame = none →
    e'.frame = none → e.node = e'.node → b = c
  report : w.report = v.report
  consulted : w.consulted = v.consulted

theorem SameEntry.mono {b : BlockId} {e e' : Entry} (h : D.SameEntry P b e e') (hle : P.Le Q) :
    D.SameEntry Q b e e' :=
  ⟨hle.control h.node, h.parsed, fun hf => hle.reached (h.reached hf),
    optionRel_imp h.frame fun _ _ h => h.mono hle⟩

theorem Tables.mono (h : D.Tables P t t') (hle : P.Le Q) : D.Tables Q t t' :=
  ⟨h.size, fun b => optionRel_imp (h.entry b) fun _ _ h => h.mono hle,
    h.headers.imp fun _ _ h => hle.control h,
    h.marks.imp fun _ _ h => optionRel_imp h fun _ _ h => hle.cut h,
    optionRel_imp h.returned fun _ _ h => h.mono hle, optionRel_imp h.unwound fun _ _ h => h.mono hle⟩

theorem Joint.graph {h : Graph} (hj : D.Joint P w v) (hle : P.Le Q) (ht : Q.Twins g h)
    (hr : ∀ {x}, Q.reached x → P.reached x) : D.Joint Q { w with graph := g } { v with graph := h } :=
  ⟨ht, hj.tables.mono hle, optionRel_imp hj.callers fun _ _ h => h.mono hle,
    fun hx hq => hj.hush hx (hr hq),
    fun hx => Nat.lt_of_lt_of_le (hj.hushLt hx) hle.count,
    fun he hf => ⟨fun hq => (hj.await he hf).1 (hr hq), (hj.await he hf).2⟩, hj.header,
    hj.distinct, hj.report,
    hj.consulted⟩

/-! ## The judgement -/

/-- Whenever `act` succeeds in the full build, `bct` does in the pruned one. -/
def Follows {α β : Type} (D : Duo busy) (P : Pairing) (act : BuildM α) (bct : BuildM β) (w v : Work)
    (Q : Pairing → α → Work → β → Work → Prop) : Prop :=
  ∀ a w', act D.full w = .ok a w' → ∃ b v' P', bct D.pruned v = .ok b v' ∧ P.Le P' ∧ D.Joint P' w' v' ∧
    Q P' a w' b v'

section Rules

variable {α β γ δ : Type} {act : BuildM α} {bct : BuildM β} {R S : Pairing → α → Work → β → Work → Prop}
variable {T : Pairing → γ → Work → δ → Work → Prop} {d : Defect}
  {f : Graph → Except Error (α × Graph)} {f' : β → BuildM δ} {b : β} {a : α} {o : Option α}
  {o' : Option β}

theorem Follows.mono (h : D.Follows P act bct w v R)
    (hR : ∀ P' a w' b v', P.Le P' → D.Joint P' w' v' → R P' a w' b v' → S P' a w' b v') :
    D.Follows P act bct w v S := by
  intro a w' ha
  obtain ⟨b, v', P', hb, hle, hj, hr⟩ := h a w' ha
  exact ⟨b, v', P', hb, hle, hj, hR _ _ _ _ _ hle hj hr⟩

theorem Follows.enlarge (h : D.Follows P act bct w v R)
    (hR : ∀ P' a w' b v', P.Le P' → D.Joint P' w' v' → R P' a w' b v' →
      ∃ Q, P'.Le Q ∧ D.Joint Q w' v' ∧ S Q a w' b v') : D.Follows P act bct w v S := by
  intro a w' ha
  obtain ⟨b, v', P', hb, hle, hj, hr⟩ := h a w' ha
  obtain ⟨Q, hle', hj', hs⟩ := hR _ _ _ _ _ hle hj hr
  exact ⟨b, v', Q, hb, hle.trans hle', hj', hs⟩

theorem Follows.seq {x : Option BlockId} {C : Duo x} {f : α → BuildM γ}
    (hfull : C.full = D.full) (hpruned : C.pruned = D.pruned) (h : C.Follows P act bct w v R)
    (hf : ∀ P' a w' b v', P.Le P' → C.Joint P' w' v' → R P' a w' b v' →
      D.Follows P' (f a) (f' b) w' v' T) : D.Follows P (act >>= f) (bct >>= f') w v T := by
  intro c w2 hc
  obtain ⟨a, w1, ha, hc⟩ : ∃ a w1, act D.full w = .ok a w1 ∧ f a D.full w1 = .ok c w2 := by
    change EStateM.bind (act D.full) (fun a => f a D.full) w = .ok c w2 at hc
    unfold EStateM.bind at hc
    cases ha : act D.full w with
    | ok a w1 =>
      rw [ha] at hc
      exact ⟨a, w1, rfl, hc⟩
    | error e w1 =>
      rw [ha] at hc
      cases hc
  obtain ⟨b, v1, P1, hb, hle, hj, hr⟩ := h a w1 (hfull ▸ ha)
  obtain ⟨d, v2, P2, hd, hle', hj', ht⟩ := hf P1 a w1 b v1 hle hj hr c w2 hc
  refine ⟨d, v2, P2, ?_, hle.trans hle', hj', ht⟩
  show EStateM.bind (bct D.pruned) (fun b => f' b D.pruned) v = .ok d v2
  unfold EStateM.bind
  rw [← hpruned, hb, hpruned]
  exact hd

theorem Follows.bind {f : α → BuildM γ} (h : D.Follows P act bct w v R)
    (hf : ∀ P' a w' b v', P.Le P' → D.Joint P' w' v' → R P' a w' b v' →
      D.Follows P' (f a) (f' b) w' v' T) : D.Follows P (act >>= f) (bct >>= f') w v T :=
  h.seq rfl rfl hf

theorem Follows.chain {f : α → BuildM γ}
    (h : D.Follows P act bct w v fun P' a w' b v' => D.Follows P' (f a) (f' b) w' v' T) :
    D.Follows P (act >>= f) (bct >>= f') w v T := h.bind fun _ _ _ _ _ _ _ hf => hf

theorem Follows.alone {f : α → BuildM γ} {cct : BuildM δ} (h : D.Follows P act (pure b) w v R)
    (hf : ∀ P' a w' b v', P.Le P' → D.Joint P' w' v' → R P' a w' b v' → D.Follows P' (f a) cct w' v' T) :
    D.Follows P (act >>= f) cct w v T := by
  show D.Follows P (act >>= f) (pure b >>= fun _ => cct) w v T
  exact h.bind hf

theorem follows_pure (hj : D.Joint P w v) (h : R P a w b v) :
    D.Follows P (pure a) (pure b) w v R := by
  rintro a w' ⟨⟩
  exact ⟨b, v, P, rfl, .refl P, hj, h⟩

theorem follows_throw : D.Follows P (throw e : BuildM α) bct w v R := by
  rintro a w' ⟨⟩

theorem follows_throw_bind {f : γ → BuildM α} : D.Follows P (throw e >>= f) bct w v R := by
  intro a w' ha
  cases ha

theorem follows_verify {p : Position} {x : Fault} :
    D.Follows P (BuildM.verify p x : BuildM α) bct w v R :=
  follows_throw

theorem follows_malformed : D.Follows P (BuildM.malformed d : BuildM α) bct w v R :=
  follows_throw

theorem follows_get_bind {f : Work → BuildM α} {f' : Work → BuildM β}
    (h : D.Follows P (f w) (f' v) w v R) : D.Follows P (get >>= f) (get >>= f') w v R := h

theorem follows_look_bind {f : Work → BuildM α} (h : D.Follows P (f w) bct w v R) :
    D.Follows P (get >>= f) bct w v R := h

theorem follows_read_bind {f : Scope → BuildM α} {f' : Scope → BuildM β}
    (h : D.Follows P (f D.full) (f' D.pruned) w v R) : D.Follows P (read >>= f) (read >>= f') w v R := h

theorem follows_pure_bind {a : γ} {b : δ} {f : γ → BuildM α} {f' : δ → BuildM β}
    (h : D.Follows P (f a) (f' b) w v R) : D.Follows P (pure a >>= f) (pure b >>= f') w v R := h

theorem follows_demand (hj : D.Joint P w v) (h : ∀ a, o = some a → ∃ b, o' = some b ∧ R P a w b v) :
    D.Follows P (BuildM.demand o d) (BuildM.demand o' d') w v R := by
  cases o with
  | none => exact follows_malformed
  | some a =>
    obtain ⟨b, rfl, hr⟩ := h a rfl
    exact follows_pure hj hr

theorem follows_demandRel {T : α → β → Prop} (hj : D.Joint P w v)
    (ho : Option.Rel T o o') (h : ∀ a b, T a b → o = some a → o' = some b → R P a w b v) :
    D.Follows P (BuildM.demand o d) (BuildM.demand o' d') w v R := by
  cases ho with
  | none => exact follows_malformed
  | some hab => exact follows_pure hj (h _ _ hab rfl rfl)

theorem follows_liftExcept {x : Except Error α} {y : Except Error β} (hj : D.Joint P w v)
    (h : ∀ a, x = .ok a → ∃ b, y = .ok b ∧ R P a w b v) :
    D.Follows P (BuildM.liftExcept x) (BuildM.liftExcept y) w v R := by
  cases x with
  | error e => exact follows_throw
  | ok a =>
    obtain ⟨b, rfl, hr⟩ := h a rfl
    exact follows_pure hj hr

/-- The tables are as they were. -/
structure Kept (w v w' v' : Work) : Prop where
  full : w'.table = w.table
  pruned : v'.table = v.table

theorem changeGraph_ok (h : BuildM.changeGraph f sc w = .ok a w') :
    ∃ g, f w.graph = .ok (a, g) ∧ w' = { w with graph := g } := by
  cases hf : f w.graph with
  | error e =>
    rw [BuildM.changeGraph_congr hf] at h
    cases h
  | ok r =>
    rw [BuildM.changeGraph_congr hf] at h
    cases h
    exact ⟨_, rfl, rfl⟩

theorem changeGraph_eq (h : f w.graph = .ok (a, g)) :
    BuildM.changeGraph f sc w = .ok a { w with graph := g } := by
  rw [BuildM.changeGraph_congr h]
  rfl

theorem follows_changeGraph {f' : Graph → Except Error (β × Graph)}
    {R : Pairing → α → Graph → β → Prop} (hj : D.Joint P w v)
    (hf : ∀ a g, f w.graph = .ok (a, g) → ∃ b h P', f' v.graph = .ok (b, h) ∧ P.Le P' ∧ P'.Twins g h ∧
      (∀ {x}, P'.reached x → P.reached x) ∧ R P' a g b) :
    D.Follows P (BuildM.changeGraph f) (BuildM.changeGraph f') w v fun P' a w' b v' =>
      R P' a w'.graph b ∧ Kept w v w' v' := by
  intro a w' ha
  obtain ⟨g, hg, rfl⟩ := changeGraph_ok ha
  obtain ⟨b, h, P', hb, hle, ht, hr, hab⟩ := hf a g hg
  exact ⟨b, _, P', changeGraph_eq hb, hle, hj.graph hle ht hr, hab, ⟨rfl, rfl⟩⟩

theorem follows_changeLone {R : Pairing → α → Graph → β → Prop} (hj : D.Joint P w v)
    (hf : ∀ a g, f w.graph = .ok (a, g) → ∃ P', P.Le P' ∧ P'.Twins g v.graph ∧
      (∀ {x}, P'.reached x → P.reached x) ∧ R P' a g b) :
    D.Follows P (BuildM.changeGraph f) (pure b) w v fun P' a w' b v' => R P' a w'.graph b ∧
      Kept w v w' v' := by
  intro a w' ha
  obtain ⟨g, hg, rfl⟩ := changeGraph_ok ha
  obtain ⟨P', hle, ht, hr, hab⟩ := hf a g hg
  exact ⟨b, v, P', rfl, hle, hj.graph hle ht hr, hab, ⟨rfl, rfl⟩⟩

theorem follows_changeReport {f : Report → Report} (hj : D.Joint P w v) :
    D.Follows P (BuildM.changeReport f) (BuildM.changeReport f) w v fun _ _ _ _ _ => True := by
  rintro a w' ⟨⟩
  refine ⟨(), _, P, rfl, .refl P, { hj with report := ?_ }, trivial⟩
  show f w.report = f v.report
  rw [hj.report]

theorem follows_consult {c : Consultation} (hj : D.Joint P w v) :
    D.Follows P (BuildM.consult c) (BuildM.consult c) w v fun _ _ _ _ _ => True := by
  rintro a w' ⟨⟩
  refine ⟨(), _, P, rfl, .refl P, { hj with consulted := ?_ }, trivial⟩
  show w.consulted.push c = v.consulted.push c
  rw [hj.consulted]

end Rules

/-! ## Loops -/

section Loops

variable {α β γ δ : Type}
variable {I J : Nat → α → β → Prop} {j : Nat} {xs : List α} {ys : List β}

/-- Two lists of the same length, related place by place; the first place is `j`. -/
inductive Along (I : Nat → α → β → Prop) : Nat → List α → List β → Prop where
  | nil {j : Nat} : Along I j [] []
  | cons {j : Nat} {x : α} {y : β} {xs : List α} {ys : List β} (h : I j x y) (t : Along I (j + 1) xs ys) :
      Along I j (x :: xs) (y :: ys)

theorem Along.imp (h : Along I j xs ys) (hI : ∀ i x y, I i x y → J i x y) : Along J j xs ys := by
  induction h with
  | nil => exact .nil
  | cons h _ ih => exact .cons (hI _ _ _ h) ih

theorem Along.left {p : α → Prop}
    (h : Along I j xs ys) (hp : ∀ i x y, I i x y → p x) : ∀ x ∈ xs, p x := by
  induction h with
  | nil => simp
  | cons h _ ih => exact List.forall_mem_cons.2 ⟨hp _ _ _ h, ih⟩

theorem along_iff : Along I j xs ys ↔ xs.length = ys.length ∧
      ∀ (i : Nat) x y, xs[i]? = some x → ys[i]? = some y → I (j + i) x y := by
  induction xs generalizing ys j with
  | nil =>
    cases ys with
    | nil => exact ⟨fun _ => ⟨rfl, by simp⟩, fun _ => .nil⟩
    | cons y ys => exact ⟨fun h => (by cases h), fun h => (by cases h.1)⟩
  | cons x xs ih =>
    cases ys with
    | nil => exact ⟨fun h => (by cases h), fun h => (by cases h.1)⟩
    | cons y ys =>
      constructor
      · intro h
        cases h with
        | cons h t =>
          obtain ⟨hlen, hall⟩ := ih.1 t
          refine ⟨by simp [hlen], fun i a b ha hb => ?_⟩
          cases i with
          | zero =>
            cases ha
            cases hb
            exact h
          | succ i =>
            have := hall i a b (by simpa using ha) (by simpa using hb)
            rwa [Nat.add_assoc, Nat.add_comm 1 i] at this
      · rintro ⟨hlen, hall⟩
        refine .cons (hall 0 x y rfl rfl) (ih.2 ⟨by simpa using hlen, fun i a b ha hb => ?_⟩)
        have := hall (i + 1) a b (by simpa using ha) (by simpa using hb)
        rwa [Nat.add_assoc, Nat.add_comm 1 i]

theorem along_of_forall₂ {I : α → β → Prop} (h : List.Forall₂ I xs ys) :
    Along (fun _ => I) j xs ys := by
  induction h generalizing j with
  | nil => exact .nil
  | cons h _ ih => exact .cons h ih

theorem Along.forall₂ {I : α → β → Prop}
    (h : Along (fun _ => I) j xs ys) : List.Forall₂ I xs ys := by
  induction h with
  | nil => exact .nil
  | cons h _ ih => exact .cons h ih

theorem follows_mapM {f : α → BuildM γ} {f' : β → BuildM δ}
    (I : Pairing → Nat → α → β → Prop) (R : Pairing → Nat → γ → δ → Prop)
    (hI : ∀ {P Q i x y}, P.Le Q → I P i x y → I Q i x y)
      (hR : ∀ {P Q i a b}, P.Le Q → R P i a b → R Q i a b)
    (hf : ∀ {P' w v i x y}, P.Le P' → D.Joint P' w v → I P' i x y →
      D.Follows P' (f x) (f' y) w v fun P' a _ b _ => R P' i a b)
    (hj : D.Joint P w v) (h : Along (I P) j xs ys) :
    D.Follows P (xs.mapM f) (ys.mapM f') w v fun P' as _ bs _ => Along (R P') j as bs := by
  induction xs generalizing ys w v P j with
  | nil =>
    cases h
    exact follows_pure hj .nil
  | cons x xs ih =>
    cases h with
    | cons hxy h =>
      rw [List.mapM_cons, List.mapM_cons]
      refine (hf (.refl P) hj hxy).bind fun P1 a w1 b v1 hle hj1 hab => ?_
      refine (ih (fun hle' => hf (hle.trans hle')) hj1 (h.imp fun _ _ _ => hI hle)).bind
        fun P2 as w2 bs v2 hle2 hj2 habs => ?_
      exact follows_pure hj2 (.cons (hR hle2 hab) habs)

theorem follows_forIn {body : α → PUnit → BuildM (ForInStep PUnit)}
    {body' : β → PUnit → BuildM (ForInStep PUnit)} (I : Pairing → Nat → α → β → Prop)
    (hI : ∀ {P Q i x y}, P.Le Q → I P i x y → I Q i x y)
    (hf : ∀ {P' w v i x y}, P.Le P' → D.Joint P' w v → I P' i x y →
      D.Follows P' (body x ⟨⟩) (body' y ⟨⟩) w v fun _ r _ r' _ => r = .yield ⟨⟩ ∧ r' = .yield ⟨⟩)
    (hj : D.Joint P w v) (h : Along (I P) j xs ys) :
    D.Follows P (forIn xs ⟨⟩ body) (forIn ys ⟨⟩ body') w v fun _ _ _ _ _ => True := by
  induction xs generalizing ys w v P j with
  | nil =>
    cases h
    exact follows_pure hj trivial
  | cons x xs ih =>
    cases h with
    | cons hxy h =>
      rw [List.forIn_cons, List.forIn_cons]
      refine (hf (.refl P) hj hxy).bind fun P1 r w1 r' v1 hle hj1 hr => ?_
      rw [hr.1, hr.2]
      exact ih (fun hle' => hf (hle.trans hle')) hj1 (h.imp fun _ _ _ => hI hle)

theorem follows_foldlM {σ τ : Type} {f : σ → α → BuildM σ} {f' : τ → α → BuildM τ}
    (T : Pairing → σ → τ → Prop)
    (hf : ∀ {P' w v s s'} x, x ∈ xs → P.Le P' → D.Joint P' w v → T P' s s' →
      D.Follows P' (f s x) (f' s' x) w v fun P' s _ s' _ => T P' s s')
    {s : σ} {s' : τ} (hj : D.Joint P w v) (h : T P s s') :
    D.Follows P (xs.foldlM f s) (xs.foldlM f' s') w v fun P' s _ s' _ => T P' s s' := by
  induction xs generalizing s s' w v P with
  | nil => exact follows_pure hj h
  | cons x xs ih =>
    rw [List.foldlM_cons, List.foldlM_cons]
    refine (hf x (by simp) (.refl P) hj h).bind fun P1 a w1 b v1 hle hj1 hab => ?_
    exact ih (fun y hy hle' => hf y (by simp [hy]) (hle.trans hle')) hj1 hab

end Loops

/-! ## Elementary actions -/

section Actions

open BuildM

variable {n m s s' t t' : NodeId} {k k' : NodeKind} {I I' : List NodeId} {f f' : Frame} {p : Position}

/-- A node was made that nothing knew before. -/
structure Made (P P' : Pairing) (w v w' v' : Work) (n : NodeId) : Prop where
  kept : Kept w v w' v'
  fresh : P.count ≤ n.index
  unreached : ¬ P'.reached n

section

variable (hj : D.Joint P w v)
include hj

theorem follows_addNode (hk : k.Twin P.twin k') (hI : List.Forall₂ P.twin I I')
    (hphi : ∀ x, k = .phi x → P.reached x) :
    D.Follows P (addNode k I) (addNode k' I') w v fun P' n w' m v' =>
      P'.twin n m ∧ (k.isControl = true → P'.control n m) ∧ (k.isControl = false → P'.data n) ∧
        Made P P' w v w' v' n := by
  have hcount := hj.twins.sane.count
  refine (follows_changeGraph (R := fun P' n _ m => (P'.twin n m ∧ (k.isControl = true → P'.control n m) ∧
    (k.isControl = false → P'.data n)) ∧ P.count ≤ n.index ∧ ¬ P'.reached n) hj ?_).mono
    fun P' n w' m v' _ _ h =>
      ⟨h.1.1.1, h.1.1.2.1, h.1.1.2.2, h.2, h.1.2.1, h.1.2.2⟩
  rintro n g ⟨⟩
  refine ⟨_, _, _, rfl, P.le_pair _ _ k.isControl, hj.twins.addNode hk hI hphi, id,
    ⟨P.twin_pair _ _ _, fun hc => ?_, fun hc => .inr ⟨hc, rfl⟩⟩, Nat.le_of_eq hcount, fun hr => ?_⟩
  · rw [hc]
    exact P.control_pair _ _
  · exact Nat.lt_irrefl _ (hj.twins.sane.reached hr)

theorem follows_addControl (hk : k.anchor? = none) (hc : k.isControl = true)
    (hI : List.Forall₂ P.twin I I') :
    D.Follows P (addNode k I) (addNode k I') w v fun P' n w' m v' =>
      P'.control n m ∧ Made P P' w v w' v' n := by
  refine (follows_addNode hj (.same hk) hI ?_).mono fun P' n w' m v' _ _ h => ⟨h.2.1 hc, h.2.2.2⟩
  rintro x rfl
  cases hk

theorem follows_addData (hk : k.anchor? = none) (hI : List.Forall₂ P.twin I I') :
    D.Follows P (addNode k I) (addNode k I') w v fun P' n w' m v' => P'.twin n m ∧ Kept w v w' v' := by
  refine (follows_addNode hj (.same hk) hI ?_).mono fun P' n w' m v' _ _ h => ⟨h.1, h.2.2.2.kept⟩
  rintro x rfl
  cases hk

theorem follows_addGhost (hm : P.reached m) :
    D.Follows P (addNode (.phi m) I) (pure ()) w v fun P' n w' _ v' =>
      (P'.ghost n ∧ P'.data n) ∧ Kept w v w' v' := by
  refine follows_changeLone (R := fun P' n _ _ => P'.ghost n ∧ P'.data n) hj ?_
  rintro n g ⟨⟩
  refine ⟨_, P.le_lone _ true, hj.twins.addLone rfl (fun x hx => ?_) true, id, .inr ⟨rfl, rfl⟩, .inr rfl⟩
  cases hx
  exact hm

theorem follows_update {F F' : Graph → Except Error Graph}
    (hF : ∀ {g}, F w.graph = .ok g → ∃ h, F' v.graph = .ok h ∧ P.Twins g h) :
    D.Follows P (changeGraph fun g => return ((), ← F g)) (changeGraph fun g => return ((), ← F' g)) w v
      fun _ _ w' _ v' => True ∧ Kept w v w' v' := by
  refine follows_changeGraph (R := fun _ _ _ _ => True) hj fun a g hg => ?_
  obtain ⟨r, hr, hg⟩ := ok_of_bind hg
  cases hg
  obtain ⟨h', hh, ht⟩ := hF hr
  exact ⟨(), h', P, by rw [hh]; rfl, .refl P, ht, id, trivial⟩

theorem follows_addEdge {kind : EdgeKind} {probability : Float} (hs : P.control s s')
    (ht : P.control t t') :
    D.Follows P (addEdge s t kind probability) (addEdge s' t' kind probability) w v
      fun _ _ w' _ v' => True ∧ Kept w v w' v' := by
  refine follows_changeGraph (R := fun _ _ _ _ => True) hj fun a g hg => ?_
  obtain ⟨r, he, hg⟩ := ok_of_bind hg
  cases hg
  obtain ⟨h', hh, ht⟩ := hj.twins.addEdge hs ht he
  exact ⟨(), h', P, by rw [hh]; rfl, .refl P, ht, id, trivial⟩

theorem follows_follow (hs : P.control s s') (ht : P.control t t') :
    D.Follows P (follow s t) (follow s' t') w v fun _ _ w' _ v' => True ∧ Kept w v w' v' :=
  follows_addEdge hj hs ht

theorem follows_addPhiInput (hn : P.twin n m) (hs : P.twin s s') :
    D.Follows P (addPhiInput n s) (addPhiInput m s') w v fun _ _ w' _ v' => True ∧ Kept w v w' v' :=
  follows_update hj (hj.twins.addPhiInput hn hs)

theorem follows_ghostInput (hn : P.ghost n) :
    D.Follows P (addPhiInput n s) (pure ()) w v fun _ _ w' _ v' => True ∧ Kept w v w' v' := by
  refine follows_changeLone (R := fun _ _ _ _ => True) hj fun a g hg => ?_
  obtain ⟨r, he, hg⟩ := ok_of_bind hg
  cases hg
  exact ⟨P, .refl P, hj.twins.addLoneInput (hj.twins.sane.ghost hn).2 he, id, trivial⟩

theorem follows_setSnapshot {x y : Snapshot} (hn : P.twin n m) (hs : P.SameSnapshot x y) :
    D.Follows P (setSnapshot n x) (setSnapshot m y) w v fun _ _ w' _ v' => True ∧ Kept w v w' v' :=
  follows_update hj (hj.twins.setSnapshot hn hs)

end

theorem Joint.snapshot (hj : D.Joint P w v) (hf : P.SameFrame f f') :
    P.SameSnapshot (D.full.snapshot f p) (D.pruned.snapshot f' p) := by
  refine ⟨⟨?_, rfl, hf⟩, ?_⟩
  · show D.full.method.id = D.pruned.method.id
    rw [D.fits.method]
  · have hc := hj.callers
    unfold Scope.snapshot Frame.snapshot
    generalize D.full.callers = x at hc ⊢
    generalize D.pruned.callers = y at hc ⊢
    cases hc with
    | none => exact .nil
    | some h => exact .cons h.inner h.callers

theorem follows_attachSnapshot (hj : D.Joint P w v) (hn : P.twin n m) (hf : P.SameFrame f f') :
    D.Follows P (attachSnapshot n f p) (attachSnapshot m f' p) w v
      fun _ _ w' _ v' => True ∧ Kept w v w' v' :=
  follows_read_bind (follows_setSnapshot hj hn (hj.snapshot hf))

theorem follows_kindIs {q : NodeKind → Bool} (hj : D.Joint P w v) (hn : P.twin n m)
    (hq : ∀ {k k' : NodeKind}, k.Twin P.twin k' → q k = q k') :
    D.Follows P (kindIs n q) (kindIs m q) w v fun _ a w' b v' => a = b ∧ Kept w v w' v' :=
  follows_get_bind (follows_pure hj ⟨hj.twins.kindIs hn hq, rfl, rfl⟩)

theorem follows_snapshotMerge (hj : D.Joint P w v) (hn : P.twin n m) (hf : P.SameFrame f f') :
    D.Follows P (snapshotMerge n f p) (snapshotMerge m f' p) w v fun _ _ _ _ _ => True := by
  refine (follows_kindIs hj hn NodeKind.Twin.isMerge).bind fun P1 a w1 b v1 hle hj1 hab => ?_
  obtain ⟨rfl, -⟩ := hab
  cases a with
  | true =>
    exact (follows_attachSnapshot hj1 (hle.twin hn) (hf.mono hle)).mono fun _ _ _ _ _ _ _ _ => trivial
  | false => exact follows_pure hj1 trivial

theorem follows_addDeopt {reason : DeoptReason} (hj : D.Joint P w v) (hf : P.SameFrame f f') :
    D.Follows P (addDeopt reason f p) (addDeopt reason f' p) w v fun P' n _ m _ => P'.control n m := by
  refine (follows_addControl hj rfl rfl .nil).bind fun P1 n w1 m v1 hle hj1 h1 => ?_
  refine (follows_attachSnapshot hj1 (hj1.twins.sane.twin h1.1) (hf.mono hle)).bind
    fun P2 _ w2 _ v2 hle2 hj2 _ => ?_
  exact follows_pure hj2 (hle2.control h1.1)

theorem follows_beginStub (hj : D.Joint P w v) (hn : P.control n m) :
    D.Follows P (beginStub n) (beginStub m) w v fun P' n _ m _ => P'.control n m := by
  refine (follows_kindIs hj (hj.twins.sane.twin hn) NodeKind.Twin.isBeginLike).bind
    fun P1 a w1 b v1 hle hj1 hab => ?_
  obtain ⟨rfl, -⟩ := hab
  cases a with
  | true => exact follows_pure hj1 (hle.control hn)
  | false =>
    refine (follows_addControl hj1 rfl rfl .nil).bind fun P2 x w2 y v2 hle2 hj2 h2 => ?_
    refine (follows_follow hj2 h2.1 (hle2.control (hle.control hn))).bind
      fun P3 _ w3 _ v3 hle3 hj3 _ => ?_
    exact follows_pure hj3 (hle3.control h2.1)

theorem follows_recordUnresolved {reference : Reference} {why : Absence} (hj : D.Joint P w v) :
    D.Follows P (recordUnresolved p reference why) (recordUnresolved p reference why) w v
      fun _ _ _ _ _ => True := by
  refine follows_read_bind ?_
  have hid : D.full.id = D.pruned.id := by
    show D.full.method.id = D.pruned.method.id
    rw [D.fits.method]
  dsimp only
  rw [← hid]
  exact follows_changeReport hj

theorem follows_checkBudget (hj : D.Joint P w v) :
    D.Follows P (checkBudget p) (checkBudget p) w v fun _ _ w' _ v' => w' = w ∧ v' = v := by
  have hmax : D.pruned.config.maxNodeCount = D.full.config.maxNodeCount := by
    rw [D.fits.config]
    rfl
  have hexp : D.pruned.config.isExpired = D.full.config.isExpired := by
    rw [D.fits.config]
    rfl
  have hlive := hj.twins.live_le
  unfold checkBudget
  refine follows_read_bind (follows_get_bind ?_)
  dsimp only
  rw [hmax, hexp]
  by_cases h1 : D.full.config.maxNodeCount < w.graph.live
  · rw [if_pos h1]
    exact follows_throw_bind
  · have h1' : ¬ D.full.config.maxNodeCount < v.graph.live := by omega
    rw [if_neg h1, if_neg h1']
    by_cases h2 : D.full.config.isExpired = true
    · rw [if_pos h2]
      exact follows_throw
    · rw [if_neg h2]
      exact follows_pure hj ⟨rfl, rfl⟩

end Actions

/-! ## The table -/

section Entries

open BuildM

variable {b : BlockId} {e e' : Entry}

theorem Tables.put (h : D.Tables P t t') (he : D.SameEntry P b e e') :
    D.Tables P (t.put b e) (t'.put b e') := by
  refine ⟨?_, fun c => ?_, h.headers, h.marks, h.returned, h.unwound⟩
  · simpa [Table.put] using h.size
  · by_cases hb : b.index < t.entries.size
    · rw [Table.slot?_put hb, Table.slot?_put (h.size ▸ hb)]
      split
      · next hc => exact .some (hc ▸ he)
      · exact h.entry c
    · have hput : t.put b e = t := by simp [Table.put, Array.setIfInBounds, hb]
      have hput' : t'.put b e' = t' := by simp [Table.put, Array.setIfInBounds, h.size ▸ hb]
      rw [hput, hput']
      exact h.entry c

section

variable (hj : D.Joint P w v)
include hj

theorem Joint.put (he : D.SameEntry P b e e') (hf : e.frame.isSome = true) :
    D.Joint P { w with table := w.table.put b e } { v with table := v.table.put b e' } := by
  have hold : ∀ {c x}, (w.table.put b e).slot? c = some x → x.frame = none →
    w.table.slot? c = some x := by
    intro c x hx hn
    rcases Table.slot?_put_cases hx with ⟨-, rfl⟩ | ⟨-, hx⟩
    · rw [hn] at hf
      cases hf
    · exact hx
  exact ⟨hj.twins, hj.tables.put he, hj.callers, hj.hush, hj.hushLt,
    fun hx hn => hj.await (hold hx hn) hn,
    fun hx hn => hj.header (hold hx hn) hn, fun hx hy hn hm => hj.distinct (hold hx hn)
    (hold hy hm) hn hm,
    hj.report, hj.consulted⟩

theorem Joint.lt_count (hx : w.table.slot? b = some x) : x.node.index < P.count := by
  have hent := hj.tables.entry b
  rw [hx] at hent
  generalize v.table.slot? b = o at hent
  cases hent with
  | some h => exact hj.twins.sane.count ▸ (hj.twins.sane.lt (hj.twins.sane.twin h.node)).1

theorem Joint.first (hx : w.table.slot? b = some x) (hn : x.frame = none)
    (he : D.SameEntry (P.reach x.node) b e e') (hf : e.frame.isSome = true) :
    D.Joint (P.reach x.node) { w with table := w.table.put b e }
      { v with table := v.table.put b e' } := by
  have hle := P.le_reach x.node
  have hlt : x.node.index < w.graph.nodeCount := hj.twins.sane.count ▸ hj.lt_count hx
  obtain ⟨hr, hh⟩ := hj.await hx hn
  have hold : ∀ {c y}, (w.table.put b e).slot? c = some y → y.frame = none →
      w.table.slot? c = some y ∧ c ≠ b := by
    intro c y hy hn
    rcases Table.slot?_put_cases hy with ⟨-, rfl⟩ | ⟨hc, hy⟩
    · rw [hn] at hf
      cases hf
    · exact ⟨hy, hc⟩
  refine ⟨hj.twins.reach hlt hr, (hj.tables.mono hle).put he,
    optionRel_imp hj.callers fun _ _ h => h.mono hle, ?_, hj.hushLt, ?_,
    fun hy hn => hj.header (hold hy hn).1 hn, ?_, hj.report, hj.consulted⟩
  · rintro y hy (hry | rfl)
    · exact hj.hush hy hry
    · exact hh hy
  · intro c y hy hny
    obtain ⟨hy', hcb⟩ := hold hy hny
    refine ⟨?_, (hj.await hy' hny).2⟩
    rintro (hry | heq)
    · exact (hj.await hy' hny).1 hry
    · exact hcb (hj.distinct hy' hx hny hn heq)
  · exact fun hy hz hny hnz => hj.distinct (hold hy hny).1 (hold hz hnz).1 hny hnz

theorem Joint.unlock {P' : Pairing} {n m : NodeId} (hj' : D.Joint P' w' v') (hm : Made P P' w v w' v' n)
    (ht : P'.twin n m) : D.Joint (P'.reach n) w' v' := by
  have hle := P'.le_reach n
  refine ⟨hj'.twins.reach (hj'.twins.sane.lt ht).1 hm.unreached, hj'.tables.mono hle,
    optionRel_imp hj'.callers fun _ _ h => h.mono hle, ?_, hj'.hushLt, ?_, hj'.header, hj'.distinct,
    hj'.report, hj'.consulted⟩
  · rintro y hy (hr | rfl)
    · exact hj'.hush hy hr
    · exact absurd (hj.hushLt hy) (Nat.not_lt.2 hm.fresh)
  · intro c e he hn
    refine ⟨?_, (hj'.await he hn).2⟩
    rintro (hr | heq)
    · exact (hj'.await he hn).1 hr
    · rw [hm.kept.full] at he
      have := hj.lt_count he
      rw [heq] at this
      exact absurd this (Nat.not_lt.2 hm.fresh)

theorem follows_entryAt {R : Pairing → Option Entry → Work → Option Entry → Work → Prop}
    (h : ∀ o o', Option.Rel (D.SameEntry P b) o o' → w.table.slot? b = o → v.table.slot? b = o' →
      R P o w o' v) :
    D.Follows P ( entry? b) ( entry? b) w v R :=
  follows_get_bind (follows_pure hj (h _ _ (hj.tables.entry b) rfl rfl))

theorem follows_entry {R : Pairing → Entry → Work → Entry → Work → Prop}
    (h : ∀ e e', D.SameEntry P b e e' → w.table.slot? b = some e → v.table.slot? b = some e' →
      R P e w e' v) :
    D.Follows P (entry b) (entry b) w v R := by
  refine .chain (follows_entryAt hj fun o o' hent hslot hslot' => ?_)
  refine follows_demand hj fun e he => ?_
  subst he
  cases hent with
  | some hee => exact ⟨_, rfl, h _ _ hee hslot hslot'⟩

theorem follows_setEntry (he : D.SameEntry P b e e') (hf : e.frame.isSome = true) :
    D.Follows P (setEntry b e) (setEntry b e') w v fun _ _ w' _ _ => w'.table = w.table.put b e := by
  rintro a w' ⟨⟩
  exact ⟨(), _, P, rfl, .refl P, hj.put he hf, rfl⟩

theorem follows_openBlock {missing : Defect} (hset : ¬ D.Settled b true) :
    D.Follows P (openBlock b missing) (openBlock b missing) w v fun P' r _ r' _ =>
      P'.control r.1 r'.1 ∧ P'.reached r.1 ∧ P'.Waits (D.live b) r.1 False r.2 r'.2 := by
  refine .chain (follows_entry hj fun e e' hent _ _ => ?_)
  have hfr := hent.frame
  have hreached := hent.reached
  generalize e.frame = o at hfr hreached
  generalize e'.frame = o' at hfr
  cases hfr with
  | none =>
    rintro a w' ⟨⟩
  | @some f f' hw =>
    have hreached : P.reached e.node := hreached rfl
    have hnew : D.SameEntry P b ⟨e.node, some f, true⟩ ⟨e'.node, some f', true⟩ :=
      ⟨hent.node, rfl, fun _ => hreached, .some (hw.loosen fun h => absurd h hset)⟩
    refine (follows_setEntry hj hnew rfl).bind fun P2 _ w2 _ v2 hle hj2 _ => ?_
    exact follows_pure hj2 ⟨hle.control hent.node, hle.reached hreached,
      (hw.loosen fun h => h.elim).mono hle⟩

end

end Entries

end Duo

end StackLift
