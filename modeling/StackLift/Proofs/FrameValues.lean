import Mathlib.Data.List.Forall2
import StackLift.Proofs.Ensures

/-!
# The values of frames

Which values a frame holds after each operation, what the operations on the stack and the locals
answer, and how two frames of the same build are compared slot by slot (`Frame.Rel`).
-/
namespace StackLift

variable {β σ : Type} {g f : Frame} {l' : List β} {p : Position} {x : Value} {w : Work}

namespace Frame

variable {dead : List NodeId} {v : Value} {f f' : Frame}

theorem mem_values : v ∈ f.values ↔ some v ∈ f.locals ∨ v ∈ f.stack ∨ v ∈ f.monitors := by
  simp [values, pinned]

theorem mem_values_stack (h : v ∈ f.stack.reverse) : v ∈ f.values :=
  mem_values.2 (.inr (.inl (List.mem_reverse.1 h)))

theorem mem_values_monitors (h : v ∈ f.monitors.reverse) : v ∈ f.values :=
  mem_values.2 (.inr (.inr (List.mem_reverse.1 h)))

theorem mem_values_push : v ∈ (f.push x).values ↔ v = x ∨ v ∈ f.values := by
  simp only [mem_values, push, List.mem_cons]
  constructor
  · rintro (h | (h | h) | h)
    · exact .inr (.inl h)
    · exact .inl h
    · exact .inr (.inr (.inl h))
    · exact .inr (.inr (.inr h))
  · rintro (h | h | h | h)
    · exact .inr (.inl (.inl h))
    · exact .inl h
    · exact .inr (.inl (.inr h))
    · exact .inr (.inr h)

theorem mem_values_raising (h : v ∈ (f.raising x).values) : v = x ∨ v ∈ f.values := by
  simp only [mem_values, raising, push, clearStack, List.mem_cons, List.not_mem_nil, or_false] at h
  rw [mem_values]
  rcases h with h | h | h
  · exact .inr (.inl h)
  · exact .inl h
  · exact .inr (.inr (.inr h))

theorem mem_values_enterMonitor (h : v ∈ (f.enterMonitor x).values) : v = x ∨ v ∈ f.values := by
  simp only [mem_values, enterMonitor, List.mem_cons] at h
  rw [mem_values]
  rcases h with h | h | h | h
  · exact .inr (.inl h)
  · exact .inr (.inr (.inl h))
  · exact .inl h
  · exact .inr (.inr (.inr h))

theorem mem_values_keepLive {live : Nat → Bool}
    (h : v ∈ (f.keepLive live).values) : v ∈ f.values := by
  rw [mem_values] at *
  refine h.imp_left fun h => ?_
  simp only [keepLive, List.mem_map, Prod.exists] at h
  obtain ⟨o, i, ho, h⟩ := h
  split at h
  · subst h
    exact List.mem_of_getElem? (List.mem_zipIdx_iff_getElem?.1 ho)
  · cases h

theorem mem_values_withArgs {n : Nat} {args : List Value}
    (h : withArgs n args = .ok f) (hv : v ∈ f.values) : v ∈ args := by
  unfold withArgs at h
  split at h
  · cases h
  · cases h
    rw [mem_values] at hv
    simpa using hv

theorem head?_mem_values (h : f.peek? = some v) : v ∈ f.values := by
  rw [mem_values]
  exact .inr (.inl (List.mem_of_head? h))

/-! ## Operations that may fail -/

theorem run_pop (p : Position) (f : Frame) : (pop p).run f = match f.stack with
    | v :: rest => .ok v { f with stack := rest }
    | [] => .error (.verification p .stackUnderflow) f := by
  obtain ⟨locals, stack, monitors⟩ := f
  cases stack <;> rfl

theorem run_popKind (p : Position) (k : ValueKind) (f : Frame) :
    (popKind p k).run f = match f.stack with
    | v :: rest => if v.kind = k then .ok v { f with stack := rest }
      else .error (.verification p (.kindMismatch k v.kind)) { f with stack := rest }
    | [] => .error (.verification p .stackUnderflow) f := by
  obtain ⟨locals, stack, monitors⟩ := f
  cases stack with
  | nil => rfl
  | cons v rest =>
    show (if v.kind = k then (pure v : FrameM Value) else throw _) _ = _
    simp only
    split <;> rfl

/-- An operation that takes a value with `P` off the stack, or blames the code. -/
structure Pops (P : Value → Prop) (act : FrameM Value) : Prop where
  ok : ∀ {f v f'}, act.run f = .ok v f' → P v ∧ ∃ s, f.stack = v :: s ∧ f' = { f with stack := s }
  error : ∀ {f e f'}, act.run f = .error e f' → e.isOrdinary = true

theorem pops_pop (p : Position) : Pops (fun _ => True) (pop p) := by
  constructor
  all_goals
    intro f v f' h
    rw [run_pop] at h
    split at h
  · next hs =>
    cases h
    exact ⟨trivial, _, hs, rfl⟩
  · cases h
  · cases h
  · cases h
    rfl

theorem pops_popKind (p : Position) (k : ValueKind) : Pops (·.kind = k) (popKind p k) := by
  constructor
  all_goals
    intro f v f' h
    rw [run_popKind] at h
    split at h
  · next hs =>
    split at h
    · next hk =>
      cases h
      exact ⟨hk, _, hs, rfl⟩
    · cases h
  · cases h
  · split at h
    · cases h
    · cases h
      rfl
  · cases h
    rfl

theorem run_loadLocal (p : Position) (slot : Nat) (f : Frame) :
    (loadLocal p slot).run f = match f.local? slot with
    | some v => .ok v f
    | none => .error (.verification p (.localUndefined slot)) f := by
  show (match f.local? slot with
    | some v => (pure v : FrameM Value)
    | none => throw _) f = _
  cases f.local? slot <;> rfl

theorem run_storeLocal (p : Position) (slot : Nat) (v : Value) (f : Frame) :
    (storeLocal p slot v).run f =
      if slot < f.locals.length then .ok () { f with locals := f.locals.set slot (some v) }
      else .error (.verification p (.localOutOfRange slot)) f := by
  show (if slot < f.locals.length then (modify fun f : Frame =>
    { f with locals := f.locals.set slot (some v) } : FrameM Unit) else throw _) f = _
  split <;> rfl

theorem run_exitMonitor (p : Position) (f : Frame) : (exitMonitor p).run f = match f.monitors with
    | v :: rest => .ok v { f with monitors := rest }
    | [] => .error (.verification p .monitorNotHeld) f := by
  obtain ⟨locals, stack, monitors⟩ := f
  cases monitors <;> rfl

theorem mem_of_local? {slot : Nat} (h : f.local? slot = some v) : v ∈ f.values := by
  unfold local? at h
  rw [Option.join_eq_some_iff] at h
  exact mem_values.2 (.inl (List.mem_of_getElem? h))

/-! ## Dropping values -/

theorem withoutLocals?_spec (h : f.withoutLocals? dead = some f') :
    f' = { f with locals := f.locals.map fun v => v.filter (·.node ∉ dead) } ∧
      ∀ v ∈ f.pinned, v.node ∉ dead := by
  unfold withoutLocals? at h
  split at h
  · cases h
  · next hp =>
    refine ⟨(Option.some.inj h).symm, fun v hv hd => hp ?_⟩
    exact List.any_eq_true.2 ⟨v, hv, by simpa using hd⟩

theorem mem_values_withoutLocals? (h : f.withoutLocals? dead = some f') :
    v ∈ f'.values ↔ v ∈ f.values ∧ v.node ∉ dead := by
  obtain ⟨rfl, hp⟩ := withoutLocals?_spec h
  have hlocals : some v ∈ (f.locals.map fun v => v.filter (·.node ∉ dead)) ↔
      some v ∈ f.locals ∧ v.node ∉ dead := by
    simp only [List.mem_map, Option.filter_eq_some_iff]
    constructor
    · rintro ⟨o, ho, rfl, hd⟩
      exact ⟨ho, by simpa using hd⟩
    · rintro ⟨ho, hd⟩
      exact ⟨some v, ho, rfl, by simpa using hd⟩
  have hpin : v ∈ f.stack ∨ v ∈ f.monitors → v.node ∉ dead := by
    intro hv
    exact hp v (by simpa [pinned] using hv)
  rw [mem_values, mem_values, hlocals]
  constructor
  · rintro (⟨h1, h2⟩ | h)
    · exact ⟨.inl h1, h2⟩
    · exact ⟨.inr h, hpin h⟩
  · rintro ⟨h | h, hd⟩
    · exact .inl ⟨h, hd⟩
    · exact .inr h

theorem values_withoutLocals?_sublist
    (h : f.withoutLocals? dead = some f') : f'.values.Sublist f.values := by
  obtain ⟨rfl, -⟩ := withoutLocals?_spec h
  refine List.Sublist.append ?_ (List.Sublist.refl _)
  simp only [List.filterMap_map]
  induction f.locals with
  | nil => simp
  | cons o os ih =>
    cases o with
    | none => simpa using ih
    | some v =>
      have hf : (some v).filter (·.node ∉ dead) = if v.node ∈ dead then none else some v := by
        by_cases hv : v.node ∈ dead <;> simp [Option.filter, hv]
      simp only [List.filterMap_cons, Function.comp, id, hf]
      by_cases hv : v.node ∈ dead
      · simpa [hv] using ih.cons v
      · simpa [hv] using ih.cons_cons v

/-! ## Frames side by side -/

/-- The frames hold something in the same slots, and `R` relates what they hold. -/
structure Rel (R : Value → Value → Prop) (f f' : Frame) : Prop where
  locals : List.Forall₂ (Option.Rel R) f.locals f'.locals
  stack : List.Forall₂ R f.stack f'.stack
  monitors : List.Forall₂ R f.monitors f'.monitors

variable {R S T : Value → Value → Prop} {f f' f'' : Frame} {α : Type}

theorem Rel.imp (h : Rel R f f') (hR : ∀ v v', R v v' → S v v') : Rel S f f' := by
  refine ⟨h.locals.imp fun o o' ho => ?_, h.stack.imp hR, h.monitors.imp hR⟩
  cases ho with
  | some h => exact .some (hR _ _ h)
  | none => exact .none

theorem forall₂_mem_left {R : α → β → Prop} {l : List α} (h : List.Forall₂ R l l') {a : α}
    (ha : a ∈ l) : ∃ b ∈ l', R a b := by
  induction h with
  | nil => cases ha
  | cons hab _ ih =>
    rcases List.mem_cons.1 ha with rfl | ha
    · exact ⟨_, by simp, hab⟩
    · obtain ⟨b, hb, hR⟩ := ih ha
      exact ⟨b, by simp [hb], hR⟩

theorem Rel.exists_right (h : Rel R f f') (hv : v ∈ f.values) : ∃ v' ∈ f'.values, R v v' := by
  simp only [mem_values] at hv ⊢
  rcases hv with hv | hv | hv
  · obtain ⟨o, ho, hR⟩ := forall₂_mem_left h.locals hv
    cases hR with
    | some hR => exact ⟨_, .inl ho, hR⟩
  · obtain ⟨v', hv', hR⟩ := forall₂_mem_left h.stack hv
    exact ⟨v', .inr (.inl hv'), hR⟩
  · obtain ⟨v', hv', hR⟩ := forall₂_mem_left h.monitors hv
    exact ⟨v', .inr (.inr hv'), hR⟩

theorem Rel.flip (h : Rel R f f') : Rel (fun a b => R b a) f' f := by
  refine ⟨h.locals.flip.imp fun o o' ho => ?_, h.stack.flip, h.monitors.flip⟩
  cases ho with
  | some h => exact .some h
  | none => exact .none

theorem Rel.exists_left (h : Rel R f f') {v' : Value} (hv : v' ∈ f'.values) :
    ∃ v ∈ f.values, R v v' := h.flip.exists_right hv

theorem Rel.kinds (h : Rel R f f') (hR : ∀ v v', R v v' → v'.kind = v.kind) :
    f'.stack.map (·.kind) = f.stack.map (·.kind) := by
  have key : ∀ {l l' : List Value}, List.Forall₂ R l l' → l'.map (·.kind) = l.map (·.kind) := by
    intro l l' h
    induction h with
    | nil => rfl
    | cons hab _ ih => simp only [List.map_cons, hR _ _ hab, ih]
  exact key h.stack

theorem Rel.refl (hR : ∀ v, R v v) (f : Frame) : Rel R f f := by
  refine ⟨?_, ?_, ?_⟩
  · refine List.forall₂_same.2 fun o _ => ?_
    cases o with
    | none => exact .none
    | some v => exact .some (hR v)
  · exact List.forall₂_same.2 fun v _ => hR v
  · exact List.forall₂_same.2 fun v _ => hR v

theorem Rel.trans (h : Rel R f f') (h' : Rel S f' f'')
    (ht : ∀ a b c, R a b → S b c → T a c) : Rel T f f'' := by
  have key : ∀ {α : Type} {P Q U : α → α → Prop} {l l' l'' : List α},
      (∀ a b c, P a b → Q b c → U a c) → List.Forall₂ P l l' → List.Forall₂ Q l' l'' →
      List.Forall₂ U l l'' := by
    intro α P Q U l l' l'' hpq h1
    induction h1 generalizing l'' with
    | nil =>
      intro h2
      cases h2
      exact .nil
    | cons hab _ ih =>
      intro h2
      cases h2 with
      | cons hbc h2 => exact .cons (hpq _ _ _ hab hbc) (ih h2)
  refine ⟨key ?_ h.locals h'.locals, key ht h.stack h'.stack, key ht h.monitors h'.monitors⟩
  intro a b c hab hbc
  cases hab with
  | none => cases hbc; exact .none
  | some hab => cases hbc with
    | some hbc => exact .some (ht _ _ _ hab hbc)

/-- The frames hold something in the same slots. -/
structure Alike (f f' : Frame) : Prop where
  locals : f'.locals.map Option.isSome = f.locals.map Option.isSome
  stack : f'.stack.length = f.stack.length
  monitors : f'.monitors.length = f.monitors.length

theorem forall₂_append_inv {R : α → β → Prop} {l m : List α} {m' : List β}
    (h : List.Forall₂ R (l ++ m) (l' ++ m')) (hl : l'.length = l.length) :
    List.Forall₂ R l l' ∧ List.Forall₂ R m m' := by
  induction l generalizing l' with
  | nil =>
    obtain rfl := List.eq_nil_of_length_eq_zero hl
    exact ⟨.nil, h⟩
  | cons a l ih =>
    cases l' with
    | nil => cases hl
    | cons b l' =>
      cases h with
      | cons hab h =>
        obtain ⟨h1, h2⟩ := ih h (by simpa using hl)
        exact ⟨.cons hab h1, h2⟩

theorem Alike.rel (h : Alike f f') (hv : List.Forall₂ R f.values f'.values) : Rel R f f' := by
  have hlen : ∀ {l l' : List (Option Value)}, l'.map Option.isSome = l.map Option.isSome →
      (l'.filterMap id).length = (l.filterMap id).length := by
    intro l
    induction l with
    | nil =>
      intro l' hl
      simp only [List.map_nil, List.map_eq_nil_iff] at hl
      subst hl
      rfl
    | cons o l ih =>
      intro l' hl
      cases l' with
      | nil => cases hl
      | cons o' l' =>
        simp only [List.map_cons, List.cons.injEq] at hl
        have := ih hl.2
        cases o <;> cases o' <;> simp_all
  have hlocals : ∀ {l l' : List (Option Value)}, l'.map Option.isSome = l.map Option.isSome →
      List.Forall₂ R (l.filterMap id) (l'.filterMap id) → List.Forall₂ (Option.Rel R) l l' := by
    intro l
    induction l with
    | nil =>
      intro l' hl _
      simp only [List.map_nil, List.map_eq_nil_iff] at hl
      subst hl
      exact .nil
    | cons o l ih =>
      intro l' hl hR
      cases l' with
      | nil => cases hl
      | cons o' l' =>
        simp only [List.map_cons, List.cons.injEq] at hl
        cases o with
        | none =>
          cases o' with
          | none => exact .cons .none (ih hl.2 (by simpa using hR))
          | some v' => simp at hl
        | some v =>
          cases o' with
          | none => simp at hl
          | some v' =>
            simp only [List.filterMap_cons_some (f := id) rfl, List.forall₂_cons] at hR
            exact .cons (.some hR.1) (ih hl.2 hR.2)
  obtain ⟨h1, h2⟩ := forall₂_append_inv hv (hlen h.locals)
  obtain ⟨h3, h4⟩ := forall₂_append_inv h2 (by simpa using h.stack)
  exact ⟨hlocals h.locals h1, List.forall₂_reverse_iff.1 h3, List.forall₂_reverse_iff.1 h4⟩

/-! ## Frames that meet -/

theorem kindClash?_none (h : f.kindClash? g = none) :
    ∀ p ∈ f.stack.reverse.zip g.stack.reverse, p.1.kind = p.2.kind := by
  intro p hp
  obtain ⟨i, hi⟩ := List.mem_iff_getElem?.1 hp
  have hall := List.findSome?_eq_none_iff.1 h (p, i) (List.mem_zipIdx_iff_getElem?.2 hi)
  by_contra hne
  simp [hne] at hall

theorem checkCompatible_ok {u : Unit} (h : f.checkCompatible p g = .ok u) :
    f.stack.length = g.stack.length ∧ f.monitors.length = g.monitors.length ∧
      ∀ p ∈ f.stack.reverse.zip g.stack.reverse, p.1.kind = p.2.kind := by
  unfold checkCompatible at h
  split at h
  · cases h
  · next hc =>
    unfold clash? at hc
    split at hc
    · cases hc
    · next hd =>
      rw [Option.or_eq_none_iff] at hc
      obtain ⟨hk, hm⟩ := hc
      refine ⟨not_not.1 hd, ?_, kindClash?_none hk⟩
      split at hm
      · cases hm
      · next hne => exact not_not.1 hne

theorem checkCompatible_error {e : Error} (h : f.checkCompatible p g = .error e) :
    e.isOrdinary = true := by
  unfold checkCompatible at h
  split at h
  · next fault hc =>
    cases h
    show fault.isEarly = true
    unfold clash? at hc
    split at hc
    · cases hc
      rfl
    · rw [Option.or_eq_some_iff] at hc
      rcases hc with hc | ⟨-, hc⟩
      · obtain ⟨⟨⟨a, b⟩, i⟩, -, hx⟩ := List.exists_of_findSome?_eq_some hc
        simp only at hx
        split at hx <;> cases hx
        rfl
      · split at hc <;> cases hc
        rfl
  · cases h
end Frame

namespace BuildM

/-! ## Replacing the values of a frame -/

section MapValues

variable {E : Error → Prop} {sc : Scope}

/-- A judgement on the computations of `m` started in a state `S`: what they answer and where they
end. -/
structure Judges {m : Type → Type} [Monad m] {S : Type}
    (T : {α : Type} → m α → S → (α → S → Prop) → Prop) : Prop where
  pure : ∀ {α : Type} {a : α} {s Q}, Q a s → T (Pure.pure a) s Q
  bind : ∀ {α β : Type} {x : m α} {k : α → m β} {s P Q}, T x s P → (∀ a s, P a s → T (k a) s Q) →
    T (x >>= k) s Q

section Judges

variable {m : Type → Type} [Monad m] [LawfulMonad m] {S : Type}
variable {T : {α : Type} → m α → S → (α → S → Prop) → Prop} {s : S}

theorem Judges.mapM {xs : List α} {act : α → m β} (hT : Judges T) (I : List α → List β → S → Prop)
    (hact : ∀ x rest d s, I (x :: rest) d s → T (act x) s fun y s' => I rest (d ++ [y]) s') {d : List β}
    (hs : I xs d s) : T (xs.mapM act) s fun ys s' => I [] (d ++ ys) s' := by
  induction xs generalizing d s with
  | nil => simpa using hT.pure (by simpa using hs)
  | cons x xs ih =>
    rw [List.mapM_cons]
    refine hT.bind (hact x xs d s hs) fun y s1 h1 => ?_
    refine hT.bind (ih h1) fun ys s2 h2 => ?_
    exact hT.pure (by simpa using h2)

/-- A change of all values keeps `I`, which looks at what is still to be replaced and at what was put
in so far. -/
theorem Judges.mapValuesM {f : Frame} {act : Value → m Value} (hT : Judges T)
    (I : List Value → List Value → S → Prop)
    (hact : ∀ v rest done s, I (v :: rest) done s → T (act v) s fun v' s' => I rest (done ++ [v']) s')
    (hs : I f.values [] s) :
    T (f.mapValuesM act) s fun f' s' => I [] f'.values s' ∧ f.Alike f' := by
  unfold Frame.mapValuesM
  refine hT.bind (hT.mapM (fun rest done s => I (rest.filterMap id ++ f.pinned) (done.filterMap id) s ∧
    (done ++ rest).map Option.isSome = f.locals.map Option.isSome) ?_ (d := []) ⟨hs, rfl⟩)
    fun locals s1 h1 => ?_
  · rintro (_ | v) rest done s ⟨h, hl⟩
    · exact hT.pure ⟨by simpa using h, by simpa using hl⟩
    · refine hT.bind (hact v (rest.filterMap id ++ f.pinned) (done.filterMap id) s
        (by simpa using h)) fun v' s' h' => hT.pure ⟨by simpa using h', ?_⟩
      simpa using hl
  obtain ⟨h1, hlocals⟩ := h1
  simp only [List.nil_append, List.append_nil, List.filterMap_nil, Frame.pinned] at h1 hlocals
  -- The stack and the monitors are plain lists: each keeps its length.
  have hlist : ∀ (xs rest done : List Value) (s : S), I (xs ++ rest) done s →
      T (xs.mapM act) s fun ys s' => I rest (done ++ ys) s' ∧ ys.length = xs.length := by
    intro xs rest done s h
    have hmap : T (xs.mapM act) s fun ys s' => I ([] ++ rest) (done ++ ([] ++ ys)) s' ∧
        ([] ++ ys ++ []).length = xs.length := by
      refine hT.mapM (fun todo ys s => I (todo ++ rest) (done ++ ys) s ∧
        (ys ++ todo).length = xs.length) (fun v todo ys s h => ?_) ⟨?_, ?_⟩
      · have := hT.bind (hact v _ _ s h.1) fun v' s' h' => hT.pure (a := v')
          (Q := fun v' s' => I (todo ++ rest) (done ++ (ys ++ [v'])) s' ∧
            (ys ++ [v'] ++ todo).length = xs.length) ⟨by simpa using h', by simpa using h.2⟩
        simpa using this
      · simpa using h
      · simp
    simpa using hmap
  refine hT.bind (hlist _ _ _ _ h1) fun stack s2 h2 => ?_
  refine hT.bind (hlist _ [] _ _ (by simpa using h2.1)) fun monitors s3 h3 => hT.pure ?_
  refine ⟨?_, hlocals, by simpa using h2.2, by simpa using h3.2⟩
  simpa [Frame.values, Frame.pinned] using h3.1

end Judges

theorem ensures_mapValuesM {act : Value → BuildM Value}
    (I : List Value → List Value → Work → Prop) (hact : ∀ v rest done w, I (v :: rest) done w →
      Ensures E (act v) sc w fun v' w' => I rest (done ++ [v']) w') (hw : I f.values [] w) :
    Ensures E (f.mapValuesM act) sc w fun f' w' => I [] f'.values w' ∧ f.Alike f' :=
  have hT : Judges (fun {α} (x : BuildM α) w Q => Ensures E x sc w Q) :=
    ⟨ensures_pure, Ensures.bind⟩
  hT.mapValuesM I hact hw

theorem ensures_mapValuesM_run {act : Value → StateT σ BuildM Value}
    (I : List Value → List Value → σ → Work → Prop) (hact : ∀ v rest done s w, I (v :: rest) done s w →
      Ensures E ((act v).run s) sc w fun r w' => I rest (done ++ [r.1]) r.2 w') {s : σ}
    (hw : I f.values [] s w) :
    Ensures E ((f.mapValuesM act).run s) sc w fun r w' => I [] r.1.values r.2 w' ∧ f.Alike r.1 :=
  have hT : Judges (fun {α} (x : StateT σ BuildM α) (s : σ × Work) Q =>
      Ensures E (x.run s.1) sc s.2 fun r w' => Q r.1 (r.2, w')) :=
    ⟨fun h => by rw [StateT.run_pure]; exact ensures_pure h,
      fun h hk => by rw [StateT.run_bind]; exact h.bind fun r w' hr => hk r.1 _ hr⟩
  hT.mapValuesM (fun rest done s => I rest done s.1 s.2) (fun v rest done s => hact v rest done s.1 s.2)
    (s := (s, w)) hw

end MapValues

end BuildM

end StackLift
