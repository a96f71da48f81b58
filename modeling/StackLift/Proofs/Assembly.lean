import Mathlib.Data.List.Induction
import Mathlib.Data.List.Nodup
import Mathlib.Data.List.TakeWhile
import StackLift.Code.Assembler

/-!
# Assembling in two passes

What an assembler has written is read off its steps here, without running it. A first pass over the
steps finds the labels and where they are defined, a second one puts positions in the place of labels.
`reference` is the two passes with all their errors, and the assembler agrees with it on every sequence
of steps. It knows of no placeholders and no fixups: that every fixup finds its branch is proved.

**Fixups.** Working through the fixups leaves the code resolved up to the instruction of the last one
and with placeholders from there on. So the next fixup finds the instruction that it was made for.

**Labels.** A label stands for the number of instructions written before its definition, be that before
or after its uses, or at the end of the code. An operand that is a position stays as it is.

**Results.**
* `assemble_eq_reference`: the assembler answers what the two passes answer. A body is returned iff no
  label is defined twice, every label that is named is defined and the resolved body is valid. No fixup
  meets an instruction that is not a branch.
-/
namespace StackLift

/-! ## What the steps say -/

namespace Instruction

variable {τ υ φ : Type}

/-- Renames the targets and keeps the rest. -/
def retarget (f : τ → υ) : Instruction τ → Instruction υ
  | .ifCompare c t => .ifCompare c (f t)
  | .ifZero c t => .ifZero c (f t)
  | .ifNull t => .ifNull (f t)
  | .ifNonNull t => .ifNonNull (f t)
  | .goto t => .goto (f t)
  | .switch ks ts d => .switch ks (ts.map f) (f d)
  | .nop => .nop
  | .const v => .const v
  | .constNull => .constNull
  | .load s => .load s
  | .store s => .store s
  | .pop => .pop
  | .dup => .dup
  | .swap => .swap
  | .arith op => .arith op
  | .invoke k m => .invoke k m
  | .new t => .new t
  | .checkCast t => .checkCast t
  | .instanceOf t => .instanceOf t
  | .throw => .throw
  | .ret => .ret
  | .retValue => .retValue
  | .monitorEnter => .monitorEnter
  | .monitorExit => .monitorExit

theorem mapTargets_pure (f : τ → υ) (i : Instruction τ) :
    (i.mapTargets fun t => (pure (f t) : Id υ)).run = i.retarget f := by
  cases i <;> first | rfl | simp [mapTargets, retarget]

theorem retarget_retarget (g : υ → φ) (f : τ → υ) (i : Instruction τ) :
    (i.retarget f).retarget g = i.retarget (g ∘ f) := by
  cases i <;> first | rfl | simp [retarget]

theorem retarget_id (i : Instruction τ) : i.retarget id = i := by
  cases i <;> first | rfl | simp [retarget]

theorem retarget_congr {f g : τ → υ} {i : Instruction τ} (h : ∀ t ∈ i.branchTargets, f t = g t) :
    i.retarget f = i.retarget g := by
  cases i <;> simp_all [retarget, branchTargets]

end Instruction

/-- The labels that a target names: one, or none. -/
def Target.names : Target → List String
  | .label l => [l]
  | .pos _ => []

/-- The labels that the instruction names, from left to right. -/
def Instruction.names (i : Instruction Target) : List String := i.branchTargets.flatMap Target.names

def PendingHandler.names (h : PendingHandler) : List String := [h.start, h.stop, h.entry]

namespace AssemblyStep

def instruction? : AssemblyStep → Option (Instruction Target)
  | .emit i => some i
  | _ => none

def label? : AssemblyStep → Option String
  | .label l => some l
  | _ => none

def handler? : AssemblyStep → Option PendingHandler
  | .handler h => some h
  | _ => none

/-- The number of locals that the step asks for. -/
def demand : AssemblyStep → Nat
  | .locals n => n
  | .emit i => (i.slot?.map fun s => min (s + 1) 65535).getD 0
  | _ => 0

/-! ## The two passes -/

variable (steps : List AssemblyStep)

/-- The instructions, in the order in which they are written. -/
def emitted : List (Instruction Target) := steps.filterMap instruction?

/-- The labels, in the order in which they are defined. -/
def defined : List String := steps.filterMap label?

/-- The handlers, in the order in which they are registered. -/
def registered : List PendingHandler := steps.filterMap handler?

/-- The labels that are named: by the instructions, then by the handlers. -/
def named : List String :=
  (emitted steps).flatMap Instruction.names ++ (registered steps).flatMap PendingHandler.names

/-- The number of instructions written before `l` is defined. -/
def place (l : String) : Nat := (emitted (steps.takeWhile (· ≠ .label l))).length

def positionOf : Target → Position
  | .label l => ⟨place steps l⟩
  | .pos p => p

def resolvedHandler (h : PendingHandler) : Handler :=
  ⟨⟨place steps h.start⟩, ⟨place steps h.stop⟩, ⟨place steps h.entry⟩, h.catchType⟩

/-- The body with every label in place. -/
def resolved : Body where
  code := ((emitted steps).map (·.retarget (positionOf steps))).toArray
  maxLocals := (steps.map demand).foldl max 0
  handlers := (registered steps).map (resolvedHandler steps)

/-- The first label that was there before. -/
def firstRepeat? (ls : List String) : Option String :=
  (ls.zipIdx.find? fun (l, n) => l ∈ ls.take n).map (·.1)

/-- `x`, if all of `ls` are among `known`; else the error of the first that is not. -/
def provided {β : Type} (known ls : List String) (x : β) : Except Error β :=
  match ls.find? (· ∉ known) with
  | some l => .error (.undefinedLabel l)
  | none => .ok x

/-- What assembling the steps comes to. -/
def reference : Except Error Body :=
  match firstRepeat? (defined steps) with
  | some l => .error (.malformed (.duplicateLabel l))
  | none => do
    let body ← provided (defined steps) (named steps) (resolved steps)
    body.validate
    return body

/-! ## Repeated labels -/

theorem firstRepeat?_concat (ls : List String) (l : String) :
    firstRepeat? (ls ++ [l]) = (firstRepeat? ls).or (if l ∈ ls then some l else none) := by
  have hold : ls.zipIdx.find? (fun x => decide (x.1 ∈ (ls ++ [l]).take x.2)) =
      ls.zipIdx.find? fun x => decide (x.1 ∈ ls.take x.2) := by
    rw [← List.head?_filter, ← List.head?_filter]
    congr 1
    refine List.filter_congr fun x hx => ?_
    have hlt := List.snd_lt_of_mem_zipIdx hx
    rw [List.take_append_of_le_length (by omega)]
  simp only [firstRepeat?, List.zipIdx_append, List.find?_append, Option.map_or, hold]
  by_cases hl : l ∈ ls <;> simp [hl]

theorem firstRepeat?_eq_none_iff (ls : List String) : firstRepeat? ls = none ↔ ls.Nodup := by
  induction ls using List.reverseRecOn with
  | nil => simp [firstRepeat?]
  | append_singleton ls l ih =>
    rw [firstRepeat?_concat, Option.or_eq_none_iff, ih, List.nodup_append]
    by_cases hl : l ∈ ls
    · simp only [hl, if_true, reduceCtorEq, and_false, false_iff]
      exact fun h => h.2.2 l hl l (by simp) rfl
    · simp only [hl, if_false, and_true, List.nodup_singleton, true_and, List.mem_singleton]
      refine ⟨fun h => ⟨h, ?_⟩, fun h => h.1⟩
      rintro a ha b rfl rfl
      exact hl ha

/-! ## Labels that are not defined -/

section Provided

variable {α β γ : Type} {known ls ls' : List String} {x : β} {y : γ} {g : β → Except Error γ}

theorem provided_bind
    (hg : g x = provided known ls' y) : (provided known ls x >>= g) = provided known (ls ++ ls') y := by
  unfold provided at hg ⊢
  rw [List.find?_append]
  cases ls.find? (· ∉ known) with
  | some l => rfl
  | none => exact hg

theorem provided_map (hg : g x = .ok y) : (provided known ls x >>= g) = provided known ls y := by
  simpa using provided_bind (show g x = provided known [] y from hg)

theorem provided_mapM {r : α → Except Error β} {names : α → List String} {f : α → β}
    (h : ∀ x, r x = provided known (names x) (f x)) (xs : List α) :
    xs.mapM r = provided known (xs.flatMap names) (xs.map f) := by
  induction xs with
  | nil => rfl
  | cons x xs ih =>
    rw [List.mapM_cons, h, ih, List.flatMap_cons, List.map_cons]
    exact provided_bind (provided_map rfl)

end Provided

end AssemblyStep

/-! ## Assemblers -/

namespace Assembler

open AssemblyStep

variable {a : Assembler} {steps : List AssemblyStep} {l : String}

/-- The fixups of instructions that are written from index `n` on. -/
def fixupsFrom (n : Nat) (is : List (Instruction Target)) : List Fixup :=
  (is.zipIdx n).flatMap fun (i, k) => (i.fixup? k).toList

/-- The assembler holds what the steps say. -/
structure Wrote (a : Assembler) (steps : List AssemblyStep) : Prop where
  code : a.code.toList = (emitted steps).map (·.retarget Target.placeholder)
  fixups : a.fixups.toList = fixupsFrom 0 (emitted steps)
  handlers : a.handlers.toList = registered steps
  maxLocals : a.maxLocals = (steps.map demand).foldl max 0
  duplicate : a.duplicate = firstRepeat? (defined steps)
  known : ∀ l, (a.labels.lookup l).isSome = true ↔ l ∈ defined steps
  labels : (defined steps).Nodup → ∀ l ∈ defined steps, a.labels.lookup l = some ⟨place steps l⟩

theorem mem_defined : l ∈ defined steps ↔ .label l ∈ steps := by
  simp only [defined, List.mem_filterMap]
  constructor
  · rintro ⟨s, hs, hl⟩
    cases s <;> cases hl
    exact hs
  · exact fun h => ⟨_, h, rfl⟩

theorem place_concat (s : AssemblyStep) (h : l ∈ defined steps) :
    place (steps ++ [s]) l = place steps l := by
  rw [place, place, List.takeWhile_append, if_neg]
  intro hlen
  have hpre := List.takeWhile_prefix (l := steps) (· ≠ AssemblyStep.label l)
  have := List.mem_takeWhile_imp (hpre.eq_of_length hlen ▸ mem_defined.1 h)
  simp at this

theorem place_fresh (h : l ∉ defined steps) :
    place (steps ++ [.label l]) l = (emitted steps).length := by
  have hall : steps.takeWhile (· ≠ AssemblyStep.label l) = steps := by
    refine List.takeWhile_eq_self_iff.2 fun x hx => ?_
    have : x ≠ .label l := fun hxl => h (mem_defined.2 (hxl ▸ hx))
    simpa using this
  rw [place, List.takeWhile_append, hall, if_pos rfl]
  simp

theorem step_writes (a : Assembler) (s : AssemblyStep) :
    (a.step s).code.toList = a.code.toList ++ s.instruction?.toList.map (·.retarget Target.placeholder) ∧
      (a.step s).fixups.toList = a.fixups.toList ++ fixupsFrom a.code.size s.instruction?.toList ∧
      (a.step s).handlers.toList = a.handlers.toList ++ s.handler?.toList ∧
      (a.step s).maxLocals = max a.maxLocals s.demand := by
  cases s with
  | emit i =>
    cases hs : i.slot? <;>
      simp [Assembler.step, emit, locals, instruction?, handler?, demand, hs, fixupsFrom,
        Instruction.mapTargets_pure, -Id.run_pure]
  | label l => simp [Assembler.step, label, instruction?, handler?, demand, fixupsFrom]
  | locals n => simp [Assembler.step, locals, instruction?, handler?, demand, fixupsFrom]
  | handler h => simp [Assembler.step, handler, instruction?, handler?, demand, fixupsFrom]

theorem step_labels (a : Assembler) {s : AssemblyStep} (hs : s.label? = none) :
    (a.step s).labels = a.labels ∧ (a.step s).duplicate = a.duplicate := by
  cases s with
  | emit i => cases hi : i.slot? <;> simp [Assembler.step, emit, locals, hi]
  | label l => cases hs
  | locals n => exact ⟨rfl, rfl⟩
  | handler h => exact ⟨rfl, rfl⟩

theorem defined_concat (steps : List AssemblyStep) (s : AssemblyStep) :
    defined (steps ++ [s]) = defined steps ++ s.label?.toList := by
  cases hs : s.label? <;> simp [defined, hs]

theorem Wrote.step (h : Wrote a steps) (s : AssemblyStep) : Wrote (a.step s) (steps ++ [s]) := by
  obtain ⟨hcode, hfixups, hhandlers, hlocals⟩ := step_writes a s
  have hsize : a.code.size = (emitted steps).length := by
    rw [← Array.length_toList, h.code, List.length_map]
  have hlabels : (a.step s).duplicate = firstRepeat? (defined (steps ++ [s])) ∧
      (∀ l, ((a.step s).labels.lookup l).isSome = true ↔ l ∈ defined (steps ++ [s])) ∧
      ((defined (steps ++ [s])).Nodup → ∀ l ∈ defined (steps ++ [s]),
        (a.step s).labels.lookup l = some ⟨place (steps ++ [s]) l⟩) := by
    cases hs : s.label? with
    | none =>
      obtain ⟨hl, hd⟩ := step_labels a hs
      rw [hl, hd, defined_concat, hs, Option.toList_none, List.append_nil]
      refine ⟨h.duplicate, h.known, fun hn l hl => ?_⟩
      rw [place_concat s hl, h.labels hn l hl]
    | some l =>
      obtain rfl : s = .label l := by
        cases s <;> cases hs
        rfl
      have hlookup : ∀ x, (a.step (.label l)).labels.lookup x =
          if x = l then some a.position else a.labels.lookup x := by
        intro x
        simp only [Assembler.step, label, List.lookup_cons]
        by_cases hx : x = l
        · simp [hx]
        · simp only [beq_eq_false_iff_ne.2 hx, if_neg hx]
      rw [defined_concat, hs, Option.toList_some]
      refine ⟨?_, fun x => ?_, fun hn x hx => ?_⟩
      · rw [firstRepeat?_concat, ← h.duplicate]
        simp only [Assembler.step, label, h.known]
        cases a.duplicate <;> rfl
      · rw [hlookup]
        by_cases hx : x = l <;> simp [hx, h.known]
      · rw [hlookup]
        obtain ⟨hn, -, hfresh⟩ := List.nodup_append.1 hn
        by_cases hxl : x = l
        · subst hxl
          have hfresh : x ∉ defined steps := fun hm => hfresh x hm x (by simp) rfl
          rw [if_pos rfl, place_fresh hfresh, position, hsize]
        · have hx : x ∈ defined steps := by simpa [hxl] using hx
          rw [if_neg hxl, place_concat _ hx, h.labels hn x hx]
  have hemitted : emitted (steps ++ [s]) = emitted steps ++ s.instruction?.toList := by
    cases hs : s.instruction? <;> simp [emitted, hs]
  refine ⟨?_, ?_, ?_, ?_, hlabels.1, hlabels.2.1, hlabels.2.2⟩
  · rw [hcode, h.code, hemitted, List.map_append]
  · rw [hfixups, h.fixups, hemitted, hsize]
    simp only [fixupsFrom, List.zipIdx_append, List.flatMap_append, Nat.zero_add]
  · cases hs : s.handler? <;> simp [hhandlers, h.handlers, registered, hs]
  · simp [hlocals, h.maxLocals]

theorem wrote (steps : List AssemblyStep) : Wrote (steps.foldl Assembler.step {}) steps := by
  induction steps using List.reverseRecOn with
  | nil => exact ⟨rfl, rfl, rfl, rfl, rfl, by simp [defined], by simp [defined]⟩
  | append_singleton steps s ih =>
    rw [List.foldl_append]
    exact ih.step s

theorem Wrote.resolveLabel (h : Wrote a steps) (hn : (defined steps).Nodup) (l : String) :
    a.resolveLabel l = provided (defined steps) [l] ⟨place steps l⟩ := by
  unfold Assembler.resolveLabel provided
  by_cases hl : l ∈ defined steps
  · simp [hl, h.labels hn l hl]
  · have hnone := Option.not_isSome_iff_eq_none.1 fun hc => hl ((h.known l).1 hc)
    simp [hl, hnone]

theorem Wrote.resolve (h : Wrote a steps) (hn : (defined steps).Nodup) (t : Target) :
    a.resolve t = provided (defined steps) t.names (positionOf steps t) := by
  cases t with
  | label l => exact h.resolveLabel hn l
  | pos p => rfl

theorem Wrote.resolveHandler (h : Wrote a steps) (hn : (defined steps).Nodup) (x : PendingHandler) :
    a.resolveHandler x = provided (defined steps) x.names (resolvedHandler steps x) := by
  simp only [Assembler.resolveHandler, h.resolveLabel hn]
  exact provided_bind (provided_bind (provided_map rfl))

/-! ## The loop over the fixups -/

theorem resolved_of_no_fixup (steps : List AssemblyStep) {i : Instruction Target} {n : Nat}
    (h : i.fixup? n = none) :
    i.names = [] ∧ i.retarget (positionOf steps) = i.retarget Target.placeholder := by
  have hpos : ∀ t ∈ i.branchTargets, ∃ p, t = .pos p := by
    intro t ht
    have hnone : t.label? = none := by
      cases i <;> simp_all [Instruction.fixup?, Instruction.branchTargets]
      grind
    cases t with
    | label l => cases hnone
    | pos p => exact ⟨p, rfl⟩
  refine ⟨List.flatMap_eq_nil_iff.2 fun t ht => ?_, Instruction.retarget_congr fun t ht => ?_⟩
  all_goals
    obtain ⟨p, rfl⟩ := hpos t ht
    rfl

variable {code : Array (Instruction Position)} {n : Nat}

theorem Wrote.patch_single (h : Wrote a steps) (hn : (defined steps).Nodup) {l : String}
    {i j : Instruction Position} (hi : code[n]? = some i) (haim : i.aim? ⟨place steps l⟩ = some j) :
    a.patch code (.single n l) = provided (defined steps) [l] (code.setIfInBounds n j) := by
  rw [Assembler.patch, h.resolveLabel hn]
  refine provided_map ?_
  simp only [hi, Option.bind_some, haim]
  rfl

theorem Wrote.patch (h : Wrote a steps) (hn : (defined steps).Nodup) {i : Instruction Target}
    {x : Fixup} (hx : i.fixup? n = some x) (hi : code[n]? = some (i.retarget Target.placeholder)) :
    a.patch code x = provided (defined steps) i.names
      (code.setIfInBounds n (i.retarget (positionOf steps))) := by
  cases i with
  | ifCompare c t => cases t <;> cases hx; exact h.patch_single hn hi rfl
  | ifZero c t => cases t <;> cases hx; exact h.patch_single hn hi rfl
  | ifNull t => cases t <;> cases hx; exact h.patch_single hn hi rfl
  | ifNonNull t => cases t <;> cases hx; exact h.patch_single hn hi rfl
  | goto t => cases t <;> cases hx; exact h.patch_single hn hi rfl
  | switch ks ts d =>
    obtain rfl : x = .switch n ts d := by
      simp only [Instruction.fixup?] at hx
      split at hx <;> cases hx
      rfl
    have hnames : (Instruction.switch ks ts d).names = ts.flatMap Target.names ++ d.names := by
      simp [Instruction.names, Instruction.branchTargets]
    rw [Assembler.patch, provided_mapM (h.resolve hn), h.resolve hn, hnames]
    refine provided_bind (provided_map ?_)
    simp only [hi, Instruction.retarget]
    rfl
  | _ => cases hx

theorem Wrote.patch_all (h : Wrote a steps) (hn : (defined steps).Nodup)
    (is : List (Instruction Target)) : ∀ done : List (Instruction Position),
      (fixupsFrom done.length is).foldlM a.patch
          (done ++ is.map (·.retarget Target.placeholder)).toArray =
        provided (defined steps) (is.flatMap Instruction.names)
          (done ++ is.map (·.retarget (positionOf steps))).toArray := by
  induction is with
  | nil => exact fun _ => rfl
  | cons i is ih =>
    intro done
    have hcons : fixupsFrom done.length (i :: is) =
        (i.fixup? done.length).toList ++ fixupsFrom (done.length + 1) is := by
      simp [fixupsFrom]
    have hnext := ih (done ++ [i.retarget (positionOf steps)])
    simp only [List.length_append, List.length_singleton, List.append_assoc,
      List.singleton_append] at hnext
    rw [hcons, List.flatMap_cons, List.map_cons, List.map_cons]
    cases hx : i.fixup? done.length with
    | none =>
      obtain ⟨hnames, hsame⟩ := resolved_of_no_fixup steps hx
      rw [hnames, ← hsame]
      exact hnext
    | some x =>
      rw [Option.toList_some, List.singleton_append, List.foldlM_cons, h.patch hn hx (by simp)]
      refine provided_bind ?_
      rw [← hnext]
      simp

theorem Wrote.finish (h : Wrote a steps) : a.finish = reference steps := by
  unfold Assembler.finish reference
  rw [h.duplicate]
  cases hr : firstRepeat? (defined steps) with
  | some l => rfl
  | none =>
    have hn := (firstRepeat?_eq_none_iff _).1 hr
    have hcode : a.fixups.toList.foldlM a.patch a.code =
        provided (defined steps) ((emitted steps).flatMap Instruction.names) (resolved steps).code := by
      have harray : a.code = ((emitted steps).map (·.retarget Target.placeholder)).toArray := by
        rw [← h.code, Array.toArray_toList]
      rw [h.fixups, harray]
      exact h.patch_all hn (emitted steps) []
    simp only [hcode, provided_mapM (h.resolveHandler hn), h.handlers, h.maxLocals, named, provided,
      List.find?_append]
    cases ((emitted steps).flatMap Instruction.names).find? (· ∉ defined steps) with
    | some l => rfl
    | none => cases ((registered steps).flatMap PendingHandler.names).find? (· ∉ defined steps) <;> rfl

end Assembler

namespace AssemblyStep

theorem reference_eq_ok_iff {steps : List AssemblyStep} {body : Body} :
    reference steps = .ok body ↔ ((defined steps).Nodup ∧ (∀ l ∈ named steps, l ∈ defined steps) ∧
      (resolved steps).validate = .ok ()) ∧ body = resolved steps := by
  have hnamed : (named steps).find? (· ∉ defined steps) = none ↔
    ∀ l ∈ named steps, l ∈ defined steps := by
    simp
  rw [← hnamed, ← firstRepeat?_eq_none_iff]
  unfold reference provided
  cases firstRepeat? (defined steps) with
  | some l => simp
  | none =>
    cases (named steps).find? (· ∉ defined steps) with
    | some l => simp [bind, Except.bind]
    | none =>
      cases hv : (resolved steps).validate <;>
        simp [bind, Except.bind, pure, Except.pure, hv, eq_comm]

theorem defect?_ne_fixup (b : Body) (i : Option (Instruction Position)) :
    b.defect? ≠ some (.fixupOnNonBranch i) := by
  intro h
  simp only [Body.defect?, Option.or_eq_some_iff] at h
  rcases h with (h | ⟨-, h⟩) | ⟨-, h⟩
  · obtain ⟨⟨j, p⟩, -, hj⟩ := List.exists_of_findSome?_eq_some h
    simp only [Body.instructionDefect?] at hj
    grind
  · simp only [Body.endDefect?] at h
    grind
  · obtain ⟨x, -, hx⟩ := List.exists_of_findSome?_eq_some h
    simp only [Body.handlerDefect?] at hx
    grind

theorem reference_ne_fixup {steps : List AssemblyStep} (i : Option (Instruction Position)) :
    reference steps ≠ .error (.malformed (.fixupOnNonBranch i)) := by
  unfold reference provided Body.validate
  have hdefect := defect?_ne_fixup (resolved steps) i
  cases firstRepeat? (defined steps) with
  | some l => simp
  | none =>
    cases (named steps).find? (· ∉ defined steps) with
    | some l => simp [bind, Except.bind]
    | none =>
      cases hd : (resolved steps).defect? with
      | none => simp [bind, Except.bind, pure, Except.pure, hd]
      | some d =>
        rintro h
        simp only [bind, Except.bind, hd, Except.error.injEq, Error.malformed.injEq] at h
        exact hdefect (h ▸ hd)

/-- Assembling is resolving in two passes. In the code that is returned the operands of a switch stay
paired, and an instruction without labels is as it was written. Every fixup meets its branch. -/
theorem assemble_eq_reference (steps : List AssemblyStep) : assemble steps = reference steps ∧
      ((∃ body, assemble steps = .ok body) ↔ (defined steps).Nodup ∧
        (∀ l ∈ named steps, l ∈ defined steps) ∧ (resolved steps).validate = .ok ()) ∧
      (∀ body, assemble steps = .ok body → body = resolved steps ∧
        (∀ (n : Nat) (r : Instruction Position), (emitted steps)[n]? = some (r.retarget .pos) →
          body.code[n]? = some r) ∧
        ∀ (n : Nat) ks ts d, (emitted steps)[n]? = some (.switch ks ts d) →
          body.code[n]? = some (.switch ks (ts.map (positionOf steps)) (positionOf steps d))) ∧
      ∀ i, assemble steps ≠ .error (.malformed (.fixupOnNonBranch i)) := by
  have heq : assemble steps = reference steps := (Assembler.wrote steps).finish
  have hcode : ∀ {n : Nat} {i}, (emitted steps)[n]? = some i →
      (resolved steps).code[n]? = some (i.retarget (positionOf steps)) := fun {n i} hi => by
    simp [resolved, hi]
  refine ⟨heq, ?_, fun body hb => ?_, fun i => ?_⟩
  · simp only [heq, reference_eq_ok_iff, exists_and_left, exists_eq, and_true]
  · obtain ⟨-, rfl⟩ := reference_eq_ok_iff.1 (heq ▸ hb)
    refine ⟨rfl, fun n r hr => ?_, fun n ks ts d hs => hcode hs⟩
    rw [hcode hr, Instruction.retarget_retarget]
    exact congrArg some r.retarget_id
  · rw [heq]
    exact reference_ne_fixup i

/-- A loop over a switch, with labels that are defined later, at the end and before, a position for a
target and a handler. -/
def dispatcher : List AssemblyStep :=
  [.locals 1, .label "next", .emit (.load 0),
    .emit (.switch [1, 2] [.label "call", .label "next"] (.label "leave")),
    .label "call", .emit (.invoke .static ⟨7⟩), .emit (.goto (.pos ⟨0⟩)),
    .label "caught", .emit (.ifNull (.label "leave")), .emit (.goto (.label "next")),
    .label "leave", .emit .ret, .label "end",
    .handler ⟨"call", "caught", "caught", none⟩, .handler ⟨"next", "end", "leave", some ⟨3⟩⟩]

theorem assemble_eq_reference_dispatcher : assemble dispatcher = .ok
      { code := #[.load 0, .switch [1, 2] [⟨2⟩, ⟨0⟩] ⟨6⟩, .invoke .static ⟨7⟩, .goto ⟨0⟩, .ifNull ⟨6⟩,
          .goto ⟨0⟩, .ret]
        maxLocals := 1
        handlers := [⟨⟨2⟩, ⟨4⟩, ⟨4⟩, none⟩, ⟨⟨0⟩, ⟨7⟩, ⟨6⟩, some ⟨3⟩⟩] } ∧
      assemble (dispatcher.erase (.label "leave")) = .error (.undefinedLabel "leave") ∧
      assemble (.label "end" :: dispatcher) = .error (.malformed (.duplicateLabel "end")) := by
  refine ⟨?_, ?_, ?_⟩
  · rw [(assemble_eq_reference _).1]
    decide +kernel
  · rw [(assemble_eq_reference _).1]
    decide +kernel
  · rw [(assemble_eq_reference _).1]
    decide +kernel

end AssemblyStep

end StackLift
