import StackLift.Proofs.Rerun.Actions

/-!
# Tame runs

`parseTame` gives up in front of a body that is not tame. The body is then among those that `parse` comes
to in its place, so a build that parses tame bodies only does not notice the difference: in the logic of
two runs, what `parseTame` does on its own is excused by the bodies that `parse` notes down.
-/
namespace StackLift

open BuildM

/-- The same run again; the first one may stop if the second one comes to a body that is not tame. -/
def Rerun.again (env : Env) (config : Config) : Rerun where
  profile := env.profile
  maxNodeCount := config.maxNodeCount
  maxInliningDepth := config.maxInliningDepth
  view := id
  excused _ l := ∃ b ∈ l, b.isTame = false
  excused_more h hl := by
    obtain ⟨b, hb, ht⟩ := h
    exact ⟨b, hl hb, ht⟩

theorem Rerun.fits_again (env : Env) (config : Config) : (Rerun.again env config).Fits env config :=
  ⟨Nat.le_refl _, Nat.le_refl _, .inl ⟨rfl, rfl⟩, fun _ _ => rfl,
    fun _ _ _ => List.forall₂_same.2 fun p _ => .refl p, .inr rfl⟩

theorem prepare_known {env : Env} {config : Config} {m : MethodId} {sc : Scope} {f : Frame} {g : Graph}
    (h : prepare env config m = .ok (sc, f, g)) : sc.env = env ∧ sc.config = config ∧ sc.Known := by
  obtain ⟨decl, body, hr, -, hs, -⟩ := prepare_ok h
  obtain ⟨hd, hb⟩ := findRoot_ok hr
  obtain ⟨hblocks, rfl, rfl, rfl, rfl, -⟩ := Scope.ofMethod_ok hs
  exact ⟨rfl, rfl, ⟨m, hd⟩, hb, hblocks⟩

section Builds

variable {env : Env} {config : Config} {root : MethodId}

theorem build_ok {built : Built} (h : build env config root = .ok built) : ∃ sc f g x w,
    prepare env config root = .ok (sc, f, g) ∧ parse config.maxInliningDepth f none sc
      { graph := g, table := Table.blank sc.blocks.size } = .ok x w ∧
    finish root w.graph w.report = .ok built := by
  unfold build buildTraced liftRoot at h
  cases hp : prepare env config root with
  | error e =>
    rw [hp] at h
    cases h
  | ok r =>
    obtain ⟨sc, f, g⟩ := r
    rw [hp] at h
    simp only [bind, Except.bind, pure, Except.pure] at h
    split at h
    · cases h
    · next x w hw => exact ⟨sc, f, g, x, w, rfl, Except.ok.inj hw, h⟩
    · cases h

theorem build_fails {e : Error} (h : build env config root = .error e) :
    prepare env config root = .error e ∨ ∃ sc f g, prepare env config root = .ok (sc, f, g) ∧
      ((∃ w, parse config.maxInliningDepth f none sc
        { graph := g, table := Table.blank sc.blocks.size } = .error e w) ∨
      ∃ x w, parse config.maxInliningDepth f none sc
        { graph := g, table := Table.blank sc.blocks.size } = .ok x w ∧
        finish root w.graph w.report = .error e) := by
  unfold build buildTraced liftRoot at h
  cases hp : prepare env config root with
  | error e' =>
    rw [hp] at h
    cases h
    exact .inl rfl
  | ok r =>
    obtain ⟨sc, f, g⟩ := r
    rw [hp] at h
    simp only [bind, Except.bind, pure, Except.pure] at h
    refine .inr ⟨sc, f, g, rfl, ?_⟩
    split at h
    · next hw => cases hw
    · next x w hw => exact .inr ⟨x, w, Except.ok.inj hw, h⟩
    · next e' w hw =>
      cases h
      exact .inl ⟨w, Except.ok.inj hw⟩

end Builds

namespace BuildM

section Tame

variable {env : Env} {config : Config} {root : MethodId} {sc : Scope} {f : Frame} {g : Graph} {w v : Work}
  {nested nested' : Option Parser} {levels : Nat} {n : Option NodeId} {x : Exits} {e : Error}

theorem mirrors_ifTame (hn : (Rerun.again sc.env sc.config).Nests sc.env sc.config nested nested')
    (hsc : sc.Known) (f : Frame) (n : Option NodeId) :
    Mirrors (.again sc.env sc.config) sc (ifTame (parseWith nested f n)) (parseWith nested' f n) := by
  have hfits := Rerun.fits_again sc.env sc.config
  intro w v hwv
  refine ⟨(mirrors_parseWith hfits hn hsc f n).logs v, ?_⟩
  have hif : ifTame (parseWith nested f n) sc w = (if sc.blocks.isTame then parseWith nested f n else
    throw (.budgetExceeded ⟨0⟩ .deadline) : BuildM Exits) sc w := rfl
  rw [hif]
  by_cases htame : sc.blocks.isTame = true
  · rw [if_pos htame]
    exact (mirrors_parseWith hfits hn hsc f n w v hwv).2
  · rw [if_neg htame]
    refine .inl ⟨sc.body, ?_, ?_⟩
    · exact (mirrors_followBlocks hfits hn hsc f n).logs { v with parsed := sc.body :: v.parsed }
        List.mem_cons_self
    · rw [Body.isTame, hsc.blocks]
      exact Bool.eq_false_iff.2 htame

theorem mirrors_parseTame (env : Env) (config : Config) (levels : Nat) :
    (Rerun.again env config).SameParser env config (parseTame levels) (parse levels) := by
  induction levels with
  | zero =>
    rintro sc rfl rfl hsc f n
    exact mirrors_ifTame .none hsc f n
  | succ levels ih =>
    rintro sc rfl rfl hsc f n
    exact mirrors_ifTame (.some ih) hsc f n

theorem parse_of_parseTame (hsc : sc.Known) (h : parseTame levels f n sc w = .ok x v) :
    parse levels f n sc w = .ok x v := by
  have hrun := (mirrors_parseTame sc.env sc.config levels sc rfl rfl hsc f n w w (.refl w)).2
  rw [h] at hrun
  obtain ⟨v', hv, hwv⟩ := hrun
  rw [hwv.eq rfl]
  exact hv

theorem tame_of_parseTame (h : parseTame levels f n sc w = .ok x v) : sc.blocks.Tame := by
  have hif : ∀ {act : BuildM Exits}, ifTame act sc w = .ok x v → sc.blocks.isTame = true := by
    intro act hact
    by_contra htame
    have : ifTame act sc w = .error (.budgetExceeded ⟨0⟩ .deadline) w := by
      show (if sc.blocks.isTame then act else throw (.budgetExceeded ⟨0⟩ .deadline) : BuildM Exits)
        sc w = _
      rw [if_neg htame]
      rfl
    rw [this] at hact
    cases hact
  cases levels <;> exact BlockMap.tame_of_isTame (hif h)

theorem parseTame_of_parse (hp : prepare env config root = .ok (sc, f, g))
    (htame : ∀ body ∈ parsedBodies env config root, body.isTame = true) :
    match parse config.maxInliningDepth f none sc { graph := g, table := Table.blank sc.blocks.size } with
    | .ok x w => parseTame config.maxInliningDepth f none sc
        { graph := g, table := Table.blank sc.blocks.size } = .ok x w
    | .error e _ => ∃ w, parseTame config.maxInliningDepth f none sc
        { graph := g, table := Table.blank sc.blocks.size } = .error e w := by
  obtain ⟨rfl, rfl, hsc⟩ := prepare_known hp
  have hrun := (mirrors_parseTame sc.env sc.config sc.config.maxInliningDepth sc rfl rfl hsc f none
    { graph := g, table := Table.blank sc.blocks.size } _ (.refl _)).2
  have hlog : parsedBodies sc.env sc.config root = parsedIn (parse sc.config.maxInliningDepth f none sc
      { graph := g, table := Table.blank sc.blocks.size }) := by
    rw [parsedBodies, liftRoot, hp]
    rfl
  rw [hlog] at htame
  cases hfirst : parseTame sc.config.maxInliningDepth f none sc
      { graph := g, table := Table.blank sc.blocks.size } with
  | ok x w => rw [parse_of_parseTame hsc hfirst]
  | error e w =>
    rw [hfirst] at hrun
    rcases hrun with ⟨b, hb, ht⟩ | ⟨v, hv⟩
    · exact absurd (htame b hb) (by rw [ht]; nofun)
    · rw [show parse sc.config.maxInliningDepth f none sc _ = _ from hv]
      exact ⟨w, rfl⟩

end Tame

end BuildM

end StackLift
