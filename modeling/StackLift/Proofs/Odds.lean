import Mathlib
import StackLift.Profile

/-!
# Even odds

Without data, every successor of a switch has the same probability, one over their number. It is never
zero: rounding a positive number with enough bits gives a normal number, and so does dividing one by
such a number, as long as the exponents stay in range.

`IsNormal u lo hi` says that `u` is a positive normal number with an exponent from `lo` to `hi`, where
the mantissa counts as a whole number of 53 bits.
-/
namespace StackLift.Odds

open Float.Model Float.Model.UnpackedFloat

/-- A positive number whose mantissa has all of its bits. -/
def IsNormal (u : UnpackedFloat) (lo hi : Int) : Prop :=
  ∃ m e h, u = .finite .positive m e h ∧ m.log2 = 52 ∧ lo ≤ e ∧ e ≤ hi

/-! ## Rounding -/

theorem shiftRight_mantissa (em : ExtendedMantissa) (k : Nat) :
    (em >>> k).mantissa = em.mantissa / 2 ^ k := by
  induction k with
  | zero => simp [HShiftRight.hShiftRight, Nat.repeat]
  | succ k ih =>
    show (em >>> k).mantissa / 2 = _
    rw [ih, Nat.div_div_eq_div_mul, ← Nat.pow_succ]

theorem roundedMantissa_bounds (em : ExtendedMantissa) :
    em.mantissa ≤ em.roundedMantissa ∧ em.roundedMantissa ≤ em.mantissa + 1 := by
  obtain ⟨m, r, s⟩ := em
  cases r <;> cases s <;> simp [ExtendedMantissa.roundedMantissa, ExtendedMantissa.accuracy,
    Accuracy.roundToNearestEven]
  omega

variable {e e' lo hi f : Int} {m n m' k : Nat} {a : Accuracy} {u : UnpackedFloat}

theorem targetExponent_eq (he : -1074 ≤ e + m.log2 - 52) :
    Format.binary64.targetExponent (totalExponent m e) = e + m.log2 - 52 := by
  simp only [Format.targetExponent, totalExponent, Format.mantissaBits, Format.minExponent]
  omega

theorem shiftToTargetExponent_eq (hm : 52 ≤ m.log2) (he : -1074 ≤ e + m.log2 - 52) :
    shiftToTargetExponent Format.binary64 m e a =
      (ExtendedMantissa.ofMantissaAndAccuracy m a >>> (m.log2 - 52), e + m.log2 - 52) := by
  have hk : (e + m.log2 - 52 - e).toNat = m.log2 - 52 := by omega
  rw [shiftToTargetExponent, targetExponent_eq he, shiftToExponent, hk, Prod.mk.injEq]
  exact ⟨rfl, by omega⟩

theorem ofMantissaAndAccuracy_mantissa (m : Nat) (a : Accuracy) :
    (ExtendedMantissa.ofMantissaAndAccuracy m a).mantissa = m := by
  cases a with
  | exact => rfl
  | inexact o => cases o <;> rfl

theorem div_log2_bounds (hm : 52 ≤ m.log2) :
    2 ^ 52 ≤ m / 2 ^ (m.log2 - 52) ∧ m / 2 ^ (m.log2 - 52) < 2 ^ 53 := by
  have hne : m ≠ 0 := by
    rintro rfl
    simp at hm
  have hlo : 2 ^ 52 * 2 ^ (m.log2 - 52) ≤ m := by
    rw [← Nat.pow_add, show 52 + (m.log2 - 52) = m.log2 by omega]
    exact Nat.log2_self_le hne
  have hhi : m < 2 ^ 53 * 2 ^ (m.log2 - 52) := by
    rw [← Nat.pow_add, show 53 + (m.log2 - 52) = m.log2 + 1 by omega]
    exact Nat.lt_log2_self
  exact ⟨(Nat.le_div_iff_mul_le (Nat.two_pow_pos _)).2 hlo,
    (Nat.div_lt_iff_lt_mul (Nat.two_pow_pos _)).2 hhi⟩

theorem isNormal_roundWithAccuracy (hm : 52 ≤ m.log2) (he : -1074 ≤ e + m.log2 - 52) :
    IsNormal (roundWithAccuracy Format.binary64 .positive m e a) (e + m.log2 - 52) (e + m.log2 - 51) := by
  have hfirst := shiftToTargetExponent_eq (a := a) hm he
  have hround := roundedMantissa_bounds (ExtendedMantissa.ofMantissaAndAccuracy m a >>> (m.log2 - 52))
  rw [shiftRight_mantissa, ofMantissaAndAccuracy_mantissa] at hround
  have hcut := div_log2_bounds hm
  unfold roundWithAccuracy
  rw [hfirst]
  dsimp only
  generalize ExtendedMantissa.roundedMantissa _ = r at hround
  have hlo : 2 ^ 52 ≤ r := by omega
  have hhi : r ≤ 2 ^ 53 := by omega
  have hlog : 52 ≤ r.log2 := (Nat.le_log2 (by omega)).2 hlo
  rw [shiftToTargetExponent_eq hlog (by omega)]
  dsimp only
  rw [shiftRight_mantissa, ofMantissaAndAccuracy_mantissa]
  have hcut' := div_log2_bounds hlog
  have hle : r.log2 ≤ 53 := by
    by_contra hlt
    have := (Nat.le_log2 (n := r) (k := 54) (by omega)).1 (by omega)
    omega
  rw [dif_neg (by omega)]
  exact ⟨_, _, _, rfl, (Nat.log2_eq_iff (by omega)).2 hcut', by omega, by omega⟩

/-! ## Storing -/

theorem finite_congr {s : Sign} {h : 0 < m} {h' : 0 < m'} (hm : m = m')
    (he : e = e') : UnpackedFloat.finite s m e h = .finite s m' e' h' := by
  subst hm he
  rfl

theorem toNat_implicit (hlo : 2 ^ 52 ≤ m) (hhi : m < 2 ^ 53) :
    (1#1 ++ BitVec.ofNat 52 m).toNat = m := by
  rw [BitVec.toNat_append, BitVec.toNat_ofNat, BitVec.toNat_ofNat, Nat.shiftLeft_eq,
    ← Nat.shiftLeft_eq, ← Nat.shiftLeft_add_eq_or_of_lt (Nat.mod_lt _ (by decide)), Nat.shiftLeft_eq]
  omega

theorem unpack_pack (h : IsNormal u lo hi) (hlo : -1074 ≤ lo)
    (hhi : hi ≤ 970) : (pack u).unpack = u := by
  obtain ⟨m, e, hm, rfl, hlog, hle, hge⟩ := h
  obtain ⟨hm1, hm2⟩ := (Nat.log2_eq_iff (by omega)).1 hlog
  obtain ⟨b, hb⟩ : ∃ b : Nat, (e + 1075).toNat = b := ⟨_, rfl⟩
  have hpack : UnpackedFloat.pack Format.binary64 (.finite .positive m e hm) =
      packComponents Format.binary64 .positive (BitVec.ofNat 11 b) (BitVec.ofNat 52 m) := by
    have hbias : (e + (Format.binary64.exponentBias : Int) + (52 : Nat)).toNat = b := by
      rw [show (Format.binary64.exponentBias : Int) = 1023 from rfl]
      omega
    have hfits : ¬ 2 ^ 11 ≤ b + 1 := by omega
    have hfull : m.log2 + 1 = Format.binary64.mantissaBits := by rw [hlog]; rfl
    rw [UnpackedFloat.pack]
    dsimp only
    rw [hbias, if_neg hfits, if_pos hfull]
  show UnpackedFloat.unpack Format.binary64 (UnpackedFloat.pack Format.binary64 _) = _
  have hne : ∀ c : BitVec 11, b ≠ c.toNat → BitVec.ofNat 11 b ≠ c := by
    intro c hbc heq
    have := congrArg BitVec.toNat heq
    rw [BitVec.toNat_ofNat, Nat.mod_eq_of_lt (by omega)] at this
    exact hbc this
  have hfinite : BitVec.ofNat 11 b ≠ -1#11 := hne _ (by rw [show (-1#11).toNat = 2047 from rfl]; omega)
  have hnormal : BitVec.ofNat 11 b ≠ 0#11 := hne _ (by rw [show (0#11).toNat = 0 from rfl]; omega)
  rw [hpack]
  simp only [UnpackedFloat.unpack, unpackExponent_packComponents, unpackMantissa_packComponents,
    unpackSign_packComponents, Sign.ofBitVec_toBitVec, hfinite, hnormal, if_false]
  refine finite_congr (toNat_implicit hm1 hm2) ?_
  rw [BitVec.toNat_ofNat, show (Format.binary64.exponentBias : Int) = 1023 from rfl]
  omega

/-! ## Division -/

theorem unpack_one : (1.0 : Float).toModel.unpack = .finite .positive (2 ^ 52) (-52) (by decide) := rfl

theorem log2_mul_two_pow (hn : 0 < n) (k : Nat) : (n * 2 ^ k).log2 = n.log2 + k := by
  have hpos := Nat.two_pow_pos k
  refine (Nat.log2_eq_iff (Nat.mul_pos hn hpos).ne').2 ⟨?_, ?_⟩
  · rw [Nat.pow_add]
    exact Nat.mul_le_mul_right _ (Nat.log2_self_le hn.ne')
  · rw [show n.log2 + k + 1 = n.log2 + 1 + k by omega, Nat.pow_add]
    exact Nat.mul_lt_mul_of_pos_right Nat.lt_log2_self hpos

theorem isNormal_round (hn : 0 < n) (hlt : n < 2 ^ 53) :
    IsNormal (UnpackedFloat.round Format.binary64 .positive n 0) (-52) 1 := by
  have hlog : n.log2 < 53 := (Nat.log2_lt hn.ne').2 hlt
  have hshift : (n <<< (52 - n.log2)).log2 = 52 := by
    rw [Nat.shiftLeft_eq, log2_mul_two_pow hn]
    omega
  have hround : UnpackedFloat.round Format.binary64 .positive n 0 =
      roundWithAccuracy Format.binary64 .positive (n <<< (52 - n.log2)) (n.log2 - 52) .exact := by
    unfold UnpackedFloat.round decreaseExponent
    rw [targetExponent_eq (by omega)]
    dsimp only
    congr 1
    · congr 1
      omega
    · omega
  obtain ⟨m, e, hm, hu, h52, hlo, hhi⟩ := isNormal_roundWithAccuracy (e := n.log2 - 52) (a := .exact)
    hshift.ge (by omega)
  exact ⟨m, e, hm, hround.trans hu, h52, by omega, by omega⟩

theorem isNormal_mul (hm : 0 < m) (hk : 0 < k) (hlog : 52 ≤ (m * k).log2)
    (he : -1074 ≤ e + f + (m * k).log2 - 52) :
    IsNormal (UnpackedFloat.mul Format.binary64 (.finite .positive m e hm) (.finite .positive k f hk))
      (e + f + (m * k).log2 - 52) (e + f + (m * k).log2 - 51) :=
  isNormal_roundWithAccuracy hlog he

theorem isNormal_ofNat (hn : 0 < n) (hlt : n < 2 ^ 64) :
    IsNormal (Float.ofNat n).toModel.unpack (-52) 13 := by
  have hlog : n.log2 < 64 := (Nat.log2_lt hn.ne').2 hlt
  by_cases hsmall : n < 2 ^ 53
  · -- A small number is converted and multiplied by one.
    have hfloat : Float.ofNat n = n.toUInt64.toFloat * 1.0 := by
      show Float.ofScientific n false 0 = _
      rw [Float.ofScientific, dif_pos ⟨hsmall, by decide⟩]
      rfl
    have hconv : n.toUInt64.toFloat.toModel =
        pack (UnpackedFloat.round Format.binary64 .positive n 0) := by
      show pack (UnpackedFloat.normalize Format.binary64 (n.toUInt64.toNat : Int) 0 .positive) = _
      rw [show n.toUInt64.toNat = n from Nat.mod_eq_of_lt hlt, UnpackedFloat.normalize,
        Int.compare_eq_gt.2 (by omega)]
      rfl
    have hnorm := isNormal_round hn hsmall
    have hstored := unpack_pack hnorm (by omega) (by omega)
    obtain ⟨m, e, hm, hu, h52, hlo, hhi⟩ := hnorm
    have hprod : (m * 2 ^ 52).log2 = 104 := by rw [log2_mul_two_pow hm, h52]
    have hmul := isNormal_mul (e := e) (f := -52) hm (show 0 < 2 ^ 52 by decide) (by omega) (by omega)
    rw [hfloat]
    show IsNormal (pack (UnpackedFloat.mul Format.binary64 n.toUInt64.toFloat.toModel.unpack
      (1.0 : Float).toModel.unpack)).unpack _ _
    rw [hconv, hstored, hu, unpack_one, unpack_pack hmul (by omega) (by omega)]
    obtain ⟨m', e', hm', hu', h52', hlo', hhi'⟩ := hmul
    exact ⟨m', e', hm', hu', h52', by omega, by omega⟩
  · have hconv : (Float.ofNat n).toModel = pack (UnpackedFloat.ofScientific Format.binary64 n 0) := by
      show (Float.ofScientific n false 0).toModel = _
      rw [Float.ofScientific, dif_neg fun h => hsmall h.1]
      rfl
    have hpos : 0 < n <<< 53 := by
      rw [Nat.shiftLeft_eq]
      exact Nat.mul_pos hn (by decide)
    have hsci : UnpackedFloat.ofScientific Format.binary64 n 0 = UnpackedFloat.mul Format.binary64
        (.finite .positive (n <<< 53) (-53) hpos) (.finite .positive 1 0 (by decide)) := by
      rw [UnpackedFloat.ofScientific, dif_neg hn.ne', if_neg (by decide),
        if_neg (by rw [show (2 : Int) ^ Format.binary64.exponentBits = 2048 from rfl]; omega),
        if_pos (by decide)]
      rfl
    have hprod : (n <<< 53 * 1).log2 = n.log2 + 53 := by
      rw [Nat.mul_one, Nat.shiftLeft_eq, log2_mul_two_pow hn]
    have hmul := isNormal_mul (e := -53) (f := 0) hpos (show 0 < 1 by decide) (by omega) (by omega)
    rw [hconv, hsci, unpack_pack hmul (by omega) (by omega)]
    obtain ⟨m', e', hm', hu', h52', hlo', hhi'⟩ := hmul
    exact ⟨m', e', hm', hu', h52', by omega, by omega⟩

theorem isNormal_one_div (h : IsNormal u lo hi) (hhi : hi ≤ 960) :
    IsNormal (UnpackedFloat.div Format.binary64 (.finite .positive (2 ^ 52) (-52) (by decide)) u)
      (-105 - hi) (-103 - lo) := by
  obtain ⟨m, e, hm, rfl, hlog, hle, hge⟩ := h
  obtain ⟨hm1, hm2⟩ := (Nat.log2_eq_iff (by omega)).1 hlog
  have hcore : divCore Format.binary64 (2 ^ 52) (-52) m e = (2 ^ 105 / m, -105 - e,
      accuracyOfFraction (2 ^ 105 % m) m) := by
    have htarget : Format.binary64.targetExponent (totalExponent (2 ^ 52) (-52) - totalExponent m e) =
        -105 - e := by
      simp only [Format.targetExponent, totalExponent, hlog, Nat.log2_two_pow, Format.mantissaBits,
        Format.minExponent]
      omega
    unfold divCore
    rw [htarget, min_eq_right (by omega)]
    dsimp only
    rw [show (-52 - e - (-105 - e)).toNat = 53 by omega]
    rfl
  have hlo : 2 ^ 52 ≤ 2 ^ 105 / m := (Nat.le_div_iff_mul_le hm).2 (by omega)
  have hq : 2 ^ 105 / m ≤ 2 ^ 53 := Nat.div_le_of_le_mul (by omega)
  have hlog1 : 52 ≤ (2 ^ 105 / m).log2 := (Nat.le_log2 (by omega)).2 hlo
  have hlog2 : (2 ^ 105 / m).log2 < 54 := (Nat.log2_lt (by omega)).2 (by omega)
  have hdiv : UnpackedFloat.div Format.binary64 (.finite .positive (2 ^ 52) (-52) (by decide))
      (.finite .positive m e hm) = roundWithAccuracy Format.binary64 .positive (2 ^ 105 / m) (-105 - e)
        (accuracyOfFraction (2 ^ 105 % m) m) := by
    rw [UnpackedFloat.div, hcore]
    rfl
  obtain ⟨m', e', hm', hu', h52', hlo', hhi'⟩ := isNormal_roundWithAccuracy (e := -105 - e)
    (a := accuracyOfFraction (2 ^ 105 % m) m) hlog1 (by omega)
  exact ⟨m', e', hm', hdiv.trans hu', h52', by omega, by omega⟩

theorem not_share_le_zero (hn : 0 < n) (hlt : n < 2 ^ 64) : ¬ 1.0 / Float.ofNat n ≤ 0.0 := by
  have hdiv := isNormal_one_div (isNormal_ofNat hn hlt) (by omega)
  have hstored := unpack_pack hdiv (by omega) (by omega)
  obtain ⟨m, e, hm, hu, -⟩ := hdiv
  have hunpack : (1.0 / Float.ofNat n).toModel.unpack = .finite .positive m e hm := by
    show (pack (UnpackedFloat.div Format.binary64 (1.0 : Float).toModel.unpack
      (Float.ofNat n).toModel.unpack)).unpack = _
    rw [unpack_one, hstored, hu]
  have hzero : (0.0 : Float).toModel.unpack = .zero .positive := rfl
  intro hle
  have hle : (1.0 / Float.ofNat n).toModel.unpack.le (0.0 : Float).toModel.unpack = true :=
    of_decide_eq_true hle
  rw [hunpack, hzero] at hle
  cases hle

end StackLift.Odds
