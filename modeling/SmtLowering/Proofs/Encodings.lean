import Mathlib.Data.Nat.Cast.Field
import SmtLowering.Proofs.Magnitudes

/-!
# Encoded numbers

What the sign, exponent and fraction of an encoded number stand for (`FloatFormat.decode`). The
fields of a word stand for what the word does (`Binary64.decode_double`), and those of its
single-precision word for that rounded to single precision (`Binary64.decode_single`), to nearest or
in any mode if nothing is lost.
-/

namespace SmtLowering

namespace FloatFormat

/-- The greatest exponent is that of infinity and NaN, and the least one that of the subnormals. -/
def decode (F : FloatFormat) (negative : Bool) (exponent fraction : ℕ) : FloatDatum :=
  if exponent = 2 ^ F.exp - 1 then
    if fraction = 0 then .number negative ⊤ else .nan
  else
    .number negative
      (((if exponent = 0 then fraction else 2 ^ F.fractionBits + fraction : ℕ) *
        2 ^ ((max exponent 1 : ℕ) - F.emax - F.fractionBits) : ℚ) : ℚ)

end FloatFormat

namespace Binary64

variable {x : Binary64} {mode : RoundingMode} {negative : Bool}

theorem negative_eq (x : Binary64) : x.negative = (x.bits.toNat / modulus 63 % 2 == 1) := by
  have hlt := x.bits.toNat_lt
  have hm : modulus 63 = 9223372036854775808 := rfl
  rw [negative, Bool.eq_iff_iff, beq_iff_eq, decide_eq_true_eq, hm]
  omega

theorem decode_double (x : Binary64) :
    FloatFormat.decode ⟨11, 53⟩ x.negative x.exponent x.fraction = x.datum := by
  have hmax : FloatFormat.emax ⟨11, 53⟩ = 1023 := by decide
  have hfraction : FloatFormat.fractionBits ⟨11, 53⟩ = 52 := rfl
  have hscale : ((max x.exponent 1 : ℕ) - 1023 - (52 : ℕ) : ℤ) = x.scale := by
    unfold scale
    omega
  rw [FloatFormat.decode, hmax, hfraction, hscale, datum, extent, isNaN, isInfinite]
  by_cases hexp : x.exponent = 2047
  · by_cases hfrac : x.fraction = 0 <;> simp [hexp, hfrac]
  · have hmag : x.magnitude =
        (if x.exponent = 0 then x.fraction else 2 ^ 52 + x.fraction : ℕ) * 2 ^ x.scale :=
      x.magnitude_eq
    simp [hexp, hmag]

section Single

theorem goesUp_nearestEven {num den : ℕ} (h : 0 < den) :
    RoundingMode.nearestEven.GoesUp negative ⌊(num / den : ℚ)⌋ (Int.fract (num / den : ℚ)) ↔
      den < 2 * (num % den) ∨ den = 2 * (num % den) ∧ num / den % 2 = 1 := by
  have hden : (0 : ℚ) < den := by exact_mod_cast h
  have hlt : (1 / 2 : ℚ) < (num % den : ℕ) / den ↔ den < 2 * (num % den) := by
    rw [lt_div_iff₀ hden, one_div_mul_eq_div, div_lt_iff₀ two_pos, mul_comm]
    exact_mod_cast Iff.rfl
  have heq : ((num % den : ℕ) / den : ℚ) = 1 / 2 ↔ den = 2 * (num % den) := by
    rw [div_eq_div_iff hden.ne' two_ne_zero, one_mul, mul_comm, eq_comm]
    exact_mod_cast Iff.rfl
  have hodd : (num / den : ℤ) % 2 = 1 ↔ num / den % 2 = 1 := by
    exact_mod_cast Iff.rfl
  rw [RoundingMode.GoesUp, Int.fract_div_natCast_eq_div_natCast_mod,
    Rat.floor_natCast_div_natCast, hlt, heq, hodd]

theorem toWhole_nearestEven (negative : Bool) {num den : ℕ} (h : 0 < den) :
    RoundingMode.nearestEven.toWhole negative (num / den : ℚ) = roundHalfEven num den := by
  have hmod := Nat.mod_two_eq_zero_or_one (num / den)
  unfold RoundingMode.toWhole roundHalfEven
  simp only [goesUp_nearestEven h]
  rw [Rat.floor_natCast_div_natCast]
  split_ifs <;> push_cast <;> omega

/-- A whole quotient is rounded to itself in any mode. -/
theorem toWhole_of_mod_eq_zero {num den : ℕ} (h : 0 < den) (hmod : num % den = 0) :
    mode.toWhole negative (num / den : ℚ) = roundHalfEven num den := by
  have hquotient : (num / den : ℚ) = ((num / den : ℕ) : ℤ) := by
    rw [Int.cast_natCast, Nat.cast_div (Nat.dvd_of_mod_eq_zero hmod) (by exact_mod_cast h.ne')]
  rw [← toWhole_nearestEven negative h, hquotient, RoundingMode.toWhole_intCast,
    RoundingMode.toWhole_intCast]

theorem magnitude_pos (h : x.significand ≠ 0) : 0 < x.magnitude := by
  rw [magnitude_eq]
  exact mul_pos (by exact_mod_cast Nat.pos_of_ne_zero h) (zpow_pos two_pos _)

theorem log_magnitude (h : x.significand ≠ 0) :
    Int.log 2 x.magnitude = x.significand.log2 + x.scale := by
  have hscale : (0 : ℚ) < 2 ^ x.scale := zpow_pos two_pos _
  have hlow : (2 : ℚ) ^ x.significand.log2 ≤ x.significand := by
    exact_mod_cast Nat.log2_self_le h
  have hhigh : (x.significand : ℚ) < 2 ^ (x.significand.log2 + 1) := by
    exact_mod_cast Nat.lt_log2_self
  have hpos := magnitude_pos h
  apply le_antisymm
  · rw [← Int.lt_add_one_iff, ← Int.lt_zpow_iff_log_lt one_lt_two hpos, magnitude_eq,
      Nat.cast_ofNat, add_right_comm, zpow_add₀ two_ne_zero]
    exact mul_lt_mul_of_pos_right (by exact_mod_cast hhigh) hscale
  · rw [← Int.zpow_le_iff_le_log one_lt_two hpos, magnitude_eq, Nat.cast_ofNat,
      zpow_add₀ two_ne_zero]
    exact mul_le_mul_of_nonneg_right (by exact_mod_cast hlow) hscale.le

theorem binade_single (h : x.significand ≠ 0) :
    FloatFormat.binade ⟨8, 24⟩ x.magnitude = x.singleExponent - 127 := by
  have hmin : FloatFormat.emin ⟨8, 24⟩ = -126 := by decide
  have hexp : x.singleExponent = max (x.significand.log2 + x.scale + 127).toNat 1 := rfl
  rw [FloatFormat.binade, hmin, log_magnitude h, hexp]
  omega

theorem quantum_single (h : x.significand ≠ 0) :
    FloatFormat.quantum ⟨8, 24⟩ x.magnitude = 2 ^ (x.singleExponent - 150 : ℤ) := by
  have hfraction : FloatFormat.fractionBits ⟨8, 24⟩ = 23 := rfl
  rw [FloatFormat.quantum, binade_single h, hfraction]
  congr 1
  omega

theorem singleQuotient_pos (x : Binary64) : 0 < x.singleQuotient.2 := by
  unfold singleQuotient
  simp only
  split_ifs
  · exact Nat.two_pow_pos _
  · exact Nat.one_pos

theorem magnitude_div_quantum (h : x.significand ≠ 0) :
    x.magnitude / FloatFormat.quantum ⟨8, 24⟩ x.magnitude =
      (x.singleQuotient.1 / x.singleQuotient.2 : ℚ) := by
  have hm (n : ℕ) : ((modulus n : ℕ) : ℚ) = 2 ^ n := by simp [modulus_eq]
  obtain ⟨shift, hshift⟩ : ∃ shift, shift = x.scale - (x.singleExponent - 150) := ⟨_, rfl⟩
  have hdiv : x.magnitude / FloatFormat.quantum ⟨8, 24⟩ x.magnitude =
      x.significand * 2 ^ shift := by
    rw [quantum_single h, magnitude_eq, hshift, zpow_sub₀ two_ne_zero x.scale, mul_div_assoc]
  rw [hdiv, singleQuotient, ← hshift]
  split_ifs with hs
  · have habs : shift = -(shift.natAbs : ℤ) := by omega
    conv_lhs => rw [habs, zpow_neg, zpow_natCast]
    rw [hm, div_eq_mul_inv]
  · have habs : shift = (shift.natAbs : ℤ) := by omega
    conv_lhs => rw [habs, zpow_natCast]
    push_cast [hm]
    simp

theorem maxFinite_single : FloatFormat.maxFinite ⟨8, 24⟩ = (2 ^ 24 - 1) * 2 ^ (104 : ℤ) := by
  have hexp : FloatFormat.emax ⟨8, 24⟩ - FloatFormat.fractionBits ⟨8, 24⟩ = 104 := by decide
  rw [FloatFormat.maxFinite, hexp]
  rfl

/-- A number of the greatest binade that is rounded up to the next one is too large. -/
theorem le_maxFinite_iff {k n : ℕ} (hk : k < 255) (hn : n ≤ 2 ^ 24) :
    (n : ℚ) * 2 ^ (k - 150 : ℤ) ≤ FloatFormat.maxFinite ⟨8, 24⟩ ↔ ¬(k = 254 ∧ n = 2 ^ 24) := by
  have hscale : (2 : ℚ) ^ (k - 150 : ℤ) ≤ 2 ^ (104 : ℤ) :=
    zpow_le_zpow_right₀ one_le_two (by omega)
  rw [maxFinite_single]
  constructor
  · rintro hle ⟨rfl, rfl⟩
    norm_num at hle
  · intro h
    by_cases htop : n = 2 ^ 24
    · have hscale' : (2 : ℚ) ^ (k - 150 : ℤ) ≤ 2 ^ (103 : ℤ) :=
        zpow_le_zpow_right₀ one_le_two (by omega)
      calc (n : ℚ) * 2 ^ (k - 150 : ℤ) ≤ 2 ^ 24 * 2 ^ (103 : ℤ) := by
            rw [htop, Nat.cast_pow, Nat.cast_ofNat]
            exact mul_le_mul_of_nonneg_left hscale' (by positivity)
        _ ≤ (2 ^ 24 - 1) * 2 ^ (104 : ℤ) := by norm_num
    · have hle : (n : ℚ) ≤ 2 ^ 24 - 1 := by
        rw [le_sub_iff_add_le]
        exact_mod_cast lt_of_le_of_ne hn htop
      exact mul_le_mul hle hscale (zpow_pos two_pos _).le (by norm_num)

/-- A significand that is rounded up to the next binade carries into the exponent. -/
theorem decode_carry {k n : ℕ} (hk : 1 ≤ k) (hk' : k < 255) (hn : n ≤ 2 ^ 24)
    (hnormal : 1 < k → 2 ^ 23 ≤ n) :
    FloatFormat.decode ⟨8, 24⟩ negative (((k - 1) * 2 ^ 23 + n) / 2 ^ 23)
        (((k - 1) * 2 ^ 23 + n) % 2 ^ 23) =
      .number negative
        (if k = 254 ∧ n = 2 ^ 24 then ⊤ else ((n : ℚ) * 2 ^ (k - 150 : ℤ) : ℚ)) := by
  have hmax : FloatFormat.emax ⟨8, 24⟩ = 127 := by decide
  have hfraction : FloatFormat.fractionBits ⟨8, 24⟩ = 23 := rfl
  have hlast : 2 ^ (FloatFormat.mk 8 24).exp - 1 = 255 := rfl
  rw [FloatFormat.decode, hmax, hfraction, hlast]
  by_cases hsub : n < 2 ^ 23
  · obtain rfl : k = 1 := by
      by_contra hne
      exact absurd (hnormal (by omega)) (by omega)
    have hsum : (1 - 1) * 2 ^ 23 + n = n := by omega
    have hscale : ((max 0 1 : ℕ) - 127 - (23 : ℕ) : ℤ) = (1 : ℕ) - 150 := by decide
    rw [hsum, Nat.div_eq_of_lt hsub, Nat.mod_eq_of_lt hsub, if_neg (by omega), if_pos rfl, hscale,
      if_neg (by omega)]
  by_cases hcarry : n = 2 ^ 24
  · have hexp : ((k - 1) * 2 ^ 23 + n) / 2 ^ 23 = k + 1 := by omega
    have hfrac : ((k - 1) * 2 ^ 23 + n) % 2 ^ 23 = 0 := by omega
    rw [hexp, hfrac]
    by_cases htop : k = 254
    · simp [htop, hcarry]
    · have hscale : ((k + 1 : ℕ) - 127 - (23 : ℕ) : ℤ) = (k - 150 : ℤ) + 1 := by omega
      have hvalue : ((2 ^ 23 + 0 : ℕ) : ℚ) * 2 ^ ((k - 150 : ℤ) + 1) =
          (n : ℚ) * 2 ^ (k - 150 : ℤ) := by
        rw [zpow_add_one₀ two_ne_zero, hcarry]
        push_cast
        ring
      rw [if_neg (by omega), if_neg (by omega), max_eq_left (by omega), hscale, hvalue,
        if_neg (by omega)]
  · have hexp : ((k - 1) * 2 ^ 23 + n) / 2 ^ 23 = k := by omega
    have hfrac : 2 ^ 23 + ((k - 1) * 2 ^ 23 + n) % 2 ^ 23 = n := by omega
    have hscale : ((k : ℕ) - 127 - (23 : ℕ) : ℤ) = k - 150 := by omega
    rw [hexp, hfrac, if_neg (by omega), if_neg (by omega), max_eq_left (by omega), hscale,
      if_neg (by omega)]

/-- The single-precision word without its sign. -/
def singleRank (x : Binary64) : ℕ :=
  if x.singleExponent < 255 then
    (x.singleExponent - 1) * 2 ^ 23 + roundHalfEven x.singleQuotient.1 x.singleQuotient.2
  else 255 * 2 ^ 23

theorem singleBits_eq (x : Binary64) :
    x.singleBits = (if x.negative then 2 ^ 31 else 0) + x.singleRank := by
  unfold singleBits singleRank
  cases x.negative <;> simp [modulus_eq]

theorem one_le_singleExponent (x : Binary64) : 1 ≤ x.singleExponent := Nat.le_max_right _ _

section Nonzero

variable (h : x.significand ≠ 0)
include h

theorem toWhole_single (hmode : x.isSingle = true ∨ mode = .nearestEven) :
    mode.toWhole negative (x.magnitude / FloatFormat.quantum ⟨8, 24⟩ x.magnitude) =
      roundHalfEven x.singleQuotient.1 x.singleQuotient.2 := by
  rw [magnitude_div_quantum h]
  rcases hmode with hsingle | rfl
  · simp only [isSingle, Bool.and_eq_true, beq_iff_eq] at hsingle
    exact toWhole_of_mod_eq_zero x.singleQuotient_pos hsingle.2
  · exact toWhole_nearestEven negative x.singleQuotient_pos

theorem roundHalfEven_le : roundHalfEven x.singleQuotient.1 x.singleQuotient.2 ≤ 2 ^ 24 := by
  have hle := FloatFormat.whole_le (F := ⟨8, 24⟩) .nearestEven false x.magnitude
  rw [toWhole_single h (.inr rfl)] at hle
  exact_mod_cast hle

theorem emin_lt_binade (hexp : 1 < x.singleExponent) :
    FloatFormat.emin ⟨8, 24⟩ < FloatFormat.binade ⟨8, 24⟩ x.magnitude := by
  have hmin : FloatFormat.emin ⟨8, 24⟩ = -126 := by decide
  rw [hmin, binade_single h]
  omega

theorem le_roundHalfEven (hexp : 1 < x.singleExponent) :
    2 ^ 23 ≤ roundHalfEven x.singleQuotient.1 x.singleQuotient.2 := by
  have hle := FloatFormat.le_whole .nearestEven false (magnitude_pos h) (emin_lt_binade h hexp)
  rw [toWhole_single h (.inr rfl)] at hle
  exact_mod_cast hle

/-- Without loss a significand is not rounded up. -/
theorem roundHalfEven_lt (hsingle : x.isSingle = true) :
    roundHalfEven x.singleQuotient.1 x.singleQuotient.2 < 2 ^ 24 := by
  have hwhole : RoundingMode.towardZero.toWhole false
      (x.magnitude / FloatFormat.quantum ⟨8, 24⟩ x.magnitude) =
      roundHalfEven x.singleQuotient.1 x.singleQuotient.2 := toWhole_single h (.inl hsingle)
  have hfloor := Int.floor_lt.2 (FloatFormat.div_quantum_lt ⟨8, 24⟩ x.magnitude)
  rw [RoundingMode.toWhole_towardZero] at hwhole
  rw [hwhole] at hfloor
  exact_mod_cast hfloor

theorem singleRank_le : x.singleRank ≤ 255 * 2 ^ 23 := by
  have hle := roundHalfEven_le h
  unfold singleRank
  split_ifs <;> omega

/-- What lies beyond the greatest binade is too large in any mode. -/
theorem maxFinite_lt_rounded (hexp : 255 ≤ x.singleExponent) :
    FloatFormat.maxFinite ⟨8, 24⟩ < FloatFormat.rounded ⟨8, 24⟩ mode negative x.magnitude := by
  have hbinade : (2 : ℚ) ^ (128 : ℤ) ≤ 2 ^ FloatFormat.binade ⟨8, 24⟩ x.magnitude := by
    rw [binade_single h]
    exact zpow_le_zpow_right₀ one_le_two (by omega)
  refine lt_of_lt_of_le ?_ (hbinade.trans
    (FloatFormat.le_rounded (magnitude_pos h) (emin_lt_binade h (by omega))))
  rw [maxFinite_single]
  norm_num

theorem decode_singleRank (hmode : x.isSingle = true ∨ mode = .nearestEven) :
    FloatFormat.decode ⟨8, 24⟩ negative (x.singleRank / 2 ^ 23) (x.singleRank % 2 ^ 23) =
      .number negative (FloatFormat.roundMagnitude ⟨8, 24⟩ mode negative x.magnitude) := by
  have hrounded : FloatFormat.rounded ⟨8, 24⟩ mode negative x.magnitude =
      roundHalfEven x.singleQuotient.1 x.singleQuotient.2 * 2 ^ (x.singleExponent - 150 : ℤ) := by
    rw [FloatFormat.rounded, toWhole_single h hmode, quantum_single h, Int.cast_natCast]
  have hle := roundHalfEven_le h
  unfold singleRank
  split_ifs with hexp
  · rw [decode_carry x.one_le_singleExponent hexp hle (le_roundHalfEven h),
      FloatFormat.roundMagnitude_coe, hrounded]
    simp only [le_maxFinite_iff hexp hle, ite_not]
    split_ifs with hover
    · -- what overflows was not exact, so it is rounded to the nearest number
      rcases hmode with hsingle | rfl
      · exact absurd hover.2 (roundHalfEven_lt h hsingle).ne
      · rfl
    · rfl
  · obtain rfl : mode = .nearestEven := by
      refine hmode.resolve_left fun hsingle => hexp ?_
      simp only [isSingle, Bool.and_eq_true, decide_eq_true_eq] at hsingle
      exact hsingle.1
    rw [FloatFormat.roundMagnitude_coe, if_neg (not_le_of_gt (maxFinite_lt_rounded h (by omega)))]
    rfl

end Nonzero

theorem significand_ne_zero (h : x.isZero = false) : x.significand ≠ 0 := by
  have hm : 0 < modulus 52 := Nat.two_pow_pos 52
  simp only [isZero, Bool.and_eq_false_iff, beq_eq_false_iff_ne] at h
  unfold significand
  split_ifs <;> omega

/-- The single-precision word stands for the number rounded to single precision. -/
theorem decode_single (hnan : x.isNaN = false) (hinf : x.isInfinite = false)
    (hzero : x.isZero = false) (hmode : x.isSingle = true ∨ mode = .nearestEven) :
    FloatFormat.decode ⟨8, 24⟩ (x.singleBits / 2 ^ 31 % 2 == 1) (x.singleBits / 2 ^ 23 % 2 ^ 8)
        (x.singleBits % 2 ^ 23) =
      FloatFormat.round ⟨8, 24⟩ mode x.datum := by
  have h := significand_ne_zero hzero
  have hle := singleRank_le h
  have hsign : (x.singleBits / 2 ^ 31 % 2 == 1) = x.negative := by
    rw [singleBits_eq, Bool.eq_iff_iff, beq_iff_eq]
    cases x.negative <;> simp only [if_true, Bool.false_eq_true, if_false, iff_true, iff_false] <;>
      omega
  have hexp : x.singleBits / 2 ^ 23 % 2 ^ 8 = x.singleRank / 2 ^ 23 := by
    rw [singleBits_eq]
    split_ifs <;> omega
  have hfrac : x.singleBits % 2 ^ 23 = x.singleRank % 2 ^ 23 := by
    rw [singleBits_eq]
    split_ifs <;> omega
  rw [hsign, hexp, hfrac, decode_singleRank h hmode, datum, extent, hnan, hinf]
  rfl

end Single

end Binary64

end SmtLowering
