import SmtLowering.Proofs.Floats
import SmtLowering.Proofs.Formats

/-!
# What words stand for

A word stands for NaN or for a number (`Binary64.datum`). Magnitudes are whole numbers of the least
subnormal (`Binary64.magnitude_eq_units`) and grow with the ranks, so the order of words is that of
the numbers (`Binary64.compare?_datum`), and rounding to double precision changes nothing
(`Binary64.round_double`).
-/

namespace SmtLowering

namespace Binary64

variable {x y : Binary64}

section Units

theorem significand_lt (x : Binary64) : x.significand < 2 ^ 53 := by
  have hf := x.fraction_lt
  have hm : modulus 52 = 2 ^ 52 := rfl
  unfold significand
  split_ifs <;> omega

theorem scale_eq (x : Binary64) : x.scale = (max x.exponent 1 - 1 : ℕ) - 1074 := by
  unfold scale
  omega

theorem magnitude_eq (x : Binary64) : x.magnitude = x.significand * 2 ^ x.scale := by
  have hm (n : ℕ) : ((modulus n : ℕ) : ℚ) = 2 ^ n := by simp [modulus_eq]
  unfold magnitude
  split_ifs with hs
  · rw [Rat.mkRat_eq_div]
    have hscale : x.scale = -(x.scale.natAbs : ℤ) := by omega
    conv_rhs => rw [hscale, zpow_neg, zpow_natCast]
    push_cast [hm]
    rw [div_eq_mul_inv]
  · rw [Rat.mkRat_eq_div]
    have hscale : x.scale = (x.scale.natAbs : ℤ) := by omega
    conv_rhs => rw [hscale, zpow_natCast]
    push_cast [hm]
    simp

/-- The magnitude over that of the least subnormal. -/
def units (x : Binary64) : ℕ := x.significand * 2 ^ (max x.exponent 1 - 1)

theorem magnitude_eq_units (x : Binary64) : x.magnitude = x.units * 2 ^ (-1074 : ℤ) := by
  have hexp : x.scale = ((max x.exponent 1 - 1 : ℕ) : ℤ) + -1074 := x.scale_eq
  rw [magnitude_eq, hexp, zpow_add₀ two_ne_zero, zpow_natCast, units, Nat.cast_mul, Nat.cast_pow,
    Nat.cast_ofNat, mul_assoc]

/-- A word of a smaller rank has fewer units. -/
theorem units_lt (h : x.rank < y.rank) : x.units < y.units := by
  have hfx := x.fraction_lt
  have hfy := y.fraction_lt
  have hm : modulus 52 = 2 ^ 52 := rfl
  rw [rank_eq, rank_eq, hm] at h
  rw [hm] at hfx hfy
  have hexp : x.exponent ≤ y.exponent := by
    by_contra hlt
    have hstep : (y.exponent + 1) * 2 ^ 52 ≤ x.exponent * 2 ^ 52 :=
      Nat.mul_le_mul_right _ (by omega)
    omega
  unfold units
  rcases hexp.eq_or_lt with heq | hlt
  · rw [heq]
    refine Nat.mul_lt_mul_of_pos_right ?_ (Nat.two_pow_pos _)
    rw [heq] at h
    unfold significand
    rw [heq, hm]
    split_ifs <;> omega
  · -- the significand of `y` is normal, and its binade is past that of `x`
    have hy : 2 ^ 52 ≤ y.significand := by
      unfold significand
      rw [if_neg (by omega), hm]
      omega
    have hx : x.significand * 2 ^ (max x.exponent 1 - 1) < 2 ^ 52 * 2 ^ x.exponent := by
      rcases Nat.eq_zero_or_pos x.exponent with hzero | hpos
      · have hsig : x.significand = x.fraction := if_pos hzero
        simpa [hsig, hzero] using hfx
      · have hexp : 2 ^ x.exponent = 2 ^ (x.exponent - 1) * 2 := by
          rw [← pow_succ, Nat.sub_add_cancel hpos]
        rw [hexp, max_eq_left hpos, mul_comm (2 ^ (x.exponent - 1)), ← mul_assoc]
        exact Nat.mul_lt_mul_of_pos_right x.significand_lt (Nat.two_pow_pos _)
    calc x.significand * 2 ^ (max x.exponent 1 - 1) < 2 ^ 52 * 2 ^ x.exponent := hx
      _ ≤ 2 ^ 52 * 2 ^ (max y.exponent 1 - 1) :=
        Nat.mul_le_mul_left _ (Nat.pow_le_pow_right two_pos (by omega))
      _ ≤ y.significand * 2 ^ (max y.exponent 1 - 1) := Nat.mul_le_mul_right _ hy

theorem magnitude_nonneg (x : Binary64) : 0 ≤ x.magnitude := by
  rw [magnitude_eq_units]
  exact mul_nonneg (Nat.cast_nonneg _) (zpow_pos two_pos _).le

theorem magnitude_lt (h : x.rank < y.rank) : x.magnitude < y.magnitude := by
  rw [magnitude_eq_units, magnitude_eq_units]
  exact mul_lt_mul_of_pos_right (by exact_mod_cast units_lt h) (zpow_pos two_pos _)

end Units

section Data

/-- The magnitude with infinity, of a word that is not NaN. -/
def extent (x : Binary64) : WithTop ℚ := if x.isInfinite then ⊤ else x.magnitude

def datum (x : Binary64) : FloatDatum := if x.isNaN then .nan else .number x.negative x.extent

theorem extent_nonneg (x : Binary64) : 0 ≤ x.extent := by
  unfold extent
  split_ifs
  · exact le_top
  · exact_mod_cast x.magnitude_nonneg

theorem datum_proper (x : Binary64) : x.datum.Proper := by
  unfold datum
  split_ifs
  · trivial
  · exact x.extent_nonneg

theorem extent_lt (hy : y.isNaN = false) (h : x.rank < y.rank) : x.extent < y.extent := by
  rw [isNaN_eq_false_iff] at hy
  have hx : ¬x.isInfinite = true := by
    rw [isInfinite_iff]
    omega
  rw [extent, extent, if_neg hx]
  split_ifs
  · exact WithTop.coe_lt_top _
  · exact_mod_cast magnitude_lt h

theorem extent_congr (h : x.rank = y.rank) : x.extent = y.extent := by
  have hinf : x.isInfinite = y.isInfinite := by
    rw [Bool.eq_iff_iff, isInfinite_iff, isInfinite_iff, h]
  have hfields : x.exponent = y.exponent ∧ x.fraction = y.fraction := by
    have hfx := x.fraction_lt
    have hfy := y.fraction_lt
    have hm : modulus 52 = 4503599627370496 := rfl
    rw [rank_eq, rank_eq, hm] at h
    rw [hm] at hfx hfy
    omega
  unfold extent magnitude scale significand
  rw [hinf, hfields.1, hfields.2]

theorem extent_eq_zero_iff : x.extent = 0 ↔ x.rank = 0 := by
  unfold extent
  split_ifs with hinf
  · rw [isInfinite_iff] at hinf
    have hm : modulus 52 = 2 ^ 52 := rfl
    simp [hinf, hm]
  · have hunits : x.units = 0 ↔ x.rank = 0 := by
      have hm : modulus 52 = 2 ^ 52 := rfl
      rw [rank_eq, units, significand, hm]
      split_ifs with h <;> simp [h]
    rw [← hunits, magnitude_eq_units]
    norm_cast
    simp

theorem compare_extent (hx : x.isNaN = false) (hy : y.isNaN = false) :
    compare x.extent y.extent = compare x.rank y.rank := by
  rcases lt_trichotomy x.rank y.rank with h | h | h
  · rw [compare_lt_iff_lt.2 h, compare_lt_iff_lt.2 (extent_lt hy h)]
  · rw [compare_eq_iff_eq.2 h, compare_eq_iff_eq.2 (extent_congr h)]
  · rw [compare_gt_iff_gt.2 h, compare_gt_iff_gt.2 (extent_lt hx h)]

/-- The order of words is that of the numbers they stand for. -/
theorem compare?_datum (x y : Binary64) : x.datum.compare? y.datum = x.compare? y := by
  by_cases hx : x.isNaN = true
  · rw [compare?_of_isNaN (by simp [hx]), datum, if_pos hx]
    rfl
  by_cases hy : y.isNaN = true
  · rw [compare?_of_isNaN (by simp [hy])]
    unfold datum
    rw [if_neg hx, if_pos hy]
    cases x.negative <;> rfl
  rw [Bool.not_eq_true] at hx hy
  have hcompare := compare_extent hx hy
  have hcompare' := compare_extent hy hx
  rw [compare?_of_not_isNaN hx hy, datum, datum, hx, hy, orderKey_eq, orderKey_eq]
  cases x.negative <;> cases y.negative <;>
    simp only [FloatDatum.compare?, Bool.false_eq_true, if_false, if_true, extent_eq_zero_iff,
      Option.some.injEq]
  · rw [hcompare, ← cmp_eq_compare, ← cmp_eq_compare, Nat.strictMono_cast.cmp_map_eq]
  · split_ifs with hzero
    · simp [hzero]
    · exact (compare_gt_iff_gt.2 (by omega)).symm
  · split_ifs with hzero
    · simp [hzero]
    · exact (compare_lt_iff_lt.2 (by omega)).symm
  · have hanti : StrictAnti fun n : ℕ => -(n : ℤ) := fun a b h => by simpa using h
    rw [hcompare', ← cmp_eq_compare, ← cmp_eq_compare, hanti.cmp_map_eq]

/-- Words that are not NaN stand for different numbers. -/
theorem datum_inj (hx : x.isNaN = false) (hy : y.isNaN = false) : x.datum = y.datum ↔ x = y := by
  refine ⟨fun h => ?_, fun h => by rw [h]⟩
  rw [datum, datum, hx, hy] at h
  obtain ⟨hsign, hextent⟩ := FloatDatum.number.inj h
  have hrank : x.rank = y.rank := by
    rw [← compare_eq_iff_eq, ← compare_extent hx hy, compare_eq_iff_eq, hextent]
  exact ext_rank hsign hrank

end Data

section Double

/-- Double precision holds what every word stands for. -/
theorem round_double (mode : RoundingMode) (x : Binary64) :
    FloatFormat.round ⟨11, 53⟩ mode x.datum = x.datum := by
  unfold datum
  split_ifs with hnan
  · rfl
  rw [FloatFormat.round, extent]
  split_ifs with hinf
  · rfl
  rw [Bool.not_eq_true, isNaN_eq_false_iff] at hnan
  have hexp : x.exponent < 2047 := by
    have hm : modulus 52 = 4503599627370496 := rfl
    rw [isInfinite_iff] at hinf
    rw [rank_eq, hm] at hnan hinf
    omega
  have hmin : FloatFormat.emin ⟨11, 53⟩ = -1022 := by decide
  have hmax : FloatFormat.emax ⟨11, 53⟩ = 1023 := by decide
  have hfraction : FloatFormat.fractionBits ⟨11, 53⟩ = 52 := rfl
  rw [magnitude_eq, FloatFormat.roundMagnitude_scaled x.significand_lt]
  · rw [hmin, hfraction, scale]
    omega
  · rw [hmax, hfraction, scale]
    omega

end Double

end Binary64

end SmtLowering
