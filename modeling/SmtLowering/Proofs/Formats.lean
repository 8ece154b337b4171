import Mathlib.Algebra.Order.Floor.Ring
import Mathlib.Algebra.Order.Ring.WithTop
import Mathlib.Data.Int.Log
import Mathlib.Data.Rat.Floor
import Mathlib.Tactic.FieldSimp
import Mathlib.Tactic.Linarith
import Mathlib.Tactic.Positivity
import SmtLowering.Config

/-!
# Floating-point formats

What a floating-point sort of SMT-LIB holds: one NaN, and numbers with a sign and a magnitude,
infinity included, where the two zeros differ by their signs. A rational is rounded to a multiple of
the quantum of its binade, which is that of the subnormals at least, and what is too large overflows
as the mode says. Rounding keeps the order of magnitudes (`FloatFormat.round_mono`), so it keeps the
order of numbers or makes them equal (`FloatFormat.compare?_round`).
-/

namespace SmtLowering

inductive FloatDatum
  | nan
  | number (negative : Bool) (magnitude : WithTop ℚ)
  deriving DecidableEq

namespace FloatDatum

/-- The order of two numbers, `none` if one of them is NaN. The zeros are equal. -/
def compare? : FloatDatum → FloatDatum → Option Ordering
  | .number false a, .number false b => some (compare a b)
  | .number true a, .number true b => some (compare b a)
  | .number true a, .number false b => some (if a = 0 ∧ b = 0 then .eq else .lt)
  | .number false a, .number true b => some (if a = 0 ∧ b = 0 then .eq else .gt)
  | _, _ => none

/-- The magnitude is not below zero. -/
def Proper : FloatDatum → Prop
  | .nan => True
  | .number _ m => 0 ≤ m

/-- The relations of SMT-LIB by their names. Equality of terms tells the zeros apart. -/
def test? (name : String) (X Y : FloatDatum) : Option Bool :=
  match name with
  | "fp.eq" => some ((X.compare? Y).any (· == .eq))
  | "fp.lt" => some ((X.compare? Y).any (·.isLT))
  | "fp.leq" => some ((X.compare? Y).any (·.isLE))
  | "fp.gt" => some ((X.compare? Y).any (·.isGT))
  | "fp.geq" => some ((X.compare? Y).any (·.isGE))
  | "=" => some (X = Y)
  | "distinct" => some (X ≠ Y)
  | _ => none

end FloatDatum

namespace RoundingMode

/-- A number with this whole and fractional part is rounded away from zero. -/
def GoesUp (mode : RoundingMode) (negative : Bool) (whole : ℤ) (rest : ℚ) : Prop :=
  match mode with
  | nearestEven => 1 / 2 < rest ∨ rest = 1 / 2 ∧ whole % 2 = 1
  | nearestAway => 1 / 2 ≤ rest
  | towardPositive => negative = false ∧ 0 < rest
  | towardNegative => negative = true ∧ 0 < rest
  | towardZero => False

instance (mode : RoundingMode) (negative : Bool) (whole : ℤ) (rest : ℚ) :
    Decidable (mode.GoesUp negative whole rest) := by
  unfold GoesUp
  cases mode <;> infer_instance

/-- The magnitude of a number with this sign, rounded to a whole number. -/
def toWhole (mode : RoundingMode) (negative : Bool) (t : ℚ) : ℤ :=
  if mode.GoesUp negative ⌊t⌋ (Int.fract t) then ⌊t⌋ + 1 else ⌊t⌋

section Whole

variable {mode : RoundingMode} {negative : Bool} {t u : ℚ}

theorem GoesUp.mono {whole : ℤ} {r r' : ℚ} (h : mode.GoesUp negative whole r) (hr : r ≤ r') :
    mode.GoesUp negative whole r' := by
  cases mode with
  | nearestEven =>
    rcases h with h | ⟨rfl, hodd⟩
    · exact .inl (h.trans_le hr)
    · rcases hr.lt_or_eq with hlt | rfl
      · exact .inl hlt
      · exact .inr ⟨rfl, hodd⟩
  | nearestAway => exact le_trans (α := ℚ) h hr
  | towardPositive => exact ⟨h.1, h.2.trans_le hr⟩
  | towardNegative => exact ⟨h.1, h.2.trans_le hr⟩
  | towardZero => exact h

theorem toWhole_intCast (n : ℤ) : mode.toWhole negative n = n := by
  have hup : ¬mode.GoesUp negative n 0 := by
    cases mode <;> norm_num [GoesUp]
  rw [toWhole, Int.floor_intCast, Int.fract_intCast, if_neg hup]

@[simp]
theorem toWhole_towardZero (t : ℚ) : towardZero.toWhole negative t = ⌊t⌋ := if_neg id

theorem floor_le_toWhole (t : ℚ) : ⌊t⌋ ≤ mode.toWhole negative t := by
  unfold toWhole
  split_ifs <;> omega

theorem toWhole_le_succ (t : ℚ) : mode.toWhole negative t ≤ ⌊t⌋ + 1 := by
  unfold toWhole
  split_ifs <;> omega

theorem toWhole_mono (h : t ≤ u) : mode.toWhole negative t ≤ mode.toWhole negative u := by
  rcases (Int.floor_le_floor h).lt_or_eq with hlt | heq
  · exact (toWhole_le_succ t).trans (le_trans hlt (floor_le_toWhole u))
  · have hfract : Int.fract t ≤ Int.fract u := by
      rw [Int.fract, Int.fract, heq]
      linarith
    unfold toWhole
    rw [heq]
    split_ifs with ht hu
    · exact le_rfl
    · exact (hu (ht.mono hfract)).elim
    · omega
    · exact le_rfl

theorem toWhole_nonneg (h : 0 ≤ t) : 0 ≤ mode.toWhole negative t :=
  (Int.floor_nonneg.2 h).trans (floor_le_toWhole t)

theorem le_toWhole {n : ℤ} (h : (n : ℚ) ≤ t) : n ≤ mode.toWhole negative t :=
  (Int.le_floor.2 h).trans (floor_le_toWhole t)

theorem toWhole_le {n : ℤ} (h : t ≤ n) : mode.toWhole negative t ≤ n :=
  (toWhole_mono h).trans_eq (toWhole_intCast n)

end Whole

end RoundingMode

/-- The sizes of the exponent and of the significand, the hidden bit included. -/
structure FloatFormat where
  exp : Nat
  sig : Nat
  deriving DecidableEq

namespace FloatFormat

variable (F : FloatFormat)

/-- The greatest exponent of a finite number. -/
def emax : ℤ := 2 ^ (F.exp - 1) - 1

/-- The exponent of the least normal number. -/
def emin : ℤ := 1 - F.emax

def fractionBits : ℕ := F.sig - 1

/-- The exponent of the binade of a magnitude, where the subnormals belong to the lowest one. -/
def binade (m : ℚ) : ℤ := max F.emin (Int.log 2 m)

/-- The distance of neighbours in the binade. -/
def quantum (m : ℚ) : ℚ := 2 ^ (F.binade m - F.fractionBits)

/-- The nearest multiples of the quantum, one of which the mode picks. -/
def rounded (mode : RoundingMode) (negative : Bool) (m : ℚ) : ℚ :=
  mode.toWhole negative (m / F.quantum m) * F.quantum m

def maxFinite : ℚ := (2 ^ (F.fractionBits + 1) - 1) * 2 ^ (F.emax - F.fractionBits)

/-- The magnitude that stands for one that is too large. -/
def overflow (mode : RoundingMode) (negative : Bool) : WithTop ℚ :=
  match mode, negative with
  | .nearestEven, _ | .nearestAway, _ | .towardPositive, false | .towardNegative, true => ⊤
  | _, _ => F.maxFinite

def roundMagnitude (mode : RoundingMode) (negative : Bool) : WithTop ℚ → WithTop ℚ
  | ⊤ => ⊤
  | (m : ℚ) =>
    if F.rounded mode negative m ≤ F.maxFinite then F.rounded mode negative m
    else F.overflow mode negative

def round (mode : RoundingMode) : FloatDatum → FloatDatum
  | .nan => .nan
  | .number negative m => .number negative (F.roundMagnitude mode negative m)

section Rounding

variable {F} {mode : RoundingMode} {negative : Bool} {m m' : ℚ}

theorem quantum_pos (m : ℚ) : 0 < F.quantum m := zpow_pos two_pos _

theorem rounded_of_whole {n : ℤ} (h : m = n * F.quantum m) : F.rounded mode negative m = m := by
  have hq := F.quantum_pos m
  have hn : m / F.quantum m = n := (div_eq_iff hq.ne').2 h
  rw [rounded, hn, RoundingMode.toWhole_intCast, ← h]

@[simp]
theorem round_nan : F.round mode .nan = .nan := rfl

theorem round_number (a : WithTop ℚ) :
    F.round mode (.number negative a) = .number negative (F.roundMagnitude mode negative a) := rfl

@[simp]
theorem rounded_zero : F.rounded mode negative 0 = 0 := rounded_of_whole (n := 0) (by simp)

theorem rounded_nonneg (h : 0 ≤ m) : 0 ≤ F.rounded mode negative m := by
  have hq := F.quantum_pos m
  have hw : (0 : ℚ) ≤ mode.toWhole negative (m / F.quantum m) := by
    exact_mod_cast RoundingMode.toWhole_nonneg (div_nonneg h hq.le)
  exact mul_nonneg hw hq.le

/-- The next power of two is a whole number of quanta, and so is the one below. -/
theorem whole_mul_quantum (F : FloatFormat) (m : ℚ) :
    ((2 ^ F.fractionBits : ℤ) : ℚ) * F.quantum m = 2 ^ F.binade m ∧
      ((2 ^ (F.fractionBits + 1) : ℤ) : ℚ) * F.quantum m = 2 ^ (F.binade m + 1) := by
  have hmul : (2 : ℚ) ^ F.fractionBits * F.quantum m = 2 ^ F.binade m := by
    rw [quantum, ← zpow_natCast, ← zpow_add₀ two_ne_zero]
    congr 1
    omega
  refine ⟨by rw [← hmul]; push_cast; rfl, ?_⟩
  rw [zpow_add_one₀ two_ne_zero, ← hmul]
  push_cast
  ring

theorem div_quantum_lt (F : FloatFormat) (m : ℚ) :
    m / F.quantum m < (2 ^ (F.fractionBits + 1) : ℤ) := by
  rw [div_lt_iff₀ (F.quantum_pos m), (F.whole_mul_quantum m).2]
  refine (Int.lt_zpow_succ_log_self one_lt_two m).trans_le ?_
  rw [Nat.cast_ofNat]
  exact zpow_le_zpow_right₀ one_le_two (by unfold binade; omega)

theorem whole_le (mode : RoundingMode) (negative : Bool) (m : ℚ) :
    mode.toWhole negative (m / F.quantum m) ≤ 2 ^ (F.fractionBits + 1) :=
  RoundingMode.toWhole_le (F.div_quantum_lt m).le

/-- Above the lowest binade significands are normal. -/
theorem le_whole (mode : RoundingMode) (negative : Bool) (h : 0 < m) (hb : F.emin < F.binade m) :
    2 ^ F.fractionBits ≤ mode.toWhole negative (m / F.quantum m) := by
  have hlog : F.binade m = Int.log 2 m := by
    unfold binade at hb ⊢
    omega
  have hle : 2 ^ F.binade m ≤ m := by
    have hself := Int.zpow_log_le_self one_lt_two h
    rwa [Nat.cast_ofNat, ← hlog] at hself
  refine RoundingMode.le_toWhole ((le_div_iff₀ (F.quantum_pos m)).2 ?_)
  rwa [(F.whole_mul_quantum m).1]

/-- What is in a binade is rounded to the next power of two at most. -/
theorem rounded_le (m : ℚ) : F.rounded mode negative m ≤ 2 ^ (F.binade m + 1) := by
  rw [rounded, ← (F.whole_mul_quantum m).2]
  exact mul_le_mul_of_nonneg_right (by exact_mod_cast whole_le mode negative m) (F.quantum_pos m).le

/-- Above the lowest binade it is rounded to the power of two below at least. -/
theorem le_rounded (h : 0 < m) (hb : F.emin < F.binade m) :
    2 ^ F.binade m ≤ F.rounded mode negative m := by
  rw [rounded, ← (F.whole_mul_quantum m).1]
  exact mul_le_mul_of_nonneg_right (by exact_mod_cast le_whole mode negative h hb)
    (F.quantum_pos m).le

theorem binade_mono (hm : 0 < m) (h : m ≤ m') : F.binade m ≤ F.binade m' :=
  max_le_max le_rfl (Int.log_mono_right hm h)

theorem rounded_mono (hm : 0 ≤ m) (h : m ≤ m') :
    F.rounded mode negative m ≤ F.rounded mode negative m' := by
  rcases hm.eq_or_lt with rfl | hm
  · rw [rounded_zero]
    exact rounded_nonneg h
  rcases (F.binade_mono hm h).eq_or_lt with heq | hlt
  · -- in one binade both are multiples of one quantum
    have hq : F.quantum m = F.quantum m' := by rw [quantum, quantum, heq]
    have hpos := F.quantum_pos m'
    have hwhole : mode.toWhole negative (m / F.quantum m') ≤
        mode.toWhole negative (m' / F.quantum m') :=
      RoundingMode.toWhole_mono (div_le_div_of_nonneg_right h hpos.le)
    rw [rounded, rounded, hq]
    exact mul_le_mul_of_nonneg_right (by exact_mod_cast hwhole) hpos.le
  · have hmin : F.emin < F.binade m' := (le_max_left _ _).trans_lt hlt
    calc F.rounded mode negative m ≤ 2 ^ (F.binade m + 1) := rounded_le m
      _ ≤ 2 ^ F.binade m' := zpow_le_zpow_right₀ one_le_two hlt
      _ ≤ F.rounded mode negative m' := le_rounded (hm.trans_le h) hmin

theorem maxFinite_nonneg (F : FloatFormat) : 0 ≤ F.maxFinite := by
  have hpow : (1 : ℚ) ≤ 2 ^ (F.fractionBits + 1) := one_le_pow₀ one_le_two
  exact mul_nonneg (by linarith) (zpow_pos two_pos _).le

/-- What overflows has at least the greatest finite magnitude. -/
theorem maxFinite_le_overflow (mode : RoundingMode) (negative : Bool) :
    (F.maxFinite : WithTop ℚ) ≤ F.overflow mode negative := by
  cases mode <;> cases negative <;> simp [overflow]

theorem roundMagnitude_coe (mode : RoundingMode) (negative : Bool) (m : ℚ) :
    F.roundMagnitude mode negative m =
      if F.rounded mode negative m ≤ F.maxFinite then (F.rounded mode negative m : WithTop ℚ)
      else F.overflow mode negative := rfl

@[simp]
theorem roundMagnitude_top : F.roundMagnitude mode negative ⊤ = ⊤ := rfl

@[simp]
theorem roundMagnitude_zero : F.roundMagnitude mode negative 0 = 0 := by
  have h := F.roundMagnitude_coe mode negative 0
  rw [rounded_zero, if_pos F.maxFinite_nonneg] at h
  exact h

/-- A whole number of quanta that is not too large is itself. -/
theorem roundMagnitude_of_whole {n : ℤ} (h : m = n * F.quantum m) (hm : m ≤ F.maxFinite) :
    F.roundMagnitude mode negative m = m := by
  rw [roundMagnitude_coe, rounded_of_whole h, if_pos hm]

/-- A significand at an exponent of the format is kept. -/
theorem roundMagnitude_scaled {n : ℕ} {s : ℤ} (hn : n < 2 ^ (F.fractionBits + 1))
    (hmin : F.emin - F.fractionBits ≤ s) (hmax : s ≤ F.emax - F.fractionBits) :
    F.roundMagnitude mode negative (n * 2 ^ s : ℚ) = (n * 2 ^ s : ℚ) := by
  have hscale : (0 : ℚ) < 2 ^ s := zpow_pos two_pos s
  rcases Nat.eq_zero_or_pos n with rfl | hpos
  · simp
  have hm : (0 : ℚ) < n * 2 ^ s := mul_pos (by exact_mod_cast hpos) hscale
  have hquantum : F.binade (n * 2 ^ s) - F.fractionBits ≤ s := by
    have hlog : Int.log 2 (n * 2 ^ s : ℚ) < F.fractionBits + 1 + s := by
      rw [← Int.lt_zpow_iff_log_lt one_lt_two hm, Nat.cast_ofNat, zpow_add₀ two_ne_zero]
      exact mul_lt_mul_of_pos_right (by exact_mod_cast hn) hscale
    unfold binade
    omega
  obtain ⟨k, hk⟩ := Int.le.dest hquantum
  refine roundMagnitude_of_whole (n := n * 2 ^ k) ?_ ?_
  · rw [quantum, Int.cast_mul, Int.cast_pow, Int.cast_ofNat, Int.cast_natCast, mul_assoc,
      ← zpow_natCast, ← zpow_add₀ two_ne_zero, add_comm, hk]
  · have hle : (n : ℚ) ≤ 2 ^ (F.fractionBits + 1) - 1 := by
      rw [le_sub_iff_add_le]
      exact_mod_cast hn
    exact mul_le_mul hle (zpow_le_zpow_right₀ one_le_two hmax) hscale.le
      ((Nat.cast_nonneg n).trans hle)

theorem round_mono (mode : RoundingMode) (negative : Bool) {a b : WithTop ℚ} (ha : 0 ≤ a)
    (h : a ≤ b) :
    F.roundMagnitude mode negative a ≤ F.roundMagnitude mode negative b := by
  induction b with
  | top => exact le_top
  | coe m' =>
    induction a with
    | top => exact (WithTop.not_top_le_coe _ h).elim
    | coe m =>
      have hle : F.rounded mode negative m ≤ F.rounded mode negative m' :=
        rounded_mono (by exact_mod_cast ha) (by exact_mod_cast h)
      rw [roundMagnitude_coe, roundMagnitude_coe]
      split_ifs with hm hm' hm'
      · exact_mod_cast hle
      · exact le_trans (by exact_mod_cast hm) (maxFinite_le_overflow mode negative)
      · exact (hm (hle.trans hm')).elim
      · exact le_rfl

end Rounding

section Order

variable {F} {mode : RoundingMode} {X Y : FloatDatum}

/-- A function that keeps an order keeps comparisons, or makes the two sides equal. -/
theorem compare_of_mono {α β : Type} [LinearOrder α] [LinearOrder β] {f : α → β} {a b : α}
    (hle : a ≤ b → f a ≤ f b) (hge : b ≤ a → f b ≤ f a) :
    compare (f a) (f b) = compare a b ∨ compare (f a) (f b) = .eq := by
  rcases lt_trichotomy a b with hlt | rfl | hgt
  · rcases (hle hlt.le).lt_or_eq with h | h
    · exact .inl ((compare_lt_iff_lt.2 h).trans (compare_lt_iff_lt.2 hlt).symm)
    · exact .inr (compare_eq_iff_eq.2 h)
  · exact .inl ((compare_eq_iff_eq.2 rfl).trans (compare_eq_iff_eq.2 rfl).symm)
  · rcases (hge hgt.le).lt_or_eq with h | h
    · exact .inl ((compare_gt_iff_gt.2 h).trans (compare_gt_iff_gt.2 hgt).symm)
    · exact .inr (compare_eq_iff_eq.2 h.symm)

/-- Numbers of opposite signs are in order unless both are zero. -/
theorem opposite_round {a b : WithTop ℚ} (o : Ordering) (s t : Bool) :
    (if F.roundMagnitude mode s a = 0 ∧ F.roundMagnitude mode t b = 0 then Ordering.eq else o) =
        (if a = 0 ∧ b = 0 then .eq else o) ∨
      (if F.roundMagnitude mode s a = 0 ∧ F.roundMagnitude mode t b = 0 then Ordering.eq else o) =
        .eq := by
  by_cases hzero : a = 0 ∧ b = 0
  · obtain ⟨rfl, rfl⟩ := hzero
    exact .inr (by simp)
  · by_cases hround : F.roundMagnitude mode s a = 0 ∧ F.roundMagnitude mode t b = 0
    · exact .inr (if_pos hround)
    · exact .inl (by rw [if_neg hzero, if_neg hround])

/-- Rounding keeps the order of two numbers, or makes them equal. -/
theorem compare?_round (mode : RoundingMode) (hX : X.Proper) (hY : Y.Proper) :
    (F.round mode X).compare? (F.round mode Y) = X.compare? Y ∨
      (X.compare? Y).isSome ∧ (F.round mode X).compare? (F.round mode Y) = some .eq := by
  cases X with
  | nan => exact .inl rfl
  | number s a =>
    cases Y with
    | nan => cases s <;> exact .inl rfl
    | number t b =>
      have hround (s : Bool) := compare_of_mono
        (F.round_mono mode s (b := b) hX) (F.round_mono mode s (b := a) hY)
      have hround' (s : Bool) := compare_of_mono
        (F.round_mono mode s (b := a) hY) (F.round_mono mode s (b := b) hX)
      cases s <;> cases t <;> simp only [round, FloatDatum.compare?, Option.some.injEq,
        Option.isSome_some, true_and]
      · exact hround false
      · exact opposite_round .gt false true
      · exact opposite_round .lt true false
      · exact hround' true

end Order

end FloatFormat

end SmtLowering
