import Mathlib.Tactic.Linarith
import Mathlib.Tactic.Ring
import SmtLowering.Proofs.Words

/-!
# Results that leave a word

Whether a sum, a difference or a product of words leaves their range, told from bits. A sum shows in
one bit more (`carry_eq`, `borrow_eq`), a signed one in the signs (`sum_signs`, `difference_signs`).
For products there is a scan that finds a bit of one factor that meets a large enough other
(`scanned`): if it finds one the product is too large, else the product fits one bit more, where the
top bits tell (`carried_or_scanned`, `spilled_or_scanned`). Signed factors are scanned by their
magnitudes.
-/

namespace SmtLowering

/-- Some bit `i` of `y`, from 1 up to `m`, meets an `x` of at least `2 ^ (w - i)`. -/
def scanned (w x y m : Nat) : Bool :=
  (List.range' 1 m).any fun i => decide (2 ^ (w - i) ≤ x) && y.testBit i

section Scan

variable {w x y m i : Nat}

theorem scanned_succ (w x y m : Nat) :
    scanned w x y (m + 1) =
      (scanned w x y m || decide (2 ^ (w - (m + 1)) ≤ x) && y.testBit (m + 1)) := by
  unfold scanned
  rw [List.range'_concat, List.any_append]
  simp [Nat.add_comm]

theorem scanned_eq_false : scanned w x y m = false ↔
    ∀ i, 1 ≤ i → i ≤ m → y.testBit i = true → x < 2 ^ (w - i) := by
  unfold scanned
  rw [List.any_eq_false]
  constructor
  · intro h i hi hm hy
    have := h i (List.mem_range'_1.2 ⟨hi, by omega⟩)
    simpa [hy] using this
  · intro h i hi
    obtain ⟨hi, hm⟩ := List.mem_range'_1.1 hi
    by_cases hy : y.testBit i = true
    · simpa [hy] using h i hi (by omega) hy
    · simp [hy]

/-- One bit more halves the bound. -/
theorem two_pow_le_iff (x k : Nat) :
    decide (2 ^ k ≤ x) = (decide (2 ^ (k + 1) ≤ x) || x.testBit k) := by
  have hpow : 2 ^ (k + 1) = 2 * 2 ^ k := by rw [Nat.pow_succ, Nat.mul_comm]
  by_cases hlarge : 2 ^ (k + 1) ≤ x
  · simp [hlarge]
    omega
  · by_cases hx : 2 ^ k ≤ x
    · rw [Nat.testBit_of_two_pow_le_and_two_pow_add_one_gt hx (by omega)]
      simp [hx]
    · rw [Nat.testBit_lt_two_pow (by omega)]
      simp [hx, hlarge]

theorem le_mul_of_scanned (hm : m ≤ w) (h : scanned w x y m = true) : 2 ^ w ≤ x * y := by
  unfold scanned at h
  obtain ⟨i, hi, h⟩ := List.any_eq_true.1 h
  obtain ⟨hi, him⟩ := List.mem_range'_1.1 hi
  rw [Bool.and_eq_true, decide_eq_true_iff] at h
  have hy := Nat.ge_two_pow_of_testBit h.2
  calc 2 ^ w = 2 ^ (w - i) * 2 ^ i := by rw [← Nat.pow_add]; congr 1; omega
    _ ≤ x * y := Nat.mul_le_mul h.1 hy

/-- What a whole scan does not find splits at the top bit of `y`. -/
theorem exists_split (hx : x < 2 ^ w) (hy : y < 2 ^ w) (h : scanned w x y (w - 1) = false) :
    ∃ i ≤ w, x < 2 ^ (w - i) ∧ y < 2 ^ (i + 1) := by
  by_cases hlow : y < 2
  · exact ⟨0, Nat.zero_le w, hx, hlow⟩
  · have hne : y ≠ 0 := by omega
    have hlog : y.log2 < w := (Nat.log2_lt hne).2 hy
    have hpos : 1 ≤ y.log2 := (Nat.le_log2 hne).2 (by omega)
    refine ⟨y.log2, by omega, ?_, Nat.lt_log2_self⟩
    have hbit : y.testBit y.log2 = true :=
      Nat.testBit_of_two_pow_le_and_two_pow_add_one_gt (Nat.log2_self_le hne) Nat.lt_log2_self
    exact scanned_eq_false.1 h _ hpos (by omega) hbit

theorem mul_le_of_not_scanned (hx : x < 2 ^ w) (hy : y < 2 ^ w)
    (h : scanned w x y (w - 1) = false) : (x + 1) * (y + 1) ≤ 2 ^ (w + 1) := by
  obtain ⟨i, hi, hxi, hyi⟩ := exists_split hx hy h
  calc (x + 1) * (y + 1) ≤ 2 ^ (w - i) * 2 ^ (i + 1) := Nat.mul_le_mul hxi hyi
    _ = 2 ^ (w + 1) := by rw [← Nat.pow_add]; congr 1; omega

end Scan

section Unsigned

variable {n : Nat} (x y : BitVec n)

theorem toNat_lt_succ : x.toNat < 2 ^ (n + 1) :=
  Nat.lt_trans x.isLt (Nat.pow_lt_pow_succ Nat.one_lt_two)

/-- A product that fits one bit more is too large if it reaches that bit. -/
theorem carried_or_scanned :
    ((x.setWidth (n + 1) * y.setWidth (n + 1)).getLsbD n || scanned n x.toNat y.toNat (n - 1)) =
      decide (2 ^ n ≤ x.toNat * y.toNat) := by
  have hbit : (x.setWidth (n + 1) * y.setWidth (n + 1)).getLsbD n =
      (x.toNat * y.toNat).testBit n := by
    rw [BitVec.getLsbD, BitVec.toNat_mul, BitVec.toNat_setWidth, BitVec.toNat_setWidth,
      Nat.mod_eq_of_lt (toNat_lt_succ x), Nat.mod_eq_of_lt (toNat_lt_succ y),
      Nat.testBit_mod_two_pow]
    simp
  rw [hbit]
  rcases hs : scanned n x.toNat y.toNat (n - 1) with _ | _
  · have hle := mul_le_of_not_scanned x.isLt y.isLt hs
    have hlt : ¬2 ^ (n + 1) ≤ x.toNat * y.toNat := by nlinarith
    rw [two_pow_le_iff, decide_eq_false hlt, Bool.or_false, Bool.false_or]
  · have hle := le_mul_of_scanned (Nat.sub_le n 1) hs
    rw [decide_eq_true hle, Bool.or_true]

end Unsigned

section Signed

variable {n w : Nat}

/-- The bits of a word that differ from its sign. -/
def magnitude (x : BitVec n) : Nat := if x.msb then (~~~x).toNat else x.toNat

theorem magnitude_testBit (x : BitVec n) {i : Nat} (hi : i < n) :
    (magnitude x).testBit i = (x.msb != x.getLsbD i) := by
  unfold magnitude
  cases hm : x.msb with
  | false =>
    rw [if_neg Bool.false_ne_true, Bool.false_bne]
    rfl
  | true =>
    rw [if_pos rfl, Bool.true_bne]
    show (~~~x).getLsbD i = _
    rw [BitVec.getLsbD_not, decide_eq_true hi, Bool.true_and]

/-- A negative word is one less than its magnitude's negative. -/
theorem toInt_eq_magnitude (x : BitVec (w + 1)) :
    magnitude x < 2 ^ w ∧ x.toInt = if x.msb then -(magnitude x : Int) - 1 else magnitude x := by
  have hx := x.isLt
  have hpow : 2 ^ (w + 1) = 2 * 2 ^ w := by rw [Nat.pow_succ, Nat.mul_comm]
  have hmsb := BitVec.msb_eq_decide x
  rw [Nat.add_sub_cancel] at hmsb
  unfold magnitude
  rw [BitVec.toInt_eq_toNat_cond, BitVec.toNat_not, hpow]
  rw [hpow] at hx
  cases hm : x.msb with
  | false =>
    rw [hm, eq_comm, decide_eq_false_iff_not] at hmsb
    rw [if_neg Bool.false_ne_true, if_neg Bool.false_ne_true, if_pos (by omega)]
    exact ⟨by omega, rfl⟩
  | true =>
    rw [hm, eq_comm, decide_eq_true_iff] at hmsb
    rw [if_pos rfl, if_pos rfl, if_neg (by omega)]
    generalize 2 ^ w = z at *
    exact ⟨by omega, by omega⟩

theorem topBits_ofNat {k : Nat} (hk : k < 2 ^ (w + 1)) :
    ((BitVec.ofNat (w + 2) k).getLsbD (w + 1) != (BitVec.ofNat (w + 2) k).getLsbD w) =
      decide (2 ^ w ≤ k) := by
  rw [BitVec.getLsbD_ofNat, BitVec.getLsbD_ofNat, Nat.testBit_lt_two_pow hk, two_pow_le_iff,
    decide_eq_false (Nat.not_le.2 hk)]
  simp

/-- The top bits of a number that fits one bit more, or is the first that does not. -/
theorem topBits_ofInt {p : Int} (hlo : -2 ^ (w + 1) ≤ p) (hhi : p ≤ 2 ^ (w + 1)) :
    ((BitVec.ofInt (w + 2) p).getLsbD (w + 1) != (BitVec.ofInt (w + 2) p).getLsbD w) =
      decide (p < -2 ^ w ∨ 2 ^ w ≤ p) := by
  have hpow : (2 : Int) ^ (w + 1) = 2 * 2 ^ w := by ring
  have hpos : (0 : Int) < 2 ^ w := by positivity
  cases p with
  | ofNat k =>
    rw [Int.ofNat_eq_natCast] at hlo hhi ⊢
    rw [BitVec.ofInt_natCast]
    have hneg : ¬(k : Int) < -2 ^ w := by omega
    simp only [hneg, false_or]
    by_cases hk : k = 2 ^ (w + 1)
    · subst hk
      rw [BitVec.getLsbD_ofNat, BitVec.getLsbD_ofNat, Nat.testBit_two_pow, Nat.testBit_two_pow]
      simp
      omega
    · have hlt : k < 2 ^ (w + 1) := by
        have : k ≤ 2 ^ (w + 1) := by exact_mod_cast hhi
        omega
      rw [topBits_ofNat hlt]
      exact decide_eq_decide.2 (by norm_cast)
  | negSucc k =>
    have hlt : k < 2 ^ (w + 1) := by
      zify
      omega
    have hnot (i : Nat) (hi : i < w + 2) :
        (~~~BitVec.ofNat (w + 2) k).getLsbD i = !(BitVec.ofNat (w + 2) k).getLsbD i := by
      rw [BitVec.getLsbD_not, decide_eq_true hi, Bool.true_and]
    rw [BitVec.ofInt_negSucc_eq_not_ofNat, hnot _ (by omega), hnot _ (by omega), Bool.not_bne_not,
      topBits_ofNat hlt]
    refine decide_eq_decide.2 ?_
    zify
    omega

/-- A factor by its magnitude. -/
theorem factor_cases (x : BitVec (w + 1)) :
    (x.msb = false ∧ x.toInt = magnitude x) ∨ (x.msb = true ∧ x.toInt = -magnitude x - 1) := by
  obtain ⟨-, hx⟩ := toInt_eq_magnitude x
  cases hm : x.msb with
  | false => exact .inl ⟨rfl, by simpa [hm] using hx⟩
  | true => exact .inr ⟨rfl, by simpa [hm] using hx⟩

/-- A product lies between those of the next magnitudes, and beyond that of the magnitudes unless
this is zero. -/
theorem product_bounds (x y : BitVec (w + 1)) :
    -((magnitude x + 1) * (magnitude y + 1) : Int) ≤ x.toInt * y.toInt ∧
      x.toInt * y.toInt ≤ (magnitude x + 1) * (magnitude y + 1) ∧
      ((0 : Int) < magnitude x * magnitude y →
        x.toInt * y.toInt < -(magnitude x * magnitude y) ∨
          magnitude x * magnitude y ≤ x.toInt * y.toInt) := by
  have hx : (0 : Int) ≤ magnitude x := Int.natCast_nonneg _
  have hy : (0 : Int) ≤ magnitude y := Int.natCast_nonneg _
  rcases factor_cases x with ⟨-, hx'⟩ | ⟨-, hx'⟩ <;>
    rcases factor_cases y with ⟨-, hy'⟩ | ⟨-, hy'⟩ <;>
    rw [hx', hy'] <;> refine ⟨by nlinarith, by nlinarith, fun hz => ?_⟩
  · exact .inr le_rfl
  · exact .inl (by nlinarith)
  · exact .inl (by nlinarith)
  · exact .inr (by nlinarith)

theorem product_sign (x y : BitVec (w + 1)) :
    (x.msb = y.msb → 0 ≤ x.toInt * y.toInt) ∧ (x.msb ≠ y.msb → x.toInt * y.toInt ≤ 0) := by
  have hx : (0 : Int) ≤ magnitude x := Int.natCast_nonneg _
  have hy : (0 : Int) ≤ magnitude y := Int.natCast_nonneg _
  rcases factor_cases x with ⟨hm, hx'⟩ | ⟨hm, hx'⟩ <;>
    rcases factor_cases y with ⟨hm', hy'⟩ | ⟨hm', hy'⟩ <;> rw [hm, hm', hx', hy'] <;>
    refine ⟨fun h => ?_, fun h => ?_⟩ <;> first | contradiction | nlinarith

/-- A product that fits one bit more is out of range if its top bits differ. -/
theorem spilled_or_scanned (x y : BitVec (w + 1)) :
    (((x.signExtend (w + 2) * y.signExtend (w + 2)).getLsbD (w + 1) !=
        (x.signExtend (w + 2) * y.signExtend (w + 2)).getLsbD w) ||
        scanned w (magnitude x) (magnitude y) (w - 1)) =
      decide (x.toInt * y.toInt < -2 ^ w ∨ 2 ^ w ≤ x.toInt * y.toInt) := by
  have hproduct : x.signExtend (w + 2) * y.signExtend (w + 2) =
      BitVec.ofInt (w + 2) (x.toInt * y.toInt) := (BitVec.ofInt_mul ..).symm
  obtain ⟨hlo, hhi, hbeyond⟩ := product_bounds x y
  rcases hs : scanned w (magnitude x) (magnitude y) (w - 1) with _ | _
  · have hle := mul_le_of_not_scanned (toInt_eq_magnitude x).1 (toInt_eq_magnitude y).1 hs
    zify at hle
    rw [hproduct, Bool.or_false]
    exact topBits_ofInt (by omega) (by omega)
  · have hle := le_mul_of_scanned (Nat.sub_le w 1) hs
    zify at hle
    have hpos : (0 : Int) < 2 ^ w := by positivity
    rw [Bool.or_true, eq_comm, decide_eq_true_iff]
    rcases hbeyond (by omega) with h | h
    · exact .inl (by omega)
    · exact .inr (by omega)

/-- The signs of the factors tell which bound a product passes. -/
theorem product_sides (x y : BitVec (w + 1)) {flag : Bool}
    (h : flag = decide (x.toInt * y.toInt < -2 ^ w ∨ 2 ^ w ≤ x.toInt * y.toInt)) :
    ((x.msb != y.msb) && flag) = decide (x.toInt * y.toInt < -2 ^ w) ∧
      (!(x.msb != y.msb) && flag) = decide (2 ^ w ≤ x.toInt * y.toInt) := by
  obtain ⟨hsame, hdiffer⟩ := product_sign x y
  have hpos : (0 : Int) < 2 ^ w := by positivity
  by_cases hm : x.msb = y.msb
  · have := hsame hm
    rw [h, hm]
    simp only [bne_self_eq_false, Bool.false_and, Bool.not_false, Bool.true_and]
    refine ⟨(decide_eq_false (by omega)).symm, decide_eq_decide.2 (by omega)⟩
  · have := hdiffer hm
    rw [h, bne_iff_ne.2 hm]
    simp only [Bool.true_and, Bool.not_true, Bool.false_and]
    refine ⟨decide_eq_decide.2 (by omega), (decide_eq_false (by omega)).symm⟩

end Signed

section Sums

variable {n w : Nat}

/-- A sum shows its carry one bit above its operands. -/
theorem carry_eq (x y : BitVec n) :
    (x.setWidth (n + 1) + y.setWidth (n + 1)).getLsbD n = decide (2 ^ n ≤ x.toNat + y.toNat) := by
  have hx := x.isLt
  have hy := y.isLt
  have hpow : 2 ^ (n + 1) = 2 * 2 ^ n := by rw [Nat.pow_succ, Nat.mul_comm]
  rw [BitVec.getLsbD, BitVec.toNat_add, BitVec.toNat_setWidth, BitVec.toNat_setWidth,
    Nat.mod_eq_of_lt (toNat_lt_succ x), Nat.mod_eq_of_lt (toNat_lt_succ y),
    Nat.mod_eq_of_lt (by omega), two_pow_le_iff, decide_eq_false (by omega), Bool.false_or]

theorem borrow_eq (x y : BitVec n) :
    (x.setWidth (n + 1) - y.setWidth (n + 1)).getLsbD n = decide (x.toNat < y.toNat) := by
  have hx := x.isLt
  have hy := y.isLt
  have hpow : 2 ^ (n + 1) = 2 * 2 ^ n := by rw [Nat.pow_succ, Nat.mul_comm]
  rw [BitVec.getLsbD, BitVec.toNat_sub, BitVec.toNat_setWidth, BitVec.toNat_setWidth,
    Nat.mod_eq_of_lt (toNat_lt_succ x), Nat.mod_eq_of_lt (toNat_lt_succ y)]
  by_cases hlt : x.toNat < y.toNat
  · rw [Nat.mod_eq_of_lt (by omega), decide_eq_true hlt]
    exact Nat.testBit_of_two_pow_le_and_two_pow_add_one_gt (by omega) (by omega)
  · rw [Nat.mod_eq_sub_mod (by omega), Nat.mod_eq_of_lt (by omega), decide_eq_false hlt]
    exact Nat.testBit_lt_two_pow (by omega)

/-- The sign of a number that is at most one range away. -/
theorem bmod_neg_iff {p : Int} (hlo : -2 ^ (w + 1) ≤ p) (hhi : p < 2 ^ (w + 1)) :
    p.bmod (2 ^ (w + 1)) < 0 ↔ (-2 ^ w ≤ p ∧ p < 0) ∨ 2 ^ w ≤ p := by
  have hpow : (2 : Int) ^ (w + 1) = 2 * 2 ^ w := by ring
  have hcast : ((2 ^ (w + 1) : Nat) : Int) = 2 * 2 ^ w := by push_cast; ring
  by_cases hbelow : p < -2 ^ w
  · rw [← Int.add_bmod_right, Int.bmod_eq_of_le_mul_two (by omega) (by omega)]
    omega
  · by_cases hbeyond : 2 ^ w ≤ p
    · rw [← Int.sub_bmod_right, Int.bmod_eq_of_le_mul_two (by omega) (by omega)]
      omega
    · rw [Int.bmod_eq_of_le_mul_two (by omega) (by omega)]
      omega

theorem toInt_bounds (x : BitVec (w + 1)) : -2 ^ w ≤ x.toInt ∧ x.toInt < 2 ^ w :=
  ⟨BitVec.le_toInt x, BitVec.toInt_lt⟩

/-- Operands of one sign whose sum has the other. -/
theorem sum_signs (x y : BitVec (w + 1)) :
    (x.msb && y.msb && !(x + y).msb) = decide (x.toInt + y.toInt < -2 ^ w) ∧
      (!x.msb && !y.msb && (x + y).msb) = decide (2 ^ w ≤ x.toInt + y.toInt) := by
  have hx := toInt_bounds x
  have hy := toInt_bounds y
  have hpow : (2 : Int) ^ (w + 1) = 2 * 2 ^ w := by ring
  have hsum := bmod_neg_iff (w := w) (p := x.toInt + y.toInt) (by omega) (by omega)
  refine ⟨Bool.eq_iff_iff.2 ?_, Bool.eq_iff_iff.2 ?_⟩
  · simp only [BitVec.msb_eq_toInt, BitVec.toInt_add, hsum, Bool.and_eq_true, Bool.not_eq_true',
      decide_eq_true_iff, decide_eq_false_iff_not]
    omega
  · simp only [BitVec.msb_eq_toInt, BitVec.toInt_add, hsum, Bool.and_eq_true, Bool.not_eq_true',
      decide_eq_true_iff, decide_eq_false_iff_not]
    omega

/-- Operands of different signs whose difference has not the first one's. -/
theorem difference_signs (x y : BitVec (w + 1)) :
    (x.msb && !y.msb && !(x - y).msb) = decide (x.toInt - y.toInt < -2 ^ w) ∧
      (!x.msb && y.msb && (x - y).msb) = decide (2 ^ w ≤ x.toInt - y.toInt) := by
  have hx := toInt_bounds x
  have hy := toInt_bounds y
  have hpow : (2 : Int) ^ (w + 1) = 2 * 2 ^ w := by ring
  have hdiff := bmod_neg_iff (w := w) (p := x.toInt - y.toInt) (by omega) (by omega)
  refine ⟨Bool.eq_iff_iff.2 ?_, Bool.eq_iff_iff.2 ?_⟩
  · simp only [BitVec.msb_eq_toInt, BitVec.toInt_sub, hdiff, Bool.and_eq_true, Bool.not_eq_true',
      decide_eq_true_iff, decide_eq_false_iff_not]
    omega
  · simp only [BitVec.msb_eq_toInt, BitVec.toInt_sub, hdiff, Bool.and_eq_true, Bool.not_eq_true',
      decide_eq_true_iff, decide_eq_false_iff_not]
    omega

end Sums

section Bounds

/-- The least number that a word reads as. -/
def leastInt (signed : Bool) (n : Nat) : Int := if signed ∧ 0 < n then -2 ^ (n - 1) else 0

/-- The greatest number that a word reads as. -/
def greatestInt (signed : Bool) (n : Nat) : Int :=
  if signed ∧ 0 < n then 2 ^ (n - 1) - 1 else 2 ^ n - 1

@[simp]
theorem leastInt_unsigned (n : Nat) : leastInt false n = 0 := rfl

@[simp]
theorem greatestInt_unsigned (n : Nat) : greatestInt false n = 2 ^ n - 1 := rfl

@[simp]
theorem leastInt_signed (w : Nat) : leastInt true (w + 1) = -2 ^ w := if_pos ⟨rfl, Nat.succ_pos w⟩

@[simp]
theorem greatestInt_signed (w : Nat) : greatestInt true (w + 1) = 2 ^ w - 1 :=
  if_pos ⟨rfl, Nat.succ_pos w⟩

theorem leastInt_nonpos (signed : Bool) (n : Nat) : leastInt signed n ≤ 0 := by
  have hpos : (0 : Int) < 2 ^ (n - 1) := by positivity
  unfold leastInt
  split_ifs <;> omega

theorem greatestInt_nonneg (signed : Bool) (n : Nat) : 0 ≤ greatestInt signed n := by
  have hpos : (0 : Int) < 2 ^ (n - 1) := by positivity
  have hpos' : (0 : Int) < 2 ^ n := by positivity
  unfold greatestInt
  split_ifs <;> omega

end Bounds

section Bits

variable {n w lo hi k : Nat}

/-- Some bit from `lo` up to and without `hi` is set. -/
theorem extract_ne_zero (x : BitVec n) (h : lo < hi) :
    (!decide (x.extractLsb' lo (hi - 1 - lo + 1) = 0#(hi - 1 - lo + 1))) =
      decide (2 ^ lo ≤ x.toNat % 2 ^ hi) := by
  have hwidth : hi - 1 - lo + 1 = hi - lo := by omega
  have hpow : 2 ^ hi = 2 ^ lo * 2 ^ (hi - lo) := by rw [← Nat.pow_add]; congr 1; omega
  have hpos := Nat.two_pow_pos lo
  rw [← decide_not]
  refine decide_eq_decide.2 ?_
  rw [← BitVec.toNat_inj, BitVec.extractLsb'_toNat, BitVec.toNat_ofNat, Nat.zero_mod, hwidth,
    Nat.shiftRight_eq_div_pow, ← Nat.mod_mul_right_div_self, ← hpow, Nat.div_eq_zero_iff]
  omega

/-- Every bit from `lo` up to and without `hi` is set. -/
theorem extract_eq_allOnes (x : BitVec n) (h : lo < hi) (hn : hi ≤ n) :
    decide (x.extractLsb' lo (hi - 1 - lo + 1) = BitVec.allOnes (hi - 1 - lo + 1)) =
      !decide (2 ^ lo ≤ (~~~x).toNat % 2 ^ hi) := by
  rw [← extract_ne_zero (~~~x) h, Bool.not_not]
  refine decide_eq_decide.2 ?_
  have hnot : (~~~x).extractLsb' lo (hi - 1 - lo + 1) = ~~~x.extractLsb' lo (hi - 1 - lo + 1) := by
    apply BitVec.eq_of_getLsbD_eq
    intro i hi
    simp [hi]
    omega
  rw [hnot, BitVec.not_eq_comm]
  simp [eq_comm]

/-- A signed word is at least a power of two if it is not negative and has a bit there or above. -/
theorem above_eq (x : BitVec (w + 1)) (k : Nat) :
    (!x.msb && decide (2 ^ k ≤ x.toNat % 2 ^ w)) = decide (2 ^ k ≤ x.toInt) := by
  have hpos : (0 : Int) < 2 ^ k := by positivity
  have hmag := (toInt_eq_magnitude x).1
  rcases factor_cases x with ⟨hm, hx⟩ | ⟨hm, hx⟩
  · have hnat : x.toNat = magnitude x := by simp [magnitude, hm]
    rw [hm, hx, Bool.not_false, Bool.true_and, hnat, Nat.mod_eq_of_lt hmag]
    exact decide_eq_decide.2 (by norm_cast)
  · rw [hm, Bool.not_true, Bool.false_and, decide_eq_false (by omega)]

/-- It is below the negative of one if it is negative and its complement has such a bit. -/
theorem below_eq (x : BitVec (w + 1)) (k : Nat) :
    (x.msb && decide (2 ^ k ≤ (~~~x).toNat % 2 ^ w)) = decide (x.toInt < -2 ^ k) := by
  have hpos : (0 : Int) < 2 ^ k := by positivity
  have hmag := (toInt_eq_magnitude x).1
  rcases factor_cases x with ⟨hm, hx⟩ | ⟨hm, hx⟩
  · rw [hm, Bool.false_and, decide_eq_false (by omega)]
  · have hnat : (~~~x).toNat = magnitude x := by simp only [magnitude, hm, if_true]
    rw [hm, hx, Bool.true_and, hnat, Nat.mod_eq_of_lt hmag]
    refine decide_eq_decide.2 ?_
    zify
    omega

end Bits

end SmtLowering
