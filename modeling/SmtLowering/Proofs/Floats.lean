import SmtLowering.Binary64
import SmtLowering.Proofs.Words

/-!
# Words of floats

A word is its sign and its rank, the number of the bits below the sign (`Binary64.ext_rank`). Ranks
grow with the magnitude: zero has the least, every finite word a smaller one than infinity, and NaN
the words past that. So equality of values is identity, but for NaN and for the zeros
(`Binary64.equal_iff`).
-/

namespace SmtLowering

namespace Binary64

variable {x y : Binary64}

def rank (x : Binary64) : Nat := x.bits.toNat % modulus 63

theorem fraction_lt (x : Binary64) : x.fraction < modulus 52 := Nat.mod_lt _ (by decide)

theorem exponent_lt (x : Binary64) : x.exponent < 2048 := Nat.mod_lt _ (by decide)

theorem rank_eq (x : Binary64) : x.rank = x.exponent * modulus 52 + x.fraction := by
  have h : modulus 63 = modulus 52 * modulus 11 := rfl
  rw [rank, h, Nat.mod_mul, exponent, fraction, Nat.mul_comm, Nat.add_comm]

/-- A word is its sign and its rank. -/
theorem ext_rank (hs : x.negative = y.negative) (hr : x.rank = y.rank) : x = y := by
  have hx := x.bits.toNat_lt
  have hy := y.bits.toNat_lt
  have hm : modulus 63 = 9223372036854775808 := rfl
  have hsign : modulus 63 ≤ x.bits.toNat ↔ modulus 63 ≤ y.bits.toNat := by
    simpa [negative] using hs
  have hbits : x.bits.toNat = y.bits.toNat := by
    rw [rank, rank, hm] at hr
    rw [hm] at hsign
    omega
  cases x
  cases y
  exact congrArg Binary64.mk (UInt64.toNat_inj.1 hbits)

section Classes

theorem isZero_iff : x.isZero = true ↔ x.rank = 0 := by
  have hm : 0 < modulus 52 := by decide
  rw [isZero, rank_eq]
  simp [Nat.ne_of_gt hm]

theorem isInfinite_iff : x.isInfinite = true ↔ x.rank = 2047 * modulus 52 := by
  have hf := x.fraction_lt
  have hm : modulus 52 = 4503599627370496 := rfl
  rw [isInfinite, rank_eq, Bool.and_eq_true, beq_iff_eq, beq_iff_eq]
  rw [hm] at hf ⊢
  omega

theorem isNaN_iff : x.isNaN = true ↔ 2047 * modulus 52 < x.rank := by
  have hf := x.fraction_lt
  have he := x.exponent_lt
  have hm : modulus 52 = 4503599627370496 := rfl
  rw [isNaN, rank_eq, Bool.and_eq_true, beq_iff_eq, bne_iff_ne]
  rw [hm] at hf ⊢
  omega

theorem isNaN_eq_false_iff : x.isNaN = false ↔ x.rank ≤ 2047 * modulus 52 := by
  rw [← Bool.not_eq_true, isNaN_iff, Nat.not_lt]

theorem isNaN_of_isZero (h : x.isZero = true) : x.isNaN = false := by
  rw [isNaN_eq_false_iff, isZero_iff.1 h]
  exact Nat.zero_le _

/-- A zero is its sign. -/
theorem eq_of_isZero (hx : x.isZero = true) (hy : y.isZero = true)
    (hs : x.negative = y.negative) : x = y :=
  ext_rank hs ((isZero_iff.1 hx).trans (isZero_iff.1 hy).symm)

end Classes

section Order

theorem orderKey_eq (x : Binary64) : x.orderKey = if x.negative then -(x.rank : Int) else x.rank :=
  rfl

/-- Words of one place in the order are the same, or both zero. -/
theorem orderKey_eq_iff : x.orderKey = y.orderKey ↔ x = y ∨ x.isZero = true ∧ y.isZero = true := by
  rw [isZero_iff, isZero_iff]
  constructor
  · intro h
    by_cases hs : x.negative = y.negative
    · refine .inl (ext_rank hs ?_)
      rw [orderKey_eq, orderKey_eq, hs] at h
      split_ifs at h <;> omega
    · -- keys of opposite sign meet at zero only
      rw [orderKey_eq, orderKey_eq] at h
      cases hx : x.negative <;> cases hy : y.negative <;> simp [hx, hy] at h hs ⊢ <;> omega
  · rintro (rfl | ⟨hx, hy⟩)
    · rfl
    · simp [orderKey_eq, hx, hy]

theorem compare?_of_isNaN (h : (x.isNaN || y.isNaN) = true) : x.compare? y = none := if_pos h

theorem compare?_of_not_isNaN (hx : x.isNaN = false) (hy : y.isNaN = false) :
    x.compare? y = some (compare x.orderKey y.orderKey) := by
  rw [compare?, hx, hy]
  rfl

theorem equal_iff : x.equal y = true ↔
    x.isNaN = false ∧ y.isNaN = false ∧ (x = y ∨ x.isZero = true ∧ y.isZero = true) := by
  rw [← orderKey_eq_iff, equal]
  by_cases h : (x.isNaN || y.isNaN) = true
  · rw [compare?_of_isNaN h]
    simp only [Bool.or_eq_true] at h
    rcases h with h | h <;> simp [h]
  · simp only [Bool.not_eq_true, Bool.or_eq_false_iff] at h
    rw [compare?_of_not_isNaN h.1 h.2]
    simp [h.1, h.2]

end Order

end Binary64

end SmtLowering
