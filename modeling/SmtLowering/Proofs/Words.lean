import Mathlib.Algebra.Order.Ring.Int
import Mathlib.Tactic.SplitIfs
import SmtLowering.Literal

/-!
# Words as bit vectors

The canonical value of a word is the reading of its bits, unsigned or signed as the kind says
(`wrap_eq`), so wrapping is reading the bits of a number. The other readings of a canonical value
read the same bits.
-/

namespace SmtLowering

/-- The canonical value of a word. -/
def reading (signed : Bool) {n : Nat} (x : BitVec n) : Int :=
  if signed then x.toInt else x.toNat

section Readings

variable {n : Nat} (signed : Bool) (x : BitVec n)

theorem modulus_eq (n : Nat) : modulus n = 2 ^ n := rfl

@[simp]
theorem reading_unsigned : reading false x = x.toNat := rfl

@[simp]
theorem reading_signed : reading true x = x.toInt := rfl

@[simp]
theorem ofInt_reading : BitVec.ofInt n (reading signed x) = x := by
  cases signed with
  | false => rw [reading_unsigned, BitVec.ofInt_natCast, BitVec.ofNat_toNat, BitVec.setWidth_eq]
  | true => exact BitVec.ofInt_toInt

/-- A word is its reading modulo the number of words. -/
theorem reading_emod : reading signed x % (2 ^ n : Nat) = x.toNat := by
  have h : (BitVec.ofInt n (reading signed x)).toNat = x.toNat := by rw [ofInt_reading]
  rw [BitVec.toNat_ofInt] at h
  have hpos : (0 : Int) < (2 ^ n : Nat) := by exact_mod_cast Nat.two_pow_pos n
  have := Int.emod_nonneg (reading signed x) hpos.ne'
  omega

theorem toInt_zero_width (x : BitVec 0) : x.toInt = 0 := by
  rw [BitVec.eq_nil x]
  rfl

theorem wrap_eq (v : Int) : wrap signed n v = reading signed (BitVec.ofInt n v) := by
  unfold wrap
  split_ifs with hn
  · subst hn
    cases signed with
    | false => simp [BitVec.eq_nil (BitVec.ofInt 0 v)]
    | true => rw [reading_signed, toInt_zero_width]
  · have hpos : (0 : Int) < (2 ^ n : Nat) := by exact_mod_cast Nat.two_pow_pos n
    have hu := Int.emod_nonneg v hpos.ne'
    have hlt := Int.emod_lt_of_pos v hpos
    have hnat : ((BitVec.ofInt n v).toNat : Int) = v % (2 ^ n : Nat) := by
      rw [BitVec.toNat_ofInt, Int.toNat_of_nonneg hu]
    have htop : (2 ^ n : Nat) = 2 * 2 ^ (n - 1) := by
      obtain ⟨m, rfl⟩ := Nat.exists_eq_succ_of_ne_zero hn
      rw [Nat.pow_succ, Nat.mul_comm, Nat.succ_sub_one]
    cases signed with
    | false => simp only [reading_unsigned, hnat, Bool.false_eq_true, false_and, if_false]; rfl
    | true =>
      rw [reading_signed, BitVec.toInt_eq_toNat_cond]
      simp only [true_and, modulus_eq]
      split_ifs <;> omega

theorem wrap_wrap (v : Int) : wrap signed n (wrap signed n v) = wrap signed n v := by
  rw [wrap_eq, wrap_eq, ofInt_reading]

/-- A canonical value is the reading of some bits. -/
theorem exists_reading {v : Int} (h : wrap signed n v = v) : ∃ x : BitVec n, v = reading signed x :=
  ⟨BitVec.ofInt n v, by rw [← wrap_eq, h]⟩

end Readings

namespace Literal

theorem word_wellFormed (signed : Bool) (n : Nat) (v : Int) : (word signed n v).WellFormed :=
  wrap_wrap signed v

end Literal

end SmtLowering
