import SmtLowering.Proofs.Agreement

/-!
# Overflow of literal words

On literals an overflow predicate needs no solver and no node: it answers with two literals and
leaves the scope as it was (`View.Gives.literals`). For products, sums and differences they say on
which side of a word's range the exact result lies, whichever way the kind reads its words
(`World.smul_literals`, `World.umul_literals`, `World.sum_literals`), and for a conversion on which
side of the target's (`World.conversion_literals`). The signed predicates of division and negation
compare with the least word of the kind instead (`World.quotient_literals`).
-/

namespace SmtLowering

/-- The bits of a literal word. -/
def Literal.bits (n : Nat) (c : Literal) : BitVec n := BitVec.ofInt n (c.asInt?.getD 0)

/-- The view in which literals alone count. -/
def literalView : View Unit := ⟨World.plainInterpretation, fun _ => .bool false, True⟩

/-- A condition that literals decide is a literal, and its scope is untouched. -/
theorem View.Gives.literals {m : Build Overflow} {s : Scope} {p q : Bool}
    (h : literalView.Gives m s (literalView.Reports p q)) :
    outcome m s = (.ok ⟨.bool p, .bool q⟩, s) := by
  obtain ⟨⟨underflow, overflow⟩, t, ho, -, hsame, hp, hq⟩ := h
  obtain rfl : t = s := hsame trivial
  obtain rfl : underflow = .bool p := hp.eq_bool trivial
  obtain rfl : overflow = .bool q := hq.eq_bool trivial
  exact ho

/-- The conditions of an exact result against the range of a word, as literals. -/
def Overflow.located (z : Int) (signed : Bool) (n : Nat) : Overflow :=
  ⟨.bool (decide (z < leastInt signed n)), .bool (decide (greatestInt signed n < z))⟩

theorem View.Gives.located {m : Build Overflow} {s : Scope} {z : Int} {signed : Bool} {n : Nat}
    (h : literalView.Gives m s (literalView.Places z signed n)) :
    outcome m s = (.ok (.located z signed n), s) := h.literals

/-- A canonical literal of a word kind is the word of its bits. -/
theorem Literal.word_bits {c : Literal} (hc : c.WellFormed) {signed : Bool} {n : Nat}
    (hk : c.kind = .bitVec signed n) (s : Scope) :
    literalView.Word s (.concrete c) signed (c.bits n) := by
  cases hc.canonical with
  | @word signed' n' v =>
    obtain ⟨rfl, rfl⟩ : signed' = signed ∧ n' = n := by simpa using hk
    exact ⟨rfl, rfl, hc, fun _ => rfl⟩
  | _ => cases hk

/-- The number of a canonical literal is the reading of its bits. -/
theorem Literal.asInt?_eq_reading {c : Literal} (hc : c.WellFormed) {signed : Bool} {n : Nat}
    (hk : c.kind = .bitVec signed n) : c.asInt? = some (reading signed (c.bits n)) := by
  cases hc.canonical with
  | @word signed' n' v hwrap =>
    obtain ⟨rfl, rfl⟩ : signed' = signed ∧ n' = n := by simpa using hk
    have hreading : v = reading signed' (BitVec.ofInt n' v) := by rw [← wrap_eq, hwrap]
    exact congrArg some hreading
  | _ => cases hk

section Bounds

variable {n : Nat} {z : Int} (hz : n = 0 → z = 0)
include hz

theorem lt_leastInt_iff : z < leastInt true n ↔ 0 < n ∧ z < -2 ^ (n - 1) := by
  rcases n with - | w
  · simp [hz rfl, leastInt]
  · simp

theorem greatestInt_lt_iff : greatestInt true n < z ↔ 0 < n ∧ 2 ^ (n - 1) ≤ z := by
  rcases n with - | w
  · simp [hz rfl, greatestInt]
  · rw [greatestInt_signed, Int.sub_one_lt_iff]
    simp

end Bounds

namespace World

variable {w : World} {s : Scope} {a b : Literal} {signed : Bool} {n : Nat}

/-- The conditions of a signed product of literals are literals: below the range, and above it, by
the exact product of the two's-complement readings. -/
theorem smul_literals (hw : w.Reachable) (hs : s ∈ w.scopes) (ha : a.WellFormed)
    (hb : b.WellFormed) (hka : a.kind = .bitVec signed n) (hkb : b.kind = .bitVec signed n) :
    ∃ below above : Bool,
      outcome (Overflow.smul (.concrete a) (.concrete b)) s = (.ok ⟨.bool below, .bool above⟩, s) ∧
      (below = true ↔ 0 < n ∧ (a.bits n).toInt * (b.bits n).toInt < -2 ^ (n - 1)) ∧
      (above = true ↔ 0 < n ∧ 2 ^ (n - 1) ≤ (a.bits n).toInt * (b.bits n).toInt) ∧
      ¬(below = true ∧ above = true) := by
  have hzero : n = 0 → (a.bits n).toInt * (b.bits n).toInt = 0 := by
    rintro rfl
    rw [BitVec.toInt_of_zero_length rfl, zero_mul]
  have hgives := View.gives_smul (hw.arena hs) (Literal.word_bits ha hka s)
    (Literal.word_bits hb hkb s)
  refine ⟨_, _, hgives.literals, ?_, ?_, ?_⟩
  · rw [decide_eq_true_iff, lt_leastInt_iff hzero]
  · rw [decide_eq_true_iff, greatestInt_lt_iff hzero]
  · have hlo := leastInt_nonpos true n
    have hhi := greatestInt_nonneg true n
    simp only [decide_eq_true_iff]
    omega

/-- A product of exactly two to the width: its wide form has the top bit set, though the product of
two negative words is positive. -/
theorem smul_literals_corner :
    outcome (Overflow.smul (.concrete (.word true 4 (-8))) (.concrete (.word true 4 (-2))))
      nativeInput.scopes[0] = (.ok ⟨.bool false, .bool true⟩, nativeInput.scopes[0]) := by
  have ha := Literal.word_wellFormed true 4 (-8)
  have hb := Literal.word_wellFormed true 4 (-2)
  obtain ⟨below, above, ho, hu, hv, -⟩ :=
    smul_literals nativeInput_reachable (List.getElem_mem _) ha hb rfl rfl
  obtain rfl : below = false := by
    rw [← Bool.not_eq_true, hu]
    decide
  obtain rfl : above = true := hv.2 (by decide)
  exact ho

/-- The conditions of an unsigned product of literals are literals: never below the range, and above
it by the exact product of the unsigned readings. -/
theorem umul_literals (hw : w.Reachable) (hs : s ∈ w.scopes) (ha : a.WellFormed)
    (hb : b.WellFormed) (hka : a.kind = .bitVec signed n) (hkb : b.kind = .bitVec signed n) :
    ∃ above : Bool,
      outcome (Overflow.umul (.concrete a) (.concrete b)) s = (.ok ⟨.bool false, .bool above⟩, s) ∧
      (above = true ↔ 0 < n ∧ 2 ^ n ≤ (a.bits n).toNat * (b.bits n).toNat) := by
  have hgives := View.gives_umul (hw.arena hs) (Literal.word_bits ha hka s)
    (Literal.word_bits hb hkb s)
  have hbelow : ¬(((a.bits n).toNat * (b.bits n).toNat : Nat) : Int) < leastInt false n := by
    rw [leastInt_unsigned]
    omega
  unfold View.Places at hgives
  rw [decide_eq_false hbelow] at hgives
  refine ⟨_, hgives.literals, ?_⟩
  rw [decide_eq_true_iff, greatestInt_unsigned, Int.sub_one_lt_iff]
  rcases n with - | w
  · simp [BitVec.toNat_of_zero_length]
  · norm_cast
    simp

/-- A product that wraps past the carry bit, which is zero. -/
theorem umul_literals_wrapped :
    outcome (Overflow.umul (.concrete (.word true 8 32)) (.concrete (.word true 8 16)))
      nativeInput.scopes[0] = (.ok ⟨.bool false, .bool true⟩, nativeInput.scopes[0]) := by
  have ha := Literal.word_wellFormed true 8 32
  have hb := Literal.word_wellFormed true 8 16
  obtain ⟨above, ho, hv⟩ := umul_literals nativeInput_reachable (List.getElem_mem _) ha hb rfl rfl
  obtain rfl : above = true := hv.2 (by decide)
  exact ho

/-- The conditions of sums and differences of literals are literals: on which side of the range of
unsigned words, or of signed ones, the exact result lies. The readings are the predicate's, not the
kind's. -/
theorem sum_literals (hw : w.Reachable) (hs : s ∈ w.scopes) (ha : a.WellFormed)
    (hb : b.WellFormed) (hka : a.kind = .bitVec signed n) (hkb : b.kind = .bitVec signed n) :
    outcome (Overflow.uadd (.concrete a) (.concrete b)) s =
        (.ok (.located ((a.bits n).toNat + (b.bits n).toNat) false n), s) ∧
      outcome (Overflow.usub (.concrete a) (.concrete b)) s =
        (.ok (.located ((a.bits n).toNat - (b.bits n).toNat) false n), s) ∧
      outcome (Overflow.sadd (.concrete a) (.concrete b)) s =
        (.ok (.located ((a.bits n).toInt + (b.bits n).toInt) true n), s) ∧
      outcome (Overflow.ssub (.concrete a) (.concrete b)) s =
        (.ok (.located ((a.bits n).toInt - (b.bits n).toInt) true n), s) := by
  have h := hw.arena hs
  have hx := Literal.word_bits ha hka s
  have hy := Literal.word_bits hb hkb s
  have hsum := (View.gives_uadd h hx hy).located
  rw [Int.natCast_add] at hsum
  exact ⟨hsum, (View.gives_usub h hx hy).located, (View.gives_sadd h hx hy).located,
    (View.gives_ssub h hx hy).located⟩

/-- Words that a signed kind reads as negative, and an unsigned sum reads as large: `-1` and `1` of
eight bits, whose unsigned sum alone leaves its range. -/
theorem sum_literals_mixed :
    outcome (Overflow.uadd (.concrete (.word true 8 (-1))) (.concrete (.word true 8 1)))
        nativeInput.scopes[0] = (.ok ⟨.bool false, .bool true⟩, nativeInput.scopes[0]) ∧
      outcome (Overflow.sadd (.concrete (.word true 8 (-1))) (.concrete (.word true 8 1)))
        nativeInput.scopes[0] = (.ok ⟨.bool false, .bool false⟩, nativeInput.scopes[0]) := by
  have ha := Literal.word_wellFormed true 8 (-1)
  have hb := Literal.word_wellFormed true 8 1
  have hs : nativeInput.scopes[0] ∈ nativeInput.scopes := List.getElem_mem _
  obtain ⟨huadd, -, hsadd, -⟩ := sum_literals nativeInput_reachable hs ha hb rfl rfl
  have hunsigned : Overflow.located (((Literal.word true 8 (-1)).bits 8).toNat +
      ((Literal.word true 8 1).bits 8).toNat) false 8 = ⟨.bool false, .bool true⟩ := by decide
  have hsigned : Overflow.located (((Literal.word true 8 (-1)).bits 8).toInt +
      ((Literal.word true 8 1).bits 8).toInt) true 8 = ⟨.bool false, .bool false⟩ := by decide
  rw [hunsigned] at huadd
  rw [hsigned] at hsadd
  exact ⟨huadd, hsadd⟩

/-- The signed predicates of division and negation on literals: never below the range, and above it
where the dividend, or what is negated, is the least word of the kind. For a signed kind that is the
least number in two's complement, for an unsigned one it is zero. -/
theorem quotient_literals (hw : w.Reachable) (hs : s ∈ w.scopes) (ha : a.WellFormed)
    (hb : b.WellFormed) (hka : a.kind = .bitVec signed n) (hkb : b.kind = .bitVec signed n)
    (hn : 0 < n) :
    ∃ quotient negation : Bool,
      outcome (Overflow.sdiv (.concrete a) (.concrete b)) s =
        (.ok ⟨.bool false, .bool quotient⟩, s) ∧
      outcome (Overflow.sneg (.concrete a)) s = (.ok ⟨.bool false, .bool negation⟩, s) ∧
      (quotient = true ↔
        (a.bits n).toInt = (if signed then -2 ^ (n - 1) else 0) ∧ (b.bits n).toInt = -1) ∧
      (negation = true ↔ (a.bits n).toInt = (if signed then -2 ^ (n - 1) else 0)) := by
  have hx := Literal.word_bits ha hka s
  have hleast : (if signed then -2 ^ (n - 1) else 0) = leastInt signed n := by
    unfold leastInt
    simp only [hn, and_true]
  have hne : (n != 0) = true := bne_iff_ne.2 hn.ne'
  refine ⟨_, _, (View.gives_sdiv (hw.arena hs) hx (Literal.word_bits hb hkb s)).literals,
    (View.gives_sneg (hw.arena hs) hx).literals, ?_, ?_⟩
  · rw [hne, Bool.true_and, Bool.and_eq_true, decide_eq_true_iff, decide_eq_true_iff, hleast,
      View.eq_leastWord_iff, View.eq_neg_one_iff hn]
  · rw [hne, Bool.true_and, decide_eq_true_iff, hleast, View.eq_leastWord_iff]

/-- The least signed number over minus one. -/
theorem quotient_literals_corner :
    outcome (Overflow.sdiv (.concrete (.word true 8 (-128))) (.concrete (.word true 8 (-1))))
        nativeInput.scopes[0] = (.ok ⟨.bool false, .bool true⟩, nativeInput.scopes[0]) ∧
      outcome (Overflow.sneg (.concrete (.word true 8 (-128)))) nativeInput.scopes[0] =
        (.ok ⟨.bool false, .bool true⟩, nativeInput.scopes[0]) := by
  have ha := Literal.word_wellFormed true 8 (-128)
  have hb := Literal.word_wellFormed true 8 (-1)
  obtain ⟨quotient, negation, hdiv, hneg, hq, hm⟩ :=
    quotient_literals nativeInput_reachable (List.getElem_mem _) ha hb rfl rfl (by decide)
  obtain rfl : quotient = true := hq.2 (by decide)
  obtain rfl : negation = true := hm.2 (by decide)
  exact ⟨hdiv, hneg⟩

/-- On unsigned bytes the least word is zero: its negation is said to overflow, and not that of 128,
which reads as the least number in two's complement; nor is the quotient of 128 by 255, which reads
as minus one. -/
theorem quotient_literals_unsigned :
    (((Literal.word false 8 0).bits 8).toInt = 0 ∧
      outcome (Overflow.sneg (.concrete (.word false 8 0))) nativeInput.scopes[0] =
        (.ok ⟨.bool false, .bool true⟩, nativeInput.scopes[0])) ∧
    (((Literal.word false 8 128).bits 8).toInt = -2 ^ 7 ∧
      outcome (Overflow.sneg (.concrete (.word false 8 128))) nativeInput.scopes[0] =
        (.ok ⟨.bool false, .bool false⟩, nativeInput.scopes[0])) ∧
    (((Literal.word false 8 255).bits 8).toInt = -1 ∧
      outcome (Overflow.sdiv (.concrete (.word false 8 128)) (.concrete (.word false 8 255)))
        nativeInput.scopes[0] = (.ok ⟨.bool false, .bool false⟩, nativeInput.scopes[0])) :=
  ⟨⟨by decide, rfl⟩, ⟨by decide, rfl⟩, by decide, rfl⟩

/-- The conditions of a conversion of a literal are literals: on which side of the target's range
the literal lies, from any word kind to any other. -/
theorem conversion_literals (hw : w.Reachable) (hs : s ∈ w.scopes) (ha : a.WellFormed)
    (hka : a.kind = .bitVec signed n) (target : Bool) (m : Nat) :
    ∃ v, a.asInt? = some v ∧
      outcome (Overflow.ofConversion (.concrete a) (.bitVec target m)) s =
        (.ok (.located v target m), s) :=
  ⟨_, Literal.asInt?_eq_reading ha hka,
    (View.gives_ofConversion (hw.arena hs) (Literal.word_bits ha hka s)).located⟩

/-- The first number that seven signed bits cannot hold, and one that no bits can. -/
theorem conversion_literals_narrow :
    outcome (Overflow.ofConversion (.concrete (.word true 8 (-65))) (.bitVec true 7))
        nativeInput.scopes[0] = (.ok ⟨.bool true, .bool false⟩, nativeInput.scopes[0]) ∧
      outcome (Overflow.ofConversion (.concrete (.word true 8 (-65))) (.bitVec true 0))
        nativeInput.scopes[0] = (.ok ⟨.bool true, .bool false⟩, nativeInput.scopes[0]) := by
  have ha := Literal.word_wellFormed true 8 (-65)
  have hs : nativeInput.scopes[0] ∈ nativeInput.scopes := List.getElem_mem _
  obtain ⟨v, hv, hseven⟩ := conversion_literals nativeInput_reachable hs ha rfl true 7
  obtain ⟨v', hv', hzero⟩ := conversion_literals nativeInput_reachable hs ha rfl true 0
  cases hv
  cases hv'
  exact ⟨hseven, hzero⟩

end World

end SmtLowering
