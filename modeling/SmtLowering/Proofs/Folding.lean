import Mathlib.Data.Rat.Cast.Order
import SmtLowering.Proofs.Semantics
import SmtLowering.Proofs.Typing

/-!
# Folding and values

Folding literals gives the literal of the value that the operator has on theirs (`foldUnary_value`,
`foldBinary_value`). On words each fold is compared with the operation on bit vectors, by the
readings of `Words`. Only a quotient of numbers by zero stays open (`foldBinary_eq_none_iff`).
-/

namespace SmtLowering

section Readings

variable {n : Nat} (s : Bool) (x y : BitVec n)

theorem natCast_shiftRight (m i : Nat) : (m : Int) >>> i = (m >>> i : Nat) := rfl

theorem patternOf_reading : patternOf n (reading s x) = x.toNat := by
  have hx := x.isLt
  unfold patternOf
  rw [modulus_eq]
  cases s with
  | false =>
    rw [reading_unsigned]
    split_ifs <;> omega
  | true =>
    rw [reading_signed, BitVec.toInt_eq_toNat_cond]
    split_ifs <;> omega

theorem signedReading_reading : signedReading n (reading s x) = x.toInt := by
  unfold signedReading
  split_ifs with hn
  · subst hn
    exact (toInt_zero_width x).symm
  · have htop : (2 ^ n : Nat) = 2 * 2 ^ (n - 1) := by
      obtain ⟨m, rfl⟩ := Nat.exists_eq_succ_of_ne_zero hn
      rw [Nat.pow_succ, Nat.mul_comm, Nat.succ_sub_one]
    rw [patternOf_reading, BitVec.toInt_eq_toNat_cond]
    simp only [modulus_eq]
    split_ifs <;> omega

theorem lowBits_reading : lowBits n (reading s x) = x.toNat := by
  rw [lowBits, modulus_eq, reading_emod, Int.toNat_natCast]

theorem reading_inj {x y : BitVec n} : reading s x = reading s y ↔ x = y := by
  refine ⟨fun h => ?_, fun h => h ▸ rfl⟩
  rw [← ofInt_reading s x, ← ofInt_reading s y, h]

end Readings

namespace Interpretation

variable {U : Type} (I : Interpretation U)

@[simp]
theorem literal_bool (b : Bool) : I.literal (.bool b) = some (.bool b) := rfl

@[simp]
theorem literal_word (s : Bool) (n : Nat) (v : Int) :
    I.literal (.word s n v) = some (.word (BitVec.ofInt n v)) := by
  rw [Literal.word, literal, wrap_eq, ofInt_reading]

@[simp]
theorem literal_reading (s : Bool) {n : Nat} (x : BitVec n) :
    I.literal ⟨.bitVec s n, .int (reading s x)⟩ = some (.word x) := by
  rw [literal, ofInt_reading]

/-- A well-formed word is the reading of its value. -/
theorem word_of_literal {s : Bool} {n : Nat} {p : Payload} {d : Datum U}
    (h : Literal.WellFormed ⟨.bitVec s n, p⟩) (hd : I.literal ⟨.bitVec s n, p⟩ = some d) :
    ∃ x : BitVec n, p = .int (reading s x) ∧ d = .word x := by
  cases p with
  | int v =>
    obtain ⟨x, rfl⟩ := exists_reading s h
    rw [literal_reading] at hd
    exact ⟨x, rfl, (Option.some.inj hd).symm⟩
  | _ => exact h.elim

end Interpretation

section Words

variable {U : Type} (I : Interpretation U) {op : Op} {s : Bool} {n : Nat} {x y : BitVec n}
  {k : Kind} {r : Literal}

/-- A fold on the bits of a word. -/
theorem foldBits_value (hk : op.kind? (.bitVec s n) [.bitVec s n] = some k)
    (h : foldBits op n (reading s x) k = some r) :
    I.literal r = (Datum.word x).unary op (.bitVec s n) := by
  cases Op.kinded hk with
  | not =>
    cases h
    rw [Literal.ofInt, I.literal_word, lowBits_reading, BitVec.ofInt_natCast]
    have hx : BitVec.ofNat n ((modulus n - 1) ^^^ x.toNat) = ~~~x := by
      apply BitVec.eq_of_toNat_eq
      rw [BitVec.not_def, BitVec.toNat_xor, BitVec.toNat_allOnes, BitVec.toNat_ofNat, modulus_eq]
      exact Nat.mod_eq_of_lt
        (Nat.xor_lt_two_pow (Nat.sub_lt (Nat.two_pow_pos n) Nat.one_pos) x.isLt)
    rw [hx]
    rfl
  | zeroExtend count =>
    cases h
    rw [Literal.ofInt, I.literal_word, patternOf_reading, BitVec.ofInt_natCast]
    rw [BitVec.ofNat_toNat]
    rfl
  | signExtend count =>
    cases h
    rw [Literal.ofInt, I.literal_word, signedReading_reading]
    rfl
  | extract s hc =>
    cases h
    rw [Kind.unsigned, Literal.ofInt, I.literal_word, patternOf_reading]
    rw [natCast_shiftRight, BitVec.ofInt_natCast]
    exact (if_pos hc).symm
  | @testBit i _ s hc =>
    cases h
    rw [patternOf_reading]
    have hx : decide ((x.toNat : Int) >>> i % 2 = 1) = x.getLsbD i := by
      rw [BitVec.getLsbD, Nat.testBit_eq_decide_div_mod_eq, natCast_shiftRight,
        Nat.shiftRight_eq_div_pow]
      exact decide_eq_decide.2 (by omega)
    rw [hx]
    exact (if_pos hc).symm
  | _ => cases h

/-- A fold on two words, bit by bit or on their product. -/
theorem foldWord_value (hk : op.kind? (.bitVec s n) [.bitVec s n, .bitVec s n] = some k)
    (h : foldWord op n (reading s x) (reading s y) k = some r) :
    I.literal r = I.binary op (.bitVec s n) (.word x) (.word y) := by
  cases Op.kinded hk with
  | and =>
    cases h
    rw [Literal.ofInt, I.literal_word, lowBits_reading, lowBits_reading, BitVec.ofInt_natCast,
      I.and_word, BitVec.ofNat_and, BitVec.ofNat_toNat, BitVec.ofNat_toNat, BitVec.setWidth_eq,
      BitVec.setWidth_eq]
  | or =>
    cases h
    rw [Literal.ofInt, I.literal_word, lowBits_reading, lowBits_reading, BitVec.ofInt_natCast,
      I.or_word, BitVec.ofNat_or, BitVec.ofNat_toNat, BitVec.ofNat_toNat, BitVec.setWidth_eq,
      BitVec.setWidth_eq]
  | xor =>
    cases h
    rw [Literal.ofInt, I.literal_word, lowBits_reading, lowBits_reading, BitVec.ofInt_natCast,
      I.xor_word, BitVec.ofNat_xor, BitVec.ofNat_toNat, BitVec.ofNat_toNat, BitVec.setWidth_eq,
      BitVec.setWidth_eq]
  | umulNoOverflow =>
    cases h
    rw [patternOf_reading, patternOf_reading, modulus_eq, I.literal_bool, I.umulNoOverflow_word]
    norm_cast
  | smulNoOverflow =>
    cases h
    rw [signedReading_reading, signedReading_reading, modulus_eq, I.literal_bool,
      I.smulNoOverflow_word]
    congr 2
    refine decide_eq_decide.2 ⟨?_, fun h => .inr (by exact_mod_cast h)⟩
    rintro (rfl | h)
    · simp [toInt_zero_width]
    · exact_mod_cast h
  | smulNoUnderflow =>
    cases h
    rw [signedReading_reading, signedReading_reading, modulus_eq, I.literal_bool,
      I.smulNoUnderflow_word]
    congr 2
    refine decide_eq_decide.2 ⟨?_, fun h => .inr (by exact_mod_cast h)⟩
    rintro (rfl | h)
    · simp [toInt_zero_width]
    · exact_mod_cast h
  | _ => cases h

theorem ofInt_allOnes (n : Nat) : BitVec.ofInt n ((2 ^ n : Nat) - 1) = BitVec.allOnes n := by
  have h : ((2 ^ n : Nat) : Int) - 1 = ((2 ^ n - 1 : Nat) : Int) := by
    have := Nat.two_pow_pos n
    omega
  rw [h, BitVec.ofInt_natCast]
  apply BitVec.eq_of_toNat_eq
  rw [BitVec.toNat_ofNat, BitVec.toNat_allOnes]
  exact Nat.mod_eq_of_lt (Nat.sub_lt (Nat.two_pow_pos n) Nat.one_pos)

theorem reading_eq_zero : reading s y = 0 ↔ y = 0#n := by
  have h : reading s (0#n) = 0 := by cases s <;> simp
  rw [← h]
  exact reading_inj s

/-- The quotient of words is SMT-LIB's, by a zero divisor as well. -/
theorem ofInt_wordDiv (s : Bool) (x y : BitVec n) :
    BitVec.ofInt n (wordDiv s n (reading s x) (reading s y)) =
      if s then x.smtSDiv y else x.smtUDiv y := by
  unfold wordDiv
  rw [modulus_eq]
  by_cases hy : y = 0#n
  · rw [if_pos (reading_eq_zero.2 hy)]
    subst hy
    cases s with
    | false => simpa using ofInt_allOnes n
    | true =>
      rw [BitVec.smtSDiv_zero, reading_signed]
      have hneg : x.slt 0#n = decide (x.toInt < 0) := by
        rw [BitVec.slt_eq_decide, BitVec.toInt_zero]
      rw [hneg]
      by_cases hx : x.toInt < 0
      · simp [hx]
      · simpa [hx] using ofInt_allOnes n
  · rw [if_neg fun h => hy (reading_eq_zero.1 h)]
    cases s with
    | false =>
      rw [reading_unsigned, reading_unsigned, if_neg Bool.false_ne_true, BitVec.smtUDiv_eq,
        if_neg hy, ← Int.ofNat_tdiv, BitVec.ofInt_natCast]
      apply BitVec.eq_of_toNat_eq
      rw [BitVec.toNat_ofNat, BitVec.toNat_udiv]
      exact Nat.mod_eq_of_lt (Nat.lt_of_le_of_lt (Nat.div_le_self _ _) x.isLt)
    | true =>
      rw [if_pos rfl, reading_signed, reading_signed]
      have hs : x.smtSDiv y = x.sdiv y := by
        rw [BitVec.smtSDiv_eq, BitVec.sdiv_eq]
        cases x.msb <;> cases y.msb <;> simp [BitVec.smtUDiv_eq, hy, BitVec.neg_eq_zero_iff]
      apply BitVec.eq_of_toInt_eq
      rw [BitVec.toInt_ofInt, hs, BitVec.toInt_sdiv]

/-- A fold of integer arithmetic, wrapped. -/
theorem foldInt_word (h : foldInt op (reading s x) (reading s y) (.bitVec s n) = some r) :
    I.literal r = I.binary op (.bitVec s n) (.word x) (.word y) := by
  cases op with
  | add =>
    cases h
    rw [Literal.ofInt, I.literal_word, BitVec.ofInt_add, ofInt_reading, ofInt_reading, I.add_word]
  | sub =>
    cases h
    rw [Literal.ofInt, I.literal_word, Int.sub_eq_add_neg, BitVec.ofInt_add, BitVec.ofInt_neg,
      ofInt_reading, ofInt_reading, I.sub_word, BitVec.sub_eq_add_neg]
  | mul =>
    cases h
    rw [Literal.ofInt, I.literal_word, BitVec.ofInt_mul, ofInt_reading, ofInt_reading, I.mul_word]
  | div =>
    cases h
    rw [I.literal_word, ofInt_wordDiv, I.div_word]
  | _ => cases h

end Words

section Comparisons

variable {U : Type} (I : Interpretation U) {op : Op} {b : Bool}

/-- The ordering operators on integers. -/
theorem holdsIn_compare (a b : Int) :
    holdsIn .lt (compare a b) = decide (a < b) ∧ holdsIn .le (compare a b) = decide (a ≤ b) ∧
      holdsIn .gt (compare a b) = decide (b < a) ∧ holdsIn .ge (compare a b) = decide (b ≤ a) := by
  rcases Int.lt_trichotomy a b with h | rfl | h
  · have hc : compare a b = .lt := by simp [compare, compareOfLessAndEq, h]
    rw [hc]
    simp [holdsIn]
    omega
  · have hc : compare a a = .eq := by simp [compare, compareOfLessAndEq]
    rw [hc]
    simp [holdsIn]
  · have hc : compare a b = .gt := by
      have hne : a ≠ b := by omega
      simp [compare, compareOfLessAndEq, Int.not_lt.2 h.le, hne]
    rw [hc]
    simp [holdsIn]
    omega

/-- The ordering operators on rationals. -/
theorem holdsIn_compareRat (a b : Rat) :
    let o := if a < b then Ordering.lt else if a = b then .eq else .gt
    holdsIn .lt o = decide (a < b) ∧ holdsIn .le o = decide (a ≤ b) ∧
      holdsIn .gt o = decide (b < a) ∧ holdsIn .ge o = decide (b ≤ a) := by
  rcases lt_trichotomy a b with h | rfl | h
  · simp [h, holdsIn, h.le, h.not_gt, not_le.2 h]
  · simp [holdsIn]
  · simp [h, holdsIn, h.le, h.not_gt, h.ne', not_le.2 h]

/-- A comparison, given that equality is that of payloads and what the orderings are. -/
theorem foldComparison_value {d : Kind} {x y : Datum U} {p q : Payload} (hd : d.isFloat = false)
    (he : x = y ↔ p.equal q = true)
    (ho : ∀ o, p.compare? q = some o → ∃ o', o = some o' ∧
      I.binary .lt d x y = some (.bool (holdsIn .lt o')) ∧
      I.binary .le d x y = some (.bool (holdsIn .le o')) ∧
      I.binary .gt d x y = some (.bool (holdsIn .gt o')) ∧
      I.binary .ge d x y = some (.bool (holdsIn .ge o')))
    (hop : op.isComparison) (h : foldComparison op p q = some b) :
    I.binary op d x y = some (.bool b) := by
  classical
  have hq : decide (x = y) = p.equal q := by
    rw [Bool.eq_iff_iff, decide_eq_true_iff]
    exact he
  cases op with
  | eq =>
    cases h
    refine (if_neg (by simp [hd])).trans ?_
    rw [← hq]
  | neq =>
    cases h
    show some (Datum.bool _) = _
    rw [← hq]
  | lt | le | gt | ge =>
    obtain ⟨o, hc, rfl⟩ := Option.map_eq_some_iff.1 h
    obtain ⟨o', rfl, hlt, hle, hgt, hge⟩ := ho o hc
    first | exact hlt | exact hle | exact hgt | exact hge
  | _ => cases hop

/-- A comparison of words, ordered by the kind's signedness. -/
theorem foldComparison_word {s : Bool} {n : Nat} {x y : BitVec n} (hop : op.isComparison)
    (h : foldComparison op (.int (reading s x)) (.int (reading s y)) = some b) :
    I.binary op (.bitVec s n) (.word x) (.word y) = some (.bool b) := by
  obtain ⟨hlt, hle, hgt, hge⟩ := holdsIn_compare (reading s x) (reading s y)
  refine foldComparison_value I rfl (by simp [Payload.equal, reading_inj]) ?_ hop h
  rintro o ho
  cases ho
  refine ⟨_, rfl, ?_, ?_, ?_, ?_⟩ <;> refine (I.order_word _ _ _ _ _).trans ?_
  · rw [hlt]
    cases s with
    | false => simp [BitVec.ult]
    | true => exact congrArg (some <| Datum.bool ·) (decide_eq_decide.2 Iff.rfl)
  · rw [hle]
    cases s with
    | false => simp [BitVec.ule]
    | true => exact congrArg (some <| Datum.bool ·) (decide_eq_decide.2 Iff.rfl)
  · rw [hgt]
    cases s with
    | false => simp [BitVec.ult]
    | true => exact congrArg (some <| Datum.bool ·) (decide_eq_decide.2 Iff.rfl)
  · rw [hge]
    cases s with
    | false => simp [BitVec.ule]
    | true => exact congrArg (some <| Datum.bool ·) (decide_eq_decide.2 Iff.rfl)

theorem foldComparison_int {x y : Int} (hop : op.isComparison)
    (h : foldComparison op (.int x) (.int y) = some b) :
    I.binary op .int (.int x) (.int y) = some (.bool b) := by
  obtain ⟨hlt, hle, hgt, hge⟩ := holdsIn_compare x y
  refine foldComparison_value I rfl (by simp [Payload.equal]) ?_ hop h
  rintro o ho
  cases ho
  exact ⟨_, rfl, by rw [hlt]; rfl, by rw [hle]; rfl, by rw [hgt]; rfl, by rw [hge]; rfl⟩

theorem foldComparison_real {p q : Rat} (hop : op.isComparison)
    (h : foldComparison op (.real p) (.real q) = some b) :
    I.binary op .real (.real p) (.real q) = some (.bool b) := by
  obtain ⟨hlt, hle, hgt, hge⟩ := holdsIn_compareRat p q
  refine foldComparison_value I rfl (by simp [Payload.equal]) ?_ hop h
  rintro o ho
  cases ho
  refine ⟨_, rfl, ?_, ?_, ?_, ?_⟩
  · rw [hlt]
    exact congrArg (some <| Datum.bool ·) (decide_eq_decide.2 Rat.cast_lt)
  · rw [hle]
    exact congrArg (some <| Datum.bool ·) (decide_eq_decide.2 Rat.cast_le)
  · rw [hgt]
    exact congrArg (some <| Datum.bool ·) (decide_eq_decide.2 Rat.cast_lt)
  · rw [hge]
    exact congrArg (some <| Datum.bool ·) (decide_eq_decide.2 Rat.cast_le)

theorem foldComparison_bool {x y : Bool} (hop : op.isComparison)
    (h : foldComparison op (.bool x) (.bool y) = some b) :
    I.binary op .bool (.bool x) (.bool y) = some (.bool b) :=
  foldComparison_value I rfl (by simp [Payload.equal]) (fun _ ho => by cases ho) hop h

end Comparisons

section Folds

variable {U : Type} (I : Interpretation U) {op : Op} {c d r : Literal} {k k' : Kind} {x y : Datum U}

theorem exists_literal (hc : c.WellFormed) : ∃ x, I.literal c = some x := by
  cases hc.canonical <;> exact ⟨_, rfl⟩

theorem denote_unary (hk : op.kind? k [k] = some k') : I.denote op k [x] = x.unary op k := by
  cases Op.kinded hk <;> rfl

theorem denote_binary (hk : op.kind? k [k, k] = some k') :
    I.denote op k [x, y] = I.binary op k x y := by
  cases Op.kinded hk <;> rfl

theorem foldUnary_value (hc : c.WellFormed) (hk : op.kind? c.kind [c.kind] = some k)
    (h : foldUnary op c k = some r) (hx : I.literal c = some x) :
    I.literal r = x.unary op c.kind := by
  cases hc.canonical with
  | word hv =>
    obtain ⟨v, hr, rfl⟩ := I.word_of_literal hc hx
    cases hr
    simp only [foldUnary] at h hk
    split_ifs at h with hop
    · subst hop
      cases h
      rw [Literal.ofInt, I.literal_word, BitVec.ofInt_neg, ofInt_reading]
      rfl
    · exact foldBits_value I hk h
  | bool b =>
    cases hx
    simp only [foldUnary] at h
    split_ifs at h with hop
    subst hop
    cases h
    rfl
  | int i =>
    cases hx
    simp only [foldUnary] at h
    split_ifs at h with hop
    · subst hop
      cases h
      rfl
    · cases h
  | real q =>
    cases hx
    simp only [foldUnary] at h
    split_ifs at h with hop
    subst hop
    cases h
    exact congrArg (some <| Datum.real ·) (Rat.cast_neg q)
  | float exp sig z => cases h

/-- Connectives of truth values. -/
theorem foldBool_value {a b e : Bool} (hk : op.kind? .bool [.bool, .bool] = some k)
    (h : foldBool op a b = some e) :
    I.binary op .bool (.bool a) (.bool b) = some (.bool e) := by
  cases op with
  | and | or | xor | implies =>
    cases h
    rfl
  | _ => cases h

/-- Arithmetic keeps the kind. -/
theorem kind?_of_foldInt {a b : Int} {domain : Kind}
    (hk : op.kind? domain [domain, domain] = some k) (h : foldInt op a b k = some r) :
    k = domain := by
  cases Op.kinded hk <;> first | rfl | cases h

theorem foldInt_value {a b : Int} (h : foldInt op a b .int = some r) :
    I.literal r = I.binary op .int (.int a) (.int b) := by
  cases op with
  | add | sub | mul =>
    cases h
    rfl
  | div =>
    simp only [foldInt, foldDiv] at h
    split_ifs at h with hb
    cases h
    show some (Datum.int _) = some (.int (I.intDiv a b))
    rw [Interpretation.intDiv, if_neg hb]
  | _ => cases h

theorem foldRat_value {a b : Rat} (h : foldRat op a b = some r) :
    I.literal r = I.binary op .real (.real a) (.real b) := by
  cases op with
  | add =>
    cases h
    exact congrArg (some <| Datum.real ·) (Rat.cast_add a b)
  | sub =>
    cases h
    exact congrArg (some <| Datum.real ·) (Rat.cast_sub a b)
  | mul =>
    cases h
    exact congrArg (some <| Datum.real ·) (Rat.cast_mul a b)
  | div =>
    simp only [foldRat] at h
    split_ifs at h with hb
    cases h
    show some (Datum.real _) = some (.real (I.realDiv a b))
    rw [Interpretation.realDiv, if_neg (by exact_mod_cast hb), Rat.cast_div]
  | _ => cases h

/-- Folding two literals; those of float kinds compare as the interpretation has it. -/
theorem foldBinary_value (hc : c.WellFormed) (hd : d.WellFormed) (he : c.kind = d.kind)
    (hf : c.kind.isFloat = false) (hk : op.kind? c.kind [c.kind, d.kind] = some k)
    (h : foldBinary op c d k = some r) (hx : I.literal c = some x) (hy : I.literal d = some y) :
    I.literal r = I.binary op c.kind x y := by
  unfold foldBinary at h
  cases hc.canonical with
  | word =>
    cases hd.canonical with
    | word =>
      cases he
      obtain ⟨v, hv, rfl⟩ := I.word_of_literal hc hx
      obtain ⟨w, hw, rfl⟩ := I.word_of_literal hd hy
      cases hv
      cases hw
      split_ifs at h with hop
      · obtain ⟨b, hb, rfl⟩ := Option.map_eq_some_iff.1 h
        rw [foldComparison_word I hop hb, I.literal_bool]
      · rcases Option.or_eq_some_iff.1 h with h | ⟨-, h⟩
        · obtain rfl := kind?_of_foldInt hk h
          exact foldInt_word I h
        · exact foldWord_value I hk h
    | _ => cases he
  | bool a =>
    cases hd.canonical with
    | bool b =>
      cases hx
      cases hy
      split_ifs at h with hop
      · obtain ⟨e, hb, rfl⟩ := Option.map_eq_some_iff.1 h
        rw [foldComparison_bool I hop hb, I.literal_bool]
      · obtain ⟨e, hb, rfl⟩ := Option.map_eq_some_iff.1 h
        rw [foldBool_value I hk hb, I.literal_bool]
    | _ => cases he
  | int a =>
    cases hd.canonical with
    | int b =>
      cases hx
      cases hy
      split_ifs at h with hop
      · obtain ⟨e, hb, rfl⟩ := Option.map_eq_some_iff.1 h
        rw [foldComparison_int I hop hb, I.literal_bool]
      · rcases Option.or_eq_some_iff.1 h with h | ⟨-, h⟩
        · obtain rfl := kind?_of_foldInt hk h
          exact foldInt_value I h
        · cases h
    | _ => cases he
  | real a =>
    cases hd.canonical with
    | real b =>
      cases hx
      cases hy
      split_ifs at h with hop
      · obtain ⟨e, hb, rfl⟩ := Option.map_eq_some_iff.1 h
        rw [foldComparison_real I hop hb, I.literal_bool]
      · exact foldRat_value I h
    | _ => cases he
  | float => cases hf

end Folds

section Totality

variable {op : Op} {c d : Literal} {k : Kind}

theorem foldUnary_isSome (hc : c.WellFormed) (hk : op.kind? c.kind [c.kind] = some k) :
    (foldUnary op c k).isSome = true := by
  cases hc.canonical with
  | bool b =>
    cases Op.kinded hk with
    | not => rfl
    | neg hd => cases hd
  | word => cases Op.kinded hk <;> rfl
  | int | real =>
    cases Op.kinded hk with
    | neg => rfl
    | not hd => cases hd
  | float =>
    cases Op.kinded hk with
    | neg hd | not hd => cases hd

/-- Two literals of one kind fold, unless a number is divided by zero. -/
theorem foldBinary_isSome (hc : c.WellFormed) (hd : d.WellFormed) (he : c.kind = d.kind)
    (hk : op.kind? c.kind [c.kind, d.kind] = some k)
    (hz : op = .div → d ≠ .int 0 ∧ d ≠ .real 0) : (foldBinary op c d k).isSome = true := by
  cases hc.canonical with
  | bool a =>
    cases hd.canonical with
    | bool b =>
      cases Op.kinded hk with
      | lt hd | le hd | gt hd | ge hd | add hd | sub hd | mul hd | div hd => cases hd
      | _ => rfl
    | _ => cases he
  | word =>
    cases hd.canonical with
    | word =>
      cases he
      cases Op.kinded hk <;> rfl
    | _ => cases he
  | int a =>
    cases hd.canonical with
    | int b =>
      cases Op.kinded hk with
      | and hd | or hd | xor hd => cases hd
      | div =>
        have hb : b ≠ 0 := fun hb => (hz rfl).1 (by rw [hb]; rfl)
        simp [foldBinary, Op.isComparison, foldInt, foldDiv, hb]
      | _ => rfl
    | _ => cases he
  | real a =>
    cases hd.canonical with
    | real b =>
      cases Op.kinded hk with
      | and hd | or hd | xor hd => cases hd
      | div =>
        have hb : b ≠ 0 := fun hb => (hz rfl).2 (by rw [hb]; rfl)
        simp [foldBinary, Op.isComparison, foldRat, hb]
      | _ => rfl
    | _ => cases he
  | float =>
    cases hd.canonical with
    | float =>
      cases he
      cases Op.kinded hk with
      | and hd | or hd | xor hd | add hd | sub hd | mul hd | div hd => cases hd
      | _ => rfl
    | _ => cases he

/-- Folding two literals of one kind declines exactly to divide a number by zero. -/
theorem foldBinary_eq_none_iff (hc : c.WellFormed) (hd : d.WellFormed) (he : c.kind = d.kind)
    (hk : op.kind? c.kind [c.kind, d.kind] = some k) :
    foldBinary op c d k = none ↔ op = .div ∧ (d = .int 0 ∨ d = .real 0) := by
  constructor
  · intro h
    by_contra hz
    have hsome : (foldBinary op c d k).isSome = true :=
      foldBinary_isSome hc hd he hk fun hop => by
        constructor <;> exact fun hd => hz ⟨hop, by simp [hd]⟩
    rw [h] at hsome
    cases hsome
  · rintro ⟨rfl, rfl | rfl⟩ <;> cases hc.canonical <;> cases he <;> cases Op.kinded hk <;> rfl
end Totality

end SmtLowering
