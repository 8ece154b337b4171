import SmtLowering.Proofs.Encodings
import SmtLowering.Proofs.Reading

/-!
# Literals of floating-point sorts

The values of the terms that float literals are spelled with (`SExpr.float?`): special values, the
fields of an encoded number, and conversions of a rational. The text of a constant is the number its
word stands for, rounded to the constant's format (`Literal.spellsFloat_floatSmt`), whichever of the
spellings it takes.
-/

namespace SmtLowering

def RoundingMode.ofName? (name : String) : Option RoundingMode :=
  [.nearestEven, .nearestAway, .towardPositive, .towardNegative, .towardZero].find? (·.smt = name)

/-- A rational as a number, to be rounded. -/
def FloatDatum.ofRat (q : ℚ) : FloatDatum := .number (q < 0) (|q| : ℚ)

def FloatDatum.special? (name : String) : Option FloatDatum :=
  match name with
  | "NaN" => some .nan
  | "+oo" => some (.number false ⊤)
  | "-oo" => some (.number true ⊤)
  | "+zero" => some (.number false 0)
  | "-zero" => some (.number true 0)
  | _ => none

namespace SExpr

/-- A number in decimal digits with a point. -/
def decimal? (s : String) : Option ℚ :=
  match s.toList.span (· ≠ '.') with
  | (whole, '.' :: fraction) =>
    (numeral? (String.ofList whole)).bind fun n =>
      (numeral? (String.ofList fraction)).map fun d => n + d / 10 ^ fraction.length
  | _ => none

/-- The value of a term of decimals, signs and quotients. -/
def real? : SExpr → Option ℚ
  | .atom s => decimal? s
  | .cons (.atom "-") (.cons t .nil) => (real? t).map (- ·)
  | .cons (.atom "/") (.cons t (.cons u .nil)) =>
    (real? t).bind fun a => (real? u).bind fun b => if b = 0 then none else some (a / b)
  | _ => none

/-- The number of binary digits, and the number in them. -/
def bits? (s : String) : Option (ℕ × ℕ) :=
  match binary? s with
  | some ⟨.bitVec _ width, .int v⟩ => some (width, v.toNat)
  | _ => none

/-- A term of a floating-point sort: the format, and the value. -/
def float? : SExpr → Option (FloatFormat × FloatDatum)
  | .cons (.atom "_") (.cons (.atom name) indices) =>
    match numerals? indices with
    | some [exp, sig] => (FloatDatum.special? name).map (⟨exp, sig⟩, ·)
    | _ => none
  | .cons (.atom "fp")
      (.cons (.atom sign) (.cons (.atom exponent) (.cons (.atom fraction) .nil))) =>
    match bits? sign, bits? exponent, bits? fraction with
    | some (1, s), some (e, k), some (f, n) =>
      some (⟨e, f + 1⟩, FloatFormat.decode ⟨e, f + 1⟩ (s == 1) k n)
    | _, _, _ => none
  | .cons (.cons (.atom "_") (.cons (.atom "to_fp") indices))
      (.cons (.atom mode) (.cons q .nil)) =>
    match numerals? indices, RoundingMode.ofName? mode, real? q with
    | some [exp, sig], some mode, some q =>
      some (⟨exp, sig⟩, FloatFormat.round ⟨exp, sig⟩ mode (.ofRat q))
    | _, _, _ => none
  | _ => none

end SExpr

section Digits

theorem wrap_natCast {width n : ℕ} (hw : 0 < width) (hn : n < 2 ^ width) :
    wrap false width n = n := by
  have hmod : (n : ℤ) % (modulus width : ℕ) = n :=
    Int.emod_eq_of_lt (Int.natCast_nonneg n) (by exact_mod_cast hn)
  simp [wrap, hmod, hw.ne']

theorem bits?_paddedDigits {width n : ℕ} (hw : 0 < width) (hn : n < 2 ^ width) :
    SExpr.bits? ("#b" ++ paddedDigits 2 width n) = some (width, n) := by
  have hlen : ((Nat.toDigits 2 n).leftpad width '0').length = width := by
    rw [List.length_leftpad, max_eq_left ((Nat.length_toDigits_le_iff one_lt_two hw).2 hn)]
  have hvalue : Nat.ofDigitChars 2 ((Nat.toDigits 2 n).leftpad width '0') 0 = n := by
    rw [List.leftpad, Nat.ofDigitChars_append, Nat.ofDigitChars_replicate_zero, mul_zero,
      Nat.ofDigitChars_toDigits one_lt_two (by omega)]
  have hall : ((Nat.toDigits 2 n).leftpad width '0').all (fun c => c = '0' || c = '1') = true := by
    rw [List.all_eq_true, List.leftpad]
    intro c hc
    rcases List.mem_append.1 hc with hc | hc
    · rw [List.eq_of_mem_replicate hc]
      rfl
    · obtain ⟨d, hd, rfl⟩ := exists_digit_of_mem_toDigits one_lt_two hc
      have hdigit : ∀ d < 2, (Nat.digitChar d = '0' || Nat.digitChar d = '1') = true := by decide
      exact hdigit d hd
  have htext : ("#b" ++ paddedDigits 2 width n).toList =
      '#' :: 'b' :: (Nat.toDigits 2 n).leftpad width '0' := by
    simp [paddedDigits]
  have hbinary : SExpr.binary? ("#b" ++ paddedDigits 2 width n) = some (.word false width n) := by
    simp only [SExpr.binary?, htext, if_pos hall, hlen, hvalue]
  rw [SExpr.bits?, hbinary]
  simp only [Literal.word, wrap_natCast hw hn, Int.toNat_natCast]

theorem bits?_sign {n : ℕ} (hn : n < 2) : SExpr.bits? ("#b" ++ toString n) = some (1, n) := by
  have hdigit : toString n = paddedDigits 2 1 n := by
    obtain rfl | rfl : n = 0 ∨ n = 1 := by omega
    · decide
    · decide
  rw [hdigit]
  exact bits?_paddedDigits one_pos hn

theorem decimal?_toString (n : ℕ) : SExpr.decimal? (toString n ++ ".0") = some (n : ℚ) := by
  have hpoint : ∀ c ∈ Nat.toDigits 10 n, decide (c ≠ '.') = true := by
    intro c hc
    obtain ⟨d, hd, rfl⟩ := exists_digit_of_mem_toDigits (by omega) hc
    have hdigit : ∀ d < 10, decide (Nat.digitChar d ≠ '.') = true := by decide
    exact hdigit d hd
  have hspan : (toString n ++ ".0").toList.span (· ≠ '.') = (Nat.toDigits 10 n, ['.', '0']) := by
    rw [String.toList_append, toList_toString, List.span_eq_takeWhile_dropWhile,
      List.takeWhile_append_of_pos hpoint, List.dropWhile_append_of_pos hpoint]
    simp
  have hwhole : SExpr.numeral? (String.ofList (Nat.toDigits 10 n)) = some n := by
    rw [← toList_toString, String.ofList_toList, numeral?_toString]
  have hfraction : SExpr.numeral? (String.ofList ['0']) = some 0 := by decide
  simp only [SExpr.decimal?, hspan, hwhole, hfraction, Option.bind_some]
  simp

end Digits

section Terms

theorem real?_quotient {n d : ℕ} (hd : d ≠ 0) :
    SExpr.real? (.quotient n d) = some (n / d : ℚ) := by
  unfold SExpr.quotient
  split_ifs with h
  · rw [SExpr.real?, decimal?_toString, h, Nat.cast_one, div_one]
  · have hne : (d : ℚ) ≠ 0 := by exact_mod_cast hd
    simp only [SExpr.list, List.foldr, SExpr.real?, decimal?_toString, Option.bind_some, if_neg hne]

theorem real?_rational (q : ℚ) : SExpr.real? (.rational q) = some q := by
  have habs : ((q.num.natAbs : ℕ) / (q.den : ℕ) : ℚ) = |q| := by
    rw [Rat.abs_def, Rat.divInt_eq_div]
    rfl
  have hquotient : SExpr.real? (.quotient q.num.natAbs q.den) = some |q| := by
    rw [real?_quotient q.den_nz, habs]
  unfold SExpr.rational
  split_ifs with h
  · have hneg : -|q| = q := by rw [abs_of_neg (Rat.num_neg.1 h), neg_neg]
    simp only [SExpr.list, List.foldr, SExpr.real?, hquotient, Option.map_some, hneg]
  · rw [hquotient, abs_of_nonneg (Rat.num_nonneg.1 (not_lt.1 h))]

theorem ofName?_smt (mode : RoundingMode) : RoundingMode.ofName? mode.smt = some mode := by
  cases mode <;> decide

/-- The text is a term with the value. -/
def SpellsFloat (text : String) (F : FloatFormat) (X : FloatDatum) : Prop :=
  ∃ e, Reads text [e] ∧ e.float? = some (F, X)

theorem SpellsFloat.read {text : String} {F : FloatFormat} {X : FloatDatum}
    (h : SpellsFloat text F X) : (SExpr.read text).bind SExpr.float? = some (F, X) := by
  obtain ⟨e, he, hvalue⟩ := h
  rw [he.read, Option.bind_some, hvalue]

theorem spellsFloat_special {text name : String} {X : FloatDatum} {exp sig : ℕ}
    (hname : IsWord name) (htext : text.toList = (indexedText name [exp, sig]).toList)
    (h : FloatDatum.special? name = some X) : SpellsFloat text ⟨exp, sig⟩ X := by
  refine ⟨_, reads_indexed_of hname [exp, sig] htext, ?_⟩
  have hindices := numerals?_toString [exp, sig]
  simp only [SExpr.indexed, SExpr.list, List.foldr_cons] at hindices ⊢
  simp only [SExpr.float?, hindices, h, Option.map_some]

theorem spellsFloat_toFp (exp sig : ℕ) (mode : RoundingMode) (q : ℚ) :
    SpellsFloat s!"((_ to_fp {exp} {sig}) {mode.smt} {Literal.ratSmt q})" ⟨exp, sig⟩
      (FloatFormat.round ⟨exp, sig⟩ mode (.ofRat q)) := by
  refine ⟨_, reads_toFp exp sig mode q, ?_⟩
  have hindices := numerals?_toString [exp, sig]
  simp only [SExpr.indexed, SExpr.list, List.foldr_cons, List.foldr_nil] at hindices ⊢
  simp only [SExpr.float?, hindices, ofName?_smt, real?_rational]

theorem spellsFloat_fields {e f : ℕ} (he : 0 < e) (hf : 0 < f) (bits : ℕ) :
    SpellsFloat (Literal.fpSmt bits e f) ⟨e, f + 1⟩
      (FloatFormat.decode ⟨e, f + 1⟩ (bits / modulus (e + f) % 2 == 1)
        (bits / modulus f % modulus e) (bits % modulus f)) := by
  refine ⟨_, reads_fpSmt bits e f, ?_⟩
  have hsign := bits?_sign (n := bits / modulus (e + f) % 2) (Nat.mod_lt _ two_pos)
  have hexp := bits?_paddedDigits he (Nat.mod_lt (bits / modulus f) (Nat.two_pow_pos e))
  have hfrac := bits?_paddedDigits hf (Nat.mod_lt bits (Nat.two_pow_pos f))
  rw [← modulus_eq] at hexp hfrac
  simp only [SExpr.list, List.foldr, SExpr.float?, hsign, hexp, hfrac]

end Terms

namespace Binary64

variable {x : Binary64}

theorem datum_of_finite (hnan : x.isNaN = false) (hinf : x.isInfinite = false) :
    x.datum = .number x.negative (x.magnitude : ℚ) := by
  rw [datum, extent, hnan, hinf]
  rfl

theorem ofRat_toRat (hnan : x.isNaN = false) (hinf : x.isInfinite = false)
    (hzero : x.isZero = false) : FloatDatum.ofRat x.toRat = x.datum := by
  have hpos := magnitude_pos (significand_ne_zero hzero)
  rw [datum_of_finite hnan hinf, FloatDatum.ofRat, toRat]
  cases x.negative
  · simp [abs_of_pos hpos, hpos.le]
  · simp [abs_of_pos hpos, hpos]

end Binary64

/-- A constant is spelled as the number of its word, rounded to its format. -/
theorem Literal.spellsFloat_floatSmt (exp sig : ℕ) (x : Binary64) (mode : RoundingMode) :
    SpellsFloat (floatSmt exp sig x mode) ⟨exp, sig⟩
      (FloatFormat.round ⟨exp, sig⟩ mode x.datum) := by
  obtain ⟨sign, hsign⟩ : ∃ sign, sign = if x.negative then "-" else "+" := ⟨_, rfl⟩
  have hword : IsWord sign := by
    rw [hsign]
    split_ifs <;> decide
  unfold floatSmt
  simp only
  rw [← hsign]
  split_ifs with hnan hinf hzero hdouble hsingle
  · rw [Binary64.datum, if_pos hnan, FloatFormat.round_nan]
    exact spellsFloat_special (show IsWord "NaN" by decide) (by simp) rfl
  · have hspecial : FloatDatum.special? (sign ++ "oo") = some (.number x.negative ⊤) := by
      rw [hsign]
      cases x.negative <;> rfl
    rw [Binary64.datum, if_neg hnan, Binary64.extent, if_pos hinf, FloatFormat.round_number,
      FloatFormat.roundMagnitude_top]
    exact spellsFloat_special (hword.append (by decide)) (by simp) hspecial
  · have hspecial : FloatDatum.special? (sign ++ "zero") = some (.number x.negative 0) := by
      rw [hsign]
      cases x.negative <;> rfl
    have hextent : x.extent = 0 := Binary64.extent_eq_zero_iff.2 (Binary64.isZero_iff.1 hzero)
    rw [Binary64.datum, if_neg hnan, hextent, FloatFormat.round_number,
      FloatFormat.roundMagnitude_zero]
    exact spellsFloat_special (hword.append (by decide)) (by simp) hspecial
  · obtain ⟨rfl, rfl⟩ := hdouble
    rw [Binary64.round_double, ← Binary64.decode_double, Binary64.negative_eq]
    exact spellsFloat_fields (by omega) (by omega) x.bits.toNat
  · obtain ⟨rfl, rfl, hmode⟩ := hsingle
    rw [Bool.not_eq_true] at hnan hinf hzero
    rw [← Binary64.decode_single hnan hinf hzero hmode]
    exact spellsFloat_fields (by omega) (by omega) x.singleBits
  · rw [Bool.not_eq_true] at hnan hinf hzero
    rw [← Binary64.ofRat_toRat hnan hinf hzero]
    exact spellsFloat_toFp exp sig mode x.toRat

end SmtLowering
