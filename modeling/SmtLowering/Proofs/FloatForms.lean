import SmtLowering.Proofs.FloatLiterals

/-!
# Forms of float literals

Which form a float literal takes, by the number that its word stands for (`FloatForm`): names for
what is no number, infinite or zero, the word's own fields in its own format, single-precision
fields where rounding to nearest gives the number that the mode asks for, and otherwise the exact
rational for the solver to round. A word is exact in single precision iff rounding to that format
keeps its number (`Binary64.isSingle_iff`).
-/

namespace SmtLowering

namespace Binary64

variable {x : Binary64} {mode : RoundingMode} {negative : Bool}

section Single

variable (h : x.significand ≠ 0)
include h

/-- What is exact in single precision is a whole number of quanta in range. -/
theorem roundMagnitude_of_isSingle (hsingle : x.isSingle = true) :
    FloatFormat.roundMagnitude ⟨8, 24⟩ mode negative x.magnitude = x.magnitude := by
  obtain ⟨hexp, hmod⟩ : x.singleExponent < 255 ∧ x.singleQuotient.1 % x.singleQuotient.2 = 0 := by
    simpa [isSingle] using hsingle
  obtain ⟨n, hn⟩ : ∃ n : ℕ, n = x.singleQuotient.1 / x.singleQuotient.2 := ⟨_, rfl⟩
  have hquotient : x.magnitude / FloatFormat.quantum ⟨8, 24⟩ x.magnitude = n := by
    have hden : (x.singleQuotient.2 : ℚ) ≠ 0 := by exact_mod_cast x.singleQuotient_pos.ne'
    rw [magnitude_div_quantum h, hn, Nat.cast_div (Nat.dvd_of_mod_eq_zero hmod) hden]
  have hwhole : x.magnitude = (n : ℤ) * FloatFormat.quantum ⟨8, 24⟩ x.magnitude :=
    (div_eq_iff (FloatFormat.quantum_pos _).ne').1 (by exact_mod_cast hquotient)
  have hlt : n < 2 ^ 24 := by
    have hlt := FloatFormat.div_quantum_lt ⟨8, 24⟩ x.magnitude
    rw [hquotient] at hlt
    exact_mod_cast hlt
  refine FloatFormat.roundMagnitude_of_whole hwhole ?_
  rw [hwhole, Int.cast_natCast, quantum_single h]
  exact (le_maxFinite_iff hexp hlt.le).2 fun htop => hlt.ne htop.2

theorem isSingle_of_roundMagnitude
    (hround : FloatFormat.roundMagnitude ⟨8, 24⟩ .nearestEven negative x.magnitude =
      x.magnitude) : x.isSingle = true := by
  rw [FloatFormat.roundMagnitude_coe] at hround
  split_ifs at hround with hle
  · have hkept : FloatFormat.rounded ⟨8, 24⟩ .nearestEven negative x.magnitude = x.magnitude := by
      exact_mod_cast hround
    have hexp : x.singleExponent < 255 := by
      by_contra hexp
      exact absurd hle (not_le_of_gt (maxFinite_lt_rounded h (by omega)))
    obtain ⟨z, hz⟩ : ∃ z : ℤ, (x.singleQuotient.1 / x.singleQuotient.2 : ℚ) = z :=
      ⟨_, (magnitude_div_quantum h).symm.trans
        ((div_eq_iff (FloatFormat.quantum_pos _).ne').2 hkept.symm)⟩
    have hden : (x.singleQuotient.2 : ℚ) ≠ 0 := by exact_mod_cast x.singleQuotient_pos.ne'
    have hmul : (x.singleQuotient.1 : ℤ) = z * x.singleQuotient.2 := by
      exact_mod_cast (div_eq_iff hden).1 hz
    have hdvd : x.singleQuotient.2 ∣ x.singleQuotient.1 :=
      Int.natCast_dvd_natCast.1 ⟨z, by rw [hmul, mul_comm]⟩
    simp [isSingle, hexp, Nat.mod_eq_zero_of_dvd hdvd]
  · exact absurd hround (WithTop.top_ne_coe)

end Single

/-- A word is exact in single precision iff no mode changes its number. -/
theorem isSingle_iff (hnan : x.isNaN = false) (hinf : x.isInfinite = false)
    (hzero : x.isZero = false) :
    x.isSingle = true ↔ ∀ mode, FloatFormat.round ⟨8, 24⟩ mode x.datum = x.datum := by
  have h := significand_ne_zero hzero
  simp only [datum_of_finite hnan hinf, FloatFormat.round_number, FloatDatum.number.injEq,
    true_and]
  exact ⟨fun hsingle _ => roundMagnitude_of_isSingle h hsingle,
    fun hround => isSingle_of_roundMagnitude h (hround .nearestEven)⟩

end Binary64

/-- A finite number other than zero. -/
def FloatDatum.Regular (X : FloatDatum) : Prop :=
  ∃ (negative : Bool) (m : ℚ), 0 < m ∧ X = .number negative m

/-- The forms of a word's literal in a format. -/
inductive FloatForm (exp sig : ℕ) (mode : RoundingMode) (x : Binary64) : SExpr → Prop
  | nan (h : x.datum = .nan) : FloatForm exp sig mode x (.indexed "NaN" [exp, sig])
  | infinity (h : x.datum = .number x.negative ⊤) :
    FloatForm exp sig mode x (.indexed (if x.negative then "-oo" else "+oo") [exp, sig])
  | zero (h : x.datum = .number x.negative 0) :
    FloatForm exp sig mode x (.indexed (if x.negative then "-zero" else "+zero") [exp, sig])
  /-- The bits of the word. -/
  | double {s e f : String} (hx : x.datum.Regular) (hF : exp = 11 ∧ sig = 53)
    (hs : SExpr.bits? s = some (1, x.bits.toNat / 2 ^ 63))
    (he : SExpr.bits? e = some (11, x.bits.toNat / 2 ^ 52 % 2 ^ 11))
    (hf : SExpr.bits? f = some (52, x.bits.toNat % 2 ^ 52)) :
    FloatForm exp sig mode x (.list [.atom "fp", .atom s, .atom e, .atom f])
  /-- To nearest, or without loss. -/
  | single {s e f : String} (hx : x.datum.Regular) (hF : exp = 8 ∧ sig = 24)
    (h : mode = .nearestEven ∨
      ∀ mode', FloatFormat.round ⟨8, 24⟩ mode' x.datum = x.datum) :
    FloatForm exp sig mode x (.list [.atom "fp", .atom s, .atom e, .atom f])
  /-- The exact number, to be rounded in the mode. -/
  | rational {t : SExpr} {q : ℚ} (hx : x.datum.Regular) (hdouble : ¬(exp = 11 ∧ sig = 53))
    (hsingle : exp = 8 ∧ sig = 24 → mode ≠ .nearestEven ∧
      ¬∀ mode', FloatFormat.round ⟨8, 24⟩ mode' x.datum = x.datum)
    (ht : t.real? = some q) (hq : FloatDatum.ofRat q = x.datum) :
    FloatForm exp sig mode x
      (.list [.indexed "to_fp" [exp, sig], .atom mode.smt, t])

namespace Literal

theorem reads_floatForm (exp sig : ℕ) (x : Binary64) (mode : RoundingMode) :
    ∃ e, Reads (floatSmt exp sig x mode) [e] ∧ FloatForm exp sig mode x e := by
  obtain ⟨sign, hsign⟩ : ∃ sign, sign = if x.negative then "-" else "+" := ⟨_, rfl⟩
  have hname (name : String) :
      (if x.negative then "-" ++ name else "+" ++ name) = sign ++ name := by
    rw [hsign]
    split_ifs <;> rfl
  have hword : IsWord sign := by
    rw [hsign]
    split_ifs <;> decide
  unfold floatSmt
  simp only
  rw [← hsign]
  split_ifs with hnan hinf hzero hdouble hsingle
  · exact ⟨_, reads_indexed_of (show IsWord "NaN" by decide) [exp, sig] (by simp),
      .nan (by rw [Binary64.datum, if_pos hnan])⟩
  · refine ⟨_, reads_indexed_of (hword.append (by decide : Ordinary "oo")) [exp, sig] (by simp), ?_⟩
    rw [← hname "oo"]
    exact .infinity (by rw [Binary64.datum, if_neg hnan, Binary64.extent, if_pos hinf])
  · refine ⟨_, reads_indexed_of (hword.append (by decide : Ordinary "zero")) [exp, sig] (by simp),
      ?_⟩
    have hextent : x.extent = 0 := Binary64.extent_eq_zero_iff.2 (Binary64.isZero_iff.1 hzero)
    rw [← hname "zero"]
    exact .zero (by rw [Binary64.datum, if_neg hnan, hextent])
  all_goals
    rw [Bool.not_eq_true] at hnan hinf hzero
    have hx : x.datum.Regular := ⟨x.negative, x.magnitude,
      Binary64.magnitude_pos (Binary64.significand_ne_zero hzero),
      Binary64.datum_of_finite hnan hinf⟩
  · have hsignBit : x.bits.toNat / modulus (11 + 52) % 2 = x.bits.toNat / 2 ^ 63 := by
      have hlt := x.bits.toNat_lt
      rw [modulus_eq]
      omega
    refine ⟨_, reads_fpSmt x.bits.toNat 11 52, .double hx hdouble ?_
      (bits?_paddedDigits (by omega) (Nat.mod_lt _ (Nat.two_pow_pos 11)))
      (bits?_paddedDigits (by omega) (Nat.mod_lt _ (Nat.two_pow_pos 52)))⟩
    rw [bits?_sign (Nat.mod_lt _ two_pos), hsignBit]
  · refine ⟨_, reads_fpSmt x.singleBits 8 23, .single hx ⟨hsingle.1, hsingle.2.1⟩ ?_⟩
    exact hsingle.2.2.symm.imp_right (Binary64.isSingle_iff hnan hinf hzero).1
  · refine ⟨_, reads_toFp exp sig mode x.toRat, .rational hx hdouble (fun hF => ?_)
      (real?_rational x.toRat) (Binary64.ofRat_toRat hnan hinf hzero)⟩
    rw [← Binary64.isSingle_iff hnan hinf hzero]
    exact ⟨fun hmode => hsingle ⟨hF.1, hF.2, .inr hmode⟩,
      fun hexact => hsingle ⟨hF.1, hF.2, .inl hexact⟩⟩

/-- A float literal denotes the number of its word, rounded to the format in the mode; the form is
the one for that number. -/
theorem float_denotes (exp sig : ℕ) (x : Binary64) (mode : RoundingMode) :
    ∃ text e, (float exp sig x).smt mode = .ok text ∧ SExpr.read text = some e ∧
      e.float? = some (⟨exp, sig⟩, FloatFormat.round ⟨exp, sig⟩ mode x.datum) ∧
      FloatForm exp sig mode x e := by
  obtain ⟨e, hreads, hform⟩ := reads_floatForm exp sig x mode
  have hvalue := (spellsFloat_floatSmt exp sig x mode).read
  rw [hreads.read, Option.bind_some] at hvalue
  exact ⟨_, e, rfl, hreads.read, hvalue, hform⟩

end Literal

end SmtLowering
