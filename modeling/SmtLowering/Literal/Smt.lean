import SmtLowering.Config
import SmtLowering.Error

/-!
# Literals in SMT-LIB

`Literal.smt` spells a literal. Words take hexadecimal digits when four divides their width,
rationals are written exactly, and a float takes the `fp` form when its format is that of the
word, or single precision and the `fp` word is the one that the rounding mode gives; otherwise it
is left to the solver to round the exact rational.
-/

namespace SmtLowering

section Digits

/-- At least `width` digits in `base`, zeros in front. -/
def paddedDigits (base width n : Nat) : String :=
  String.ofList ((Nat.toDigits base n).leftpad width '0')

end Digits

namespace Literal

def wordSmt (width : Nat) (v : Int) : String :=
  let pattern := (patternOf width v).natAbs
  if 0 < width ∧ width % 4 = 0 then "#x" ++ paddedDigits 16 (width / 4) pattern
  else "#b" ++ paddedDigits 2 width pattern

def intSmt (v : Int) : String :=
  if v < 0 then s!"(- {v.natAbs})" else toString v.natAbs

def ratSmt (q : Rat) : String :=
  let magnitude :=
    if q.den = 1 then s!"{q.num.natAbs}.0" else s!"(/ {q.num.natAbs}.0 {q.den}.0)"
  if q.num < 0 then s!"(- {magnitude})" else magnitude

/-- Sign, exponent and fraction of a word with an exponent of `e` and a fraction of `f` bits. -/
def fpSmt (bits e f : Nat) : String :=
  let sign := bits / modulus (e + f) % 2
  s!"(fp #b{sign} #b" ++ paddedDigits 2 e (bits / modulus f % modulus e) ++
    " #b" ++ paddedDigits 2 f (bits % modulus f) ++ ")"

def floatSmt (exp sig : Nat) (x : Binary64) (mode : RoundingMode) : String :=
  let sign := if x.negative then "-" else "+"
  if x.isNaN then s!"(_ NaN {exp} {sig})"
  else if x.isInfinite then s!"(_ {sign}oo {exp} {sig})"
  else if x.isZero then s!"(_ {sign}zero {exp} {sig})"
  else if exp = 11 ∧ sig = 53 then fpSmt x.bits.toNat 11 52
  else if exp = 8 ∧ sig = 24 ∧ (x.isSingle ∨ mode = .nearestEven) then fpSmt x.singleBits 8 23
  else s!"((_ to_fp {exp} {sig}) {mode.smt} {ratSmt x.toRat})"

/-- The SMT-LIB literal, or the violation of a float payload under another kind. -/
def smt (mode : RoundingMode) : Literal → Except Violation String
  | ⟨_, .bool b⟩ => .ok (toString b)
  | ⟨.bitVec _ width, .int v⟩ => .ok (wordSmt width v)
  | ⟨_, .int v⟩ => .ok (intSmt v)
  | ⟨_, .real q⟩ => .ok (ratSmt q)
  | ⟨.float exp sig, .float x⟩ => .ok (floatSmt exp sig x mode)
  | ⟨kind, .float x⟩ => .error (.floatUnder kind x)

end Literal

end SmtLowering
