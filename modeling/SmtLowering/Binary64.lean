import SmtLowering.Word

/-!
# Binary64 words

A floating-point constant is the 64-bit word of an IEEE double. All its arithmetic is exact:
`Binary64.toRat` reads a finite word as a rational, the comparisons work on an order key, and
`Binary64.singleBits` rounds to single precision. No runtime floating-point operation is used.
-/

namespace SmtLowering

structure Binary64 where
  bits : UInt64
  deriving DecidableEq, Inhabited

namespace Binary64

def fraction (x : Binary64) : Nat := x.bits.toNat % modulus 52

def exponent (x : Binary64) : Nat := x.bits.toNat / modulus 52 % modulus 11

def negative (x : Binary64) : Bool := modulus 63 ≤ x.bits.toNat

def isNaN (x : Binary64) : Bool := x.exponent == 2047 && x.fraction != 0

def isInfinite (x : Binary64) : Bool := x.exponent == 2047 && x.fraction == 0

def isZero (x : Binary64) : Bool := x.exponent == 0 && x.fraction == 0

section Finite

/-- The magnitude of a finite word is `significand * 2 ^ scale`. -/
def significand (x : Binary64) : Nat :=
  if x.exponent = 0 then x.fraction else modulus 52 + x.fraction

def scale (x : Binary64) : Int := (max x.exponent 1 : Nat) - 1075

def magnitude (x : Binary64) : Rat :=
  if x.scale < 0 then mkRat x.significand (modulus x.scale.natAbs)
  else mkRat (x.significand * modulus x.scale.natAbs) 1

def toRat (x : Binary64) : Rat := if x.negative then -x.magnitude else x.magnitude

end Finite

section Order

/-- Orders the words that are not NaN as their values; both zeros have key zero. -/
def orderKey (x : Binary64) : Int :=
  if x.negative then -(x.bits.toNat % modulus 63 : Nat) else (x.bits.toNat % modulus 63 : Nat)

/-- The order of two values, `none` if one of them is NaN. -/
def compare? (x y : Binary64) : Option Ordering :=
  if x.isNaN || y.isNaN then none else some (compare x.orderKey y.orderKey)

/-- Equality of values: NaN differs from itself and the two zeros are equal. -/
def equal (x y : Binary64) : Bool := x.compare? y == some .eq

end Order

section Single

/-- The quotient rounded to a whole number, a half going to the even neighbour. -/
def roundHalfEven (num den : Nat) : Nat :=
  let q := num / den
  let r := num % den
  if 2 * r < den then q
  else if den < 2 * r then q + 1
  else q + q % 2

/-- The biased single-precision exponent of the binade a nonzero finite word lies in, at least
that of the subnormals. -/
def singleExponent (x : Binary64) : Nat :=
  (x.significand.log2 + x.scale + 127).toNat.max 1

/-- The magnitude over the unit in the last place of its single-precision binade. -/
def singleQuotient (x : Binary64) : Nat × Nat :=
  let shift := x.scale - (x.singleExponent - 150)
  if shift < 0 then (x.significand, modulus shift.natAbs)
  else (x.significand * modulus shift.natAbs, 1)

/-- The nonzero finite word has a single-precision word of the same value. -/
def isSingle (x : Binary64) : Bool :=
  x.singleExponent < 255 && x.singleQuotient.1 % x.singleQuotient.2 == 0

/-- The single-precision word nearest to a nonzero finite word, ties to even. A significand that
rounds up to the next binade carries into the exponent, past the last one into infinity. -/
def singleBits (x : Binary64) : Nat :=
  let unsigned :=
    if x.singleExponent < 255 then
      (x.singleExponent - 1) * modulus 23 + roundHalfEven x.singleQuotient.1 x.singleQuotient.2
    else 255 * modulus 23
  if x.negative then modulus 31 + unsigned else unsigned

end Single

section Decimal

/-- The rounding interval of a nonzero finite word in quarter units of its last place: lower
end, value and upper end. Below a power of two the neighbour is half as far. -/
def interval (x : Binary64) : Nat × Nat × Nat :=
  let m := 4 * x.significand
  (if x.fraction = 0 ∧ x.exponent ≠ 0 then m - 1 else m - 2, m, m + 2)

/-- The multiple of `10 ^ e` in the rounding interval that is nearest to the value, divided by
`10 ^ e`; of two equally near ones the greater. The ends belong to the interval iff the significand
is even. -/
def onGrid? (x : Binary64) (e : Int) : Option Nat :=
  let q := x.scale - 2
  let unit := modulus q.toNat * Nat.pow 10 (-e).toNat
  let step := modulus (-q).toNat * Nat.pow 10 e.toNat
  let (lo, mid, hi) := x.interval
  let inside (c : Nat) : Bool :=
    if x.significand % 2 = 0 then lo * unit ≤ c * step && c * step ≤ hi * unit
    else lo * unit < c * step && c * step < hi * unit
  let c := mid * unit / step
  match inside c, inside (c + 1) with
  | true, true => some (if mid * unit - c * step < (c + 1) * step - mid * unit then c else c + 1)
  | true, false => some c
  | false, true => some (c + 1)
  | false, false => none

/-- Digits and decimal exponent of the shortest decimal in the rounding interval: that on the
coarsest decimal grid with a point in it. -/
def shortest (x : Binary64) : Nat × Int :=
  ((List.range 635).findSome? fun (i : Nat) =>
    (x.onGrid? (309 - i)).map (·, (309 - i : Int))).getD (0, 0)

/-- A decimal in positional notation, without a point if it is whole. -/
def positional (digits : Nat) (e : Int) : String :=
  if 0 ≤ e then toString digits ++ String.ofList (List.replicate e.toNat '0')
  else
    let text := (Nat.toDigits 10 digits).leftpad (e.natAbs + 1) '0'
    let whole := text.length - e.natAbs
    String.ofList (text.take whole) ++ "." ++ String.ofList (text.drop whole)

/-- The shortest decimal that reads back as the word, never in exponent notation. -/
def display (x : Binary64) : String :=
  if x.isNaN then "NaN"
  else
    let text :=
      if x.isInfinite then "inf"
      else if x.isZero then "0"
      else positional x.shortest.1 x.shortest.2
    if x.negative then "-" ++ text else text

instance : ToString Binary64 := ⟨display⟩

end Decimal

end Binary64

end SmtLowering
