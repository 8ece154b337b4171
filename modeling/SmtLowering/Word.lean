/-!
# Words

Arithmetic of two's-complement words on integers. `wrap` gives the canonical value of a word:
unsigned ones lie in `[0, 2^n)`, signed ones in `[-2^(n-1), 2^(n-1))`. `patternOf` and
`signedReading` read the bits of a canonical value without regard to its kind's signedness.
-/

namespace SmtLowering

/-- The number of words of a width, `2^width`. -/
def modulus (width : Nat) : Nat := Nat.pow 2 width

/-- The canonical value of the word that is congruent to `v`. -/
def wrap (signed : Bool) (width : Nat) (v : Int) : Int :=
  if width = 0 then 0
  else
    let u := v % modulus width
    if signed ∧ modulus (width - 1) ≤ u then u - modulus width else u

/-- The bit pattern of a canonical value, read as a number. -/
def patternOf (width : Nat) (v : Int) : Int := if v < 0 then v + modulus width else v

/-- The two's-complement reading of the bits of a canonical value. -/
def signedReading (width : Nat) (v : Int) : Int :=
  if width = 0 then 0
  else
    let bits := patternOf width v
    if modulus (width - 1) ≤ bits then bits - modulus width else bits

/-- The low `width` bits. -/
def lowBits (width : Nat) (v : Int) : Nat := (v % modulus width).toNat

/-- The quotient of two words. A zero divisor gives all ones, or one below a negative signed
dividend; otherwise the quotient is truncated. -/
def wordDiv (signed : Bool) (width : Nat) (a b : Int) : Int :=
  if b = 0 then if signed ∧ a < 0 then 1 else modulus width - 1
  else a.tdiv b

end SmtLowering
