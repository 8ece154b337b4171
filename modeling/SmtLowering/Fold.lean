import SmtLowering.Expr
import SmtLowering.Literal

/-!
# Constant folding

Operators on literals are computed exactly: words modulo their width, division by zero as SMT-LIB
fixes it for words. `none` leaves the application symbolic, as for a zero divisor of integers or
rationals.
-/

namespace SmtLowering

section Unary

/-- Operators on the bits of a word of width `w`. -/
def foldBits (op : Op) (w : Nat) (i : Int) (result : Kind) : Option Literal :=
  match op with
  | .not => some (.ofInt result ((modulus w - 1) ^^^ lowBits w i : Nat))
  | .zeroExtend _ => some (.ofInt result (patternOf w i))
  | .signExtend _ => some (.ofInt result (signedReading w i))
  | .extract _ lo => some (.ofInt result (patternOf w i >>> lo))
  | .testBit n => some (.bool ((patternOf w i >>> n) % 2 = 1))
  | _ => none

def foldUnary (op : Op) (c : Literal) (result : Kind) : Option Literal :=
  match c.payload with
  | .bool b => if op = .not then some (.bool !b) else none
  | .int i =>
    if op = .neg then some (.ofInt c.kind (-i))
    else c.kind.width?.bind (foldBits op · i result)
  | .real q => if op = .neg then some (.real (-q)) else none
  | .float _ => none

end Unary

section Comparison

/-- Whether an ordering operator holds of two values in this order. -/
def holdsIn (op : Op) (o : Ordering) : Bool :=
  match op with
  | .lt => o.isLT
  | .le => o.isLE
  | .gt => o.isGT
  | .ge => o.isGE
  | _ => false

/-- The order of two payloads of one sort; the inner `none` says that one of them is NaN. -/
def Payload.compare? : Payload → Payload → Option (Option Ordering)
  | .int a, .int b => some (some (compare a b))
  | .real a, .real b => some (some (if a < b then .lt else if a = b then .eq else .gt))
  | .float x, .float y => some (x.compare? y)
  | _, _ => none

/-- No ordering holds of NaN. -/
def foldComparison (op : Op) (p q : Payload) : Option Bool :=
  match op with
  | .eq => some (p.equal q)
  | .neq => some (!p.equal q)
  | op => (p.compare? q).map (·.any (holdsIn op))

end Comparison

section Binary

/-- Operators on truth values. -/
def foldBool (op : Op) (a b : Bool) : Option Bool :=
  match op with
  | .and => some (a && b)
  | .or => some (a || b)
  | .xor => some (a != b)
  | .implies => some (!a || b)
  | _ => none

/-- Operators on words of width `w`, bit by bit or on their product. -/
def foldWord (op : Op) (w : Nat) (a b : Int) (result : Kind) : Option Literal :=
  match op with
  | .and => some (.ofInt result (lowBits w a &&& lowBits w b : Nat))
  | .or => some (.ofInt result (lowBits w a ||| lowBits w b : Nat))
  | .xor => some (.ofInt result (lowBits w a ^^^ lowBits w b : Nat))
  | .umulNoOverflow => some (.bool (patternOf w a * patternOf w b < modulus w))
  | .smulNoOverflow =>
    some (.bool (w = 0 ∨ signedReading w a * signedReading w b < modulus (w - 1)))
  | .smulNoUnderflow =>
    some (.bool (w = 0 ∨ -modulus (w - 1) ≤ signedReading w a * signedReading w b))
  | _ => none

/-- The quotient under a kind: of words, or of integers with a remainder that is not negative. -/
def foldDiv (a b : Int) (result : Kind) : Option Literal :=
  match result with
  | .bitVec signed width => some (.word signed width (wordDiv signed width a b))
  | _ => if b = 0 then none else some (.int (a / b))

/-- Integer arithmetic, wrapped if the result is a word. -/
def foldInt (op : Op) (a b : Int) (result : Kind) : Option Literal :=
  match op with
  | .add => some (.ofInt result (a + b))
  | .sub => some (.ofInt result (a - b))
  | .mul => some (.ofInt result (a * b))
  | .div => foldDiv a b result
  | _ => none

def foldRat (op : Op) (a b : Rat) : Option Literal :=
  match op with
  | .add => some (.real (a + b))
  | .sub => some (.real (a - b))
  | .mul => some (.real (a * b))
  | .div => if b = 0 then none else some (.real (a / b))
  | _ => none

def foldBinary (op : Op) (c d : Literal) (result : Kind) : Option Literal :=
  if op.isComparison then (foldComparison op c.payload d.payload).map .bool
  else
    match c.payload, d.payload with
    | .bool a, .bool b => (foldBool op a b).map .bool
    | .int a, .int b =>
      (foldInt op a b result).or (c.kind.width?.bind (foldWord op · a b result))
    | .real a, .real b => foldRat op a b
    | _, _ => none

end Binary

end SmtLowering
