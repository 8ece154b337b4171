import SmtLowering.Build.Basic

/-!
# Arithmetic and bits

Arithmetic keeps the kind of its operands, words wrapping. Extensions keep the signedness of
theirs, `extract` gives an unsigned word.
-/

namespace SmtLowering.Build

section Arithmetic

def arith (op : Op) (name : String) (a b : Value) : Build Value := do
  sameKind name a b
  require name a a.kind.isNumeric
  binary op a b a.kind

def add (a b : Value) : Build Value := arith .add "+" a b

def sub (a b : Value) : Build Value := arith .sub "-" a b

def mul (a b : Value) : Build Value := arith .mul "*" a b

def div (a b : Value) : Build Value := arith .div "/" a b

def neg (a : Value) : Build Value := do
  require "negate" a a.kind.isNumeric
  unary .neg a a.kind

end Arithmetic

section Bits

/-- Widens a word by an operator that adds so many bits; a target narrower than the operand is a
violation. -/
def extend (op : Nat → Op) (name : String) (a : Value) (width : Nat) : Build Value := do
  let source ← wordWidth name a
  if width < source then throw (.violation (.narrowing name width source a.kind))
  else if width = source then pure a
  else unary (op (width - source)) a (a.kind.withWidth width)

def zeroExtend (a : Value) (width : Nat) : Build Value := extend .zeroExtend "zero_extend" a width

def signExtend (a : Value) (width : Nat) : Build Value := extend .signExtend "sign_extend" a width

/-- Bits `hi` down to `lo` as an unsigned word. -/
def extract (a : Value) (hi lo : Nat) : Build Value := do
  let w ← wordWidth "extract" a
  require "extract" a (lo ≤ hi && hi < w)
  if lo = 0 ∧ hi + 1 = w ∧ !a.kind.isSigned then pure a
  else unary (.extract hi lo) a (.unsigned (hi - lo + 1))

def testBit (a : Value) (i : Nat) : Build Value := do
  let w ← wordWidth "test_bit" a
  require "test_bit" a (i < w)
  unary (.testBit i) a .bool

/-- The top bit; false for a word without bits. -/
def signBit (a : Value) : Build Value := do
  match ← wordWidth "sign_bit" a with
  | 0 => pure (.bool false)
  | w + 1 => testBit a w

end Bits

section Native

/-- One of the solver's own predicates on the product of two words. -/
def native (op : Op) (name : String) (a b : Value) : Build Value := do
  sameKind name a b
  let _ ← wordWidth name a
  binary op a b .bool

def umulNoOverflow (a b : Value) : Build Value := native .umulNoOverflow "bvumul_noovfl" a b

def smulNoOverflow (a b : Value) : Build Value := native .smulNoOverflow "bvsmul_noovfl" a b

def smulNoUnderflow (a b : Value) : Build Value := native .smulNoUnderflow "bvsmul_noudfl" a b

end Native

end SmtLowering.Build
