import SmtLowering.Build.Arithmetic
import SmtLowering.Build.Logic

/-!
# Overflow conditions

An operation on words leaves its range below the minimum (underflow) or above the maximum
(overflow). The conditions are values: they fold on literals and are nodes otherwise. The
`u` predicates read operands as unsigned and the `s` predicates as two's complement, whatever
their kind says, but for the constants of division and negation.
-/

namespace SmtLowering

structure Overflow where
  underflow : Value
  overflow : Value
  deriving DecidableEq, Inhabited

namespace Overflow

def never : Overflow := ⟨.bool false, .bool false⟩

/-- Only overflow, under a condition. -/
def above (v : Value) : Overflow := ⟨.bool false, v⟩

def either (o : Overflow) : Build Value := Build.or o.underflow o.overflow

/-- Both conditions, if they are literals. -/
def asBools? (o : Overflow) : Option (Bool × Bool) := do
  let u ← o.underflow.asBool?
  let v ← o.overflow.asBool?
  pure (u, v)

section Operands

def operandWidth (op : String) (a : Value) : Build Nat := Build.wordWidth op a

/-- The width of two words of one kind. -/
def operandsWidth (op : String) (a b : Value) : Build Nat := do
  Build.sameKind op a b
  operandWidth op a

def and3 (a b c : Value) : Build Value := do
  let ab ← Build.and a b
  Build.and ab c

end Operands

section Sum

/-- Carry into bit `n` of the `(n+1)`-bit sum. -/
def uadd (a b : Value) : Build Overflow := do
  let n ← operandsWidth "bvAddO" a b
  if n = 0 then pure never
  else
    let wa ← Build.zeroExtend a (n + 1)
    let wb ← Build.zeroExtend b (n + 1)
    let sum ← Build.add wa wb
    let carry ← Build.testBit sum n
    pure (above carry)

/-- Operands of one sign whose sum has the other. -/
def sadd (a b : Value) : Build Overflow := do
  let n ← operandsWidth "bvAddO" a b
  if n = 0 then pure never
  else
    let sum ← Build.add a b
    let sa ← Build.signBit a
    let sb ← Build.signBit b
    let ss ← Build.signBit sum
    let na ← Build.not sa
    let nb ← Build.not sb
    let ns ← Build.not ss
    let below ← and3 sa sb ns
    let beyond ← and3 na nb ss
    pure ⟨below, beyond⟩

/-- Borrow out of bit `n` of the `(n+1)`-bit difference. -/
def usub (a b : Value) : Build Overflow := do
  let n ← operandsWidth "bvSubO" a b
  if n = 0 then pure never
  else
    let wa ← Build.zeroExtend a (n + 1)
    let wb ← Build.zeroExtend b (n + 1)
    let diff ← Build.sub wa wb
    let borrow ← Build.testBit diff n
    pure ⟨borrow, .bool false⟩

/-- Operands of different signs whose difference has not the first one's. -/
def ssub (a b : Value) : Build Overflow := do
  let n ← operandsWidth "bvSubO" a b
  if n = 0 then pure never
  else
    let diff ← Build.sub a b
    let sa ← Build.signBit a
    let sb ← Build.signBit b
    let sd ← Build.signBit diff
    let na ← Build.not sa
    let nb ← Build.not sb
    let nd ← Build.not sd
    let below ← and3 sa nb nd
    let beyond ← and3 na sb sd
    pure ⟨below, beyond⟩

end Sum

section Product

/-- Whether the solver's own predicates serve: both operands are symbolic and the configuration
asks for them. -/
def usesNative (a b : Value) : Build Bool := do
  let s ← get
  pure (s.config.nativeMulOverflow && !a.isConcrete && !b.isConcrete)

/-- Scans `i = 1 … n-1` for a bit `i` of `b` together with some bit of `a` from `n-i` on: such a
product wraps past bit `n`. -/
def uscan (a b : Value) (n : Nat) : Build Value := do
  let (_, wrapped) ← (List.range' 1 (n - 1)).foldlM
    (fun (seen, wrapped) i => do
      let ai ← Build.testBit a (n - i)
      let seen ← Build.or seen ai
      let bi ← Build.testBit b i
      let hit ← Build.and seen bi
      let wrapped ← Build.or wrapped hit
      pure (seen, wrapped))
    (Value.bool false, Value.bool false)
  pure wrapped

/-- Bit `n` of the `(n+1)`-bit product, or a product that wraps past it. -/
def umul (a b : Value) : Build Overflow := do
  let n ← operandsWidth "bvMulO" a b
  if n = 0 then pure never
  else if ← usesNative a b then
    let ok ← Build.umulNoOverflow a b
    let beyond ← Build.not ok
    pure (above beyond)
  else
    let wa ← Build.zeroExtend a (n + 1)
    let wb ← Build.zeroExtend b (n + 1)
    let product ← Build.mul wa wb
    let carried ← Build.testBit product n
    let wrapped ← uscan a b n
    let beyond ← Build.or carried wrapped
    pure (above beyond)

/-- Scans `i = 1 … n-2` for a magnitude bit `i` of `b` together with some magnitude bit of `a` from
`n-1-i` on. A magnitude bit is one that differs from its operand's sign. -/
def sscan (a b sa sb : Value) (n : Nat) : Build Value := do
  let (_, wrapped) ← (List.range' 1 (n - 2)).foldlM
    (fun (seen, wrapped) i => do
      let bi ← Build.testBit b i
      let mb ← Build.xor sb bi
      let ai ← Build.testBit a (n - 1 - i)
      let ma ← Build.xor sa ai
      let seen ← Build.or seen ma
      let hit ← Build.and seen mb
      let wrapped ← Build.or wrapped hit
      pure (seen, wrapped))
    (Value.bool false, Value.bool false)
  pure wrapped

/-- The top two bits of the `(n+1)`-bit product differ, or the magnitudes multiply past the sign
bit. Operands of one sign then overflow, others underflow. -/
def smul (a b : Value) : Build Overflow := do
  let n ← operandsWidth "bvMulO" a b
  if n = 0 then pure never
  else if ← usesNative a b then
    let noOver ← Build.smulNoOverflow a b
    let noUnder ← Build.smulNoUnderflow a b
    let below ← Build.not noUnder
    let beyond ← Build.not noOver
    pure ⟨below, beyond⟩
  else
    let wa ← Build.signExtend a (n + 1)
    let wb ← Build.signExtend b (n + 1)
    let product ← Build.mul wa wb
    let top ← Build.testBit product n
    let next ← Build.testBit product (n - 1)
    let spilled ← Build.xor top next
    let sa ← Build.testBit a (n - 1)
    let sb ← Build.testBit b (n - 1)
    let wrapped ← sscan a b sa sb n
    let flag ← Build.or spilled wrapped
    let differ ← Build.xor sa sb
    let same ← Build.not differ
    let below ← Build.and differ flag
    let beyond ← Build.and same flag
    pure ⟨below, beyond⟩

end Product

section Quotient

/-- The least word of a kind, zero for one that is no word. -/
def minOf : Kind → Value
  | .bitVec signed width => .concrete (.minWord signed width)
  | k => .concrete (.ofInt k 0)

def udiv (a b : Value) : Build Overflow := do
  let _ ← operandsWidth "bvDivO" a b
  pure never

/-- The minimum over minus one. -/
def sdiv (a b : Value) : Build Overflow := do
  let n ← operandsWidth "bvDivO" a b
  if n = 0 then pure never
  else
    let aMin ← Build.eq a (minOf a.kind)
    let bMinusOne ← Build.eq b (.concrete (.ofInt a.kind (-1)))
    let beyond ← Build.and aMin bMinusOne
    pure (above beyond)

def uneg (a : Value) : Build Overflow := do
  let _ ← operandWidth "bvNegO" a
  pure never

/-- The minimum. -/
def sneg (a : Value) : Build Overflow := do
  let n ← operandWidth "bvNegO" a
  if n = 0 then pure never
  else
    let beyond ← Build.eq a (minOf a.kind)
    pure (above beyond)

end Quotient

section Signedness

inductive ArithOp
  | add | sub | mul | div
  deriving DecidableEq, Inhabited

def ArithOp.name : ArithOp → String
  | .add => "add"
  | .sub => "sub"
  | .mul => "mul"
  | .div => "div"

def ArithOp.all : List ArithOp := [.add, .sub, .mul, .div]

/-- The conditions of `a op b`, by the signedness of the operands' kind. -/
def ofOp (op : ArithOp) (a b : Value) : Build Overflow :=
  match op, a.kind.isSigned with
  | .add, false => uadd a b
  | .add, true => sadd a b
  | .sub, false => usub a b
  | .sub, true => ssub a b
  | .mul, false => umul a b
  | .mul, true => smul a b
  | .div, false => udiv a b
  | .div, true => sdiv a b

def ofNeg (a : Value) : Build Overflow := if a.kind.isSigned then sneg a else uneg a

end Signedness

end Overflow

end SmtLowering
