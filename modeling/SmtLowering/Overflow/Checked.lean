import SmtLowering.Build.Artifact
import SmtLowering.Overflow.Basic

/-!
# Checked arithmetic

The wrapped result of an operation, with the assertion that it stays in range. Division by zero
counts as in range.
-/

namespace SmtLowering.Overflow

/-- Asserts under a label that neither condition holds. -/
def obligation (label : String) (o : Overflow) : Build Unit := do
  let bad ← o.either
  let ok ← Build.not bad
  Build.assert label ok

def checked (op : ArithOp) (a b : Value) : Build Value := do
  let o ← ofOp op a b
  obligation s!"{a.kind} {op.name} does not overflow" o
  match op with
  | .add => Build.add a b
  | .sub => Build.sub a b
  | .mul => Build.mul a b
  | .div => Build.div a b

def checkedNeg (a : Value) : Build Value := do
  let o ← ofNeg a
  obligation s!"{a.kind} neg does not overflow" o
  Build.neg a

end SmtLowering.Overflow
