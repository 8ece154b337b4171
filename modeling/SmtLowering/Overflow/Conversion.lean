import SmtLowering.Overflow.Basic

/-!
# Overflow of conversions

Whether a word lies outside the range of another word kind is decided on its bits alone.
-/

namespace SmtLowering.Overflow

/-- Some bit from `lo` up to and without `hi` is set. -/
def anySet (a : Value) (lo hi : Nat) : Build Value := do
  if hi ≤ lo then pure (.bool false)
  else
    let bits ← Build.extract a (hi - 1) lo
    Build.neq bits (.concrete (.ofInt bits.kind 0))

/-- Every bit from `lo` up to and without `hi` is set. -/
def allSet (a : Value) (lo hi : Nat) : Build Value := do
  if hi ≤ lo then pure (.bool true)
  else
    let bits ← Build.extract a (hi - 1) lo
    Build.eq bits (maxOf bits.kind)
where
  maxOf : Kind → Value
    | .bitVec signed width => .concrete (.maxWord signed width)
    | k => .concrete (.ofInt k 0)

/-- Signedness and width of a kind that has to be a word. -/
def wordKind (op : String) : Kind → Build (Bool × Nat)
  | .bitVec signed width => pure (signed, width)
  | k => Build.fail (.invalidOperand op k)

/-- Converting `a` to the word kind `target` leaves the target's range. -/
def ofConversion (a : Value) (target : Kind) : Build Overflow := do
  let (fromSigned, n) ← wordKind "fromIntegral" a.kind
  let (toSigned, m) ← wordKind "fromIntegral" target
  if n = 0 then pure never
  else
    let sign ← if fromSigned then Build.signBit a else pure (.bool false)
    let positive ← Build.not sign
    if !toSigned || m == 0 then
      if fromSigned then
        let high ← anySet a m (n - 1)
        let beyond ← Build.and positive high
        pure ⟨sign, beyond⟩
      else
        let beyond ← anySet a m n
        pure ⟨sign, beyond⟩
    else if !fromSigned then
      let beyond ← anySet a (m - 1) n
      pure (above beyond)
    else
      let high ← anySet a (m - 1) (n - 1)
      let allHigh ← allSet a (m - 1) (n - 1)
      let notAllHigh ← Build.not allHigh
      let below ← Build.and sign notAllHigh
      let beyond ← Build.and positive high
      pure ⟨below, beyond⟩

end SmtLowering.Overflow
