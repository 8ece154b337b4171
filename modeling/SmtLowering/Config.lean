/-!
# Session configuration

The rounding mode is that of floating-point constants which their format cannot hold exactly.
-/

namespace SmtLowering

inductive RoundingMode
  | nearestEven
  | nearestAway
  | towardPositive
  | towardNegative
  | towardZero
  deriving DecidableEq, Inhabited

def RoundingMode.smt : RoundingMode → String
  | .nearestEven => "RNE"
  | .nearestAway => "RNA"
  | .towardPositive => "RTP"
  | .towardNegative => "RTN"
  | .towardZero => "RTZ"

structure Config where
  rounding : RoundingMode := .nearestEven
  /-- Symbolic multiplication overflow uses the solver's own predicates, not the bit-serial
  encoding; a concrete operand always takes the encoding. -/
  nativeMulOverflow : Bool := false
  incremental : Bool := false
  /-- Solver options in the order they were given. -/
  options : List (String × String) := []
  deriving DecidableEq, Inhabited

def Config.optionLines (c : Config) : List String :=
  c.options.map fun (key, value) => s!"(set-option :{key} {value})"

end SmtLowering
