import SmtLowering.Expr
import SmtLowering.Literal

/-!
# Values

A value is a literal or a node of one scope, which it names by number.
-/

namespace SmtLowering

inductive Value
  | concrete (c : Literal)
  | symbolic (node : NodeId) (kind : Kind) (scope : Nat)
  deriving DecidableEq, Inhabited

namespace Value

def bool (b : Bool) : Value := .concrete (.bool b)

def kind : Value → Kind
  | .concrete c => c.kind
  | .symbolic _ k _ => k

def isConcrete : Value → Bool
  | .concrete _ => true
  | .symbolic .. => false

def asBool? : Value → Option Bool
  | .concrete c => c.asBool?
  | .symbolic .. => none

def asInt? : Value → Option Int
  | .concrete c => c.asInt?
  | .symbolic .. => none

/-- The same node, or literals that denote the same. -/
def equal : Value → Value → Bool
  | .concrete c, .concrete d => c.equal d
  | v, w => v = w

end Value

end SmtLowering
