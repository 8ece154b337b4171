import SmtLowering.Kind
import SmtLowering.Binary64
import SmtLowering.Word

/-!
# Literals

A literal is a kind with a payload, words being kept canonical. A literal may be built with a
payload that its kind does not have; `Literal.WellFormed` rules that out.
-/

namespace SmtLowering

inductive Payload
  | bool (b : Bool)
  | int (i : Int)
  | real (q : Rat)
  | float (x : Binary64)
  deriving DecidableEq, Inhabited

namespace Payload

/-- Equality of what payloads denote; it differs from identity on floats alone. -/
def equal : Payload → Payload → Bool
  | .float x, .float y => x.equal y
  | p, q => p = q

def asBool? : Payload → Option Bool
  | .bool b => some b
  | _ => none

def asInt? : Payload → Option Int
  | .int i => some i
  | _ => none

/-- A rational as numerator over denominator, the latter left out when it is one. -/
def displayRat (q : Rat) : String :=
  if q.den = 1 then toString q.num else s!"{q.num}/{q.den}"

def display : Payload → String
  | .bool b => toString b
  | .int i => toString i
  | .real q => displayRat q
  | .float x => x.display

end Payload

structure Literal where
  kind : Kind
  payload : Payload
  deriving DecidableEq, Inhabited

namespace Literal

def bool (b : Bool) : Literal := ⟨.bool, .bool b⟩

def int (i : Int) : Literal := ⟨.int, .int i⟩

def real (q : Rat) : Literal := ⟨.real, .real q⟩

def float (exp sig : Nat) (x : Binary64) : Literal := ⟨.float exp sig, .float x⟩

def word (signed : Bool) (width : Nat) (v : Int) : Literal :=
  ⟨.bitVec signed width, .int (wrap signed width v)⟩

/-- `v` under kind `k`: wrapped if `k` is a word, an integer otherwise. -/
def ofInt (k : Kind) (v : Int) : Literal :=
  match k with
  | .bitVec signed width => word signed width v
  | _ => int v

/-- The least word. -/
def minWord (signed : Bool) (width : Nat) : Literal :=
  if signed ∧ 0 < width then word signed width (-modulus (width - 1)) else word signed width 0

/-- The greatest word. -/
def maxWord (signed : Bool) (width : Nat) : Literal :=
  if signed ∧ 0 < width then word signed width (modulus (width - 1) - 1)
  else word signed width (modulus width - 1)

def asBool? (c : Literal) : Option Bool := c.payload.asBool?

def asInt? (c : Literal) : Option Int := c.payload.asInt?

/-- Equal kinds and payloads that denote the same. -/
def equal (c d : Literal) : Bool := c.kind = d.kind && c.payload.equal d.payload

def display (c : Literal) : String := s!"{c.payload.display} :: {c.kind}"

/-- The payload is one of the kind, words being canonical. -/
def WellFormed : Literal → Prop
  | ⟨.bool, .bool _⟩ => True
  | ⟨.bitVec signed width, .int v⟩ => wrap signed width v = v
  | ⟨.int, .int _⟩ => True
  | ⟨.real, .real _⟩ => True
  | ⟨.float _ _, .float _⟩ => True
  | _ => False

end Literal

end SmtLowering
